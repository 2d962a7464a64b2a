/-
  The line discipline of the console.

  The abstract editor has a queue of committed characters and the line that is
  being edited, and knows of every read in progress what it has got.  The
  console of `console.c` refines it (`console_refines`): the queue are the
  characters between the read and the write index, the line those between the
  write and the edit index.
-/
import Xv6.Io.Console

namespace Xv6

open Function

namespace Console

variable {ι : Type} [DecidableEq ι]

/-! ## The editor -/

structure Editor (ι : Type) where
  /-- the committed characters -/
  queue : List UInt8
  /-- the line that is being edited -/
  line : List UInt8
  /-- the reads in progress: how many characters they ask for, and what they have got -/
  reads : ι → Option (ℕ × List UInt8)

namespace Editor

/-- Commit the line with `c` as its last character. -/
def commit (a : Editor ι) (c : UInt8) : Editor ι :=
  { a with queue := a.queue ++ (a.line ++ [c]), line := [] }

def type (a : Editor ι) (c : UInt8) : Editor ι :=
  if c = ctrl 'U' then { a with line := [] }
  else if c = ctrl 'H' ∨ c = 0x7f then { a with line := a.line.dropLast }
  else if a.queue.length + a.line.length < INPUT_BUF then
    let c := if c = 13 then newline else c
    if c = newline ∨ c = ctrl 'D' ∨ a.queue.length + a.line.length + 1 = INPUT_BUF then a.commit c
    else { a with line := a.line ++ [c] }
  else a

/-- Characters that do not end a read. -/
def Plain (xs : List UInt8) : Prop := newline ∉ xs ∧ ctrl 'D' ∉ xs

/-- What a section of a read for `n` characters does that has got `got` so far: the queue, the
queue after it, what the read has got then, and whether it is over. -/
inductive Served (n : ℕ) (got : List UInt8) : List UInt8 → List UInt8 → List UInt8 → Bool → Prop
  /-- It takes all there is and waits for more. -/
  | wait {xs : List UInt8} : Plain xs → (got ++ xs).length < n →
      Served n got xs [] (got ++ xs) false
  /-- It has got what it asked for. -/
  | full {xs q : List UInt8} : Plain xs → (got ++ xs).length = n →
      Served n got (xs ++ q) q (got ++ xs) true
  /-- It ends after a newline. -/
  | newline {xs q : List UInt8} : Plain xs → (got ++ xs).length < n →
      Served n got (xs ++ newline :: q) q (got ++ (xs ++ [newline])) true
  /-- It ends at a ^D, which stays in the queue if there is something to return. -/
  | eof {xs q : List UInt8} : Plain xs → (got ++ xs).length < n →
      Served n got (xs ++ ctrl 'D' :: q) (if got ++ xs = [] then q else ctrl 'D' :: q)
        (got ++ xs) true

/-- The queue becomes `q`, and the read of `p` becomes `x`. -/
def serve (a : Editor ι) (q : List UInt8) (p : ι) (x : Option (ℕ × List UInt8)) : Editor ι :=
  { a with queue := q, reads := update a.reads p x }

inductive Step : Editor ι → Act ι → Editor ι → Prop
  | intr {a : Editor ι} {cs : List UInt8} : Step a (.intr cs) (cs.foldl type a)
  | call {a : Editor ι} {p : ι} {n : ℕ} : a.reads p = none →
      Step a (.call p n) (a.serve a.queue p (some (n, [])))
  | sleep {a : Editor ι} {p : ι} {n : ℕ} {got ds q : List UInt8} : a.reads p = some (n, got) →
      Served n got a.queue q ds false → Step a (.sleep p) (a.serve q p (some (n, ds)))
  | ret {a : Editor ι} {p : ι} {n : ℕ} {got ds q : List UInt8} : a.reads p = some (n, got) →
      Served n got a.queue q ds true → Step a (.ret p ds.length ds) (a.serve q p none)

section

variable {n : ℕ} {got : List UInt8}

theorem plain_nil : Plain [] := ⟨List.not_mem_nil, List.not_mem_nil⟩

theorem Served.nil_wait (h : got.length < n) : Served n got [] [] got false := by
  have := Served.wait plain_nil (show (got ++ []).length < n by rwa [List.append_nil])
  rwa [List.append_nil] at this

theorem Served.nil_full (h : got.length = n) {q : List UInt8} : Served n got q q got true := by
  have := Served.full (q := q) plain_nil (show (got ++ []).length = n by rwa [List.append_nil])
  rwa [List.append_nil] at this

theorem Served.nil_newline (h : got.length < n) {q : List UInt8} :
    Served n got (Console.newline :: q) q (got ++ [Console.newline]) true :=
  @Served.newline n got [] q plain_nil (by rwa [List.append_nil])

theorem Served.nil_eof (h : got.length < n) {q : List UInt8} :
    Served n got (ctrl 'D' :: q) (if got = [] then q else ctrl 'D' :: q) got true := by
  have := Served.eof (q := q) plain_nil (show (got ++ []).length < n by rwa [List.append_nil])
  rwa [List.append_nil] at this

theorem Served.cons {q q' ds : List UInt8} {b : Bool} {c : UInt8}
    (h : Served n (got ++ [c]) q q' ds b) (hc : c ≠ Console.newline ∧ c ≠ ctrl 'D') :
    Served n got (c :: q) q' ds b := by
  have plain : ∀ {xs}, Plain xs → Plain (c :: xs) := fun h =>
    ⟨by simp [hc.1.symm, h.1], by simp [hc.2.symm, h.2]⟩
  cases h with
  | @wait xs hp hn =>
    rw [List.append_assoc] at hn ⊢
    exact .wait (plain hp) hn
  | @full xs q hp hn =>
    rw [List.append_assoc] at hn ⊢
    exact .full (plain hp) hn
  | @newline xs q hp hn =>
    rw [List.append_assoc] at hn ⊢
    exact .newline (plain hp) hn
  | @eof xs q hp hn =>
    rw [List.append_assoc] at hn ⊢
    exact .eof (plain hp) hn

end

end Editor

/-! ## The buffer -/

namespace Input

variable {i : Input}

/-- The characters from the read to the edit index. -/
def ring (i : Input) : RingBuf UInt8 INPUT_BUF := ⟨i.buf, i.r, i.e⟩

/-- How many of them are committed. -/
def committed (i : Input) : ℕ := (i.w - i.r).toNat

def queue (i : Input) : List UInt8 := i.ring.toList.take i.committed

def line (i : Input) : List UInt8 := i.ring.toList.drop i.committed

/-- The buffer is not overrun, and the write index lies between the other two. -/
structure Ok (i : Input) : Prop where
  size : (i.e - i.r).toNat ≤ INPUT_BUF
  between : (i.w - i.r).toNat ≤ (i.e - i.r).toNat
  /-- a newline is committed at once -/
  line : newline ∉ i.line

theorem length_ring (i : Input) : i.ring.toList.length = (i.e - i.r).toNat :=
  RingBuf.length_toList

theorem Ok.length_queue (h : i.Ok) : i.queue.length = i.committed := by
  rw [queue, List.length_take, length_ring]
  exact min_eq_left h.between

theorem queue_append_line (i : Input) : i.queue ++ i.line = i.ring.toList :=
  List.take_append_drop _ _

theorem length_append_line (i : Input) : i.queue.length + i.line.length = (i.e - i.r).toNat := by
  rw [← List.length_append, queue_append_line, length_ring]

/-- How the buffer is cut into queue and line. -/
theorem Ok.of_append {q l : List UInt8} (h : i.ring.toList = q ++ l) (hq : q.length = i.committed)
    (hsize : (i.e - i.r).toNat ≤ INPUT_BUF) (hl : newline ∉ l) :
    i.Ok ∧ i.queue = q ∧ i.line = l := by
  have hl' : i.line = l := by rw [Input.line, h, List.drop_left' hq]
  refine ⟨⟨hsize, ?_, by rwa [hl']⟩, by rw [queue, h, List.take_left' hq], hl'⟩
  rw [← length_ring, h, List.length_append]
  show i.committed ≤ _
  omega

theorem Ok.committed_iff (h : i.Ok) : i.e = i.w ↔ i.line = [] := by
  have hl := i.length_append_line
  rw [h.length_queue] at hl
  have := h.between
  have := i.r.toNat_lt
  have := i.e.toNat_lt
  have := i.w.toNat_lt
  rw [← List.length_eq_zero_iff, ← UInt32.toNat_inj]
  simp only [committed, UInt32.toNat_sub] at *
  omega

theorem Ok.empty_iff (h : i.Ok) : i.r = i.w ↔ i.queue = [] := by
  have := i.r.toNat_lt
  have := i.w.toNat_lt
  rw [← List.length_eq_zero_iff, h.length_queue, ← UInt32.toNat_inj, committed, UInt32.toNat_sub]
  omega

theorem erase_ring (h : i.r ≠ i.e) :
    i.ring.toList = i.erase.ring.toList ++ [i.char (i.e - 1)] :=
  RingBuf.toList_unpush (b := i.ring) h

theorem Ok.erase (h : i.Ok) (he : i.e ≠ i.w) : i.erase.Ok ∧ i.erase.queue = i.queue ∧
    i.line = i.erase.line ++ [i.char (i.e - 1)] := by
  rcases List.eq_nil_or_concat i.line with hnil | ⟨l, c, hl⟩
  · exact absurd (h.committed_iff.2 hnil) he
  rw [List.concat_eq_append] at hl
  have hre : i.r ≠ i.e := by
    intro hre
    have hlen := i.length_append_line
    rw [hre, UInt32.sub_self, UInt32.toNat_zero, hl, List.length_append, List.length_singleton] at hlen
    omega
  have hring := i.erase_ring hre
  rw [← queue_append_line, hl, ← List.append_assoc] at hring
  obtain ⟨hring, hc⟩ := List.append_inj' hring rfl
  have hsize : i.erase.ring.size + 1 = i.ring.size :=
    RingBuf.size_unpush (b := i.ring) (by rwa [Ne, RingBuf.size_eq_zero_iff])
  have hle : i.ring.size ≤ INPUT_BUF := h.size
  obtain ⟨hok, hq, hl'⟩ := Ok.of_append hring.symm h.length_queue
    (show i.erase.ring.size ≤ INPUT_BUF by omega)
    fun hm => h.line (hl ▸ List.mem_append_left _ hm)
  exact ⟨hok, hq, by rw [hl, hl', hc]⟩

/-- Since it has no newline, kill-line erases the whole line. -/
theorem Ok.killLine (h : i.Ok) : i.killLine.Ok ∧ i.killLine.queue = i.queue ∧
    i.killLine.line = [] := by
  fun_induction Input.killLine i with
  | case1 i hc _ ih =>
    obtain ⟨hok, hq, -⟩ := h.erase hc.1
    obtain ⟨h1, h2, h3⟩ := ih hok
    exact ⟨h1, h2.trans hq, h3⟩
  | case2 i hc =>
    refine ⟨h, rfl, h.committed_iff.1 ?_⟩
    by_contra he
    have hl := (h.erase he).2.2
    refine hc ⟨he, fun hn => h.line ?_⟩
    rw [hl, hn]
    simp

theorem store_ring (hlt : (i.e - i.r).toNat < INPUT_BUF) (c : UInt8) :
    (i.store c).ring.toList = i.queue ++ (i.line ++ [c]) ∧
    ((i.store c).e - (i.store c).r).toNat = (i.e - i.r).toNat + 1 := by
  have hs : i.ring.size < INPUT_BUF := hlt
  constructor
  · rw [← List.append_assoc, queue_append_line]
    exact RingBuf.toList_push (b := i.ring) (by decide) (by decide) c hs
  · exact RingBuf.size_push (b := i.ring) c (by simp only [INPUT_BUF] at hs; omega)

theorem Ok.put (h : i.Ok) (hlt : (i.e - i.r).toNat < INPUT_BUF) {c : UInt8} (hc : c ≠ newline) :
    (i.store c).Ok ∧ (i.store c).queue = i.queue ∧ (i.store c).line = i.line ++ [c] := by
  obtain ⟨hring, hsize⟩ := i.store_ring hlt c
  exact Ok.of_append hring h.length_queue (by omega) (by simp [h.line, hc.symm])

theorem Ok.commit (hlt : (i.e - i.r).toNat < INPUT_BUF) (c : UInt8) :
    let j := { i.store c with w := (i.store c).e }
    j.Ok ∧ j.queue = i.queue ++ (i.line ++ [c]) ∧ j.line = [] := by
  obtain ⟨hring, hsize⟩ := i.store_ring hlt c
  refine Ok.of_append (by rw [List.append_nil]; exact hring) ?_ (by simp only; omega) (by simp)
  rw [← hring, length_ring]
  rfl

/-- The editor with the characters of the buffer. -/
def view (i : Input) (f : ι → Option (ℕ × List UInt8)) : Editor ι := ⟨i.queue, i.line, f⟩

/-- The characters `cs` are typed: the input `i` becomes `j`. -/
structure Typing (i j : Input) (cs : List UInt8) (woken : Bool) : Prop where
  ok : j.Ok
  view : ∀ f : ι → Option (ℕ × List UInt8), cs.foldl Editor.type (i.view f) = j.view f
  r : j.r = i.r
  w : woken = false → j.w = i.w

omit [DecidableEq ι] in
theorem view_eq {j : Input} {q l : List UInt8} (hq : j.queue = q) (hl : j.line = l)
    (f : ι → Option (ℕ × List UInt8)) : j.view f = ⟨q, l, f⟩ := by
  rw [view, hq, hl]

theorem killLine_w (i : Input) : i.killLine.w = i.w ∧ i.killLine.r = i.r := by
  fun_induction Input.killLine i with
  | case1 i _ _ ih => exact ih
  | case2 i => exact ⟨rfl, rfl⟩

omit [DecidableEq ι] in
theorem Ok.getc (h : i.Ok) {c : UInt8} (hc : Typed c) :
    @Typing ι i (i.getc c).1 [c] (i.getc c).2 := by
  obtain ⟨hc0, hcP, hcZ⟩ := hc
  have hlen := i.length_append_line
  rw [Input.getc, if_neg hcZ, if_neg hcP]
  by_cases hU : c = ctrl 'U'
  · obtain ⟨hok, hq, hl⟩ := h.killLine
    rw [if_pos hU]
    refine ⟨hok, fun f => ?_, i.killLine_w.2, fun _ => i.killLine_w.1⟩
    rw [List.foldl_cons, List.foldl_nil, Editor.type, if_pos hU, view_eq hq hl]
    rfl
  rw [if_neg hU]
  by_cases hH : c = ctrl 'H' ∨ c = 0x7f
  · rw [if_pos hH]
    by_cases he : i.e ≠ i.w
    · obtain ⟨hok, hq, hl⟩ := h.erase he
      rw [if_pos he]
      refine ⟨hok, fun f => ?_, rfl, fun _ => rfl⟩
      rw [List.foldl_cons, List.foldl_nil, Editor.type, if_neg hU, if_pos hH,
        view_eq hq (l := i.line.dropLast) (by simp [hl])]
      rfl
    · rw [if_neg he]
      refine ⟨h, fun f => ?_, rfl, fun _ => rfl⟩
      rw [List.foldl_cons, List.foldl_nil, Editor.type, if_neg hU, if_pos hH,
        view_eq rfl (h.committed_iff.1 (not_not.1 he))]
      rfl
  rw [if_neg hH]
  have hlt : i.e - i.r < UInt32.ofNat INPUT_BUF ↔ (i.e - i.r).toNat < INPUT_BUF :=
    UInt32.lt_iff_toNat_lt
  by_cases hroom : (i.e - i.r).toNat < INPUT_BUF
  · rw [if_pos ⟨hc0, hlt.2 hroom⟩]
    have htype : ∀ a : Editor ι, a.queue.length + a.line.length < INPUT_BUF → a.type c = _ :=
      fun a ha => by rw [Editor.type, if_neg hU, if_neg hH, if_pos ha]
    generalize (if c = 13 then newline else c) = d at htype ⊢
    have hfull : (i.store d).e = (i.store d).r + UInt32.ofNat INPUT_BUF ↔
        i.queue.length + i.line.length + 1 = INPUT_BUF := by
      rw [hlen, ← (i.store_ring hroom d).2]
      exact (RingBuf.size_eq_iff (b := (i.store d).ring) (by decide)).symm
    by_cases hd : d = newline ∨ d = ctrl 'D' ∨ i.queue.length + i.line.length + 1 = INPUT_BUF
    · obtain ⟨hok, hq, hl⟩ := Ok.commit hroom d
      simp only [hfull]
      rw [if_pos hd]
      refine ⟨hok, fun f => ?_, rfl, by rintro ⟨⟩⟩
      rw [List.foldl_cons, List.foldl_nil, view_eq hq hl, htype (i.view f) (hlen.trans_lt hroom)]
      exact if_pos hd
    · obtain ⟨hok, hq, hl⟩ := h.put hroom (mt .inl hd)
      simp only [hfull]
      rw [if_neg hd]
      refine ⟨hok, fun f => ?_, rfl, fun _ => rfl⟩
      rw [List.foldl_cons, List.foldl_nil, view_eq hq hl, htype (i.view f) (hlen.trans_lt hroom)]
      exact if_neg hd
  · rw [if_neg fun hx => hroom (hlt.1 hx.2)]
    refine ⟨h, fun f => ?_, rfl, fun _ => rfl⟩
    rw [List.foldl_cons, List.foldl_nil, Editor.type, if_neg hU, if_neg hH]
    exact if_neg (hlen ▸ hroom)

omit [DecidableEq ι] in
theorem Ok.consoleintr (h : i.Ok) {cs : List UInt8} (hcs : ∀ c ∈ cs, Typed c) :
    @Typing ι i (i.consoleintr cs).1 cs (i.consoleintr cs).2 := by
  induction cs generalizing i with
  | nil => exact ⟨h, fun _ => rfl, rfl, fun _ => rfl⟩
  | cons c cs ih =>
    have htyping : @Typing ι i _ [c] _ := h.getc (hcs c List.mem_cons_self)
    obtain ⟨hok, hview, hr, hw⟩ := htyping
    obtain ⟨hok', hview', hr', hw'⟩ := ih hok fun d hd => hcs d (List.mem_cons_of_mem c hd)
    refine ⟨hok', fun f => ?_, hr'.trans hr, fun hn => ?_⟩
    · rw [List.foldl_cons]
      exact (congrArg (cs.foldl _) (hview f)).trans (hview' f)
    · obtain ⟨h1, h2⟩ := Bool.or_eq_false_iff.1 hn
      exact (hw' h2).trans (hw h1)

theorem next_committed (hne : i.r ≠ i.w) : i.next.committed + 1 = i.committed :=
  RingBuf.size_pop (b := (⟨i.buf, i.r, i.w⟩ : RingBuf UInt8 INPUT_BUF))
    (by rwa [Ne, RingBuf.size_eq_zero_iff])

theorem next_ring (hne : i.r ≠ i.e) : i.ring.toList = i.char i.r :: i.next.ring.toList ∧
    i.next.ring.size + 1 = i.ring.size :=
  ⟨RingBuf.toList_pop (b := i.ring) hne,
    RingBuf.size_pop (b := i.ring) (by rwa [Ne, RingBuf.size_eq_zero_iff])⟩

theorem Ok.r_ne_e (h : i.Ok) (hne : i.r ≠ i.w) : i.r ≠ i.e := by
  intro hre
  have hb := h.between
  have := i.next_committed hne
  rw [← hre, UInt32.sub_self, UInt32.toNat_zero] at hb
  rw [committed.eq_1 i] at this
  omega

/-- The first character of the queue. -/
theorem Ok.next (h : i.Ok) (hne : i.r ≠ i.w) : i.next.Ok ∧
    i.queue = i.char i.r :: i.next.queue ∧ i.next.line = i.line := by
  obtain ⟨hring, hsize⟩ := i.next_ring (h.r_ne_e hne)
  have hle : i.ring.size ≤ INPUT_BUF := h.size
  have hlen := h.length_queue
  have hcat := i.queue_append_line
  rcases hq : i.queue with - | ⟨c, q⟩
  · exact absurd (h.empty_iff.2 hq) hne
  rw [hring, hq, List.cons_append] at hcat
  obtain ⟨rfl, htail⟩ := List.cons.inj hcat
  rw [hq, List.length_cons, ← i.next_committed hne] at hlen
  obtain ⟨hok, hq', hl'⟩ := Ok.of_append htail.symm (Nat.succ.inj hlen)
    (show i.next.ring.size ≤ INPUT_BUF by omega) h.line
  exact ⟨hok, by rw [hq'], hl'⟩

/-- A section of `consoleread`. -/
theorem Ok.consoleread {target n : ℕ} {got : List UInt8} (h : i.Ok)
    (hn : n + got.length = target) {j : Input} {c : Read} {b : Bool}
    (hc : i.consoleread target n got = (j, c, b)) :
    j.Ok ∧ j.line = i.line ∧ j.w = i.w ∧ c.target = target ∧ c.n + c.dst.length = target ∧
    Editor.Served target got i.queue j.queue c.dst b ∧ (b = false → j.r = j.w) := by
  induction n generalizing i got with
  | zero =>
    cases hc
    refine ⟨h, rfl, rfl, rfl, hn, ?_, by rintro ⟨⟩⟩
    exact Editor.Served.nil_full (by omega)
  | succ n ih =>
    rw [Input.consoleread] at hc
    by_cases hrw : i.r = i.w
    · rw [if_pos hrw] at hc
      cases hc
      refine ⟨h, rfl, rfl, rfl, hn, ?_, fun _ => hrw⟩
      rw [h.empty_iff.1 hrw]
      exact Editor.Served.nil_wait (by omega)
    obtain ⟨hok, hq, hl⟩ := h.next hrw
    rw [if_neg hrw] at hc
    by_cases hD : i.char i.r = ctrl 'D'
    · rw [if_pos hD] at hc
      cases hc
      rw [hD] at hq
      have hgot : n + 1 < target ↔ got ≠ [] := by
        rw [← List.length_pos_iff]
        omega
      have hserved := @Editor.Served.nil_eof target got (by omega) i.next.queue
      by_cases hg : got = []
      · rw [if_neg fun hlt => hgot.1 hlt hg, hq]
        rw [if_pos hg] at hserved
        exact ⟨hok, hl, rfl, rfl, hn, hserved, by rintro ⟨⟩⟩
      · -- the character goes back
        rw [if_neg hg, ← hq] at hserved
        have hback : { i.next with r := i.next.r - 1 } = i := by
          rw [Input.next, UInt32.add_sub_cancel]
        rw [if_pos (hgot.2 hg), hback]
        exact ⟨h, rfl, rfl, rfl, hn, hserved, by rintro ⟨⟩⟩
    rw [if_neg hD] at hc
    by_cases hN : i.char i.r = newline
    · rw [if_pos hN] at hc
      cases hc
      refine ⟨hok, hl, rfl, rfl, by simp; omega, ?_, by rintro ⟨⟩⟩
      rw [hq, hN]
      exact .nil_newline (by omega)
    · rw [if_neg hN] at hc
      obtain ⟨h1, h2, h3, h4, h5, h6, h7⟩ := ih hok (by simp; omega) hc
      refine ⟨h1, h2.trans hl, h3, h4, h5, ?_, h7⟩
      rw [hq]
      exact h6.cons ⟨hN, hD⟩

end Input

/-! ## The system -/

/-- The call that a reader is in. -/
def Reader.call : Reader → Option Read
  | idle => none
  | ready c | asleep c => some c

theorem Reader.wakeup_call (x : Reader) : x.wakeup.call = x.call := by cases x <;> rfl

theorem Reader.wakeup_ne (x : Reader) (c : Read) : x.wakeup ≠ asleep c := by cases x <;> rintro ⟨⟩

def Read.got (c : Read) : ℕ × List UInt8 := (c.target, c.dst)

/-- What the editor sees of a state. -/
def State.editor (s : State ι) : Editor ι := s.input.view fun p => (s.reader p).call.map Read.got

structure Inv (s : State ι) : Prop where
  input : s.input.Ok
  count : ∀ {p c}, (s.reader p).call = some c → c.n + c.dst.length = c.target
  /-- no reader sleeps while there is something to read -/
  asleep : ∀ {p c}, s.reader p = .asleep c → s.input.r = s.input.w

variable {s : State ι} {p : ι} {a a' : Editor ι} {n : ℕ}

theorem editor_update {j : Input} (hl : j.line = s.input.line) (p : ι) (x : Reader) :
    (⟨j, update s.reader p x⟩ : State ι).editor =
      s.editor.serve j.queue p (x.call.map Read.got) := by
  rw [State.editor, Input.view_eq rfl hl]
  refine congrArg (Editor.mk _ _) (funext fun q => ?_)
  show (update s.reader p x q).call.map Read.got = _
  by_cases hq : q = p
  · subst hq
    simp
  · rw [update_of_ne hq, update_of_ne hq]
    rfl

theorem Inv.update (h : Inv s) {j : Input} {x : Reader} (hj : j.Ok)
    (hx : ∀ c, x.call = some c → c.n + c.dst.length = c.target)
    (hsleep : ∀ c, x = .asleep c → j.r = j.w) (hrw : s.input.r = s.input.w → j.r = j.w) :
    Inv (⟨j, update s.reader p x⟩ : State ι) := by
  refine ⟨hj, fun {q c} hq => ?_, fun {q c} hq => ?_⟩
  all_goals
    by_cases hqp : q = p
    · subst hqp
      simp only [update_self] at hq
      first | exact hx c hq | exact hsleep c hq
    · simp only [update_of_ne hqp] at hq
      first | exact h.count hq | exact hrw (h.asleep hq)

/-- A reader that sleeps is not served by a read of nothing. -/
theorem Input.consoleread_empty {i j : Input} {target n : ℕ} {got : List UInt8} {c : Read}
    {b : Bool} (h : i.r = i.w) (hc : i.consoleread target n got = (j, c, b)) : j = i := by
  cases n with
  | zero => cases hc; rfl
  | succ n =>
    rw [Input.consoleread, if_pos h] at hc
    cases hc
    rfl

/-- **One step of the console is one step of the editor.** -/
theorem Inv.step {s s' : State ι} {x : Act ι} (h : Inv s) (hs : Step s x s') :
    Inv s' ∧ Editor.Step s.editor x s'.editor := by
  cases hs with
  | @intr cs hcs =>
    have htyping : @Input.Typing ι s.input _ cs _ := h.input.consoleintr hcs
    obtain ⟨hok, hview, hr, hw⟩ := htyping
    have hcall : ∀ p, ((s.intr cs).reader p).call = (s.reader p).call := by
      intro p
      rw [State.intr]
      dsimp only
      split
      · exact (s.reader p).wakeup_call
      · rfl
    refine ⟨⟨hok, fun {p c} hp => h.count ((hcall p).symm.trans hp), fun {p c} hp => ?_⟩, ?_⟩
    · have hp : (if (s.input.consoleintr cs).2 then fun p => (s.reader p).wakeup else s.reader) p =
        .asleep c := hp
      split_ifs at hp with hwoken
      · exact absurd hp ((s.reader p).wakeup_ne c)
      · exact hr.trans ((h.asleep hp).trans (hw (Bool.eq_false_iff.2 hwoken)).symm)
    · have he : (s.intr cs).editor = cs.foldl Editor.type s.editor := by
        rw [State.editor, State.editor, hview]
        exact congrArg _ (funext fun p => congrArg _ (hcall p))
      rw [he]
      exact .intr
  | @call p n hp =>
    refine ⟨h.update h.input ?_ (by rintro _ ⟨⟩) id, ?_⟩
    · intro c hc
      cases hc
      exact Nat.add_zero n
    · rw [editor_update rfl]
      refine .call ?_
      show (s.reader p).call.map Read.got = none
      rw [hp]
      rfl
  | @sleep p c c' i hp hc =>
    have hcall : (s.reader p).call = some c := by rw [hp]; rfl
    obtain ⟨hok, hl, hw, ht, hn, hserved, hrw⟩ := h.input.consoleread (h.count hcall) hc
    refine ⟨h.update hok ?_ (fun _ _ => hrw rfl) fun _ => hrw rfl, ?_⟩
    · intro d hd
      cases hd
      rwa [ht]
    · rw [editor_update hl]
      have hread : s.editor.reads p = some (c.target, c.dst) :=
        congrArg (Option.map Read.got) hcall
      have hstep := Editor.Step.sleep hread hserved
      rwa [← ht] at hstep
  | @ret p c c' i hp hc =>
    have hcall : (s.reader p).call = some c := by rw [hp]; rfl
    obtain ⟨hok, hl, hw, ht, hn, hserved, -⟩ := h.input.consoleread (h.count hcall) hc
    refine ⟨h.update hok (by rintro _ ⟨⟩) (by rintro _ ⟨⟩) fun hrw => ?_, ?_⟩
    · rw [Input.consoleread_empty hrw hc]
      exact hrw
    · rw [editor_update hl, ht, show c.target - c'.n = c'.dst.length by omega]
      exact .ret (congrArg (Option.map Read.got) hcall) hserved

/-- The buffer at boot. -/
theorem Input.ok_zero : Input.Ok ⟨fun _ => 0, 0, 0, 0⟩ ∧ queue ⟨fun _ => 0, 0, 0, 0⟩ = [] ∧
    line ⟨fun _ => 0, 0, 0, 0⟩ = [] :=
  Ok.of_append (RingBuf.toList_eq_nil rfl) rfl (by decide) List.not_mem_nil

theorem inv_of_runs (h : Runs s) : Inv s := by
  refine Transition.Reach.inv ?_ (fun _ _ _ hi hs => (hi.step hs).1) h
  rintro ⟨i, f⟩ ⟨rfl, hf⟩
  refine ⟨Input.ok_zero.1, fun {p c} hp => ?_, fun _ => rfl⟩
  rw [hf p] at hp
  cases hp

/-! ## Whole reads -/

/-- The reader of an action. -/
def Act.reader : Act ι → Option ι
  | intr _ => none
  | call p _ | sleep p | ret p _ _ => some p

/-- A run since `p` called `consoleread(n)`: its sections have removed the characters `rm` from
the front of the queue. -/
inductive Reading (p : ι) (n : ℕ) : List UInt8 → State ι → Prop
  | call {s s' : State ι} : Runs s → Step s (.call p n) s' → Reading p n [] s'
  | other {rm : List UInt8} {s s' : State ι} {x : Act ι} : Reading p n rm s → Step s x s' →
      x.reader ≠ some p → Reading p n rm s'
  | sleep {rm xs : List UInt8} {s s' : State ι} : Reading p n rm s → Step s (.sleep p) s' →
      s.editor.queue = xs ++ s'.editor.queue → Reading p n (rm ++ xs) s'

/-- A whole read for `n` characters: those that it removes from the queue, those that it returns,
and the queue after it. -/
inductive Whole (n : ℕ) : List UInt8 → List UInt8 → List UInt8 → Prop
  | full {ds q : List UInt8} : Editor.Plain ds → ds.length = n → Whole n ds ds q
  | newline {ds q : List UInt8} : Editor.Plain ds → ds.length < n →
      Whole n (ds ++ [newline]) (ds ++ [newline]) q
  /-- The ^D is left for the next read. -/
  | eof {ds q : List UInt8} : Editor.Plain ds → ds.length < n → ds ≠ [] →
      Whole n ds ds (ctrl 'D' :: q)
  | nothing {q : List UInt8} : 0 < n → Whole n [ctrl 'D'] [] q

theorem Editor.Plain.append {xs ys : List UInt8} (hx : Plain xs) (hy : Plain ys) :
    Plain (xs ++ ys) :=
  ⟨by simp [hx.1, hy.1], by simp [hx.2, hy.2]⟩

omit [DecidableEq ι] in
theorem Editor.type_reads (a : Editor ι) (c : UInt8) : (a.type c).reads = a.reads := by
  simp only [type, commit]
  split_ifs <;> rfl

/-- What an action of others leaves to a read. -/
theorem Editor.Step.reads {x : Act ι} (h : Editor.Step a x a') (hp : x.reader ≠ some p) :
    a'.reads p = a.reads p := by
  have hne : ∀ {q}, x.reader = some q → p ≠ q := by
    rintro q hq rfl
    exact hp hq
  cases h with
  | @intr cs =>
    induction cs generalizing a with
    | nil => rfl
    | cons c cs ih =>
      rw [List.foldl_cons, ih (by rintro ⟨⟩) (by rintro _ ⟨⟩), type_reads]
  | call | sleep | ret => exact update_of_ne (hne rfl) ..

theorem Editor.Step.of_call (h : Editor.Step a (.call p n) a') :
    a'.reads p = some (n, []) := by
  cases h
  exact update_self ..

theorem Editor.Step.of_sleep {got : List UInt8} (h : Editor.Step a (.sleep p) a')
    (hp : a.reads p = some (n, got)) :
    a'.reads p = some (n, got ++ a.queue) ∧ a'.queue = [] ∧ Plain a.queue := by
  cases h with
  | @sleep _ _ got' ds q hp' hserved =>
    rw [hp] at hp'
    cases hp'
    obtain ⟨q₀, l, f⟩ := a
    cases hserved with
    | wait hplain _ => exact ⟨update_self .., rfl, hplain⟩

theorem Editor.Step.of_ret {n k : ℕ} {got ds : List UInt8} (h : Editor.Step a (.ret p k ds) a')
    (hp : a.reads p = some (n, got)) :
    Served n got a.queue a'.queue ds true ∧ k = ds.length := by
  cases h with
  | @ret _ _ got' _ q hp' hserved =>
    rw [hp] at hp'
    cases hp'
    exact ⟨hserved, rfl⟩

/-- The last section of a read that has got `got` before. -/
theorem Editor.Served.whole {got q q' ds : List UInt8} (h : Served n got q q' ds true)
    (hgot : Plain got) : ∃ xs, q = xs ++ q' ∧ Whole n (got ++ xs) ds q' := by
  cases h with
  | @full xs _ hxs hn => exact ⟨xs, rfl, .full (hgot.append hxs) hn⟩
  | @newline xs _ hxs hn =>
    refine ⟨xs ++ [Console.newline], by simp, ?_⟩
    rw [← List.append_assoc]
    exact .newline (hgot.append hxs) hn
  | @eof xs q hxs hn =>
    by_cases he : got ++ xs = []
    · rw [if_pos he, he]
      refine ⟨xs ++ [ctrl 'D'], by simp, ?_⟩
      rw [← List.append_assoc, he]
      exact .nothing (by omega)
    · rw [if_neg he]
      exact ⟨xs, rfl, .eof (hgot.append hxs) hn he⟩

theorem Reading.spec {rm : List UInt8} (h : Reading p n rm s) :
    Runs s ∧ s.editor.reads p = some (n, rm) ∧ Editor.Plain rm := by
  induction h with
  | call hs hstep =>
    exact ⟨.step hs hstep, ((inv_of_runs hs).step hstep).2.of_call, Editor.plain_nil⟩
  | other _ hstep hx ih =>
    obtain ⟨hs, hr, hp⟩ := ih
    have hsim := ((inv_of_runs hs).step hstep).2
    exact ⟨.step hs hstep, (hsim.reads hx).trans hr, hp⟩
  | sleep _ hstep hq ih =>
    obtain ⟨hs, hr, hp⟩ := ih
    obtain ⟨hr', hnil, hplain⟩ := ((inv_of_runs hs).step hstep).2.of_sleep hr
    rw [hnil, List.append_nil] at hq
    rw [hq] at hr' hplain
    exact ⟨.step hs hstep, hr', hp.append hplain⟩

/-- **The console is a line discipline.** Its indices stay in order, every step is one of the
editor, and a read removes from the queue what it returns, over all its sections. -/
theorem console_refines {s : State ι} (h : Runs s) :
    (s.input.e - s.input.r).toNat ≤ INPUT_BUF ∧
    (s.input.w - s.input.r).toNat ≤ (s.input.e - s.input.r).toNat ∧
    (Init s → s.editor = ⟨[], [], fun _ => none⟩) ∧
    (∀ x s', Step s x s' → Editor.Step s.editor x s'.editor) ∧
    ∀ p n rm k ds s', Reading p n rm s → Step s (.ret p k ds) s' →
      k = ds.length ∧ ∃ xs, s.editor.queue = xs ++ s'.editor.queue ∧
        Whole n (rm ++ xs) ds s'.editor.queue := by
  have hinv := inv_of_runs h
  refine ⟨hinv.input.size, hinv.input.between, fun h0 => ?_, fun x s' hs => (hinv.step hs).2, ?_⟩
  · obtain ⟨-, hq, hl⟩ := Input.ok_zero
    rw [State.editor, h0.1, Input.view_eq hq hl]
    exact congrArg _ (funext fun p => by rw [h0.2 p]; rfl)
  · intro p n rm k ds s' hrm hs
    obtain ⟨-, hr, hplain⟩ := hrm.spec
    obtain ⟨hserved, hk⟩ := (hinv.step hs).2.of_ret hr
    exact ⟨hk, hserved.whole hplain⟩

-- "a" and a return are typed and read.
theorem console_refines_line : ∃ s s' : State Unit, Runs s ∧ Step s (.ret () 2 [97, 10]) s' ∧
    Editor.Step s.editor (.ret () 2 [97, 10]) s'.editor := by
  have h0 : Runs (⟨⟨fun _ => 0, 0, 0, 0⟩, fun _ => .idle⟩ : State Unit) := .init ⟨rfl, fun _ => rfl⟩
  have hcs : ∀ c ∈ [97, 13], Typed c := by
    simp only [List.forall_mem_cons, List.not_mem_nil]
    exact ⟨by decide, by decide, by rintro _ ⟨⟩⟩
  have h1 := h0.step (.intr hcs)
  have h2 := h1.step (.call (p := ()) (n := 5) rfl)
  have hc : (((Input.consoleintr ⟨fun _ => 0, 0, 0, 0⟩ [97, 13]).1).consoleread 5 5 []).2 =
      (⟨5, 3, [97, 10]⟩, true) := by decide
  have hread : ∀ {s s' : State Unit}, Runs s → Step s (.ret () 2 [97, 10]) s' →
      Runs s ∧ Step s (.ret () 2 [97, 10]) s' ∧
        Editor.Step s.editor (.ret () 2 [97, 10]) s'.editor :=
    fun h hs => ⟨h, hs, (console_refines h).2.2.2.1 _ _ hs⟩
  exact ⟨_, _, hread h2 (@Step.ret _ _ _ () ⟨5, 5, []⟩ ⟨5, 3, [97, 10]⟩ _ rfl (Prod.ext rfl hc))⟩

end Console

end Xv6
