/-
  The main loop of `grep` (`grep.c`): the input comes in pieces.

  `buf` is the list of the `m` bytes that the buffer holds, `reads` what the
  calls of `read` return until the end of the input.  A piece without a newline
  is lost, together with the part of its line that the buffer held before: the
  loop goes on with `m = 0`.  `seen` are the lines that are left, and `grep`
  writes those of them that match.
-/
import Mathlib.Data.List.Basic
import Mathlib.Tactic.Common
import Xv6.User.Grep

namespace Xv6.Grep

abbrev newline : UInt8 := 10

/-- `sizeof(buf)` -/
abbrev bufSize : ℕ := 1024

/-! ## `grep.c` -/

/-- `strchr` of `ulib.c`: the string from the first `c` on. -/
def strchr : List UInt8 → UInt8 → Option (List UInt8)
  | [], _ => none
  | x :: s, c => if x = 0 then none else if x = c then some (x :: s) else strchr s c

/-- The inner loop of `grep`, at most `fuel` rounds of it: what it writes, and `p` at its end. -/
def lineLoop (pattern : List UInt8) : ℕ → List UInt8 → List (List UInt8) × List UInt8
  | 0, p => ([], p)
  | fuel + 1, p =>
    match strchr p newline with
    | none => ([], p)
    | some q =>
      let text := p.take (p.length - q.length)
      let (out, p) := lineLoop pattern fuel q.tail
      (if match' pattern text then (text ++ [newline]) :: out else out, p)

/-- The loop of `grep`: what it writes. -/
def grepLoop (pattern : List UInt8) : List (List UInt8) → List UInt8 → List (List UInt8)
  | [], _ => []
  | read :: reads, buf =>
    -- `read` of no bytes returns 0
    if bufSize - buf.length - 1 = 0 then []
    else
      let buf := buf ++ read
      let (out, p) := lineLoop pattern buf.length buf
      out ++ grepLoop pattern reads (if p.length = buf.length then [] else p)

def grep (pattern : List UInt8) (reads : List (List UInt8)) : List (List UInt8) :=
  grepLoop pattern reads []

/-! ## Lines -/

/-- A text of whole lines. -/
def joined (ls : List (List UInt8)) : List UInt8 := (ls.map (· ++ [newline])).flatten

/-- Cut a text into its whole lines and the rest. -/
def cut : List UInt8 → List (List UInt8) × List UInt8
  | [] => ([], [])
  | c :: s =>
    if c = newline then ([] :: (cut s).1, (cut s).2)
    else
      match (cut s).1 with
      | [] => ([], c :: (cut s).2)
      | l :: ls => ((c :: l) :: ls, (cut s).2)

section
variable {l r s : List UInt8} {ls : List (List UInt8)}

@[simp] theorem joined_nil : joined [] = [] := rfl

theorem joined_cons (l : List UInt8) (ls : List (List UInt8)) :
    joined (l :: ls) = l ++ newline :: joined ls := by
  simp [joined]

/-- A text that begins without a newline. -/
theorem cut_append (hl : newline ∉ l) : cut (l ++ s) =
    match (cut s).1 with
    | [] => ([], l ++ (cut s).2)
    | l' :: ls => ((l ++ l') :: ls, (cut s).2) := by
  induction l with
  | nil =>
    cases h : cut s with
    | mk ls r => cases ls <;> simp [h]
  | cons c l ih =>
    have hc : c ≠ newline := fun heq => hl (heq ▸ List.mem_cons_self)
    rw [List.cons_append, cut, if_neg hc, ih fun hm => hl (List.mem_cons_of_mem c hm)]
    cases (cut s).1 <;> rfl

theorem cut_rest (hr : newline ∉ r) : cut r = ([], r) := by
  have h : cut (r ++ []) = ([], r ++ []) := cut_append hr
  rwa [List.append_nil] at h

theorem cut_line (hl : newline ∉ l) (s : List UInt8) :
    cut (l ++ newline :: s) = (l :: (cut s).1, (cut s).2) := by
  rw [cut_append hl, cut, if_pos rfl]
  simp

theorem cut_joined (hls : ∀ l ∈ ls, newline ∉ l) (s : List UInt8) :
    cut (joined ls ++ s) = (ls ++ (cut s).1, (cut s).2) := by
  induction ls with
  | nil => rfl
  | cons l ls ih =>
    rw [joined_cons, List.append_assoc, List.cons_append, cut_line (hls l List.mem_cons_self),
      ih fun l' hl' => hls l' (List.mem_cons_of_mem l hl')]
    rfl

theorem joined_cut (s : List UInt8) : joined (cut s).1 ++ (cut s).2 = s := by
  induction s with
  | nil => rfl
  | cons c s ih =>
    rw [cut]
    split_ifs with hc
    · rw [joined_cons, List.nil_append, List.cons_append, ih, hc]
    · cases h : (cut s).1 with
      | nil =>
        rw [h, joined_nil, List.nil_append] at ih
        simp only [joined_nil, List.nil_append, ih]
      | cons l ls =>
        rw [h, joined_cons] at ih
        simp only [joined_cons, List.cons_append, ih]

theorem newline_not_mem_cut (s : List UInt8) :
    (∀ l ∈ (cut s).1, newline ∉ l) ∧ newline ∉ (cut s).2 := by
  induction s with
  | nil => simp [cut]
  | cons c s ih =>
    obtain ⟨hls, hr⟩ := ih
    rw [cut]
    split_ifs with hc
    · simpa using ⟨hls, hr⟩
    · cases h : (cut s).1 with
      | nil => simpa [h, Ne.symm hc] using hr
      | cons l ls =>
        rw [h] at hls
        simpa [Ne.symm hc, hr] using hls

end

/-! ## The loops -/

/-- What the buffer keeps of `buf ++ read`. -/
def kept (buf read : List UInt8) : List UInt8 :=
  if newline ∈ read then (cut (buf ++ read)).2 else []

/-- The lines that `grep` gets to see. -/
def seen : List (List UInt8) → List UInt8 → List (List UInt8)
  | [], _ => []
  | read :: reads, buf => (cut (buf ++ read)).1 ++ seen reads (kept buf read)

/-- Every call of `read` returns at least one byte, and no more than it is asked for. -/
def Served : List (List UInt8) → List UInt8 → Prop
  | [], _ => True
  | read :: reads, buf =>
    read ≠ [] ∧ read.length ≤ bufSize - buf.length - 1 ∧ Served reads (kept buf read)

/-- The lines of `ls` that match, as `grep` writes them. -/
def matching (pattern : List UInt8) (ls : List (List UInt8)) : List (List UInt8) :=
  (ls.filter (match' pattern)).map (· ++ [newline])

section
variable {pattern l r s : List UInt8} {ls : List (List UInt8)}

theorem strchr_line (h0 : 0 ∉ l) (hl : newline ∉ l) (s : List UInt8) :
    strchr (l ++ newline :: s) newline = some (newline :: s) := by
  induction l with
  | nil => rfl
  | cons c l ih =>
    have hc0 : c ≠ 0 := fun heq => h0 (heq ▸ List.mem_cons_self)
    have hc : c ≠ newline := fun heq => hl (heq ▸ List.mem_cons_self)
    rw [List.cons_append, strchr, if_neg hc0, if_neg hc]
    exact ih (fun hm => h0 (List.mem_cons_of_mem c hm)) fun hm => hl (List.mem_cons_of_mem c hm)

theorem strchr_rest (hr : newline ∉ r) : strchr r newline = none := by
  induction r with
  | nil => rfl
  | cons c r ih =>
    have hc : c ≠ newline := fun heq => hr (heq ▸ List.mem_cons_self)
    rw [strchr, if_neg hc, ih fun hm => hr (List.mem_cons_of_mem c hm), ite_self]

/-- **The inner loop** writes the lines that match and stops at the rest. -/
theorem lineLoop_joined (hls : ∀ l ∈ ls, 0 ∉ l ∧ newline ∉ l) (hr : newline ∉ r) {fuel : ℕ}
    (hfuel : ls.length ≤ fuel) :
    lineLoop pattern fuel (joined ls ++ r) = (matching pattern ls, r) := by
  induction ls generalizing fuel with
  | nil =>
    cases fuel with
    | zero => rfl
    | succ fuel => rw [joined_nil, List.nil_append, lineLoop, strchr_rest hr]; rfl
  | cons l ls ih =>
    cases fuel with
    | zero => cases hfuel
    | succ fuel =>
      obtain ⟨h0, hl⟩ := hls l List.mem_cons_self
      have htake : (l ++ newline :: (joined ls ++ r)).take ((l ++ newline :: (joined ls ++ r)).length -
          (newline :: (joined ls ++ r)).length) = l := by
        rw [List.length_append, Nat.add_sub_cancel, List.take_left]
      rw [joined_cons, List.append_assoc, List.cons_append, lineLoop, strchr_line h0 hl]
      simp only [htake, List.tail_cons]
      rw [ih (fun l' hl' => hls l' (List.mem_cons_of_mem l hl')) (Nat.le_of_succ_le_succ hfuel)]
      simp only [matching, List.filter_cons]
      split_ifs <;> rfl

theorem length_le_joined (ls : List (List UInt8)) : ls.length ≤ (joined ls).length := by
  induction ls with
  | nil => exact le_rfl
  | cons l ls ih =>
    rw [joined_cons, List.length_append, List.length_cons, List.length_cons]
    omega

theorem zero_not_mem_cut (h0 : 0 ∉ s) : ∀ l ∈ (cut s).1, 0 ∉ l := by
  intro l hl hm
  rw [← joined_cut s] at h0
  refine h0 (List.mem_append_left _ (List.mem_flatten.2 ⟨l ++ [newline], ?_, ?_⟩))
  · exact List.mem_map.2 ⟨l, hl, rfl⟩
  · exact List.mem_append_left _ hm

theorem lineLoop_cut (h0 : 0 ∉ s) :
    lineLoop pattern s.length s = (matching pattern (cut s).1, (cut s).2) := by
  obtain ⟨hls, hr⟩ := newline_not_mem_cut s
  have hlen : (cut s).1.length ≤ s.length := by
    calc (cut s).1.length ≤ (joined (cut s).1).length := length_le_joined _
      _ ≤ (joined (cut s).1 ++ (cut s).2).length := by simp
      _ = s.length := by rw [joined_cut]
  have h : lineLoop pattern s.length (joined (cut s).1 ++ (cut s).2) = _ :=
    lineLoop_joined (fun l hl => ⟨zero_not_mem_cut h0 l hl, hls l hl⟩) hr hlen
  rwa [joined_cut] at h

/-- `p` is still at the start of the buffer. -/
theorem length_cut (hr : newline ∉ r) (s : List UInt8) :
    (cut (r ++ s)).2.length = (r ++ s).length ↔ newline ∉ s := by
  constructor
  · intro hlen hm
    have hj := congrArg List.length (joined_cut (r ++ s))
    rw [List.length_append, hlen] at hj
    have hnil : (cut (r ++ s)).1 = [] := by
      have := length_le_joined (cut (r ++ s)).1
      exact List.eq_nil_of_length_eq_zero (by omega)
    have hrest := joined_cut (r ++ s)
    rw [hnil, joined_nil, List.nil_append] at hrest
    have hfree := (newline_not_mem_cut (r ++ s)).2
    rw [hrest] at hfree
    exact hfree (List.mem_append_right r hm)
  · intro hs
    rw [cut_rest fun hm => (List.mem_append.1 hm).elim hr hs]

/-! ## Short lines -/

/-- A text of whole lines that fit into the buffer. -/
def Short (s : List UInt8) : Prop :=
  (cut s).2 = [] ∧ ∀ l ∈ (cut s).1, l.length < bufSize - 1

theorem newline_not_mem_kept (r s : List UInt8) : newline ∉ kept r s := by
  rw [kept]
  split_ifs
  · exact (newline_not_mem_cut _).2
  · exact List.not_mem_nil

/-- The whole lines of a text that comes in two pieces. -/
theorem cut_pieces (s s' : List UInt8) : (cut (s ++ s')).1 = (cut s).1 ++ (cut ((cut s).2 ++ s')).1 ∧
    (cut (s ++ s')).2 = (cut ((cut s).2 ++ s')).2 := by
  have h := cut_joined (newline_not_mem_cut s).1 ((cut s).2 ++ s')
  rw [← List.append_assoc, joined_cut] at h
  rw [h]
  exact ⟨rfl, rfl⟩

/-- The beginning of a line goes. -/
theorem Short.tail (h : Short (l ++ s)) (hl : newline ∉ l) : Short s := by
  rw [Short, cut_append hl] at h
  rw [Short]
  cases hs : (cut s).1 with
  | nil =>
    rw [hs] at h
    exact ⟨(List.append_eq_nil_iff.1 h.1).2, by simp⟩
  | cons l' ls =>
    rw [hs] at h
    obtain ⟨hr, hls⟩ := h
    refine ⟨hr, fun x hx => ?_⟩
    rcases List.mem_cons.1 hx with rfl | hx
    · have := hls (l ++ x) List.mem_cons_self
      rw [List.length_append] at this
      omega
    · exact hls x (List.mem_cons_of_mem _ hx)

/-- The buffer has room for the rest of its line. -/
theorem Short.room (h : Short (l ++ s)) (hl : newline ∉ l) : bufSize - l.length - 1 ≠ 0 := by
  rw [Short, cut_append hl] at h
  have hlen : l.length < bufSize - 1 := by
    cases hs : (cut s).1 with
    | nil =>
      rw [hs] at h
      rw [(List.append_eq_nil_iff.1 h.1).1]
      decide
    | cons l' ls =>
      rw [hs] at h
      have := h.2 (l ++ l') List.mem_cons_self
      rw [List.length_append] at this
      omega
  omega

theorem Short.kept (h : Short (r ++ (l ++ s))) (hr : newline ∉ r) : Short (kept r l ++ s) := by
  rw [← List.append_assoc] at h
  rw [Grep.kept]
  split_ifs with hl
  · obtain ⟨hls, hrest⟩ := cut_pieces (r ++ l) s
    rw [Short, hls, hrest] at h
    exact ⟨h.1, fun x hx => h.2 x (List.mem_append_right _ hx)⟩
  · exact h.tail fun hm => (List.mem_append.1 hm).elim hr hl

/-- **`grep`** writes the lines that match of those that it sees. -/
theorem grepLoop_seen (reads : List (List UInt8)) : ∀ {buf : List UInt8}, newline ∉ buf →
    0 ∉ buf ++ reads.flatten → Short (buf ++ reads.flatten) →
    grepLoop pattern reads buf = matching pattern (seen reads buf) := by
  induction reads with
  | nil => intros; rfl
  | cons read reads ih =>
    intro buf hbuf h0 hshort
    rw [List.flatten_cons] at h0 hshort
    have h0' : 0 ∉ buf ++ read := fun hm => h0 (by
      rw [← List.append_assoc]
      exact List.mem_append_left _ hm)
    have hkept : (if (cut (buf ++ read)).2.length = (buf ++ read).length then []
        else (cut (buf ++ read)).2) = kept buf read := by
      simp only [length_cut hbuf, kept]
      by_cases hm : newline ∈ read <;> simp [hm]
    have h0k : 0 ∉ kept buf read ++ reads.flatten := by
      intro hm
      rcases List.mem_append.1 hm with hm | hm
      · rw [kept] at hm
        split_ifs at hm with hl
        · refine h0' ?_
          rw [← joined_cut (buf ++ read)]
          exact List.mem_append_right _ hm
        · cases hm
      · exact h0 (by simp [hm])
    rw [grepLoop, if_neg (hshort.room hbuf), seen]
    simp only [lineLoop_cut h0', hkept]
    rw [ih (newline_not_mem_kept buf read) h0k (hshort.kept hbuf), matching, matching, matching,
      List.filter_append, List.map_append]

/-! ## When nothing is lost -/

/-- If every piece has a newline, `grep` sees all lines. -/
theorem seen_of_newlines {reads : List (List UInt8)} : ∀ {buf : List UInt8},
    (cut (buf ++ reads.flatten)).2 = [] → newline ∉ buf → (∀ read ∈ reads, newline ∈ read) →
    seen reads buf = (cut (buf ++ reads.flatten)).1 := by
  induction reads with
  | nil =>
    intro buf _ hbuf _
    rw [List.flatten_nil, List.append_nil, cut_rest hbuf, seen]
  | cons read reads ih =>
    intro buf hrest hbuf hreads
    have hk : kept buf read = (cut (buf ++ read)).2 := if_pos (hreads read List.mem_cons_self)
    rw [List.flatten_cons, ← List.append_assoc] at hrest ⊢
    obtain ⟨hls, hr⟩ := cut_pieces (buf ++ read) reads.flatten
    rw [hr, ← hk] at hrest
    rw [seen, hls, ← hk, ih hrest (newline_not_mem_kept buf read)
      fun x hx => hreads x (List.mem_cons_of_mem _ hx)]

theorem length_joined_cut (s : List UInt8) :
    (joined (cut s).1).length + (cut s).2.length = s.length := by
  rw [← List.length_append, joined_cut]

/-- `grep` sees no more bytes than there are, and fewer if a piece has no newline. -/
theorem length_seen {reads : List (List UInt8)} : ∀ {buf : List UInt8}, newline ∉ buf →
    Served reads buf → (joined (seen reads buf)).length ≤ (buf ++ reads.flatten).length ∧
      ((∃ read ∈ reads, newline ∉ read) →
        (joined (seen reads buf)).length < (buf ++ reads.flatten).length) := by
  induction reads with
  | nil =>
    intro buf _ _
    exact ⟨Nat.zero_le _, (by simp)⟩
  | cons read reads ih =>
    intro buf hbuf hserved
    obtain ⟨hne, -, hserved⟩ := hserved
    obtain ⟨hle, hlt⟩ := ih (newline_not_mem_kept buf read) hserved
    have hpos : 0 < read.length := List.length_pos_iff.2 hne
    have hcut := length_joined_cut (buf ++ read)
    have hjoin : (joined (seen (read :: reads) buf)).length =
        (joined (cut (buf ++ read)).1).length + (joined (seen reads (kept buf read))).length := by
      rw [seen, joined, List.map_append, List.flatten_append, List.length_append]
      rfl
    simp only [List.length_append, List.flatten_cons] at hle hlt hcut ⊢
    rw [hjoin]
    by_cases hm : newline ∈ read
    · have hk : kept buf read = (cut (buf ++ read)).2 := if_pos hm
      rw [hk] at hle hlt ⊢
      refine ⟨by omega, ?_⟩
      rintro ⟨x, hx, hno⟩
      rcases List.mem_cons.1 hx with rfl | hx
      · exact absurd hm hno
      · have := hlt ⟨x, hx, hno⟩
        omega
    · have hk : kept buf read = [] := if_neg hm
      have hnil : (cut (buf ++ read)).1 = [] := by
        rw [cut_rest fun h => (List.mem_append.1 h).elim hbuf hm]
      rw [hk, List.length_nil] at hle
      rw [hnil, joined_nil, List.length_nil, hk]
      exact ⟨by omega, fun _ => by omega⟩

end

/-- **`grep` writes the lines that match** iff the lines that it sees have the same ones among
them; that is so for every pattern iff every piece of the input has a newline. -/
theorem grep_matching_iff {reads lines : List (List UInt8)} (hserved : Served reads [])
    (hflat : reads.flatten = joined lines)
    (hlines : ∀ l ∈ lines, 0 ∉ l ∧ newline ∉ l ∧ l.length < bufSize - 1) :
    (∀ pattern, grep pattern reads = matching pattern lines ↔
      (seen reads []).filter (match' pattern) = lines.filter (match' pattern)) ∧
    ((∀ pattern, grep pattern reads = matching pattern lines) ↔
      ∀ read ∈ reads, newline ∈ read) := by
  have hcut : cut ([] ++ reads.flatten) = (lines, []) := by
    have h := cut_joined (fun l hl => (hlines l hl).2.1) []
    rw [List.append_nil] at h
    rw [List.nil_append, hflat, h, cut, List.append_nil]
  have h0 : 0 ∉ [] ++ reads.flatten := by
    rw [List.nil_append, hflat]
    intro hm
    obtain ⟨l', hl', h0⟩ := List.mem_flatten.1 hm
    obtain ⟨l, hl, rfl⟩ := List.mem_map.1 hl'
    rcases List.mem_append.1 h0 with h0 | h0
    · exact (hlines l hl).1 h0
    · exact absurd (List.mem_singleton.1 h0) (by decide)
  have hshort : Short ([] ++ reads.flatten) := by
    rw [Short, hcut]
    exact ⟨rfl, fun l hl => (hlines l hl).2.2⟩
  have hgrep : ∀ pattern, grep pattern reads = matching pattern (seen reads []) := fun pattern =>
    grepLoop_seen reads List.not_mem_nil h0 hshort
  have hinj : Function.Injective fun l : List UInt8 => l ++ [newline] :=
    fun _ _ => List.append_cancel_right
  refine ⟨fun pattern => ?_, fun h => ?_, fun h pattern => ?_⟩
  · rw [hgrep, matching, matching, (List.map_injective_iff.2 hinj).eq_iff]
  · -- the empty pattern matches every line
    by_contra! hno
    have hall : ∀ ls : List (List UInt8), matching [] ls = ls.map (· ++ [newline]) := by
      intro ls
      rw [matching, List.filter_eq_self.2]
      intro l _
      rw [match', if_neg (by decide)]
      cases l <;> simp [matchLoop, matchhere]
    have heq := h []
    rw [hgrep, hall, hall] at heq
    have hlt := (length_seen (List.not_mem_nil) hserved).2 hno
    rw [joined, heq, ← joined, List.nil_append, hflat] at hlt
    exact lt_irrefl _ hlt
  · rw [hgrep, seen_of_newlines (by rw [hcut]) List.not_mem_nil h, hcut]

/-- Two lines, the second of them in two pieces. -/
theorem grep_matching_pieces : Served [[97, 10, 98], [99, 10]] [] ∧
    ∀ pattern, grep pattern [[97, 10, 98], [99, 10]] = matching pattern [[97], [98, 99]] := by
  have hserved : Served [[97, 10, 98], [99, 10]] [] := by simp +decide [Served]
  have hflat : [[97, 10, 98], [99, 10]].flatten = joined [[97], [98, 99]] := rfl
  refine ⟨hserved, ?_⟩
  exact (grep_matching_iff hserved hflat (by decide)).2.2 (by decide)

/-- A pipe that gives the line `a` and its newline one by one. -/
theorem grep_loses_line : Served [[97], [10]] [] ∧ [[97], [10]].flatten = joined [[97]] ∧
    grep [97] [[97], [10]] ≠ matching [97] [[97]] := by
  refine ⟨by simp +decide [Served], rfl, ?_⟩
  have hline : match' [97] [97] = true := by
    simp +decide [match', matchLoop, matchhere]
  have hrest : match' [97] [] = false := by
    simp +decide [match', matchLoop, matchhere]
  simp +decide [grep, grepLoop, lineLoop, strchr, matching, hline, hrest]

end Xv6.Grep
