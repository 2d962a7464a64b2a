/-
  `filewrite` by processes that share an open file (`file.c`).

  A call writes its bytes in chunks.  For each chunk it takes the inode lock,
  calls `writei` at `f->off`, advances `f->off` and gives the lock up.  Between
  these steps other calls and other processes run; a process that does not have
  the file open for writing may do everything but write to it.

  The chunks end up in the file one after another, in the order in which they
  held the lock (`filewrite_shared`).
-/
import Xv6.Fs.Content

namespace Xv6.Filewrite

open Fallible Transition

/-! ## The model -/

/-- The most that `filewrite` writes in a transaction. -/
abbrev MAXWRITE : ℕ := (LOGSIZE - 1 - 1 - 2) / 2 * 512

/-- Where a call is; the result -1 of `writei` and of `filewrite` is `none`. -/
inductive Pc where
  /-- at `while(i < n)` -/
  | loop
  /-- holds the inode lock -/
  | locked
  /-- `writei` has returned `r` -/
  | wrote (r : Option ℕ)
  /-- `f->off` has been advanced -/
  | moved (r : Option ℕ)
  /-- panic: short filewrite -/
  | short
  | ret (r : Option ℕ)
  deriving DecidableEq

/-- A call `filewrite(f, addr, n)`; `data` are the `n` bytes at `addr`. -/
structure Call where
  data : List UInt8
  i : ℕ
  pc : Pc

/-- The bytes of the next `writei`. -/
def Call.chunk (c : Call) : List UInt8 := (c.data.drop c.i).take MAXWRITE

/-- After `iunlock` and `end_op`; a `break` leads to the result -1, since `i < n` then. -/
def Call.unlocked (c : Call) : Option ℕ → Call
  | none => { c with pc := .ret none }
  | some r => if r = c.chunk.length then { c with i := c.i + r, pc := .loop } else { c with pc := .short }

structure State where
  fs : Fs
  /-- `f->off` -/
  off : UInt32
  /-- the call that holds the lock of the inode -/
  holder : Option ℕ
  /-- the calls that have taken the lock so far, in order -/
  order : List ℕ
  calls : List Call

/-- The steps of a call. -/
inductive Stmt where
  | ilock
  | writei
  | advance
  | iunlock
  | ret

inductive Label where
  | call (data : List UInt8)
  | stmt (k : ℕ) (x : Stmt)
  | other (op : FsOp)

/-- Call `k` goes on as `c`. -/
def State.set (s : State) (k : ℕ) (c : Call) : State := { s with calls := s.calls.set k c }

/-- What the other processes may do to the entry `ip` of the open file: they need its lock, they do
    not write to it, and the reference of the open file is not theirs to drop. -/
def Allowed (ip : Fin NINODE) (s : State) : FsOp → Prop
  | .ilock j => j = ip → s.holder = none
  | .update j _ _ _ => j = ip → s.holder = none
  | .readi j _ _ => j = ip → s.holder = none
  | .writei j _ _ => j ≠ ip
  | .dirlink j _ _ => j ≠ ip
  | .iput j => j = ip → 1 < (s.fs.icache ip).ref
  | _ => True

instance (ip : Fin NINODE) (s : State) : DecidablePred (Allowed ip s)
  | .ilock j => inferInstanceAs (Decidable (j = ip → s.holder = none))
  | .update j _ _ _ => inferInstanceAs (Decidable (j = ip → s.holder = none))
  | .readi j _ _ => inferInstanceAs (Decidable (j = ip → s.holder = none))
  | .writei j _ _ => inferInstanceAs (Decidable (j ≠ ip))
  | .dirlink j _ _ => inferInstanceAs (Decidable (j ≠ ip))
  | .iput j => inferInstanceAs (Decidable (j = ip → 1 < (s.fs.icache ip).ref))
  | .iget _ => inferInstanceAs (Decidable True)
  | .idup _ => inferInstanceAs (Decidable True)
  | .ialloc _ => inferInstanceAs (Decidable True)

section
variable (dev : Devsw) (ip : Fin NINODE)

/-- A step of call `k`, which is at `c`. -/
def Call.next (s : State) (k : ℕ) (c : Call) : Stmt → Option State
  | .ilock =>
    if c.pc = .loop ∧ c.i < c.data.length ∧ s.holder = none then do
      let fs ← (Xv6.ilock s.fs ip).toOption
      some ({ s with fs, holder := some k, order := s.order ++ [k] }.set k { c with pc := .locked })
    else none
  | .writei =>
    if c.pc = .locked then do
      let (r, e, d) ←
        (Xv6.writei s.fs.sb dev s.fs.disk (s.fs.icache ip) c.chunk s.off.toNat).toOption
      some ({ s with fs := s.fs.put ip e d }.set k { c with pc := .wrote r })
    else none
  | .advance =>
    match c.pc with
    | .wrote (some r) => some ({ s with off := s.off + UInt32.ofNat r }.set k { c with pc := .moved (some r) })
    | .wrote none => some (s.set k { c with pc := .moved none })
    | _ => none
  | .iunlock =>
    match c.pc with
    | .moved r => some ({ s with holder := none }.set k (c.unlocked r))
    | _ => none
  | .ret =>
    if c.pc = .loop ∧ c.data.length ≤ c.i then
      some (s.set k { c with pc := .ret (if c.i = c.data.length then some c.data.length else none) })
    else none

def State.next (s : State) : Label → Option State
  | .call data =>
    -- `n` is an `int`
    if data.length < 2 ^ 31 then some { s with calls := s.calls ++ [⟨data, 0, .loop⟩] } else none
  | .other op =>
    if op.Ready s.fs ∧ Allowed ip s op then do
      let fs ← (s.fs.exec dev op).toOption
      some { s with fs }
    else none
  | .stmt k x => s.calls[k]?.bind fun c => c.next dev ip s k x

end

/-- A step of the system. -/
def Step (dev : Devsw) (ip : Fin NINODE) (s : State) (x : Label) (s' : State) : Prop :=
  s.next dev ip x = some s'

/-- Before the calls: the file is open, and its type is `T_FILE`. -/
structure Start (F : Prop) (ip : Fin NINODE) (s : State) : Prop where
  cons : Consistent F s.fs
  ref : s.fs.Ref ip
  type : (dinodeAt s.fs.sb s.fs.disk (s.fs.icache ip).inum).type = T_FILE
  holder : s.holder = none
  order : s.order = []
  calls : s.calls = []

/-! ## Chunks -/

/-- The chunks into which a call splits its bytes. -/
def chunks (xs : List UInt8) : List (List UInt8) :=
  if xs = [] then [] else xs.take MAXWRITE :: chunks (xs.drop MAXWRITE)
termination_by xs.length
decreasing_by
  rename_i h
  rw [List.length_drop]
  exact Nat.sub_lt (List.length_pos_iff.2 h) (by decide)

theorem chunks_nil : chunks [] = [] := by
  rw [chunks, if_pos rfl]

theorem length_chunks (xs : List UInt8) : ∀ x ∈ chunks xs, x.length ≤ MAXWRITE := by
  induction xs using chunks.induct with
  | case1 => simp [chunks_nil]
  | case2 xs h ih =>
    rw [chunks, if_neg h]
    refine List.forall_mem_cons.2 ⟨?_, ih⟩
    rw [List.length_take]
    exact min_le_left ..

theorem Call.chunks_drop (c : Call) (h : c.i < c.data.length) :
    chunks (c.data.drop c.i) = c.chunk :: chunks (c.data.drop (c.i + c.chunk.length)) := by
  have hne : c.data.drop c.i ≠ [] := fun h0 => by
    have := congrArg List.length h0
    rw [List.length_drop, List.length_nil] at this
    omega
  rw [chunks, if_neg hne, Call.chunk, List.drop_drop, List.length_take, List.length_drop]
  rcases Nat.le_total MAXWRITE (c.data.length - c.i) with hle | hle
  · rw [min_eq_left hle]
  · rw [min_eq_right hle, List.drop_eq_nil_of_le (i := c.i + MAXWRITE) (by omega),
      List.drop_eq_nil_of_le (i := c.i + _) (by omega)]

theorem Call.chunk_pos (c : Call) (h : c.i < c.data.length) :
    0 < c.chunk.length ∧ c.i + c.chunk.length ≤ c.data.length := by
  rw [Call.chunk, List.length_take, List.length_drop]
  simp only [MAXWRITE, LOGSIZE, MAXOPBLOCKS]
  omega

/-! ## The invariant -/

/-- The call holds the inode lock. -/
def Pc.Holds : Pc → Prop
  | .locked => True
  | .wrote _ => True
  | .moved _ => True
  | _ => False

/-- The result of the call is, or will be, -1. -/
def Pc.Failed : Pc → Prop
  | .wrote r => r = none
  | .moved r => r = none
  | .ret r => r = none
  | _ => False

/-- What is known about a call where it is. -/
def Call.At (c : Call) : Pc → Prop
  | .loop => True
  | .locked => c.i < c.data.length
  | .wrote r => c.i < c.data.length ∧ ∀ m, r = some m → m = c.chunk.length
  | .moved r => c.i < c.data.length ∧ ∀ m, r = some m → m = c.chunk.length
  | .short => False
  | .ret r => ∀ m, r = some m → c.i = c.data.length

structure Call.Ok (c : Call) : Prop where
  len : c.data.length < 2 ^ 31
  le : c.i ≤ c.data.length
  pc : c.At c.pc

/-- How many bytes of the call are in the file. -/
def Call.done (c : Call) : ℕ :=
  match c.pc with
  | .wrote (some r) => c.i + r
  | .moved (some r) => c.i + r
  | _ => c.i

/-- Where the call is that holds the lock. -/
def State.held (s : State) : Option Pc := (s.holder.bind (s.calls[·]?)).map Call.pc

/-- The call that has the lock and has not yet written. -/
def State.pending (s : State) : List ℕ := if s.held = some .locked then s.holder.toList else []

/-- How far `f->off` is behind the bytes written. -/
def State.ahead (s : State) : ℕ :=
  match s.held with
  | some (.wrote (some r)) => r
  | _ => 0

def bytes (hist : List (ℕ × List UInt8)) : List UInt8 := hist.flatMap Prod.snd

/-- The chunks of call `k`. -/
def chunksOf (hist : List (ℕ × List UInt8)) (k : ℕ) : List (List UInt8) :=
  (hist.filter (·.1 = k)).map Prod.snd

/-- The chunks written so far, with their calls. -/
structure Hist (ip : Fin NINODE) (s₀ s : State) (hist : List (ℕ × List UInt8)) : Prop where
  order : hist.map Prod.fst ++ s.pending = s.order
  file : s.fs.file ip = overwrite (s₀.fs.file ip) s₀.off.toNat (bytes hist)
  off : s.off.toNat + s.ahead = s₀.off.toNat + (bytes hist).length
  calls : ∀ k c, s.calls[k]? = some c →
    chunksOf hist k ++ chunks (c.data.drop c.done) = chunks c.data
  known : ∀ p ∈ hist, p.1 < s.calls.length
  fits : s₀.off.toNat + (bytes hist).length < 2 ^ 32
  total : (bytes hist).length = (s.calls.map Call.done).sum

structure Inv (F : Prop) (ip : Fin NINODE) (s₀ s : State) : Prop where
  cons : Consistent F s.fs
  entry : s₀.fs.SameEntry ip s.fs
  type : (dinodeAt s.fs.sb s.fs.disk (s.fs.icache ip).inum).type = T_FILE
  valid : s.holder ≠ none → (s.fs.icache ip).valid = true
  calls : ∀ k c, s.calls[k]? = some c → c.Ok ∧ (c.pc.Holds ↔ s.holder = some k)
  held : ∀ k, s.holder = some k → k < s.calls.length
  hist : (∀ (k : ℕ) (c : Call), s.calls[k]? = some c → ¬ c.pc.Failed) → ∃ hist, Hist ip s₀ s hist

section
variable {F : Prop} {dev : Devsw} {ip : Fin NINODE} {s₀ s s' : State} {k : ℕ} {c c' : Call}
  {hist : List (ℕ × List UInt8)}

theorem Start.inv (h : Start F ip s) : Inv F ip s s where
  cons := h.cons
  entry := .refl h.ref
  type := h.type
  valid hn := absurd h.holder hn
  calls k c hc := by rw [h.calls] at hc; cases hc
  held k hk := by rw [h.holder] at hk; cases hk
  hist _ := ⟨[], {
    order := by simp [State.pending, State.held, h.holder, h.order]
    file := by simp [bytes, overwrite]
    off := by simp [State.ahead, State.held, h.holder, bytes]
    calls := fun k c hc => by rw [h.calls] at hc; cases hc
    known := (by rintro _ ⟨⟩)
    fits := s.off.toNat_lt
    total := by simp [h.calls, bytes] }⟩

/-! ## One step -/

theorem getElem?_set {P : ℕ → Call → Prop} {l : List Call} (hk : P k c')
    (h : ∀ j c, j ≠ k → l[j]? = some c → P j c) : ∀ j c, (l.set k c')[j]? = some c → P j c := by
  intro j c hj
  rw [List.getElem?_set] at hj
  split_ifs at hj with hkj
  · cases hj
    exact hkj ▸ hk
  · exact h j c (Ne.symm hkj) hj

theorem sum_set (f : Call → ℕ) (c' : Call) : ∀ {l : List Call} {k : ℕ}, l[k]? = some c →
    ((l.set k c').map f).sum + f c = (l.map f).sum + f c'
  | [], k, h => by simp at h
  | x :: l, 0, h => by
    simp only [List.getElem?_cons_zero, Option.some.injEq] at h
    subst h
    simp only [List.set_cons_zero, List.map_cons, List.sum_cons]
    omega
  | x :: l, k + 1, h => by
    simp only [List.getElem?_cons_succ] at h
    have := sum_set f c' h
    simp only [List.set_cons_succ, List.map_cons, List.sum_cons]
    omega

/-- A call that has not failed after its step had not failed before. -/
theorem not_failed_of_set (hc : s.calls[k]? = some c) (hf : c.pc.Failed → c'.pc.Failed)
    (h : ∀ (j : ℕ) (x : Call), (s.calls.set k c')[j]? = some x → ¬ x.pc.Failed) :
    ∀ (j : ℕ) (x : Call), s.calls[j]? = some x → ¬ x.pc.Failed := by
  intro j x hj
  by_cases hjk : j = k
  · subst hjk
    rw [hc] at hj
    cases hj
    refine fun hx => h j c' ?_ (hf hx)
    rw [List.getElem?_set_self (List.getElem?_eq_some_iff.1 hc).1]
  · refine h j x ?_
    rwa [List.getElem?_set_ne (Ne.symm hjk)]

theorem held_set (hk : k < s.calls.length) (hh : s.holder = some k) (c' : Call) :
    (s.set k c').held = some c'.pc := by
  rw [State.held, State.set, hh, Option.bind_some, List.getElem?_set_self hk, Option.map_some]

/-- A step of call `k` that writes nothing. -/
theorem Hist.set (h : Hist ip s₀ s hist) (hc : s.calls[k]? = some c)
    (hs : s'.calls = s.calls.set k c') (hdata : c'.data = c.data) (hdone : c'.done = c.done)
    (hfile : s'.fs.file ip = s.fs.file ip) (hoff : s'.off.toNat + s'.ahead = s.off.toNat + s.ahead)
    (horder : hist.map Prod.fst ++ s'.pending = s'.order) : Hist ip s₀ s' hist where
  order := horder
  file := hfile.trans h.file
  off := hoff.trans h.off
  calls := by
    rw [hs]
    refine getElem?_set ?_ fun j x _ => h.calls j x
    rw [hdata, hdone]
    exact h.calls k c hc
  known p hp := by
    rw [hs, List.length_set]
    exact h.known p hp
  fits := h.fits
  total := by
    have := sum_set Call.done c' hc
    rw [hs, h.total]
    omega

variable {fs : Fs} {r : Option ℕ}

/-- What a call of `fs.c` that does not write to the file leaves. -/
theorem Inv.env (h : Inv F ip s₀ s) {op : FsOp} (hs : FsStep dev s.fs op fs)
    (hop : ¬ op.Changes s.fs (s.fs.icache ip).inum)
    (hput : op = .iput ip → 1 < (s.fs.icache ip).ref) :
    Consistent F fs ∧ s.fs.SameEntry ip fs ∧
      (dinodeAt fs.sb fs.disk (fs.icache ip).inum).type = T_FILE ∧ fs.file ip = s.fs.file ip := by
  have he := h.cons.exec_sameEntry hs h.entry.ref hput
  have hf := h.cons.exec_sameFile hs (h.cons.entry h.entry.ref).range
    (by rw [h.type]; decide) hop
  refine ⟨(h.cons.exec hs.1).2 _ hs.2, he, ?_, ?_⟩
  · rw [he.sb, he.inum, hf.1, h.type]
  · rw [Fs.file, Fs.file, he.sb, he.inum]
    exact hf.2

theorem Inv.other (h : Inv F ip s₀ s) {op : FsOp} (hs : FsStep dev s.fs op fs)
    (ha : Allowed ip s op) : Inv F ip s₀ { s with fs } := by
  have hch : ¬ op.Changes s.fs (s.fs.icache ip).inum := by
    cases op with
    | writei j src off => exact fun hc => ha (h.cons.once hs.1.1.1 h.entry.ref hc)
    | dirlink j name inum => exact fun hc => ha (h.cons.once hs.1.1 h.entry.ref hc)
    | iput j =>
      rintro ⟨hc, h1⟩
      obtain rfl := h.cons.once hs.1 h.entry.ref hc
      exact absurd h1 (ha rfl).ne'
    | _ => exact id
  have hput : op = .iput ip → 1 < (s.fs.icache ip).ref := by
    rintro rfl
    exact ha rfl
  obtain ⟨hc, he, ht, hf⟩ := h.env hs hch hput
  exact ⟨hc, h.entry.trans he, ht, fun hn => he.valid (h.valid hn), h.calls, h.held, fun hn =>
    (h.hist hn).imp fun hist hh => ⟨hh.order, hf.trans hh.file, hh.off, hh.calls, hh.known, hh.fits, hh.total⟩⟩

theorem Inv.ilock (h : Inv F ip s₀ s) (hc : s.calls[k]? = some c) (hpc : c.pc = .loop)
    (hi : c.i < c.data.length) (hn : s.holder = none) (hok : Xv6.ilock s.fs ip = .ok fs) :
    Inv F ip s₀ ({ s with fs, holder := some k, order := s.order ++ [k] }.set k
      { c with pc := .locked }) := by
  have hstep : FsStep noDev s.fs (.ilock ip) fs := ⟨h.entry.ref, hok⟩
  obtain ⟨hcons, he, ht, hf⟩ := h.env hstep id (by rintro ⟨⟩)
  have hlen := (List.getElem?_eq_some_iff.1 hc).1
  have hcok := (h.calls k c hc).1
  refine ⟨hcons, h.entry.trans he, ht, fun _ => ?_, getElem?_set ?_ fun j x hj hx => ?_, ?_, fun hnf => ?_⟩
  · simp only [Xv6.ilock] at hok
    split_ifs at hok with h1 h2 h3
    · cases hok
      exact h2
    · cases hok
      show (Function.update s.fs.icache ip _ ip).valid = true
      rw [Function.update_self]
  · exact ⟨⟨hcok.len, hcok.le, hi⟩, iff_of_true trivial rfl⟩
  · obtain ⟨hok, hiff⟩ := h.calls j x hx
    refine ⟨hok, iff_of_false (fun hh => ?_) fun heq => hj (Option.some.inj heq).symm⟩
    rw [hiff, hn] at hh
    cases hh
  · intro j hj
    cases hj
    show k < (s.calls.set k _).length
    rwa [List.length_set]
  · obtain ⟨hist, hh⟩ := h.hist (not_failed_of_set hc (by rw [hpc]; exact False.elim) hnf)
    have hord := hh.order
    have hheld := held_set (s := { s with fs, holder := some k, order := s.order ++ [k] }) hlen rfl
      { c with pc := .locked }
    refine ⟨hist, hh.set hc rfl rfl ?_ hf ?_ ?_⟩
    · rw [Call.done, Call.done, hpc]
    · rw [State.ahead, hheld, State.ahead, State.held, hn]
      rfl
    · rw [State.pending, State.held, hn] at hord
      rw [State.pending, hheld, if_pos rfl]
      show _ = s.order ++ [k]
      rw [← hord]
      simp [State.set]

/-- The call that holds the lock. -/
theorem Inv.holds (h : Inv F ip s₀ s) (hc : s.calls[k]? = some c) (hp : c.pc.Holds) :
    s.holder = some k ∧ s.held = some c.pc := by
  have hk := (h.calls k c hc).2.1 hp
  exact ⟨hk, by rw [State.held, hk, Option.bind_some, hc, Option.map_some]⟩

/-- The call that holds the lock goes on. -/
theorem Inv.calls_set (h : Inv F ip s₀ s) (hc : s.calls[k]? = some c) (hp : c.pc.Holds)
    (hok : c'.Ok) (hp' : c'.pc.Holds) : ∀ (j : ℕ) (x : Call), (s.calls.set k c')[j]? = some x →
      x.Ok ∧ (x.pc.Holds ↔ s.holder = some j) :=
  getElem?_set ⟨hok, iff_of_true hp' (h.holds hc hp).1⟩ fun j x _ hx => h.calls j x hx

theorem Inv.held_lt (h : Inv F ip s₀ s) (c' : Call) :
    ∀ j, s.holder = some j → j < (s.calls.set k c').length := by
  intro j hj
  rw [List.length_set]
  exact h.held j hj

theorem Inv.writei (h : Inv F ip s₀ s) (hc : s.calls[k]? = some c) (hpc : c.pc = .locked)
    {e : Inode} {d : Disk}
    (hok : Xv6.writei s.fs.sb dev s.fs.disk (s.fs.icache ip) c.chunk s.off.toNat = .ok (r, e, d)) :
    Inv F ip s₀ ({ s with fs := s.fs.put ip e d }.set k { c with pc := .wrote r }) := by
  obtain ⟨hlen, hle, hat⟩ := (h.calls k c hc).1
  rw [hpc] at hat
  have hp : c.pc.Holds := by rw [hpc]; trivial
  obtain ⟨hk, hheld⟩ := h.holds hc hp
  have hent := h.cons.entry h.entry.ref
  obtain ⟨hdi, ht⟩ := hent.valid (h.valid (by rw [hk]; rintro ⟨⟩))
  have hchunk := c.chunk_pos hat
  have hsrc : c.chunk.length < 2 ^ 32 := by omega
  have hstep : FsStep dev s.fs (.writei ip c.chunk s.off.toNat) (s.fs.put ip e d) :=
    ⟨⟨⟨h.entry.ref, h.valid (by rw [hk]; rintro ⟨⟩)⟩, hsrc⟩, by simp only [Fs.exec, hok]; rfl⟩
  have hkept := writei_kept h.cons.owned hent.range ht hdi hsrc hok
  have hst := writei_contents h.cons.owned hent.range ht hdi hsrc hok
  have he := h.cons.exec_sameEntry hstep h.entry.ref (by rintro ⟨⟩)
  have htype : (s.fs.icache ip).di.type = T_FILE := by rw [← hdi, h.type]
  have hself : dinodeAt (s.fs.put ip e d).sb (s.fs.put ip e d).disk
      ((s.fs.put ip e d).icache ip).inum = e.di := by
    rw [he.inum]
    exact hkept.self
  have hm : ∀ m, r = some m → m = c.chunk.length := fun m hm =>
    (hst.bytes (by rw [htype]; decide) m hm).1
  refine ⟨(h.cons.exec hstep.1).2 _ hstep.2, h.entry.trans he, ?_, fun _ => he.valid (h.valid ?_),
    h.calls_set hc hp ⟨hlen, hle, hat, hm⟩ trivial, h.held_lt _, fun hnf => ?_⟩
  · show (dinodeAt (s.fs.put ip e d).sb (s.fs.put ip e d).disk
      ((s.fs.put ip e d).icache ip).inum).type = _
    rw [hself, hst.fields, htype]
  · rw [hk]
    rintro ⟨⟩
  have hklen := (List.getElem?_eq_some_iff.1 hc).1
  cases r with
  | none => exact absurd rfl (hnf k _ (List.getElem?_set_self hklen))
  | some m =>
    obtain ⟨rfl, hoff, hmax, hcont⟩ := hst.bytes (by rw [htype]; decide) m rfl
    obtain ⟨hist, hh⟩ := h.hist (not_failed_of_set hc (by rw [hpc]; exact False.elim) hnf)
    have hfile : s.fs.file ip = contents (s.fs.icache ip).di s.fs.disk := by rw [Fs.file, hdi]
    have hoff₀ : s.off.toNat = s₀.off.toNat + (bytes hist).length := by
      have := hh.off
      rw [State.ahead, hheld, hpc] at this
      exact this
    have hord := hh.order
    rw [State.pending, hheld, hpc, if_pos rfl, hk] at hord
    have hbytes : bytes (hist ++ [(k, c.chunk)]) = bytes hist ++ c.chunk := by
      simp [bytes]
    have hheld' := held_set (s := { s with fs := s.fs.put ip e d }) hklen hk
      { c with pc := .wrote (some c.chunk.length) }
    refine ⟨hist ++ [(k, c.chunk)], ?_, ?_, ?_, getElem?_set ?_ fun j x hj hx => ?_, ?_, ?_, ?_⟩
    · rw [State.pending, hheld', if_neg (by rintro ⟨⟩), List.map_append]
      simpa [State.set] using hord
    · show (s.fs.put ip e d).file ip = _
      rw [Fs.file, hself]
      show contents e.di d = _
      rw [hcont, ← hfile, hh.file, hbytes, hoff₀]
      refine overwrite_append ?_ _
      rw [← hh.file, hfile, length_contents]
      omega
    · rw [State.ahead, hheld', hbytes, List.length_append]
      show s.off.toNat + c.chunk.length = _
      omega
    · have := hh.calls k c hc
      rw [Call.done, hpc] at this
      show chunksOf _ k ++ chunks (c.data.drop (c.i + c.chunk.length)) = chunks c.data
      rw [← this, c.chunks_drop hat]
      simp [chunksOf]
    · rw [← hh.calls j x hx]
      congr 1
      simp [chunksOf, Ne.symm hj]
    · intro p hp
      show p.1 < (s.calls.set k _).length
      rw [List.length_set]
      rcases List.mem_append.1 hp with hp | hp
      · exact hh.known p hp
      · rw [List.mem_singleton.1 hp]
        exact hklen
    · rw [hbytes, List.length_append]
      simp only [MAXFILE, NDIRECT, NINDIRECT, BSIZE] at hmax
      omega
    · have := sum_set Call.done { c with pc := .wrote (some c.chunk.length) } hc
      rw [hbytes, List.length_append, hh.total]
      have h1 : c.done = c.i := by rw [Call.done, hpc]
      have h2 : Call.done { c with pc := .wrote (some c.chunk.length) } = c.i + c.chunk.length := rfl
      rw [h1, h2] at this
      show _ = ((s.calls.set k _).map Call.done).sum
      omega

theorem Inv.advance (h : Inv F ip s₀ s) (hc : s.calls[k]? = some c) (hpc : c.pc = .wrote r)
    {off : UInt32} (hoff : ∀ m, r = some m → off = s.off + UInt32.ofNat m) :
    Inv F ip s₀ ({ s with off }.set k { c with pc := .moved r }) := by
  obtain ⟨hlen, hle, hat⟩ := (h.calls k c hc).1
  rw [hpc] at hat
  have hp : c.pc.Holds := by rw [hpc]; trivial
  obtain ⟨hk, hheld⟩ := h.holds hc hp
  refine ⟨h.cons, h.entry, h.type, h.valid, h.calls_set hc hp ⟨hlen, hle, hat⟩ trivial, h.held_lt _,
    fun hnf => ?_⟩
  have hklen := (List.getElem?_eq_some_iff.1 hc).1
  cases r with
  | none => exact absurd rfl (hnf k _ (List.getElem?_set_self hklen))
  | some m =>
    obtain ⟨hist, hh⟩ := h.hist (not_failed_of_set hc (by rw [hpc]; exact (by rintro ⟨⟩)) hnf)
    have hheld' := held_set (s := { s with off }) hklen hk { c with pc := .moved (some m) }
    have hahead : s.ahead = m := by rw [State.ahead, hheld, hpc]
    have hord := hh.order
    refine ⟨hist, hh.set hc rfl rfl ?_ rfl ?_ ?_⟩
    · rw [Call.done, Call.done, hpc]
    · have hsum := hh.off
      have hfits := hh.fits
      rw [State.ahead, hheld', hahead]
      show off.toNat + 0 = _
      rw [hahead] at hsum
      rw [hoff m rfl, UInt32.toNat_add, UInt32.toNat_ofNat']
      omega
    · rw [State.pending, hheld, hpc, if_neg (by rintro ⟨⟩)] at hord
      rw [State.pending, hheld', if_neg (by rintro ⟨⟩)]
      exact hord

theorem Inv.iunlock (h : Inv F ip s₀ s) (hc : s.calls[k]? = some c) (hpc : c.pc = .moved r) :
    Inv F ip s₀ ({ s with holder := none }.set k (c.unlocked r)) := by
  obtain ⟨hlen, hle, hat⟩ := (h.calls k c hc).1
  rw [hpc] at hat
  have hp : c.pc.Holds := by rw [hpc]; trivial
  obtain ⟨hk, hheld⟩ := h.holds hc hp
  have hfree : ∀ (j : ℕ) (x : Call), j ≠ k → s.calls[j]? = some x →
      x.Ok ∧ (x.pc.Holds ↔ none = some j) := by
    intro j x hj hx
    obtain ⟨hok, hiff⟩ := h.calls j x hx
    refine ⟨hok, iff_of_false (fun hh => ?_) (by rintro ⟨⟩)⟩
    rw [hiff, hk] at hh
    exact hj (Option.some.inj hh).symm
  have hklen := (List.getElem?_eq_some_iff.1 hc).1
  cases r with
  | none =>
    refine ⟨h.cons, h.entry, h.type, fun hn => absurd rfl hn,
      getElem?_set ⟨⟨hlen, hle, by rintro _ ⟨⟩⟩, iff_of_false id (by rintro ⟨⟩)⟩ hfree, by rintro _ ⟨⟩, fun hnf => ?_⟩
    exact absurd rfl (hnf k _ (List.getElem?_set_self hklen))
  | some m =>
    obtain rfl := hat.2 m rfl
    have hunl : c.unlocked (some c.chunk.length) =
        { c with i := c.i + c.chunk.length, pc := .loop } := if_pos rfl
    rw [hunl]
    refine ⟨h.cons, h.entry, h.type, fun hn => absurd rfl hn,
      getElem?_set ⟨⟨hlen, (c.chunk_pos hat.1).2, trivial⟩, iff_of_false id (by rintro ⟨⟩)⟩ hfree, by rintro _ ⟨⟩,
      fun hnf => ?_⟩
    obtain ⟨hist, hh⟩ := h.hist (not_failed_of_set hc (by rw [hpc]; exact (by rintro ⟨⟩)) hnf)
    have hord := hh.order
    refine ⟨hist, hh.set hc rfl rfl ?_ rfl ?_ ?_⟩
    · rw [Call.done, Call.done, hpc]
    · have hahead : s.ahead = 0 := by rw [State.ahead, hheld, hpc]
      rw [hahead]
      rfl
    · rw [State.pending, hheld, hpc, if_neg (by rintro ⟨⟩)] at hord
      exact hord

/-- The call that holds the lock is not affected. -/
theorem held_congr (s s' : State) (hh : s'.holder = s.holder)
    (hc : ∀ j, s.holder = some j → s'.calls[j]? = s.calls[j]?) :
    s'.ahead = s.ahead ∧ s'.pending = s.pending := by
  have hheld : s'.held = s.held := by
    rw [State.held, State.held, hh]
    cases hs : s.holder with
    | none => rfl
    | some j => rw [Option.bind_some, Option.bind_some, hc j hs]
  exact ⟨by rw [State.ahead, State.ahead, hheld], by rw [State.pending, State.pending, hheld, hh]⟩

theorem Inv.ret (h : Inv F ip s₀ s) (hc : s.calls[k]? = some c) (hpc : c.pc = .loop)
    (hi : c.data.length ≤ c.i) : Inv F ip s₀ (s.set k { c with pc := .ret r }) := by
  obtain ⟨hlen, hle, -⟩ := (h.calls k c hc).1
  have hk : s.holder ≠ some k := fun hk => by
    have := (h.calls k c hc).2.2 hk
    rw [hpc] at this
    exact this
  refine ⟨h.cons, h.entry, h.type, h.valid, getElem?_set ⟨⟨hlen, hle, fun _ _ => ?_⟩,
    iff_of_false id hk⟩ fun j x _ hx => h.calls j x hx, h.held_lt _, fun hnf => ?_⟩
  · exact le_antisymm hle hi
  · obtain ⟨hist, hh⟩ := h.hist (not_failed_of_set hc (by rw [hpc]; exact False.elim) hnf)
    obtain ⟨hahead, hpend⟩ := held_congr s (s.set k { c with pc := .ret r }) rfl fun j hj => by
      refine List.getElem?_set_ne ?_
      rintro rfl
      exact hk hj
    refine ⟨hist, hh.set hc rfl rfl ?_ rfl (by rw [hahead]; rfl) ?_⟩
    · rw [Call.done, Call.done, hpc]
    · rw [hpend]
      exact hh.order

theorem Inv.call (h : Inv F ip s₀ s) {data : List UInt8} (hd : data.length < 2 ^ 31) :
    Inv F ip s₀ { s with calls := s.calls ++ [⟨data, 0, .loop⟩] } := by
  have hnew : ∀ (j : ℕ) (x : Call), (s.calls ++ [⟨data, 0, .loop⟩])[j]? = some x →
      s.calls[j]? = some x ∨ j = s.calls.length ∧ x = ⟨data, 0, .loop⟩ := by
    intro j x hx
    rcases Nat.lt_trichotomy j s.calls.length with hj | rfl | hj
    · rw [List.getElem?_append_left hj] at hx
      exact .inl hx
    · rw [List.getElem?_concat_length] at hx
      exact .inr ⟨rfl, (Option.some.inj hx).symm⟩
    · rw [List.getElem?_eq_none (by simp; omega)] at hx
      cases hx
  have hold : ∀ j, j < s.calls.length → (s.calls ++ [⟨data, 0, .loop⟩])[j]? = s.calls[j]? :=
    fun j hj => List.getElem?_append_left hj
  refine ⟨h.cons, h.entry, h.type, h.valid, fun j x hx => ?_, fun j hj => ?_, fun hnf => ?_⟩
  · rcases hnew j x hx with hx | ⟨rfl, rfl⟩
    · exact h.calls j x hx
    · exact ⟨⟨hd, Nat.zero_le _, trivial⟩, iff_of_false id fun hj => (h.held _ hj).false⟩
  · have := h.held j hj
    simp only [List.length_append, List.length_singleton]
    omega
  · obtain ⟨hist, hh⟩ := h.hist fun j x hx => hnf j x <| by
      rw [hold j (List.getElem?_eq_some_iff.1 hx).1]
      exact hx
    obtain ⟨hahead, hpend⟩ := held_congr s
      { s with calls := s.calls ++ [⟨data, 0, .loop⟩] } rfl fun j hj => hold j (h.held j hj)
    refine ⟨hist, by rw [hpend]; exact hh.order, hh.file, by rw [hahead]; exact hh.off,
      fun j x hx => ?_, fun p hp => ?_, hh.fits, ?_⟩
    · rcases hnew j x hx with hx | ⟨rfl, rfl⟩
      · exact hh.calls j x hx
      · have : chunksOf hist s.calls.length = [] := by
          rw [chunksOf, List.map_eq_nil_iff, List.filter_eq_nil_iff]
          intro p hp heq
          exact (hh.known p hp).ne (of_decide_eq_true heq)
        rw [this]
        rfl
    · have := hh.known p hp
      simp only [List.length_append, List.length_singleton]
      omega
    · rw [hh.total]
      simp [Call.done]

theorem Inv.step (h : Inv F ip s₀ s) {x : Label} (hs : Step dev ip s x s') : Inv F ip s₀ s' := by
  cases x with
  | call data =>
    simp only [Step, State.next] at hs
    split_ifs at hs with hd
    cases hs
    exact h.call hd
  | other op =>
    simp only [Step, State.next] at hs
    split_ifs at hs with ha
    cases hok : s.fs.exec dev op with
    | error e => rw [hok] at hs; cases hs
    | ok fs =>
      rw [hok] at hs
      cases hs
      exact h.other ⟨ha.1, hok⟩ ha.2
  | stmt k x =>
    simp only [Step, State.next, Option.bind_eq_some_iff] at hs
    obtain ⟨c, hc, hs⟩ := hs
    cases x with
    | ilock =>
      simp only [Call.next] at hs
      split_ifs at hs with hp
      cases hok : Xv6.ilock s.fs ip with
      | error e => rw [hok] at hs; cases hs
      | ok fs =>
        rw [hok] at hs
        cases hs
        exact h.ilock hc hp.1 hp.2.1 hp.2.2 hok
    | writei =>
      simp only [Call.next] at hs
      split_ifs at hs with hp
      cases hok : Xv6.writei s.fs.sb dev s.fs.disk (s.fs.icache ip) c.chunk s.off.toNat with
      | error e => rw [hok] at hs; cases hs
      | ok r =>
        rw [hok] at hs
        cases hs
        exact h.writei hc hp hok
    | advance =>
      simp only [Call.next] at hs
      split at hs
      · rename_i r hp
        cases hs
        exact h.advance hc hp fun m hm => by cases hm; rfl
      · rename_i hp
        cases hs
        exact h.advance hc hp (by rintro _ ⟨⟩)
      · cases hs
    | iunlock =>
      simp only [Call.next] at hs
      split at hs
      · rename_i r hp
        cases hs
        exact h.iunlock hc hp
      · cases hs
    | ret =>
      simp only [Call.next] at hs
      split_ifs at hs with hp
      all_goals
        cases hs
        exact h.ret hc hp.1 hp.2

/-! ## Shared files -/

/-- The chunks `hist`, in the order in which they held the lock, are in the file one after another
    from the offset at the start on. -/
structure Appended (ip : Fin NINODE) (s₀ s : State) (hist : List (ℕ × List UInt8)) : Prop where
  order : hist.map Prod.fst = s.order
  chunks : ∀ k c, s.calls[k]? = some c → chunksOf hist k = chunks c.data
  size : ∀ p ∈ hist, p.2.length ≤ MAXWRITE
  file : s.fs.file ip = (s₀.fs.file ip).take s₀.off.toNat ++
    (bytes hist ++ (s₀.fs.file ip).drop (s₀.off.toNat + (bytes hist).length))
  off : s.off.toNat = s₀.off.toNat + (s.calls.map (·.data.length)).sum

/-- **Writers that share an open file lose nothing.** -/
theorem filewrite_shared (h0 : Start F ip s₀) (hr : Reach (· = s₀) (Step dev ip) s)
    (hall : ∀ c ∈ s.calls, ∃ n, c.pc = .ret (some n)) : ∃ hist, Appended ip s₀ s hist := by
  have h : Inv F ip s₀ s := hr.inv (fun _ hs => hs ▸ h0.inv) fun _ _ _ hi hs => hi.step hs
  have hret : ∀ (k : ℕ) (c : Call), s.calls[k]? = some c → ∃ n, c.pc = .ret (some n) :=
    fun k c hc => hall c (List.mem_of_getElem? hc)
  obtain ⟨hist, hh⟩ := h.hist fun k c hc => by
    obtain ⟨n, hn⟩ := hret k c hc
    rw [hn]
    rintro ⟨⟩
  -- nobody holds the lock
  have hnone : s.holder = none := by
    cases hk : s.holder with
    | none => rfl
    | some k =>
      have hc := List.getElem?_eq_getElem (h.held k hk)
      obtain ⟨n, hn⟩ := hret k _ hc
      have := (h.calls k _ hc).2.2 hk
      rw [hn] at this
      exact this.elim
  have hdone : ∀ (k : ℕ) (c : Call), s.calls[k]? = some c → c.done = c.data.length := by
    intro k c hc
    obtain ⟨n, hn⟩ := hret k c hc
    have hat := (h.calls k c hc).1.pc
    rw [hn] at hat
    rw [Call.done, hn]
    exact hat n rfl
  have hchunks : ∀ (k : ℕ) (c : Call), s.calls[k]? = some c → chunksOf hist k = chunks c.data := by
    intro k c hc
    rw [← hh.calls k c hc, hdone k c hc, List.drop_length, chunks_nil, List.append_nil]
  refine ⟨hist, ?_, hchunks, fun p hp => ?_, hh.file, ?_⟩
  · have := hh.order
    rwa [State.pending, State.held, hnone, if_neg (by rintro ⟨⟩), List.append_nil] at this
  · obtain ⟨c, hc⟩ : ∃ c, s.calls[p.1]? = some c := ⟨_, List.getElem?_eq_getElem (hh.known p hp)⟩
    refine length_chunks c.data _ ?_
    rw [← hchunks _ _ hc]
    exact List.mem_map.2 ⟨p, List.mem_filter.2 ⟨hp, decide_eq_true rfl⟩, rfl⟩
  · have hoff := hh.off
    have hsum : s.calls.map Call.done = s.calls.map (·.data.length) := by
      refine List.map_congr_left fun c hc => ?_
      obtain ⟨k, hk⟩ := List.mem_iff_getElem?.1 hc
      exact hdone k c hk
    rwa [hh.total, hsum, State.ahead, State.held, hnone] at hoff

end

/-- A file that has been made and is open. -/
def openFile : Reached (Reach (· = smallFs) (FsStep noDev)) fun fs =>
    0 < (fs.icache 0).ref ∧ (dinodeAt fs.sb fs.disk (fs.icache 0).inum).type = T_FILE :=
  .ofRun _ fsStep_of_exec rfl [.ialloc T_FILE] (by decide +kernel)

def openState : State := ⟨openFile.state, 0, none, [], []⟩

theorem openState_start : Start True 0 openState := by
  have h := of_decide_eq_true openFile.prop
  exact ⟨smallFs_consistent.reach openFile.reach, h.1, h.2, rfl, rfl, rfl⟩

/-- Two calls; the second one writes first. -/
def bothWritten : Reached (Reach (· = openState) (Step noDev 0)) fun s =>
    s.order = [1, 0] ∧ s.fs.file 0 = [4, 5, 1, 2, 3] ∧
      s.calls.map Call.pc = [.ret (some 3), .ret (some 2)] :=
  .ofRun _ (fun _ _ _ h => h) rfl
    [.call [1, 2, 3], .call [4, 5], .stmt 1 .ilock, .stmt 1 .writei, .stmt 1 .advance,
      .stmt 1 .iunlock, .stmt 0 .ilock, .stmt 0 .writei, .stmt 0 .advance, .stmt 0 .iunlock,
      .stmt 1 .ret, .stmt 0 .ret]
    (by decide +kernel)

theorem filewrite_shared_two : ∃ s hist, Reach (· = openState) (Step noDev 0) s ∧
    s.order = [1, 0] ∧ s.fs.file 0 = [4, 5, 1, 2, 3] ∧ Appended 0 openState s hist := by
  obtain ⟨s, hr, hp⟩ := bothWritten
  obtain ⟨horder, hfile, hpc⟩ := of_decide_eq_true hp
  obtain ⟨hist, hh⟩ := filewrite_shared openState_start hr fun c hc => by
    have hm : c.pc ∈ s.calls.map Call.pc := List.mem_map_of_mem hc
    rw [hpc] at hm
    rcases List.mem_cons.1 hm with hm | hm
    · exact ⟨_, hm⟩
    · exact ⟨_, List.mem_singleton.1 hm⟩
  exact ⟨s, hist, hr, horder, hfile, hh⟩

end Xv6.Filewrite
