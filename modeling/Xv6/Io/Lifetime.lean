/-
  The lifetime of a pipe.

  A file counts the descriptors that refer to it and the references that calls
  in progress have in hand (`Inv.refs`).  An end of a pipe that is open has
  exactly one owner, a file or the `pipeclose` that is about to close it
  (`Inv.ends`), and a page that is about to be freed has exactly one process
  that will free it (`Inv.last`).
-/
import Xv6.Io.PipeLife
import Xv6.Lib.Count
import Xv6.Lib.Own
import Xv6.Lib.Reach

namespace Xv6.PipeLife

open Count Own Transition Function

/-! ## References -/

/-- Where the `fileclose` in progress returns to. -/
def Pc.cont : Pc → Option Cont
  | .clAcq _ _ k => some k
  | .clCrit _ _ k => some k
  | .clRel _ _ _ k => some k
  | .clFree _ k => some k
  | _ => none

def Cont.hand : Cont → List (Fin NFILE)
  | .close fs => fs
  | .exit _ => []

/-- The files to which a call in progress has a reference that is not among the descriptors. -/
def Pc.hand : Pc → List (Fin NFILE)
  | .pipe1 f0 => [f0]
  | .pipe2 f0 f1 => [f0, f1]
  | .open1 f => [f]
  | .run k => k.hand
  | .clAcq _ _ k => k.hand
  | .clCrit _ _ k => k.hand
  | .clRel _ _ _ k => k.hand
  | .clFree _ k => k.hand
  | _ => []

/-- The descriptors; `exit` clears one only after `fileclose` has given its reference up. -/
def ProcFiles.slot (x : ProcFiles) : Ofile :=
  match x.pc.cont with
  | some (.exit n) => fun fd => if fd.val = n then none else x.ofile fd
  | _ => x.ofile

def slots (o : Ofile) (f : Fin NFILE) : ℕ := ∑ fd, if o fd = some f then 1 else 0

/-- The references of a process to file `f`. -/
def ProcFiles.refs (x : ProcFiles) (f : Fin NFILE) : ℕ := slots x.slot f + x.pc.hand.count f

theorem slots_update (o : Ofile) (fd : Fin NOFILE) (v : Option (Fin NFILE)) (f : Fin NFILE) :
    slots (update o fd v) f + (if o fd = some f then 1 else 0) =
      slots o f + if v = some f then 1 else 0 := by
  have hrest : ∑ x ∈ Finset.univ.erase fd, (if update o fd v x = some f then 1 else 0) =
      ∑ x ∈ Finset.univ.erase fd, if o x = some f then 1 else 0 :=
    Finset.sum_congr rfl fun x hx => by rw [update_of_ne (Finset.ne_of_mem_erase hx)]
  rw [slots, slots, ← Finset.add_sum_erase _ _ (Finset.mem_univ fd),
    ← Finset.add_sum_erase _ (fun x => if o x = some f then 1 else 0) (Finset.mem_univ fd), hrest,
    update_self]
  omega

theorem slots_pos {o : Ofile} {fd : Fin NOFILE} {f : Fin NFILE} (h : o fd = some f) :
    0 < slots o f := by
  have := slots_update o fd none f
  rw [if_pos h] at this
  simp at this
  omega

/-! ## The invariant -/

/-- The flag of an end of a pipe. -/
def flag (pipe : Pipe) (writable : Bool) : Bool := if writable then pipe.writeopen else pipe.readopen

/-- The end of a pipe that an open file is. -/
def fileEnd (f : File) : Option (ℕ × Bool) :=
  if 0 < f.ref ∧ f.type = .FD_PIPE then some (f.pipe, f.writable) else none

/-- The end that `pipeclose` is about to close. -/
def Pc.closes : Pc → Option (ℕ × Bool)
  | .clAcq a w _ => some (a, w)
  | .clCrit a w _ => some (a, w)
  | _ => none

/-- The page that the process is about to pass to `kfree`. -/
def Pc.frees : Pc → Option ℕ
  | .clRel a _ last _ => if last then some a else none
  | .clFree a _ => some a
  | _ => none

/-- The process has the lock of page `a`. -/
def Pc.Holds (a : ℕ) : Pc → Prop
  | .clCrit b _ _ => b = a
  | .clRel b _ _ _ => b = a
  | .rwCrit b _ => b = a
  | .rwRel b _ => b = a
  | _ => False

/-- `piperead` or `pipewrite` is in progress on page `a`. -/
def Pc.Uses (a : ℕ) : Pc → Prop
  | .rwAcq b _ => b = a
  | .rwCrit b _ => b = a
  | .rwRel b _ => b = a
  | _ => False

/-- The files that have been allocated and not yet been set up. -/
def Pc.fresh : Pc → List (Fin NFILE)
  | .pipe1 f0 => [f0]
  | .pipe2 f0 f1 => [f0, f1]
  | .open1 f => [f]
  | _ => []

/-- The loop of `exit` has cleared the descriptors before `n`. -/
def Cleared (o : Ofile) (n : ℕ) : Prop := ∀ fd : Fin NOFILE, fd.val < n → o fd = none

def Cont.Ok (o : Ofile) : Cont → Prop
  | .close _ => True
  | .exit n => n < NOFILE ∧ Cleared o n

/-- What is known about the descriptors of a process where it is. -/
def ProcFiles.Ok (x : ProcFiles) : Prop :=
  match x.pc with
  | .unused => Cleared x.ofile NOFILE
  | .zombie => Cleared x.ofile NOFILE
  | .run (.exit n) => Cleared x.ofile n
  | .clAcq _ _ k => k.Ok x.ofile
  | .clCrit _ _ k => k.Ok x.ofile
  | .clRel _ _ _ k => k.Ok x.ofile
  | .clFree _ k => k.Ok x.ofile
  | _ => True

/-- What a file is the end of. -/
def SameKind (f g : File) : Prop := f.type = g.type ∧ f.pipe = g.pipe ∧ f.writable = g.writable

/-- The owners of the ends of pipes: files and processes. -/
def owner (procs : ℕ → ProcFiles) (t : Ftable) : Fin NFILE ⊕ ℕ → Option (ℕ × Bool)
  | .inl f => fileEnd (t f)
  | .inr p => (procs p).pc.closes

/-- An end that is open. -/
def Open (pg : ℕ → PipePage) (n : ℕ) (e : ℕ × Bool) : Prop :=
  e.1 < n ∧ flag (pg e.1).pipe e.2 = true

/-- A page without open ends that has not been freed. -/
def Dying (pg : ℕ → PipePage) (n a : ℕ) : Prop :=
  a < n ∧ (∀ w, flag (pg a).pipe w = false) ∧ (pg a).frees = 0

/-- The child of a `fork` in progress. -/
def Child (procs : ℕ → ProcFiles) (np i : ℕ) : Prop :=
  (procs np).pc = .embryo ∧ ∀ fd : Fin NOFILE, i ≤ fd.val → (procs np).ofile fd = none

structure Inv (s : State) : Prop where
  refs : ∀ f, Total (fun p => ((s.procs p).refs f : ℤ)) (s.ftable f).ref
  ok : ∀ p, (s.procs p).Ok
  child : ∀ {p np i}, (s.procs p).pc = .fork np i → Child s.procs np i
  parent : ∀ {p q np i j}, (s.procs p).pc = .fork np i → (s.procs q).pc = .fork np j → p = q
  untyped : ∀ f, (s.ftable f).ref = 0 → (s.ftable f).type = .FD_NONE
  fresh : ∀ {p f}, f ∈ (s.procs p).pc.fresh → (s.ftable f).ref = 1 ∧ (s.ftable f).type = .FD_NONE
  uses : ∀ {p a}, (s.procs p).pc.Uses a → ∃ fd f, (s.procs p).ofile fd = some f ∧
    (s.ftable f).type = .FD_PIPE ∧ (s.ftable f).pipe = a
  ends : Owns (owner s.procs s.ftable) (Open s.pages s.npages)
  last : Owns (fun p => (s.procs p).pc.frees) (Dying s.pages s.npages)
  freed : ∀ a < s.npages, (s.pages a).frees ≤ 1 ∧
    (0 < (s.pages a).frees → ∀ w, flag (s.pages a).pipe w = false)
  lock : ∀ {p a}, (s.procs p).pc.Holds a → (s.pages a).lock = some p
  other : ∀ {p a w k}, (s.procs p).pc = .clRel a w false k → Open s.pages s.npages (a, !w)

section
variable {s s' : State} {p q a : ℕ} {f : Fin NFILE} {x : ProcFiles}

theorem Inv.refs_le (h : Inv s) (p : ℕ) (f : Fin NFILE) : (s.procs p).refs f ≤ (s.ftable f).ref := by
  have := (h.refs f).le (fun _ => Int.natCast_nonneg _) p
  omega

theorem Inv.refs_add_le (h : Inv s) (hpq : p ≠ q) (f : Fin NFILE) :
    (s.procs p).refs f + (s.procs q).refs f ≤ (s.ftable f).ref := by
  have := (h.refs f).add_le (fun _ => Int.natCast_nonneg _) hpq
  omega

/-- What a step of process `p` may do to the file table: it changes what other processes have not
    got, or a count. -/
def TableStep (s : State) (p : ℕ) (t : Ftable) : Prop :=
  ∀ f, t f = s.ftable f ∨ (s.ftable f).ref = 0 ∨
    0 < (s.procs p).refs f ∧ (SameKind (t f) (s.ftable f) ∨ (s.ftable f).ref = 1)

variable {t : Ftable} {pc : Pc} {g : File}

/-- Other processes keep what their files are. -/
theorem Inv.tableStep (h : Inv s) (ht : TableStep s p t) (hqp : q ≠ p)
    (hf : 0 < (s.procs q).refs f) :
    SameKind (t f) (s.ftable f) ∧ (f ∈ (s.procs q).pc.fresh → t f = s.ftable f) := by
  have hle := h.refs_le q f
  rcases ht f with heq | h0 | ⟨hp, hk⟩
  · rw [heq]
    exact ⟨⟨rfl, rfl, rfl⟩, fun _ => rfl⟩
  · omega
  · have hadd := h.refs_add_le hqp f
    rcases hk with hk | h1
    · refine ⟨hk, fun hfr => ?_⟩
      have := (h.fresh hfr).1
      omega
    · omega

theorem refs_pos_of_fresh (hf : f ∈ x.pc.fresh) : 0 < x.refs f := by
  refine Nat.add_pos_right _ (List.count_pos_iff.2 ?_)
  unfold Pc.fresh at hf
  unfold Pc.hand
  split at hf <;> simp_all

theorem slot_of_uses (hu : x.pc.Uses a) : x.slot = x.ofile := by
  unfold ProcFiles.slot
  cases hx : x.pc <;> rw [hx] at hu <;> first | exact hu.elim | rfl

/-- What a step of process `p`, which goes on as `x`, does to the files. -/
structure FileStep (s : State) (p : ℕ) (x : ProcFiles) (t : Ftable) : Prop where
  refs : ∀ f, (t f).ref + (s.procs p).refs f = (s.ftable f).ref + x.refs f
  ok : x.Ok
  child : ∀ q i, (s.procs q).pc = .fork p i →
    q ≠ p → x.pc = .embryo ∧ ∀ fd : Fin NOFILE, i ≤ fd.val → x.ofile fd = none
  parent : ∀ np i, x.pc = .fork np i →
    np ≠ p ∧ Child s.procs np i ∧ ∀ q j, (s.procs q).pc = .fork np j → q = p
  untyped : ∀ f, (t f).ref = 0 → (t f).type = .FD_NONE
  fresh : ∀ f ∈ x.pc.fresh, (t f).ref = 1 ∧ (t f).type = .FD_NONE
  uses : ∀ a, x.pc.Uses a → ∃ fd f, x.ofile fd = some f ∧ (t f).type = .FD_PIPE ∧ (t f).pipe = a
  table : ∀ q f, q ≠ p → 0 < (s.procs q).refs f →
    SameKind (t f) (s.ftable f) ∧ (f ∈ (s.procs q).pc.fresh → t f = s.ftable f)

/-- What it does to the pages. -/
structure PageStep (s : State) (p : ℕ) (x : ProcFiles) (t : Ftable) (pg : ℕ → PipePage) (n : ℕ) :
    Prop where
  ends : Owns (owner (update s.procs p x) t) (Open pg n)
  last : Owns (fun q => (update s.procs p x q).pc.frees) (Dying pg n)
  freed : ∀ a < n, (pg a).frees ≤ 1 ∧ (0 < (pg a).frees → ∀ w, flag (pg a).pipe w = false)
  lock : ∀ a, x.pc.Holds a → (pg a).lock = some p
  locks : ∀ q a, q ≠ p → (s.procs q).pc.Holds a → (pg a).lock = some q
  other : ∀ a w k, x.pc = .clRel a w false k → Open pg n (a, !w)
  others : ∀ q a w k, q ≠ p → (s.procs q).pc = .clRel a w false k → Open pg n (a, !w)

theorem Inv.put (h : Inv s) {pg : ℕ → PipePage} {n : ℕ} (hf : FileStep s p x t)
    (hp : PageStep s p x t pg n) : Inv ⟨update s.procs p x, t, pg, n⟩ := by
  have hself : update s.procs p x p = x := update_self ..
  have hne : ∀ {q}, q ≠ p → update s.procs p x q = s.procs q := fun hq =>
    update_of_ne hq ..
  refine ⟨fun f => ?_, fun q => ?_, fun {q np i} hq => ?_, fun {q r np i j} hq hr => ?_, hf.untyped,
    fun {q f} hq => ?_, fun {q a} hq => ?_, hp.ends, hp.last, hp.freed, fun {q a} hq => ?_,
    fun {q a w k} hq => ?_⟩
  · have hw : (fun q => ((update s.procs p x q).refs f : ℤ)) =
        update (fun q => ((s.procs q).refs f : ℤ)) p (x.refs f) := by
      funext q
      by_cases hq : q = p
      · rw [hq, hself, update_self]
      · rw [hne hq, update_of_ne hq]
    have hsum : ((t f).ref : ℤ) = (s.ftable f).ref - (s.procs p).refs f + x.refs f := by
      have := hf.refs f
      omega
    show Total _ ((t f).ref : ℤ)
    rw [hw, hsum]
    exact (h.refs f).update p _
  · show (update s.procs p x q).Ok
    by_cases hq : q = p
    · rw [hq, hself]
      exact hf.ok
    · rw [hne hq]
      exact h.ok q
  · dsimp only at hq ⊢
    by_cases hqp : q = p
    · rw [hqp, hself] at hq
      obtain ⟨hnp, hc, -⟩ := hf.parent np i hq
      rw [Child, hne hnp]
      exact hc
    · rw [hne hqp] at hq
      by_cases hnp : np = p
      · rw [Child, hnp, hself]
        exact hf.child q i (hnp ▸ hq) hqp
      · rw [Child, hne hnp]
        exact h.child hq
  · dsimp only at hq hr
    by_cases hqp : q = p <;> by_cases hrp : r = p
    · rw [hqp, hrp]
    · rw [hqp, hself] at hq
      rw [hne hrp] at hr
      exact absurd ((hf.parent np i hq).2.2 r j hr) hrp
    · rw [hrp, hself] at hr
      rw [hne hqp] at hq
      exact absurd ((hf.parent np j hr).2.2 q i hq) hqp
    · rw [hne hqp] at hq
      rw [hne hrp] at hr
      exact h.parent hq hr
  · dsimp only at hq
    by_cases hqp : q = p
    · rw [hqp, hself] at hq
      exact hf.fresh f hq
    · rw [hne hqp] at hq
      show (t f).ref = 1 ∧ (t f).type = .FD_NONE
      rw [(hf.table q f hqp (refs_pos_of_fresh hq)).2 hq]
      exact h.fresh hq
  · dsimp only at hq ⊢
    by_cases hqp : q = p
    · rw [hqp, hself] at hq ⊢
      exact hf.uses a hq
    · rw [hne hqp] at hq ⊢
      obtain ⟨fd, f, hfd, ht, ha⟩ := h.uses hq
      have hslot : (s.procs q).slot fd = some f := by
        rw [slot_of_uses hq]
        exact hfd
      have hpos : 0 < (s.procs q).refs f := Nat.add_pos_left (slots_pos hslot) _
      obtain ⟨hkt, hkp, -⟩ := (hf.table q f hqp hpos).1
      exact ⟨fd, f, hfd, hkt.trans ht, hkp.trans ha⟩
  · dsimp only at hq
    by_cases hqp : q = p
    · rw [hqp, hself] at hq
      rw [hqp]
      exact hp.lock a hq
    · rw [hne hqp] at hq
      exact hp.locks q a hqp hq
  · dsimp only at hq
    by_cases hqp : q = p
    · rw [hqp, hself] at hq
      exact hp.other a w k hq
    · rw [hne hqp] at hq
      exact hp.others q a w k hqp hq

/-! ## Steps -/

/-- Points of a process at which it uses no pipe and has no files that are not set up. -/
def Pc.Plain : Pc → Prop
  | .unused => True
  | .embryo => True
  | .zombie => True
  | .user => True
  | .run _ => True
  | _ => False

theorem Pc.Plain.ne_fork (h : pc.Plain) (np i : ℕ) : pc ≠ .fork np i := by
  rintro rfl
  exact h

theorem Pc.Plain.fresh (h : pc.Plain) : pc.fresh = [] := by
  cases pc <;> first | rfl | exact h.elim

theorem Pc.Plain.not_uses (h : pc.Plain) (a : ℕ) : ¬ pc.Uses a := by
  cases pc <;> first | exact id | exact h.elim

/-- The process is not being made by a `fork`. -/
def NoParent (s : State) (p : ℕ) : Prop := ∀ q i, (s.procs q).pc ≠ .fork p i

theorem Inv.no_parent (h : Inv s) (hp : (s.procs p).pc ≠ .embryo) : NoParent s p :=
  fun _ _ hq => hp (h.child hq).1

theorem FileStep.plain (h : Inv s) (hp : NoParent s p) (ht : TableStep s p t) (hx : x.pc.Plain)
    (hrefs : ∀ f, (t f).ref + (s.procs p).refs f = (s.ftable f).ref + x.refs f) (hok : x.Ok)
    (hnone : ∀ f, (t f).ref = 0 → (t f).type = .FD_NONE) : FileStep s p x t where
  refs := hrefs
  ok := hok
  child q i hq := absurd hq (hp q i)
  parent np i hpc := absurd hpc (hx.ne_fork np i)
  untyped := hnone
  fresh f hf := by rw [hx.fresh] at hf; cases hf
  uses a ha := absurd ha (hx.not_uses a)
  table q f hq hf := h.tableStep ht hq hf

/-- The process is not in `pipeclose` and has no lock. -/
structure Pc.Away (pc : Pc) : Prop where
  closes : pc.closes = none
  frees : pc.frees = none
  holds : ∀ a, ¬ pc.Holds a

theorem Pc.Plain.away (h : pc.Plain) : pc.Away := by
  cases pc <;> first | exact ⟨rfl, rfl, fun _ => id⟩ | exact h.elim

/-- A step away from the pages. -/
theorem PageStep.away (h : Inv s) (hp : (s.procs p).pc.Away) (hx : x.pc.Away)
    (ht : ∀ f, fileEnd (t f) = fileEnd (s.ftable f)) :
    PageStep s p x t s.pages s.npages where
  ends := by
    refine h.ends.congr (fun k => ?_) fun _ => Iff.rfl
    cases k with
    | inl f => exact ht f
    | inr q =>
      show (update s.procs p x q).pc.closes = (s.procs q).pc.closes
      by_cases hq : q = p
      · rw [hq, update_self, hx.closes, hp.closes]
      · rw [update_of_ne hq]
  last := by
    refine h.last.congr (fun q => ?_) fun _ => Iff.rfl
    by_cases hq : q = p
    · rw [hq, update_self, hx.frees, hp.frees]
    · rw [update_of_ne hq]
  freed := h.freed
  lock a ha := absurd ha (hx.holds a)
  locks q a _ hq := h.lock hq
  other a w k hpc := absurd (show x.pc.Holds a by rw [hpc]; rfl) (hx.holds a)
  others q a w k _ hq := h.other hq

/-! ## The file table -/

theorem freeFile_some (hf : freeFile t = some f) : (t f).ref = 0 := by
  have := List.find?_some hf
  exact of_decide_eq_true this

theorem fileEnd_none (h : g.type ≠ .FD_PIPE) : fileEnd g = none := if_neg fun hc => h hc.2

theorem fileEnd_congr {g g' : File} (hk : SameKind g' g) (hr : 0 < g'.ref ↔ 0 < g.ref) :
    fileEnd g' = fileEnd g := by
  obtain ⟨ht, hp, hw⟩ := hk
  simp only [fileEnd, hr, ht, hp, hw]

theorem TableStep.refl (s : State) (p : ℕ) : TableStep s p s.ftable := fun _ => .inl rfl

/-- The entry of one file changes. -/
theorem TableStep.update (hf : (s.ftable f).ref = 0 ∨ 0 < (s.procs p).refs f ∧
    (SameKind g (s.ftable f) ∨ (s.ftable f).ref = 1)) :
    TableStep s p (update s.ftable f g) := by
  intro f'
  by_cases hff : f' = f
  · subst hff
    rw [update_self]
    exact .inr hf
  · exact .inl (update_of_ne hff ..)

theorem Inv.untyped_update (h : Inv s) (hg : g.ref = 0 → g.type = .FD_NONE) (f' : Fin NFILE)
    (h0 : (update s.ftable f g f').ref = 0) :
    (update s.ftable f g f').type = .FD_NONE := by
  by_cases hff : f' = f
  · subst hff
    rw [update_self] at h0 ⊢
    exact hg h0
  · rw [update_of_ne hff] at h0 ⊢
    exact h.untyped f' h0

theorem fileEnd_update (hg : fileEnd g = fileEnd (t f)) (f' : Fin NFILE) :
    fileEnd (update t f g f') = fileEnd (t f') := by
  by_cases hff : f' = f
  · subst hff
    rw [update_self, hg]
  · rw [update_of_ne hff]

theorem refs_update {y : ProcFiles} (hf : g.ref + y.refs f = (t f).ref + x.refs f)
    (hne : ∀ f', f' ≠ f → x.refs f' = y.refs f') (f' : Fin NFILE) :
    (update t f g f').ref + y.refs f' = (t f').ref + x.refs f' := by
  by_cases hff : f' = f
  · subst hff
    rw [update_self, hf]
  · rw [update_of_ne hff, hne f' hff]

/-! ## System calls -/

/-- The points before and after a `filealloc` that returns `f`. -/
inductive Pc.Allocs (f : Fin NFILE) : Pc → Pc → Prop
  | pipe1 : Allocs f .user (.pipe1 f)
  | pipe2 (f0 : Fin NFILE) : Allocs f (.pipe1 f0) (.pipe2 f0 f)
  | open1 : Allocs f .user (.open1 f)

theorem Pc.Allocs.refs (h : x.pc.Allocs f pc) (f' : Fin NFILE) :
    ProcFiles.refs { x with pc } f' = x.refs f' + [f].count f' := by
  obtain ⟨o, pc₀⟩ := x
  cases h <;> (simp [ProcFiles.refs, ProcFiles.slot, Pc.cont, Pc.hand, List.count_cons]; try omega)

theorem Inv.filealloc (h : Inv s) (hal : filealloc s.ftable = some (f, t))
    (hpc : (s.procs p).pc.Allocs f pc) : Inv ({ s with ftable := t }.goto p pc) := by
  rw [Xv6.filealloc, Option.map_eq_some_iff] at hal
  obtain ⟨f₁, hfree, heq⟩ := hal
  cases heq
  have h0 := freeFile_some hfree
  have hnone := h.untyped f h0
  have hrefs := hpc.refs
  have hold : (s.procs p).refs f = 0 := by
    have := h.refs_le p f
    omega
  have haway : (s.procs p).pc.Away ∧ pc.Away ∧ (s.procs p).pc ≠ .embryo := by
    generalize (s.procs p).pc = pc₀ at hpc
    cases hpc <;> exact ⟨⟨rfl, rfl, fun _ => id⟩, ⟨rfl, rfl, fun _ => id⟩, by rintro ⟨⟩⟩
  have hpc' : (∀ np i, pc ≠ .fork np i) ∧ (∀ a, ¬ pc.Uses a) ∧ ∀ o, ProcFiles.Ok ⟨o, pc⟩ := by
    generalize (s.procs p).pc = pc₀ at hpc
    cases hpc <;> exact ⟨by rintro _ _ ⟨⟩, fun _ => id, fun _ => trivial⟩
  have hfresh : ∀ f' ∈ pc.fresh, f' = f ∨ f' ∈ (s.procs p).pc.fresh := by
    generalize (s.procs p).pc = pc₀ at hpc
    cases hpc <;> simp [Pc.fresh]
  show Inv ⟨update s.procs p { s.procs p with pc },
    update s.ftable f { s.ftable f with ref := 1 }, s.pages, s.npages⟩
  refine h.put ⟨refs_update ?_ fun f' hf' => ?_, hpc'.2.2 _,
    fun q i hq => absurd hq (h.no_parent haway.2.2 q i), fun np i hx => absurd hx (hpc'.1 np i),
    fun f' => h.untyped_update (fun h1 => absurd h1 Nat.one_ne_zero) f', fun f' hf' => ?_,
    fun a ha => absurd ha (hpc'.2.1 a), fun q f' hq hf' => h.tableStep (.update (.inl h0)) hq hf'⟩
    (.away h haway.1 haway.2.1 (fileEnd_update ?_))
  · rw [hrefs f, List.count_singleton_self, hold, h0]
  · rw [hrefs f', List.count_eq_zero_of_not_mem (by simpa using hf'), Nat.add_zero]
  · by_cases hff : f' = f
    · subst hff
      rw [update_self]
      exact ⟨rfl, hnone⟩
    · rw [update_of_ne hff]
      exact h.fresh ((hfresh f' hf').resolve_left hff)
  · rw [fileEnd_none (by rw [hnone]; rintro ⟨⟩), fileEnd_none (by rw [hnone]; rintro ⟨⟩)]

/-- A step that changes neither files nor pages. -/
theorem Inv.quiet (h : Inv s) (hp : (s.procs p).pc.Away) (hpar : NoParent s p)
    (hx : x.pc.Plain) (hrefs : ∀ f, x.refs f = (s.procs p).refs f) (hok : x.Ok) :
    Inv (s.setProc p x) :=
  h.put (.plain h hpar (.refl s p) hx (fun f => by rw [hrefs]) hok h.untyped)
    (.away h hp hx.away fun _ => rfl)

/-- A process at a plain point has no other references than its descriptors. -/
theorem refs_user {o : Ofile} (hc : pc.cont = none) (hh : pc.hand = []) (f : Fin NFILE) :
    ProcFiles.refs ⟨o, pc⟩ f = slots o f := by
  simp only [ProcFiles.refs, ProcFiles.slot, hc, hh, List.count_nil, Nat.add_zero]

theorem fdalloc_some {o : Ofile} {fd : Fin NOFILE} (h : fdalloc o = some fd) : o fd = none := by
  have := List.find?_some h
  exact of_decide_eq_true this

/-- `filedup` for the process `q`, which gets a descriptor of file `f`. -/
theorem Inv.filedup (h : Inv s) (hdup : filedup s.ftable f = some t) {fd : Fin NOFILE}
    (hr : 0 < (s.procs p).refs f) (hfr : f ∉ (s.procs p).pc.fresh)
    (hfd : (s.procs q).ofile fd = none)
    (hq : (s.procs q).pc = .user ∧ q = p ∨ (s.procs q).pc = .embryo)
    (hemb : ∀ r i, (s.procs r).pc = .fork q i → fd.val < i) :
    Inv ({ s with ftable := t }.setProc q
      { s.procs q with ofile := update (s.procs q).ofile fd (some f) }) := by
  rw [Xv6.filedup] at hdup
  split_ifs at hdup with h1
  cases hdup
  have hplain : (s.procs q).pc.Plain ∧ (s.procs q).pc.cont = none ∧ (s.procs q).pc.hand = [] ∧
      ∀ o, ProcFiles.Ok ⟨o, (s.procs q).pc⟩ := by
    rcases hq with ⟨hq, -⟩ | hq <;> rw [hq] <;> exact ⟨trivial, rfl, rfl, fun _ => trivial⟩
  obtain ⟨hpl, hcont, hhand, hok⟩ := hplain
  set o := update (s.procs q).ofile fd (some f) with ho
  have hslots : ∀ f', ProcFiles.refs ⟨o, (s.procs q).pc⟩ f' = slots o f' ∧
      (s.procs q).refs f' = slots (s.procs q).ofile f' := fun f' =>
    ⟨refs_user hcont hhand f', refs_user hcont hhand f'⟩
  have hu : ∀ f', slots o f' = slots (s.procs q).ofile f' + if some f = some f' then 1 else 0 := by
    intro f'
    rw [ho, ← slots_update (s.procs q).ofile fd (some f) f', if_neg (by rw [hfd]; rintro ⟨⟩),
      Nat.add_zero]
  show Inv ⟨update s.procs q ⟨o, (s.procs q).pc⟩,
    update s.ftable f { s.ftable f with ref := (s.ftable f).ref + 1 }, s.pages, s.npages⟩
  refine h.put ⟨refs_update ?_ fun f' hf' => ?_, hok _, fun r i hr _ => ⟨?_, fun fd' hi => ?_⟩,
    fun np i hx => absurd hx (hpl.ne_fork np i),
    fun f' => h.untyped_update (fun h0 => absurd h0 (Nat.succ_ne_zero _)) f', fun f' hf' => ?_,
    fun a ha => absurd ha (hpl.not_uses a), fun r f' hr hf' => ?_⟩
    (.away h hpl.away hpl.away (fileEnd_update (fileEnd_congr ⟨rfl, rfl, rfl⟩ ?_)))
  · rw [(hslots f).1, (hslots f).2, hu f, if_pos rfl, Nat.add_right_comm, Nat.add_assoc]
  · rw [(hslots f').1, (hslots f').2, hu f', if_neg fun he => hf' (Option.some.inj he).symm,
      Nat.add_zero]
  · exact (h.child hr).1
  · have hlt := hemb r i hr
    show o fd' = none
    rw [ho, update_of_ne (by rintro rfl; omega)]
    exact (h.child hr).2 fd' hi
  · have hf' : f' ∈ (s.procs q).pc.fresh := hf'
    rw [hpl.fresh] at hf'
    cases hf'
  · by_cases hff : f' = f
    · subst hff
      rw [update_self]
      refine ⟨⟨rfl, rfl, rfl⟩, fun hfresh => ?_⟩
      -- a file that is not yet set up has one reference
      have h2 := (h.fresh hfresh).1
      have hrp : r ≠ p := by rintro rfl; exact hfr hfresh
      have := h.refs_add_le hrp f'
      omega
    · rw [update_of_ne hff]
      exact ⟨⟨rfl, rfl, rfl⟩, fun _ => rfl⟩
  · show 0 < (s.ftable f).ref + 1 ↔ _
    omega

end

end Xv6.PipeLife
