/-
  The page of a pipe is freed once, when both ends are closed.

  What `pipeclose`, `piperead` and `pipewrite` do to a page they do with its
  lock, but `kfree` comes after the `release`.  The process that clears the
  second flag is the only one left that knows the page.
-/
import Xv6.Io.LifeSteps

namespace Xv6.PipeLife

open Count Own Transition Function

variable {s s' : State} {p q a : ℕ} {f : Fin NFILE} {x : ProcFiles} {k : Cont}

/-! ## Pages -/

/-- `pipeclose`, `piperead` and `pipewrite` get the lock. -/
theorem PageStep.acquire (h : Inv s) (hcloses : x.pc.closes = (s.procs p).pc.closes)
    (hfrees : x.pc.frees = (s.procs p).pc.frees) (hlock : (s.pages a).lock = none)
    (hholds : ∀ b, x.pc.Holds b → b = a) (hother : ∀ b w k, x.pc ≠ .clRel b w false k) :
    PageStep s p x s.ftable (update s.pages a { s.pages a with lock := some p })
      s.npages := by
  refine .page h hcloses hfrees (fun _ => rfl) rfl (fun b hb => ⟨hholds b hb, rfl⟩)
    (fun q _ hq => ?_) hother
  rw [h.lock hq] at hlock
  cases hlock

/-- They release it. -/
theorem PageStep.release (h : Inv s) (hcloses : x.pc.closes = (s.procs p).pc.closes)
    (hfrees : x.pc.frees = (s.procs p).pc.frees) (hholds : (s.procs p).pc.Holds a)
    (hx : ∀ b, ¬ x.pc.Holds b) :
    PageStep s p x s.ftable (update s.pages a { s.pages a with lock := none })
      s.npages := by
  refine .page h hcloses hfrees (fun _ => rfl) rfl (fun b hb => absurd hb (hx b))
    (fun q hqp hq => ?_) fun b w k hpc => hx b (by rw [hpc]; rfl)
  have hp := h.lock hholds
  rw [h.lock hq, Option.some.injEq] at hp
  exact absurd hp hqp

theorem flag_clear (pipe : Pipe) (w w' : Bool) :
    flag (clear pipe w) w' = if w' = w then false else flag pipe w' := by
  cases w <;> cases w' <;> rfl

theorem last_iff (pipe : Pipe) :
    (!pipe.readopen && !pipe.writeopen) = true ↔ ∀ w, flag pipe w = false := by
  simp [flag]

/-- **The critical section of `pipeclose`** closes the end; if the other one is closed too, the
process is going to free the page. -/
theorem PageStep.clCrit (h : Inv s) {w : Bool} (hpc : (s.procs p).pc = .clCrit a w k)
    {last : Bool} (hlast : last = (!(clear (s.pages a).pipe w).readopen &&
      !(clear (s.pages a).pipe w).writeopen)) :
    PageStep s p ⟨(s.procs p).ofile, .clRel a w last k⟩ s.ftable
      (update s.pages a { s.pages a with pipe := clear (s.pages a).pipe w }) s.npages := by
  have hown : owner s.procs s.ftable (.inr p) = some (a, w) := by
    show (s.procs p).pc.closes = _
    rw [hpc]
    rfl
  have hopen := h.ends.mem hown
  have hfree := (h.open_frees hopen).2
  have hlock : (s.pages a).lock = some p := h.lock (by rw [hpc]; rfl)
  have hflag : ∀ b w', flag (update s.pages a
      { s.pages a with pipe := clear (s.pages a).pipe w } b).pipe w' =
        if (b, w') = (a, w) then false else flag (s.pages b).pipe w' := by
    intro b w'
    by_cases hb : b = a
    · subst hb
      rw [update_self, flag_clear]
      simp
    · rw [update_of_ne hb, if_neg fun he => hb (congrArg Prod.fst he)]
  have hfrees : ∀ b, (update s.pages a
      { s.pages a with pipe := clear (s.pages a).pipe w } b).frees = (s.pages b).frees := by
    intro b
    by_cases hb : b = a
    · rw [hb, update_self]
    · rw [update_of_ne hb]
  have hlocks : ∀ b, (update s.pages a
      { s.pages a with pipe := clear (s.pages a).pipe w } b).lock = (s.pages b).lock := by
    intro b
    by_cases hb : b = a
    · rw [hb, update_self]
    · rw [update_of_ne hb]
  have hsame : ∀ b w', (b, w') ≠ (a, w) → Open s.pages s.npages (b, w') →
      Open (update s.pages a { s.pages a with pipe := clear (s.pages a).pipe w }) s.npages
        (b, w') := by
    intro b w' hne ho
    refine ⟨ho.1, ?_⟩
    rw [hflag, if_neg hne]
    exact ho.2
  have hothers : ∀ q, q ≠ p → update s.procs p
      ⟨(s.procs p).ofile, .clRel a w last k⟩ q = s.procs q := fun q hq =>
    update_of_ne hq ..
  refine ⟨h.ends.drop hown ?_ (fun m hm => ?_) fun e => ?_, ?_, fun b hb => ?_, fun b hb => ?_,
    fun q b _ hq => by rw [hlocks]; exact h.lock hq, fun b w' k' hx => ?_,
    fun q b w' k' hqp hq => hsame b _ (fun he => hqp ?_) (h.other hq)⟩
  · show (update s.procs p _ p).pc.closes = none
    rw [update_self]
    rfl
  · cases m with
    | inl f => rfl
    | inr q =>
      show (update s.procs p _ q).pc.closes = _
      rw [hothers q fun he => hm (congrArg _ he)]
      rfl
  · obtain ⟨b, w'⟩ := e
    constructor
    · rintro ⟨hb, hf⟩
      have hne : (b, w') ≠ (a, w) := by
        intro he
        rw [hflag, if_pos he] at hf
        cases hf
      refine ⟨hne, hb, ?_⟩
      rwa [hflag, if_neg hne] at hf
    · rintro ⟨hne, ho⟩
      exact hsame b w' hne ho
  · -- whether the page is going to be freed now
    have hnot : ¬ Dying s.pages s.npages a := fun hd =>
      absurd ((hd.2.1 w).symm.trans hopen.2) (by rintro ⟨⟩)
    have hdying : ∀ b, b ≠ a → (Dying (update s.pages a
        { s.pages a with pipe := clear (s.pages a).pipe w }) s.npages b ↔
          Dying s.pages s.npages b) := by
      intro b hb
      simp only [Dying, update_of_ne hb]
    have hpfrees : (s.procs p).pc.frees = none := by rw [hpc]; rfl
    cases hl : last with
    | true =>
      rw [hl] at hlast
      refine h.last.take (k := p) (v := a) hpfrees hnot (by rw [update_self]; rfl)
        (fun q hq => by rw [update_of_ne hq]) fun b => ?_
      by_cases hb : b = a
      · subst hb
        refine iff_of_true ⟨hopen.1, fun w' => ?_, by rw [hfrees]; exact hfree⟩ (.inl rfl)
        rw [update_self]
        exact (last_iff _).1 hlast.symm w'
      · rw [hdying b hb]
        simp [hb]
    | false =>
      rw [hl] at hlast
      refine h.last.congr (fun q => ?_) fun b => ?_
      · by_cases hq : q = p
        · rw [hq, update_self, hpfrees]
          rfl
        · rw [update_of_ne hq]
      · by_cases hb : b = a
        · subst hb
          refine iff_of_false (fun hd => ?_) hnot
          have hall := hd.2.1
          rw [update_self] at hall
          rw [(last_iff _).2 hall] at hlast
          cases hlast
        · exact hdying b hb
  · rw [hfrees]
    refine ⟨(h.freed b hb).1, fun hpos w' => ?_⟩
    rw [hflag]
    split_ifs
    · rfl
    · exact (h.freed b hb).2 hpos w'
  · obtain rfl : a = b := hb
    rw [hlocks, hlock]
  · cases hx
    refine hsame a _ (by simp) ⟨hopen.1, ?_⟩
    -- not both ends are closed
    by_contra hf
    have hall : ∀ w', flag (clear (s.pages a).pipe w) w' = false := by
      intro w'
      rw [flag_clear]
      by_cases hw : w' = w
      · rw [if_pos hw]
      · rw [if_neg hw]
        rw [Bool.eq_not.2 hw]
        exact Bool.eq_false_iff.2 hf
    rw [(last_iff _).2 hall] at hlast
    cases hlast
  · -- another process that has the lock
    have hb : b = a := congrArg Prod.fst he
    have hql : (s.pages b).lock = some q := h.lock (by rw [hq]; rfl)
    rw [hb, hlock, Option.some.injEq] at hql
    exact hql.symm

/-- **`kfree`** by the process that closed the last end. -/
theorem PageStep.clFree (h : Inv s) (hpc : (s.procs p).pc = .clFree a k) (hx : x.pc.Plain) :
    PageStep s p x s.ftable
      (update s.pages a { s.pages a with frees := (s.pages a).frees + 1 }) s.npages := by
  have hfr : (s.procs p).pc.frees = some a := by rw [hpc]; rfl
  obtain ⟨hlt, hflags, hzero⟩ := h.last.mem (k := p) hfr
  have hpipe : ∀ b, (update s.pages a
      { s.pages a with frees := (s.pages a).frees + 1 } b).pipe = (s.pages b).pipe := by
    intro b
    by_cases hb : b = a
    · rw [hb, update_self]
    · rw [update_of_ne hb]
  have hlocks : ∀ b, (update s.pages a
      { s.pages a with frees := (s.pages a).frees + 1 } b).lock = (s.pages b).lock := by
    intro b
    by_cases hb : b = a
    · rw [hb, update_self]
    · rw [update_of_ne hb]
  have hopen : ∀ e, Open (update s.pages a
      { s.pages a with frees := (s.pages a).frees + 1 }) s.npages e ↔ Open s.pages s.npages e :=
    fun e => by simp only [Open, hpipe]
  refine ⟨h.ends.congr (fun m => ?_) hopen, h.last.drop (k := p) hfr ?_
    (fun q hq => by rw [update_of_ne hq]) fun b => ?_, fun b hb => ?_,
    fun b hb => absurd hb (hx.away.holds b), fun q b _ hq => by rw [hlocks]; exact h.lock hq,
    fun b w k' he => absurd (show x.pc.Holds b by rw [he]; rfl) (hx.away.holds b),
    fun q b w k' _ hq => (hopen _).2 (h.other hq)⟩
  · cases m with
    | inl f => rfl
    | inr q =>
      show (update s.procs p x q).pc.closes = (s.procs q).pc.closes
      by_cases hq : q = p
      · rw [hq, update_self, hx.away.closes, hpc]
        rfl
      · rw [update_of_ne hq]
  · rw [update_self, hx.away.frees]
  · by_cases hb : b = a
    · subst hb
      refine iff_of_false (fun hd => ?_) fun hd => hd.1 rfl
      have := hd.2.2
      rw [update_self] at this
      cases this
    · simp only [Dying, update_of_ne hb, ne_eq, hb, not_false_eq_true, true_and]
  · rw [hpipe]
    by_cases hba : b = a
    · subst hba
      rw [update_self]
      exact ⟨by simp only [hzero]; omega, fun _ => hflags⟩
    · rw [update_of_ne hba]
      exact h.freed b hb

/-! ## All steps -/

/-- A process in `pipeclose` goes on there. -/
theorem FileStep.inside (h : Inv s) {pc pc' : Pc} (hpc : (s.procs p).pc = pc)
    (hcont : pc.cont = some k) (hcont' : pc'.cont = some k) (hhand : pc.hand = k.hand)
    (hhand' : pc'.hand = k.hand) (hok : ∀ o, ProcFiles.Ok ⟨o, pc'⟩ ↔ ProcFiles.Ok ⟨o, pc⟩) :
    FileStep s p ⟨(s.procs p).ofile, pc'⟩ s.ftable := by
  have hfork : ∀ np i, pc' ≠ .fork np i := by
    rintro np i rfl
    cases hcont'
  have hfresh : pc'.fresh = [] := by
    cases pc' <;> first | rfl | cases hcont'
  have huses : ∀ a, ¬ pc'.Uses a := by
    cases pc' <;> first | exact fun _ => id | cases hcont'
  have hemb : (s.procs p).pc ≠ .embryo := by
    rw [hpc]
    rintro rfl
    cases hcont
  refine .keep h (h.no_parent hemb) (fun f => ?_) ((hok _).2 ?_) (fun np i hx => absurd hx (hfork np i))
    hfresh fun a ha => absurd ha (huses a)
  · simp only [ProcFiles.refs, ProcFiles.slot, hpc, hcont, hcont', hhand, hhand']
  · have := h.ok p
    rwa [show s.procs p = ⟨(s.procs p).ofile, pc⟩ by rw [← hpc]] at this

/-- A process leaves `pipeclose`. -/
theorem FileStep.leave (h : Inv s) {pc : Pc} (hpc : (s.procs p).pc = pc) (hcont : pc.cont = some k)
    (hhand : pc.hand = k.hand) (hok : k.Ok (s.procs p).ofile) :
    FileStep s p ((s.procs p).closed k) s.ftable := by
  obtain ⟨hplain, hx⟩ := closed_plain hok
  have hemb : (s.procs p).pc ≠ .embryo := by
    rw [hpc]
    rintro rfl
    cases hcont
  exact .keep h (h.no_parent hemb) (closed_refs hok (by rw [hpc, hcont]) (by rw [hpc, hhand])) hx
    (fun np i he => absurd he (hplain.ne_fork np i)) hplain.fresh
    fun a ha => absurd ha (hplain.not_uses a)

/-- A process in `piperead` or `pipewrite` goes on there, or leaves. -/
theorem FileStep.rw (h : Inv s) {pc pc' : Pc} (hpc : (s.procs p).pc = pc) (huse : pc.Uses a)
    (huse' : ∀ b, pc'.Uses b → b = a) (hcont' : pc'.cont = none) (hhand' : pc'.hand = [])
    (hfresh : pc'.fresh = []) (hfork : ∀ np i, pc' ≠ .fork np i)
    (hok : ∀ o, ProcFiles.Ok ⟨o, pc'⟩) :
    FileStep s p ⟨(s.procs p).ofile, pc'⟩ s.ftable := by
  have hpoint : pc.cont = none ∧ pc.hand = [] ∧ pc ≠ .embryo := by
    cases pc <;> first | exact huse.elim | exact ⟨rfl, rfl, by rintro ⟨⟩⟩
  refine .keep h (h.no_parent (by rw [hpc]; exact hpoint.2.2)) (fun f => ?_) (hok _)
    (fun np i he => absurd he (hfork np i)) hfresh fun b hb => ?_
  · simp only [ProcFiles.refs, ProcFiles.slot, hpc, hpoint.1, hpoint.2.1, hcont', hhand']
  · obtain rfl := huse' b hb
    exact h.uses (p := p) (by rw [hpc]; exact huse)

theorem rwLoop_open (killed : Bool) (pipe : Pipe) (y : Rw) (w : Bool) :
    flag (rwLoop killed pipe y).1 w = flag pipe w := by
  have hpipe : (rwLoop killed pipe y).1.readopen = pipe.readopen ∧
      (rwLoop killed pipe y).1.writeopen = pipe.writeopen := by
    cases y with
    | read n =>
      rw [rwLoop]
      split_ifs
      · exact ⟨rfl, rfl⟩
      · exact ⟨rfl, rfl⟩
      · exact (pipe.drain_open n).2
    | write bs =>
      rw [rwLoop]
      split_ifs <;> exact (pipe.fill_open bs).2
  rw [flag, flag, hpipe.1, hpipe.2]

theorem Inv.step (h : Inv s) {e : Env} (hstep : s.step p e = some s') : Inv s' := by
  have hokp := h.ok p
  rw [State.step] at hstep
  simp only at hstep
  cases hpc : (s.procs p).pc with
  | unused | embryo | zombie | user =>
    rw [hpc] at hstep
    cases hstep
  | pipe1 f0 =>
    rw [hpc] at hstep
    simp only at hstep
    split at hstep
    · cases hstep
      exact h.goOn hpc ⟨rfl, rfl, fun _ => id⟩ (by rintro ⟨⟩) trivial rfl rfl trivial
    · rename_i hal
      cases hstep
      exact h.filealloc hal (by rw [hpc]; exact .pipe2 f0)
  | pipe2 f0 f1 =>
    rw [hpc] at hstep
    cases hstep
    exact h.pipe2 hpc e.page
  | open1 f =>
    rw [hpc] at hstep
    simp only at hstep
    split at hstep
    · cases hstep
      exact h.goOn hpc ⟨rfl, rfl, fun _ => id⟩ (by rintro ⟨⟩) trivial rfl rfl trivial
    · rename_i hfd
      cases hstep
      exact h.open1 hpc hfd e.ip e.omode
  | fork np i =>
    rw [hpc] at hstep
    simp only at hstep
    split at hstep
    · rename_i hi
      split at hstep
      · cases hstep
        exact h.forkNext hpc
      · rename_i f hfd
        obtain ⟨t, hdup, heq⟩ := Option.bind_eq_some_iff.1 hstep
        cases heq
        have hpc' : (s.procs p).pc = .fork np (⟨i, hi⟩ : Fin NOFILE) := hpc
        exact h.forkDup hpc' hfd hdup
    · cases hstep
      exact h.forkDone hpc
  | run k =>
    rw [hpc] at hstep
    cases k with
    | close fs =>
      cases fs with
      | nil =>
        cases hstep
        exact h.goOn hpc ⟨rfl, rfl, fun _ => id⟩ (by rintro ⟨⟩) trivial rfl rfl trivial
      | cons f fs =>
        refine h.fileclose ?_ hstep
        rw [show s.procs p = ⟨(s.procs p).ofile, .run (.close (f :: fs))⟩ by rw [← hpc]]
        exact .close _ fs
    | exit n =>
      have hclear : Cleared (s.procs p).ofile n := by simpa only [ProcFiles.Ok, hpc] using hokp
      simp only at hstep
      split at hstep
      · rename_i hn
        split at hstep
        · rename_i hnone
          cases hstep
          refine h.goOn hpc ⟨rfl, rfl, fun _ => id⟩ (by rintro ⟨⟩) trivial rfl rfl fun fd hfd => ?_
          rcases Nat.lt_succ_iff_lt_or_eq.1 hfd with hlt | heq
          · exact hclear fd hlt
          · rw [show fd = ⟨n, hn⟩ from Fin.ext heq, hnone]
        · rename_i f hfd
          refine h.fileclose ?_ hstep
          rw [show s.procs p = ⟨(s.procs p).ofile, .run (.exit n)⟩ by rw [← hpc]]
          have hclear' : Cleared (s.procs p).ofile (⟨n, hn⟩ : Fin NOFILE) := hclear
          exact .exit hfd hclear'
      · rename_i hn
        cases hstep
        exact h.goOn hpc ⟨rfl, rfl, fun _ => id⟩ (by rintro ⟨⟩) trivial rfl rfl
          fun fd hfd => hclear fd (by omega)
  | clAcq a w k =>
    rw [hpc] at hstep
    simp only [State.acquire] at hstep
    split_ifs at hstep with hlock
    cases hstep
    exact h.put (.inside h hpc rfl rfl rfl rfl fun _ => Iff.rfl)
      (.acquire h (by rw [hpc]; rfl) (by rw [hpc]; rfl) hlock (fun b hb => hb.symm) (by rintro _ _ _ ⟨⟩))
  | clCrit a w k =>
    rw [hpc] at hstep
    cases hstep
    exact h.put (.inside h hpc rfl rfl rfl rfl fun _ => Iff.rfl) (.clCrit h hpc rfl)
  | clRel a w last k =>
    rw [hpc] at hstep
    cases last with
    | true =>
      cases hstep
      exact h.put (.inside h hpc rfl rfl rfl rfl fun _ => Iff.rfl)
        (.release h (by rw [hpc]; rfl) (by rw [hpc]; rfl) (by rw [hpc]; rfl) fun _ => id)
    | false =>
      have hok : k.Ok (s.procs p).ofile := by simpa only [ProcFiles.Ok, hpc] using hokp
      have hplain := (closed_plain hok).1
      cases hstep
      exact h.put (.leave h hpc rfl rfl hok)
        (.release h (by rw [hpc, hplain.away.closes]; rfl) (by rw [hpc, hplain.away.frees]; rfl)
          (by rw [hpc]; rfl) hplain.away.holds)
  | clFree a k =>
    have hok : k.Ok (s.procs p).ofile := by simpa only [ProcFiles.Ok, hpc] using hokp
    rw [hpc] at hstep
    cases hstep
    exact h.put (.leave h hpc rfl rfl hok) (.clFree h hpc (closed_plain hok).1)
  | rwAcq a y =>
    rw [hpc] at hstep
    simp only [State.acquire] at hstep
    split_ifs at hstep with hlock
    cases hstep
    exact h.put (.rw (a := a) h hpc rfl (fun b hb => hb.symm) rfl rfl rfl (by rintro _ _ ⟨⟩) fun _ => trivial)
      (.acquire h (by rw [hpc]; rfl) (by rw [hpc]; rfl) hlock (fun b hb => hb.symm) (by rintro _ _ _ ⟨⟩))
  | rwCrit a y =>
    have hlock : (s.pages a).lock = some p := h.lock (by rw [hpc]; rfl)
    rw [hpc] at hstep
    cases hstep
    refine h.put (.rw (a := a) h hpc rfl (fun b hb => hb.symm) rfl rfl rfl (by rintro _ _ ⟨⟩) fun _ => trivial)
      (.page h (by rw [hpc]; rfl) (by rw [hpc]; rfl) (rwLoop_open e.killed (s.pages a).pipe y) rfl
        (fun b hb => ⟨hb.symm, hlock⟩) (fun q hqp hq => h.lock hq) (by rintro _ _ _ ⟨⟩))
  | rwRel a y =>
    rw [hpc] at hstep
    cases y with
    | none =>
      cases hstep
      exact h.put (.rw (a := a) h hpc rfl (fun b hb => hb.elim) rfl rfl rfl (by rintro _ _ ⟨⟩) fun _ => trivial)
        (.release h (by rw [hpc]; rfl) (by rw [hpc]; rfl) (by rw [hpc]; rfl) fun _ => id)
    | some y =>
      cases hstep
      exact h.put
        (.rw (a := a) h hpc rfl (fun b hb => hb.symm) rfl rfl rfl (by rintro _ _ ⟨⟩) fun _ => trivial)
        (.release h (by rw [hpc]; rfl) (by rw [hpc]; rfl) (by rw [hpc]; rfl) fun _ => id)

/-! ## Runs -/

/-- The first process runs and there are no open files. -/
def Start (s : State) : Prop :=
  (∀ p, (s.procs p).ofile = fun _ => none) ∧ (s.procs 0).pc = .user ∧
    (∀ p, p ≠ 0 → (s.procs p).pc = .unused) ∧
    (∀ f, (s.ftable f).ref = 0 ∧ (s.ftable f).type = .FD_NONE) ∧ s.npages = 0

def Runs (s : State) : Prop := Reach Start (fun s l s' => State.next s l = some s') s

theorem Inv.start (h : Start s) : Inv s := by
  obtain ⟨hfiles, hpc0, hpc, htab, hn⟩ := h
  have hplain : ∀ p, (s.procs p).pc = .user ∨ (s.procs p).pc = .unused := by
    intro p
    by_cases hp : p = 0
    · exact .inl (hp ▸ hpc0)
    · exact .inr (hpc p hp)
  have haway : ∀ p, (s.procs p).pc.Away := by
    intro p
    rcases hplain p with h | h <;> rw [h] <;> exact ⟨rfl, rfl, fun _ => id⟩
  have hrefs : ∀ p f, (s.procs p).refs f = 0 := by
    intro p f
    have hslots : (s.procs p).refs f = slots (s.procs p).ofile f := by
      rcases hplain p with h | h <;> exact refs_user (by rw [h]; rfl) (by rw [h]; rfl) f
    rw [hslots, hfiles]
    simp [slots]
  have hfork : ∀ p np i, (s.procs p).pc ≠ .fork np i := by
    intro p np i
    rcases hplain p with h | h <;> rw [h] <;> rintro ⟨⟩
  have hends : ∀ m, owner s.procs s.ftable m = none := by
    intro m
    cases m with
    | inl f => exact fileEnd_none (by rw [(htab f).2]; rintro ⟨⟩)
    | inr p => exact (haway p).closes
  refine ⟨fun f => ?_, fun p => ?_, fun hq => absurd hq (hfork _ _ _),
    fun hq => absurd hq (hfork _ _ _), fun f _ => (htab f).2, fun {p f} hf => ?_, fun {p a} hu => ?_,
    ⟨fun {m n v} hm => ?_, fun e => iff_of_false (fun ho => ?_) ?_⟩,
    ⟨fun {m n v} hm => ?_, fun b => iff_of_false (fun hd => ?_) ?_⟩, fun a ha => ?_,
    fun {p a} hh => absurd hh ((haway p).holds a), fun {p a w k} hq => ?_⟩
  · rw [(htab f).1]
    exact Total.zero fun p => by rw [hrefs]; rfl
  · rw [ProcFiles.Ok]
    rcases hplain p with h | h <;> rw [h]
    · trivial
    · intro fd _
      rw [hfiles]
  · rcases hplain p with h | h <;> rw [h] at hf <;> cases hf
  · rcases hplain p with h | h <;> rw [h] at hu <;> exact hu.elim
  · rw [hends m] at hm
    cases hm
  · have := ho.1
    omega
  · rintro ⟨m, hm⟩
    rw [hends m] at hm
    cases hm
  · rw [(haway m).frees] at hm
    cases hm
  · have := hd.1
    omega
  · rintro ⟨m, hm⟩
    rw [(haway m).frees] at hm
    cases hm
  · omega
  · exact absurd (show (s.procs p).pc.Holds a by rw [hq]; rfl) ((haway p).holds a)

theorem Inv.next (h : Inv s) {l : Label} (hnext : s.next l = some s') : Inv s' := by
  cases l with
  | call p x =>
    rw [State.next] at hnext
    split at hnext
    · rename_i hpc
      exact h.call hpc hnext
    · cases hnext
  | step p e => exact h.step hnext

theorem Runs.inv (h : Runs s) : Inv s :=
  Reach.inv (I := Inv) (fun _ => Inv.start) (fun _ _ _ hi hs => hi.next hs) h

/-! ## The lifetime of a pipe -/

/-- A file is the end `e` of a pipe. -/
def IsEnd (g : File) (e : ℕ × Bool) : Prop := g.type = .FD_PIPE ∧ (g.pipe, g.writable) = e

/-- Some descriptor refers to the end `e`. -/
def Refers (s : State) (e : ℕ × Bool) : Prop :=
  ∃ p fd f, (s.procs p).slot fd = some f ∧ IsEnd (s.ftable f) e

/-- A call that closes the end `e` is in progress. -/
def Pending (s : State) (e : ℕ × Bool) : Prop :=
  ∃ p, (s.procs p).pc.closes = some e ∨ ∃ f ∈ (s.procs p).pc.hand, IsEnd (s.ftable f) e

theorem slots_pos_iff {o : Ofile} : 0 < slots o f ↔ ∃ fd, o fd = some f := by
  refine ⟨fun h => ?_, fun h => h.elim fun _ => slots_pos⟩
  by_contra hno
  have hzero : slots o f = 0 := Finset.sum_eq_zero fun fd _ => if_neg fun hfd => hno ⟨fd, hfd⟩
  omega

theorem refs_pos_iff : 0 < x.refs f ↔ (∃ fd, x.slot fd = some f) ∨ f ∈ x.pc.hand := by
  rw [ProcFiles.refs, Nat.add_pos_iff_pos_or_pos, slots_pos_iff, List.count_pos_iff]

/-- An open end has a file that refers to it, or is being closed. -/
theorem Inv.open_iff (h : Inv s) (e : ℕ × Bool) :
    Open s.pages s.npages e ↔ Refers s e ∨ Pending s e := by
  have hfile : ∀ p f, 0 < (s.procs p).refs f → IsEnd (s.ftable f) e → Open s.pages s.npages e := by
    rintro p f hpos ⟨ht, rfl⟩
    have hown : owner s.procs s.ftable (.inl f) =
        some ((s.ftable f).pipe, (s.ftable f).writable) :=
      if_pos ⟨hpos.trans_le (h.refs_le p f), ht⟩
    exact h.ends.mem hown
  constructor
  · intro ho
    obtain ⟨m, hm⟩ := (h.ends.used_iff e).1 ho
    cases m with
    | inl f =>
      have hend : fileEnd (s.ftable f) = some e := hm
      rw [fileEnd] at hend
      split_ifs at hend with hf
      have hne : ((s.ftable f).ref : ℤ) ≠ 0 := by omega
      obtain ⟨p, hp⟩ := (h.refs f).exists_ne hne
      have hpos : 0 < (s.procs p).refs f := by omega
      have hisEnd : IsEnd (s.ftable f) e := ⟨hf.2, Option.some.inj hend⟩
      rcases refs_pos_iff.1 hpos with ⟨fd, hfd⟩ | hhand
      · exact .inl ⟨p, fd, f, hfd, hisEnd⟩
      · exact .inr ⟨p, .inr ⟨f, hhand, hisEnd⟩⟩
    | inr p => exact .inr ⟨p, .inl hm⟩
  · rintro (⟨p, fd, f, hfd, he⟩ | ⟨p, hcl | ⟨f, hf, he⟩⟩)
    · exact hfile p f (refs_pos_iff.2 (.inl ⟨fd, hfd⟩)) he
    · have hown : owner s.procs s.ftable (.inr p) = some e := hcl
      exact h.ends.mem hown
    · exact hfile p f (refs_pos_iff.2 (.inr hf)) he

/-- **The lifetime of a pipe.**  In every run: the flag of an end is set exactly while a descriptor
refers to it or the call that closes the last one is in progress; a page is passed to `kfree` at
most once, and it has been exactly when no descriptor refers to either end, no call that closes one
is in progress and no process is about to free it, of which there is at most one; and a page that
`pipeclose`, `piperead` or `pipewrite` is about to touch has not been freed. -/
theorem pipe_lifetime (h : Runs s) :
    (∀ a < s.npages, ∀ w, flag (s.pages a).pipe w = true ↔ Refers s (a, w) ∨ Pending s (a, w)) ∧
    (∀ a < s.npages, (s.pages a).frees ≤ 1 ∧
      ((s.pages a).frees = 1 ↔ (∀ w, ¬ Refers s (a, w) ∧ ¬ Pending s (a, w)) ∧
        ∀ p, (s.procs p).pc.frees ≠ some a) ∧
      ∀ p q, (s.procs p).pc.frees = some a → (s.procs q).pc.frees = some a → p = q) ∧
    ∀ p a, (s.procs p).pc.Touches a → a < s.npages ∧ (s.pages a).frees = 0 := by
  have hi := Runs.inv h
  have hflag : ∀ a < s.npages, ∀ w,
      flag (s.pages a).pipe w = true ↔ Refers s (a, w) ∨ Pending s (a, w) := by
    intro a ha w
    rw [← hi.open_iff]
    exact ⟨fun hf => ⟨ha, hf⟩, fun ho => ho.2⟩
  refine ⟨hflag, fun a ha => ⟨(hi.freed a ha).1, ⟨fun hone => ⟨fun w => ?_, fun p hp => ?_⟩, ?_⟩,
    fun p q hp hq => hi.last.inj hp hq⟩, fun p a => hi.touches⟩
  · rw [← not_or, ← hflag a ha, (hi.freed a ha).2 (by omega) w]
    rintro ⟨⟩
  · have := (hi.last.mem (k := p) hp).2.2
    omega
  · rintro ⟨hno, hfrees⟩
    have hle := (hi.freed a ha).1
    by_contra hne
    have hdying : Dying s.pages s.npages a := by
      refine ⟨ha, fun w => ?_, by omega⟩
      rw [Bool.eq_false_iff, Ne, hflag a ha, not_or]
      exact hno w
    obtain ⟨p, hp⟩ := (hi.last.used_iff a).1 hdying
    exact hfrees p hp

def bootState : State where
  procs p := ⟨fun _ => none, if p = 0 then .user else .unused⟩
  ftable _ := ⟨.FD_NONE, 0, false, false, 0, 0, 0⟩
  pages _ := ⟨.pipealloc fun _ => 0, none, 0⟩
  npages := 0

theorem bootState_start : Start bootState :=
  ⟨fun _ => rfl, rfl, fun _ hp => if_neg hp, fun _ => ⟨rfl, rfl⟩, rfl⟩

/-- `n` steps of process `p`. -/
def stepsOf (p n : ℕ) : List Label := List.replicate n (.step p ⟨false, fun _ => 0, 0, 0⟩)

/-- A process makes a pipe and forks.  The child closes the read end and exits while its parent,
which has closed the write end, reads; then the parent exits. -/
def pipeRun : List Label :=
  .call 0 .pipe :: stepsOf 0 2 ++ .call 0 (.fork 1) :: stepsOf 0 17 ++
  .call 1 (.close 0) :: stepsOf 1 2 ++ .call 0 (.close 1) :: stepsOf 0 2 ++
  .call 0 (.read 0 1) :: stepsOf 0 3 ++ .call 1 .exit :: stepsOf 1 20 ++ stepsOf 0 3 ++
  .call 0 .exit :: stepsOf 0 21

def pipeRun_reached : Reached Runs fun s =>
    decide (s.npages = 1 ∧ (s.pages 0).frees = 1) :=
  .ofRun State.next (fun _ _ _ h => h) bootState_start pipeRun (by decide +kernel)

theorem pipe_lifetime_run : ∃ s, Runs s ∧ s.npages = 1 ∧ (s.pages 0).frees = 1 ∧
    (∀ w, ¬ Refers s (0, w) ∧ ¬ Pending s (0, w)) ∧ ∀ p, ¬ (s.procs p).pc.Touches 0 := by
  obtain ⟨s, hs, hp⟩ := pipeRun_reached
  obtain ⟨hn, hfrees⟩ := of_decide_eq_true hp
  obtain ⟨-, hlife, htouch⟩ := pipe_lifetime hs
  have h0 : 0 < s.npages := by omega
  refine ⟨s, hs, hn, hfrees, ((hlife 0 h0).2.1.1 hfrees).1, fun p ht => ?_⟩
  have := (htouch p 0 ht).2
  omega

/-- **References to files are counted.**  In every run the count of a file is the number of
descriptors that refer to it and of references that calls in progress have in hand; so `filedup` and
`fileclose` find a count of at least 1, and an entry with count 0 is not in use. -/
theorem file_refs_counted (h : Runs s) (f : Fin NFILE) :
    Count.Total (fun p => ((s.procs p).refs f : ℤ)) (s.ftable f).ref ∧
    (∀ p fd, (s.procs p).slot fd = some f → 1 ≤ (s.ftable f).ref) ∧
    ((s.ftable f).ref = 0 → (s.ftable f).type = .FD_NONE) := by
  have hi := Runs.inv h
  refine ⟨hi.refs f, fun p fd hfd => ?_, hi.untyped f⟩
  exact (refs_pos_iff.2 (.inl ⟨fd, hfd⟩)).trans_le (hi.refs_le p f)

/-- After the `fork` parent and child have the read end. -/
def forkRun_reached : Reached Runs fun s =>
    decide ((s.procs 0).slot 0 = some 0 ∧ (s.procs 1).slot 0 = some 0 ∧ (s.ftable 0).ref = 2) :=
  .ofRun State.next (fun _ _ _ h => h) bootState_start (pipeRun.take 21) (by decide +kernel)

theorem file_refs_counted_fork : ∃ s, Runs s ∧ (s.procs 0).slot 0 = some 0 ∧
    (s.procs 1).slot 0 = some 0 ∧ Count.Total (fun p => ((s.procs p).refs 0 : ℤ)) 2 := by
  obtain ⟨s, hs, hp⟩ := forkRun_reached
  obtain ⟨h0, h1, href⟩ := of_decide_eq_true hp
  have hc := (file_refs_counted hs 0).1
  rw [href] at hc
  exact ⟨s, hs, h0, h1, hc⟩

end Xv6.PipeLife
