/-
  System calls keep the invariant of `Lifetime`.

  Calls move references between descriptors and calls in progress, `fileclose`
  takes one away and hands the end of a pipe to `pipeclose`, and `pipealloc`
  makes a page with two open ends.
-/
import Xv6.Io.Lifetime

namespace Xv6.PipeLife

open Count Own Transition Function

variable {s s' : State} {p q a : ℕ} {f : Fin NFILE} {x : ProcFiles}

/-! ## Files stay as they are -/

/-- The process has the same references before and after. -/
theorem FileStep.keep (h : Inv s) (hpar : NoParent s p)
    (hrefs : ∀ f, x.refs f = (s.procs p).refs f) (hok : x.Ok)
    (hparent : ∀ np i, x.pc = .fork np i →
      np ≠ p ∧ Child s.procs np i ∧ ∀ q j, (s.procs q).pc = .fork np j → q = p)
    (hfresh : x.pc.fresh = [])
    (huses : ∀ a, x.pc.Uses a → ∃ fd f, x.ofile fd = some f ∧
      (s.ftable f).type = .FD_PIPE ∧ (s.ftable f).pipe = a) : FileStep s p x s.ftable where
  refs f := by rw [hrefs]
  ok := hok
  child q i hq := absurd hq (hpar q i)
  parent := hparent
  untyped := h.untyped
  fresh f hf := by rw [hfresh] at hf; cases hf
  uses := huses
  table q f hq hf := h.tableStep (.refl s p) hq hf

/-- One page changes, neither its flags nor whether it has been freed. -/
theorem PageStep.page (h : Inv s) {g : PipePage} (hcloses : x.pc.closes = (s.procs p).pc.closes)
    (hfrees : x.pc.frees = (s.procs p).pc.frees)
    (hflag : ∀ w, flag g.pipe w = flag (s.pages a).pipe w) (hcount : g.frees = (s.pages a).frees)
    (hlock : ∀ b, x.pc.Holds b → b = a ∧ g.lock = some p)
    (hlocks : ∀ q, q ≠ p → (s.procs q).pc.Holds a → g.lock = some q)
    (hother : ∀ b w k, x.pc ≠ .clRel b w false k) :
    PageStep s p x s.ftable (update s.pages a g) s.npages := by
  have hpipe : ∀ b w, flag (update s.pages a g b).pipe w = flag (s.pages b).pipe w := by
    intro b w
    by_cases hb : b = a
    · rw [hb, update_self, hflag]
    · rw [update_of_ne hb]
  have hfreed : ∀ b, (update s.pages a g b).frees = (s.pages b).frees := by
    intro b
    by_cases hb : b = a
    · rw [hb, update_self, hcount]
    · rw [update_of_ne hb]
  have hopen : ∀ e, Open (update s.pages a g) s.npages e ↔ Open s.pages s.npages e :=
    fun e => by simp only [Open, hpipe]
  refine ⟨h.ends.congr (fun k => ?_) hopen, h.last.congr (fun q => ?_) fun b => ?_, fun b hb => ?_,
    fun b hb => ?_, fun q b hq hb => ?_, fun b w k hx => absurd hx (hother b w k),
    fun q b w k hq hx => (hopen _).2 (h.other hx)⟩
  · cases k with
    | inl f => rfl
    | inr q =>
      show (update s.procs p x q).pc.closes = (s.procs q).pc.closes
      by_cases hq : q = p
      · rw [hq, update_self, hcloses]
      · rw [update_of_ne hq]
  · by_cases hq : q = p
    · rw [hq, update_self, hfrees]
    · rw [update_of_ne hq]
  · simp only [Dying, hpipe, hfreed]
  · simp only [hpipe, hfreed]
    exact h.freed b hb
  · obtain ⟨rfl, hg⟩ := hlock b hb
    rw [update_self, hg]
  · by_cases hba : b = a
    · subst hba
      rw [update_self, hlocks q hq hb]
    · rw [update_of_ne hba]
      exact h.lock hb

/-! ## System calls -/

theorem Inv.dup (h : Inv s) {t : Ftable} {fd fd' : Fin NOFILE} (hpc : (s.procs p).pc = .user)
    (hfd : (s.procs p).ofile fd = some f) (hfd' : fdalloc (s.procs p).ofile = some fd')
    (hdup : Xv6.filedup s.ftable f = some t) :
    Inv ({ s with ftable := t }.setProc p
      ⟨update (s.procs p).ofile fd' (some f), .user⟩) := by
  have hemb : (s.procs p).pc ≠ .embryo := by rw [hpc]; rintro ⟨⟩
  have hr : 0 < (s.procs p).refs f := by
    have hslots : (s.procs p).refs f = slots (s.procs p).ofile f :=
      refs_user (by rw [hpc]; rfl) (by rw [hpc]; rfl) f
    rw [hslots]
    exact slots_pos hfd
  have hinv := h.filedup hdup hr (by rw [hpc]; simp [Pc.fresh]) (fdalloc_some hfd')
    (.inl ⟨hpc, rfl⟩) fun r i hr => absurd hr (h.no_parent hemb r i)
  simpa only [hpc] using hinv

variable {fd : Fin NOFILE}

theorem Inv.close (h : Inv s) (hpc : (s.procs p).pc = .user) (hfd : (s.procs p).ofile fd = some f) :
    Inv (s.setProc p ⟨update (s.procs p).ofile fd none, .run (.close [f])⟩) := by
  refine h.quiet (by rw [hpc]; exact ⟨rfl, rfl, fun _ => id⟩) (h.no_parent (by rw [hpc]; rintro ⟨⟩)) trivial
    (fun f' => ?_) trivial
  have hslots : (s.procs p).refs f' = slots (s.procs p).ofile f' :=
    refs_user (by rw [hpc]; rfl) (by rw [hpc]; rfl) f'
  have hup := slots_update (s.procs p).ofile fd none f'
  have hcount : [f].count f' = if (s.procs p).ofile fd = some f' then 1 else 0 := by
    rw [hfd, List.count_singleton]
    simp
  simp only [reduceCtorEq, if_false, Nat.add_zero] at hup
  rw [hslots, ← hup, ← hcount]
  rfl

/-- The descriptors of a slot that is not in use are empty. -/
theorem Inv.unused (h : Inv s) (hpc : (s.procs p).pc = .unused ∨ (s.procs p).pc = .zombie) :
    Cleared (s.procs p).ofile NOFILE := by
  have hok := h.ok p
  rcases hpc with hpc | hpc <;> simpa only [ProcFiles.Ok, hpc] using hok

theorem goto_ofile (s : State) (p q : ℕ) (pc : Pc) :
    ((s.goto p pc).procs q).ofile = (s.procs q).ofile := by
  by_cases hq : q = p
  · simp [State.goto, State.setProc, hq]
  · simp [State.goto, State.setProc, hq]

theorem goto_pc (s : State) (p : ℕ) (pc : Pc) : ((s.goto p pc).procs p).pc = pc := by
  simp [State.goto, State.setProc]

theorem goto_of_ne (s : State) (pc : Pc) (hq : q ≠ p) : (s.goto p pc).procs q = s.procs q := by
  simp [State.goto, State.setProc, hq]

/-- A process goes on at a point with the same references. -/
theorem Inv.goto (h : Inv s) {pc pc' : Pc} (hpc : (s.procs p).pc = pc) (hp : pc.Away)
    (hpar : NoParent s p) (hx : pc'.Plain) (hcont : pc.cont = none) (hhand : pc.hand = pc'.hand)
    (hok : ProcFiles.Ok ⟨(s.procs p).ofile, pc'⟩) : Inv (s.goto p pc') := by
  have hcont' : pc'.cont = none := by
    cases pc' <;> first | rfl | exact hx.elim
  refine h.quiet (hpc ▸ hp) hpar hx (fun f => ?_) hok
  simp only [ProcFiles.refs, ProcFiles.slot, hpc, hcont, hcont', hhand]

/-- A process that is not an embryo goes on. -/
theorem Inv.goOn (h : Inv s) {pc pc' : Pc} (hpc : (s.procs p).pc = pc) (hp : pc.Away)
    (hemb : pc ≠ .embryo) (hx : pc'.Plain) (hcont : pc.cont = none) (hhand : pc.hand = pc'.hand)
    (hok : ProcFiles.Ok ⟨(s.procs p).ofile, pc'⟩) : Inv (s.goto p pc') :=
  h.goto hpc hp (h.no_parent (hpc ▸ hemb)) hx hcont hhand hok

theorem Inv.callFork (h : Inv s) {np : ℕ} (hpc : (s.procs p).pc = .user)
    (hnp : (s.procs np).pc = .unused) : Inv ((s.goto np .embryo).goto p (.fork np 0)) := by
  have hne : p ≠ np := by
    rintro rfl
    rw [hpc] at hnp
    cases hnp
  have h₁ : Inv (s.goto np .embryo) := h.goOn hnp ⟨rfl, rfl, fun _ => id⟩ (by rintro ⟨⟩) trivial
    rfl rfl trivial
  have hpc₁ : ((s.goto np .embryo).procs p).pc = .user := by rw [goto_of_ne s _ hne, hpc]
  have haway : Pc.Away .user := ⟨rfl, rfl, fun _ => id⟩
  refine h₁.put (.keep h₁ (h₁.no_parent (by rw [hpc₁]; rintro ⟨⟩)) (fun f => ?_) trivial ?_ rfl fun a ha => ha.elim)
    (.away h₁ (by rw [hpc₁]; exact haway) ⟨rfl, rfl, fun _ => id⟩ fun _ => rfl)
  · simp only [ProcFiles.refs, ProcFiles.slot, hpc₁]
    rfl
  · rintro np' i heq
    cases heq
    refine ⟨hne.symm, ⟨goto_pc .., fun fd _ => ?_⟩, fun q j hq => ?_⟩
    · rw [goto_ofile]
      exact h.unused (.inl hnp) fd fd.isLt
    · have hq' : q ≠ np := by
        rintro rfl
        rw [goto_pc] at hq
        cases hq
      rw [goto_of_ne s _ hq'] at hq
      have := (h.child hq).1
      rw [hnp] at this
      cases this

theorem Inv.rwCall (h : Inv s) (hpc : (s.procs p).pc = .user) (hfd : (s.procs p).ofile fd = some f)
    (ht : (s.ftable f).type = .FD_PIPE) (y : Rw) :
    Inv (s.goto p (.rwAcq (s.ftable f).pipe y)) := by
  refine h.put (.keep h (h.no_parent (by rw [hpc]; rintro ⟨⟩)) (fun f => ?_) trivial (fun _ _ hx => by cases hx) rfl
    fun b hb => ⟨fd, f, hfd, ht, hb⟩)
    (.away h (by rw [hpc]; exact ⟨rfl, rfl, fun _ => id⟩) ⟨rfl, rfl, fun _ => id⟩ fun _ => rfl)
  simp only [ProcFiles.refs, ProcFiles.slot, hpc]
  rfl

theorem Inv.call (h : Inv s) {c : Call} (hpc : (s.procs p).pc = .user)
    (hstep : s.call p c = some s') : Inv s' := by
  cases c with
  | pipe =>
    rw [State.call] at hstep
    split at hstep
    · cases hstep; exact h
    · rename_i hal
      cases hstep
      exact h.filealloc hal (by rw [hpc]; exact .pipe1)
  | «open» =>
    rw [State.call] at hstep
    split at hstep
    · cases hstep; exact h
    · rename_i hal
      cases hstep
      exact h.filealloc hal (by rw [hpc]; exact .open1)
  | dup fd =>
    rw [State.call] at hstep
    split at hstep
    · cases hstep; exact h
    · rename_i f hfd
      split at hstep
      · cases hstep; exact h
      · rename_i fd' hfd'
        obtain ⟨t, hdup, heq⟩ := Option.bind_eq_some_iff.1 hstep
        cases heq
        exact h.dup hpc hfd hfd' hdup
  | close fd =>
    rw [State.call] at hstep
    split at hstep
    · cases hstep; exact h
    · rename_i f hfd
      cases hstep
      exact h.close hpc hfd
  | fork np =>
    rw [State.call] at hstep
    split at hstep
    · rename_i hnp
      cases hstep
      exact h.callFork hpc hnp
    · cases hstep
  | exit =>
    cases hstep
    exact h.goOn hpc ⟨rfl, rfl, fun _ => id⟩ (by rintro ⟨⟩) trivial rfl rfl
      fun fd hfd => absurd hfd (Nat.not_lt_zero _)
  | wait np =>
    rw [State.call] at hstep
    split at hstep
    · rename_i hnp
      cases hstep
      exact h.goOn hnp ⟨rfl, rfl, fun _ => id⟩ (by rintro ⟨⟩) trivial rfl rfl (h.unused (.inr hnp))
    · cases hstep
  | read | write =>
    rw [State.call] at hstep
    split at hstep
    · cases hstep; exact h
    · rename_i f hfd
      split_ifs at hstep with hc
      · cases hstep
        exact h.rwCall hpc hfd hc.2 _
      · cases hstep; exact h

/-! ## `fileclose` -/

/-- The process is before `fileclose` of `f`, which returns to `k`. -/
inductive Closing (f : Fin NFILE) : Cont → ProcFiles → Prop
  | close (o : Ofile) (fs : List (Fin NFILE)) : Closing f (.close fs) ⟨o, .run (.close (f :: fs))⟩
  | exit {o : Ofile} {fd : Fin NOFILE} (hfd : o fd = some f) (hc : Cleared o fd) :
    Closing f (.exit fd) ⟨o, .run (.exit fd)⟩

variable {k : Cont}

theorem slot_exit (o : Ofile) (fd : Fin NOFILE) :
    (fun fd' : Fin NOFILE => if fd'.val = fd.val then none else o fd') = update o fd none := by
  funext fd'
  by_cases h : fd' = fd
  · rw [h, if_pos rfl, update_self]
  · rw [if_neg fun hv => h (Fin.ext hv), update_of_ne h]

theorem closed_exit (x : ProcFiles) (fd : Fin NOFILE) :
    x.closed (.exit fd) = ⟨update x.ofile fd none, .run (.exit (fd + 1))⟩ := by
  rw [ProcFiles.closed, dif_pos fd.isLt]

theorem Cleared.succ {o : Ofile} (h : Cleared o fd) :
    Cleared (update o fd none) (fd + 1) := by
  intro fd' hlt
  by_cases heq : fd' = fd
  · rw [heq, update_self]
  · rw [update_of_ne heq]
    refine h fd' ?_
    have : fd'.val ≠ fd.val := fun hv => heq (Fin.ext hv)
    omega

/-- After `fileclose`, the next one or the end of the loop. -/
theorem closed_plain (hk : k.Ok x.ofile) : (x.closed k).pc.Plain ∧ (x.closed k).Ok := by
  cases k with
  | close fs => exact ⟨trivial, trivial⟩
  | exit n =>
    rw [closed_exit x ⟨n, hk.1⟩]
    have hclear : Cleared x.ofile (⟨n, hk.1⟩ : Fin NOFILE) := hk.2
    exact ⟨trivial, hclear.succ⟩

/-- When `fileclose` returns, the reference it was called for is gone already. -/
theorem closed_refs (hk : k.Ok x.ofile) (hcont : x.pc.cont = some k) (hhand : x.pc.hand = k.hand)
    (f : Fin NFILE) : (x.closed k).refs f = x.refs f := by
  cases k with
  | close fs =>
    simp only [ProcFiles.refs, ProcFiles.slot, hcont, hhand]
    rfl
  | exit n =>
    rw [closed_exit x ⟨n, hk.1⟩]
    simp only [ProcFiles.refs, ProcFiles.slot, hcont, hhand, slot_exit x.ofile ⟨n, hk.1⟩]
    rfl

theorem Closing.ok (h : Closing f k x) : k.Ok x.ofile := by
  cases h with
  | close o fs => trivial
  | exit hfd hc => exact ⟨Fin.isLt _, hc⟩

theorem Closing.away (h : Closing f k x) : x.pc.Away ∧ x.pc ≠ .embryo := by
  cases h <;> exact ⟨⟨rfl, rfl, fun _ => id⟩, by rintro ⟨⟩⟩

theorem Closing.clAcq_refs (h : Closing f k x) (a : ℕ) (w : Bool) (f' : Fin NFILE) :
    ProcFiles.refs { x with pc := .clAcq a w k } f' + [f].count f' = x.refs f' := by
  cases h with
  | close o fs =>
    simp only [ProcFiles.refs, ProcFiles.slot, Pc.cont, Pc.hand, Cont.hand, List.count_cons,
      List.count_nil]
    omega
  | @exit o fd hfd hc =>
    have hup := slots_update o fd none f'
    have hcount : [f].count f' = if o fd = some f' then 1 else 0 := by
      rw [hfd, List.count_singleton]
      simp
    simp only [reduceCtorEq, if_false, Nat.add_zero] at hup
    simp only [ProcFiles.refs, ProcFiles.slot, Pc.cont, Pc.hand, Cont.hand, List.count_nil,
      Nat.add_zero, slot_exit]
    rw [hcount, hup]

theorem Closing.closed_refs (h : Closing f k x) (f' : Fin NFILE) :
    (x.closed k).refs f' + [f].count f' = x.refs f' := by
  have hsame : ProcFiles.closed ⟨x.ofile, .clAcq 0 false k⟩ k = x.closed k := by
    cases h with
    | close o fs => rfl
    | exit hfd hc => rw [closed_exit, closed_exit]
  have hok : k.Ok (ProcFiles.mk x.ofile (.clAcq 0 false k)).ofile := h.ok
  have hdone := PipeLife.closed_refs hok rfl rfl f'
  rw [← hsame, hdone]
  exact h.clAcq_refs 0 false f'

theorem Closing.refs_pos (h : Closing f k x) : 0 < x.refs f := by
  have := h.clAcq_refs 0 false f
  rw [List.count_singleton_self] at this
  omega

/-- A reference goes, and others are left. -/
theorem Inv.fileclose_some (h : Inv s) (hc : Closing f k (s.procs p)) (hr : 1 < (s.ftable f).ref) :
    Inv ⟨update s.procs p ((s.procs p).closed k),
      update s.ftable f { s.ftable f with ref := (s.ftable f).ref - 1 }, s.pages,
      s.npages⟩ := by
  obtain ⟨hplain, hok⟩ := closed_plain hc.ok
  have hrefs := hc.closed_refs
  refine h.put (.plain h (h.no_parent hc.away.2) (.update (.inr ⟨hc.refs_pos, .inl ⟨rfl, rfl, rfl⟩⟩)) hplain
    (refs_update ?_ fun f' hf' => ?_) hok fun f' => h.untyped_update (fun h0 => ?_) f')
    (.away h hc.away.1 hplain.away (fileEnd_update (fileEnd_congr ⟨rfl, rfl, rfl⟩ ?_)))
  · have := hrefs f
    rw [List.count_singleton_self] at this
    show (s.ftable f).ref - 1 + _ = _
    omega
  · have := hrefs f'
    rw [List.count_eq_zero_of_not_mem (by simpa using hf'), Nat.add_zero] at this
    exact this
  · have h0 : (s.ftable f).ref - 1 = 0 := h0
    omega
  · show 0 < (s.ftable f).ref - 1 ↔ _
    omega

/-- What the last `fileclose` does to the counts. -/
theorem last_refs (hr : (s.ftable f).ref = 1)
    (hx : ∀ f', x.refs f' + [f].count f' = (s.procs p).refs f') (f' : Fin NFILE) :
    (update s.ftable f { s.ftable f with ref := 0, type := .FD_NONE } f').ref +
      (s.procs p).refs f' = (s.ftable f').ref + x.refs f' := by
  refine refs_update ?_ (fun f' hf' => ?_) f'
  · have := hx f
    rw [List.count_singleton_self] at this
    show 0 + _ = _
    omega
  · have := hx f'
    rw [List.count_eq_zero_of_not_mem (by simpa using hf'), Nat.add_zero] at this
    exact this

theorem Inv.fileclose_last (h : Inv s) (hc : Closing f k (s.procs p)) (hr : (s.ftable f).ref = 1)
    (ht : (s.ftable f).type ≠ .FD_PIPE) :
    Inv ⟨update s.procs p ((s.procs p).closed k),
      update s.ftable f { s.ftable f with ref := 0, type := .FD_NONE }, s.pages,
      s.npages⟩ := by
  obtain ⟨hplain, hok⟩ := closed_plain hc.ok
  refine h.put (.plain h (h.no_parent hc.away.2) (.update (.inr ⟨hc.refs_pos, .inr hr⟩)) hplain
    (last_refs hr hc.closed_refs) hok fun f' => h.untyped_update (fun _ => rfl) f')
    (.away h hc.away.1 hplain.away (fileEnd_update ?_))
  rw [fileEnd_none ht]
  exact fileEnd_none (by rintro ⟨⟩)

/-- **The last `fileclose`** of an end of a pipe passes the end on to `pipeclose`. -/
theorem Inv.fileclose_pipe (h : Inv s) (hc : Closing f k (s.procs p)) (hr : (s.ftable f).ref = 1)
    (ht : (s.ftable f).type = .FD_PIPE) :
    Inv ⟨update s.procs p
      ⟨(s.procs p).ofile, .clAcq (s.ftable f).pipe (s.ftable f).writable k⟩,
      update s.ftable f { s.ftable f with ref := 0, type := .FD_NONE }, s.pages,
      s.npages⟩ := by
  set x : ProcFiles := ⟨(s.procs p).ofile, .clAcq (s.ftable f).pipe (s.ftable f).writable k⟩ with hx
  have haway := hc.away.1
  have htable : TableStep s p
      (update s.ftable f { s.ftable f with ref := 0, type := .FD_NONE }) :=
    .update (.inr ⟨hc.refs_pos, .inr hr⟩)
  refine h.put ⟨last_refs hr (hc.clAcq_refs _ _), hc.ok,
    fun q i hq => absurd hq (h.no_parent hc.away.2 q i), fun _ _ hx => (by cases hx),
    fun f' => h.untyped_update (fun _ => rfl) f', fun _ hf => (by cases hf), fun _ ha => ha.elim,
    fun q f' hq hf' => h.tableStep htable hq hf'⟩
    ⟨?_, ?_, h.freed, fun _ ha => ha.elim, fun q a _ hq => h.lock hq, fun _ _ _ hx => (by cases hx),
      fun q a w k _ hq => h.other hq⟩
  · refine h.ends.pass (k := .inl f) (l := .inr p)
      (v := ((s.ftable f).pipe, (s.ftable f).writable)) ?_ haway.closes ?_ ?_ fun m hf hp => ?_
    · exact if_pos ⟨by omega, ht⟩
    · show fileEnd (update s.ftable f _ f) = none
      rw [update_self]
      exact fileEnd_none (by rintro ⟨⟩)
    · show (update s.procs p x p).pc.closes = _
      rw [update_self]
      rfl
    · cases m with
      | inl f' =>
        show fileEnd (update s.ftable f _ f') = _
        rw [update_of_ne fun he => hf (congrArg _ he)]
        rfl
      | inr q =>
        show (update s.procs p x q).pc.closes = _
        rw [update_of_ne fun he => hp (congrArg _ he)]
        rfl
  · refine h.last.congr (fun q => ?_) fun _ => Iff.rfl
    by_cases hq : q = p
    · rw [hq, update_self, haway.frees]
      rfl
    · rw [update_of_ne hq]

theorem Inv.fileclose (h : Inv s) (hc : Closing f k (s.procs p))
    (hstep : s.fileclose p f k = some s') : Inv s' := by
  have hpos : 0 < (s.ftable f).ref := hc.refs_pos.trans_le (h.refs_le p f)
  obtain ⟨⟨t, ff⟩, hclose, hstep⟩ := Option.bind_eq_some_iff.1 hstep
  rw [Xv6.fileclose] at hclose
  split_ifs at hclose with h1 h2
  · cases hclose
    cases hstep
    exact h.fileclose_some hc (by omega)
  · cases hclose
    have hr : (s.ftable f).ref = 1 := by omega
    simp only at hstep
    split_ifs at hstep with ht
    · cases hstep
      exact h.fileclose_pipe hc hr ht
    · cases hstep
      exact h.fileclose_last hc hr ht

/-! ## New files -/

theorem slots_add {o : Ofile} (h : o fd = none) (f f' : Fin NFILE) :
    slots (update o fd (some f)) f' = slots o f' + [f].count f' := by
  have hup := slots_update o fd (some f) f'
  rw [if_neg (by rw [h]; rintro ⟨⟩), Nat.add_zero] at hup
  rw [hup, List.count_singleton]
  simp

theorem pipeFds_spec {f0 f1 : Fin NFILE} (hpc : x.pc = .pipe2 f0 f1) :
    (pipeFds x f0 f1).pc.Plain ∧ (pipeFds x f0 f1).Ok ∧
      ∀ f, (pipeFds x f0 f1).refs f = x.refs f := by
  have hx : ∀ f, x.refs f = slots x.ofile f + [f0, f1].count f := by
    intro f
    simp only [ProcFiles.refs, ProcFiles.slot, hpc]
    rfl
  rw [pipeFds]
  split
  · exact ⟨trivial, trivial, fun f => (hx f).symm⟩
  · rename_i fd0 h0
    have h0 := fdalloc_some h0
    simp only
    split
    · refine ⟨trivial, trivial, fun f => ?_⟩
      have hback : update (update x.ofile fd0 (some f0)) fd0 none = x.ofile := by
        rw [update_idem, ← h0, update_eq_self]
      rw [hx, hback]
      rfl
    · rename_i fd1 h1
      have h1 := fdalloc_some h1
      refine ⟨trivial, trivial, fun f => ?_⟩
      rw [refs_user rfl rfl, slots_add h1, slots_add h0, hx]
      simp only [List.count_cons, List.count_nil]
      omega

theorem Inv.uses_open (h : Inv s) (hu : (s.procs p).pc.Uses a) :
    ∃ w, Open s.pages s.npages (a, w) := by
  obtain ⟨fd, f, hfd, ht, rfl⟩ := h.uses hu
  have hslot : (s.procs p).slot fd = some f := by rw [slot_of_uses hu, hfd]
  have hpos : 0 < (s.ftable f).ref :=
    (Nat.add_pos_left (slots_pos hslot) _).trans_le (h.refs_le p f)
  have hend : owner s.procs s.ftable (.inl f) = some ((s.ftable f).pipe, (s.ftable f).writable) :=
    if_pos ⟨hpos, ht⟩
  exact ⟨_, h.ends.mem hend⟩

/-- A page that a process has a lock of, or is about to use, is there and has not been freed. -/
def Pc.Touches (a : ℕ) : Pc → Prop
  | .clAcq b _ _ => b = a
  | .clCrit b _ _ => b = a
  | .clRel b _ _ _ => b = a
  | .clFree b _ => b = a
  | .rwAcq b _ => b = a
  | .rwCrit b _ => b = a
  | .rwRel b _ => b = a
  | _ => False

theorem Inv.open_frees (h : Inv s) {w : Bool} (ho : Open s.pages s.npages (a, w)) :
    a < s.npages ∧ (s.pages a).frees = 0 := by
  refine ⟨ho.1, Nat.eq_zero_of_not_pos fun hpos => ?_⟩
  have := (h.freed a ho.1).2 hpos w
  exact absurd (ho.2.symm.trans this) (by rintro ⟨⟩)

theorem Inv.touches (h : Inv s) (ht : (s.procs p).pc.Touches a) :
    a < s.npages ∧ (s.pages a).frees = 0 := by
  have hdying : ∀ b, (s.procs p).pc.frees = some b → b < s.npages ∧ (s.pages b).frees = 0 :=
    fun b hb => ⟨(h.last.mem (k := p) hb).1, (h.last.mem (k := p) hb).2.2⟩
  have hclose : ∀ b w, (s.procs p).pc.closes = some (b, w) →
      b < s.npages ∧ (s.pages b).frees = 0 := by
    intro b w hb
    have hown : owner s.procs s.ftable (.inr p) = some (b, w) := hb
    exact h.open_frees (h.ends.mem hown)
  have huse : ∀ b, (s.procs p).pc.Uses b → b < s.npages ∧ (s.pages b).frees = 0 := by
    intro b hb
    obtain ⟨w, hw⟩ := h.uses_open hb
    exact h.open_frees hw
  cases hpc : (s.procs p).pc with
  | clAcq b w | clCrit b w =>
    rw [hpc] at ht hclose
    exact ht ▸ hclose b w rfl
  | clRel b w last k =>
    cases last with
    | true =>
      rw [hpc] at ht hdying
      exact ht ▸ hdying b rfl
    | false =>
      have hopen := h.open_frees (h.other hpc)
      rw [hpc] at ht
      exact ht ▸ hopen
  | clFree b k =>
    rw [hpc] at ht hdying
    exact ht ▸ hdying b rfl
  | rwAcq b | rwCrit b | rwRel b =>
    rw [hpc] at ht huse
    exact ht ▸ huse b rfl
  | _ =>
    rw [hpc] at ht
    exact ht.elim

theorem Pc.Holds.touches {pc : Pc} (h : pc.Holds a) : pc.Touches a := by
  cases pc <;> first | exact h | exact h.elim

/-- The file table with the ends of the new pipe `a`. -/
def pipeTable (t : Ftable) (f0 f1 : Fin NFILE) (a : ℕ) : Ftable :=
  update (update t f0 (readEnd (t f0) a)) f1
    (writeEnd (update t f0 (readEnd (t f0) a) f1) a)

section
variable {t : Ftable} {f0 f1 : Fin NFILE}

theorem pipeTable_read (hne : f0 ≠ f1) : pipeTable t f0 f1 a f0 = readEnd (t f0) a := by
  rw [pipeTable, update_of_ne hne, update_self]

theorem pipeTable_write (hne : f0 ≠ f1) : pipeTable t f0 f1 a f1 = writeEnd (t f1) a := by
  rw [pipeTable, update_self, update_of_ne hne.symm]

theorem pipeTable_of_ne (h0 : f ≠ f0) (h1 : f ≠ f1) : pipeTable t f0 f1 a f = t f := by
  rw [pipeTable, update_of_ne h1, update_of_ne h0]

/-- A new pipe has two ends, with one file each. -/
theorem Owns.pipe (h : Inv s) {procs : ℕ → ProcFiles}
    (hprocs : ∀ q, (procs q).pc.closes = (s.procs q).pc.closes) (hne : f0 ≠ f1)
    (h0 : (s.ftable f0).ref = 1 ∧ (s.ftable f0).type = .FD_NONE)
    (h1 : (s.ftable f1).ref = 1 ∧ (s.ftable f1).type = .FD_NONE) (data : Fin PIPESIZE → UInt8) :
    Owns (owner procs (pipeTable s.ftable f0 f1 s.npages))
      (Open (update s.pages s.npages ⟨.pipealloc data, none, 0⟩) (s.npages + 1)) := by
  classical
  have hnone : ∀ f, (s.ftable f).ref = 1 ∧ (s.ftable f).type = .FD_NONE →
      owner s.procs s.ftable (.inl f) = none := fun f hf => fileEnd_none (by rw [hf.2]; rintro ⟨⟩)
  have hfirst : Owns (update (owner s.procs s.ftable) (.inl f0) (some (s.npages, false)))
      fun e => e = (s.npages, false) ∨ Open s.pages s.npages e :=
    h.ends.take (hnone f0 h0) (fun hc => absurd hc.1 (lt_irrefl _)) (update_self ..)
      (fun l hl => update_of_ne hl ..) fun _ => Iff.rfl
  refine hfirst.take (k := .inl f1) (v := (s.npages, true)) ?_ ?_ ?_ (fun l hl => ?_) fun e => ?_
  · rw [update_of_ne (fun he => hne (Sum.inl.inj he).symm), hnone f1 h1]
  · rintro (hc | hc)
    · cases hc
    · exact absurd hc.1 (lt_irrefl _)
  · show fileEnd (pipeTable s.ftable f0 f1 s.npages f1) = _
    rw [pipeTable_write hne]
    exact if_pos ⟨by simp [writeEnd, h1.1], rfl⟩
  · by_cases hl0 : l = .inl f0
    · subst hl0
      rw [update_self]
      show fileEnd (pipeTable s.ftable f0 f1 s.npages f0) = _
      rw [pipeTable_read hne]
      exact if_pos ⟨by simp [readEnd, h0.1], rfl⟩
    · rw [update_of_ne hl0]
      cases l with
      | inl f =>
        show fileEnd (pipeTable s.ftable f0 f1 s.npages f) = fileEnd (s.ftable f)
        rw [pipeTable_of_ne (fun he => hl0 (congrArg _ he)) fun he => hl (congrArg _ he)]
      | inr q => exact hprocs q
  · obtain ⟨b, w⟩ := e
    by_cases hb : b = s.npages
    · subst hb
      cases w <;> simp [Open, flag, Pipe.pipealloc]
    · simp only [Open, update_of_ne hb, Prod.mk.injEq, hb, false_and, false_or]
      refine and_congr_left fun _ => ?_
      omega

theorem Inv.pipe2 (h : Inv s) (hpc : (s.procs p).pc = .pipe2 f0 f1) (data : Fin PIPESIZE → UInt8) :
    Inv ⟨update s.procs p (pipeFds (s.procs p) f0 f1), pipeTable s.ftable f0 f1 s.npages,
      update s.pages s.npages ⟨.pipealloc data, none, 0⟩, s.npages + 1⟩ := by
  have h0 : (s.ftable f0).ref = 1 ∧ (s.ftable f0).type = .FD_NONE :=
    h.fresh (p := p) (by rw [hpc]; simp [Pc.fresh])
  have h1 : (s.ftable f1).ref = 1 ∧ (s.ftable f1).type = .FD_NONE :=
    h.fresh (p := p) (by rw [hpc]; simp [Pc.fresh])
  have hrefs : ∀ f, [f0, f1].count f ≤ (s.procs p).refs f := by
    intro f
    rw [ProcFiles.refs, hpc]
    exact Nat.le_add_left ..
  have hne : f0 ≠ f1 := by
    rintro rfl
    have := (hrefs f0).trans (h.refs_le p f0)
    simp [h0.1] at this
  obtain ⟨hplain, hok, hsame⟩ := pipeFds_spec hpc
  have haway : (s.procs p).pc.Away := by rw [hpc]; exact ⟨rfl, rfl, fun _ => id⟩
  have hprocs : ∀ q, q ≠ p → update s.procs p (pipeFds (s.procs p) f0 f1) q = s.procs q :=
    fun q hq => update_of_ne hq ..
  have hlt : ∀ b, b < s.npages → b ≠ s.npages := fun b hb he => by omega
  -- counts and kinds of the files that are not the new ends
  have hcase : ∀ f, pipeTable s.ftable f0 f1 s.npages f = s.ftable f ∨
      0 < (s.procs p).refs f ∧ (s.ftable f).ref = 1 := by
    intro f
    by_cases hf0 : f = f0
    · exact .inr ⟨lt_of_lt_of_le (by simp [hf0]) (hrefs f), hf0 ▸ h0.1⟩
    · by_cases hf1 : f = f1
      · exact .inr ⟨lt_of_lt_of_le (by simp [hf1]) (hrefs f), hf1 ▸ h1.1⟩
      · exact .inl (pipeTable_of_ne hf0 hf1)
  have href : ∀ f, (pipeTable s.ftable f0 f1 s.npages f).ref = (s.ftable f).ref := by
    intro f
    by_cases hf0 : f = f0
    · rw [hf0, pipeTable_read hne]
      rfl
    · by_cases hf1 : f = f1
      · rw [hf1, pipeTable_write hne]
        rfl
      · rw [pipeTable_of_ne hf0 hf1]
  have htable : TableStep s p (pipeTable s.ftable f0 f1 s.npages) := by
    intro f
    rcases hcase f with hf | ⟨hpos, hone⟩
    · exact .inl hf
    · exact .inr (.inr ⟨hpos, .inr hone⟩)
  refine h.put (.plain h (h.no_parent (by rw [hpc]; rintro ⟨⟩)) htable hplain
    (fun f => by rw [href, hsame]) hok fun f hf => ?_)
    ⟨Owns.pipe h (fun q => ?_) hne h0 h1 data, h.last.congr (fun q => ?_) fun b => ?_,
      fun b hb => ?_, fun b hb => absurd hb (hplain.away.holds b), fun q b hq hb => ?_,
      fun b w k hx => absurd (show (pipeFds (s.procs p) f0 f1).pc.Holds b by rw [hx]; rfl)
        (hplain.away.holds b), fun q b w k hq hb => ?_⟩
  · rw [href] at hf
    rcases hcase f with heq | ⟨-, hone⟩
    · rw [heq]
      exact h.untyped f hf
    · omega
  · by_cases hq : q = p
    · rw [hq, update_self, hplain.away.closes, haway.closes]
    · rw [hprocs q hq]
  · by_cases hq : q = p
    · rw [hq, update_self, hplain.away.frees, haway.frees]
    · rw [hprocs q hq]
  · by_cases hb : b = s.npages
    · subst hb
      refine iff_of_false (fun hd => ?_) fun hd => absurd hd.1 (lt_irrefl _)
      have := hd.2.1 true
      rw [update_self] at this
      cases this
    · simp only [Dying, update_of_ne hb]
      refine and_congr_left fun _ => ?_
      omega
  · by_cases hbn : b = s.npages
    · subst hbn
      rw [update_self]
      exact ⟨Nat.zero_le 1, fun hc => absurd hc (lt_irrefl 0)⟩
    · rw [update_of_ne hbn]
      exact h.freed b (by omega)
  · rw [update_of_ne (hlt b (h.touches hb.touches).1)]
    exact h.lock hb
  · have ho := h.other hb
    refine ⟨Nat.lt_succ_of_lt ho.1, ?_⟩
    simp only [update_of_ne (hlt b ho.1)]
    exact ho.2

end

theorem Inv.open1 (h : Inv s) (hpc : (s.procs p).pc = .open1 f)
    (hfd : fdalloc (s.procs p).ofile = some fd) (ip : Fin NINODE) (omode : UInt32) :
    Inv ⟨update s.procs p ⟨update (s.procs p).ofile fd (some f), .user⟩,
      update s.ftable f (openFile (s.ftable f) ip omode), s.pages, s.npages⟩ := by
  obtain ⟨hone, hnone⟩ : (s.ftable f).ref = 1 ∧ (s.ftable f).type = .FD_NONE :=
    h.fresh (p := p) (by rw [hpc]; simp [Pc.fresh])
  have hrefs : ∀ f', (s.procs p).refs f' = slots (s.procs p).ofile f' + [f].count f' := by
    intro f'
    simp only [ProcFiles.refs, ProcFiles.slot, hpc]
    rfl
  have hpos : 0 < (s.procs p).refs f := by
    rw [hrefs, List.count_singleton_self]
    omega
  have hsame : ∀ f', ProcFiles.refs ⟨update (s.procs p).ofile fd (some f), .user⟩ f' =
      (s.procs p).refs f' := fun f' => by
    rw [refs_user rfl rfl, slots_add (fdalloc_some hfd), hrefs]
  refine h.put (.plain h (h.no_parent (by rw [hpc]; rintro ⟨⟩)) (.update (.inr ⟨hpos, .inr hone⟩))
    trivial (refs_update (by rw [hsame]; rfl) fun f' _ => hsame f') trivial
    fun f' => h.untyped_update (fun h0 => ?_) f')
    (.away h (by rw [hpc]; exact ⟨rfl, rfl, fun _ => id⟩) ⟨rfl, rfl, fun _ => id⟩
      (fileEnd_update ?_))
  · exact absurd (hone.symm.trans h0) (by rintro ⟨⟩)
  · rw [fileEnd_none (g := s.ftable f) (by rw [hnone]; rintro ⟨⟩)]
    exact fileEnd_none (by rintro ⟨⟩)

/-! ## `fork` -/

/-- The parent goes on to the next descriptor. -/
theorem Inv.forkNext (h : Inv s) {np i : ℕ} (hpc : (s.procs p).pc = .fork np i) :
    Inv (s.goto p (.fork np (i + 1))) := by
  obtain ⟨hemb, hempty⟩ := h.child hpc
  have hnp : np ≠ p := by
    rintro rfl
    rw [hpc] at hemb
    cases hemb
  refine h.put (.keep h (h.no_parent (by rw [hpc]; rintro ⟨⟩)) (fun f => ?_) trivial ?_ rfl
    fun a ha => ha.elim)
    (.away h (by rw [hpc]; exact ⟨rfl, rfl, fun _ => id⟩) ⟨rfl, rfl, fun _ => id⟩ fun _ => rfl)
  · simp only [ProcFiles.refs, ProcFiles.slot, hpc]
    rfl
  · rintro np' i' heq
    cases heq
    exact ⟨hnp, ⟨hemb, fun fd hfd => hempty fd (by omega)⟩, fun q j hq => h.parent hq hpc⟩

theorem Inv.forkDup (h : Inv s) {np : ℕ} {t : Ftable} (hpc : (s.procs p).pc = .fork np fd)
    (hfd : (s.procs p).ofile fd = some f) (hdup : Xv6.filedup s.ftable f = some t) :
    Inv (({ s with ftable := t }.setProc np
      { s.procs np with ofile := update (s.procs np).ofile fd (some f) }).goto p
        (.fork np (fd + 1))) := by
  obtain ⟨hemb, hempty⟩ := h.child hpc
  have hnp : np ≠ p := by
    rintro rfl
    rw [hpc] at hemb
    cases hemb
  have h₁ := h.forkNext hpc
  have hr : 0 < ((s.goto p (.fork np (fd + 1))).procs p).refs f := by
    have hslot : ((s.goto p (.fork np (fd + 1))).procs p).slot fd = some f := by
      rw [ProcFiles.slot, goto_pc]
      show ((s.goto p (.fork np (fd + 1))).procs p).ofile fd = some f
      rw [goto_ofile, hfd]
    exact Nat.add_pos_left (slots_pos hslot) _
  have hchild : (s.goto p (.fork np (fd + 1))).procs np = s.procs np := goto_of_ne s _ hnp
  have hfree : ((s.goto p (.fork np (fd + 1))).procs np).ofile fd = none := by
    rw [hchild]
    exact hempty fd le_rfl
  have h₂ := h₁.filedup hdup hr (by rw [goto_pc]; simp [Pc.fresh]) hfree
    (.inr (by rw [hchild]; exact hemb)) fun r i hri => ?_
  · -- the two processes are updated in the other order
    rw [hchild] at h₂
    have hswap : ∀ x y : ProcFiles, update (update s.procs p x) np y =
        update (update s.procs np y) p x := fun x y =>
      update_comm hnp.symm x y s.procs
    have hsame : (update s.procs np { s.procs np with
        ofile := update (s.procs np).ofile fd (some f) }) p = s.procs p :=
      update_of_ne hnp.symm ..
    simp only [State.goto, State.setProc, hswap] at h₂ ⊢
    rw [hsame]
    exact h₂
  · by_cases hrp : r = p
    · rw [hrp, goto_pc] at hri
      cases hri
      omega
    · rw [goto_of_ne s _ hrp] at hri
      exact absurd (h.parent hri hpc) hrp

theorem Inv.forkDone (h : Inv s) {np i : ℕ} (hpc : (s.procs p).pc = .fork np i) :
    Inv ((s.goto np .user).goto p .user) := by
  obtain ⟨hemb, -⟩ := h.child hpc
  have hnp : np ≠ p := by
    rintro rfl
    rw [hpc] at hemb
    cases hemb
  have h₁ : Inv (s.goto p .user) := h.goOn hpc ⟨rfl, rfl, fun _ => id⟩ (by rintro ⟨⟩) trivial
    rfl rfl trivial
  have hchild : (s.goto p .user).procs np = s.procs np := goto_of_ne s _ hnp
  have hemb₁ : ((s.goto p .user).procs np).pc = .embryo := by rw [hchild, hemb]
  have hpar : NoParent (s.goto p .user) np := by
    intro q j hq
    by_cases hqp : q = p
    · rw [hqp, goto_pc] at hq
      cases hq
    · rw [goto_of_ne s _ hqp] at hq
      exact hqp (h.parent hq hpc)
  have h₂ : Inv ((s.goto p .user).goto np .user) :=
    h₁.goto hemb₁ ⟨rfl, rfl, fun _ => id⟩ hpar trivial rfl rfl trivial
  have hsame : (s.goto np .user).procs p = s.procs p := goto_of_ne s _ hnp.symm
  have hcomm : (s.goto p .user).goto np .user = (s.goto np .user).goto p .user := by
    rw [State.goto, State.goto.eq_def (s.goto np .user), hchild, hsame]
    simp only [State.goto, State.setProc]
    rw [update_comm hnp.symm]
  exact hcomm ▸ h₂

end Xv6.PipeLife
