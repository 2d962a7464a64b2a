/-
  Which spin-locks a process holds.

  A client says at which points of its code it holds which of its locks
  (`Locking`), and each of its actions respects that.  Since a CPU that holds a
  spin-lock does not leave its process, a lock that a process holds is held by
  the CPU it is on, and two processes never hold the same lock.
-/
import Xv6.Proc.Running

namespace Xv6

/-- The action respects the locks held before it (`h`) and after it. -/
def Act.Lawful {L K : Type} (holds : K → L → Prop) (h : L → Prop) : Act L K → Prop
  | .goto k | .wakeup _ k | .kill _ k | .fault k => ∀ l, holds k l → h l
  | .acquire lk k => ∀ l, holds k l → l = lk ∨ h l
  | .release lk k => ∀ l, holds k l → l ≠ lk ∧ h l
  | .sleep _ lk k => h lk ∧ ∀ l, holds k l → l = lk
  | .fork k kc => (∀ l, holds k l → h l) ∧ ∀ l, ¬holds kc l
  | .exit => True
  | .wait k => ∀ l, ¬holds k l

theorem UserCall.act_lawful {L K : Type} {holds : K → L → Prop} {k kc : K}
    (h : ∀ l, ¬holds k l) (hc : ∀ l, ¬holds kc l) (x : UserCall) :
    (x.act k kc : Act L K).Lawful holds (holds k) := by
  cases x <;> simp [act, Act.Lawful, h, hc]

/-- The locks that the code of a client holds at each of its points. -/
structure Locking (cl : Client) where
  holds : cl.K → cl.L → Prop
  lawful : ∀ {p x g k c a g'}, cl.prog p x g k c = some (a, g') → a.Lawful holds (holds k)

namespace KPc

variable {L K : Type} (holds : K → L → Prop)

/-- The client's locks that a thread holds. -/
def Holds : KPc L K → L → Prop
  | client k | wakeAcq _ k | wakeGo _ k | killAcq _ k | killGo _ k | forkAcq k _ | forkFind k _
  | forkSetup _ k | forkParent _ k | forkRun _ k => holds k
  | yieldAcq pc | yieldGo pc | yieldBack pc => pc.Holds
  | sleepAcq _ lk _ | sleepRel _ lk _ => (· = lk)
  | _ => fun _ => False

/-- The thread will hold the locks that it needs when it is back in the client. -/
def Lawful : KPc L K → Prop
  | sleepAcq _ lk k | sleepRel _ lk k | sleepGo _ lk k | sleepBack _ lk k | sleepReacq lk k =>
    ∀ l, holds k l → l = lk
  | forkAcq _ kc | forkFind _ kc => ∀ l, ¬holds kc l
  | waitAcq k | waitScan k | waitBack k | forkret k => ∀ l, ¬holds k l
  | yieldAcq pc | yieldGo pc | yieldBack pc => pc.Lawful
  | _ => True

variable {holds}

theorem acquired_lawful {pc pc' : KPc L K} (h : pc.acquired = some pc') :
    pc'.Holds holds = pc.Holds holds ∧ pc'.Lawful holds = pc.Lawful holds := by
  cases pc <;> simp only [acquired, Option.some.injEq, reduceCtorEq] at h <;>
    subst h <;> exact ⟨rfl, rfl⟩

end KPc

theorem Act.Lawful.entry {L K : Type} {holds : K → L → Prop} {h : L → Prop} {a : Act L K}
    (ha : a.Lawful holds h) {pc : KPc L K} (he : a.entry = some pc) :
    pc.Lawful holds ∧ ∀ l, pc.Holds holds l → h l := by
  cases a <;> simp only [Act.entry, Option.some.injEq, reduceCtorEq] at he <;> subst he
  case sleep => exact ⟨ha.2, fun l hl => hl ▸ ha.1⟩
  case wakeup | kill => exact ⟨trivial, ha⟩
  case fork => exact ⟨ha.2, ha.1⟩
  case exit => exact ⟨trivial, by rintro _ ⟨⟩⟩
  case wait => exact ⟨ha, by rintro _ ⟨⟩⟩

namespace Kern

variable {cl : Client} {s s' : Kern cl} {c c' : ℕ} {p q : PSlot}

/-- `sched` makes sure that the CPU holds `ptable.lock` only. -/
theorem lock_ne_of_sched (hl : s.ptlock = some c) (hn : s.ncli c = 1) (l : cl.L) :
    s.lock l ≠ some c := by
  intro h
  have : l ∈ Finset.univ.filter fun lk => s.lock lk = some c := by simp [h]
  have := Finset.card_pos.2 ⟨l, this⟩
  simp only [ncli, hl, if_true] at hn
  omega

/-- `scheduler` touches neither threads nor the client. -/
theorem Schedules.frame (h : Schedules s c s') : s'.pc = s.pc ∧ s'.lock = s.lock ∧ s'.g = s.g ∧
    s'.hist = s.hist ∧ (s.cpu c).ctl ≠ .run := by
  cases h with
  | inspect hc =>
    unfold Kern.inspect
    split <;> exact ⟨rfl, rfl, rfl, rfl, by simp [hc]⟩
  | lockPt hc | unlockPt hc | disp hc | back hc | check hc | halt hc =>
    exact ⟨rfl, rfl, rfl, rfl, by simp [hc]⟩

end Kern

namespace Locking

open Kern

variable {cl : Client} (D : Locking cl) {s s' : Kern cl} {c c' : ℕ} {p q : PSlot}

/-- The locks that threads hold are held by their CPUs. -/
structure Ok (s : Kern cl) : Prop where
  lawful : ∀ p, (s.pc p).Lawful D.holds
  held : ∀ p l, (s.pc p).Holds D.holds l → ∃ c, s.On c p ∧ s.lock l = some c

variable {D}

theorem Ok.boot {k : cl.K} (hk : ∀ l, ¬D.holds k l) (g : cl.G) : D.Ok (boot cl k g) where
  lawful p := by
    simp only [Kern.boot]
    split
    · exact hk
    · trivial
  held p l := by simp only [Kern.boot]; split <;> rintro ⟨⟩

theorem Ok.lock_eq (hi : D.Ok s) (hs : Sane s) (hon : s.On c p) {l : cl.L}
    (h : (s.pc p).Holds D.holds l) : s.lock l = some c := by
  obtain ⟨c', hc', hl⟩ := hi.held p l h
  rwa [hs.uniq _ _ _ hon.proc hc'.proc]

/-- **Mutual exclusion** of a spin-lock. -/
theorem Ok.exclusive (hi : D.Ok s) {l : cl.L} (hp : (s.pc p).Holds D.holds l)
    (hq : (s.pc q).Holds D.holds l) : p = q := by
  obtain ⟨c, hc, hl⟩ := hi.held p l hp
  obtain ⟨c', hc', hl'⟩ := hi.held q l hq
  rw [hl] at hl'
  cases hl'
  exact hc.unique hc'

/-- A thread that stays on its CPU. -/
theorem Ok.move (hi : D.Ok s) (hon : s.On c p) {pc : KPc cl.L cl.K}
    (hcpu : s'.cpu = s.cpu) (hpc : s'.pc = Function.update s.pc p pc)
    (hl : ∀ l c', c' ≠ c → s.lock l = some c' → s'.lock l = some c')
    (hlaw : pc.Lawful D.holds) (hh : ∀ l, pc.Holds D.holds l → s'.lock l = some c) : D.Ok s' := by
  constructor
  · intro q
    by_cases hq : q = p
    · simpa [hpc, hq] using hlaw
    · simpa [hpc, hq] using hi.lawful q
  · intro q l h
    by_cases hq : q = p
    · subst hq
      exact ⟨c, by rw [On, hcpu]; exact hon, hh l (by simpa [hpc] using h)⟩
    · obtain ⟨c', hc', hlk⟩ := hi.held q l (by simpa [hpc, hq] using h)
      have hne : c' ≠ c := by rintro rfl; exact hq (hc'.unique hon)
      exact ⟨c', by rw [On, hcpu]; exact hc', hl l c' hne hlk⟩

/-- A thread that leaves its CPU holds no lock. -/
theorem Ok.switch (hi : D.Ok s) (hs : Sane s) (hon : s.On c p) (hptl : s.ptlock = some c)
    (hn : s.ncli c = 1) {pc : KPc cl.L cl.K} {x : Cpu} (hcpu : s'.cpu = Function.update s.cpu c x)
    (hpc : s'.pc = Function.update s.pc p pc) (hl : s'.lock = s.lock)
    (hlaw : pc.Lawful D.holds) (hh : ∀ l, pc.Holds D.holds l → (s.pc p).Holds D.holds l) :
    D.Ok s' := by
  constructor
  · intro q
    by_cases hq : q = p
    · simpa [hpc, hq] using hlaw
    · simpa [hpc, hq] using hi.lawful q
  · intro q l h
    by_cases hq : q = p
    · subst hq
      exact absurd (hi.lock_eq hs hon (hh l (by simpa [hpc] using h))) (lock_ne_of_sched hptl hn l)
    · obtain ⟨c', hc', hlk⟩ := hi.held q l (by simpa [hpc, hq] using h)
      have hne : c' ≠ c := by rintro rfl; exact hq (hc'.unique hon)
      exact ⟨c', by rw [On, hcpu, Function.update_of_ne hne]; exact hc', by rw [hl]; exact hlk⟩

/-- A new process starts with no lock. -/
theorem Ok.allocproc (hi : D.Ok s) (np : PSlot) {kc : cl.K} (hkc : ∀ l, ¬D.holds kc l) :
    D.Ok (s.allocproc np kc) := by
  constructor
  · intro q
    by_cases hq : q = np
    · simpa [hq, KPc.Lawful] using hkc
    · simpa [hq] using hi.lawful q
  · intro q l h
    by_cases hq : q = np
    · subst hq
      simp [KPc.Holds] at h
    · exact hi.held q l (by simpa [hq] using h)

theorem Ok.schedules (hi : D.Ok s) (h : Schedules s c s') : D.Ok s' := by
  obtain ⟨hpc, hl, -, -, hrun⟩ := h.frame
  constructor
  · rw [hpc]; exact hi.lawful
  · intro p l hp
    rw [hpc] at hp
    obtain ⟨c', hc', hlk⟩ := hi.held p l hp
    have hne : c' ≠ c := by rintro rfl; exact hrun hc'.ctl
    exact ⟨c', by rw [On, h.cpu_ne hne]; exact hc', by rw [hl]; exact hlk⟩

theorem Ok.moves (hi : D.Ok s) (hs : Sane s) (hon : s.On c p) (h : Moves s c p s') :
    D.Ok s' := by
  have hlaw := hi.lawful p
  have heq := fun l => hi.lock_eq (l := l) hs hon
  have hkeep : ∀ l c', c' ≠ c → s.lock l = some c' → s.lock l = some c' := fun _ _ _ => id
  cases h with
  | goto hpc hp | fault hpc hp =>
    have ha := D.lawful hp
    exact hi.move hon rfl rfl hkeep trivial fun l hl => heq l (by rw [hpc]; exact ha l hl)
  | @acquire k x lk k' g hpc hp hlk =>
    have ha := D.lawful hp
    refine hi.move hon rfl rfl (fun l c' hc hl => ?_) trivial fun l hl => ?_
    · have : l ≠ lk := by rintro rfl; rw [hlk] at hl; cases hl
      simpa [this] using hl
    · by_cases hll : l = lk
      · simp [hll]
      · simpa [hll] using heq l (by rw [hpc]; exact (ha l hl).resolve_left hll)
  | @release k x lk k' g hpc hp hlk =>
    have ha := D.lawful hp
    refine hi.move hon rfl rfl (fun l c' hc hl => ?_) trivial fun l hl => ?_
    · have : l ≠ lk := by rintro rfl; rw [hlk] at hl; cases hl; exact hc rfl
      simpa [this] using hl
    · obtain ⟨hll, hkl⟩ := ha l hl
      simpa [hll] using heq l (by rw [hpc]; exact hkl)
  | enter hpc hp ha =>
    obtain ⟨h1, h2⟩ := (D.lawful hp).entry ha
    exact hi.move hon rfl rfl hkeep h1 fun l hl => heq l (by rw [hpc]; exact h2 l hl)
  | timer hn hy => exact hi.move hon rfl rfl hkeep hlaw heq
  | lockPt ha hl =>
    obtain ⟨h1, h2⟩ := @KPc.acquired_lawful _ _ D.holds _ _ ha
    exact hi.move hon rfl rfl hkeep (by rw [h2]; exact hlaw)
      fun l hl => heq l (by rw [← h1]; exact hl)
  | yieldGo hpc hl hn =>
    rw [hpc] at hlaw
    exact hi.switch hs hon hl hn rfl rfl rfl hlaw fun l hl => by rw [hpc]; exact hl
  | yieldBack hpc hl =>
    rw [hpc] at hlaw
    exact hi.move hon rfl rfl hkeep hlaw fun l hl => heq l (by rw [hpc]; exact hl)
  | @sleepRel ch lk k hpc hlk =>
    rw [hpc] at hlaw
    refine hi.move hon rfl rfl (fun l c' hc hl => ?_) hlaw (by rintro _ ⟨⟩)
    have : l ≠ lk := by rintro rfl; rw [hlk] at hl; cases hl; exact hc rfl
    simpa [this] using hl
  | sleepGo hpc hl hn | waitSleep hpc hl hn =>
    rw [hpc] at hlaw
    exact hi.switch hs hon hl hn rfl rfl rfl hlaw (by rintro _ ⟨⟩)
  | sleepBack hpc | waitBack hpc =>
    rw [hpc] at hlaw
    exact hi.move hon rfl rfl hkeep hlaw (by rintro _ ⟨⟩)
  | @sleepReacq lk k hpc hlk =>
    rw [hpc] at hlaw
    refine hi.move hon rfl rfl (fun l c' hc hl => ?_) trivial fun l hl => ?_
    · have : l ≠ lk := by rintro rfl; rw [hlk] at hl; cases hl
      simpa [this] using hl
    · simp [hlaw l hl]
  | wakeGo hpc | killGo hpc | forkFull hpc | forkSetup hpc | forkFail hpc | forkParent hpc
  | forkRun hpc =>
    exact hi.move hon rfl rfl hkeep trivial fun l hl => heq l (by rw [hpc]; exact hl)
  | @forkAlloc k kc np hpc hl hf =>
    rw [hpc] at hlaw
    exact (hi.allocproc np hlaw).move hon rfl rfl hkeep trivial
      fun l hl => heq l (by rw [hpc]; exact hl)
  | exitGo hpc hl hn => exact hi.switch hs hon hl hn rfl rfl rfl trivial (by rintro _ ⟨⟩)
  | waitReap hpc | waitFail hpc | forkret hpc =>
    rw [hpc] at hlaw
    exact hi.move hon rfl rfl hkeep trivial fun l hl => absurd hl (hlaw l)

theorem Ok.stepped (hi : D.Ok s) (hs : Sane s) (h : Stepped s c s') : D.Ok s' := by
  cases h with
  | thread hon h => exact hi.moves hs hon h
  | sched h => exact hi.schedules h
  | intr => exact ⟨hi.lawful, hi.held⟩

end Locking

end Xv6
