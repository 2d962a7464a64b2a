/-
  Who sleeps on a pipe.

  Readers sleep on `&p->nread` while the pipe is empty, writers on `&p->nwrite`
  while it is full.  A writer that finds the pipe full and is killed, or has no
  readers, returns -1 at once: the bytes that it stored since its last `wakeup`
  are announced to nobody.  This is the only way in which a process can sleep
  on a pipe that is ready for it.
-/
import Xv6.Io.Calls

namespace Xv6

open Kern Transition

variable {p : PSlot} {proc : Proc} {g g' : IoData} {k : IoPc} {a : Act IoLock IoPc}

/-! ## What a full writer knows -/

/-- The pipe is full and has readers. -/
def IoData.Full (g : IoData) : Prop := g.pipe.full = true ∧ g.pipe.readopen = true

/-- Between the test of `pipewrite` and its `sleep`, the pipe is full. -/
def IoPc.Knows (k : IoPc) (g : IoData) : Prop :=
  match k with
  | writeWake _ | writeSleep _ => g.Full
  | _ => True

theorem IoStep.knows (h : IoStep p proc g k a g') (hk : k.Knows g) :
    a.pc.Knows IoPc.Knows g' := by
  cases h with
  | call x => cases x <;> simp [UserCall.act, Act.pc, KPc.Knows, IoPc.Knows]
  | writeFull hrest hopen hkill =>
    exact ⟨Pipe.full_of_fill hrest, (Pipe.fill_open _ _).2.1.trans hopen⟩
  | writeWake => exact hk
  | writeSleep => exact fun _ => trivial
  | _ => simp [Act.pc, KPc.Knows, IoPc.Knows]

/-- The calls change the pipe only with its lock held. -/
theorem IoStep.pipe_eq (h : IoStep p proc g k a g') (hk : k.lock ≠ some .pipe) :
    g'.pipe = g.pipe := by
  cases h <;> first | rfl | exact absurd rfl hk

def pipeOutline : Outline ioLocking where
  lk := IoLock.pipe
  knows := IoPc.Knows
  idle k g hk := by
    cases k <;> trivial
  step h := (ioStep_of_prog h).knows
  stable {p x g k c a g'} h hk k' hk' := by
    have hp := (ioStep_of_prog h).pipe_eq hk
    cases k' <;> first | trivial | skip
    all_goals
      show Pipe.full _ = true ∧ Pipe.readopen _ = true
      rw [hp]
      exact hk'

/-! ## The two channels -/

/-- A reader has to wait, or the writers have failed to tell it that it need not. -/
def IoData.Empty (g : IoData) : Prop :=
  g.pipe.nread = g.pipe.nwrite ∧ g.pipe.writeopen = true ∨ g.hushed = true

/-- The points before `wakeup(&p->nread)`. -/
def IoPc.OwesRead : IoPc → Prop
  | writeWake _ | writeDone | closeWake true => True
  | _ => False

/-- The points before `wakeup(&p->nwrite)`. -/
def IoPc.OwesWrite : IoPc → Prop
  | readWake | closeWake false => True
  | _ => False

theorem IoStep.sleep_nread (h : IoStep p proc g k a g') {lk : IoLock} {k' : IoPc}
    (ha : a = .sleep nreadChan lk k') : lk = .pipe ∧ g'.Empty := by
  cases h with
  | call x => cases x <;> cases ha
  | readSleep h1 h2 => cases ha; exact ⟨rfl, .inl ⟨h1, h2⟩⟩
  | _ => cases ha

theorem IoStep.sleep_nwrite (h : IoStep p proc g k a g') (hk : k.Knows g) {lk : IoLock}
    {k' : IoPc} (ha : a = .sleep nwriteChan lk k') : lk = .pipe ∧ g'.Full := by
  cases h with
  | call x => cases x <;> cases ha
  | writeSleep => cases ha; exact ⟨rfl, hk⟩
  | _ => cases ha

/-- Who makes the pipe ready for readers wakes them up, or leaves the pipe hushed. -/
theorem IoStep.wake_nread (h : IoStep p proc g k a g')
    (hk : k.OwesRead ∨ g.Empty ∧ ¬g'.Empty) :
    a.Owes (fun k l => k.lock = some l) .pipe nreadChan IoPc.OwesRead := by
  cases h with
  | readCopy hne =>
    rcases hk with hk | ⟨hg | hg, hg'⟩
    · cases hk
    · exact absurd hg hne
    · exact absurd (.inr hg) hg'
  | writeAll => trivial
  | @writeErr bs =>
    rcases hk with hk | ⟨hg, hg'⟩
    · cases hk
    · -- the pipe is hushed, or nothing was stored
      refine absurd ?_ hg'
      by_cases hn : (g.pipe.fill bs).2 = 0
      · simp only [IoData.Empty, Pipe.fill_of_zero hn, hn]
        simpa [IoData.Empty] using hg
      · exact .inr (by simp [hn])
  | writeFull => trivial
  | writeWake | writeDone => exact ⟨.inl rfl, rfl⟩
  | @close w =>
    cases w with
    | true => trivial
    | false =>
      rcases hk with hk | ⟨hg, hg'⟩
      · cases hk
      · exact absurd hg hg'
  | @closeWake w =>
    cases w with
    | true => exact ⟨.inl rfl, rfl⟩
    | false =>
      rcases hk with hk | ⟨hg, hg'⟩
      · cases hk
      · exact absurd hg hg'
  | _ =>
    rcases hk with hk | ⟨hg, hg'⟩
    · cases hk
    · exact absurd hg hg'

/-- Who makes the pipe ready for writers wakes them up. -/
theorem IoStep.wake_nwrite (h : IoStep p proc g k a g')
    (hk : k.OwesWrite ∨ g.Full ∧ ¬g'.Full) :
    a.Owes (fun k l => k.lock = some l) .pipe nwriteChan IoPc.OwesWrite := by
  -- a full pipe takes no bytes
  have hfill : ∀ {g' : IoData} {bs}, g'.pipe = (g.pipe.fill bs).1 → g.Full → g'.Full := by
    intro g' bs he hg
    rw [Pipe.fill_of_full hg.1] at he
    rw [IoData.Full, he]
    exact hg
  cases h with
  | readCopy => trivial
  | readWake => exact ⟨.inl rfl, rfl⟩
  | writeAll | writeErr | writeFull =>
    rcases hk with hk | ⟨hg, hg'⟩
    · cases hk
    · exact absurd (hfill rfl hg) hg'
  | @close w =>
    cases w with
    | false => trivial
    | true =>
      rcases hk with hk | ⟨hg, hg'⟩
      · cases hk
      · exact absurd hg hg'
  | @closeWake w =>
    cases w with
    | false => exact ⟨.inl rfl, rfl⟩
    | true =>
      rcases hk with hk | ⟨hg, hg'⟩
      · cases hk
      · exact absurd hg hg'
  | _ =>
    rcases hk with hk | ⟨hg, hg'⟩
    · cases hk
    · exact absurd hg hg'

def nreadMonitor : Monitor ioLocking where
  toOutline := pipeOutline
  ch := nreadChan
  calm := IoData.Empty
  owes := IoPc.OwesRead
  owes_holds k hk := by rcases k with _ | _ <;> first | rfl | cases hk
  sleep h _ := (ioStep_of_prog h).sleep_nread rfl
  wake h := (ioStep_of_prog h).wake_nread

def nwriteMonitor : Monitor ioLocking where
  toOutline := pipeOutline
  ch := nwriteChan
  calm := IoData.Full
  owes := IoPc.OwesWrite
  owes_holds k hk := by rcases k with _ | _ <;> first | rfl | cases hk
  sleep h hk := (ioStep_of_prog h).sleep_nwrite hk rfl
  wake h := (ioStep_of_prog h).wake_nwrite

/-! ## Sleepers -/

variable {s : Kern ioClient}

theorem not_holds_user (l : IoLock) : ¬ioLocking.holds IoPc.user l := (by rintro ⟨⟩)

/-- While `p->lock` is free, nobody has a `wakeup` to make. -/
theorem not_owing {M : Monitor ioLocking} (hM : M.lk = IoLock.pipe)
    (hD : ioLocking.Ok s) (hl : s.lock IoLock.pipe = none) (q : PSlot) : ¬M.Owing (s.pc q) := by
  intro hq
  obtain ⟨c, -, hc⟩ := hD.held q M.lk hq.holds
  rw [hM, hl] at hc
  cases hc

/-- In all runs, readers sleep on an empty or a hushed pipe. -/
theorem Kern.empty_of_sleeping {data : Fin PIPESIZE → UInt8}
    (h : Runs ioClient IoPc.user (ioBoot data) s) (hl : s.lock IoLock.pipe = none) {p : PSlot}
    (hst : (s.tab p).state = .sleeping) (hch : (s.tab p).chan = some (.ext nreadChan)) :
    IoData.Empty s.g := by
  obtain ⟨hD, hq⟩ := nreadMonitor.no_lost_wakeup not_holds_user h
  rcases hq p hst hch with hc | ⟨q, hq⟩
  · exact hc
  · exact absurd hq (not_owing rfl hD hl q)

/-- In all runs, writers sleep on a full pipe that has readers. -/
theorem Kern.full_of_sleeping {data : Fin PIPESIZE → UInt8}
    (h : Runs ioClient IoPc.user (ioBoot data) s) (hl : s.lock IoLock.pipe = none) {p : PSlot}
    (hst : (s.tab p).state = .sleeping) (hch : (s.tab p).chan = some (.ext nwriteChan)) :
    IoData.Full s.g := by
  obtain ⟨hD, hq⟩ := nwriteMonitor.no_lost_wakeup not_holds_user h
  rcases hq p hst hch with hc | ⟨q, hq⟩
  · exact hc
  · exact absurd hq (not_owing rfl hD hl q)

/-- In the step `x`, no `pipewrite` returns -1 after it stored bytes that it has not announced by
a `wakeup`. -/
def Announces (s : Kern ioClient) (x : ℕ × Label IoCall) : Prop :=
  ∀ p bs, s.On x.1 p → s.pc p = .client (IoPc.writeLoop bs) →
    ((IoData.pipe s.g).fill bs).2 ≠ 0 → bs.drop ((IoData.pipe s.g).fill bs).2 ≠ [] →
    (IoData.pipe s.g).readopen = true ∧ (s.tab p).killed = false

theorem Announces.hushed {s' : Kern ioClient} {x : ℕ × Label IoCall} (hx : Announces s x)
    (h : s.next x = some s') (hh : IoData.hushed s.g = false) : IoData.hushed s'.g = false := by
  cases stepped_of_next h with
  | @thread p _ hon h =>
    rcases h.client with ⟨k, y, a, hpc, hprog, -⟩ | ⟨hg, -⟩
    · have hstep := ioStep_of_prog hprog
      generalize s'.g = g' at hstep ⊢
      cases hstep with
      | @writeErr bs hrest herr =>
        by_cases hn : ((IoData.pipe s.g).fill bs).2 = 0
        · simp [hh, hn]
        · obtain ⟨h1, h2⟩ := hx p bs hon hpc hn hrest
          rw [h1, h2] at herr
          rcases herr with h | h <;> cases h
      | @close w => cases w <;> exact hh
      | _ => exact hh
    · rw [hg]; exact hh
  | sched h => rw [h.frame.2.2.1]; exact hh
  | intr => exact hh

/-- **Nobody sleeps on a ready pipe**, in runs in which no `pipewrite` fails
after it stored bytes that it has not announced: when `p->lock` is free, a
process sleeps on `&p->nread` only if the pipe is empty and has writers, and on
`&p->nwrite` only if it is full and has readers. -/
theorem Kern.pipe_ready {data : Fin PIPESIZE → UInt8} {s : Kern ioClient}
    (h : Reach (· = boot ioClient IoPc.user (ioBoot data))
      (fun s x s' => s.next x = some s' ∧ Announces s x) s)
    (hl : s.lock IoLock.pipe = none) (p : PSlot) (hp : (s.tab p).state = .sleeping) :
    let pipe : Pipe := IoData.pipe s.g
    ((s.tab p).chan = some (.ext nreadChan) →
      pipe.nread = pipe.nwrite ∧ pipe.writeopen = true) ∧
    ((s.tab p).chan = some (.ext nwriteChan) →
      pipe.nwrite = pipe.nread + UInt32.ofNat PIPESIZE ∧ pipe.readopen = true) := by
  have hrun : Runs ioClient IoPc.user (ioBoot data) s ∧ IoData.hushed s.g = false := by
    refine h.inv (I := fun s => Runs ioClient IoPc.user (ioBoot data) s ∧ IoData.hushed s.g = false)
      ?_ fun s x s' hi hs => ⟨.step hi.1 hs.1, hs.2.hushed hs.1 hi.2⟩
    rintro _ rfl
    exact ⟨.init rfl, rfl⟩
  refine ⟨fun hch => ?_, fun hch => ?_⟩
  · rcases empty_of_sleeping hrun.1 hl hp hch with he | hh
    · exact he
    · rw [hrun.2] at hh; cases hh
  · obtain ⟨hf, ho⟩ := full_of_sleeping hrun.1 hl hp hch
    exact ⟨of_decide_eq_true hf, ho⟩

/-- init forks a reader and a writer; the reader sleeps on CPU 1, which then runs the writer. -/
def readerRun : List (ℕ × Label IoCall) :=
  List.replicate 4 (0, .go) ++ [(0, .client (.call .fork))] ++ List.replicate 5 (0, .go) ++
  [(0, .client (.call .fork))] ++ List.replicate 5 (0, .go) ++ List.replicate 5 (1, .go) ++
  List.replicate 3 (1, .client (.piperead 1)) ++ List.replicate 7 (1, .go)

/-- The writer fills the pipe, wakes the reader and sleeps. -/
def writerRun : List (ℕ × Label IoCall) :=
  readerRun ++ List.replicate 4 (1, .client (.pipewrite (List.replicate 513 0))) ++
  [(1, .go), (1, .go), (1, .client (.pipewrite [])), (1, .go), (1, .go), (1, .go)]

/-- The thread on the CPU announces what it stores. -/
def announces (s : Kern ioClient) (x : ℕ × Label IoCall) : Bool :=
  (s.cpu x.1).proc.all fun p =>
    match s.pc p with
    | .client (IoPc.writeLoop _) => (IoData.pipe s.g).readopen && !(s.tab p).killed
    | _ => true

theorem announces_spec {x : ℕ × Label IoCall} (h : announces s x) : Announces s x := by
  intro p bs hon hpc _ _
  rw [announces, hon.proc, Option.all_some, hpc] at h
  simpa using h

def writerEnd : Reached
    (Reach (· = boot ioClient IoPc.user (ioBoot fun _ => 0))
      fun s x s' => s.next x = some s' ∧ Announces s x) fun s =>
    s.lock IoLock.pipe = none && ((s.tab 2).state = .sleeping && (s.tab 2).chan = some (.ext nwriteChan)) :=
  Runs.ofNextIf announces (fun _ _ => announces_spec) writerRun (by decide +kernel)

theorem Kern.pipe_ready_writer : ∃ s : Kern ioClient,
    s.lock IoLock.pipe = none ∧ (s.tab 2).state = .sleeping ∧
    (s.tab 2).chan = some (.ext nwriteChan) ∧
    (IoData.pipe s.g).nwrite = (IoData.pipe s.g).nread + UInt32.ofNat PIPESIZE := by
  obtain ⟨s, hs, hP⟩ := writerEnd
  simp only [Bool.and_eq_true_iff, decide_eq_true_eq] at hP
  obtain ⟨hl, hst, hch⟩ := hP
  exact ⟨s, hl, hst, hch, ((pipe_ready hs hl 2 hst).2 hch).1⟩

/-- The writer fills the pipe; init kills it before it finds the pipe full. -/
def hushRun : List (ℕ × Label IoCall) :=
  readerRun ++ List.replicate 2 (1, .client (.pipewrite (List.replicate 513 0))) ++
  [(0, .client (.call (.kill 3))), (0, .go), (0, .go)] ++
  List.replicate 2 (1, .client (.piperead 0))

/-- The reader sleeps on while the pipe is full. -/
def hushEnd : Reached (Runs ioClient IoPc.user (ioBoot fun _ => 0)) fun s =>
    s.lock IoLock.pipe = none && ((s.tab 1).state = .sleeping && ((s.tab 1).chan = some (.ext nreadChan) &&
      ((IoData.pipe s.g).nread = 0 && (IoData.pipe s.g).nwrite = 512))) :=
  Runs.ofNext hushRun (by decide +kernel)

theorem Kern.pipe_ready_killed : ∃ s : Kern ioClient,
    Runs ioClient IoPc.user (ioBoot fun _ => 0) s ∧ s.lock IoLock.pipe = none ∧
    (s.tab 1).state = .sleeping ∧ (s.tab 1).chan = some (.ext nreadChan) ∧
    (IoData.pipe s.g).nread = 0 ∧ (IoData.pipe s.g).nwrite = 512 := by
  obtain ⟨s, hs, hP⟩ := hushEnd
  simp only [Bool.and_eq_true_iff, decide_eq_true_eq] at hP
  exact ⟨s, hs, hP⟩

end Xv6
