/-
  What the callers of the buffer cache and the log can rely on, in every run of
  any number of processes: the cache is transparent, and operations are atomic
  with respect to crashes.

  A run is one of `Sys` in which the header of the log always fits its area.
  That logged blocks stay in the cache needs one more rule than `bio.c` states:
  `bwrite` clears `B_DIRTY`, so that it must not be called on a logged block
  (`recycled_uncommitted`).  In the kernel only `log.c` itself calls it.
-/
import Xv6.Bio.Refine

namespace Xv6

open Function Transition

namespace Sys

/-- A step of a run: it satisfies `G` and the header of the log fits afterwards. -/
def Step (a : LogArea) (disksize : ℕ) (G : Sys → ℕ → BioAct → Prop) (s : Sys) (x : ℕ × BioAct)
    (s' : Sys) : Prop :=
  G s x.1 x.2 ∧ s.next a disksize x.1 x.2 = some s' ∧ LogSys.Fits a s'.abs

/-- The states reached from a booted system with disk `d`. -/
def Runs (a : LogArea) (disksize : ℕ) (G : Sys → ℕ → BioAct → Prop) (d : Disk) : Sys → Prop :=
  Reach (· = init d) (Step a disksize G)

section
variable {a : LogArea} {disksize : ℕ} {G : Sys → ℕ → BioAct → Prop} {d : Disk} {s s' : Sys}
  {p q : ℕ} {x : BioAct}

theorem BioInv.init (a : LogArea) (d : Disk) : BioInv a (init d) where
  coh := .init d
  pcs _ := trivial
  sound := .init d
  pinned := fun k hk => absurd hk (Nat.not_lt_zero k)

theorem BioInv.next (h : BioInv a s) (hl : Legal a s p x) (hs : s.next a disksize p x = some s')
    (hf : LogSys.Fits a s'.abs) : BioInv a s' ∧ Sim a s p x s' :=
  h.step (next_stepped hs).1 hl (next_stepped hs).2 hf

/-- **The invariant holds in every run.** -/
theorem Runs.inv (hG : ∀ {s p x}, G s p x → Legal a s p x) (h : Runs a disksize G d s) :
    BioInv a s := by
  refine Reach.inv (fun s hs => ?_) (fun s x s' hi hs => ?_) h
  · rw [hs]; exact .init a d
  · exact (hi.next (hG hs.1) hs.2.1 hs.2.2).1

/-! ## What a process keeps -/

/-- What process `p` keeps while the others take steps: its position and the blocks of the buffers
    it holds or is about to lock. -/
structure Keeps (s s' : Sys) (p : ℕ) : Prop where
  io : s'.io p = s.io p
  pc : s'.pc p = s.pc p
  buf : ∀ {i}, (s.cache.buf i).holder = some p ∨ s.io p = .lock i →
    (s'.cache.buf i).dev = (s.cache.buf i).dev ∧ (s'.cache.buf i).blockno = (s.cache.buf i).blockno
  holder : ∀ {i}, (s.cache.buf i).holder = some p → (s'.cache.buf i).holder = some p

variable {pc : BioPc}

/-- Process `q` moves after a change of the buffer `i`. -/
theorem Keeps.of_set {t : Sys} {io : Io} {i : Fin NBUF} {b : Buf} (hqp : p ≠ q)
    (hio : t.io = s.io) (hpc : t.pc = s.pc) (hc : t.cache.buf = update s.cache.buf i b)
    (hb : (s.cache.buf i).holder = some p ∨ s.io p = .lock i →
      b.dev = (s.cache.buf i).dev ∧ b.blockno = (s.cache.buf i).blockno)
    (hh : (s.cache.buf i).holder = some p → b.holder = some p) : Keeps s (t.goto q io pc) p where
  io := by simp only [goto, update_of_ne hqp, hio]
  pc := by simp only [goto, update_of_ne hqp, hpc]
  buf {j} hj := by
    simp only [goto, hc, update_apply]
    split_ifs with hji
    · subst hji; exact hb hj
    · exact ⟨rfl, rfl⟩
  holder {j} hj := by
    simp only [goto, hc, update_apply]
    split_ifs with hji
    · subst hji; exact hh hj
    · exact hj

/-- Process `q` moves and leaves the buffers alone. -/
theorem Keeps.of_goto {t : Sys} {io : Io} (hqp : p ≠ q) (hio : t.io = s.io) (hpc : t.pc = s.pc)
    (hc : t.cache = s.cache) : Keeps s (t.goto q io pc) p where
  io := by simp only [goto, update_of_ne hqp, hio]
  pc := by simp only [goto, update_of_ne hqp, hpc]
  buf _ := by simp only [goto, hc, and_self]
  holder hj := by simpa only [goto, hc] using hj

/-- A process that calls `brelse` holds the buffer. -/
theorem Releases.holder (h : BioInv a s) {i : Fin NBUF} (hr : Releases s p x i pc) :
    (s.cache.buf i).holder = some p := by
  have hok := h.pcs p
  cases hr with
  | client i hcl hh => exact hh
  | src hp => rw [hp] at hok; exact hok.2.2.choose_spec.holder
  | dst hp | head hp => rw [hp] at hok; exact hok.choose_spec.holder

theorem BioInv.keeps (h : BioInv a s) (hqp : p ≠ q) (hs : Stepped a s q x s') : Keeps s s' p := by
  cases hs with
  | bget hio hk hc =>
    cases hc with
    | hit => exact .of_set hqp rfl rfl rfl (fun _ => ⟨rfl, rfl⟩) id
    | recycled hn hr hd =>
      refine .of_set hqp rfl rfl rfl (fun hj => ?_) id
      -- the buffer has references
      have := h.coh.refs.pos (p := p) (hj.imp_right fun hq => by rw [Waits, hq]; rfl)
      omega
  | fail e he => exact ⟨rfl, rfl, fun _ => ⟨rfl, rfl⟩, id⟩
  | lock hio hh =>
    exact .of_set hqp rfl rfl rfl (fun _ => ⟨rfl, rfl⟩) fun hj => by rw [hh] at hj; cases hj
  | hit => exact .of_goto hqp rfl rfl rfl
  | fetch hio hv hb =>
    obtain ⟨-, rfl, -⟩ := iderw_read (h.coh.clean_of_invalid hv) hb
    exact .of_set hqp rfl rfl rfl (fun _ => ⟨rfl, rfl⟩) id
  | unref | logAdd => exact .of_set hqp rfl rfl rfl (fun _ => ⟨rfl, rfl⟩) id
  | brelse hio hr =>
    refine .of_set hqp rfl rfl rfl (fun _ => ⟨rfl, rfl⟩) fun hj => ?_
    exact absurd (Option.some.inj (hj.symm.trans (hr.holder h))) hqp
  | storeOut | storeOp =>
    exact ⟨rfl, rfl, fun _ => ⟨Bcache.set_congr Buf.dev (by rfl) _, Bcache.set_congr Buf.blockno (by rfl) _⟩,
      fun hj => (Bcache.set_congr Buf.holder (by rfl) _).trans hj⟩
  | bwrite hio hc hh hb =>
    obtain ⟨-, rfl, -⟩ := Buf.bwrite_ok hb
    exact ⟨rfl, rfl, fun _ => ⟨Bcache.set_congr Buf.dev (by rfl) _, Bcache.set_congr Buf.blockno (by rfl) _⟩,
      fun hj => (Bcache.set_congr Buf.holder (by rfl) _).trans hj⟩
  | copyLog hio hp hb | copyHome hio hp hb | writeHead hio hp hb =>
    obtain ⟨-, rfl, -⟩ := Buf.bwrite_ok hb
    exact .of_set hqp rfl rfl rfl (fun _ => ⟨rfl, rfl⟩) id
  | logPanic | endPanic => exact ⟨rfl, rfl, fun _ => ⟨rfl, rfl⟩, id⟩
  | beginOp | logWrite | endCommit | endOp | commitEmpty | commitStart | writeLogEnd | installEnd
    | finish => exact .of_goto hqp rfl rfl rfl

/-- Client `p` has called `bread(dev, b)` and `bget` has given it buffer `i`. -/
structure Reading (s : Sys) (p : ℕ) (dev : UInt32) (b : BlockNo) (i : Fin NBUF) : Prop where
  client : (s.pc p).Client
  io : s.io p = .lock i ∨ (s.io p = .read i ∨ s.io p = .idle) ∧ (s.cache.buf i).holder = some p
  dev : (s.cache.buf i).dev = dev
  blockno : (s.cache.buf i).blockno = b

namespace Reading
variable {dev : UInt32} {b : BlockNo} {i : Fin NBUF}

theorem holder (h : Reading s p dev b i) (hio : ∀ j, s.io p ≠ .lock j) :
    (s.cache.buf i).holder = some p :=
  (h.io.resolve_left (hio i)).2

/-- A step of another process. -/
theorem keeps (h : Reading s p dev b i) (hk : Keeps s s' p) : Reading s' p dev b i := by
  have hbuf := hk.buf (i := i) (h.io.symm.imp_left And.right)
  refine ⟨hk.pc ▸ h.client, ?_, hbuf.1.trans h.dev, hbuf.2.trans h.blockno⟩
  rw [hk.io]
  exact h.io.imp_right fun hi => ⟨hi.1, hk.holder hi.2⟩

/-- A step of `p` in `bread`. -/
theorem run (h : Reading s p dev b i) (hi : BioInv a s) (hs : Stepped a s p .run s') :
    Reading s' p dev b i := by
  have hcl := h.client
  have hbusy : ∀ {c}, s.pc p ≠ .commit c := fun hp => by rw [hp] at hcl; exact hcl
  cases hs with
  | bget _ hk =>
    cases hk with
    | log hp | home hp | head hp => exact absurd hp hbusy
  | fail e he => exact ⟨hcl, h.io, h.dev, h.blockno⟩
  | @lock j hio hh =>
    have hji : j = i := by
      rcases h.io with h1 | ⟨h1 | h1, -⟩ <;> rw [hio] at h1 <;> cases h1
      rfl
    subst hji
    refine ⟨by simpa [goto] using hcl, .inr ⟨.inl ?_, ?_⟩, ?_, ?_⟩ <;>
      simp [goto, h.dev, h.blockno]
  | hit hio hv =>
    have hh := h.holder fun j hj => by rw [hio] at hj; cases hj
    exact ⟨by simpa [goto] using hcl, .inr ⟨.inr (by simp [goto]), hh⟩, h.dev, h.blockno⟩
  | fetch hio hv hb =>
    have hh := h.holder fun j hj => by rw [hio] at hj; cases hj
    obtain ⟨-, rfl, -⟩ := iderw_read (hi.coh.clean_of_invalid hv) hb
    refine ⟨by simpa [goto] using hcl, .inr ⟨.inr (by simp [goto]), ?_⟩, ?_, ?_⟩
    · exact (Bcache.set_congr Buf.holder (by rfl) i).trans hh
    · exact (Bcache.set_congr Buf.dev (by rfl) i).trans h.dev
    · exact (Bcache.set_congr Buf.blockno (by rfl) i).trans h.blockno
  | @unref j hio => rcases h.io with h1 | ⟨h1 | h1, -⟩ <;> rw [hio] at h1 <;> cases h1
  | brelse _ hr =>
    cases hr with
    | src hp | dst hp | head hp => exact absurd hp hbusy
  | copyLog _ hp | copyHome _ hp | writeHead _ hp | commitEmpty _ hp | commitStart _ hp
    | writeLogEnd _ hp | installEnd _ hp | finish _ hp => exact absurd hp hbusy
  | logAdd _ hp => rw [hp] at hcl; exact hcl.elim

/-- The call itself. -/
theorem init (hs : s.next a disksize p (.bread dev b) = some s') (hi : s'.io p = .lock i) :
    Reading s' p dev b i ∧ s'.log = s.log := by
  have hio : s.io p = .idle ∧ s.panic = none := by
    unfold next at hs
    split_ifs at hs with hpan
    refine ⟨?_, by simpa using hpan⟩
    rcases hio : s.io p with _ | j | j | j <;> first | rfl | (rw [hio] at hs; cases hs)
  cases (next_stepped hs).2 with
  | bget _ hk hc =>
    cases hk with
    | client dev b hcl =>
      simp only [goto, update_self, Io.lock.injEq] at hi
      subst hi
      refine ⟨⟨by simpa [goto] using hcl, .inl (by simp [goto]), ?_, ?_⟩, rfl⟩ <;>
        cases hc <;> simp [goto, *]
  | fail e he =>
    change s.io p = _ at hi
    rw [hio.1] at hi
    cases hi
  | brelse _ hr => cases hr

/-- **`bread` returns the buffer of the block it was called for**, with its contents in the plain
    map. -/
theorem returns (h : Reading s p dev b i) (hi : BioInv a s) (hs : Reach (· = s)
      (Step a disksize fun t q x => Legal a t q x ∧ (q = p → x = .run)) s') :
    BioInv a s' ∧ Reading s' p dev b i := by
  refine Reach.inv (I := fun t => BioInv a t ∧ Reading t p dev b i) (fun t ht => ?_)
    (fun t x t' ht hs => ?_) hs
  · rw [ht]; exact ⟨hi, h⟩
  · obtain ⟨⟨hl, hrun⟩, hn, hf⟩ := hs
    refine ⟨(ht.1.next hl hn hf).1, ?_⟩
    have hst := (next_stepped hn).2
    by_cases hp : x.1 = p
    · rw [hrun hp, hp] at hst
      exact ht.2.run ht.1 hst
    · exact ht.2.keeps (ht.1.keeps (Ne.symm hp) hst)

end Reading

/-! ## The cache is transparent -/

/-- The rules of `bio.c` for devices other than 0: what has been changed is passed to `log_write`
    or `bwrite` before `brelse`. -/
def Disciplined (s : Sys) (p : ℕ) : BioAct → Prop
  | .bread dev _ => dev ≠ 0
  | .brelse i => s.pend (s.cache.buf i).blockno ≠ some p
  | _ => True

instance (s : Sys) (p : ℕ) : DecidablePred (Disciplined s p)
  | .bread dev _ => inferInstanceAs (Decidable (dev ≠ 0))
  | .brelse i => inferInstanceAs (Decidable (s.pend (s.cache.buf i).blockno ≠ some p))
  | .store .. | .bwrite _ | .beginOp | .logWrite _ | .endOp | .run => .isTrue trivial

instance (a : LogArea) (s : LogSys) : Decidable (LogSys.Fits a s) :=
  decidable_of_iff (s.log.lh.length ≤ LOGSIZE ∧ s.log.lh.length ≤ a.size - 1)
    ⟨fun h => ⟨h.1, h.2⟩, fun h => ⟨h.array, h.room⟩⟩

/-- A run on an empty disk, executed. -/
def Runs.ofRun [∀ s p, DecidablePred (G s p)] {P : Sys → Bool} (xs : List (ℕ × BioAct))
    (h : (run (fun s x => if G s x.1 x.2 then
      (s.next mkfsLog 1000 x.1 x.2).filter fun s' => LogSys.Fits mkfsLog s'.abs else none)
      (init fun _ _ => 0) xs).any P = true) :
    Reached (Runs mkfsLog 1000 G fun _ _ => 0) P :=
  Reached.ofRun _ (fun s x s' hs => by
    split_ifs at hs with hd
    obtain ⟨h1, h2⟩ := Option.filter_eq_some_iff.1 hs
    exact ⟨hd, h1, by simpa using h2⟩) rfl xs h

/-- Process `p` reads block `b` of the root disk. -/
def breadRoot (p : ℕ) (b : BlockNo) : List (ℕ × BioAct) :=
  [(p, .bread ROOTDEV b), (p, .run), (p, .run)]

/-- Block 100 is logged and written; then all buffers are used. -/
def recycledEnd : Reached (Runs mkfsLog 1000 Disciplined fun _ _ => 0) fun s =>
    100 ∈ s.log.lh ∧ s.done = 0 ∧ s.log.committing = false ∧
      ∀ i, ¬ ((s.cache.buf i).dev = ROOTDEV ∧ (s.cache.buf i).blockno = 100) :=
  Runs.ofRun ([(0, .beginOp)] ++ breadRoot 0 100 ++
    [(0, .logWrite 0), (0, .run), (0, .bwrite 0), (0, .brelse 0), (0, .run)] ++
    (List.range 29).flatMap (fun k => breadRoot 1 (101 + .ofNat k)) ++ [(1, .bread ROOTDEV 130)])
    (by decide +kernel)

/-- **A logged block can leave the cache before its commit** when a process calls `bwrite` on
    it: `iderw` clears `B_DIRTY`, and `bget` recycles the buffer once all others are in use. -/
theorem recycled_uncommitted : ∃ s, Runs mkfsLog 1000 Disciplined (fun _ _ => 0) s ∧
    100 ∈ s.log.lh ∧ s.done = 0 ∧ s.log.committing = false ∧
      ∀ i, ¬ ((s.cache.buf i).dev = ROOTDEV ∧ (s.cache.buf i).blockno = 100) := by
  obtain ⟨s, hs, hp⟩ := recycledEnd
  exact ⟨s, hs, by simpa using hp⟩

/-- **The cache is transparent.**  No block is cached twice.  A logged block that is not installed
    is in a buffer that `bget` never recycles.  When `bread(dev, b)` returns, the caller holds the
    buffer of that block, and its contents are those of the plain map.  And every step of the
    system is a step of the log on the plain map, or none. -/
theorem cache_transparent (h : Runs a disksize (Legal a) d s) :
    (∀ i j, (s.cache.buf i).dev ≠ 0 → (s.cache.buf i).dev = (s.cache.buf j).dev →
      (s.cache.buf i).blockno = (s.cache.buf j).blockno → i = j) ∧
    (∀ k (hk : k < s.log.lh.length), Uninstalled s k → ∃ i, (s.cache.buf i).dev = ROOTDEV ∧
      (s.cache.buf i).blockno = s.log.lh[k] ∧ ∀ dev b c j, s.cache.bget dev b = some (c, j) →
        (c.buf i).content = (s.cache.buf i).content) ∧
    (∀ p dev b i s₁ s₂, s.next a disksize p (.bread dev b) = some s₁ → s₁.io p = .lock i →
      Reach (· = s₁)
        (Step a disksize fun t q x => Legal a t q x ∧ (q = p → x = .run)) s₂ →
      s₂.io p = .idle → (s₂.cache.buf i).holder = some p ∧ (s₂.cache.buf i).dev = dev ∧
        (s₂.cache.buf i).blockno = b ∧ (s₂.cache.buf i).data = s₂.mach.mem b) ∧
    ∀ p x s', Legal a s p x → s.next a disksize p x = some s' → LogSys.Fits a s'.abs →
      Sim a s p x s' := by
  have hi : BioInv a s := h.inv id
  refine ⟨fun i j => hi.coh.uniq, fun k hk hun => ?_, fun p dev b i s₁ s₂ hs hio hr hidle => ?_,
    fun p x s' hl hs hf => (hi.next hl hs hf).2⟩
  · obtain ⟨i, h1, h2, h3⟩ := hi.pinned k hk hun
    refine ⟨i, h1, h2, fun dev b c j hc => ?_⟩
    cases Bcache.bget_some hc with
    | hit => exact Bcache.set_congr Buf.content (by rfl) i
    | recycled _ _ hd =>
      have hij : i ≠ j := by rintro rfl; rw [hd] at h3; cases h3
      rw [Bcache.set_buf, update_of_ne hij]
  · obtain ⟨hrd, hlog⟩ := Reading.init hs hio
    have hf : LogSys.Fits a s₁.abs :=
      ⟨(congrArg (·.lh.length) hlog).trans_le hi.sound.fits.array,
        (congrArg (·.lh.length) hlog).trans_le hi.sound.fits.room⟩
    obtain ⟨hi₂, hrd₂⟩ := hrd.returns (hi.next (p := p) (x := .bread dev b) trivial hs hf).1 hr
    have hh := hrd₂.holder fun j hj => by rw [hidle] at hj; cases hj
    refine ⟨hh, hrd₂.dev, hrd₂.blockno, ?_⟩
    rw [← hrd₂.blockno]
    exact (hi₂.coh.shows (hi₂.coh.valid_of_held hh hidle)).symm

instance (a : LogArea) (s : Sys) (p : ℕ) : DecidablePred (Legal a s p)
  | .store i _ | .logWrite i => inferInstanceAs (Decidable (¬ a.Mem (s.cache.buf i).blockno))
  | .bwrite i => inferInstanceAs (Decidable ((s.cache.buf i).blockno ∉ s.log.lh))
  | .brelse i => inferInstanceAs (Decidable (s.pend (s.cache.buf i).blockno ≠ some p))
  | .bread .. | .beginOp | .endOp | .run => .isTrue trivial

/-- Block 100 is changed, logged and released. -/
def loggedEnd : Reached (Runs mkfsLog 1000 (Legal mkfsLog) fun _ _ => 0) fun s =>
    s.log.lh = [100] ∧ s.log.committing = false :=
  Runs.ofRun ([(0, .beginOp)] ++ breadRoot 0 100 ++ [(0, .store 0 fun _ _ => 1), (0, .logWrite 0),
    (0, .run), (0, .brelse 0), (0, .run)]) (by decide +kernel)

/-- It is still in its buffer. -/
theorem cache_transparent_logged : ∃ s, Runs mkfsLog 1000 (Legal mkfsLog) (fun _ _ => 0) s ∧
    s.log.lh = [100] ∧ ∃ i, (s.cache.buf i).dev = ROOTDEV ∧ (s.cache.buf i).blockno = 100 ∧
      ∀ dev b c j, s.cache.bget dev b = some (c, j) →
        (c.buf i).content = (s.cache.buf i).content := by
  obtain ⟨s, hs, hp⟩ := loggedEnd
  obtain ⟨hlh, hc⟩ : s.log.lh = [100] ∧ s.log.committing = false := by simpa using hp
  obtain ⟨i, h1, h2, h3⟩ := (cache_transparent hs).2.1 0 (by rw [hlh]; decide) fun p tail hq =>
    absurd hq ((hs.inv id).sound.ctl.no_commit hc p _)
  exact ⟨s, hs, hlh, i, h1, h2.trans (by simp [hlh]), h3⟩

/-- The states reached by any steps at all, on any disk. -/
def AnyRuns (a : LogArea) (disksize : ℕ) : Sys → Prop :=
  Reach (fun s => ∃ d, s = init d) fun s (x : ℕ × BioAct) s' =>
    s.next a disksize x.1 x.2 = some s'

/-- **A buffer in use keeps its block.**  `refcnt` counts the processes that wait for the buffer and
    the one that holds it.  While there is one, no `bget` recycles the buffer. -/
theorem bufs_counted (h : AnyRuns a disksize s) (i : Fin NBUF) :
    Count.Counts (Waits s.io i) ((s.cache.buf i).refcnt - holds (s.cache.buf i)) ∧
    ∀ p, (s.cache.buf i).holder = some p ∨ Waits s.io i p → ∀ dev b c j,
      s.cache.bget dev b = some (c, j) → (c.buf i).content = (s.cache.buf i).content := by
  have hi : Counted s.cache s.io := by
    refine Reach.inv (I := fun s => Counted s.cache s.io) (fun s hs => ?_)
      (fun s x s' hi hs => hi.step (next_stepped hs).2) h
    obtain ⟨d, rfl⟩ := hs
    exact (Coherent.init d).refs
  refine ⟨hi i, fun p hp dev b c j hc => ?_⟩
  have hpos := hi.pos hp
  cases Bcache.bget_some hc with
  | hit => exact Bcache.set_congr Buf.content (by rfl) i
  | recycled _ hr =>
    have hij : i ≠ j := by rintro rfl; omega
    rw [Bcache.set_buf, update_of_ne hij]

/-- Process 0 holds the buffer of block 100, process 1 waits for it. -/
def waitingEnd : Reached (AnyRuns mkfsLog 1000) fun s =>
    (s.cache.buf 0).holder = some 0 ∧ Waits s.io 0 1 ∧ (s.cache.buf 0).refcnt = 2 :=
  .ofRun _ (fun _ _ _ h => h) ⟨fun _ _ => 0, rfl⟩ (breadRoot 0 100 ++ [(1, .bread ROOTDEV 100)])
    (by decide +kernel)

theorem bufs_counted_waiting : ∃ s, AnyRuns mkfsLog 1000 s ∧ (s.cache.buf 0).holder = some 0 ∧
    Waits s.io 0 1 ∧ Count.Counts (Waits s.io 0) 1 ∧ ∀ dev b c j,
      s.cache.bget dev b = some (c, j) → (c.buf 0).content = (s.cache.buf 0).content := by
  obtain ⟨s, hs, hp⟩ := waitingEnd
  obtain ⟨h0, h1, href⟩ := of_decide_eq_true hp
  obtain ⟨hcount, hkeep⟩ := bufs_counted hs 0
  have hone : ((s.cache.buf 0).refcnt : ℤ) - holds (s.cache.buf 0) = 1 := by simp [holds, h0, href]
  exact ⟨s, hs, h0, h1, hone ▸ hcount, hkeep 1 (.inr h1)⟩

/-! ## Operations are atomic -/

/-- The log on the plain map keeps its invariant in runs that use it only through operations. -/
theorem Runs.atomic (h0 : headN (d a.head) = 0)
    (h : Runs a disksize (fun s p x => Legal a s p x ∧ Transactional s p x) d s) :
    LogSys.Inv a d s.abs := by
  refine (Reach.inv (I := fun s => BioInv a s ∧ LogSys.Inv a d s.abs) (fun s hs => ?_)
    (fun s x s' hi hs => ?_) h).2
  · rw [hs]; exact ⟨.init a d, .init h0⟩
  · obtain ⟨⟨hl, ht⟩, hn, hf⟩ := hs
    obtain ⟨hi', hsim⟩ := hi.1.next hl hn hf
    refine ⟨hi', ?_⟩
    rcases hsim with habs | ⟨y, hs, hl', ht'⟩
    · rw [habs]; exact hi.2
    · exact hi.2.step hl' (ht' ht) hs hf

/-- **Group commit is atomic.**  A crash in any reached state leaves a disk that recovers to the
    initial disk with the updates of the operations below some number `k`, in full: all operations
    of finished groups are among them and no running one.  A commit excludes running operations
    and calls of `log_write`; outside a commit and without running operations the header is empty;
    and `end_op` does not panic. -/
theorem group_commit_atomic (h0 : headN (d a.head) = 0)
    (h : Runs a disksize (fun s p x => Legal a s p x ∧ Transactional s p x) d s) :
    (∃ m, recoverFromLog a (.boot s.mach.disk) = some m ∧ ∃ k, s.done ≤ k ∧ k ≤ s.nops ∧
      (∀ p o, s.pc p = .op o ∨ (∃ i, s.pc p = .logWrite o i) → k ≤ o.id) ∧
      HomeEq a m.disk (replay (storesBelow k s.stores) d)) ∧
    (s.log.committing = true → s.log.outstanding = 0) ∧
    (s.log.outstanding = 0 → s.log.committing = false → s.log.lh = []) ∧
    (∀ p o i, s.pc p = .logWrite o i → s.log.committing = false) ∧
    s.panic ≠ some (.log .committing) := by
  have hi := Runs.atomic h0 h
  refine ⟨?_, hi.ctl.quiet, fun h1 h2 => hi.ctl.idle h2 h1, fun p o i hp => ?_, fun hp => ?_⟩
  · obtain ⟨m, hm, k, h1, h2, h3, h4⟩ := hi.recover
    refine ⟨m, hm, k, h1, h2, fun p o hp => h3 p o ?_, h4⟩
    rcases hp with hp | ⟨i, hp⟩ <;> simp only [abs, hp, BioPc.abs, LogPc.op?]
  · refine hi.ctl.not_committing (p := p) ?_
    simp only [LogSys.InOp, abs, hp, BioPc.abs, LogPc.op?, Option.isSome_some]
  · exact hi.ctl.panic (by simp only [abs, hp, Option.bind_some, BioPanic.log?])

instance (s : Sys) (p : ℕ) : DecidablePred (Transactional s p)
  | .store .. => inferInstanceAs (Decidable (s.pc p ≠ .out))
  | .endOp => inferInstanceAs (Decidable (∀ i, (s.cache.buf i).holder = some p →
      s.pend (s.cache.buf i).blockno ≠ some p))
  | .bwrite _ => .isFalse id
  | .bread .. | .beginOp | .logWrite _ | .brelse _ | .run => .isTrue trivial

/-- Operation 0 has been committed, operation 1 has changed the same block and logged it. -/
def twoEnd : Reached (Runs mkfsLog 1000
    (fun s p x => Legal mkfsLog s p x ∧ Transactional s p x) fun _ _ => 0) fun s =>
    s.pc 1 = .op ⟨1, [100]⟩ ∧ s.done = 1 ∧ s.mach.mem 100 0 = 2 ∧
      replay (storesBelow 1 s.stores) (fun _ _ => 0) 100 0 = 1 :=
  Runs.ofRun ([(0, .beginOp)] ++ breadRoot 0 100 ++ [(0, .store 0 fun _ _ => 1), (0, .logWrite 0),
    (0, .run), (0, .brelse 0), (0, .run), (0, .endOp)] ++ List.replicate 38 (0, .run) ++
    [(1, .beginOp)] ++ breadRoot 1 100 ++ [(1, .store 0 fun _ _ => 2), (1, .logWrite 0), (1, .run)])
    (by decide +kernel)

/-- The disk recovers to the store of operation 0. -/
theorem group_commit_atomic_two : ∃ s, Runs mkfsLog 1000
      (fun s p x => Legal mkfsLog s p x ∧ Transactional s p x) (fun _ _ => 0) s ∧
    s.mach.mem 100 0 = 2 ∧
      ∃ m, recoverFromLog mkfsLog (.boot s.mach.disk) = some m ∧ m.disk 100 0 = 1 := by
  obtain ⟨s, hs, hp⟩ := twoEnd
  obtain ⟨h1, h2, h3, h4⟩ : s.pc 1 = .op ⟨1, [100]⟩ ∧ s.done = 1 ∧ s.mach.mem 100 0 = 2 ∧
      replay (storesBelow 1 s.stores) (fun _ _ => 0) 100 0 = 1 := by simpa using hp
  obtain ⟨m, hm, k, hd, -, hk, hhome⟩ := (group_commit_atomic (by decide) hs).1
  have hk1 : k = 1 := Nat.le_antisymm (hk 1 _ (.inl h1)) (h2 ▸ hd)
  subst hk1
  exact ⟨s, hs, h3, m, hm, by rw [hhome 100 (by decide), h4]⟩

end

end Sys

end Xv6
