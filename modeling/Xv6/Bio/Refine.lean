/-
  The system with the buffer cache refines the log on a plain map.

  `abs` forgets the cache and the positions inside `bread` and `brelse`.
  `BioInv` is the invariant of the whole system: the cache is coherent, the
  processes hold the buffers that their position in `log.c` needs (`PcOk`),
  logged blocks that are not yet installed are pinned in dirty buffers
  (`Pinned`), and the abstract system satisfies the invariants of
  `Xv6.Log.Group`.  Every step is a step of the abstract system or none at all
  (`BioInv.sim`).
-/
import Xv6.Bio.Coherent
import Xv6.Log.Atomic

namespace Xv6

open Function

/-! ## The abstraction -/

/-- The body of the loop has written its block. -/
def CopyPc.copied : CopyPc → Bool
  | .relSrc .. | .relDst _ => true
  | _ => false

def BioCommitPc.abs : BioCommitPc → CommitPc
  | .start => .start
  | .loop .writeLog tail c => .writeLog (if c.copied then tail + 1 else tail)
  | .head .writeLog (.rel _) => .installTrans 0
  | .head .writeLog _ => .writeHead
  | .loop .installTrans tail c => .installTrans (if c.copied then tail + 1 else tail)
  | .head .installTrans (.rel _) => .finish
  | .head .installTrans _ => .clearHead
  | .finish => .finish

def BioPc.abs (c : Bcache) : BioPc → LogPc
  | .out => .out
  | .op o => .op o
  | .logWrite o i => .logWrite o (c.buf i).blockno
  | .commit k => .commit k.abs

def BioPanic.log? : BioPanic → Option LogPanic
  | .log e => some e
  | _ => none

namespace Sys

/-- The system without its cache. -/
def abs (s : Sys) : LogSys where
  log := s.log
  mach := s.mach
  proc p := (s.pc p).abs s.cache
  panic := s.panic.bind BioPanic.log?
  nops := s.nops
  stores := s.stores
  done := s.done
  group := s.group
  pend := s.pend

/-! ## The invariant -/

/-- Process `p` holds buffer `i`, which has block `b` of the root disk. -/
structure Has (s : Sys) (p : ℕ) (i : Fin NBUF) (b : BlockNo) : Prop where
  dev : (s.cache.buf i).dev = ROOTDEV
  blockno : (s.cache.buf i).blockno = b
  holder : (s.cache.buf i).holder = some p
  pend : s.pend b = none

/-- Process `p` has called `bread(ROOTDEV, b)` and got buffer `i`. -/
def Asked (s : Sys) (p : ℕ) (i : Fin NBUF) (b : BlockNo) : Prop :=
  (s.cache.buf i).dev = ROOTDEV ∧ (s.cache.buf i).blockno = b ∧ s.io p = .lock i ∨ Has s p i b

/-- The buffers a process has at each position in `log.c`. -/
def PcOk (a : LogArea) (s : Sys) (p : ℕ) : BioPc → Prop
  | .logWrite _ i => (s.cache.buf i).holder = some p ∧ s.io p = .idle
  | .commit (.loop _ tail (.readHome l)) =>
    tail < s.log.lh.length ∧ Asked s p l (a.blk (tail + 1))
  | .commit (.loop .writeLog tail (.copy dst src)) =>
    tail < s.log.lh.length ∧ Has s p dst (a.blk (tail + 1)) ∧ Asked s p src (s.log.lh.getD tail 0)
  | .commit (.loop .installTrans tail (.copy dst src)) =>
    tail < s.log.lh.length ∧ Has s p src (a.blk (tail + 1)) ∧ Asked s p dst (s.log.lh.getD tail 0)
  | .commit (.loop _ _ (.relSrc dst src)) =>
    dst ≠ src ∧ (∃ b, Has s p dst b) ∧ ∃ b, Has s p src b
  | .commit (.loop _ _ (.relDst dst)) => ∃ b, Has s p dst b
  | .commit (.head _ (.write i)) => Asked s p i a.head
  | .commit (.head _ (.rel i)) => ∃ b, Has s p i b
  | _ => True

/-- The block at index `k` of the header is not installed yet. -/
def Uninstalled (s : Sys) (k : ℕ) : Prop :=
  ∀ p tail, s.abs.proc p = .commit (.installTrans tail) → tail ≤ k

/-- Logged blocks are in dirty buffers until they are installed. -/
def Pinned (s : Sys) : Prop :=
  ∀ k (h : k < s.log.lh.length), Uninstalled s k →
    ∃ i, (s.cache.buf i).dev = ROOTDEV ∧ (s.cache.buf i).blockno = s.log.lh[k] ∧
      (s.cache.buf i).dirty = true

structure BioInv (a : LogArea) (s : Sys) : Prop where
  coh : Coherent s.cache s.mach s.io s.pend
  pcs : ∀ p, PcOk a s p (s.pc p)
  sound : LogSys.Sound a s.abs
  pinned : Pinned s

/-- What the processes guarantee: they change and log only blocks outside the log area, do not
    call `bwrite` on a logged block, and pass what they have changed to `log_write` or `bwrite`
    before `brelse`. -/
def Legal (a : LogArea) (s : Sys) (p : ℕ) : BioAct → Prop
  | .store i _ | .logWrite i => ¬ a.Mem (s.cache.buf i).blockno
  | .bwrite i => (s.cache.buf i).blockno ∉ s.log.lh
  | .brelse i => s.pend (s.cache.buf i).blockno ≠ some p
  | _ => True

/-! ## The abstraction of a step -/

section
variable {a : LogArea} {s t : Sys} {p q : ℕ}

theorem abs_goto (s : Sys) (p : ℕ) (io : Io) (pc : BioPc) :
    (s.goto p io pc).abs = s.abs.goto p (pc.abs s.cache) := by
  refine LogSys.ext rfl rfl (funext fun q => ?_) rfl rfl rfl rfl rfl rfl
  change (update s.pc p pc q).abs s.cache =
    update (fun q => (s.pc q).abs s.cache) p (pc.abs s.cache) q
  rw [update_apply, update_apply]
  split_ifs <;> rfl

/-- The cache matters for the abstraction only through the blocks being logged. -/
theorem abs_proc (hpc : t.pc = s.pc) (hb : ∀ {q o i}, s.pc q = .logWrite o i →
      (t.cache.buf i).blockno = (s.cache.buf i).blockno) : t.abs.proc = s.abs.proc := by
  funext q
  change (t.pc q).abs t.cache = (s.pc q).abs s.cache
  rw [hpc]
  rcases hq : s.pc q with _ | o | ⟨o, i⟩ | c
  · rfl
  · rfl
  · simp only [BioPc.abs, hb hq]
  · rfl

variable {c : Bcache} {io : Io} {pc : BioPc} {i : Fin NBUF} {b : BlockNo} {x : BioAct}
  {y : LogAct} {u : Sys} {disksize : ℕ} {m : Mach}

theorem abs_cache (hb : ∀ {q o i}, s.pc q = .logWrite o i →
      (c.buf i).blockno = (s.cache.buf i).blockno) : { s with cache := c }.abs = s.abs :=
  LogSys.ext rfl rfl (abs_proc rfl hb) rfl rfl rfl rfl rfl rfl

/-- A step inside `bread` or `brelse`, or to a position that looks the same. -/
theorem abs_stutter (hb : ∀ {q o i}, s.pc q = .logWrite o i →
      (c.buf i).blockno = (s.cache.buf i).blockno)
    (hpc : pc.abs c = (s.pc p).abs s.cache) : ({ s with cache := c }.goto p io pc).abs = s.abs := by
  rw [abs_goto, abs_cache hb, hpc]
  exact LogSys.goto_self s.abs p

/-! ## What a step does to the buffers of the processes -/

theorem Asked.has (h : Asked s p i b) (hio : s.io p = .idle) :
    Has s p i b := by
  rcases h with ⟨-, -, h⟩ | h
  · rw [hio] at h; cases h
  · exact h

/-- What process `q` has at position `pc` is kept. -/
theorem PcOk.mono (h : PcOk a s q pc) (hhas : ∀ {i b}, Has s q i b → Has t q i b)
    (hasked : ∀ {i b}, Asked s q i b → Asked t q i b)
    (hlog : ∀ {o i}, pc = .logWrite o i → (s.cache.buf i).holder = some q → s.io q = .idle →
      (t.cache.buf i).holder = some q ∧ t.io q = .idle)
    (hlh : ∀ {c}, pc = .commit c → t.log.lh = s.log.lh) : PcOk a t q pc := by
  rcases pc with _ | o | ⟨o, i⟩ | c
  · trivial
  · trivial
  · exact hlog rfl h.1 h.2
  · have hl := hlh rfl
    rcases c with _ | ⟨k, tail, c⟩ | ⟨k, c⟩ | _
    · trivial
    · rcases c with _ | l | ⟨dst, src⟩ | ⟨dst, src⟩ | dst
      · trivial
      · exact ⟨hl ▸ h.1, hasked h.2⟩
      · cases k with
        | writeLog | installTrans => exact ⟨hl ▸ h.1, hhas h.2.1, hl ▸ hasked h.2.2⟩
      · exact ⟨h.1, h.2.1.imp fun _ => hhas, h.2.2.imp fun _ => hhas⟩
      · exact h.imp fun _ => hhas
    · rcases c with _ | i | i
      · trivial
      · exact hasked h
      · exact h.imp fun _ => hhas
    · trivial

/-- A process keeps its buffers through a step of another one. -/
theorem PcOk.other (h : PcOk a s q pc) (hio : t.io q = s.io q)
    (hbuf : ∀ i, (s.cache.buf i).holder = some q ∨ s.io q = .lock i →
      (t.cache.buf i).dev = (s.cache.buf i).dev ∧ (t.cache.buf i).blockno = (s.cache.buf i).blockno)
    (hholder : ∀ i, (s.cache.buf i).holder = some q → (t.cache.buf i).holder = some q)
    (hpend : ∀ {i b}, Has s q i b → t.pend b = none)
    (hlh : ∀ {c}, pc = .commit c → t.log.lh = s.log.lh) : PcOk a t q pc := by
  have hhas : ∀ {i b}, Has s q i b → Has t q i b := fun {i b} hi => by
    obtain ⟨h1, h2⟩ := hbuf i (.inl hi.holder)
    exact ⟨h1.trans hi.dev, h2.trans hi.blockno, hholder i hi.holder, hpend hi⟩
  refine h.mono hhas (fun {i b} hi => ?_) (fun _ hh hi => ⟨hholder _ hh, hio.trans hi⟩) hlh
  rcases hi with ⟨h1, h2, h3⟩ | hi
  · obtain ⟨h4, h5⟩ := hbuf i (.inr h3)
    exact .inl ⟨h4.trans h1, h5.trans h2, hio.trans h3⟩
  · exact .inr (hhas hi)

/-! ## Steps that the plain map does not see -/

theorem Pinned.of_abs (h : Pinned s) (habs : t.abs = s.abs) (hdirty : ∀ {j},
      (s.cache.buf j).dirty = true → (t.cache.buf j).dev = (s.cache.buf j).dev ∧
        (t.cache.buf j).blockno = (s.cache.buf j).blockno ∧ (t.cache.buf j).dirty = true) :
    Pinned t := by
  have hlog : t.log = s.log := congrArg LogSys.log habs
  intro k hk hin
  have hk' : k < s.log.lh.length := by rwa [hlog] at hk
  obtain ⟨i, h1, h2, h3⟩ := h k hk' fun p tail hp => hin p tail (by rw [habs]; exact hp)
  obtain ⟨h4, h5, h6⟩ := hdirty h3
  refine ⟨i, h4.trans h1, (h5.trans h2).trans ?_, h6⟩
  exact (List.getElem_of_eq (congrArg Log.lh hlog) hk).symm

/-- A step inside `bread` or `brelse`, or to a position that looks the same. -/
theorem BioInv.stutter (h : BioInv a s)
    (hcoh : Coherent c s.mach (update s.io p io) s.pend)
    (hpc : pc.abs c = (s.pc p).abs s.cache)
    (hbuf : ∀ {j q}, (s.cache.buf j).holder = some q ∨ s.io q = .lock j →
      (c.buf j).dev = (s.cache.buf j).dev ∧ (c.buf j).blockno = (s.cache.buf j).blockno)
    (hholder : ∀ {j q}, q ≠ p → (s.cache.buf j).holder = some q → (c.buf j).holder = some q)
    (hdirty : ∀ {j}, (s.cache.buf j).dirty = true → (c.buf j).dev = (s.cache.buf j).dev ∧
      (c.buf j).blockno = (s.cache.buf j).blockno ∧ (c.buf j).dirty = true)
    (hown : PcOk a ({ s with cache := c }.goto p io pc) p pc) :
    BioInv a ({ s with cache := c }.goto p io pc) ∧
      ({ s with cache := c }.goto p io pc).abs = s.abs := by
  have habs : ({ s with cache := c }.goto p io pc).abs = s.abs := by
    refine abs_stutter (fun {q o j} hq => ?_) hpc
    have hok := h.pcs q
    rw [hq] at hok
    exact (hbuf (.inl hok.1)).2
  refine ⟨⟨hcoh, fun q => ?_, habs ▸ h.sound, h.pinned.of_abs habs hdirty⟩, habs⟩
  by_cases hqp : q = p
  · subst hqp
    change PcOk a _ q (update s.pc q pc q)
    rw [update_self]
    exact hown
  · change PcOk a _ q (update s.pc p pc q)
    rw [update_of_ne hqp]
    exact (h.pcs q).other (update_of_ne hqp _ _) (fun j hj => hbuf hj)
      (fun j hj => hholder hqp hj) (fun hi => hi.pend) fun _ => rfl

theorem BioInv.bget (h : BioInv a s) {dev : UInt32} {k : Fin NBUF → BioPc} (hio : s.io p = .idle)
    (hk : Calls a s p x dev b k) (hc : s.cache.Got dev b i c) :
    BioInv a ({ s with cache := c }.goto p (.lock i) (k i)) ∧
      ({ s with cache := c }.goto p (.lock i) (k i)).abs = s.abs := by
  have hcoh : Coherent c s.mach (update s.io p (.lock i)) s.pend := by
    cases hc with
    | hit => exact h.coh.bget_hit hio
    | recycled hn hr hd => exact h.coh.bget_recycle hio hn hr hd
  have hnew : (c.buf i).dev = dev ∧ (c.buf i).blockno = b := by
    cases hc with
    | hit hd hb => simp [hd, hb]
    | recycled => simp
  have hholder : ∀ j, (c.buf j).holder = (s.cache.buf j).holder := by
    intro j
    cases hc with
    | hit | recycled => exact Bcache.set_congr Buf.holder (by rfl) j
  -- a recycled buffer was neither referred to nor dirty
  have hbuf : ∀ {j}, 0 < (s.cache.buf j).refcnt ∨ (s.cache.buf j).dirty = true →
      (c.buf j).dev = (s.cache.buf j).dev ∧ (c.buf j).blockno = (s.cache.buf j).blockno ∧
      (c.buf j).dirty = (s.cache.buf j).dirty := by
    intro j hj
    cases hc with
    | hit => exact ⟨Bcache.set_congr Buf.dev (by rfl) j, Bcache.set_congr Buf.blockno (by rfl) j,
        Bcache.set_congr Buf.dirty (by rfl) j⟩
    | recycled hn hr hd =>
      have hji : j ≠ i := by rintro rfl; rw [hr, hd] at hj; simp at hj
      simp [update_of_ne hji]
  have hbuf' : ∀ {j q}, (s.cache.buf j).holder = some q ∨ s.io q = .lock j →
      (c.buf j).dev = (s.cache.buf j).dev ∧ (c.buf j).blockno = (s.cache.buf j).blockno := by
    intro j q hj
    have hpos : 0 < (s.cache.buf j).refcnt :=
      h.coh.refs.pos (p := q) (hj.imp_right fun hq => by rw [Waits, hq]; rfl)
    exact ⟨(hbuf (.inl hpos)).1, (hbuf (.inl hpos)).2.1⟩
  have hok := h.pcs p
  refine h.stutter hcoh ?_ hbuf' (fun _ hj => (hholder _).trans hj)
    (fun hj => ⟨(hbuf (.inr hj)).1, (hbuf (.inr hj)).2.1, (hbuf (.inr hj)).2.2.trans hj⟩) ?_
  · cases hk with
    | client dev b hcl =>
      rcases hp : s.pc p with _ | o | ⟨o, i⟩ | c <;> rw [hp] at hcl
      · rfl
      · rfl
      · exact hcl.elim
      · exact hcl.elim
    | @log k tail hp ht => rw [hp]; cases k <;> rfl
    | @home k tail l hp => rw [hp]; cases k <;> rfl
    | @head k hp => rw [hp]; cases k <;> rfl
  · have hasked : dev = ROOTDEV →
        Asked ({ s with cache := c }.goto p (.lock i) (k i)) p i b := fun hd =>
      .inl ⟨hnew.1.trans hd, hnew.2, update_self ..⟩
    cases hk with
    | client dev b hcl =>
      rcases hp : s.pc p with _ | o | ⟨o, i⟩ | c <;> rw [hp] at hcl
      · trivial
      · trivial
      · exact hcl.elim
      · exact hcl.elim
    | log hp ht => exact ⟨ht, hasked rfl⟩
    | @home k tail l hp =>
      rw [hp] at hok
      have hl := hok.2.has hio
      have hl' : ∀ pc, Has ({ s with cache := c }.goto p (.lock i) pc) p l (a.blk (tail + 1)) :=
        fun pc => ⟨(hbuf' (.inl hl.holder)).1.trans hl.dev,
          (hbuf' (.inl hl.holder)).2.trans hl.blockno, (hholder l).trans hl.holder, hl.pend⟩
      cases k with
      | writeLog | installTrans => exact ⟨hok.1, hl' _, hasked rfl⟩
    | head hp => exact hasked rfl

/-- A process that goes on in `bread` or `brelse` keeps its buffers. -/
theorem PcOk.goOn (h : PcOk a s p pc) (hio : s.io p ≠ .idle)
    (hhas : ∀ {j b}, Has s p j b → Has ({ s with cache := c }.goto p io pc) p j b)
    (hasked : ∀ {j b}, (s.cache.buf j).dev = ROOTDEV → (s.cache.buf j).blockno = b →
      s.io p = .lock j → Asked ({ s with cache := c }.goto p io pc) p j b) :
    PcOk a ({ s with cache := c }.goto p io pc) p pc := by
  refine h.mono hhas (fun {j b} hj => ?_) (fun _ _ hi => absurd hi hio) fun _ => rfl
  rcases hj with ⟨h1, h2, h3⟩ | hj
  · exact hasked h1 h2 h3
  · exact .inr (hhas hj)

theorem BioInv.lock (h : BioInv a s) (hio : s.io p = .lock i) (hh : (s.cache.buf i).holder = none) :
    BioInv a ({ s with
        cache := s.cache.set i { s.cache.buf i with holder := some p } }.goto p (.read i) (s.pc p)) ∧
      ({ s with
        cache := s.cache.set i { s.cache.buf i with holder := some p } }.goto p (.read i)
          (s.pc p)).abs = s.abs := by
  have hdev := fun j => Bcache.set_congr Buf.dev (c := s.cache) (i := i) (by rfl)
    (b := { s.cache.buf i with holder := some p }) j
  have hblock := fun j => Bcache.set_congr Buf.blockno (c := s.cache) (i := i) (by rfl)
    (b := { s.cache.buf i with holder := some p }) j
  have hdirty := fun j => Bcache.set_congr Buf.dirty (c := s.cache) (i := i) (by rfl)
    (b := { s.cache.buf i with holder := some p }) j
  have hholder : ∀ {j q}, (s.cache.buf j).holder = some q →
      ((s.cache.set i { s.cache.buf i with holder := some p }).buf j).holder = some q := by
    intro j q hq
    have hj : j ≠ i := by rintro rfl; rw [hh] at hq; cases hq
    rw [Bcache.set_buf, update_of_ne hj]
    exact hq
  refine h.stutter (h.coh.lock hio hh) ?_ (fun {j q} _ => ⟨hdev j, hblock j⟩) (fun _ hj => hholder hj)
    (fun {j} hj => ⟨hdev j, hblock j, (hdirty j).trans hj⟩) ?_
  · rcases s.pc p with _ | o | ⟨o, j⟩ | c
    · rfl
    · rfl
    · simp only [BioPc.abs, hblock j]
    · rfl
  · refine (h.pcs p).goOn (by rw [hio]; rintro ⟨⟩) (fun {j b} hj => ?_) (fun {j b} h1 h2 h3 => .inr ?_)
    · exact ⟨(hdev j).trans hj.dev, (hblock j).trans hj.blockno, hholder hj.holder, hj.pend⟩
    · -- nobody held the buffer, so that its block is not being changed
      rw [hio, Io.lock.injEq] at h3
      subst h3
      refine ⟨(hdev i).trans h1, (hblock i).trans h2, by simp [goto], ?_⟩
      refine Option.eq_none_iff_forall_ne_some.2 fun q hq => ?_
      have := h.coh.pend_holder h1 (h2 ▸ hq)
      rw [hh] at this
      cases this

/-- The rest of `bread` and `brelse`: the buffers keep their blocks and holders. -/
theorem BioInv.goOn (h : BioInv a s) (hio : s.io p ≠ .idle) (hio' : ∀ i, s.io p ≠ .lock i)
    (hcoh : Coherent c s.mach (update s.io p .idle) s.pend)
    (hsame : ∀ j, (c.buf j).dev = (s.cache.buf j).dev ∧ (c.buf j).blockno = (s.cache.buf j).blockno ∧
      (c.buf j).holder = (s.cache.buf j).holder ∧ (c.buf j).dirty = (s.cache.buf j).dirty) :
    BioInv a ({ s with cache := c }.goto p .idle (s.pc p)) ∧
      ({ s with cache := c }.goto p .idle (s.pc p)).abs = s.abs := by
  refine h.stutter hcoh ?_ (fun {j q} _ => ⟨(hsame j).1, (hsame j).2.1⟩)
    (fun {j q} _ hj => (hsame j).2.2.1.trans hj)
    (fun {j} hj => ⟨(hsame j).1, (hsame j).2.1, (hsame j).2.2.2.trans hj⟩) ?_
  · rcases s.pc p with _ | o | ⟨o, j⟩ | k
    · rfl
    · rfl
    · simp only [BioPc.abs, (hsame j).2.1]
    · rfl
  · refine (h.pcs p).goOn hio (fun {j b} hj => ?_) fun _ _ h3 => absurd h3 (hio' _)
    exact ⟨(hsame j).1.trans hj.dev, (hsame j).2.1.trans hj.blockno,
      (hsame j).2.2.1.trans hj.holder, hj.pend⟩

theorem BioInv.brelse (h : BioInv a s) (hl : Legal a s p x) (hio : s.io p = .idle)
    (hr : Releases s p x i pc) :
    BioInv a ({ s with
        cache := s.cache.set i { s.cache.buf i with holder := none } }.goto p (.unref i) pc) ∧
      ({ s with
        cache := s.cache.set i { s.cache.buf i with holder := none } }.goto p (.unref i) pc).abs =
        s.abs := by
  have hdev := fun j => Bcache.set_congr Buf.dev (c := s.cache) (i := i) (by rfl)
    (b := { s.cache.buf i with holder := none }) j
  have hblock := fun j => Bcache.set_congr Buf.blockno (c := s.cache) (i := i) (by rfl)
    (b := { s.cache.buf i with holder := none }) j
  have hdirty := fun j => Bcache.set_congr Buf.dirty (c := s.cache) (i := i) (by rfl)
    (b := { s.cache.buf i with holder := none }) j
  have hok := h.pcs p
  have hhas : (s.cache.buf i).holder = some p ∧ s.pend (s.cache.buf i).blockno ≠ some p := by
    have hof : ∀ {b}, Has s p i b →
        (s.cache.buf i).holder = some p ∧ s.pend (s.cache.buf i).blockno ≠ some p := fun hi => by
      rw [hi.blockno, hi.pend]; exact ⟨hi.holder, by rintro ⟨⟩⟩
    cases hr with
    | client i hcl hh => exact ⟨hh, hl⟩
    | src hp => rw [hp] at hok; exact hof hok.2.2.choose_spec
    | dst hp | head hp => rw [hp] at hok; exact hof hok.choose_spec
  have hholder : ∀ {j q}, j ≠ i → (s.cache.buf j).holder = some q →
      ((s.cache.set i { s.cache.buf i with holder := none }).buf j).holder = some q := by
    intro j q hj hq
    rw [Bcache.set_buf, update_of_ne hj]
    exact hq
  refine h.stutter (h.coh.release hio hhas.1 hhas.2) ?_ (fun {j q} _ => ⟨hdev j, hblock j⟩)
    (fun {j q} hqp hj => ?_) (fun {j} hj => ⟨hdev j, hblock j, (hdirty j).trans hj⟩) ?_
  · cases hr with
    | client i hcl =>
      rcases hp : s.pc p with _ | o | ⟨o, j⟩ | c <;> rw [hp] at hcl
      · rfl
      · rfl
      · exact hcl.elim
      · exact hcl.elim
    | @src k tail dst src hp => rw [hp]; cases k <;> rfl
    | @dst k tail dst hp => rw [hp]; cases k <;> rfl
    | @head k i hp => rw [hp]; cases k <;> rfl
  · refine hholder ?_ hj
    rintro rfl
    exact hqp (Option.some.inj (hj.symm.trans hhas.1))
  · cases hr with
    | client i hcl =>
      rcases hp : s.pc p with _ | o | ⟨o, j⟩ | c <;> rw [hp] at hcl
      · trivial
      · trivial
      · exact hcl.elim
      · exact hcl.elim
    | @src k tail dst src hp =>
      rw [hp] at hok
      obtain ⟨hne, ⟨b, hb⟩, -⟩ := hok
      exact ⟨b, (hdev dst).trans hb.dev, (hblock dst).trans hb.blockno, hholder hne hb.holder, hb.pend⟩
    | dst => trivial
    | @head k i hp => cases k <;> trivial

/-! ## Steps of the plain map -/

theorem Pinned.step (h : Pinned s) (hlh : t.log.lh = s.log.lh)
    (hun : ∀ {k}, Uninstalled t k → Uninstalled s k)
    (hdirty : ∀ {j k} (hk : k < s.log.lh.length), Uninstalled t k →
      (s.cache.buf j).blockno = s.log.lh[k] → (s.cache.buf j).dirty = true →
      (t.cache.buf j).dev = (s.cache.buf j).dev ∧
        (t.cache.buf j).blockno = (s.cache.buf j).blockno ∧ (t.cache.buf j).dirty = true) :
    Pinned t := by
  intro k hk hin
  have hk' : k < s.log.lh.length := by rwa [hlh] at hk
  obtain ⟨i, h1, h2, h3⟩ := h k hk' (hun hin)
  obtain ⟨h4, h5, h6⟩ := hdirty hk' hin h2 h3
  exact ⟨i, h4.trans h1, (h5.trans h2).trans (List.getElem_of_eq hlh hk).symm, h6⟩

/-- A process that was not installing blocks moves. -/
theorem Uninstalled.of_goto {k : ℕ} (h : Uninstalled t k) (pc : LogPc)
    (ht : t.abs.proc = update s.abs.proc p pc)
    (hp : ∀ tail, s.abs.proc p ≠ .commit (.installTrans tail)) : Uninstalled s k := by
  intro q tail hq
  have hqp : q ≠ p := by rintro rfl; exact hp tail hq
  exact h q tail (by rw [ht, update_of_ne hqp]; exact hq)

/-- The buffers keep their blocks and holders. -/
def SameBufs (c c' : Bcache) : Prop := ∀ j, (c'.buf j).dev = (c.buf j).dev ∧
  (c'.buf j).blockno = (c.buf j).blockno ∧ (c'.buf j).holder = (c.buf j).holder

theorem SameBufs.set {c : Bcache} {b : Buf} (hd : b.dev = (c.buf i).dev)
    (hb : b.blockno = (c.buf i).blockno) (hh : b.holder = (c.buf i).holder) : SameBufs c (c.set i b) :=
  fun j => ⟨Bcache.set_congr Buf.dev hd j, Bcache.set_congr Buf.blockno hb j,
    Bcache.set_congr Buf.holder hh j⟩

/-- A step of process `p` that the plain map takes part in. -/
theorem BioInv.visible (h : BioInv a s) (pc : BioPc)
    (hs : LogSys.Stepped a s.abs p y t.abs) (hl : LogSys.Legal a s.abs p y)
    (hf : LogSys.Fits a t.abs) (hcoh : Coherent t.cache t.mach t.io t.pend)
    (hio : t.io = s.io) (hpc : t.pc = update s.pc p pc)
    (hbuf : SameBufs s.cache t.cache)
    (hpend : ∀ {q j b}, q ≠ p → Has s q j b → t.pend b = none)
    (hlh : ∀ {q c}, q ≠ p → s.pc q = .commit c → t.log.lh = s.log.lh)
    (hown : PcOk a t p pc) (hpin : Pinned t) : BioInv a t := by
  refine ⟨hcoh, fun q => ?_, h.sound.step hl hs hf, hpin⟩
  by_cases hqp : q = p
  · subst hqp
    rw [hpc, update_self]
    exact hown
  · rw [hpc, update_of_ne hqp]
    exact (h.pcs q).other (by rw [hio]) (fun j _ => ⟨(hbuf j).1, (hbuf j).2.1⟩)
      (fun j hj => (hbuf j).2.2.trans hj) (hpend hqp) fun hc => hlh hqp hc

/-- A step in the control state only. -/
theorem BioInv.control (h : BioInv a s) (hio : s.io p = .idle)
    (hs : LogSys.Stepped a s.abs p y (u.goto p .idle pc).abs) (hl : LogSys.Legal a s.abs p y)
    (hf : LogSys.Fits a (u.goto p .idle pc).abs) (hc : u.cache = s.cache) (hm : u.mach = s.mach)
    (hpd : u.pend = s.pend) (hi : u.io = s.io) (hpc : u.pc = s.pc)
    (hlh : u.log.lh = s.log.lh ∨ u.log.lh = [] ∧ ∃ c, s.pc p = .commit c)
    (hp : (∀ tail, s.abs.proc p ≠ .commit (.installTrans tail)) ∨ u.log.lh = [])
    (hown : PcOk a (u.goto p .idle pc) p pc) : BioInv a (u.goto p .idle pc) := by
  have hio' : (u.goto p .idle pc).io = s.io := by
    change update u.io p .idle = s.io
    rw [hi, ← hio, update_eq_self]
  have hpc' : (u.goto p .idle pc).pc = update s.pc p pc := by
    change update u.pc p pc = _
    rw [hpc]
  refine h.visible pc hs hl hf ?_ hio' hpc' (fun j => by simp [goto, hc]) ?_ ?_ hown ?_
  · rw [hio']
    change Coherent u.cache u.mach s.io u.pend
    rw [hc, hm, hpd]
    exact h.coh
  · intro q j b _ hj
    change u.pend b = none
    rw [hpd]
    exact hj.pend
  · intro q c hqp hq
    rcases hlh with hlh | ⟨-, c', hc'⟩
    · exact hlh
    · -- only one process is in `commit`
      have h1 : s.abs.proc q = .commit c.abs := by simp [abs, hq, BioPc.abs]
      have h2 : s.abs.proc p = .commit c'.abs := by simp [abs, hc', BioPc.abs]
      exact absurd (h.sound.ctl.unique h1 h2) hqp
  · by_cases hnil : u.log.lh = []
    · intro k hk
      change k < u.log.lh.length at hk
      rw [hnil] at hk
      exact absurd hk (Nat.not_lt_zero k)
    have hlh' : u.log.lh = s.log.lh := hlh.resolve_right fun hn => hnil hn.1
    have hp' := hp.resolve_right hnil
    refine h.pinned.step hlh' (fun {k} hk => hk.of_goto (pc.abs s.cache) ?_ hp')
      (fun _ _ _ hd => by simpa [goto, hc] using hd)
    have habs : u.abs.proc = s.abs.proc := abs_proc hpc fun _ => by rw [hc]
    rw [abs_goto, LogSys.goto_proc, habs, hc]

/-- The block of a buffer that is held is not being changed by another process. -/
theorem BioInv.pend_other (h : BioInv a s) {q : ℕ} {i j : Fin NBUF} (hqp : q ≠ p)
    (hv : (s.cache.buf i).valid = true) (hh : (s.cache.buf i).holder = some p) (hj : Has s q j b) :
    b ≠ (s.cache.buf i).blockno := by
  intro hb
  have hij : j = i := h.coh.uniq_root hj.dev (h.coh.root hv) (hj.blockno.trans hb)
  subst hij
  exact hqp (Option.some.inj (hj.holder.symm.trans hh))

/-- A client stores into a buffer it holds. -/
theorem BioInv.store (h : BioInv a s) (f : Block → Block) (ss : List Store) (hio : s.io p = .idle)
    (hh : (s.cache.buf i).holder = some p) (hcl : (s.pc p).Client)
    (hs : LogSys.Stepped a s.abs p (.store (s.cache.buf i).blockno f) (s.store p i f ss).abs)
    (hl : ¬ a.Mem (s.cache.buf i).blockno) (hf : LogSys.Fits a (s.store p i f ss).abs) :
    BioInv a (s.store p i f ss) := by
  have hv := h.coh.valid_of_held hh hio
  have hset : ({ s.cache.buf i with data := f (s.cache.buf i).data } : Buf) = { s.cache.buf i with
      data := f (s.cache.buf i).data, dirty := (s.cache.buf i).dirty, valid := true } := by
    rw [← hv]
  have hdirty : ∀ j, ((s.store p i f ss).cache.buf j).dirty = (s.cache.buf j).dirty :=
    fun j => Bcache.set_congr Buf.dirty (by rfl) j
  have hbuf : SameBufs s.cache (s.store p i f ss).cache := .set rfl rfl rfl
  refine h.visible (s.pc p) hs hl hf ?_ rfl (update_eq_self _ _).symm hbuf ?_
    (fun _ _ => rfl) ?_ ?_
  · simp only [Sys.store, hset]
    refine h.coh.put _ _ hv ?_ (fun b hb => ⟨?_, rfl, ?_⟩) (fun _ hp => ?_) (fun q hq => ?_)
    · rw [← h.coh.shows hv]; exact update_self ..
    · exact update_of_ne hb _ _
    · exact update_of_ne hb _ _
    · rw [update_self] at hp; cases hp
    · rw [update_self] at hq; exact Option.some.inj hq ▸ hh
  · intro q j b hqp hj
    change update s.pend _ _ b = none
    rw [update_of_ne (h.pend_other hqp hv hh hj)]
    exact hj.pend
  · rcases hp : s.pc p with _ | o | ⟨o, j⟩ | c <;> rw [hp] at hcl
    · trivial
    · trivial
    · exact hcl.elim
    · exact hcl.elim
  · have hproc : (s.store p i f ss).abs.proc = s.abs.proc := abs_proc rfl fun _ => (hbuf _).2.1
    refine h.pinned.step rfl (fun {k} hk q tail hq => hk q tail (by rw [hproc]; exact hq))
      fun _ _ _ hd => ⟨(hbuf _).1, (hbuf _).2.1, (hdirty _).trans hd⟩

/-- A client writes a buffer that is not logged to disk. -/
theorem BioInv.bwrite (h : BioInv a s) {b : Buf}
    (hio : s.io p = .idle) (hcl : (s.pc p).Client) (hh : (s.cache.buf i).holder = some p)
    (hb : (s.cache.buf i).bwrite disksize s.mach = .ok (b, m))
    (hl : (s.cache.buf i).blockno ∉ s.log.lh)
    (ht : t = { s with
      cache := s.cache.set i b, mach := m
      pend := update s.pend (s.cache.buf i).blockno none })
    (hf : LogSys.Fits a t.abs) :
    BioInv a t ∧ LogSys.Stepped a s.abs p (.bwrite (s.cache.buf i).blockno) t.abs := by
  have hv := h.coh.valid_of_held hh hio
  obtain ⟨-, rfl, rfl⟩ := Buf.bwrite_ok hb
  have hbuf : SameBufs s.cache t.cache := by
    rw [ht]
    exact .set rfl rfl rfl
  have hproc : t.abs.proc = s.abs.proc := abs_proc (by rw [ht]) fun _ => (hbuf _).2.1
  have habs : t.abs = s.abs.bwrite (s.cache.buf i).blockno := by
    refine LogSys.ext (by rw [ht]; rfl) ?_ hproc (by rw [ht]; rfl) (by rw [ht]; rfl)
      (by rw [ht]; rfl) (by rw [ht]; rfl) (by rw [ht]; rfl) (by rw [ht]; rfl)
    have hmem : update s.mach.mem (s.cache.buf i).blockno (s.cache.buf i).data =
        s.mach.mem := by rw [← h.coh.shows hv, update_eq_self]
    rw [ht]
    simp only [abs, LogSys.bwrite, Mach.bwrite, h.coh.shows hv, hmem]
  have hs : LogSys.Stepped a s.abs p (.bwrite (s.cache.buf i).blockno) t.abs :=
    habs ▸ .bwrite _
  refine ⟨?_, hs⟩
  subst ht
  refine h.visible (s.pc p) hs hl hf ?_ rfl (update_eq_self _ _).symm hbuf ?_
    (fun _ _ => rfl) ?_ ?_
  · refine h.coh.put _ _ hv (h.coh.shows hv) (fun b hb => ⟨rfl, ?_, ?_⟩) (fun _ _ => ?_)
      (fun q hq => ?_)
    · exact update_of_ne hb _ _
    · exact update_of_ne hb _ _
    · simp
    · simp at hq
  · intro q j b _ hj
    change update s.pend _ _ b = none
    rw [update_apply]
    split_ifs
    · rfl
    · exact hj.pend
  · rcases hp : s.pc p with _ | o | ⟨o, j⟩ | c <;> rw [hp] at hcl
    · trivial
    · trivial
    · exact hcl.elim
    · exact hcl.elim
  · refine h.pinned.step rfl (fun {k} hk q tail hq => hk q tail (by rw [hproc]; exact hq))
      fun {j k} hk _ hbj hd => ⟨(hbuf j).1, (hbuf j).2.1, ?_⟩
    have hj : j ≠ i := by rintro rfl; exact hl (hbj ▸ List.getElem_mem hk)
    simp only [Bcache.set_buf, update_of_ne hj]
    exact hd

/-- `commit` fills a buffer it has and writes it to disk; the block is not a logged one that
    waits to be installed. -/
theorem BioInv.commitWrite (h : BioInv a s) {b₀ : BlockNo} {b : Buf} {v : Block} {mem : Disk}
    (hio : s.io p = .idle) (hi : Has s p i b₀)
    (hb : { s.cache.buf i with data := v }.bwrite disksize s.mach = .ok (b, m)) (hmem : mem b₀ = v)
    (hmem' : ∀ b, b ≠ b₀ → mem b = s.mach.mem b)
    (ht : t = { s with cache := s.cache.set i b, mach := { m with mem := mem } }.goto p .idle pc)
    (hs : LogSys.Stepped a s.abs p y t.abs) (hl : LogSys.Legal a s.abs p y)
    (hf : LogSys.Fits a t.abs) (hun : ∀ {k}, Uninstalled t k → Uninstalled s k)
    (hlog : ∀ {k} (hk : k < s.log.lh.length), Uninstalled t k → s.log.lh[k] ≠ b₀)
    (hown : (∀ {j c}, Has s p j c → Has t p j c) → PcOk a t p pc) : BioInv a t := by
  have hv := h.coh.valid_of_held hi.holder hio
  have hbn := hi.blockno
  obtain ⟨-, rfl, rfl⟩ := Buf.bwrite_ok hb
  have hio' : t.io = s.io := by
    rw [ht]
    change update s.io p .idle = s.io
    rw [← hio, update_eq_self]
  have hbuf : SameBufs s.cache t.cache := by
    rw [ht]
    exact .set rfl rfl rfl
  have hhas : ∀ {q j c}, Has s q j c → Has t q j c := fun {q j c} hj =>
    ⟨(hbuf j).1.trans hj.dev, (hbuf j).2.1.trans hj.blockno, (hbuf j).2.2.trans hj.holder, by
      rw [ht]; exact hj.pend⟩
  refine h.visible pc hs hl hf ?_ hio' (by rw [ht]; rfl) hbuf (fun _ hj => (hhas hj).pend)
    (fun _ _ => by rw [ht]; rfl) (hown hhas) ?_
  · rw [hio', ht]
    refine h.coh.put v false hv (by rw [hbn]; exact hmem) (fun c hc => ⟨?_, ?_, rfl⟩)
      (fun _ _ => ?_) (fun q hq => ?_)
    · exact hmem' c (hbn ▸ hc)
    · exact update_of_ne hc _ _
    · simp [goto]
    · have hq' : s.pend (s.cache.buf i).blockno = some q := hq
      rw [hbn, hi.pend] at hq'
      cases hq'
  · refine h.pinned.step (by rw [ht]; rfl) hun fun {j k} hk hin hbj hd =>
      ⟨(hbuf j).1, (hbuf j).2.1, ?_⟩
    have hj : j ≠ i := by rintro rfl; exact hlog hk hin (hbj.symm.trans hbn)
    rw [ht]
    simp only [goto, Bcache.set_buf, update_of_ne hj]
    exact hd

/-- The step of the plain map that belongs to a step of `commit`. -/
theorem abs_commit {c : BioCommitPc} (hp : s.pc p = .commit c) : s.abs.proc p = .commit c.abs := by
  simp only [abs, hp, BioPc.abs]

/-- `write_log` copies a block into the log. -/
theorem BioInv.copyLog (h : BioInv a s) {tail : ℕ} {dst src : Fin NBUF} {b : Buf}
    (hio : s.io p = .idle)
    (hp : s.pc p = .commit (.loop .writeLog tail (.copy dst src)))
    (hb : { s.cache.buf dst with data := (s.cache.buf src).data }.bwrite disksize s.mach =
      .ok (b, m))
    (ht : t = ({ s with cache := s.cache.set dst b, mach := m }.setMem (s.cache.buf dst).blockno
      (s.mach.mem (s.cache.buf src).blockno)).goto p .idle
      (.commit (.loop .writeLog tail (.relSrc dst src)))) (hf : LogSys.Fits a t.abs) :
    BioInv a t ∧ LogSys.Stepped a s.abs p .commit t.abs ∧ LogSys.Legal a s.abs p .commit := by
  have hok := h.pcs p
  rw [hp] at hok
  obtain ⟨hlt, hdst, hsrc⟩ := hok
  have hsrc := hsrc.has hio
  rw [List.getD_eq_getElem?_getD, List.getElem?_eq_getElem hlt, Option.getD_some] at hsrc
  have hproc := abs_commit hp
  have hdata : (s.cache.buf src).data = s.mach.mem s.log.lh[tail] := by
    rw [← hsrc.blockno]; exact (h.coh.shows (h.coh.valid_of_held hsrc.holder hio)).symm
  -- the log block is none of the logged blocks
  have hblk : a.Mem (a.blk (tail + 1)) := h.sound.fits.blk_mem hlt
  have hne : ∀ {k} (hk : k < s.log.lh.length), s.log.lh[k] ≠ a.blk (tail + 1) := fun hk heq =>
    h.sound.copied.home _ (List.getElem_mem hk) (heq ▸ hblk)
  obtain ⟨-, rfl, rfl⟩ := Buf.bwrite_ok hb
  have habs : t.abs = { s.abs with mach := writeLogBody a s.log.lh[tail] tail s.mach }.goto p
      (.commit (.writeLog (tail + 1))) := by
    rw [ht, abs_goto]
    refine congrArg (fun u : LogSys => u.goto p (.commit (.writeLog (tail + 1)))) ?_
    refine LogSys.ext rfl ?_ (abs_proc rfl fun _ => Bcache.set_congr Buf.blockno (by rfl) _) rfl rfl rfl rfl
      rfl rfl
    simp only [abs, setMem, writeLogBody, Mach.bwrite, Mach.bread, hdst.blockno, hsrc.blockno, hdata]
  have hs : LogSys.Stepped a s.abs p .commit t.abs := by
    rw [habs]
    exact LogSys.Stepped.writeLog (s := s.abs) hlt hproc
  have hl : LogSys.Legal a s.abs p .commit := by
    intro tail' ht' hq
    simp only [hproc, BioCommitPc.abs, CopyPc.copied, LogPc.commit.injEq, CommitPc.writeLog.injEq,
      reduceCtorEq, or_false] at hq
    subst hq
    exact hsrc.pend
  refine ⟨h.commitWrite hio hdst hb ?_ (fun c hc => ?_) ht hs hl hf (fun {k} hk => ?_)
    (fun hk _ => hne hk) fun hhas => ⟨?_, ⟨_, hhas hdst⟩, ⟨_, hhas hsrc⟩⟩, hs, hl⟩
  · rw [hdst.blockno, hsrc.blockno, hdata]; exact update_self ..
  · rw [hdst.blockno]; exact update_of_ne hc _ _
  · refine hk.of_goto (.commit (.writeLog (tail + 1))) (by rw [habs]; rfl) fun tail' hq => ?_
    rw [hproc] at hq
    cases hq
  · rintro rfl
    exact hne hlt (hsrc.blockno.symm.trans hdst.blockno)

/-- `install_trans` copies a block to its home location. -/
theorem BioInv.copyHome (h : BioInv a s) {tail : ℕ} {dst src : Fin NBUF} {b : Buf}
    (hio : s.io p = .idle)
    (hp : s.pc p = .commit (.loop .installTrans tail (.copy dst src)))
    (hb : { s.cache.buf dst with data := (s.cache.buf src).data }.bwrite disksize s.mach =
      .ok (b, m))
    (ht : t = { s with cache := s.cache.set dst b, mach := m }.goto p .idle
      (.commit (.loop .installTrans tail (.relSrc dst src)))) (hf : LogSys.Fits a t.abs) :
    BioInv a t ∧ LogSys.Stepped a s.abs p .commit t.abs ∧ LogSys.Legal a s.abs p .commit := by
  have hok := h.pcs p
  rw [hp] at hok
  obtain ⟨hlt, hsrc, hdst⟩ := hok
  have hdst := hdst.has hio
  rw [List.getD_eq_getElem?_getD, List.getElem?_eq_getElem hlt, Option.getD_some] at hdst
  have hproc := abs_commit hp
  have hproc' : s.abs.proc p = .commit (.installTrans tail) := hproc
  have hdata : (s.cache.buf src).data = s.mach.mem (a.blk (tail + 1)) := by
    rw [← hsrc.blockno]; exact (h.coh.shows (h.coh.valid_of_held hsrc.holder hio)).symm
  -- the log block holds what the home block holds, so that the plain map does not change
  have hsame : s.mach.mem (a.blk (tail + 1)) = s.mach.mem s.log.lh[tail] :=
    h.sound.copied.blocks hproc' tail hlt le_rfl hlt hdst.pend
  obtain ⟨-, rfl, rfl⟩ := Buf.bwrite_ok hb
  have habs : t.abs = { s.abs with mach := installTransBody a s.log.lh[tail] tail s.mach }.goto p
      (.commit (.installTrans (tail + 1))) := by
    rw [ht, abs_goto]
    refine congrArg (fun u : LogSys => u.goto p (.commit (.installTrans (tail + 1)))) ?_
    refine LogSys.ext rfl ?_ (abs_proc rfl fun _ => Bcache.set_congr Buf.blockno (by rfl) _) rfl rfl rfl rfl
      rfl rfl
    simp only [abs, installTransBody, Mach.bwrite, Mach.bread, hdst.blockno, hdata, hsame,
      update_eq_self]
  have hs : LogSys.Stepped a s.abs p .commit t.abs := by
    rw [habs]
    exact LogSys.Stepped.install (s := s.abs) hlt hproc'
  have hl : LogSys.Legal a s.abs p .commit := by
    intro tail' ht' hq
    simp only [hproc', LogPc.commit.injEq, CommitPc.installTrans.injEq, reduceCtorEq,
      false_or] at hq
    subst hq
    exact hdst.pend
  have hinst : ∀ {k}, Uninstalled t k → tail + 1 ≤ k := fun {k} hk =>
    hk p (tail + 1) (by rw [habs, LogSys.goto_proc, update_self])
  refine ⟨h.commitWrite hio hdst hb ?_ (fun _ _ => rfl) ht hs hl hf (fun {k} hk q tail' hq => ?_)
    (fun {k} hk hin heq => ?_) fun hhas => ⟨?_, ⟨_, hhas hdst⟩, ⟨_, hhas hsrc⟩⟩, hs, hl⟩
  · rw [hdata, hsame]
  · by_cases hqp : q = p
    · subst hqp
      rw [hproc'] at hq
      cases hq
      exact (Nat.le_succ _).trans (hinst hk)
    · exact hk q tail' (by rw [habs, LogSys.goto_proc, update_of_ne hqp]; exact hq)
  · have h1 := hinst hin
    have h2 := (h.sound.grouped.nodup.getElem_inj_iff).1 heq
    omega
  · rintro rfl
    have heq : s.log.lh[tail] = a.blk (tail + 1) := hdst.blockno.symm.trans hsrc.blockno
    exact h.sound.copied.home _ (List.getElem_mem hlt) (heq ▸ h.sound.fits.blk_mem hlt)

/-- `write_head` writes the header block. -/
theorem BioInv.writeHead (h : BioInv a s) {k : Loop} {b : Buf}
    (hio : s.io p = .idle) (hp : s.pc p = .commit (.head k (.write i)))
    (hb : { s.cache.buf i with data := encodeHead s.log.lh (s.cache.buf i).data }.bwrite disksize
      s.mach = .ok (b, m))
    (ht : t = ({ s with cache := s.cache.set i b, mach := m }.setMem (s.cache.buf i).blockno
      (encodeHead s.log.lh (s.mach.mem (s.cache.buf i).blockno))).goto p .idle
      (.commit (.head k (.rel i)))) (hf : LogSys.Fits a t.abs) :
    BioInv a t ∧ LogSys.Stepped a s.abs p .commit t.abs ∧ LogSys.Legal a s.abs p .commit := by
  have hok := h.pcs p
  rw [hp] at hok
  have hi : Has s p i a.head := Asked.has hok hio
  have hdata : (s.cache.buf i).data = s.mach.mem a.head := by
    rw [← hi.blockno]; exact (h.coh.shows (h.coh.valid_of_held hi.holder hio)).symm
  obtain ⟨-, rfl, rfl⟩ := Buf.bwrite_ok hb
  have habs : t.abs = { s.abs with mach := Xv6.writeHead a s.log.lh s.mach }.goto p
      (.commit (BioCommitPc.head k (.rel i)).abs) := by
    rw [ht, abs_goto]
    refine congrArg (fun u : LogSys => u.goto p (.commit (BioCommitPc.head k (.rel i)).abs)) ?_
    refine LogSys.ext rfl ?_ (abs_proc rfl fun _ => Bcache.set_congr Buf.blockno (by rfl) _) rfl rfl rfl rfl
      rfl rfl
    simp only [abs, setMem, Xv6.writeHead, Mach.bwrite, Mach.bread, hi.blockno, hdata]
  have hproc := abs_commit hp
  have hs : LogSys.Stepped a s.abs p .commit t.abs := by
    rw [habs]
    cases k with
    | writeLog => exact LogSys.Stepped.writeHead (s := s.abs) hproc
    | installTrans => exact LogSys.Stepped.clearHead (s := s.abs) hproc
  have hno : ∀ c tail, s.abs.proc p = .commit c → c ≠ .writeLog tail ∧ c ≠ .installTrans tail := by
    intro c tail hq
    rw [hproc] at hq
    cases k <;> cases hq <;> exact ⟨by rintro ⟨⟩, by rintro ⟨⟩⟩
  have hl : LogSys.Legal a s.abs p .commit := by
    intro tail _ hq
    rcases hq with hq | hq
    · exact absurd rfl (hno _ tail hq).1
    · exact absurd rfl (hno _ tail hq).2
  refine ⟨h.commitWrite hio hi hb ?_ (fun c hc => ?_) ht hs hl hf (fun {k'} hk => ?_)
    (fun hk _ heq => ?_) fun hhas => ⟨_, hhas hi⟩, hs, hl⟩
  · rw [hi.blockno, hdata]; exact update_self ..
  · rw [hi.blockno]; exact update_of_ne hc _ _
  · exact hk.of_goto (.commit (BioCommitPc.head k (.rel i)).abs) (by rw [habs]; rfl)
      fun tail hq => (hno _ tail hq).2 rfl
  · exact h.sound.copied.home _ (List.getElem_mem hk) (heq ▸ a.head_mem)

/-- The locked section of `log_write` pins the buffer. -/
theorem BioInv.logAdd (h : BioInv a s) {o : Op} (hio : s.io p = .idle) (hp : s.pc p = .logWrite o i)
    (hf : LogSys.Fits a (s.logAdd p o i).abs) :
    BioInv a (s.logAdd p o i) ∧ LogSys.Stepped a s.abs p .logAdd (s.logAdd p o i).abs := by
  have hok := h.pcs p
  rw [hp] at hok
  have hv := h.coh.valid_of_held hok.1 hio
  have hproc : s.abs.proc p = .logWrite o (s.cache.buf i).blockno := by
    simp only [abs, hp, BioPc.abs]
  have hset : ({ s.cache.buf i with dirty := true } : Buf) = { s.cache.buf i with
      data := (s.cache.buf i).data, dirty := true, valid := true } := by rw [← hv]
  have hbuf : SameBufs s.cache (s.logAdd p o i).cache := .set rfl rfl rfl
  have hdirty : ∀ {j}, (s.cache.buf j).dirty = true →
      ((s.logAdd p o i).cache.buf j).dirty = true := by
    intro j hj
    change ((s.cache.set i { s.cache.buf i with dirty := true }).buf j).dirty = true
    rw [Bcache.set_buf, update_apply]
    split_ifs
    · rfl
    · exact hj
  have habs : (s.logAdd p o i).abs = (s.abs.logAdd (s.cache.buf i).blockno).goto p
      (.op { o with logged := o.logged ++ [(s.cache.buf i).blockno] }) := by
    rw [Sys.logAdd, abs_goto]
    refine congrArg (fun u : LogSys => u.goto p
      (.op { o with logged := o.logged ++ [(s.cache.buf i).blockno] })) ?_
    exact LogSys.ext rfl rfl (abs_proc rfl fun _ => Bcache.set_congr Buf.blockno (by rfl) _) rfl rfl rfl rfl
      rfl rfl
  have hs : LogSys.Stepped a s.abs p .logAdd (s.logAdd p o i).abs := by
    rw [habs]
    exact .logAdd hproc
  -- a running operation excludes a commit
  have hno : ∀ q c, s.abs.proc q ≠ .commit c :=
    h.sound.ctl.no_commit (h.sound.ctl.not_committing (p := p) (by simp [LogSys.InOp, hproc, LogPc.op?]))
  have hio' : (s.logAdd p o i).io = s.io := by
    change update s.io p .idle = s.io
    rw [← hio, update_eq_self]
  refine ⟨h.visible _ hs trivial hf ?_ hio' rfl hbuf (fun {q j b} _ hj => ?_)
    (fun _ hq => absurd (abs_commit hq) (hno _ _)) trivial ?_, hs⟩
  · rw [hio']
    simp only [Sys.logAdd, goto, hset]
    refine h.coh.put _ _ hv (h.coh.shows hv) (fun b hb => ⟨rfl, rfl, ?_⟩) (by rintro ⟨⟩) (fun q hq => ?_)
    · exact update_of_ne hb _ _
    · rw [update_self] at hq; cases hq
  · change update s.pend _ _ b = none
    rw [update_apply]
    split_ifs
    · rfl
    · exact hj.pend
  · intro k hk hin
    have hlh : ∀ c ∈ (s.logAdd p o i).log.lh, c ∈ s.log.lh ∨ c = (s.cache.buf i).blockno := by
      intro c hc
      change c ∈ (s.log.logWriteAdd (s.cache.buf i).blockno).lh at hc
      rw [Log.logWriteAdd_eq] at hc
      split_ifs at hc
      · exact .inl hc
      · simpa using hc
    rcases hlh _ (List.getElem_mem hk) with hmem | hmem
    · obtain ⟨k', hk', heq⟩ := List.getElem_of_mem hmem
      obtain ⟨j, h1, h2, h3⟩ := h.pinned k' hk' fun q tail hq => absurd hq (hno _ _)
      exact ⟨j, (hbuf j).1.trans h1, (hbuf j).2.1.trans (h2.trans heq), hdirty h3⟩
    · refine ⟨i, (hbuf i).1.trans (h.coh.root hv), (hbuf i).2.1.trans hmem.symm, ?_⟩
      simp [Sys.logAdd, goto]

/-- A panic changes nothing else. -/
theorem BioInv.fail (h : BioInv a s) (e : BioPanic) (hs : LogSys.Sound a (s.fail e).abs) :
    BioInv a (s.fail e) where
  coh := h.coh
  pcs q := (h.pcs q).other rfl (fun _ _ => ⟨rfl, rfl⟩) (fun _ hj => hj) (fun hi => hi.pend) fun _ => rfl
  sound := hs
  pinned := h.pinned.step rfl (fun hk => hk) fun _ _ _ hd => ⟨rfl, rfl, hd⟩

theorem abs_store (i : Fin NBUF) (f : Block → Block) (ss : List Store) : (s.store p i f ss).abs =
    { s.abs.store p (s.cache.buf i).blockno f with stores := ss } :=
  LogSys.ext rfl rfl (abs_proc rfl fun _ => Bcache.set_congr Buf.blockno (by rfl) _) rfl rfl rfl rfl rfl rfl

/-! ## Every step -/

/-- The processes change blocks only inside operations, leave it to `commit` to write them to
    disk, and pass them to `log_write` before `end_op`. -/
def Transactional (s : Sys) (p : ℕ) : BioAct → Prop
  | .store .. => s.pc p ≠ .out
  | .bwrite _ => False
  | .endOp => ∀ i, (s.cache.buf i).holder = some p → s.pend (s.cache.buf i).blockno ≠ some p
  | _ => True

theorem BioInv.endOp_transactional (h : BioInv a s) (ht : Transactional s p .endOp) :
    LogSys.Transactional s.abs p .endOp := by
  intro b hb
  obtain ⟨i, -, rfl, hh⟩ := h.coh.pend hb
  exact ht i hh hb

/-- The plain map takes no step, or one that its processes may take. -/
def Sim (a : LogArea) (s : Sys) (p : ℕ) (x : BioAct) (t : Sys) : Prop :=
  t.abs = s.abs ∨ ∃ y, LogSys.Stepped a s.abs p y t.abs ∧ LogSys.Legal a s.abs p y ∧
    (Transactional s p x → LogSys.Transactional s.abs p y)

/-- A step of `commit` is one of the plain map. -/
theorem Sim.commit (hs : LogSys.Stepped a s.abs p .commit t.abs)
    (hl : LogSys.Legal a s.abs p .commit) : Sim a s p x t :=
  .inr ⟨.commit, hs, hl, fun _ => trivial⟩

/-- A step of `commit` that does not touch a block. -/
theorem BioInv.commitControl (h : BioInv a s) {c : BioCommitPc} (hio : s.io p = .idle)
    (hp : s.pc p = .commit c) (hs : LogSys.Stepped a s.abs p .commit (u.goto p .idle pc).abs)
    (hf : LogSys.Fits a (u.goto p .idle pc).abs) (hc : u.cache = s.cache) (hm : u.mach = s.mach)
    (hpd : u.pend = s.pend) (hi : u.io = s.io) (hpc : u.pc = s.pc)
    (hlh : u.log.lh = s.log.lh ∨ u.log.lh = [])
    (hcp : (∀ tail, c.abs ≠ .installTrans tail) ∨ u.log.lh = [])
    (hend : ∀ tail, c.abs = .writeLog tail ∨ c.abs = .installTrans tail → s.log.lh.length ≤ tail)
    (hown : PcOk a (u.goto p .idle pc) p pc) :
    BioInv a (u.goto p .idle pc) ∧ Sim a s p x (u.goto p .idle pc) := by
  have hproc := abs_commit hp
  have hl : LogSys.Legal a s.abs p .commit := by
    intro tail ht hq
    rw [hproc, LogPc.commit.injEq, LogPc.commit.injEq] at hq
    exact absurd ht (Nat.not_lt.2 (hend tail hq))
  refine ⟨h.control hio hs hl hf hc hm hpd hi hpc (hlh.imp_right fun hn => ⟨hn, c, hp⟩)
    (hcp.imp_left fun hn tail hq => ?_) hown, .commit hs hl⟩
  rw [hproc, LogPc.commit.injEq] at hq
  exact hn tail hq

/-- A call of a client that only changes the control state. -/
theorem BioInv.clientControl (h : BioInv a s) (y : LogAct) (hio : s.io p = .idle)
    (hcl : (s.pc p).Client) (hs : LogSys.Stepped a s.abs p y (u.goto p .idle pc).abs)
    (hl : LogSys.Legal a s.abs p y) (ht : Transactional s p x → LogSys.Transactional s.abs p y)
    (hf : LogSys.Fits a (u.goto p .idle pc).abs) (hc : u.cache = s.cache) (hm : u.mach = s.mach)
    (hpd : u.pend = s.pend) (hi : u.io = s.io) (hpc : u.pc = s.pc) (hlh : u.log.lh = s.log.lh)
    (hown : PcOk a (u.goto p .idle pc) p pc) :
    BioInv a (u.goto p .idle pc) ∧ Sim a s p x (u.goto p .idle pc) := by
  refine ⟨h.control hio hs hl hf hc hm hpd hi hpc (.inl hlh) (.inl fun tail hq => ?_) hown,
    .inr ⟨y, hs, hl, ht⟩⟩
  simp only [abs] at hq
  rcases hp : s.pc p with _ | o | ⟨o, j⟩ | c <;> rw [hp] at hcl hq
  · cases hq
  · cases hq
  · cases hq
  · exact hcl

/-- **Every step of the system keeps the invariant and is a step of the plain map or none.** -/
theorem BioInv.step (h : BioInv a s) (hpan : s.panic = none) (hl : Legal a s p x)
    (hs : Stepped a s p x t) (hf : LogSys.Fits a t.abs) : BioInv a t ∧ Sim a s p x t := by
  have hout : s.pc p = .out → s.abs.proc p = .out := fun hp => by simp only [abs, hp, BioPc.abs]
  have hop : ∀ {o}, s.pc p = .op o → s.abs.proc p = .op o := fun hp => by
    simp only [abs, hp, BioPc.abs]
  cases hs with
  | bget hio hk hc => exact (h.bget hio hk hc).imp_right .inl
  | fail e he =>
    have habs : (s.fail e).abs = s.abs := by
      refine LogSys.ext rfl rfl rfl ?_ rfl rfl rfl rfl rfl
      have hlog : e.log? = none := by cases e <;> first | rfl | exact absurd rfl (he _)
      simp [abs, Sys.fail, hpan, hlog]
    exact ⟨h.fail e (habs ▸ h.sound), .inl habs⟩
  | lock hio hh => exact (h.lock hio hh).imp_right .inl
  | @hit i hio hv =>
    refine (h.goOn (c := s.cache) (by rw [hio]; rintro ⟨⟩) (fun _ => by rw [hio]; rintro ⟨⟩) ?_
      fun _ => ⟨rfl, rfl, rfl, rfl⟩).imp_right .inl
    exact h.coh.hit hio hv
  | @fetch i disksize b m hio hv hb =>
    obtain ⟨hdev, rfl, rfl⟩ := iderw_read (h.coh.clean_of_invalid hv) hb
    exact (h.goOn (by rw [hio]; rintro ⟨⟩) (fun _ => by rw [hio]; rintro ⟨⟩) (h.coh.fetch hio hv hdev)
      fun j => ⟨Bcache.set_congr Buf.dev (by rfl) j, Bcache.set_congr Buf.blockno (by rfl) j,
        Bcache.set_congr Buf.holder (by rfl) j, Bcache.set_congr Buf.dirty (by rfl) j⟩).imp_right .inl
  | @unref i hio =>
    exact (h.goOn (by rw [hio]; rintro ⟨⟩) (fun _ => by rw [hio]; rintro ⟨⟩) (h.coh.unref hio)
      fun j => ⟨Bcache.set_congr Buf.dev (c := s.cache) (i := i) (by rfl) j,
        Bcache.set_congr Buf.blockno (c := s.cache) (i := i) (by rfl) j,
        Bcache.set_congr Buf.holder (c := s.cache) (i := i) (by rfl) j,
        Bcache.set_congr Buf.dirty (c := s.cache) (i := i) (by rfl) j⟩).imp_right .inl
  | brelse hio hr _ => exact (h.brelse hl hio hr).imp_right .inl
  | @storeOut i f hio hh hp =>
    have hs : LogSys.Stepped a s.abs p (.store (s.cache.buf i).blockno f)
        (s.store p i f s.stores).abs := by
      rw [abs_store]
      exact .storeOut _ f (hout hp)
    exact ⟨h.store f s.stores hio hh (by rw [hp]; trivial) hs hl hf,
      .inr ⟨_, hs, hl, fun ht => absurd hp ht⟩⟩
  | @storeOp i f o hio hh hp =>
    have hs := LogSys.Stepped.storeOp (a := a) (s.cache.buf i).blockno f (hop hp)
    rw [← abs_store] at hs
    refine ⟨h.store f _ hio hh (by rw [hp]; trivial) hs hl hf, .inr ⟨_, hs, hl, fun _ => ?_⟩⟩
    simp [LogSys.Transactional, LogSys.InOp, hop hp, LogPc.op?]
  | @bwrite i disksize b m hio hc hh hb =>
    obtain ⟨h1, h2⟩ := h.bwrite hio hc hh hb hl rfl hf
    exact ⟨h1, .inr ⟨_, h2, hl, False.elim⟩⟩
  | copyLog hio hp hb =>
    obtain ⟨h1, h2, h3⟩ := h.copyLog hio hp hb rfl hf
    exact ⟨h1, .commit h2 h3⟩
  | copyHome hio hp hb =>
    obtain ⟨h1, h2, h3⟩ := h.copyHome hio hp hb rfl hf
    exact ⟨h1, .commit h2 h3⟩
  | writeHead hio hp hb =>
    obtain ⟨h1, h2, h3⟩ := h.writeHead hio hp hb rfl hf
    exact ⟨h1, .commit h2 h3⟩
  | beginOp hio hp hb =>
    refine h.clientControl .beginOp hio (by rw [hp]; trivial)
      (by rw [abs_goto]; exact .beginOp (hout hp) hb) trivial (fun _ => trivial) hf rfl rfl rfl rfl
      rfl ?_ trivial
    obtain ⟨-, -, rfl⟩ := Log.beginOp_some hb
    rfl
  | @logPanic i o e hp he =>
    have hs : LogSys.Stepped a s.abs p (.logWrite (s.cache.buf i).blockno) (s.fail (.log e)).abs :=
      .logPanic _ (hop hp) he
    exact ⟨h.fail _ (h.sound.step (x := .logWrite _) (p := p) hl hs hf),
      .inr ⟨_, hs, hl, fun _ => trivial⟩⟩
  | @logWrite i o hio hp hh ht =>
    exact h.clientControl (.logWrite (s.cache.buf i).blockno) hio (by rw [hp]; trivial)
      (by rw [abs_goto]; exact .logWrite _ (hop hp) ht) hl (fun _ => trivial) hf rfl rfl rfl rfl
      rfl rfl ⟨hh, update_self ..⟩
  | logAdd hio hp =>
    obtain ⟨h1, h2⟩ := h.logAdd hio hp hf
    exact ⟨h1, .inr ⟨_, h2, trivial, fun _ => trivial⟩⟩
  | @endPanic o e hp he =>
    have hs : LogSys.Stepped a s.abs p .endOp (s.fail (.log e)).abs := .endPanic (hop hp) he
    exact ⟨h.fail _ (h.sound.step (x := .endOp) (p := p) trivial hs hf), .inr ⟨_, hs, trivial,
      h.endOp_transactional⟩⟩
  | endCommit hio hp he =>
    refine h.clientControl .endOp hio (by rw [hp]; trivial)
      (by rw [abs_goto]; exact .endCommit (hop hp) he) trivial h.endOp_transactional hf rfl rfl
      rfl rfl rfl ?_ trivial
    obtain ⟨-, -, rfl⟩ := Log.endOp_true he
    rfl
  | endOp hio hp he =>
    refine h.clientControl .endOp hio (by rw [hp]; trivial)
      (by rw [abs_goto]; exact .endOp (hop hp) he) trivial h.endOp_transactional hf rfl rfl rfl
      rfl rfl ?_ trivial
    obtain ⟨-, -, rfl⟩ := Log.endOp_false he
    rfl
  | commitEmpty hio hp hn =>
    exact h.commitControl hio hp (by rw [abs_goto]; exact .commitEmpty (abs_commit hp) hn) hf rfl rfl
      rfl rfl rfl (.inl rfl) (.inl (by rintro _ ⟨⟩))
      (fun tail hq => by rcases hq with hq | hq <;> cases hq) trivial
  | commitStart hio hp =>
    exact h.commitControl hio hp (by rw [abs_goto]; exact .commitStart (abs_commit hp)) hf rfl rfl
      rfl rfl rfl (.inl rfl) (.inl (by rintro _ ⟨⟩))
      (fun tail hq => by rcases hq with hq | hq <;> cases hq) trivial
  | writeLogEnd hio hp ht =>
    refine h.commitControl hio hp (by rw [abs_goto]; exact .writeLogEnd (abs_commit hp) ht) hf rfl rfl
      rfl rfl rfl (.inl rfl) (.inl (by rintro _ ⟨⟩)) (fun tail hq => ?_) trivial
    rcases hq with hq | hq <;> cases hq
    exact ht
  | installEnd hio hp ht =>
    refine h.commitControl hio hp (by rw [abs_goto]; exact .installEnd (abs_commit hp) ht) hf rfl rfl
      rfl rfl rfl (.inr rfl) (.inr rfl) (fun tail hq => ?_) trivial
    rcases hq with hq | hq <;> cases hq
    exact ht
  | finish hio hp =>
    exact h.commitControl hio hp (by rw [abs_goto]; exact .finish (abs_commit hp)) hf rfl rfl
      rfl rfl rfl (.inl rfl) (.inl (by rintro _ ⟨⟩))
      (fun tail hq => by rcases hq with hq | hq <;> cases hq) trivial

end

end Sys

end Xv6
