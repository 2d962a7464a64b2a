/-
  The cache shows a plain map.

  `Coherent` ties the buffers to the disk and to the plain map `mem`: no block
  is cached twice, a valid buffer holds the contents of its block in the plain
  map, it differs from the disk only if it is dirty or being changed, and a
  block without a valid buffer is on disk.  It is kept by every step that
  changes a buffer; the lemmas below take what such a step does apart into the
  buffer `i` it works on and the rest.
-/
import Xv6.Bio.System

namespace Xv6

open Count Function

namespace Sys

/-- Process `p` refers to buffer `i` without holding it. -/
abbrev Waits (io : ℕ → Io) (i : Fin NBUF) (p : ℕ) : Prop := (io p).buf? = some i

/-- The reference of the process that holds a buffer. -/
def holds (b : Buf) : ℤ := if b.holder.isSome then 1 else 0

/-! ## References -/

/-- `refcnt` counts the processes that wait for a buffer and the one that holds it. -/
def Counted (c : Bcache) (io : ℕ → Io) : Prop :=
  ∀ i, Counts (Waits io i) ((c.buf i).refcnt - holds (c.buf i))

namespace Counted
variable {c c' : Bcache} {io io' : ℕ → Io} {p : ℕ} {i : Fin NBUF} {b : Buf} {x : Io}

/-- A buffer that is held or waited for has references. -/
theorem pos (h : Counted c io) (hi : (c.buf i).holder = some p ∨ Waits io i p) :
    0 < (c.buf i).refcnt := by
  obtain ⟨S, hS, hn⟩ := h i
  rcases hi with hi | hi
  · have : holds (c.buf i) = 1 := by simp [holds, hi]
    omega
  · have h1 := (h i).pos (p := p) hi
    have : 0 ≤ holds (c.buf i) := by unfold holds; split_ifs <;> omega
    omega

theorem congr (h : Counted c io) (hr : ∀ j, (c'.buf j).refcnt = (c.buf j).refcnt)
    (hh : ∀ j, (c'.buf j).holder = (c.buf j).holder) (hio : ∀ q, (io' q).buf? = (io q).buf?) :
    Counted c' io' := fun j => by
  simp only [holds, hr, hh]
  exact (h j).congr fun q => by rw [Waits, Waits, hio]

/-- Process `p` goes to `x` after a change of the buffer `i`, the only one it refers to. -/
theorem set (h : Counted c io) (hother : ∀ j ≠ i, (io p).buf? ≠ some j ∧ x.buf? ≠ some j)
    (hi : b.refcnt - holds b = (c.buf i).refcnt - holds (c.buf i) -
      (if (io p).buf? = some i then 1 else 0) + if x.buf? = some i then 1 else 0) :
    Counted (c.set i b) (update io p x) := by
  intro j
  have := (h j).update (Q := Waits (update io p x) j) (p := p) fun q hq => by
    simp only [Waits, update_of_ne hq]
  simp only [Waits, update_self] at this
  rw [Bcache.set_buf, update_apply]
  split_ifs with hj
  · subst hj
    rw [hi]
    exact this
  · simpa [hother j hj] using this

theorem bget_hit (h : Counted c io) (hio : io p = .idle) :
    Counted (c.set i { c.buf i with refcnt := (c.buf i).refcnt + 1 })
      (update io p (.lock i)) := by
  refine h.set (fun j hj => ?_) ?_
  · simp [hio, Io.buf?, Ne.symm hj]
  · simp [hio, Io.buf?, holds, sub_add_eq_add_sub]

theorem bget_recycle (h : Counted c io) (hio : io p = .idle) (href : (c.buf i).refcnt = 0)
    (dev : UInt32) (b : BlockNo) : Counted (c.set i { c.buf i with
      dev := dev, blockno := b, valid := false, dirty := false, refcnt := 1 })
      (update io p (.lock i)) := by
  have hnone : (c.buf i).holder = none := by
    refine Option.eq_none_iff_forall_ne_some.2 fun q hq => ?_
    have := h.pos (.inl hq)
    omega
  refine h.set (fun j hj => ?_) ?_
  · simp [hio, Io.buf?, Ne.symm hj]
  · simp [hio, Io.buf?, holds, hnone, href]

theorem lock (h : Counted c io) (hio : io p = .lock i) (hh : (c.buf i).holder = none) :
    Counted (c.set i { c.buf i with holder := some p }) (update io p (.read i)) := by
  refine h.set (fun j hj => ?_) ?_
  · simp [hio, Io.buf?, Ne.symm hj]
  · simp [hio, Io.buf?, holds, hh]

theorem release (h : Counted c io) (hio : io p = .idle) (hh : (c.buf i).holder.isSome) :
    Counted (c.set i { c.buf i with holder := none }) (update io p (.unref i)) := by
  refine h.set (fun j hj => ?_) ?_
  · simp [hio, Io.buf?, Ne.symm hj]
  · simp [hio, Io.buf?, holds, hh]

theorem unref (h : Counted c io) (hio : io p = .unref i) :
    Counted (c.unref i) (update io p .idle) := by
  have hpos := h.pos (p := p) (i := i) (.inr (by rw [Waits, hio]; rfl))
  refine h.set (i := i) (b := { c.buf i with refcnt := (c.buf i).refcnt - 1 }) (fun j hj => ?_) ?_
  · simp [hio, Io.buf?, Ne.symm hj]
  · simp only [hio, Io.buf?, if_true, reduceCtorEq, if_false, Int.add_zero, holds]
    omega

/-- A process without a reference goes on without one. -/
theorem buf?_idle (hio : io p = x) (hx : x.buf? = none) (q : ℕ) :
    (update io p .idle q).buf? = (io q).buf? := by
  rw [update_apply]
  split_ifs with hq
  · rw [hq, hio, hx]; rfl
  · rfl

/-- A change that leaves references and locks. -/
theorem set_same (h : Counted c io) (hr : b.refcnt = (c.buf i).refcnt)
    (hh : b.holder = (c.buf i).holder) (hio : ∀ q, (io' q).buf? = (io q).buf?) :
    Counted (c.set i b) io' :=
  h.congr (Bcache.set_congr Buf.refcnt hr) (Bcache.set_congr Buf.holder hh) hio

variable {a : LogArea} {s s' : Sys} {y : BioAct}

/-- **Every step keeps the counts.** -/
theorem step (h : Counted s.cache s.io) (hs : Stepped a s p y s') : Counted s'.cache s'.io := by
  cases hs with
  | bget hio hk hc =>
    cases hc with
    | hit => exact h.bget_hit hio
    | recycled _ hr => exact h.bget_recycle hio hr _ _
  | fail | logPanic | endPanic => exact h
  | lock hio hh => exact h.lock hio hh
  | hit hio => exact h.congr (fun _ => rfl) (fun _ => rfl) (buf?_idle hio rfl)
  | fetch hio _ hb =>
    unfold iderw at hb
    split_ifs at hb <;> cases hb <;> exact h.set_same rfl rfl (buf?_idle hio rfl)
  | unref hio => exact h.unref hio
  | brelse hio _ hh => exact h.release hio hh
  | storeOut | storeOp => exact h.set_same rfl rfl fun _ => rfl
  | bwrite _ _ _ hb =>
    obtain ⟨-, rfl, -⟩ := Buf.bwrite_ok hb
    exact h.set_same rfl rfl fun _ => rfl
  | copyLog hio _ hb | copyHome hio _ hb | writeHead hio _ hb =>
    obtain ⟨-, rfl, -⟩ := Buf.bwrite_ok hb
    exact h.set_same rfl rfl (buf?_idle hio rfl)
  | logAdd hio => exact h.set_same rfl rfl (buf?_idle hio rfl)
  | beginOp hio | logWrite hio | endCommit hio | endOp hio | commitEmpty hio | commitStart hio
  | writeLogEnd hio | installEnd hio | finish hio =>
    exact h.congr (fun _ => rfl) (fun _ => rfl) (buf?_idle hio rfl)

end Counted

/-! ## The cache and the plain map -/

structure Coherent (c : Bcache) (m : Mach) (io : ℕ → Io) (pend : BlockNo → Option ℕ) : Prop where
  order : ∀ i, i ∈ c.order
  uniq : ∀ {i j}, (c.buf i).dev ≠ 0 → (c.buf i).dev = (c.buf j).dev →
    (c.buf i).blockno = (c.buf j).blockno → i = j
  refs : Counted c io
  reading : ∀ {p i}, io p = .read i → (c.buf i).holder = some p
  held : ∀ {p i}, (c.buf i).holder = some p →
    io p = .read i ∨ (c.buf i).valid = true
  dirty : ∀ {i}, (c.buf i).dirty = true → (c.buf i).valid = true
  root : ∀ {i}, (c.buf i).valid = true → (c.buf i).dev = ROOTDEV
  clean : ∀ {i}, (c.buf i).valid = true → (c.buf i).dirty = false →
    pend (c.buf i).blockno = none →
    (c.buf i).data = m.disk (c.buf i).blockno
  shows : ∀ {i}, (c.buf i).valid = true →
    m.mem (c.buf i).blockno = (c.buf i).data
  absent : ∀ {b}, (∀ i, (c.buf i).valid = true → (c.buf i).blockno ≠ b) →
    m.mem b = m.disk b
  pend : ∀ {b p}, pend b = some p → ∃ i, (c.buf i).valid = true ∧
    (c.buf i).blockno = b ∧ (c.buf i).holder = some p

namespace Coherent
variable {c : Bcache} {m m' : Mach} {io : ℕ → Io} {pend pend' : BlockNo → Option ℕ} {p : ℕ}
  {i : Fin NBUF}

theorem init (d : Disk) : Coherent .init (.boot d) (fun _ => .idle) fun _ => none where
  order i := List.mem_reverse.2 (List.mem_finRange i)
  uniq h := absurd rfl h
  refs i := Counts.none fun q hq => by cases hq
  reading h := by cases h
  held h := by cases h
  dirty h := by cases h
  root h := by cases h
  clean h := by cases h
  shows h := by cases h
  absent _ := rfl
  pend h := by cases h

/-! ## Consequences -/

/-- Two buffers of the same block of the root disk are one. -/
theorem uniq_root (h : Coherent c m io pend) {j : Fin NBUF} (hi : (c.buf i).dev = ROOTDEV)
    (hj : (c.buf j).dev = ROOTDEV)
    (hb : (c.buf i).blockno = (c.buf j).blockno) : i = j :=
  h.uniq (by rw [hi]; decide) (hi.trans hj.symm) hb

/-- A block that is being changed is so by the holder of its buffer. -/
theorem pend_holder (h : Coherent c m io pend) (hi : (c.buf i).dev = ROOTDEV) {q : ℕ}
    (hq : pend (c.buf i).blockno = some q) : (c.buf i).holder = some q := by
  obtain ⟨j, hv, hb, hh⟩ := h.pend hq
  rwa [h.uniq_root (h.root hv) hi hb] at hh

/-- A buffer held by a process that is not in `bread` is valid. -/
theorem valid_of_held (h : Coherent c m io pend) (hh : (c.buf i).holder = some p)
    (hio : io p = .idle) : (c.buf i).valid = true := by
  rcases h.held hh with hr | hv
  · rw [hio] at hr; cases hr
  · exact hv

/-- A buffer that is not valid has nothing to write. -/
theorem clean_of_invalid (h : Coherent c m io pend) (hv : (c.buf i).valid = false) :
    (c.buf i).dirty = false := by
  by_contra hd
  have := h.dirty (by simpa using hd)
  rw [hv] at this
  cases this

/-! ## Steps -/

/-- The holder changes the contents and the dirty flag of a valid buffer. -/
theorem put (h : Coherent c m io pend) (v : Block) (d : Bool) (hv : (c.buf i).valid = true)
    (hm : m'.mem (c.buf i).blockno = v)
    (hrest : ∀ b, b ≠ (c.buf i).blockno →
      m'.mem b = m.mem b ∧ m'.disk b = m.disk b ∧ pend' b = pend b)
    (hclean : d = false → pend' (c.buf i).blockno = none → v = m'.disk (c.buf i).blockno)
    (hpend : ∀ q, pend' (c.buf i).blockno = some q → (c.buf i).holder = some q) :
    Coherent (c.set i { c.buf i with data := v, dirty := d, valid := true }) m' io pend' := by
  set c' := c.set i { c.buf i with data := v, dirty := d, valid := true } with hc
  have hbuf : ∀ j, c'.buf j = if j = i then
      { c.buf i with data := v, dirty := d, valid := true } else c.buf j := fun j => by
    rw [hc, Bcache.set_buf, update_apply]
  -- what stays the same for every buffer
  have hsame : ∀ j, (c'.buf j).dev = (c.buf j).dev ∧ (c'.buf j).blockno = (c.buf j).blockno ∧
      (c'.buf j).holder = (c.buf j).holder ∧ (c'.buf j).refcnt = (c.buf j).refcnt ∧
      (c'.buf j).valid = (c.buf j).valid := by
    intro j
    rw [hbuf]
    split_ifs with hj
    · subst hj; simp [hv]
    · simp
  have hne : ∀ j, j ≠ i → (c.buf j).valid = true → (c.buf j).blockno ≠ (c.buf i).blockno :=
    fun j hj hvj heq => hj (h.uniq_root (h.root hvj) (h.root hv) heq)
  refine ⟨h.order, fun {j k} => ?_, h.refs.congr (fun j => (hsame j).2.2.2.1)
    (fun j => (hsame j).2.2.1) fun _ => rfl, fun {q j} => ?_, fun {q j} => ?_, fun {j} => ?_,
    fun {j} => ?_, fun {j} => ?_, fun {j} => ?_, fun {b} hb => ?_, fun {b q} hq => ?_⟩
  · obtain ⟨h1, h2, -⟩ := hsame j
    obtain ⟨h3, h4, -⟩ := hsame k
    rw [h1, h2, h3, h4]
    exact h.uniq
  · rw [(hsame j).2.2.1]; exact h.reading
  · rw [(hsame j).2.2.1, (hsame j).2.2.2.2]; exact h.held
  · rw [(hsame j).2.2.2.2, hbuf]
    split_ifs with hj
    · exact fun _ => hj ▸ hv
    · exact h.dirty
  · rw [(hsame j).2.2.2.2, (hsame j).1]; exact h.root
  · intro hvj hdj hpj
    rw [(hsame j).2.2.2.2] at hvj
    rw [(hsame j).2.1] at hpj ⊢
    rw [hbuf] at hdj ⊢
    split_ifs at hdj ⊢ with hj
    · subst hj; exact hclean hdj hpj
    · obtain ⟨-, h2, h3⟩ := hrest _ (hne j hj hvj)
      rw [h2]
      exact h.clean hvj hdj (h3 ▸ hpj)
  · intro hvj
    rw [(hsame j).2.2.2.2] at hvj
    rw [(hsame j).2.1, hbuf]
    split_ifs with hj
    · subst hj; exact hm
    · rw [(hrest _ (hne j hj hvj)).1]; exact h.shows hvj
  · have hbi : b ≠ (c.buf i).blockno := fun heq => by
      refine hb i ?_ ?_
      · rw [(hsame i).2.2.2.2]; exact hv
      · rw [(hsame i).2.1, heq]
    obtain ⟨h1, h2, -⟩ := hrest b hbi
    rw [h1, h2]
    refine h.absent fun j hvj => ?_
    rw [← (hsame j).2.1]
    exact hb j ((hsame j).2.2.2.2.trans hvj)
  · by_cases hbi : b = (c.buf i).blockno
    · subst hbi
      exact ⟨i, by rw [(hsame i).2.2.2.2]; exact hv, (hsame i).2.1,
        (hsame i).2.2.1.trans (hpend q hq)⟩
    · rw [(hrest b hbi).2.2] at hq
      obtain ⟨j, h1, h2, h3⟩ := h.pend hq
      exact ⟨j, (hsame j).2.2.2.2.trans h1, (hsame j).2.1.trans h2, (hsame j).2.2.1.trans h3⟩

/-- Who holds and who reads which buffer, after process `p` has gone to `x`. -/
theorem locks (c' : Bcache) (x : Io) (h : Coherent c m io pend)
    (hother : ∀ {q j}, q ≠ p → ((c'.buf j).holder = some q ↔ (c.buf j).holder = some q))
    (hvalid : ∀ {q j}, (c'.buf j).holder = some q → (c.buf j).valid = true →
      (c'.buf j).valid = true)
    (hread : ∀ {j}, x = .read j → (c'.buf j).holder = some p)
    (hheld : ∀ {j}, (c'.buf j).holder = some p → x = .read j ∨ (c'.buf j).valid = true) :
    (∀ {q j}, update io p x q = .read j → (c'.buf j).holder = some q) ∧
    ∀ {q j}, (c'.buf j).holder = some q →
      update io p x q = .read j ∨ (c'.buf j).valid = true := by
  refine ⟨fun {q j} hq => ?_, fun {q j} hq => ?_⟩ <;> by_cases hqp : q = p
  · subst hqp
    rw [update_self] at hq
    exact hread hq
  · rw [update_of_ne hqp] at hq
    exact (hother hqp).2 (h.reading hq)
  · subst hqp
    rw [update_self]
    exact hheld hq
  · rw [update_of_ne hqp]
    exact (h.held ((hother hqp).1 hq)).imp_right (hvalid hq)

/-- A step that changes references and locks only. -/
theorem book {c' : Bcache} {x : Io} (h : Coherent c m io pend)
    (hcontent : ∀ j, (c'.buf j).content = (c.buf j).content)
    (horder : ∀ j, j ∈ c'.order) (hrefs : Counted c' (update io p x))
    (hother : ∀ {q j}, q ≠ p → ((c'.buf j).holder = some q ↔ (c.buf j).holder = some q))
    (hread : ∀ {j}, x = .read j → (c'.buf j).holder = some p)
    (hheld : ∀ {j}, (c'.buf j).holder = some p → x = .read j ∨ (c.buf j).valid = true)
    (hpend : ∀ {j}, (c.buf j).holder = some p → pend (c.buf j).blockno = some p →
      (c'.buf j).holder = some p) : Coherent c' m (update io p x) pend := by
  have hsame : ∀ j, (c'.buf j).dev = (c.buf j).dev ∧ (c'.buf j).blockno = (c.buf j).blockno ∧
      (c'.buf j).valid = (c.buf j).valid ∧ (c'.buf j).dirty = (c.buf j).dirty ∧
      (c'.buf j).data = (c.buf j).data := fun j => by
    simpa only [Buf.content, Prod.mk.injEq] using hcontent j
  have hlocks := h.locks c' x hother (fun {_ j} _ hv => (hsame j).2.2.1.trans hv) hread
    fun {j} hj => by rw [(hsame j).2.2.1]; exact hheld hj
  refine ⟨horder, fun {j k} => ?_, hrefs, hlocks.1, hlocks.2, fun {j} => ?_, fun {j} => ?_,
    fun {j} => ?_, fun {j} => ?_, fun {b} hb => ?_, fun {b q} hq => ?_⟩
  · obtain ⟨h1, h2, -⟩ := hsame j
    obtain ⟨h3, h4, -⟩ := hsame k
    rw [h1, h2, h3, h4]
    exact h.uniq
  · rw [(hsame j).2.2.1, (hsame j).2.2.2.1]; exact h.dirty
  · rw [(hsame j).1, (hsame j).2.2.1]; exact h.root
  · obtain ⟨-, h1, h2, h3, h4⟩ := hsame j
    rw [h1, h2, h3, h4]; exact h.clean
  · obtain ⟨-, h1, h2, -, h4⟩ := hsame j
    rw [h1, h2, h4]; exact h.shows
  · refine h.absent fun j hv => ?_
    rw [← (hsame j).2.1]
    exact hb j ((hsame j).2.2.1.trans hv)
  · obtain ⟨j, h1, h2, h3⟩ := h.pend hq
    refine ⟨j, (hsame j).2.2.1.trans h1, (hsame j).2.1.trans h2, ?_⟩
    by_cases hqp : q = p
    · exact hqp ▸ hpend (hqp ▸ h3) (h2 ▸ hqp ▸ hq)
    · exact (hother hqp).2 h3

/-- `bget` finds the block. -/
theorem bget_hit (h : Coherent c m io pend) (hio : io p = .idle) :
    Coherent (c.set i { c.buf i with refcnt := (c.buf i).refcnt + 1 }) m
      (update io p (.lock i)) pend := by
  have hholder : ∀ j, ((c.set i { c.buf i with refcnt := (c.buf i).refcnt + 1 }).buf j).holder =
      (c.buf j).holder := fun j => Bcache.set_congr Buf.holder (by rfl) j
  exact h.book (fun j => Bcache.set_congr Buf.content (by rfl) j) h.order (h.refs.bget_hit hio)
    (fun {q j} _ => by rw [hholder]) (by rintro _ ⟨⟩)
    (fun {j} hj => .inr (h.valid_of_held ((hholder j).symm.trans hj) hio))
    fun {j} hj _ => (hholder j).trans hj

/-- `acquiresleep` in `bget`. -/
theorem lock (h : Coherent c m io pend) (hio : io p = .lock i) (hh : (c.buf i).holder = none) :
    Coherent (c.set i { c.buf i with holder := some p }) m (update io p (.read i))
      pend := by
  have hholder : ∀ j, ((c.set i { c.buf i with holder := some p }).buf j).holder =
      if j = i then some p else (c.buf j).holder := fun j => by
    rw [Bcache.set_buf, update_apply]
    split_ifs <;> rfl
  refine h.book (fun j => Bcache.set_congr Buf.content (by rfl) j) h.order (h.refs.lock hio hh)
    (fun {q j} hq => ?_) (fun {j} hj => ?_) (fun {j} hj => ?_) (fun {j} hj _ => ?_) <;>
    rw [hholder] at *
  · split_ifs with hji
    · rw [hji, hh, Option.some.injEq]
      exact iff_of_false (Ne.symm hq) (by rintro ⟨⟩)
    · rfl
  · cases hj
    exact if_pos rfl
  · split_ifs at hj with hji
    · exact .inl (hji ▸ rfl)
    · exact .inr ((h.held hj).resolve_left (by rw [hio]; rintro ⟨⟩))
  · split_ifs
    · rfl
    · exact hj

/-- `bread` finds the buffer valid. -/
theorem hit (h : Coherent c m io pend) (hio : io p = .read i) (hv : (c.buf i).valid = true) :
    Coherent c m (update io p .idle) pend := by
  refine h.book (fun j => rfl) h.order
    (h.refs.congr (fun _ => rfl) (fun _ => rfl) (Counted.buf?_idle hio rfl))
    (fun _ => Iff.rfl) (by rintro _ ⟨⟩) (fun {j} hj => .inr ?_) fun hj _ => hj
  rcases h.held hj with hr | hv'
  · rw [hio, Io.read.injEq] at hr
    exact hr ▸ hv
  · exact hv'

/-- `releasesleep` in `brelse`. -/
theorem release (h : Coherent c m io pend) (hio : io p = .idle) (hh : (c.buf i).holder = some p)
    (hp : pend (c.buf i).blockno ≠ some p) :
    Coherent (c.set i { c.buf i with holder := none }) m (update io p (.unref i))
      pend := by
  have hholder : ∀ j, ((c.set i { c.buf i with holder := none }).buf j).holder =
      if j = i then none else (c.buf j).holder := fun j => by
    rw [Bcache.set_buf, update_apply]
    split_ifs <;> rfl
  refine h.book (fun j => Bcache.set_congr Buf.content (by rfl) j) h.order
    (h.refs.release hio (by rw [hh]; rfl)) (fun {q j} hq => ?_) (by rintro _ ⟨⟩) (fun {j} hj => ?_)
    (fun {j} hj hpd => ?_) <;> rw [hholder] at *
  · split_ifs with hji
    · rw [hji, hh, Option.some.injEq]
      exact iff_of_false (by rintro ⟨⟩) (Ne.symm hq)
    · rfl
  · split_ifs at hj
    exact .inr (h.valid_of_held hj hio)
  · rw [if_neg]
    · exact hj
    · rintro rfl
      exact hp hpd

/-- The end of `brelse`. -/
theorem unref (h : Coherent c m io pend) (hio : io p = .unref i) :
    Coherent (c.unref i) m (update io p .idle) pend := by
  have hbuf : (c.unref i).buf = (c.set i { c.buf i with refcnt := (c.buf i).refcnt - 1 }).buf := rfl
  have hholder : ∀ j, ((c.unref i).buf j).holder = (c.buf j).holder := by
    rw [hbuf]; exact fun j => Bcache.set_congr Buf.holder (by rfl) j
  refine h.book (fun j => ?_) (fun j => ?_) (h.refs.unref hio) (fun {q j} _ => by rw [hholder])
    (by rintro _ ⟨⟩) (fun {j} hj => .inr ?_) fun {j} hj _ => (hholder j).trans hj
  · rw [hbuf]
    exact Bcache.set_congr Buf.content (by rfl) j
  · simp only [Bcache.unref]
    split_ifs
    · by_cases hj : j = i
      · simp [hj]
      · exact List.mem_cons_of_mem _ ((List.mem_erase_of_ne hj).2 (h.order j))
    · exact h.order j
  · exact (h.held ((hholder j).symm.trans hj)).resolve_left (by rw [hio]; rintro ⟨⟩)

/-- `bget` recycles an unused and clean buffer. -/
theorem bget_recycle (h : Coherent c m io pend) (hio : io p = .idle) {dev : UInt32} {b : BlockNo}
    (hnone : ∀ j ∈ c.order, (c.buf j).dev = dev → (c.buf j).blockno ≠ b)
    (href : (c.buf i).refcnt = 0) (hdirty : (c.buf i).dirty = false) :
    Coherent (c.set i { c.buf i with
      dev := dev, blockno := b, valid := false, dirty := false, refcnt := 1 }) m
      (update io p (.lock i)) pend := by
  have hnoref : ∀ q, (c.buf i).holder ≠ some q := fun q hq => by
    have := h.refs.pos (.inl hq)
    omega
  set c' := c.set i { c.buf i with
    dev := dev, blockno := b, valid := false, dirty := false, refcnt := 1 } with hc
  have hbuf : ∀ j, j ≠ i → c'.buf j = c.buf j := fun j hj => by
    rw [hc, Bcache.set_buf, update_of_ne hj]
  have hbufi : c'.buf i = { c.buf i with
      dev := dev, blockno := b, valid := false, dirty := false, refcnt := 1 } := by
    rw [hc, Bcache.set_buf, update_self]
  have hinv : (c'.buf i).valid = false := by rw [hbufi]
  -- a valid buffer is another one, and was there before
  have hval : ∀ {j}, (c'.buf j).valid = true → c'.buf j = c.buf j := fun {j} hv =>
    hbuf j (by rintro rfl; rw [hinv] at hv; cases hv)
  have hholder : ∀ j, (c'.buf j).holder = (c.buf j).holder := fun j => Bcache.set_congr Buf.holder (by rfl) j
  have hlocks := h.locks (p := p) c' (.lock i) (fun _ => by rw [hholder]) (fun {q j} hq hv => by
      rw [hbuf j (by rintro rfl; exact hnoref q ((hholder j).symm.trans hq))]; exact hv)
    (by rintro _ ⟨⟩) fun {j} hj => .inr (by
      rw [hholder] at hj
      rw [hbuf j (by rintro rfl; exact hnoref p hj)]
      exact h.valid_of_held hj hio)
  refine ⟨h.order, fun {j k} hd hjk hb => ?_, h.refs.bget_recycle hio href dev b, hlocks.1,
    hlocks.2, fun {j} hd => ?_, fun {j} hv => ?_, fun {j} hv => ?_, fun {j} hv => ?_,
    fun {b'} hb' => ?_, fun {b' q} hq => ?_⟩
  · -- the block was not cached before
    by_cases hj : j = i <;> by_cases hk : k = i
    · rw [hj, hk]
    · rw [hj, hbufi, hbuf k hk] at hjk hb
      exact absurd hb.symm (hnone k (h.order k) hjk.symm)
    · rw [hk, hbufi, hbuf j hj] at hjk hb
      exact absurd hb (hnone j (h.order j) hjk)
    · rw [hbuf j hj] at hd hjk hb
      rw [hbuf k hk] at hjk hb
      exact h.uniq hd hjk hb
  · have hj : j ≠ i := by rintro rfl; rw [hbufi] at hd; cases hd
    rw [hbuf j hj] at hd ⊢
    exact h.dirty hd
  · have heq := hval hv
    rw [heq] at hv ⊢; exact h.root hv
  · have heq := hval hv
    rw [heq] at hv ⊢; exact h.clean hv
  · have heq := hval hv
    rw [heq] at hv ⊢; exact h.shows hv
  · by_cases hold : (c.buf i).valid = true ∧ (c.buf i).blockno = b'
    · -- the block that loses its buffer is on disk
      obtain ⟨hv, rfl⟩ := hold
      have hp : pend (c.buf i).blockno = none := by
        refine Option.eq_none_iff_forall_ne_some.2 fun q hq => ?_
        exact hnoref q (h.pend_holder (h.root hv) hq)
      rw [h.shows hv, h.clean hv hdirty hp]
    · refine h.absent fun j hv hb => ?_
      have hj : j ≠ i := by rintro rfl; exact hold ⟨hv, hb⟩
      exact hb' j (by rw [hbuf j hj]; exact hv) (by rw [hbuf j hj]; exact hb)
  · obtain ⟨j, h1, h2, h3⟩ := h.pend hq
    have hj : j ≠ i := by rintro rfl; exact hnoref q h3
    exact ⟨j, by rw [hbuf j hj]; exact h1, by rw [hbuf j hj]; exact h2, by rw [hbuf j hj]; exact h3⟩

/-- `bread` reads the block from disk. -/
theorem fetch (h : Coherent c m io pend) (hio : io p = .read i) (hv : (c.buf i).valid = false)
    (hdev : (c.buf i).dev = ROOTDEV) :
    Coherent (c.set i { c.buf i with data := m.disk (c.buf i).blockno, valid := true }) m
      (update io p .idle) pend := by
  set c' := c.set i { c.buf i with data := m.disk (c.buf i).blockno, valid := true } with hc
  have hbuf : ∀ j, j ≠ i → c'.buf j = c.buf j := fun j hj => by
    rw [hc, Bcache.set_buf, update_of_ne hj]
  have hbufi : c'.buf i = { c.buf i with data := m.disk (c.buf i).blockno, valid := true } := by
    rw [hc, Bcache.set_buf, update_self]
  have hholder : ∀ j, (c'.buf j).holder = (c.buf j).holder := fun j => Bcache.set_congr Buf.holder (by rfl) j
  have hblock : ∀ j, (c'.buf j).blockno = (c.buf j).blockno :=
    fun j => Bcache.set_congr Buf.blockno (by rfl) j
  have hd : ∀ j, (c'.buf j).dev = (c.buf j).dev := fun j => Bcache.set_congr Buf.dev (by rfl) j
  -- no other valid buffer has the block
  have hmiss : ∀ j, (c.buf j).valid = true → (c.buf j).blockno ≠ (c.buf i).blockno := by
    intro j hvj hb
    rw [h.uniq_root (h.root hvj) hdev hb, hv] at hvj
    cases hvj
  have hmono : ∀ j, (c.buf j).valid = true → (c'.buf j).valid = true := by
    intro j hvj
    by_cases hj : j = i
    · rw [hj, hbufi]
    · rw [hbuf j hj]; exact hvj
  have hlocks := h.locks (p := p) c' .idle (fun _ => by rw [hholder]) (fun {_ j} _ => hmono j)
    (by rintro _ ⟨⟩) fun {j} hj => .inr (by
      rcases h.held ((hholder j).symm.trans hj) with hr | hvj
      · rw [hio, Io.read.injEq] at hr
        rw [← hr, hbufi]
      · exact hmono j hvj)
  refine ⟨h.order, fun {j k} => ?_, h.refs.set_same rfl rfl (Counted.buf?_idle hio rfl), hlocks.1,
    hlocks.2, fun {j} hdj => ?_, fun {j} hvj => ?_, fun {j} hvj => ?_,
    fun {j} hvj => ?_, fun {b} hb => ?_, fun {b q} hq => ?_⟩
  · rw [hd, hd, hblock, hblock]; exact h.uniq
  · by_cases hj : j = i
    · rw [hj, hbufi]
    · rw [hbuf j hj] at hdj ⊢; exact h.dirty hdj
  · by_cases hj : j = i
    · rw [hj, hd, hdev]
    · rw [hbuf j hj] at hvj ⊢; exact h.root hvj
  · by_cases hj : j = i
    · rw [hj, hbufi]; exact fun _ _ => rfl
    · rw [hbuf j hj] at hvj ⊢; exact h.clean hvj
  · by_cases hj : j = i
    · rw [hj, hbufi]; exact h.absent hmiss
    · rw [hbuf j hj] at hvj ⊢; exact h.shows hvj
  · exact h.absent fun j hvj => hblock j ▸ hb j (hmono j hvj)
  · obtain ⟨j, h1, h2, h3⟩ := h.pend hq
    exact ⟨j, hmono j h1, (hblock j).trans h2, (hholder j).trans h3⟩

end Coherent

end Sys

end Xv6
