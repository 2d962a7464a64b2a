/-
  Group commit is atomic: a crash at any point leaves a disk that recovers to
  the updates of whole operations.

  Operations are numbered in the order of their `begin_op`.  A commit starts
  only when no operation is running, so that the operations of the committed
  groups are those below a number that splits no operation.  `Inv` ties the
  disk to the history: before the header write of a commit it recovers to the
  stores of the operations below `done`, from then on to all stores
  (`Inv.recover`).
-/
import Xv6.Log.Group

namespace Xv6

open Function

namespace LogSys

/-- The processes use the log only through operations: they store inside an operation, do
    not call `bwrite`, and pass what they have modified to `log_write` before `end_op`. -/
def Transactional (s : LogSys) (p : ℕ) : LogAct → Prop
  | .store .. => InOp s.proc p
  | .bwrite _ => False
  | .endOp => ∀ b, s.pend b ≠ some p
  | _ => True

/-! ## The invariant -/

/-- The home blocks with the stores of the finished groups. -/
def base (s : LogSys) (d₀ : Disk) : Disk := replay (storesBelow s.done s.stores) d₀

/-- The blocks changed since the last commit are logged, or about to be. -/
def Tracked (s : LogSys) : Prop :=
  ∀ st ∈ s.stores, s.done ≤ st.op → st.b ∈ s.log.lh ∨ s.pend st.b ≠ none

/-- The disk at each position of `commit`. -/
def DiskAt (a : LogArea) (d₀ : Disk) (s : LogSys) : CommitPc → Prop
  | .start => Tracked s ∧ Clean a (s.base d₀) s.mach.disk
  | .writeLog tail => Tracked s ∧ Clean a (s.base d₀) s.mach.disk ∧
      ∀ i (h : i < s.log.lh.length), i < tail →
        s.mach.disk (a.blk (i + 1)) = s.mach.mem s.log.lh[i]
  | .writeHead => Tracked s ∧ Clean a (s.base d₀) s.mach.disk ∧
      ∀ i (h : i < s.log.lh.length), s.mach.disk (a.blk (i + 1)) = s.mach.mem s.log.lh[i]
  | .installTrans tail => Committed a s.log.lh s.mach.mem s.mach.disk ∧
      ∀ i (h : i < s.log.lh.length), i < tail → s.mach.disk s.log.lh[i] = s.mach.mem s.log.lh[i]
  | .clearHead => ∃ t : Trans a, Committed a t.block s.mach.mem s.mach.disk ∧
      HomeEq a s.mach.disk s.mach.mem
  | .finish => Clean a s.mach.mem s.mach.disk

structure Inv (a : LogArea) (d₀ : Disk) (s : LogSys) : Prop extends Sound a s where
  done_le : s.done ≤ s.nops
  running : ∀ {p o}, (s.proc p).op? = some o → s.done ≤ o.id ∧ o.id < s.nops
  stores : ∀ st ∈ s.stores, st.op < s.nops ∧ ¬ a.Mem st.b
  mem : HomeEq a s.mach.mem (replay s.stores d₀)
  pend : ∀ {b p}, s.pend b = some p → InOp s.proc p
  idle : s.log.committing = false → Tracked s ∧ Clean a (s.base d₀) s.mach.disk
  disk : ∀ {p c}, s.proc p = .commit c → DiskAt a d₀ s c

namespace Inv
variable {a : LogArea} {d₀ : Disk} {s s' : LogSys} {p : ℕ}

theorem init (h0 : headN (d₀ a.head) = 0) : Inv a d₀ (init d₀) where
  toSound := .init d₀
  done_le := le_rfl
  running h := by cases h
  stores := by simp [LogSys.init]
  mem _ _ := rfl
  pend h := by cases h
  idle _ := ⟨by simp [Tracked, LogSys.init], h0, fun _ _ => rfl⟩
  disk h := by cases h

/-- While a process is in `commit`, nothing is modified and unlogged. -/
theorem pend_none (h : Inv a d₀ s) {c : CommitPc} (hp : s.proc p = .commit c) (b : BlockNo) :
    s.pend b = none := by
  rcases hb : s.pend b with _ | q
  · rfl
  · have := h.pend hb
    rw [InOp, h.ctl.no_op hp q] at this
    cases this

variable {b : BlockNo} {l : Log} {o : Op} {tail : ℕ}

/-- While a process is in `commit`, the disk of the finished groups differs from what the
    cache shows only in logged blocks. -/
theorem base_eq (h : Inv a d₀ s) (ht : Tracked s) {c : CommitPc} (hp : s.proc p = .commit c)
    (hb : ¬ a.Mem b) (hlh : b ∉ s.log.lh) : s.base d₀ b = s.mach.mem b := by
  rw [h.mem b hb]
  refine replay_storesBelow d₀ fun st hst hsb => ?_
  by_contra hle
  rcases ht st hst (Nat.not_lt.1 hle) with h1 | h1
  · exact hlh (hsb ▸ h1)
  · exact h1 (h.pend_none hp st.b)

/-- A step of an operation, which leaves the disk alone. -/
theorem of_op (h : Inv a d₀ s) {t : LogSys} (ht' : Sound a t)
    (hdone : t.done = s.done) (hnc : s.log.committing = false) (hnc' : t.log.committing = false)
    (hnops : s.nops ≤ t.nops) (hdisk : t.mach.disk = s.mach.disk)
    (hrun : ∀ q o, (t.proc q).op? = some o → (s.proc q).op? ≠ some o →
      s.done ≤ o.id ∧ o.id < t.nops)
    (hst : ∀ st ∈ t.stores, st ∈ s.stores ∨ (s.done ≤ st.op ∧ st.op < t.nops ∧ ¬ a.Mem st.b))
    (hbase : storesBelow s.done t.stores = storesBelow s.done s.stores)
    (hmem : HomeEq a t.mach.mem (replay t.stores d₀))
    (hpend : ∀ b q, t.pend b = some q → InOp t.proc q) (htr : Tracked s → Tracked t) :
    Inv a d₀ t where
  toSound := ht'
  done_le := hdone ▸ h.done_le.trans hnops
  running {q o} hq := by
    rw [hdone]
    by_cases hs : (s.proc q).op? = some o
    · obtain ⟨h1, h2⟩ := h.running hs
      exact ⟨h1, h2.trans_le hnops⟩
    · exact hrun q o hq hs
  stores st hst' := by
    rcases hst st hst' with h1 | ⟨-, h1⟩
    · exact ⟨(h.stores st h1).1.trans_le hnops, (h.stores st h1).2⟩
    · exact h1
  mem := hmem
  pend := fun {b q} => hpend b q
  idle _ := by
    obtain ⟨h1, h2⟩ := h.idle hnc
    rw [base, hdone, hbase, hdisk]
    exact ⟨htr h1, h2⟩
  disk hq := absurd hq (ht'.ctl.no_commit hnc' _ _)

/-- A step of the process in `commit` to another position in `commit`. -/
theorem of_commit (h : Inv a d₀ s) {t : LogSys} {c c' : CommitPc} (ht' : Sound a t)
    (hp : s.proc p = .commit c) (ht : t.proc = update s.proc p (.commit c')) (hdone : t.done = s.done)
    (hnops : t.nops = s.nops) (hst : t.stores = s.stores) (hpend : t.pend = s.pend)
    (hmem : HomeEq a t.mach.mem s.mach.mem) (hd : DiskAt a d₀ t c') : Inv a d₀ t where
  toSound := ht'
  done_le := hdone ▸ hnops ▸ h.done_le
  running {q o} hq := by
    by_cases hqp : q = p
    · subst hqp; rw [ht, update_self] at hq; cases hq
    · rw [ht, update_of_ne hqp, h.ctl.no_op hp q] at hq; cases hq
  stores := hst ▸ hnops ▸ h.stores
  mem b hb := by rw [hmem b hb, hst]; exact h.mem b hb
  pend {b q} hq := by rw [hpend, h.pend_none hp b] at hq; cases hq
  idle hf := by
    rw [ht'.ctl.committing.2 ⟨p, c', by rw [ht, update_self]⟩] at hf
    cases hf
  disk {q c₁} hq := by
    have hqp : q = p := ht'.ctl.unique hq (by rw [ht, update_self])
    subst hqp
    rw [ht, update_self] at hq
    cases hq
    exact hd

/-! ## Steps of operations -/

theorem panic (h : Inv a d₀ s) {e : LogPanic} (hs' : Sound a { s with panic := some e }) :
    Inv a d₀ { s with panic := some e } :=
  ⟨hs', h.done_le, h.running, h.stores,
    h.mem, h.pend, h.idle, fun {_ c} hq => by
      have := h.disk hq
      cases c <;> exact this⟩

theorem beginOp (h : Inv a d₀ s) (hs' : Sound a s') (hp : s.proc p = .out)
    (hl : s.log.beginOp = some l)
    (hs : s' = { s with log := l, nops := s.nops + 1 }.goto p (.op ⟨s.nops, []⟩)) :
    Inv a d₀ s' := by
  obtain ⟨hnc, -, rfl⟩ := Log.beginOp_some hl
  subst hs
  refine h.of_op hs' rfl hnc hnc (Nat.le_succ _) rfl (fun q o hq hs => ?_)
    (fun st hst => .inl hst) rfl h.mem (fun b q hq => ?_) id
  · by_cases hqp : q = p
    · subst hqp
      simp only [goto_proc, update_self, LogPc.op?, Option.some.injEq] at hq
      subst hq
      exact ⟨h.done_le, Nat.lt_succ_self _⟩
    · rw [goto_proc, update_of_ne hqp] at hq
      exact absurd hq hs
  · rw [goto_proc, inOp_update]
    split_ifs
    · rfl
    · exact h.pend hq

theorem store (h : Inv a d₀ s) {f : Block → Block} (hs' : Sound a s') (hp : s.proc p = .op o)
    (hb : ¬ a.Mem b) (hs : s' = { s.store p b f with stores := s.stores ++ [Store.mk o.id b f] }) :
    Inv a d₀ s' := by
  have hop : InOp s.proc p := by simp [InOp, hp, LogPc.op?]
  have hnc := h.ctl.not_committing hop
  obtain ⟨hid, hid'⟩ := h.running (p := p) (by rw [hp]; rfl)
  subst hs
  refine h.of_op hs' rfl hnc hnc le_rfl rfl (fun q o' hq hs => absurd hq hs)
    (fun st hst => ?_) (storesBelow_concat_of_le hid) (fun b' hb' => ?_) (fun b' q hq => ?_)
    (fun ht st hst hle => ?_)
  · rcases List.mem_append.1 hst with h1 | h1
    · exact .inl h1
    · rw [List.mem_singleton.1 h1]
      exact .inr ⟨hid, hid', hb⟩
  · rw [replay_concat]
    change update s.mach.mem b (f (s.mach.mem b)) b' = _
    by_cases hbb : b' = b
    · subst hbb; rw [update_self, update_self, h.mem b' hb']
    · rw [update_of_ne hbb, update_of_ne hbb, h.mem b' hb']
  · change update s.pend b (some p) b' = some q at hq
    by_cases hbb : b' = b
    · subst hbb
      rw [update_self] at hq
      exact Option.some.inj hq ▸ hop
    · rw [update_of_ne hbb] at hq
      exact h.pend hq
  · change _ ∨ update s.pend b (some p) st.b ≠ none
    by_cases hbb : st.b = b
    · rw [hbb, update_self]; exact .inr (by simp)
    · rw [update_of_ne hbb]
      rcases List.mem_append.1 hst with h1 | h1
      · exact ht st h1 hle
      · rw [List.mem_singleton.1 h1] at hbb
        exact absurd rfl hbb

theorem logWrite (h : Inv a d₀ s) (hs' : Sound a s') (hp : s.proc p = .op o)
    (hs : s' = s.goto p (.logWrite o b)) : Inv a d₀ s' := by
  have hop : InOp s.proc p := by simp [InOp, hp, LogPc.op?]
  have hnc := h.ctl.not_committing hop
  subst hs
  refine h.of_op hs' rfl hnc hnc le_rfl rfl (fun q o' hq hs => ?_)
    (fun st hst => .inl hst) rfl h.mem (fun b q hq => ?_) id
  · by_cases hqp : q = p
    · subst hqp
      rw [goto_proc, update_self] at hq
      rw [hp] at hs
      exact absurd hq hs
    · rw [goto_proc, update_of_ne hqp] at hq
      exact absurd hq hs
  · rw [goto_proc, inOp_update]
    split_ifs
    · rfl
    · exact h.pend hq

theorem logAdd (h : Inv a d₀ s) (hs' : Sound a s') (hp : s.proc p = .logWrite o b)
    (hs : s' = (s.logAdd b).goto p (.op { o with logged := o.logged ++ [b] })) : Inv a d₀ s' := by
  have hop : InOp s.proc p := by simp [InOp, hp, LogPc.op?]
  have hnc := h.ctl.not_committing hop
  obtain ⟨hid, hid'⟩ := h.running (p := p) (by rw [hp]; rfl)
  subst hs
  have hlog := Log.logWriteAdd_eq b s.log
  refine h.of_op hs' rfl hnc (by simp [LogSys.logAdd, hlog, hnc]) le_rfl rfl
    (fun q o' hq hs => ?_) (fun st hst => .inl hst) rfl h.mem (fun b' q hq => ?_)
    (fun ht st hst hle => ?_)
  · by_cases hqp : q = p
    · subst hqp
      simp only [goto_proc, update_self, LogPc.op?, Option.some.injEq] at hq
      subst hq
      exact ⟨hid, hid'⟩
    · rw [goto_proc, update_of_ne hqp] at hq
      exact absurd hq hs
  · change update s.pend b none b' = some q at hq
    rw [goto_proc, inOp_update]
    split_ifs
    · rfl
    · by_cases hbb : b' = b
      · subst hbb; rw [update_self] at hq; cases hq
      · rw [update_of_ne hbb] at hq; exact h.pend hq
  · -- the block moves from `pend` to the header
    change st.b ∈ (s.log.logWriteAdd b).lh ∨ update s.pend b none st.b ≠ none
    rw [hlog]
    by_cases hbb : st.b = b
    · refine .inl ?_
      simp only [hbb]
      split_ifs with hm
      · exact hm
      · simp
    · rw [update_of_ne hbb]
      refine (ht st hst hle).imp_left fun hm => ?_
      simp only
      split_ifs
      · exact hm
      · exact List.mem_append_left _ hm

/-- Leaving an operation with nothing modified and unlogged. -/
theorem pend_leave (h : Inv a d₀ s) (hpend : ∀ b, s.pend b ≠ some p) {pc : LogPc} {q : ℕ}
    (hq : s.pend b = some q) : InOp (update s.proc p pc) q := by
  have hqp : q ≠ p := fun heq => hpend b (heq ▸ hq)
  rw [InOp, update_of_ne hqp]
  exact h.pend hq

theorem endOp (h : Inv a d₀ s) (hs' : Sound a s') (hp : s.proc p = .op o)
    (hl : s.log.endOp = .ok (l, false)) (hpend : ∀ b, s.pend b ≠ some p)
    (hs : s' = { s with log := l }.goto p .out) :
    Inv a d₀ s' := by
  obtain ⟨hnc, -, rfl⟩ := Log.endOp_false hl
  subst hs
  refine h.of_op hs' rfl hnc hnc le_rfl rfl (fun q o' hq hs => ?_)
    (fun st hst => .inl hst) rfl h.mem (fun b q hq => h.pend_leave hpend hq) id
  by_cases hqp : q = p
  · subst hqp
    simp [LogPc.op?] at hq
  · rw [goto_proc, update_of_ne hqp] at hq
    exact absurd hq hs

theorem endCommit (h : Inv a d₀ s) (hs' : Sound a s') (hp : s.proc p = .op o)
    (hl : s.log.endOp = .ok (l, true)) (hpend : ∀ b, s.pend b ≠ some p)
    (hs : s' = { s with log := l }.goto p (.commit .start)) :
    Inv a d₀ s' := by
  obtain ⟨hnc, -, rfl⟩ := Log.endOp_true hl
  subst hs
  have htp : update s.proc p (.commit .start) p = .commit .start := update_self ..
  refine ⟨hs', h.done_le, fun {q o'} hq => ?_, h.stores, h.mem,
    fun hq => h.pend_leave hpend hq, fun hf => (by cases hf), fun {q c} hq => ?_⟩
  · by_cases hqp : q = p
    · subst hqp; simp [LogPc.op?] at hq
    · rw [goto_proc, update_of_ne hqp] at hq; exact h.running hq
  · have hqp : q = p := hs'.ctl.unique hq htp
    subst hqp
    rw [goto_proc, update_self] at hq
    cases hq
    exact h.idle hnc

/-! ## Steps of `commit` -/

theorem commitEmpty (h : Inv a d₀ s) (hs' : Sound a s')
    (hp : s.proc p = .commit .start) (hlh : s.log.lh = [])
    (hs : s' = s.goto p (.commit .finish)) : Inv a d₀ s' := by
  obtain ⟨ht, hcl⟩ := h.disk hp
  subst hs
  refine h.of_commit hs' hp rfl rfl rfl rfl rfl (fun _ _ => rfl) ⟨hcl.head, fun b hb => ?_⟩
  exact (hcl.home b hb).trans (h.base_eq ht hp hb (by simp [hlh]))

theorem commitStart (h : Inv a d₀ s) (hs' : Sound a s')
    (hp : s.proc p = .commit .start) (hs : s' = s.goto p (.commit (.writeLog 0))) :
    Inv a d₀ s' := by
  obtain ⟨ht, hcl⟩ := h.disk hp
  subst hs
  exact h.of_commit hs' hp rfl rfl rfl rfl rfl (fun _ _ => rfl)
    ⟨ht, hcl, fun i _ hi => absurd hi (Nat.not_lt_zero i)⟩

theorem writeLog (h : Inv a d₀ s) (hs' : Sound a s')
    (ht : tail < s.log.lh.length) (hp : s.proc p = .commit (.writeLog tail))
    (hs : s' = { s with mach := writeLogBody a s.log.lh[tail] tail s.mach }.goto p
      (.commit (.writeLog (tail + 1)))) : Inv a d₀ s' := by
  obtain ⟨htr, hcl, hw⟩ := h.disk hp
  have hsz := h.fits.room
  have hpos := a.pos
  have hmem := h.fits.blk_mem ht
  subst hs
  refine h.of_commit hs' hp rfl rfl rfl rfl rfl (fun b hb => ?_)
    ⟨htr, ?_, fun i (hi : i < s.log.lh.length) hi' => ?_⟩
  · exact update_of_ne (LogArea.ne_of_not_mem hb hmem).symm _ _
  · have hws : ∀ w ∈ [(a.blk (tail + 1), s.mach.mem s.log.lh[tail])], a.Mem w.1 ∧ w.1 ≠ a.head := by
      intro w hw
      rw [List.mem_singleton.1 hw]
      exact ⟨hmem, LogArea.blk_ne_head (by omega)⟩
    exact hcl.log_writes hws
  · have hne : s.log.lh[i] ≠ a.blk (tail + 1) :=
      (LogArea.ne_of_not_mem (h.copied.home _ (List.getElem_mem hi)) hmem).symm
    change update s.mach.disk _ (s.mach.mem s.log.lh[tail]) (a.blk (i + 1)) =
      update s.mach.mem _ _ s.log.lh[i]
    rw [update_of_ne hne]
    rcases Nat.lt_succ_iff_lt_or_eq.1 hi' with hlt | rfl
    · have hne' : a.blk (i + 1) ≠ a.blk (tail + 1) := fun heq => by
        have := LogArea.blk_inj (a := a) (by omega) (by omega) heq
        omega
      rw [update_of_ne hne']
      exact hw i hi hlt
    · rw [update_self]

theorem writeLogEnd (h : Inv a d₀ s) (hs' : Sound a s') (hp : s.proc p = .commit (.writeLog tail))
    (ht : s.log.lh.length ≤ tail) (hs : s' = s.goto p (.commit .writeHead)) : Inv a d₀ s' := by
  obtain ⟨htr, hcl, hw⟩ := h.disk hp
  subst hs
  exact h.of_commit hs' hp rfl rfl rfl rfl rfl (fun _ _ => rfl)
    ⟨htr, hcl, fun i hi => hw i hi (Nat.lt_of_lt_of_le hi ht)⟩

/-- Writing the header block changes no home block. -/
theorem writeHead_home (s : LogSys) : HomeEq a (Xv6.writeHead a s.log.lh s.mach).mem s.mach.mem :=
  fun _ hb => update_of_ne (LogArea.ne_of_not_mem hb LogArea.head_mem).symm _ _

/-- The commit point. -/
theorem writeHead (h : Inv a d₀ s) (hs' : Sound a s')
    (hp : s.proc p = .commit .writeHead)
    (hs : s' = { s with mach := Xv6.writeHead a s.log.lh s.mach }.goto p
      (.commit (.installTrans 0))) : Inv a d₀ s' := by
  obtain ⟨htr, hcl, hw⟩ := h.disk hp
  have hhome := writeHead_home (a := a) s
  subst hs
  refine h.of_commit hs' hp rfl rfl rfl rfl rfl hhome
    ⟨?_, fun i _ hi => absurd hi (Nat.not_lt_zero i)⟩
  refine Committed.of_log (h.toSound.trans) (s.mach.mem a.head) (fun b hb hlh => ?_)
    fun i hi => ?_
  · exact ((hcl.home b hb).trans (h.base_eq htr hp hb hlh)).trans (hhome b hb).symm
  · exact (hw i hi).trans (hhome _ (h.copied.home _ (List.getElem_mem hi))).symm

theorem install (h : Inv a d₀ s) (hs' : Sound a s')
    (ht : tail < s.log.lh.length) (hp : s.proc p = .commit (.installTrans tail))
    (hs : s' = { s with mach := installTransBody a s.log.lh[tail] tail s.mach }.goto p
      (.commit (.installTrans (tail + 1)))) : Inv a d₀ s' := by
  obtain ⟨hcom, hi⟩ := h.disk hp
  have hpend := h.pend_none hp s.log.lh[tail]
  have hmem := h.copied.install_mem ht hp hpend
  have hblk := h.copied.blocks hp tail ht le_rfl ht hpend
  subst hs
  refine h.of_commit hs' hp rfl rfl rfl rfl rfl (fun b _ => congrFun hmem b)
    ⟨?_, fun i (hi' : i < s.log.lh.length) hit => ?_⟩
  · have hws : ∀ w ∈ [(s.log.lh[tail], s.mach.mem (a.blk (tail + 1)))], w.1 ∈ s.log.lh := by
      intro w hw
      rw [List.mem_singleton.1 hw]
      exact List.getElem_mem ht
    simp only [goto_mach, goto_log, hmem]
    exact Committed.home_writes (t := h.toSound.trans) hcom hws
  · change update s.mach.disk _ (s.mach.mem (a.blk (tail + 1))) s.log.lh[i] =
      (installTransBody a s.log.lh[tail] tail s.mach).mem s.log.lh[i]
    rw [hmem]
    rcases Nat.lt_succ_iff_lt_or_eq.1 hit with hlt | rfl
    · have hne : s.log.lh[i] ≠ s.log.lh[tail] := fun heq => by
        have := (h.grouped.nodup.getElem_inj_iff).1 heq
        omega
      rw [update_of_ne hne]
      exact hi i hi' hlt
    · rw [update_self, hblk]

theorem installEnd (h : Inv a d₀ s) (hs' : Sound a s')
    (hp : s.proc p = .commit (.installTrans tail)) (ht : s.log.lh.length ≤ tail)
    (hs : s' = { s with log := { s.log with lh := [] }, group := [] }.goto p
      (.commit .clearHead)) : Inv a d₀ s' := by
  obtain ⟨hcom, hi⟩ := h.disk hp
  subst hs
  refine h.of_commit hs' hp rfl rfl rfl rfl rfl (fun _ _ => rfl)
    ⟨h.toSound.trans, hcom, fun b hb => ?_⟩
  by_cases hlh : b ∈ s.log.lh
  · obtain ⟨i, hi', rfl⟩ := List.getElem_of_mem hlh
    exact hi i hi' (Nat.lt_of_lt_of_le hi' ht)
  · exact hcom.home b hb hlh

theorem clearHead (h : Inv a d₀ s) (hs' : Sound a s')
    (hp : s.proc p = .commit .clearHead)
    (hs : s' = { s with mach := Xv6.writeHead a s.log.lh s.mach }.goto p
      (.commit .finish)) : Inv a d₀ s' := by
  obtain ⟨t, -, hhome⟩ := h.disk hp
  have hlh := h.ctl.erased (.inl hp)
  have hmem := writeHead_home (a := a) s
  subst hs
  refine h.of_commit hs' hp rfl rfl rfl rfl rfl hmem ?_
  change Clean a _ (update s.mach.disk a.head (encodeHead s.log.lh (s.mach.mem a.head)))
  rw [hlh] at hmem ⊢
  exact Clean.clear (fun b hb => (hhome b hb).trans (hmem b hb).symm) _

theorem finish (h : Inv a d₀ s) (hs' : Sound a s')
    (hp : s.proc p = .commit .finish)
    (hs : s' = { s with log := s.log.commitDone, done := s.nops }.goto p .out) : Inv a d₀ s' := by
  have hcl : Clean a s.mach.mem s.mach.disk := h.disk hp
  subst hs
  refine ⟨hs', le_rfl, fun {q o} hq => ?_, h.stores, h.mem, fun {b q} hq => ?_,
    fun _ => ⟨fun st hst hle => ?_, hcl.head, fun b hb => ?_⟩, fun {q c} hq => ?_⟩
  · by_cases hqp : q = p
    · subst hqp; simp [LogPc.op?] at hq
    · rw [goto_proc, update_of_ne hqp, h.ctl.no_op hp q] at hq; cases hq
  · exact absurd (hq.symm.trans (h.pend_none hp b)) (by simp)
  · exact absurd hle (Nat.not_le.2 (h.stores st hst).1)
  · -- all operations begun so far have ended, and their stores are on disk
    refine ((hcl.home b hb).trans (h.mem b hb)).trans ?_
    exact congrArg (replay · d₀ b) (storesBelow_eq_self fun st hst => (h.stores st hst).1).symm
  · exact absurd hq (hs'.ctl.no_commit rfl q c)

theorem step (h : Inv a d₀ s) {x : LogAct} (hl : Legal a s p x) (ht : Transactional s p x)
    (hs : Stepped a s p x s') (hf : Fits a s') : Inv a d₀ s' := by
  have hs' := h.toSound.step hl hs hf
  cases hs with
  | beginOp hp hb => exact h.beginOp hs' hp hb rfl
  | storeOut b f hp =>
    rw [Transactional, InOp, hp] at ht
    cases ht
  | storeOp b f hp => exact h.store hs' hp hl rfl
  | logPanic | endPanic => exact h.panic hs'
  | logWrite b hp he => exact h.logWrite hs' hp rfl
  | logAdd hp => exact h.logAdd hs' hp rfl
  | bwrite b => exact ht.elim
  | endCommit hp he => exact h.endCommit hs' hp he ht rfl
  | endOp hp he => exact h.endOp hs' hp he ht rfl
  | commitEmpty hp hlh => exact h.commitEmpty hs' hp hlh rfl
  | commitStart hp => exact h.commitStart hs' hp rfl
  | writeLog ht' hp => exact h.writeLog hs' ht' hp rfl
  | writeLogEnd hp ht' => exact h.writeLogEnd hs' hp ht' rfl
  | writeHead hp => exact h.writeHead hs' hp rfl
  | install ht' hp => exact h.install hs' ht' hp rfl
  | installEnd hp ht' => exact h.installEnd hs' hp ht' rfl
  | clearHead hp => exact h.clearHead hs' hp rfl
  | finish hp => exact h.finish hs' hp rfl

/-! ## Recovery -/

/-- What is on disk: the stores of the finished groups, or all stores while no operation is
    running; in the second case possibly still in the log. -/
theorem disk_cases (h : Inv a d₀ s) : Clean a (s.base d₀) s.mach.disk ∨
    ((∀ q, (s.proc q).op? = none) ∧ (Clean a s.mach.mem s.mach.disk ∨
      ∃ t : Trans a, Committed a t.block s.mach.mem s.mach.disk)) := by
  rcases hcm : s.log.committing with _ | _
  · exact .inl (h.idle hcm).2
  obtain ⟨p, c, hp⟩ := h.ctl.committing.1 hcm
  have hno := h.ctl.no_op hp
  have hd := h.disk hp
  cases c with
  | start => exact .inl hd.2
  | writeLog | writeHead => exact .inl hd.2.1
  | installTrans tail => exact .inr ⟨hno, .inr ⟨h.toSound.trans, hd.1⟩⟩
  | clearHead => exact .inr ⟨hno, .inr (hd.imp fun t ht => ht.1)⟩
  | finish => exact .inr ⟨hno, .inl hd⟩

/-- **The disk recovers to whole operations**: those below some number `k`, which is at
    least that of the finished groups and does not reach a running operation. -/
theorem recover (h : Inv a d₀ s) : ∃ m, recoverFromLog a (.boot s.mach.disk) = some m ∧
    ∃ k, s.done ≤ k ∧ k ≤ s.nops ∧ (∀ q o, (s.proc q).op? = some o → k ≤ o.id) ∧
      HomeEq a m.disk (replay (storesBelow k s.stores) d₀) := by
  have hall : storesBelow s.nops s.stores = s.stores :=
    storesBelow_eq_self fun st hst => (h.stores st hst).1
  rcases h.disk_cases with hcl | ⟨hno, hcl⟩
  · obtain ⟨m, hm, hm', -⟩ := hcl.recover
    exact ⟨m, hm, s.done, le_rfl, h.done_le, fun q o hq => (h.running hq).1, hm'.home⟩
  · have hm : ∃ m, recoverFromLog a (.boot s.mach.disk) = some m ∧ Clean a s.mach.mem m.disk := by
      rcases hcl with hcl | ⟨t, hcom⟩
      · obtain ⟨m, hm, hm', -⟩ := hcl.recover
        exact ⟨m, hm, hm'⟩
      · obtain ⟨m, hm, hm', -⟩ := hcom.recover
        exact ⟨m, hm, hm'⟩
    obtain ⟨m, hm, hm'⟩ := hm
    refine ⟨m, hm, s.nops, h.done_le, le_rfl, fun q o hq => ?_, fun b hb => ?_⟩
    · rw [hno q] at hq; cases hq
    · rw [hall, hm'.home b hb, h.mem b hb]

end Inv

end LogSys

end Xv6
