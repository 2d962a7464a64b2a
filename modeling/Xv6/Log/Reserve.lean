/-
  The space reserved in the log (`log.c`).

  `begin_op` admits an operation when `log.lh.n` and `MAXOPBLOCKS` blocks for
  each running operation and the new one add up to at most `LOGSIZE`.  But
  `mkfs` makes a log of `LOGSIZE` blocks including the header block, and
  `log_write` refuses to work when `log.lh.n` has reached `log.size - 1`: three
  operations that use their full budget run into
  `panic("too big a transaction")`.  One block less per operation is safe
  (`Room`).

  `log_write` makes its tests before it takes `log.lock`.  Two processes can
  both pass them when there is room for one block, and the header then lists
  more blocks than the log area has.  The log stays within its area when the
  blocks on their way into the header are counted as well (`Holds`).
-/
import Xv6.Log.Group

namespace Xv6

open Count Function Transition

namespace LogSys

/-- The states the log reaches on some disk, in runs whose steps satisfy `G`. -/
def Runs (a : LogArea) (G : LogSys → ℕ → LogAct → Prop) : LogSys → Prop :=
  Reach (fun s => ∃ d, s = init d)
    fun s (x : ℕ × LogAct) s' => G s x.1 x.2 ∧ s.next a x.1 x.2 = some s'

/-- Every operation passes at most `k` distinct block numbers to `log_write`. -/
def Budget (k : ℕ) (s : LogSys) (p : ℕ) : LogAct → Prop
  | .logWrite b => ∀ o ∈ (s.proc p).op?, (o.logged ++ [b]).toFinset.card ≤ k
  | _ => True

instance (k : ℕ) (s : LogSys) (p : ℕ) : DecidablePred (Budget k s p)
  | .logWrite _ => inferInstanceAs (Decidable (∀ o ∈ (s.proc p).op?, _ ≤ k))
  | .beginOp | .store .. | .logAdd | .bwrite _ | .endOp | .commit => .isTrue trivial

/-! ## Operations with a smaller budget -/

/-- What is left of a budget of `k` blocks. -/
def unused (k : ℕ) (pc : LogPc) : ℤ :=
  match pc.op? with
  | some o => k - o.logged.toFinset.card
  | none => 0

theorem unused_some {k : ℕ} {pc : LogPc} {o : Op} (h : pc.op? = some o) :
    unused k pc = k - o.logged.toFinset.card := by simp only [unused, h]

theorem unused_none {k : ℕ} {pc : LogPc} (h : pc.op? = none) : unused k pc = 0 := by
  simp only [unused, h]

theorem unused_le (k : ℕ) (pc : LogPc) : unused k pc ≤ k := by
  rcases h : pc.op? with _ | o
  · rw [unused_none h]; omega
  · rw [unused_some h]; omega

/-- The blocks in the header and the unused budgets of `k` blocks leave room for one more
    block in a log made by `mkfs`. -/
structure Room (k : ℕ) (s : LogSys) : Prop where
  logged : ∀ {p o}, (s.proc p).op? = some o → ∀ b ∈ o.logged, b ∈ s.log.lh
  used : ∀ {p o}, (s.proc p).op? = some o → o.logged.toFinset.card ≤ k
  adding : ∀ {p o b}, s.proc p = .logWrite o b → (o.logged ++ [b]).toFinset.card ≤ k
  room : ∃ n, Total (unused k ∘ s.proc) n ∧ s.log.lh.length + n ≤ LOGSIZE - 2
  panic : s.panic ≠ some .tooBig

namespace Room
variable {k : ℕ} {s s' : LogSys} {p : ℕ}

theorem init (k : ℕ) (d : Disk) : Room k (init d) where
  logged h := by cases h
  used h := by cases h
  adding h := by cases h
  room := ⟨0, Total.zero fun _ => rfl, by simp [LogSys.init, Log.init]⟩
  panic h := by cases h

theorem unused_nonneg (h : Room k s) (p : ℕ) : 0 ≤ unused k (s.proc p) := by
  rcases hp : (s.proc p).op? with _ | o
  · rw [unused_none hp]
  · have := h.used hp
    rw [unused_some hp]
    omega

/-- The header is never full. -/
theorem length_le (h : Room k s) : (s.log.lh.length : ℤ) ≤ LOGSIZE - 2 := by
  obtain ⟨n, hn, hle⟩ := h.room
  have h0 : 0 ≤ n := hn.nonneg h.unused_nonneg
  omega

variable {t : LogSys}

/-- Process `p` goes to `pc`. -/
theorem of_pc (h : Room k s) {pc : LogPc} (ht : t.proc = update s.proc p pc)
    (hlh : ∀ {q o}, (s.proc q).op? = some o → ∀ b ∈ o.logged, b ∈ t.log.lh)
    (hlog : ∀ {o}, pc.op? = some o → (∀ b ∈ o.logged, b ∈ t.log.lh) ∧ o.logged.toFinset.card ≤ k)
    (hadd : ∀ {o b}, pc = .logWrite o b → (o.logged ++ [b]).toFinset.card ≤ k)
    (hroom : ∀ n, Total (unused k ∘ s.proc) n → s.log.lh.length + n ≤ LOGSIZE - 2 →
      t.log.lh.length + (n - unused k (s.proc p) + unused k pc) ≤ LOGSIZE - 2)
    (hpan : t.panic ≠ some .tooBig) : Room k t := by
  have hproc : ∀ q, t.proc q = if q = p then pc else s.proc q := fun q => by
    rw [ht, update_apply]
  obtain ⟨n, hn, hle⟩ := h.room
  refine ⟨fun {q o} hq => ?_, fun {q o} hq => ?_, fun {q o b} hq => ?_,
    ⟨n - unused k (s.proc p) + unused k pc, ?_, hroom n hn hle⟩, hpan⟩
  · rw [hproc] at hq
    split_ifs at hq
    · exact (hlog hq).1
    · exact hlh hq
  · rw [hproc] at hq
    split_ifs at hq
    · exact (hlog hq).2
    · exact h.used hq
  · rw [hproc] at hq
    split_ifs at hq
    · exact hadd hq
    · exact h.adding hq
  · rw [ht, Function.comp_update]
    exact hn.update p (unused k pc)

/-- A step that changes nothing of this. -/
theorem frame (h : Room k s) (ht : t.proc = s.proc) (hl : t.log = s.log)
    (hpan : t.panic ≠ some .tooBig) : Room k t := by
  obtain ⟨h1, h2, h3, h4, -⟩ := h
  exact ⟨ht ▸ hl ▸ h1, ht ▸ h2, ht ▸ h3, ht ▸ hl ▸ h4, hpan⟩

/-- Process `p` goes on without an operation; one that it had gives back what it did not use. -/
theorem of_none (h : Room k s) {pc : LogPc} (ht : t.proc = update s.proc p pc)
    (hpc : pc.op? = none)
    (hlh : ∀ {q o}, (s.proc q).op? = some o → ∀ b ∈ o.logged, b ∈ t.log.lh)
    (hlen : t.log.lh.length ≤ s.log.lh.length) (hpan : t.panic ≠ some .tooBig) : Room k t := by
  refine h.of_pc ht hlh (fun ho => ?_) (fun heq => ?_) (fun n _ hn => ?_) hpan
  · rw [hpc] at ho; cases ho
  · rw [heq] at hpc; cases hpc
  · have := h.unused_nonneg p
    rw [unused_none hpc]
    omega

/-- **A budget of one block less than reserved**: the header never fills up. -/
theorem step (h : Room (MAXOPBLOCKS - 1) s) (hctl : Ctl s) {x : LogAct}
    (hb : Budget (MAXOPBLOCKS - 1) s p x) (hpan : s.panic = none)
    (hs : Stepped mkfsLog s p x s') : Room (MAXOPBLOCKS - 1) s' := by
  have hpan' : s.panic ≠ some .tooBig := by rw [hpan]; rintro ⟨⟩
  cases hs with
  | beginOp hp hl =>
    obtain ⟨hc, hres, rfl⟩ := Log.beginOp_some hl
    refine h.of_pc rfl h.logged (fun ho => ?_) (fun heq => by cases heq) (fun n hn hle => ?_) hpan'
    · simp only [LogPc.op?, Option.some.injEq] at ho
      subst ho
      exact ⟨by simp, by simp⟩
    · -- the budgets of the operations that are already running
      have hn' : n ≤ s.log.outstanding * (MAXOPBLOCKS - 1 : ℕ) :=
        hn.le_mul hctl.active (fun q _ => unused_le _ _) fun q hq => unused_none (by simpa [InOp] using hq)
      have h0 : 0 ≤ s.log.outstanding := by
        obtain ⟨S, -, hS⟩ := hctl.active
        omega
      have hidle := hctl.idle hc
      simp only [LOGSIZE, MAXOPBLOCKS, hp, unused, LogPc.op?, goto_log] at hres hn' ⊢
      rcases h0.eq_or_lt with h1 | h1
      · rw [hidle h1.symm]
        simp only [List.toFinset_nil, Finset.card_empty, List.length_nil]
        omega
      · simp only [List.toFinset_nil, Finset.card_empty]
        omega
  | storeOut | storeOp | bwrite => exact h.frame rfl rfl hpan'
  | logPanic b hp he =>
    refine h.frame rfl rfl fun heq => ?_
    obtain rfl := Option.some.inj heq
    have hlen := h.length_le
    have := Log.logWriteTest_tooBig.1 he
    simp only [LOGSIZE, MAXOPBLOCKS, mkfsLog] at hlen this
    omega
  | @logWrite o b hp he =>
    have hop : (s.proc p).op? = some o := by rw [hp]; rfl
    refine h.of_pc rfl h.logged (fun ho => ?_) (fun heq => ?_) (fun n _ hn => ?_) hpan'
    · cases ho; exact ⟨h.logged hop, h.used hop⟩
    · cases heq; exact hb o hop
    · simp only [hp, unused, LogPc.op?, goto_log]
      omega
  | @logAdd o b hp =>
    have hop : (s.proc p).op? = some o := by rw [hp]; rfl
    have hlog := Log.logWriteAdd_eq b s.log
    have hsub : ∀ b', b' ∈ s.log.lh ∨ b' = b → b' ∈ (s.log.logWriteAdd b).lh := by
      rintro b' (hb' | rfl) <;> rw [hlog] <;> simp only <;> split_ifs <;> simp_all
    refine h.of_pc rfl (fun hq b' hb' => hsub b' (.inl (h.logged hq b' hb'))) (fun ho => ?_)
      (fun heq => by cases heq) (fun n _ hn => ?_) hpan'
    · cases ho
      refine ⟨fun b' hb' => ?_, h.adding hp⟩
      rcases List.mem_append.1 hb' with hb' | hb'
      · exact hsub b' (.inl (h.logged hop b' hb'))
      · exact hsub b' (.inr (List.mem_singleton.1 hb'))
    · simp only [hp, unused, LogPc.op?, goto_log, LogSys.logAdd, hlog]
      have hmono : o.logged.toFinset.card ≤ (o.logged ++ [b]).toFinset.card :=
        Finset.card_le_card fun b' hb' => by simp_all
      split_ifs with hmem
      · omega
      · -- a block that is new in the header is new for the operation
        have hnew : b ∉ o.logged := fun hb' => hmem (h.logged hop b hb')
        have hcard : (o.logged ++ [b]).toFinset.card = o.logged.toFinset.card + 1 := by
          rw [List.toFinset_append, List.toFinset_cons, List.toFinset_nil, insert_empty_eq,
            Finset.union_comm, ← Finset.insert_eq, Finset.card_insert_of_notMem (by simpa using hnew)]
        simp only [List.length_append, List.length_singleton]
        omega
  | endPanic hp he =>
    refine h.frame rfl rfl fun heq => ?_
    obtain rfl := Option.some.inj heq
    cases (Log.endOp_error he).1
  | endCommit hp he =>
    obtain ⟨-, -, rfl⟩ := Log.endOp_true he
    exact h.of_none rfl rfl h.logged le_rfl hpan'
  | endOp hp he =>
    obtain ⟨-, -, rfl⟩ := Log.endOp_false he
    exact h.of_none rfl rfl h.logged le_rfl hpan'
  | commitEmpty | commitStart | writeLog | writeLogEnd | writeHead | install | clearHead | finish =>
    exact h.of_none rfl rfl h.logged le_rfl hpan'
  | installEnd hp =>
    -- the header is cleared when no operation runs
    refine h.of_none rfl rfl (fun hq => ?_) (Nat.zero_le _) hpan'
    rw [hctl.no_op hp] at hq
    cases hq

end Room

variable {a : LogArea} {s : LogSys}

theorem Runs.grouped {G : LogSys → ℕ → LogAct → Prop} (h : Runs a G s) : Grouped s :=
  h.inv (fun _ ⟨d, hd⟩ => hd ▸ Grouped.init d) fun _ _ _ hs hx => hs.step (next_stepped hx.2).2

theorem Runs.mono {G G' : LogSys → ℕ → LogAct → Prop} (h : Runs a G s)
    (hG : ∀ s p x, G s p x → G' s p x) : Runs a G' s := by
  induction h with
  | init hs => exact .init hs
  | step _ hs ih => exact .step ih ⟨hG _ _ _ hs.1, hs.2⟩

/-- With a log made by `mkfs`, `log_write` gives up when `LOGSIZE - 1` distinct blocks have been
    passed to it since the last commit. -/
theorem logWrite_panic_iff {s s' : LogSys} {p : ℕ} {b : BlockNo} (hg : Grouped s)
    (h : s.next mkfsLog p (.logWrite b) = some s') :
    s'.panic = some .tooBig ↔ LOGSIZE - 1 ≤ s.group.toFinset.card := by
  have hlen := hg.length_eq
  obtain ⟨hpan, hs⟩ := next_stepped h
  cases hs with
  | logPanic b hp he =>
    rw [Option.some.injEq]
    constructor
    · rintro rfl
      have := Log.logWriteTest_tooBig.1 he
      simp only [LOGSIZE, MAXOPBLOCKS, mkfsLog] at this ⊢
      omega
    · intro hle
      have hbig : s.log.logWriteTest mkfsLog.size = .error .tooBig :=
        Log.logWriteTest_tooBig.2 (.inr (by simp only [LOGSIZE, MAXOPBLOCKS, mkfsLog] at hle ⊢; omega))
      exact Except.error.inj (he.symm.trans hbig)
  | logWrite b hp he =>
    have := Log.logWriteTest_ok he
    rw [goto_panic, hpan]
    simp only [LOGSIZE, MAXOPBLOCKS, mkfsLog] at this ⊢
    exact ⟨by rintro ⟨⟩, fun hle => by omega⟩

/-- Process `p` passes `n` consecutive block numbers to `log_write`. -/
def logRange (p lo n : ℕ) : List (ℕ × LogAct) :=
  (List.range n).flatMap fun i => [(p, .logWrite (UInt32.ofNat (lo + i))), (p, .logAdd)]

/-- A run on an empty disk. -/
def Runs.ofRun {G : LogSys → ℕ → LogAct → Prop} [∀ s p, DecidablePred (G s p)] {P : LogSys → Bool}
    (xs : List (ℕ × LogAct)) (h : (run (fun s x =>
      if G s x.1 x.2 then s.next mkfsLog x.1 x.2 else none) (init fun _ _ => 0) xs).any P = true) :
    Reached (Runs mkfsLog G) P :=
  Reached.ofRun _ (fun s x s' h => by split_ifs at h with hb; exact ⟨hb, h⟩)
    ⟨_, rfl⟩ xs h

/-- Three operations are admitted; they pass ten, ten and nine blocks to `log_write`. -/
def tooBigEnd : Reached (Runs mkfsLog (Budget MAXOPBLOCKS))
    fun s => s.panic = some .tooBig :=
  Runs.ofRun ([(0, .beginOp), (1, .beginOp), (2, .beginOp)] ++ logRange 0 100 10 ++
    logRange 1 110 10 ++ logRange 2 120 9 ++ [(2, .logWrite 129)]) (by decide +kernel)

/-- **The reservation is one block short.**  Three operations are admitted; they pass ten, ten
    and nine blocks to `log_write`, and the tenth call of the third one panics. -/
theorem reservation_too_small :
    ∃ s, Runs mkfsLog (Budget MAXOPBLOCKS) s ∧ s.panic = some .tooBig := by
  obtain ⟨s, hs, hp⟩ := tooBigEnd
  exact ⟨s, hs, by simpa using hp⟩

/-- **When the reservation suffices.**  `log_write` panics exactly when it is called after
    `LOGSIZE - 1` distinct blocks have been passed to it since the last commit.  In particular it
    never does in a run without such calls, and a budget of `MAXOPBLOCKS - 1` distinct blocks per
    operation makes sure that there are none. -/
theorem reservation_suffices (s : LogSys) :
    (Runs mkfsLog (fun _ _ _ => True) s → ∀ s' p b, s.next mkfsLog p (.logWrite b) = some s' →
      (s'.panic = some .tooBig ↔ LOGSIZE - 1 ≤ s.group.toFinset.card)) ∧
    (Runs mkfsLog (fun s _ x => ∀ b, x = .logWrite b → s.group.toFinset.card < LOGSIZE - 1) s →
      s.panic ≠ some .tooBig) ∧
    (Runs mkfsLog (Budget (MAXOPBLOCKS - 1)) s →
      s.panic ≠ some .tooBig ∧ s.group.toFinset.card < LOGSIZE - 1) := by
  refine ⟨fun h s' p b hn => logWrite_panic_iff h.grouped hn, fun h => ?_, fun h => ?_⟩
  · refine (h.inv (I := fun s => Grouped s ∧ s.panic ≠ some .tooBig)
      (fun s ⟨d, hd⟩ => hd ▸ ⟨.init d, by rintro ⟨⟩⟩) fun s x s' hs hx => ?_).2
    obtain ⟨hcond, hn⟩ := hx
    obtain ⟨hpan, hst⟩ := next_stepped hn
    refine ⟨hs.1.step hst, ?_⟩
    rcases x with ⟨p, x⟩
    cases hst with
    | logPanic b hp he =>
      exact fun hbig => absurd ((logWrite_panic_iff hs.1 hn).1 hbig) (Nat.not_le.2 (hcond b rfl))
    | endPanic hp he => rw [(Log.endOp_error he).1]; rintro ⟨⟩
    | beginOp | storeOut | storeOp | logWrite | logAdd | bwrite | endCommit | endOp | commitEmpty
    | commitStart | writeLog | writeLogEnd | writeHead | install | installEnd | clearHead
    | finish => exact hs.2
  · obtain ⟨hctl, hroom⟩ := h.inv (I := fun s => Ctl s ∧ Room (MAXOPBLOCKS - 1) s)
      (fun s ⟨d, hd⟩ => hd ▸ ⟨.init d, .init _ d⟩) fun s x s' hs hx => by
        obtain ⟨hpan, hst⟩ := next_stepped hx.2
        exact ⟨hs.1.step hst, hs.2.step hs.1 hx.1 hpan hst⟩
    have hlen := hroom.length_le
    rw [h.grouped.length_eq] at hlen
    exact ⟨hroom.panic, by simp only [LOGSIZE, MAXOPBLOCKS] at hlen ⊢; omega⟩

/-- Three operations pass nine blocks each to `log_write`. -/
def nineEnd : Reached (Runs mkfsLog (Budget (MAXOPBLOCKS - 1))) fun s =>
    s.log.lh.length = 27 ∧ (s.next mkfsLog 2 (.logWrite 128)).isSome :=
  Runs.ofRun ([(0, .beginOp), (1, .beginOp), (2, .beginOp)] ++ logRange 0 100 9 ++
    logRange 1 110 9 ++ logRange 2 120 9) (by decide +kernel)

/-- There is room for one more block. -/
theorem reservation_suffices_nine : ∃ s s' : LogSys,
    Runs mkfsLog (Budget (MAXOPBLOCKS - 1)) s ∧ s.log.lh.length = 27 ∧ s.panic ≠ some .tooBig ∧
      s.next mkfsLog 2 (.logWrite 128) = some s' ∧ s'.panic ≠ some .tooBig := by
  obtain ⟨s, hs, hp⟩ := nineEnd
  obtain ⟨hlen, hn⟩ := of_decide_eq_true hp
  obtain ⟨s', hn⟩ := Option.isSome_iff_exists.1 hn
  obtain ⟨h1, -, h3⟩ := reservation_suffices s
  have hall : Runs mkfsLog (fun _ _ _ => True) s := hs.mono fun _ _ _ _ => trivial
  obtain ⟨hpan, hlt⟩ := h3 hs
  exact ⟨s, s', hs, hlen, hpan, hn, fun h => absurd ((h1 hall s' 2 128 hn).1 h) (by omega)⟩

/-! ## The bound test is made outside the lock -/

/-- The blocks `F` fit in the log.  Among them are those in the header and those that have passed
    the tests of `log_write` and are on their way into it. -/
structure Holds (a : LogArea) (s : LogSys) (F : Finset BlockNo) : Prop where
  header : ∀ b ∈ s.log.lh, b ∈ F
  adding : ∀ {p o b}, s.proc p = .logWrite o b → b ∈ F
  array : F.card ≤ LOGSIZE
  room : F.card ≤ a.size - 1

/-- The tests of `log_write` are passed only if the block fits in the log together with all blocks
    in the header and on their way into it. -/
def Spaced (a : LogArea) (s : LogSys) (_ : ℕ) : LogAct → Prop
  | .logWrite b => s.log.logWriteTest a.size = .ok () → ∃ F, Holds a s F ∧ b ∈ F
  | _ => True

namespace Holds
variable {a : LogArea} {s s' : LogSys} {p : ℕ} {F : Finset BlockNo}

theorem init (d : Disk) (hF : F.card ≤ LOGSIZE) (hroom : F.card ≤ a.size - 1) :
    Holds a (init d) F :=
  ⟨by simp [LogSys.init, Log.init], by rintro _ _ _ ⟨⟩, hF, hroom⟩

/-- Process `p` goes to `pc`. -/
theorem of_pc (h : Holds a s F) {t : LogSys} {pc : LogPc}
    (ht : t.proc = update s.proc p pc) (hpc : ∀ o b, pc = .logWrite o b → b ∈ F)
    (hlh : ∀ b ∈ t.log.lh, b ∈ F) : Holds a t F := by
  refine ⟨hlh, fun {q o b} hq => ?_, h.array, h.room⟩
  rw [ht, update_apply] at hq
  split_ifs at hq
  · exact hpc o b hq
  · exact h.adding hq

theorem step (h : Holds a s F) {x : LogAct}
    (hx : ∀ b, x = .logWrite b → s.log.logWriteTest a.size = .ok () → b ∈ F)
    (hs : Stepped a s p x s') : Holds a s' F := by
  cases hs with
  | storeOut | storeOp | logPanic | bwrite | endPanic => exact ⟨h.header, h.adding, h.array, h.room⟩
  | logWrite b hp he => exact h.of_pc rfl (by rintro _ _ ⟨⟩; exact hx b rfl he) h.header
  | @logAdd o b hp =>
    refine h.of_pc rfl (by rintro _ _ ⟨⟩) fun b' hb' => ?_
    rw [goto_log, LogSys.logAdd, Log.logWriteAdd_eq] at hb'
    simp only at hb'
    split_ifs at hb'
    · exact h.header b' hb'
    · rcases List.mem_append.1 hb' with hb' | hb'
      · exact h.header b' hb'
      · exact List.mem_singleton.1 hb' ▸ h.adding hp
  | beginOp hp hl =>
    obtain ⟨-, -, rfl⟩ := Log.beginOp_some hl
    exact h.of_pc rfl (by rintro _ _ ⟨⟩) h.header
  | endCommit hp he =>
    obtain ⟨-, -, rfl⟩ := Log.endOp_true he
    exact h.of_pc rfl (by rintro _ _ ⟨⟩) h.header
  | endOp hp he =>
    obtain ⟨-, -, rfl⟩ := Log.endOp_false he
    exact h.of_pc rfl (by rintro _ _ ⟨⟩) h.header
  | installEnd => exact h.of_pc rfl (by rintro _ _ ⟨⟩) (by rintro _ ⟨⟩)
  | commitEmpty | commitStart | writeLog | writeLogEnd | writeHead | install | clearHead | finish =>
    exact h.of_pc rfl (by rintro _ _ ⟨⟩) h.header

end Holds

theorem Runs.holds (h : Runs a (Spaced a) s) : ∃ F, Holds a s F := by
  refine h.inv (I := fun s => ∃ F, Holds a s F) (fun s ⟨d, hd⟩ => hd ▸ ⟨∅, .init d (by simp) (by simp)⟩) ?_
  rintro s ⟨p, x⟩ s' ⟨F, hF⟩ ⟨hx, hn⟩
  by_cases hb : ∃ b, x = .logWrite b ∧ s.log.logWriteTest a.size = .ok ()
  · obtain ⟨b, rfl, he⟩ := hb
    obtain ⟨G, hG, hb⟩ := hx he
    exact ⟨G, hG.step (by rintro _ ⟨⟩ _; exact hb) (next_stepped hn).2⟩
  · exact ⟨F, hF.step (fun b hx he => absurd ⟨b, hx, he⟩ hb) (next_stepped hn).2⟩

/-- Only the blocks `F` are passed to `log_write`. -/
def Only (F : Finset BlockNo) (_ : LogSys) (_ : ℕ) : LogAct → Prop
  | .logWrite b => b ∈ F
  | _ => True

instance (F : Finset BlockNo) (s : LogSys) (p : ℕ) : DecidablePred (Only F s p)
  | .logWrite b => inferInstanceAs (Decidable (b ∈ F))
  | .beginOp | .store .. | .logAdd | .bwrite _ | .endOp | .commit => .isTrue trivial

theorem Runs.spaced {F : Finset BlockNo} (h : Runs a (Only F) s) (hF : F.card ≤ LOGSIZE)
    (hroom : F.card ≤ a.size - 1) : Runs a (Spaced a) s := by
  suffices hs : Runs a (Spaced a) s ∧ Holds a s F from hs.1
  induction h with
  | init hs =>
    obtain ⟨d, rfl⟩ := hs
    exact ⟨.init ⟨d, rfl⟩, .init d hF hroom⟩
  | @step s s' x _ hs ih =>
    obtain ⟨p, x⟩ := x
    obtain ⟨hx, hn⟩ := hs
    refine ⟨.step ih.1 ⟨?_, hn⟩, ih.2.step (by rintro b rfl _; exact hx) (next_stepped hn).2⟩
    cases x with
    | logWrite b => exact fun _ => ⟨F, ih.2, hx⟩
    | beginOp | store | logAdd | bwrite | endOp | commit => trivial

/-- Two processes pass the tests of `log_write` before either of them inserts its block. -/
def overflowEnd : Reached (Runs mkfsLog (Budget MAXOPBLOCKS)) fun s =>
    mkfsLog.size - 1 < s.log.lh.length :=
  Runs.ofRun ([(0, .beginOp), (1, .beginOp), (2, .beginOp)] ++ logRange 0 100 9 ++ logRange 1 110 9 ++
    logRange 2 120 10 ++ [(0, .logWrite 109), (1, .logWrite 119), (0, .logAdd), (1, .logAdd)])
    (by decide +kernel)

/-- **Two processes pass the test for one free block.**  With 28 blocks in the header, processes
    `0` and `1` pass the tests of `log_write` before either of them inserts its block.  The
    header then lists 30 blocks, and the log area has 29 for them. -/
theorem log_overflows : ∃ s, Runs mkfsLog (Budget MAXOPBLOCKS) s ∧
    mkfsLog.size - 1 < s.log.lh.length := by
  obtain ⟨s, hs, hp⟩ := overflowEnd
  exact ⟨s, hs, of_decide_eq_true hp⟩

/-- **When the log stays within its area.**  If the tests of `log_write` are passed only while
    there is room for all blocks on their way into the header, then the header fits, `write_log`
    writes only the blocks of the log behind the header block, and `log.lh.block` is never
    indexed out of range. -/
theorem log_within_area {a : LogArea} {s : LogSys} (h : Runs a (Spaced a) s) :
    s.log.lh.length ≤ LOGSIZE ∧ s.log.lh.length ≤ a.size - 1 ∧
      (∀ p tail, s.proc p = .commit (.writeLog tail) → tail < s.log.lh.length →
        a.start + 1 ≤ (a.blk (tail + 1)).toNat ∧
        (a.blk (tail + 1)).toNat ≤ a.start + a.size - 1) ∧
      ∀ p o b, s.proc p = .logWrite o b → s.log.lh.idxOf b < LOGSIZE := by
  obtain ⟨F, hF⟩ := h.holds
  have hcard := List.toFinset_card_of_nodup h.grouped.nodup
  have hsub : s.log.lh.toFinset ⊆ F := fun b hb => hF.header b (List.mem_toFinset.1 hb)
  have hle := Finset.card_le_card hsub
  have harray := hF.array
  have hroom := hF.room
  have hpos := a.pos
  refine ⟨by omega, by omega, fun p tail _ ht => ?_, fun p o b hp => ?_⟩
  · rw [LogArea.toNat_blk (by omega)]
    omega
  · by_cases hb : b ∈ s.log.lh
    · have := List.idxOf_lt_length_iff.2 hb
      omega
    · -- the block itself is on its way into the header
      have hins := Finset.card_le_card (Finset.insert_subset (hF.adding hp) hsub)
      rw [Finset.card_insert_of_notMem (by simpa using hb)] at hins
      rw [List.idxOf_eq_length hb]
      omega

/-- Two operations have passed the tests of `log_write`, one of them for a block in the header. -/
def pairEnd : Reached (Runs mkfsLog (Only {100, 101})) fun s =>
    s.log.lh = [100] ∧ s.proc 0 = .logWrite ⟨0, [100]⟩ 101 ∧
      s.proc 1 = .logWrite ⟨1, []⟩ 100 :=
  Runs.ofRun [(0, .beginOp), (1, .beginOp), (0, .logWrite 100), (0, .logAdd), (0, .logWrite 101),
    (1, .logWrite 100)] (by decide +kernel)

theorem log_within_area_two : ∃ s : LogSys, Runs mkfsLog (Spaced mkfsLog) s ∧ s.log.lh = [100] ∧
    s.proc 0 = .logWrite ⟨0, [100]⟩ 101 ∧ s.proc 1 = .logWrite ⟨1, []⟩ 100 ∧
    s.log.lh.idxOf 101 < LOGSIZE ∧ s.log.lh.idxOf 100 < LOGSIZE := by
  obtain ⟨s, hs, hp⟩ := pairEnd
  obtain ⟨hlh, h0, h1⟩ := of_decide_eq_true hp
  have hs := hs.spaced (by decide) (by decide)
  have hidx := (log_within_area hs).2.2.2
  exact ⟨s, hs, hlh, h0, h1, hidx 0 _ _ h0, hidx 1 _ _ h1⟩

end LogSys

end Xv6
