/-
  `struct log` and the lock-protected sections of `begin_op`, `log_write` and
  `end_op` (`log.c`).

  `log.start` and `log.size` never change after `initlog` (`LogArea`); of
  `log.lh` the entries from `n` on are never read, so that the header is the
  list of its first `n` entries.
-/
import Xv6.Log.Header

namespace Xv6

/-- The panics of `log.c`. -/
inductive LogPanic where
  /-- `panic("too big a transaction")` -/
  | tooBig
  /-- `panic("log_write outside of trans")` -/
  | outsideTrans
  /-- `panic("log.committing")` -/
  | committing
  deriving DecidableEq

structure Log where
  /-- `lh.block[0..n-1]` -/
  lh : List BlockNo
  /-- how many FS sys calls are executing -/
  outstanding : ℤ
  /-- in `commit()`, please wait -/
  committing : Bool

namespace Log

/-- The log after `initlog`. -/
def init : Log := ⟨[], 0, false⟩

/-- One pass through the loop of `begin_op`; `none` if it sleeps. -/
def beginOp (l : Log) : Option Log :=
  if l.committing then none
  else if l.lh.length + (l.outstanding + 1) * MAXOPBLOCKS > LOGSIZE then none
  else some { l with outstanding := l.outstanding + 1 }

/-- The tests of `log_write`, made before the lock is taken. -/
def logWriteTest (size : ℕ) (l : Log) : Except LogPanic Unit :=
  if l.lh.length ≥ LOGSIZE ∨ (l.lh.length : ℤ) ≥ size - 1 then .error .tooBig
  else if l.outstanding < 1 then .error .outsideTrans
  else .ok ()

/-- The locked section of `log_write`: the search for `b` and its insertion. -/
def logWriteAdd (b : BlockNo) (l : Log) : Log :=
  let i := l.lh.idxOf b
  if i = l.lh.length then { l with lh := l.lh ++ [b] }
  else { l with lh := l.lh.set i b }   -- log absorption

/-- The first locked section of `end_op`, with `do_commit`. -/
def endOp (l : Log) : Except LogPanic (Log × Bool) :=
  let l := { l with outstanding := l.outstanding - 1 }
  if l.committing then .error .committing
  else if l.outstanding = 0 then .ok ({ l with committing := true }, true)
  else .ok (l, false)

/-- The second locked section of `end_op`, after `commit`. -/
def commitDone (l : Log) : Log := { l with committing := false }

/-! ## What the sections do -/

variable {l l' : Log} {l : Log}

theorem beginOp_some (h : l.beginOp = some l') :
    l.committing = false ∧ l.lh.length + (l.outstanding + 1) * MAXOPBLOCKS ≤ LOGSIZE ∧
      l' = { l with outstanding := l.outstanding + 1 } := by
  unfold beginOp at h
  split_ifs at h with h1 h2
  exact ⟨by simpa using h1, by omega, (Option.some.inj h).symm⟩

theorem logWriteTest_ok {size : ℕ} {u : Unit} (h : l.logWriteTest size = .ok u) :
    l.lh.length < LOGSIZE ∧ (l.lh.length : ℤ) < size - 1 ∧ 1 ≤ l.outstanding := by
  unfold logWriteTest at h
  split_ifs at h with h1 h2
  exact ⟨by omega, by omega, by omega⟩

theorem logWriteTest_tooBig {size : ℕ} : l.logWriteTest size = .error .tooBig ↔
    LOGSIZE ≤ l.lh.length ∨ (size : ℤ) - 1 ≤ l.lh.length := by
  unfold logWriteTest
  split_ifs with h1 h2
  · exact ⟨fun _ => h1, fun _ => rfl⟩
  · exact ⟨by rintro ⟨⟩, fun h => absurd h h1⟩
  · exact ⟨by rintro ⟨⟩, fun h => absurd h h1⟩

/-- `log_write` inserts the block unless it is already there. -/
theorem logWriteAdd_eq (b : BlockNo) (l : Log) :
    l.logWriteAdd b = { l with lh := if b ∈ l.lh then l.lh else l.lh ++ [b] } := by
  unfold logWriteAdd
  by_cases h : b ∈ l.lh
  · have hi : l.lh.idxOf b < l.lh.length := List.idxOf_lt_length_iff.2 h
    have hset := List.set_getElem_self hi
    rw [List.getElem_idxOf hi] at hset
    simp only [if_neg (Nat.ne_of_lt hi), if_pos h, hset]
  · simp only [List.idxOf_eq_length h, if_neg h, if_true]

/-- The last operation commits. -/
theorem endOp_true (h : l.endOp = .ok (l', true)) : l.committing = false ∧
    l.outstanding = 1 ∧ l' = { l with outstanding := 0, committing := true } := by
  unfold endOp at h
  simp only at h
  split_ifs at h with h1 h2
  · simp only [Except.ok.injEq, Prod.mk.injEq, and_true] at h
    subst h
    exact ⟨by simpa using h1, by omega, by rw [h2]⟩
  · simp at h

theorem endOp_false (h : l.endOp = .ok (l', false)) : l.committing = false ∧
    l.outstanding ≠ 1 ∧ l' = { l with outstanding := l.outstanding - 1 } := by
  unfold endOp at h
  simp only at h
  split_ifs at h with h1 h2
  · simp at h
  · simp only [Except.ok.injEq, Prod.mk.injEq, and_true] at h
    subst h
    exact ⟨by simpa using h1, by omega, rfl⟩

theorem endOp_error {e : LogPanic} (h : l.endOp = .error e) :
    e = .committing ∧ l.committing = true := by
  unfold endOp at h
  simp only at h
  split_ifs at h with h1
  exact ⟨by cases h; rfl, h1⟩

end Log

end Xv6
