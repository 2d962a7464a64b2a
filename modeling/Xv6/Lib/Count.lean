/-
  Counting the processes in a given situation, and adding up what they hold.

  `Counts P n` says that exactly `n` numbers satisfy `P`.  A shared counter
  that processes increment and decrement is tied to the processes it counts by
  such a statement; the lemmas follow one process entering or leaving `P`.

  `Total w n` says that the weights `w`, zero for all but finitely many
  processes, add up to `n`.
-/
import Mathlib.Algebra.BigOperators.Group.Finset.Piecewise
import Mathlib.Algebra.Order.BigOperators.Group.Finset
import Mathlib.Data.Finset.Card
import Mathlib.Tactic.Linarith

namespace Count

/-- Exactly `n` numbers satisfy `P`. -/
def Counts (P : ℕ → Prop) (n : ℤ) : Prop := ∃ s : Finset ℕ, (∀ p, p ∈ s ↔ P p) ∧ n = s.card

namespace Counts
variable {P Q : ℕ → Prop} {n : ℤ} {p : ℕ}

theorem none (h : ∀ q, ¬ P q) : Counts P 0 := ⟨∅, by simpa using h, rfl⟩

theorem congr (h : Counts P n) (hQ : ∀ q, Q q ↔ P q) : Counts Q n := by
  obtain ⟨s, hs, rfl⟩ := h
  exact ⟨s, fun q => (hs q).trans (hQ q).symm, rfl⟩

/-- `p` enters. -/
theorem enter (h : Counts P n) (hp : ¬ P p) (hQ : ∀ q, Q q ↔ q = p ∨ P q) : Counts Q (n + 1) := by
  obtain ⟨s, hs, rfl⟩ := h
  refine ⟨insert p s, fun q => by rw [Finset.mem_insert, hs, hQ], ?_⟩
  rw [Finset.card_insert_of_notMem (by rwa [hs])]
  push_cast; rfl

/-- `p` leaves. -/
theorem leave (h : Counts P n) (hp : P p) (hQ : ∀ q, Q q ↔ q ≠ p ∧ P q) : Counts Q (n - 1) := by
  obtain ⟨s, hs, rfl⟩ := h
  have hmem : p ∈ s := (hs p).2 hp
  refine ⟨s.erase p, fun q => by rw [Finset.mem_erase, hs, hQ], ?_⟩
  have := Finset.card_pos.2 ⟨p, hmem⟩
  rw [Finset.card_erase_of_mem hmem]
  omega

/-- `p` may enter or leave. -/
theorem update [Decidable (P p)] [Decidable (Q p)] (h : Counts P n)
    (hQ : ∀ q, q ≠ p → (Q q ↔ P q)) :
    Counts Q (n - (if P p then 1 else 0) + (if Q p then 1 else 0)) := by
  split_ifs with h1 h2 h2
  · rw [Int.sub_add_cancel]
    exact h.congr fun q => (em (q = p)).elim (fun hq => hq ▸ iff_of_true h2 h1) (hQ q)
  · rw [Int.add_zero]
    refine h.leave h1 fun q => ?_
    by_cases hq : q = p
    · subst hq; simp [h2]
    · simp [hq, hQ q hq]
  · rw [Int.sub_zero]
    refine h.enter h1 fun q => ?_
    by_cases hq : q = p
    · subst hq; simp [h2]
    · simp [hq, hQ q hq]
  · rw [Int.sub_zero, Int.add_zero]
    exact h.congr fun q => (em (q = p)).elim (fun hq => hq ▸ iff_of_false h2 h1) (hQ q)

theorem pos (h : Counts P n) (hp : P p) : 0 < n := by
  obtain ⟨s, hs, rfl⟩ := h
  exact_mod_cast Finset.card_pos.2 ⟨p, (hs p).2 hp⟩

theorem not_of_zero (h : Counts P 0) : ¬ P p := fun hp => absurd (h.pos hp) (lt_irrefl _)

end Counts

/-- The weights `w` add up to `n`. -/
def Total (w : ℕ → ℤ) (n : ℤ) : Prop := ∃ s : Finset ℕ, (∀ p, p ∉ s → w p = 0) ∧ n = ∑ p ∈ s, w p

namespace Total
variable {w : ℕ → ℤ} {n m : ℤ}

theorem zero (h : ∀ p, w p = 0) : Total w 0 := ⟨∅, fun p _ => h p, rfl⟩

/-- The finite set may be taken larger. -/
theorem sum_eq {s t : Finset ℕ} (hs : ∀ p, p ∉ s → w p = 0) (hst : s ⊆ t) :
    ∑ p ∈ t, w p = ∑ p ∈ s, w p :=
  (Finset.sum_subset hst fun p _ hp => hs p hp).symm

/-- One weight changes. -/
theorem update (h : Total w n) (p : ℕ) (x : ℤ) : Total (Function.update w p x) (n - w p + x) := by
  obtain ⟨s, hs, rfl⟩ := h
  refine ⟨insert p s, fun q hq => ?_, ?_⟩
  · rw [Finset.mem_insert, not_or] at hq
    rw [Function.update_of_ne hq.1, hs q hq.2]
  · have hp : p ∈ insert p s := Finset.mem_insert_self p s
    rw [Finset.sum_update_of_mem hp, ← sum_eq hs (Finset.subset_insert p s),
      ← Finset.add_sum_erase _ w hp, Finset.sdiff_singleton_eq_erase]
    omega

/-- A weight is part of the sum. -/
theorem le (h : Total w n) (hw : ∀ p, 0 ≤ w p) (p : ℕ) : w p ≤ n := by
  obtain ⟨s, hs, rfl⟩ := h
  by_cases hp : p ∈ s
  · exact Finset.single_le_sum (fun q _ => hw q) hp
  · rw [hs p hp]
    exact Finset.sum_nonneg fun q _ => hw q

/-- Two weights are parts of the sum. -/
theorem add_le (h : Total w n) (hw : ∀ p, 0 ≤ w p) {p q : ℕ} (hpq : p ≠ q) : w p + w q ≤ n := by
  have hq := (h.update p 0).le (fun r => ?_) q
  · rw [Function.update_of_ne hpq.symm] at hq
    omega
  · rw [Function.update_apply]
    split_ifs
    · exact le_rfl
    · exact hw r

theorem exists_ne (h : Total w n) (hn : n ≠ 0) : ∃ p, w p ≠ 0 := by
  obtain ⟨s, -, rfl⟩ := h
  obtain ⟨p, -, hp⟩ := Finset.exists_ne_zero_of_sum_ne_zero hn
  exact ⟨p, hp⟩

theorem nonneg (h : Total w n) (hw : ∀ p, 0 ≤ w p) : 0 ≤ n := by
  obtain ⟨s, -, rfl⟩ := h
  exact Finset.sum_nonneg fun p _ => hw p

/-- Each process that is counted weighs at most `c`, the others nothing. -/
theorem le_mul {P : ℕ → Prop} {c : ℤ} (h : Total w n) (hm : Counts P m) (hc : ∀ p, P p → w p ≤ c)
    (h0 : ∀ p, ¬ P p → w p = 0) : n ≤ m * c := by
  obtain ⟨s, hs, rfl⟩ := h
  obtain ⟨t, ht, rfl⟩ := hm
  have ht0 : ∀ p, p ∉ t → w p = 0 := fun p hp => h0 p fun hP => hp ((ht p).2 hP)
  rw [← sum_eq hs Finset.subset_union_left, sum_eq ht0 Finset.subset_union_right, ← nsmul_eq_mul]
  exact Finset.sum_le_card_nsmul _ _ _ fun p hp => hc p ((ht p).1 hp)

end Total

end Count
