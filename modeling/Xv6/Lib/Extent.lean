/-
  Stretches of an address space.

  An extent is a stretch `[start, start + len)`.  `cover bs x` counts the
  extents of `bs` that contain the address `x`: two lists of extents with the
  same cover make up the same memory, and a cover of at most one means that the
  extents do not overlap (`pairwise_apart`).  Cutting an extent in two and
  joining neighbours keep the cover.
-/
import Mathlib.Algebra.Order.BigOperators.Group.List
import Mathlib.Algebra.Order.Ring.Nat
import Mathlib.Data.List.Perm.Basic

/-- The addresses from `start` up to `start + len`. -/
@[ext] structure Extent where
  start : ℕ
  len : ℕ
  deriving DecidableEq

namespace Extent

variable {a b : Extent} {bs cs : List Extent} {x : ℕ}

/-- The first address after the extent. -/
def stop (b : Extent) : ℕ := b.start + b.len

/-- The address `x` lies in `b`. -/
def Has (b : Extent) (x : ℕ) : Prop := b.start ≤ x ∧ x < b.stop

instance (b : Extent) (x : ℕ) : Decidable (b.Has x) := inferInstanceAs (Decidable (_ ∧ _))

/-- Two extents without a common address. -/
def Apart (a b : Extent) : Prop := ∀ x, a.Has x → ¬ b.Has x

instance : Std.Symm Apart := ⟨fun _ _ h x hb ha => h x ha hb⟩

/-- Extents that are not empty and apart lie one above the other. -/
theorem Apart.le_or_le (h : Apart a b) (ha : 0 < a.len) (hb : 0 < b.len) :
    a.stop ≤ b.start ∨ b.stop ≤ a.start := by
  by_contra hlt
  rw [not_or, Nat.not_le, Nat.not_le] at hlt
  unfold Apart Has at h
  rcases Nat.le_total a.start b.start with hab | hab
  · exact h b.start ⟨hab, hlt.1⟩ ⟨Nat.le_refl _, by simp only [stop] at *; omega⟩
  · exact h a.start ⟨Nat.le_refl _, by simp only [stop] at *; omega⟩ ⟨hab, hlt.2⟩

/-- Smaller extents are apart as well. -/
theorem Apart.mono {a' b' : Extent} (h : Apart a b) (ha : ∀ x, a'.Has x → a.Has x)
    (hb : ∀ x, b'.Has x → b.Has x) : Apart a' b' := fun x hxa hxb => h x (ha x hxa) (hb x hxb)

theorem Apart.start_ne (h : Apart a b) (ha : 0 < a.len) (hb : 0 < b.len) : a.start ≠ b.start := by
  have := h.le_or_le ha hb
  simp only [stop] at this
  omega

/-- How many of the extents contain `x`. -/
def cover (bs : List Extent) (x : ℕ) : ℕ := bs.countP (Has · x)

@[simp] theorem cover_nil : cover [] x = 0 := rfl

@[simp] theorem cover_cons : cover (b :: bs) x = (if b.Has x then 1 else 0) + cover bs x := by
  simp [cover, List.countP_cons, Nat.add_comm]

@[simp] theorem cover_append : cover (bs ++ cs) x = cover bs x + cover cs x := List.countP_append

theorem cover_perm (h : bs.Perm cs) : cover bs x = cover cs x := h.countP_eq _

/-- Two neighbours cover the same as one extent. -/
theorem cover_join (h : a.stop = b.start) (x : ℕ) :
    cover [⟨a.start, a.len + b.len⟩] x = cover [a] x + cover [b] x := by
  simp only [cover_cons, cover_nil, Has, stop] at h ⊢
  grind

theorem cover_pos_iff : 0 < cover bs x ↔ ∃ b ∈ bs, b.Has x := by
  simp [cover, List.countP_pos_iff]

/-- If no address is covered twice, the extents are apart. -/
theorem pairwise_apart (h : ∀ x, cover bs x ≤ 1) : bs.Pairwise Apart := by
  induction bs with
  | nil => exact .nil
  | cons a bs ih =>
    refine List.pairwise_cons.2 ⟨fun b hb x ha hx => ?_, ih fun x => ?_⟩
    · have h1 := h x
      have h2 := cover_pos_iff.2 ⟨b, hb, hx⟩
      rw [cover_cons, if_pos ha] at h1
      omega
    · have h1 := h x
      rw [cover_cons] at h1
      omega

/-- The number of addresses, counted with multiplicity. -/
def total (bs : List Extent) : ℕ := (bs.map len).sum

@[simp] theorem total_nil : total [] = 0 := rfl

@[simp] theorem total_cons : total (b :: bs) = b.len + total bs := by simp [total]

@[simp] theorem total_append : total (bs ++ cs) = total bs + total cs := by simp [total]

theorem total_perm (h : bs.Perm cs) : total bs = total cs := (h.map len).sum_eq

end Extent
