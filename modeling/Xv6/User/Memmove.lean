/-
  The two `memmove` functions, of `ulib.c` and of `string.c`.

  Memory is a map from 64-bit addresses to bytes.  The count is an `int` in the
  user library and a `uint` in the kernel; below 2^31 both are the number `n`.
  The user library copies upwards, whatever the ranges are; the kernel copies
  downwards when the destination begins inside the source.  `moved` is the memory
  in which the bytes have been copied all at once.
-/
import Mathlib.Algebra.Group.Nat.Defs
import Mathlib.Logic.Function.Basic
import Mathlib.Tactic.Common

namespace Xv6

open Function

abbrev Memory : Type := UInt64 → UInt8

/-! ## `ulib.c` and `string.c` -/

/-- `while(n-- > 0) *dst++ = *src++` -/
def copyUp (m : Memory) (dst src : UInt64) : ℕ → Memory
  | 0 => m
  | n + 1 => copyUp (update m dst (m src)) (dst + 1) (src + 1) n

/-- `while(n-- > 0) *--d = *--s` -/
def copyDown (m : Memory) (d s : UInt64) : ℕ → Memory
  | 0 => m
  | n + 1 => copyDown (update m (d - 1) (m (s - 1))) (d - 1) (s - 1) n

/-- `memmove` of `ulib.c`. -/
def Ulib.memmove (m : Memory) (dst src : UInt64) (n : ℕ) : Memory := copyUp m dst src n

/-- `memmove` of `string.c`. -/
def Kernel.memmove (m : Memory) (dst src : UInt64) (n : ℕ) : Memory :=
  if src < dst ∧ dst < src + .ofNat n then copyDown m (dst + .ofNat n) (src + .ofNat n) n
  else copyUp m dst src n

/-! ## Ranges -/

/-- The address `a` is in the range of `n` bytes from `p` on. -/
def InRange (p : UInt64) (n : ℕ) (a : UInt64) : Prop := p.toNat ≤ a.toNat ∧ a.toNat < p.toNat + n

instance (p : UInt64) (n : ℕ) (a : UInt64) : Decidable (InRange p n a) :=
  inferInstanceAs (Decidable (_ ∧ _))

/-- The bytes from `src` on, copied at once. -/
def moved (m : Memory) (dst src : UInt64) (n : ℕ) : Memory :=
  fun a => if InRange dst n a then m (src + (a - dst)) else m a

section
variable {m : Memory} {p dst src a : UInt64} {i j n : ℕ}

theorem toNat_add_ofNat (h : p.toNat + i < 2 ^ 64) : (p + .ofNat i).toNat = p.toNat + i := by
  rw [UInt64.toNat_add, UInt64.toNat_ofNat', Nat.add_mod_mod, Nat.mod_eq_of_lt h]

theorem add_ofNat_inj (hi : p.toNat + i < 2 ^ 64) (hj : p.toNat + j < 2 ^ 64) :
    p + .ofNat i = p + .ofNat j ↔ i = j := by
  rw [← UInt64.toNat_inj, toNat_add_ofNat hi, toNat_add_ofNat hj, Nat.add_left_cancel_iff]

theorem add_one_add_ofNat (p : UInt64) (n : ℕ) : p + 1 + .ofNat n = p + .ofNat (n + 1) := by
  rw [UInt64.ofNat_add, UInt64.add_assoc, UInt64.add_comm 1]
  rfl

theorem add_ofNat_sub_one (p : UInt64) (n : ℕ) : p + .ofNat (n + 1) - 1 = p + .ofNat n := by
  rw [← add_one_add_ofNat, UInt64.add_assoc, UInt64.add_comm 1, ← UInt64.add_assoc, UInt64.add_sub_cancel]

theorem inRange_iff (h : p.toNat + n ≤ 2 ^ 64) : InRange p n a ↔ ∃ i < n, a = p + .ofNat i := by
  constructor
  · rintro ⟨hle, hlt⟩
    refine ⟨a.toNat - p.toNat, by omega, UInt64.toNat_inj.1 ?_⟩
    rw [toNat_add_ofNat (by omega)]
    omega
  · rintro ⟨i, hi, rfl⟩
    rw [InRange, toNat_add_ofNat (by omega)]
    omega

theorem moved_at (hd : dst.toNat + n ≤ 2 ^ 64) (hi : i < n) :
    moved m dst src n (dst + .ofNat i) = m (src + .ofNat i) := by
  rw [moved, if_pos ((inRange_iff hd).2 ⟨i, hi, rfl⟩), UInt64.add_comm dst, UInt64.add_sub_cancel]

theorem moved_frame (ha : ¬ InRange dst n a) : moved m dst src n a = m a := if_neg ha

/-- A memory is `moved` if it agrees with it on the destination and is the same elsewhere. -/
theorem eq_moved_iff {m' : Memory} (hd : dst.toNat + n ≤ 2 ^ 64)
    (hframe : ∀ a, ¬ InRange dst n a → m' a = m a) :
    m' = moved m dst src n ↔ ∀ i < n, m' (dst + .ofNat i) = m (src + .ofNat i) := by
  constructor
  · rintro rfl i hi
    exact moved_at hd hi
  · intro h
    funext a
    by_cases ha : InRange dst n a
    · obtain ⟨i, hi, rfl⟩ := (inRange_iff hd).1 ha
      rw [h i hi, moved_at hd hi]
    · rw [hframe a ha, moved_frame ha]

/-! ## Copying upwards -/

/-- The last byte is copied last. -/
theorem copyUp_succ (m : Memory) (dst src : UInt64) (n : ℕ) : copyUp m dst src (n + 1) =
    update (copyUp m dst src n) (dst + .ofNat n) (copyUp m dst src n (src + .ofNat n)) := by
  induction n generalizing m dst src with
  | zero => simp [copyUp]
  | succ n ih =>
    rw [copyUp, ih, add_one_add_ofNat, add_one_add_ofNat]
    rfl

theorem copyUp_frame (hd : dst.toNat + n ≤ 2 ^ 64) (ha : ¬ InRange dst n a) :
    copyUp m dst src n a = m a := by
  induction n with
  | zero => rfl
  | succ n ih =>
    have hne : a ≠ dst + .ofNat n := by
      rintro rfl
      exact ha ((inRange_iff hd).2 ⟨n, Nat.lt_succ_self n, rfl⟩)
    rw [copyUp_succ, update_of_ne hne, ih (by omega)]
    rintro ⟨hle, hlt⟩
    exact ha ⟨hle, by omega⟩

/-- Byte `i` is what the source had when it was copied. -/
theorem copyUp_at (hd : dst.toNat + n ≤ 2 ^ 64) (hi : i < n) :
    copyUp m dst src n (dst + .ofNat i) = copyUp m dst src i (src + .ofNat i) := by
  induction n with
  | zero => cases hi
  | succ n ih =>
    rw [copyUp_succ]
    rcases Nat.lt_succ_iff_lt_or_eq.1 hi with hlt | rfl
    · rw [update_of_ne, ih (by omega) hlt]
      rw [Ne, add_ofNat_inj (by omega) (by omega)]
      omega
    · rw [update_self]

/-- A byte of the source that the copy has not reached. -/
theorem copyUp_ahead (hd : dst.toNat + n ≤ 2 ^ 64) (hs : src.toNat + n ≤ 2 ^ 64) (hi : i < n)
    (h : dst.toNat ≤ src.toNat ∨ src.toNat + i < dst.toNat) :
    copyUp m dst src n (dst + .ofNat i) = m (src + .ofNat i) := by
  rw [copyUp_at hd hi, copyUp_frame (by omega)]
  rw [InRange, toNat_add_ofNat (by omega)]
  omega

/-- A byte of the source that has been overwritten before. -/
theorem copyUp_behind (hd : dst.toNat + n ≤ 2 ^ 64) (hlt : src < dst) (hi : i < n)
    (h : dst.toNat + j = src.toNat + i) :
    copyUp m dst src n (dst + .ofNat i) = copyUp m dst src n (dst + .ofNat j) := by
  have hlt' : src.toNat < dst.toNat := hlt
  have hji : j < i := by omega
  have heq : src + .ofNat i = dst + .ofNat j := by
    rw [← UInt64.toNat_inj, toNat_add_ofNat (by omega), toNat_add_ofNat (by omega), h]
  rw [copyUp_at hd hi, heq, copyUp_at (by omega) hji, copyUp_at hd (by omega)]

/-- The source begins with the bytes that the destination overlaps. -/
def Repeats (m : Memory) (dst src : UInt64) (n : ℕ) : Prop :=
  ∀ i, dst.toNat + i < src.toNat + n → m (src + .ofNat i) = m (dst + .ofNat i)

/-- **Copying upwards** is right iff the destination does not begin inside the source, or the source
repeats itself there. -/
theorem copyUp_eq_moved_iff (hd : dst.toNat + n ≤ 2 ^ 64) (hs : src.toNat + n ≤ 2 ^ 64) :
    copyUp m dst src n = moved m dst src n ↔
      ¬ (src < dst ∧ dst.toNat < src.toNat + n) ∨ Repeats m dst src n := by
  rw [eq_moved_iff hd fun a ha => copyUp_frame hd ha]
  by_cases hover : src < dst ∧ dst.toNat < src.toNat + n
  · rw [or_iff_right (not_not_intro hover)]
    obtain ⟨hlt, hin⟩ := hover
    have hlt' : src.toNat < dst.toNat := hlt
    -- byte `i + k` of the source, for the distance `k` of the ranges
    have hdist : ∀ {i}, dst.toNat + i < src.toNat + n →
        src + .ofNat (i + (dst.toNat - src.toNat)) = dst + .ofNat i := by
      intro i hi
      rw [← UInt64.toNat_inj, toNat_add_ofNat (by omega), toNat_add_ofNat (by omega)]
      omega
    constructor
    · intro h i hi
      rw [← hdist hi, ← h (i + (dst.toNat - src.toNat)) (by omega), ← h i (by omega)]
      exact (copyUp_behind hd hlt (by omega) (by omega)).symm
    · intro h i
      induction i using Nat.strongRecOn with
      | ind i ih =>
        intro hi
        by_cases hahead : src.toNat + i < dst.toNat
        · exact copyUp_ahead hd hs hi (.inr hahead)
        · obtain ⟨j, hj⟩ := Nat.exists_eq_add_of_le (Nat.not_lt.1 hahead)
          rw [copyUp_behind hd hlt hi hj.symm, ih j (by omega) (by omega), h j (by omega),
            ← hdist (by omega)]
          congr 3
          omega
  · refine iff_of_true (fun i hi => copyUp_ahead hd hs hi ?_) (.inl hover)
    rw [UInt64.lt_iff_toNat_lt] at hover
    omega

/-! ## Copying downwards -/

/-- **Copying downwards** is right when the destination begins after the source. -/
theorem copyDown_eq_moved (hd : dst.toNat + n ≤ 2 ^ 64) (hlt : src < dst) :
    copyDown m (dst + .ofNat n) (src + .ofNat n) n = moved m dst src n := by
  have hlt' : src.toNat < dst.toNat := hlt
  induction n generalizing m with
  | zero =>
    funext a
    refine (moved_frame ?_).symm
    rintro ⟨hle, hgt⟩
    omega
  | succ n ih =>
    rw [copyDown, add_ofNat_sub_one, add_ofNat_sub_one, ih (by omega), eq_moved_iff hd]
    · intro i hi
      rcases Nat.lt_succ_iff_lt_or_eq.1 hi with hi' | rfl
      · have hne : src + .ofNat i ≠ dst + .ofNat n := by
          rw [Ne, ← UInt64.toNat_inj, toNat_add_ofNat (by omega), toNat_add_ofNat (by omega)]
          omega
        rw [moved_at (by omega) hi', update_of_ne hne]
      · rw [moved_frame, update_self]
        rw [InRange, toNat_add_ofNat (by omega)]
        omega
    · intro a ha
      rw [moved_frame fun h => ha ⟨h.1, Nat.lt_succ_of_lt h.2⟩, update_of_ne]
      rintro rfl
      exact ha ((inRange_iff hd).2 ⟨n, Nat.lt_succ_self n, rfl⟩)

theorem kernel_memmove_eq_moved (hd : dst.toNat + n ≤ 2 ^ 64) (hs : src.toNat + n ≤ 2 ^ 64) :
    Kernel.memmove m dst src n = moved m dst src n := by
  rw [Kernel.memmove]
  split_ifs with h
  · exact copyDown_eq_moved hd h.1
  · refine (copyUp_eq_moved_iff hd hs).2 (.inl fun hover => h ⟨hover.1, ?_⟩)
    have hlt : src.toNat < dst.toNat := hover.1
    rw [UInt64.lt_iff_toNat_lt, toNat_add_ofNat (by omega)]
    exact hover.2

end

/-- **The two `memmove` functions** leave the bytes of the source in the destination, and nothing
else changed, iff the destination does not begin inside the source, or the source repeats itself
there. -/
theorem memmove_agree_iff (m : Memory) {dst src : UInt64} {n : ℕ}
    (hd : dst.toNat + n ≤ 2 ^ 64) (hs : src.toNat + n ≤ 2 ^ 64) :
    (Ulib.memmove m dst src n = moved m dst src n ∧ Kernel.memmove m dst src n = moved m dst src n) ↔
      ¬ (src < dst ∧ dst.toNat < src.toNat + n) ∨ Repeats m dst src n := by
  rw [and_iff_left (kernel_memmove_eq_moved hd hs), Ulib.memmove, copyUp_eq_moved_iff hd hs]

/-- One byte down. -/
theorem memmove_agree_down : Ulib.memmove (fun a => a.toUInt8) 4 5 8 =
    Kernel.memmove (fun a => a.toUInt8) 4 5 8 := by
  have hd : (4 : UInt64).toNat + 8 ≤ 2 ^ 64 := by decide
  have hs : (5 : UInt64).toNat + 8 ≤ 2 ^ 64 := by decide
  have h := (memmove_agree_iff (fun a => a.toUInt8) hd hs).2 (.inl (by decide))
  rw [h.1, h.2]

/-- One byte up: the user library copies the first byte to the second and then to the third. -/
theorem ulib_memmove_up : Ulib.memmove (fun a => a.toUInt8) 1 0 2 2 = 0 ∧
    Kernel.memmove (fun a => a.toUInt8) 1 0 2 2 = 1 ∧ moved (fun a => a.toUInt8) 1 0 2 2 = 1 := by
  decide

end Xv6
