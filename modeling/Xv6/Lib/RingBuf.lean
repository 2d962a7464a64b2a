/-
  Ring buffers with wrapping counters.

  A buffer of `n` places with two 32-bit counters that only go up, and wrap
  around.  When `n` divides `2 ^ 32`, the places from `head` up to `tail` are a
  queue: `push` appends to it, `unpush` takes the last element back and `pop`
  takes the first one, also when a counter wraps around.
-/
import Mathlib.Logic.Function.Basic
import Mathlib.Tactic.Ring

structure RingBuf (α : Type) (n : ℕ) where
  data : Fin n → α
  head : UInt32
  tail : UInt32

namespace RingBuf

variable {α : Type} {n : ℕ} [NeZero n] (b : RingBuf α n)

/-- The place of a counter. -/
def idx (n : ℕ) [NeZero n] (i : UInt32) : Fin n := Fin.ofNat n i.toNat

def push (x : α) : RingBuf α n :=
  { b with data := Function.update b.data (idx n b.tail) x, tail := b.tail + 1 }

def unpush : RingBuf α n := { b with tail := b.tail - 1 }

def front : α := b.data (idx n b.head)

def pop : RingBuf α n := { b with head := b.head + 1 }

def size : ℕ := (b.tail - b.head).toNat

/-- The queue. -/
def toList : List α :=
  (List.range b.size).map fun j => b.data (idx n (b.head + UInt32.ofNat j))

variable {b}

section
omit [NeZero n]

theorem size_eq_zero_iff : b.size = 0 ↔ b.head = b.tail := by
  have := b.head.toNat_lt
  have := b.tail.toNat_lt
  rw [size, ← UInt32.toNat_inj, UInt32.toNat_sub]
  omega

theorem size_eq_iff (hn : n < 2 ^ 32) : b.size = n ↔ b.tail = b.head + UInt32.ofNat n := by
  have := b.head.toNat_lt
  have := b.tail.toNat_lt
  rw [size, ← UInt32.toNat_inj, UInt32.toNat_sub, UInt32.toNat_add, UInt32.toNat_ofNat_of_lt' hn]
  omega

theorem size_pop (h : b.size ≠ 0) : b.pop.size + 1 = b.size := by
  have := b.head.toNat_lt
  have := b.tail.toNat_lt
  simp only [size, pop, UInt32.toNat_sub, UInt32.toNat_add, UInt32.toNat_one] at h ⊢
  omega

theorem size_unpush (h : b.size ≠ 0) : b.unpush.size + 1 = b.size := by
  have := b.head.toNat_lt
  have := b.tail.toNat_lt
  simp only [size, unpush, UInt32.toNat_sub, UInt32.toNat_one] at h ⊢
  omega

end

theorem size_push (x : α) (h : b.size + 1 < 2 ^ 32) : (b.push x).size = b.size + 1 := by
  have := b.head.toNat_lt
  have := b.tail.toNat_lt
  simp only [size, push, UInt32.toNat_sub, UInt32.toNat_add, UInt32.toNat_one] at h ⊢
  omega

@[simp] theorem length_toList : b.toList.length = b.size := by simp [toList]

theorem toList_eq_nil (h : b.head = b.tail) : b.toList = [] := by
  rw [toList, size_eq_zero_iff.2 h]
  rfl

/-- Since `n` divides the modulus of the counters, wrapping around does not change a place. -/
theorem idx_add (hn : n ∣ 2 ^ 32) (i : UInt32) (j : ℕ) :
    (idx n (i + UInt32.ofNat j)).val = (i.toNat + j) % n := by
  simp only [idx, Fin.val_ofNat, UInt32.toNat_add, UInt32.toNat_ofNat']
  rw [Nat.add_mod_mod, Nat.mod_mod_of_dvd _ hn]

/-- Two counters less than `n` apart have different places. -/
theorem idx_ne (hn : n ∣ 2 ^ 32) (i : UInt32) {j k : ℕ} (hjk : j < k) (hk : k < j + n) :
    idx n (i + UInt32.ofNat j) ≠ idx n (i + UInt32.ofNat k) := by
  intro h
  have h := congrArg Fin.val h
  rw [idx_add hn, idx_add hn] at h
  have h0 := Nat.sub_mod_eq_zero_of_mod_eq h.symm
  have h1 := Nat.le_of_dvd (by omega) (Nat.dvd_of_mod_eq_zero h0)
  omega

omit [NeZero n] in
theorem head_add_size : b.head + UInt32.ofNat b.size = b.tail := by
  rw [size, UInt32.ofNat_toNat, UInt32.add_comm, UInt32.sub_add_cancel]

theorem toList_push (hn : n ∣ 2 ^ 32) (hlt : n < 2 ^ 32) (x : α) (h : b.size < n) :
    (b.push x).toList = b.toList ++ [x] := by
  rw [toList, size_push x (by omega), List.range_succ, List.map_append, toList]
  congr 1
  · apply List.map_congr_left
    intro j hj
    have hj := List.mem_range.1 hj
    -- the place of `tail` is not in use yet
    refine Function.update_of_ne ?_ ..
    show idx n (b.head + UInt32.ofNat j) ≠ idx n b.tail
    rw [← b.head_add_size]
    exact idx_ne hn b.head hj (by omega)
  · show [Function.update b.data (idx n b.tail) x (idx n (b.head + UInt32.ofNat b.size))] = [x]
    rw [head_add_size, Function.update_self]

theorem toList_pop (h : b.head ≠ b.tail) : b.toList = b.front :: b.pop.toList := by
  have hs := size_pop (b := b) (by rwa [Ne, size_eq_zero_iff])
  rw [toList, ← hs, List.range_succ_eq_map, List.map_cons, List.map_map, toList]
  congr 1
  · show b.data (idx n (b.head + 0)) = b.data (idx n b.head)
    rw [UInt32.add_zero]
  · apply List.map_congr_left
    intro j _
    show b.data (idx n (b.head + UInt32.ofNat (j + 1))) =
      b.data (idx n (b.head + 1 + UInt32.ofNat j))
    rw [UInt32.ofNat_add, UInt32.add_comm (UInt32.ofNat j), ← UInt32.add_assoc]
    rfl

theorem toList_unpush (h : b.head ≠ b.tail) :
    b.toList = b.unpush.toList ++ [b.data (idx n (b.tail - 1))] := by
  have hs := size_unpush (b := b) (by rwa [Ne, size_eq_zero_iff])
  rw [toList, ← hs, List.range_succ, List.map_append, toList]
  congr 1
  show [b.data (idx n (b.unpush.head + UInt32.ofNat b.unpush.size))] = _
  rw [head_add_size]
  rfl

end RingBuf
