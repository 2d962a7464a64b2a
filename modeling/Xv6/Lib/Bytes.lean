/-
  Byte blocks and little-endian fields.

  A block of `n` bytes is a function `Fin n → UInt8`.  `byte` reads it at any
  offset (`0` past the end) and `setByte` stores one byte (nothing past the
  end), so that offsets stay plain numbers.  `leGet k` and `leSet k` read and
  store a `k`-byte little-endian field, `leSetAll` an array of them, and `bit`,
  `setBit` and `clearBit` work on single bits.  What a user of these needs is
  that a field or bit reads back as it was stored (`leGet_leSet`,
  `leGet_leSetAll`, `bit_setBit`, `bit_clearBit`) and that fields elsewhere are
  not touched (`leGet_leSet_ne`, `leGet_leSetAll_ne`).
-/
import Mathlib.Data.Fintype.Defs
import Mathlib.Tactic.Ring
import Mathlib.Tactic.Linarith

namespace Bytes

variable {n : ℕ}

/-- The byte at offset `i`. -/
def byte (b : Fin n → UInt8) (i : ℕ) : UInt8 := if h : i < n then b ⟨i, h⟩ else 0

/-- Store `v` at offset `i`. -/
def setByte (b : Fin n → UInt8) (i : ℕ) (v : UInt8) : Fin n → UInt8 :=
  fun j => if j.val = i then v else b j

variable {i : ℕ}

theorem byte_setByte (b : Fin n → UInt8) (hi : i < n) (v : UInt8) :
    byte (setByte b i v) i = v := by
  simp [byte, setByte, hi]

theorem byte_setByte_ne (b : Fin n → UInt8) {i j : ℕ} (h : j ≠ i) (v : UInt8) :
    byte (setByte b i v) j = byte b j := by
  simp [byte, setByte, h]

/-! ## Little-endian fields -/

/-- The `k`-byte little-endian number at offset `off`. -/
def leGet : ℕ → (Fin n → UInt8) → ℕ → ℕ
  | 0, _, _ => 0
  | k + 1, b, off => (byte b off).toNat + 256 * leGet k b (off + 1)

/-- Store the low `k` bytes of `v` at offset `off`. -/
def leSet : ℕ → (Fin n → UInt8) → ℕ → ℕ → Fin n → UInt8
  | 0, b, _, _ => b
  | k + 1, b, off, v => setByte (leSet k b (off + 1) (v / 256)) off (UInt8.ofNat v)

theorem byte_leSet_ne : ∀ (k : ℕ) (b : Fin n → UInt8) {off i : ℕ} (v : ℕ),
    i < off ∨ off + k ≤ i → byte (leSet k b off v) i = byte b i
  | 0, _, _, _, _, _ => rfl
  | k + 1, b, off, i, v, h => by
    have hne : i ≠ off := by omega
    rw [leSet, byte_setByte_ne _ hne]
    exact byte_leSet_ne k b (v / 256) (by omega)

theorem leGet_congr : ∀ (k : ℕ) {b c : Fin n → UInt8} {off : ℕ},
    (∀ i, off ≤ i → i < off + k → byte b i = byte c i) → leGet k b off = leGet k c off
  | 0, _, _, _, _ => rfl
  | k + 1, b, c, off, h => by
    have h0 := h off le_rfl (by omega)
    have hk : leGet k b (off + 1) = leGet k c (off + 1) :=
      leGet_congr k fun i h1 h2 => h i (by omega) (by omega)
    rw [leGet, leGet, h0, hk]

/-- The fields of a zeroed block. -/
theorem leGet_zero : ∀ (k off : ℕ), leGet k (fun _ : Fin n => 0) off = 0
  | 0, _ => rfl
  | k + 1, off => by
    have h0 : byte (fun _ : Fin n => (0 : UInt8)) off = 0 := by unfold byte; split_ifs <;> rfl
    rw [leGet, h0, leGet_zero k]
    rfl

/-- A field is not touched by a store to a disjoint one. -/
theorem leGet_leSet_ne (k l : ℕ) (b : Fin n → UInt8) {off off' : ℕ} (v : ℕ)
    (h : off' + l ≤ off ∨ off + k ≤ off') : leGet l (leSet k b off v) off' = leGet l b off' :=
  leGet_congr l fun i h1 h2 => byte_leSet_ne k b v (by omega)

/-- **Reading back a field gives the value stored**, cut to its width. -/
theorem leGet_leSet : ∀ (k : ℕ) (b : Fin n → UInt8) {off : ℕ} (v : ℕ), off + k ≤ n →
    leGet k (leSet k b off v) off = v % 256 ^ k
  | 0, _, _, v, _ => by simp [leGet, Nat.mod_one]
  | k + 1, b, off, v, h => by
    have htail : leGet k (leSet (k + 1) b off v) (off + 1) = (v / 256) % 256 ^ k := by
      rw [← leGet_leSet k b (v / 256) (show off + 1 + k ≤ n by omega)]
      exact leGet_congr k fun i h1 _ => by rw [leSet, byte_setByte_ne _ (by omega)]
    have hhead : byte (leSet (k + 1) b off v) off = UInt8.ofNat v := byte_setByte _ (by omega) _
    have hpow : 256 ^ (k + 1) = 256 * 256 ^ k := by ring
    rw [leGet, htail, hhead, UInt8.toNat_ofNat', hpow, Nat.mod_mul]

/-! ## Arrays of fields -/

/-- Store `f 0, …, f (m - 1)` in consecutive `k`-byte fields from offset `off` on. -/
def leSetAll (k : ℕ) (f : ℕ → ℕ) : ℕ → (Fin n → UInt8) → ℕ → Fin n → UInt8
  | 0, b, _ => b
  | m + 1, b, off => leSet k (leSetAll k f m b off) (off + k * m) (f m)

theorem leGet_leSetAll_ne (k l : ℕ) (f : ℕ → ℕ) (b : Fin n → UInt8) {off off' : ℕ} : ∀ (m : ℕ),
    off' + l ≤ off ∨ off + k * m ≤ off' → leGet l (leSetAll k f m b off) off' = leGet l b off'
  | 0, _ => rfl
  | m + 1, h => by
    rw [Nat.mul_succ] at h
    rw [leSetAll, leGet_leSet_ne _ _ _ _ (by omega), leGet_leSetAll_ne k l f b m (by omega)]

/-- Reading back one of the fields. -/
theorem leGet_leSetAll (k : ℕ) (f : ℕ → ℕ) (b : Fin n → UInt8) {off i : ℕ} : ∀ (m : ℕ), i < m →
    off + k * m ≤ n → leGet k (leSetAll k f m b off) (off + k * i) = f i % 256 ^ k
  | m + 1, hi, h => by
    rw [Nat.mul_succ] at h
    rcases Nat.lt_succ_iff_lt_or_eq.1 hi with hlt | rfl
    · have hle : k * (i + 1) ≤ k * m := Nat.mul_le_mul_left k hlt
      rw [Nat.mul_succ] at hle
      rw [leSetAll, leGet_leSet_ne _ _ _ _ (by omega), leGet_leSetAll k f b m hlt (by omega)]
    · rw [leSetAll, leGet_leSet _ _ _ (by omega)]

/-! ## Byte ranges -/

/-- `m` bytes from offset `off` on. -/
def getBytes (b : Fin n → UInt8) (off m : ℕ) : List UInt8 :=
  (List.range m).map fun i => byte b (off + i)

/-- Store the bytes `xs` from offset `off` on. -/
def setBytes (b : Fin n → UInt8) (off : ℕ) (xs : List UInt8) : Fin n → UInt8 :=
  fun j => if off ≤ j then xs.getD (j - off) (b j) else b j

/-- Reading back a byte after a store to a range. -/
theorem byte_setBytes (b : Fin n → UInt8) (off : ℕ) (xs : List UInt8) {j : ℕ} (hj : j < n) :
    byte (setBytes b off xs) j = if off ≤ j then xs.getD (j - off) (byte b j) else byte b j := by
  simp only [byte, setBytes, dif_pos hj]

/-! ## Bits -/

/-- The byte with bit `i` set. -/
def mask (i : ℕ) : UInt8 := 1 <<< UInt8.ofNat i

/-- Bit `i` of a block, the low bits of a byte first. -/
def bit (b : Fin n → UInt8) (i : ℕ) : Bool := byte b (i / 8) &&& mask (i % 8) != 0

def setBit (b : Fin n → UInt8) (i : ℕ) : Fin n → UInt8 :=
  setByte b (i / 8) (byte b (i / 8) ||| mask (i % 8))

def clearBit (b : Fin n → UInt8) (i : ℕ) : Fin n → UInt8 :=
  setByte b (i / 8) (byte b (i / 8) &&& ~~~ mask (i % 8))

theorem testBit_mask (hi : i < 8) (j : ℕ) : (mask i).toNat.testBit j = decide (i = j) := by
  have h8 : i % 8 = i := Nat.mod_eq_of_lt hi
  have hm : (mask i).toNat = 2 ^ i := by
    rw [mask, UInt8.toNat_shiftLeft, UInt8.toNat_ofNat', UInt8.toNat_one,
      Nat.mod_mod_of_dvd _ (by decide), h8, Nat.one_shiftLeft]
    exact Nat.mod_eq_of_lt (Nat.pow_lt_pow_right (by decide) hi)
  rw [hm, Nat.testBit_two_pow]

theorem bit_eq (b : Fin n → UInt8) (i : ℕ) : bit b i = (byte b (i / 8)).toNat.testBit (i % 8) := by
  have hi : i % 8 < 8 := Nat.mod_lt _ (by decide)
  have hand : (byte b (i / 8) &&& mask (i % 8)).toNat =
      if (byte b (i / 8)).toNat.testBit (i % 8) then 2 ^ (i % 8) else 0 := by
    refine Nat.eq_of_testBit_eq fun j => ?_
    rw [UInt8.toNat_and, Nat.testBit_and, testBit_mask hi]
    by_cases hj : i % 8 = j
    · subst hj
      split_ifs with h <;> simp [h]
    · split_ifs <;> simp [hj, Nat.testBit_two_pow_of_ne hj]
  have hne : (byte b (i / 8) &&& mask (i % 8)) ≠ 0 ↔
      (byte b (i / 8)).toNat.testBit (i % 8) = true := by
    rw [Ne, ← UInt8.toNat_inj, hand]
    split_ifs with h <;> simp [h]
  rw [Bool.eq_iff_iff, bit, bne_iff_ne]
  exact hne

/-- **Setting a bit** changes no other one. -/
theorem bit_setBit (b : Fin n → UInt8) (hi : i < 8 * n) (j : ℕ) :
    bit (setBit b i) j = (decide (i = j) || bit b j) := by
  have hm : i % 8 < 8 := Nat.mod_lt _ (by decide)
  rw [bit_eq, bit_eq, setBit]
  by_cases hq : j / 8 = i / 8
  · rw [hq, byte_setByte _ (by omega), UInt8.toNat_or, Nat.testBit_or, testBit_mask hm, Bool.or_comm]
    congr 2
    exact propext ⟨fun h => by omega, fun h => by rw [h]⟩
  · rw [byte_setByte_ne _ hq]
    have : i ≠ j := by rintro rfl; exact hq rfl
    simp [this]

/-- **Clearing a bit** changes no other one. -/
theorem bit_clearBit (b : Fin n → UInt8) (hi : i < 8 * n) (j : ℕ) :
    bit (clearBit b i) j = (!decide (i = j) && bit b j) := by
  have hm : i % 8 < 8 := Nat.mod_lt _ (by decide)
  rw [bit_eq, bit_eq, clearBit]
  by_cases hq : j / 8 = i / 8
  · have hj : j % 8 < 8 := Nat.mod_lt _ (by decide)
    have hij : (i % 8 = j % 8) = (i = j) := propext ⟨fun h => by omega, fun h => by rw [h]⟩
    have hnot : (~~~ mask (i % 8)).toNat.testBit (j % 8) = !decide (i = j) := by
      have hlt : (mask (i % 8)).toNat < 2 ^ 8 := (mask (i % 8)).toNat_lt
      rw [UInt8.toNat_not, show UInt8.size - 1 - (mask (i % 8)).toNat =
        2 ^ 8 - ((mask (i % 8)).toNat + 1) by simp only [UInt8.size]; omega,
        Nat.testBit_two_pow_sub_succ hlt, testBit_mask hm, decide_eq_true hj, Bool.true_and]
      simp only [hij]
    rw [hq, byte_setByte _ (by omega), UInt8.toNat_and, Nat.testBit_and, hnot, Bool.and_comm]
  · rw [byte_setByte_ne _ hq]
    have : i ≠ j := by rintro rfl; exact hq rfl
    simp [this]

end Bytes
