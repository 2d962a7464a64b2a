/-
  Radix trees of tables.

  A table is a page of `width` entries, and an entry may lead to a table one
  level below.  `node d x` is the table at depth `d` that is reached along the
  base-`width` digits of `x`, and `find n` reads the entry of a key in the
  tables of depth `n`.  Only the first `top` entries of the root belong to the
  tree.  As long as no page is two tables, entering a fresh empty table adds
  exactly one node and changes no key (`node_add`, `find_add`), and writing an
  entry at the bottom changes exactly one key (`node_set`, `find_set`).  `Below`
  relates a node to those of its subtree, for walks over whole trees.
-/
import Mathlib.Algebra.Order.Ring.Nat
import Mathlib.Data.Option.Basic
import Mathlib.Tactic.Ring

namespace Radix

variable {P E : Type*}

/-- The shape of a tree: the number of entries of a table and of those of the root that belong to
the tree, and the table that an entry leads to. -/
structure Format (P E : Type*) where
  width : ℕ
  top : ℕ
  child : E → Option P
  width_pos : 0 < width

/-- The table at depth `d` with prefix `x`. -/
def node (F : Format P E) (rd : P → ℕ → E) (r : P) : ℕ → ℕ → Option P
  | 0, x => if x = 0 then some r else none
  | d + 1, x =>
    if x < F.top * F.width ^ d then
      (node F rd r d (x / F.width)).bind fun t => F.child (rd t (x % F.width))
    else none

/-- The entry of key `v` in the tables of depth `n`, `e₀` if there is no table. -/
def find (F : Format P E) (rd : P → ℕ → E) (r : P) (n : ℕ) (e₀ : E) (v : ℕ) : E :=
  ((node F rd r n (v / F.width)).map fun t => rd t (v % F.width)).getD e₀

/-- No page is two tables of depth at most `n`. -/
def Inj (F : Format P E) (rd : P → ℕ → E) (r : P) (n : ℕ) : Prop :=
  ∀ {d d' x x' p}, d ≤ n → d' ≤ n → node F rd r d x = some p → node F rd r d' x' = some p →
    d = d' ∧ x = x'

variable {F : Format P E} {rd rd' : P → ℕ → E} {r t p : P} {n d₀ x₀ i : ℕ}

theorem digits_div (hi : i < F.width) : (x₀ * F.width + i) / F.width = x₀ := by
  rw [Nat.mul_comm, Nat.mul_add_div F.width_pos, Nat.div_eq_of_lt hi, Nat.add_zero]

theorem digits_mod (hi : i < F.width) : (x₀ * F.width + i) % F.width = i := by
  rw [Nat.mul_comm, Nat.mul_add_mod, Nat.mod_eq_of_lt hi]

theorem digits_eq (x : ℕ) : x / F.width * F.width + x % F.width = x := by
  rw [Nat.mul_comm]
  exact Nat.div_add_mod x F.width

theorem node_child (hi : i < F.width) (hx : x₀ * F.width + i < F.top * F.width ^ d₀)
    (ht : node F rd r d₀ x₀ = some t) :
    node F rd r (d₀ + 1) (x₀ * F.width + i) = F.child (rd t i) := by
  rw [node, if_pos hx, digits_div hi, digits_mod hi, ht, Option.bind_some]

/-- Nodes only depend on the tables above them. -/
theorem node_congr (h : ∀ d x t, d < n → node F rd r d x = some t → rd' t = rd t) :
    ∀ d, d ≤ n → ∀ x, node F rd' r d x = node F rd r d x
  | 0, _, _ => rfl
  | d + 1, hd, x => by
    rw [node, node, node_congr h d (by omega)]
    cases hn : node F rd r d (x / F.width) with
    | none => rfl
    | some t => rw [Option.bind_some, Option.bind_some, h d _ t hd hn]

theorem find_congr {e₀ : E} (h : ∀ d x t, d ≤ n → node F rd r d x = some t → rd' t = rd t) (v : ℕ) :
    find F rd' r n e₀ v = find F rd r n e₀ v := by
  have hn : node F rd' r n (v / F.width) = node F rd r n (v / F.width) :=
    node_congr (fun d x t hd => h d x t hd.le) n le_rfl _
  rw [find, find, hn]
  cases ht : node F rd r n (v / F.width) with
  | none => rfl
  | some t => rw [Option.map_some, Option.map_some, h n _ t le_rfl ht]

/-- Below an empty root there are no tables. -/
theorem node_empty (htop : F.top ≤ F.width) (h : ∀ i < F.top, F.child (rd r i) = none) :
    ∀ d x, node F rd r (d + 1) x = none
  | 0, x => by
    by_cases hx : x < F.top * F.width ^ 0
    · rw [pow_zero, mul_one] at hx
      have hlt : x < F.width := lt_of_lt_of_le hx htop
      rw [node, pow_zero, mul_one, if_pos hx, Nat.div_eq_of_lt hlt, Nat.mod_eq_of_lt hlt]
      exact h x hx
    · rw [node, if_neg hx]
  | d + 1, x => by
    rw [node, node_empty htop h d]
    exact ite_self _

/-- The entry `i` of table `t` receives a fresh empty table `p`. -/
structure Adds (F : Format P E) (rd rd' : P → ℕ → E) (r t p : P) (n d₀ x₀ i : ℕ) : Prop where
  depth : d₀ < n
  index : i < F.width
  bound : x₀ * F.width + i < F.top * F.width ^ d₀
  table : node F rd r d₀ x₀ = some t
  vacant : F.child (rd t i) = none
  fresh : ∀ d x, d ≤ n → node F rd r d x ≠ some p
  link : F.child (rd' t i) = some p
  empty : ∀ j, F.child (rd' p j) = none
  other : ∀ q j, q ≠ p → (q = t → j ≠ i) → rd' q j = rd q j

/-- **Adding a table** adds one node. -/
theorem node_add (hinj : Inj F rd r n) (h : Adds F rd rd' r t p n d₀ x₀ i) : ∀ d, d ≤ n → ∀ x,
    node F rd' r d x = if d = d₀ + 1 ∧ x = x₀ * F.width + i then some p else node F rd r d x
  | 0, _, x => by
    rw [if_neg (by omega)]
    rfl
  | d + 1, hd, x => by
    have hvac : node F rd r (d₀ + 1) (x₀ * F.width + i) = none := by
      rw [node_child h.index h.bound h.table, h.vacant]
    rw [node, node, node_add hinj h d (by omega)]
    by_cases hb : x < F.top * F.width ^ d
    · rw [if_pos hb, if_pos hb]
      by_cases hnew : d = d₀ + 1 ∧ x / F.width = x₀ * F.width + i
      · -- below the new table there is nothing yet
        rw [if_pos hnew, if_neg (by omega), Option.bind_some, h.empty, hnew.2, hnew.1, hvac]
        rfl
      rw [if_neg hnew]
      cases hq : node F rd r d (x / F.width) with
      | none =>
        rw [if_neg]
        · rfl
        rintro ⟨hdd, rfl⟩
        rw [digits_div h.index, show d = d₀ by omega, h.table] at hq
        cases hq
      | some q =>
        have hqp : q ≠ p := by
          rintro rfl
          exact h.fresh d _ (by omega) hq
        rw [Option.bind_some, Option.bind_some]
        by_cases hti : q = t ∧ x % F.width = i
        · obtain ⟨rfl, hmod⟩ := hti
          obtain ⟨rfl, hdiv⟩ := hinj (by omega) h.depth.le hq h.table
          rw [if_pos ⟨rfl, by rw [← hdiv, ← hmod, digits_eq]⟩, hmod, h.link]
        · rw [if_neg, h.other q _ hqp fun hqt hm => hti ⟨hqt, hm⟩]
          rintro ⟨hdd, rfl⟩
          rw [digits_div h.index, show d = d₀ by omega, h.table] at hq
          exact hti ⟨(Option.some.inj hq).symm, digits_mod h.index⟩
    · rw [if_neg hb, if_neg hb, if_neg]
      rintro ⟨hdd, rfl⟩
      obtain rfl : d = d₀ := by omega
      exact hb h.bound

variable {d x : ℕ}

theorem Adds.keeps (hinj : Inj F rd r n) (h : Adds F rd rd' r t p n d₀ x₀ i) (hd : d ≤ n) {q : P}
    (hq : node F rd r d x = some q) : node F rd' r d x = some q := by
  rw [node_add hinj h d hd, if_neg, hq]
  rintro ⟨rfl, rfl⟩
  rw [node_child h.index h.bound h.table, h.vacant] at hq
  cases hq

/-- Adding a table changes no key. -/
theorem find_add {e₀ : E} (hinj : Inj F rd r n) (h : Adds F rd rd' r t p n d₀ x₀ i)
    (hp : ∀ j, rd' p j = e₀) (v : ℕ) : find F rd' r n e₀ v = find F rd r n e₀ v := by
  rw [find, find, node_add hinj h n le_rfl]
  by_cases hnew : n = d₀ + 1 ∧ v / F.width = x₀ * F.width + i
  · have hvac : node F rd r n (v / F.width) = none := by
      rw [hnew.2, hnew.1, node_child h.index h.bound h.table, h.vacant]
    rw [if_pos hnew, hvac, Option.map_some, hp]
    rfl
  · rw [if_neg hnew]
    cases hq : node F rd r n (v / F.width) with
    | none => rfl
    | some q =>
      have hqp : q ≠ p := by
        rintro rfl
        exact h.fresh n _ le_rfl hq
      have hqt : q ≠ t := by
        rintro rfl
        have := (hinj le_rfl h.depth.le hq h.table).1
        have := h.depth
        omega
      rw [Option.map_some, Option.map_some, h.other q _ hqp fun he => absurd he hqt]

/-- **Writing at the bottom** adds no node … -/
theorem node_set (hinj : Inj F rd r n) (ht : node F rd r n x₀ = some t)
    (hother : ∀ q, q ≠ t → rd' q = rd q) : ∀ d, d ≤ n → ∀ x, node F rd' r d x = node F rd r d x :=
  node_congr fun d x q hd hq => hother q (by
    rintro rfl
    have := (hinj hd.le le_rfl hq ht).1
    omega)

/-- … and changes one key. -/
theorem find_set (rd' : P → ℕ → E) (e₀ : E) (hinj : Inj F rd r n) (hi : i < F.width) (ht : node F rd r n x₀ = some t)
    (hother : ∀ q j, (q = t → j ≠ i) → rd' q j = rd q j) (v : ℕ) :
    find F rd' r n e₀ v = if v = x₀ * F.width + i then rd' t i else find F rd r n e₀ v := by
  have hq : ∀ q, q ≠ t → rd' q = rd q := fun q hq => funext fun j => hother q j fun h => absurd h hq
  rw [find, find, node_set hinj ht hq n le_rfl]
  by_cases hv : v = x₀ * F.width + i
  · rw [if_pos hv, hv, digits_div hi, digits_mod hi, ht]
    rfl
  · rw [if_neg hv]
    cases hn : node F rd r n (v / F.width) with
    | none => rfl
    | some q =>
      rw [Option.map_some, Option.map_some, hother q _]
      rintro rfl hm
      have hdiv := (hinj le_rfl le_rfl hn ht).2
      exact hv (by rw [← hdiv, ← hm, digits_eq])

/-! ## Subtrees -/

/-- The position `(e, y)` is in the subtree of `(d, x)`. -/
def Below (F : Format P E) (d x e y : ℕ) : Prop := d ≤ e ∧ y / F.width ^ (e - d) = x

theorem Below.refl (d x : ℕ) : Below F d x d x := ⟨le_rfl, by simp⟩

theorem below_self_iff {d x y : ℕ} : Below F d x d y ↔ y = x := by simp [Below]

/-- Positions further down are below one of the children. -/
theorem below_iff {d x e y : ℕ} (h : d < e) :
    Below F d x e y ↔ ∃ i < F.width, Below F (d + 1) (x * F.width + i) e y := by
  obtain ⟨j, rfl⟩ : ∃ j, e = d + 1 + j := ⟨e - (d + 1), by omega⟩
  simp only [Below, show d + 1 + j - (d + 1) = j by omega, show d + 1 + j - d = j + 1 by omega,
    pow_succ, ← Nat.div_div_eq_div_mul]
  constructor
  · rintro ⟨-, rfl⟩
    exact ⟨_, Nat.mod_lt _ F.width_pos, by omega, (digits_eq _).symm⟩
  · rintro ⟨i, hi, -, hy⟩
    exact ⟨by omega, by rw [hy, digits_div hi]⟩

/-- Below a missing table there is nothing. -/
theorem node_below_none (hn : node F rd r d x = none) :
    ∀ {e y : ℕ}, Below F d x e y → node F rd r e y = none := by
  intro e y h
  obtain ⟨j, rfl⟩ : ∃ j, e = d + j := ⟨e - d, by have := h.1; omega⟩
  induction j generalizing y with
  | zero => rwa [below_self_iff.1 h]
  | succ j ih =>
    have hup : Below F d x (d + j) (y / F.width) := by
      refine ⟨by omega, ?_⟩
      rw [← h.2, show d + (j + 1) - d = j + 1 by omega, show d + j - d = j by omega, pow_succ',
        Nat.div_div_eq_div_mul]
    rw [← Nat.add_assoc, node, ih hup]
    exact ite_self _

theorem node_lt (h : node F rd r (d + 1) x = some t) : x < F.top * F.width ^ d := by
  by_contra hx
  rw [node, if_neg hx] at h
  cases h

end Radix
