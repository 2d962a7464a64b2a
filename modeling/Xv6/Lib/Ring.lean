/-
  Circular linked lists.

  `next` gives the link of every node.  `Path next a l z` says that the links
  lead from `a` through the nodes `l` to `z`; a circle through `a :: l` is a
  path from `a` to itself, and the same circle starts at any of its nodes
  (`Path.rotate`).  A loop that follows the links from some node until a test
  succeeds (`seek`) stops at the node of the circle that passes the test.
-/
import Mathlib.Data.List.Basic
import Mathlib.Data.List.Nodup
import Mathlib.Order.Lattice

namespace Ring

variable {α : Type*} {next next' : α → α} {a b z : α} {l l₁ l₂ : List α}

/-- The links lead from `a` through `l` to `z`. -/
def Path (next : α → α) : α → List α → α → Prop
  | a, [], z => next a = z
  | a, b :: l, z => next a = b ∧ Path next b l z

theorem path_append : Path next a (l₁ ++ b :: l₂) z ↔ Path next a l₁ b ∧ Path next b l₂ z := by
  induction l₁ generalizing a with
  | nil => simp [Path]
  | cons c l₁ ih => simp [Path, ih, and_assoc]

theorem Path.congr (h : Path next a l z) (hn : ∀ x ∈ a :: l, next' x = next x) :
    Path next' a l z := by
  induction l generalizing a with
  | nil => exact (hn a (by simp)).trans h
  | cons b l ih =>
    obtain ⟨hb, h⟩ := h
    exact ⟨(hn a (by simp)).trans hb, ih h fun x hx => hn x (List.mem_cons_of_mem a hx)⟩

variable {y : α} {stop : α → Bool}

/-- A path is cut after one of its nodes. -/
theorem Path.split_last (h : Path next a (l₁ ++ l₂) z) (hy : (a :: l₁).getLast? = some y) :
    Path next a l₁ (next y) ∧ Path next y l₂ z := by
  induction l₁ generalizing a with
  | nil =>
    obtain rfl : a = y := by simpa using hy
    exact ⟨rfl, h⟩
  | cons b l₁ ih =>
    rw [List.getLast?_cons_cons] at hy
    obtain ⟨h₁, h₂⟩ := ih h.2 hy
    exact ⟨⟨h.1, h₁⟩, h₂⟩

theorem Path.last (h : Path next a l z) (hy : (a :: l).getLast? = some y) : next y = z := by
  rw [← List.append_nil l] at h
  exact (h.split_last hy).2

/-- A path goes on the same way from a node with the same link. -/
theorem Path.head (h : Path next b l z) (ha : next' a = next b) (hn : ∀ x ∈ l, next' x = next x) :
    Path next' a l z := by
  cases l with
  | nil => exact ha.trans h
  | cons c l => exact ⟨ha.trans h.1, h.2.congr hn⟩

/-- The last link of a path is changed. -/
theorem Path.redirect {y z' : α} (h : Path next a l z) (hl : (a :: l).Nodup)
    (hy : (a :: l).getLast? = some y) (hz : next' y = z')
    (hn : ∀ x ∈ a :: l, x ≠ y → next' x = next x) : Path next' a l z' := by
  induction l generalizing a with
  | nil =>
    obtain rfl : a = y := by simpa using hy
    exact hz
  | cons b l ih =>
    obtain ⟨hb, h⟩ := h
    obtain ⟨ha, hl⟩ := List.nodup_cons.1 hl
    rw [List.getLast?_cons_cons] at hy
    have hne : a ≠ y := fun heq => ha (heq ▸ List.mem_of_getLast? hy)
    exact ⟨(hn a (by simp) hne).trans hb, ih h hl hy fun x hx => hn x (by simp [hx])⟩

/-- A node is taken out of a path. -/
theorem Path.unlink (h : Path next a (l₁ ++ b :: l₂) z) (hl : (a :: (l₁ ++ l₂)).Nodup)
    (hy : (a :: l₁).getLast? = some y) (hb : next' y = next b)
    (hn : ∀ x ∈ a :: (l₁ ++ l₂), x ≠ y → next' x = next x) : Path next' a (l₁ ++ l₂) z := by
  induction l₁ generalizing a with
  | nil =>
    obtain rfl : a = y := by simpa using hy
    obtain ⟨ha, -⟩ := List.nodup_cons.1 hl
    exact h.2.head hb fun x hx => hn x (List.mem_cons_of_mem a hx) fun heq => ha (heq ▸ hx)
  | cons c l₁ ih =>
    obtain ⟨ha, hl⟩ := List.nodup_cons.1 hl
    rw [List.getLast?_cons_cons] at hy
    have hne : a ≠ y := fun heq => ha (heq ▸ List.mem_append_left l₂ (List.mem_of_getLast? hy))
    exact ⟨(hn a (by simp) hne).trans h.1,
      ih h.2 hl hy fun x hx => hn x (List.mem_cons_of_mem a hx)⟩

/-- A circle starts at any of its nodes. -/
theorem Path.rotate (h : Path next a (l₁ ++ b :: l₂) a) : Path next b (l₂ ++ a :: l₁) b := by
  obtain ⟨h₁, h₂⟩ := path_append.1 h
  exact path_append.2 ⟨h₂, h₁⟩

/-- What comes before and after a node. -/
theorem Path.split_mem (h : Path next a l z) (hb : b ∈ a :: l) :
    ∃ l₁ l₂, a :: l = l₁ ++ b :: l₂ ∧ Path next b l₂ z := by
  rcases List.mem_cons.1 hb with rfl | hb
  · exact ⟨[], l, rfl, h⟩
  · obtain ⟨l₁, l₂, rfl⟩ := List.append_of_mem hb
    exact ⟨a :: l₁, l₂, rfl, (path_append.1 h).2⟩

/-- In a sorted circle the link leads to the next node above, or from the last node back. -/
theorem Path.succ [LinearOrder α] (h : Path next a l a) (hs : (a :: l).Pairwise (· < ·))
    (hb : b ∈ a :: l) :
    (b < next b ∧ ∀ x ∈ a :: l, b < x → next b ≤ x) ∨ (next b = a ∧ ∀ x ∈ a :: l, x ≤ b) := by
  obtain ⟨l₁, l₂, hl, hp⟩ := h.split_mem hb
  rw [hl, List.pairwise_append, List.pairwise_cons] at hs
  obtain ⟨-, ⟨hs₂, hs₃⟩, hs₁⟩ := hs
  have hle : ∀ x ∈ l₁ ++ b :: l₂, b < x → x ∈ l₂ := by
    intro x hx hlt
    rcases List.mem_append.1 hx with hx | hx
    · exact absurd (hs₁ x hx b (by simp)) (lt_asymm hlt)
    · exact (List.mem_cons.1 hx).resolve_left (ne_of_gt hlt)
  cases l₂ with
  | nil =>
    refine .inr ⟨hp, fun x hx => ?_⟩
    by_contra hlt
    exact absurd (hle x (hl ▸ hx) (lt_of_not_ge hlt)) (by simp)
  | cons c l₂ =>
    obtain ⟨rfl, hp⟩ := hp
    refine .inl ⟨hs₂ _ (by simp), fun x hx hlt => ?_⟩
    rcases List.mem_cons.1 (hle x (hl ▸ hx) hlt) with rfl | hx
    · exact le_rfl
    · exact le_of_lt ((List.pairwise_cons.1 hs₃).1 x hx)

/-- The circle, seen from one of its nodes. -/
theorem Path.from_mem (h : Path next a l a) (hb : b ∈ a :: l) :
    ∃ l', Path next b l' b ∧ (b :: l').Perm (a :: l) := by
  rcases List.mem_cons.1 hb with rfl | hb
  · exact ⟨l, h, .refl _⟩
  · obtain ⟨l₁, l₂, rfl⟩ := List.append_of_mem hb
    refine ⟨l₂ ++ a :: l₁, h.rotate, ?_⟩
    calc (b :: (l₂ ++ a :: l₁)).Perm (a :: l₁ ++ b :: l₂) := by
          simpa using @List.perm_append_comm _ (b :: l₂) (a :: l₁)
      _ = a :: (l₁ ++ b :: l₂) := rfl

/-- Following the links through a circle visits its nodes in turn, each from one node only. -/
theorem Path.map_next (h : Path next a l z) : (a :: l).map next = l ++ [z] := by
  induction l generalizing a with
  | nil => simpa [Path] using h
  | cons b l ih => rw [List.map_cons, ih h.2, h.1]; rfl

theorem Path.next_inj (h : Path next a l a) (hl : (a :: l).Nodup) {x y : α} (hx : x ∈ a :: l)
    (hy : y ∈ a :: l) (hxy : next x = next y) : x = y := by
  have hnd : ((a :: l).map next).Nodup := by
    rw [h.map_next]
    exact (List.perm_append_comm.nodup_iff).1 hl
  exact List.inj_on_of_nodup_map hnd hx hy hxy

theorem Path.next_mem (h : Path next a l a) {x : α} (hx : x ∈ a :: l) : next x ∈ a :: l := by
  have hmem : next x ∈ (a :: l).map next := List.mem_map_of_mem hx
  rw [h.map_next] at hmem
  simpa [or_comm] using hmem

/-- `for(p = a; !stop(p); p = next(p));`, running for at most `n` rounds. -/
def seek (stop : α → Bool) (next : α → α) : ℕ → α → Option α
  | 0, _ => none
  | n + 1, a => if stop a then some a else seek stop next n (next a)

theorem seek_mono {m n : ℕ} (hmn : m ≤ n) (h : seek stop next m a = some b) :
    seek stop next n a = some b := by
  induction m generalizing n a with
  | zero => cases h
  | succ m ih =>
    obtain ⟨n, rfl⟩ : ∃ k, n = k + 1 := ⟨n - 1, by omega⟩
    rw [seek] at h ⊢
    split_ifs at h ⊢ with hs
    · exact h
    · exact ih (by omega) h

/-- The nodes that do not pass the test are skipped. -/
theorem seek_path (n : ℕ) (h : Path next a l z) (hl : ∀ x ∈ a :: l, stop x = false) :
    seek stop next (n + (l.length + 1)) a = seek stop next n z := by
  induction l generalizing a with
  | nil =>
    have hz : next a = z := h
    simp [seek, hl a (by simp), hz]
  | cons b l ih =>
    rw [List.length_cons, ← Nat.add_assoc, seek, hl a (by simp), if_neg (by simp), h.1]
    exact ih h.2 fun x hx => hl x (List.mem_cons_of_mem a hx)

/-- **The loop stops** at the one node of the circle that passes the test. -/
theorem seek_ring (h : Path next a l a) (hb : b ∈ a :: l)
    (hs : ∀ x ∈ a :: l, stop x = true ↔ x = b) :
    ∀ n, l.length < n → seek stop next n a = some b := by
  intro n hn
  by_cases ha : a = b
  · obtain ⟨n, rfl⟩ := Nat.exists_eq_add_of_lt hn
    rw [seek, if_pos ((hs a (by simp)).2 ha), ha]
  · obtain ⟨l₁, l₂, rfl, hb₁⟩ := List.eq_append_cons_of_mem
      ((List.mem_cons.1 hb).resolve_left (Ne.symm ha))
    obtain ⟨m, rfl⟩ : ∃ m, n = m + 1 + (l₁.length + 1) := by
      rw [List.length_append, List.length_cons] at hn
      exact ⟨n - (l₁.length + 2), by omega⟩
    rw [seek_path _ (path_append.1 h).1, seek, if_pos ((hs b hb).2 rfl)]
    intro x hx
    refine Bool.eq_false_iff.2 fun hst => ?_
    obtain rfl := (hs x (by simp at hx ⊢; tauto)).1 hst
    exact (List.mem_cons.1 hx).elim (fun h => ha h.symm) hb₁

end Ring
