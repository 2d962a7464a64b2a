/-
  Maps in an array of slots.

  A slot is free or holds an element with a key.  Lookup takes the first slot
  with the key, insertion fills a free slot or appends one, removal frees the
  slot.  As long as no two slots have the same key, which slots are free and
  where they are makes no difference to lookup.
-/
import Mathlib.Data.List.Basic
import Mathlib.Order.Basic
import Mathlib.Order.Nat

namespace Slots

variable {α κ : Type*} {key : α → Option κ} {l l' : List α} {m n : ℕ} {a b : α} {k : κ}

/-- No two slots have the same key. -/
def Distinct (key : α → Option κ) (l : List α) : Prop :=
  ∀ ⦃m n : ℕ⦄ ⦃a b k⦄, l[m]? = some a → l[n]? = some b → key a = some k → key b = some k → m = n

/-- The list with slot `n` replaced, or appended at its end. -/
def put (l : List α) (n : ℕ) (a : α) : List α := l.take n ++ a :: l.drop (n + 1)

theorem getElem?_put (hn : n ≤ l.length) (a : α) (m : ℕ) :
    (put l n a)[m]? = if m = n then some a else l[m]? := by
  have hlen : (l.take n).length = n := List.length_take_of_le hn
  rcases lt_trichotomy m n with h | rfl | h
  · rw [put, List.getElem?_append_left (by omega), List.getElem?_take_of_lt h, if_neg h.ne]
  · rw [put, List.getElem?_append_right hlen.le, hlen, Nat.sub_self, if_pos rfl]
    rfl
  · rw [put, List.getElem?_append_right (by omega), hlen, if_neg h.ne',
      show m - n = (m - n - 1) + 1 by omega, List.getElem?_cons_succ, List.getElem?_drop]
    congr 1
    omega

theorem length_put (hn : n ≤ l.length) (a : α) : (put l n a).length = max l.length (n + 1) := by
  simp only [put, List.length_append, List.length_take, List.length_cons, List.length_drop]
  omega

/-- A slot without a key is replaced by one with a new key. -/
theorem Distinct.put (h : Distinct key l) (hn : n ≤ l.length)
    (hk : ∀ {m : ℕ} {b}, l[m]? = some b → key b = some k → m = n) (ha : key a = some k ∨ key a = none) :
    Distinct key (put l n a) := by
  intro i j b c k' hi hj hb hc
  rw [getElem?_put hn] at hi hj
  have hself : ∀ {m : ℕ} {c}, l[m]? = some c → key c = some k' → key a = some k' → m = n := by
    intro m c hm hc ha'
    rcases ha with hk' | hnone
    · rw [hk'] at ha'
      exact hk hm (hc.trans ha'.symm)
    · rw [hnone] at ha'
      cases ha'
  split_ifs at hi hj with hin hjn hjn
  · rw [hin, hjn]
  · cases hi
    exact hin.trans (hself hj hc hb).symm
  · cases hj
    exact (hself hi hb hc).trans hjn.symm
  · exact h hi hj hb hc

variable [DecidableEq κ]

/-- The first element with key `k`, and its slot. -/
def find (key : α → Option κ) (l : List α) (k : κ) : Option (α × ℕ) :=
  (l.find? fun a => key a = some k).map fun a => (a, l.findIdx fun a => key a = some k)

theorem find_none : find key l k = none ↔ ∀ a ∈ l, key a ≠ some k := by
  simp [find]

theorem getElem?_of_find (h : find key l k = some (a, n)) : l[n]? = some a ∧ key a = some k := by
  obtain ⟨b, hb, heq⟩ := Option.map_eq_some_iff.1 h
  cases heq
  exact ⟨List.find?_eq_getElem?_findIdx.symm.trans hb, of_decide_eq_true (List.find?_some hb :)⟩

/-- Without duplicates, there is nothing to being first. -/
theorem Distinct.find (h : Distinct key l) :
    find key l k = some (a, n) ↔ l[n]? = some a ∧ key a = some k := by
  refine ⟨getElem?_of_find, fun h' => ?_⟩
  obtain ⟨hn, hk⟩ := h'
  cases hf : Slots.find key l k with
  | none => exact absurd hk (find_none.1 hf a (List.mem_of_getElem? hn))
  | some p =>
    obtain ⟨b, m⟩ := p
    obtain ⟨hm, hb⟩ := getElem?_of_find hf
    obtain rfl := h hm hn hb hk
    rw [hn] at hm
    cases hm
    rfl

/-- **Lookup** depends only on the slots with the key. -/
theorem Distinct.find_congr (h : Distinct key l) (h' : Distinct key l')
    (hsame : ∀ {n : ℕ} {a}, key a = some k → (l'[n]? = some a ↔ l[n]? = some a)) :
    Slots.find key l' k = Slots.find key l k := by
  refine Option.ext fun p => ?_
  obtain ⟨a, n⟩ := p
  rw [h.find, h'.find]
  constructor
  · exact fun h => ⟨(hsame h.2).1 h.1, h.2⟩
  · exact fun h => ⟨(hsame h.2).2 h.1, h.2⟩

/-- A slot with another key, or none, before and after. -/
theorem Distinct.find_put_ne (h : Distinct key l) (h' : Distinct key (Slots.put l n a))
    (hn : n ≤ l.length) (ha : key a ≠ some k) (hk : ∀ {b}, l[n]? = some b → key b ≠ some k) :
    Slots.find key (Slots.put l n a) k = Slots.find key l k := by
  refine h.find_congr h' fun {m b} hb => ?_
  rw [getElem?_put hn]
  split_ifs with hm
  · subst hm
    constructor
    · intro hab
      cases hab
      exact absurd hb ha
    · exact fun hlb => absurd hb (hk hlb)
  · rfl

end Slots
