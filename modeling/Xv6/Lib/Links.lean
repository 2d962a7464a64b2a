/-
  Doubly linked circular lists.

  `Circle s h l` says that the links `next` lead from the head `h` through the
  nodes `l` back to `h`, and the links `prev` through them in the other
  direction.  A node is taken out, or put in after the head, by single
  assignments to links; both keep a circle a circle (`Circle.remove`,
  `Circle.insert`), and a loop along the links visits the nodes in order
  (`scan_path`).
-/
import Xv6.Lib.Ring

namespace Ring

open Function

variable {α : Type*}

structure Links (α : Type*) where
  next : α → α
  prev : α → α

namespace Links

variable [DecidableEq α]

/-- `b->next->prev = b->prev; b->prev->next = b->next;` -/
def remove (s : Links α) (b : α) : Links α :=
  let s := { s with prev := update s.prev (s.next b) (s.prev b) }
  { s with next := update s.next (s.prev b) (s.next b) }

/-- `b->next = h->next; b->prev = h; h->next->prev = b; h->next = b;` -/
def insert (s : Links α) (h b : α) : Links α :=
  let s := { s with next := update s.next b (s.next h) }
  let s := { s with prev := update s.prev b h }
  let s := { s with prev := update s.prev (s.next h) b }
  { s with next := update s.next h b }

end Links

def Links.flip (s : Links α) : Links α := ⟨s.prev, s.next⟩

structure Circle (s : Links α) (h : α) (l : List α) : Prop where
  nodup : (h :: l).Nodup
  next : Path s.next h l h
  prev : Path s.prev h l.reverse h

variable {s : Links α} {h b z : α} {l l₁ l₂ : List α}

theorem Path.next_eq {next : α → α} (hp : Path next b l z) : (l ++ [z]).head? = some (next b) := by
  cases l with
  | nil => exact congrArg some hp.symm
  | cons c l => exact congrArg some hp.1.symm

namespace Circle

theorem flip (hc : Circle s h l) : Circle s.flip h l.reverse where
  nodup := by
    have hnd := hc.nodup
    rw [List.nodup_cons] at hnd ⊢
    rw [List.mem_reverse, List.nodup_reverse]
    exact hnd
  next := hc.prev
  prev := by
    rw [List.reverse_reverse]
    exact hc.next

/-- The node after `b`. -/
theorem next_eq (hc : Circle s h (l₁ ++ b :: l₂)) : (l₂ ++ [h]).head? = some (s.next b) :=
  (path_append.1 hc.next).2.next_eq

/-- The node before `b`. -/
theorem prev_eq (hc : Circle s h (l₁ ++ b :: l₂)) : (h :: l₁).getLast? = some (s.prev b) := by
  have hp := hc.prev
  rw [List.reverse_append, List.reverse_cons, List.append_assoc, List.singleton_append] at hp
  have heq := (path_append.1 hp).2.next_eq
  rw [← List.reverse_cons, List.head?_reverse] at heq
  exact heq

theorem prev_next (hc : Circle s h l) {x : α} (hx : x ∈ h :: l) : s.prev (s.next x) = x := by
  rcases List.mem_cons.1 hx with rfl | hx
  · cases l with
    | nil =>
      have h1 : s.next x = x := hc.next
      have h2 : s.prev x = x := hc.prev
      rw [h1, h2]
    | cons c l =>
      have h1 : s.next x = c := hc.next.1
      have hc' : Circle s x ([] ++ c :: l) := hc
      have h2 : [x].getLast? = some (s.prev c) := hc'.prev_eq
      rw [h1]
      exact (Option.some.inj h2).symm
  · obtain ⟨l₁, l₂, rfl⟩ := List.append_of_mem hx
    have hnext := hc.next_eq
    cases l₂ with
    | nil =>
      have h1 : h = s.next x := Option.some.inj hnext
      have hp := hc.prev.next_eq
      rw [List.reverse_append, List.reverse_singleton, List.singleton_append] at hp
      rw [← h1]
      exact (Option.some.inj hp).symm
    | cons c l₂ =>
      have h1 : c = s.next x := Option.some.inj hnext
      have hc' : Circle s h ((l₁ ++ [x]) ++ c :: l₂) := by
        rw [List.append_assoc, List.singleton_append]
        exact hc
      have hp := hc'.prev_eq
      rw [← List.cons_append, List.getLast?_append_of_ne_nil _ (by simp)] at hp
      rw [← h1]
      exact (Option.some.inj hp).symm

theorem next_prev (hc : Circle s h l) {x : α} (hx : x ∈ h :: l) : s.next (s.prev x) = x :=
  hc.flip.prev_next (by simpa using hx)

variable [DecidableEq α]

/-- **A node is taken out.** -/
theorem remove (hc : Circle s h (l₁ ++ b :: l₂)) : Circle (s.remove b) h (l₁ ++ l₂) := by
  have hnd : (h :: (l₁ ++ l₂)).Nodup :=
    hc.nodup.sublist (((List.sublist_cons_self b l₂).append_left l₁).cons_cons h)
  have hnd' : (h :: (l₂.reverse ++ l₁.reverse)).Nodup := by
    rw [← List.reverse_append, List.nodup_cons, List.mem_reverse, List.nodup_reverse]
    exact List.nodup_cons.1 hnd
  have hprev := hc.prev_eq
  have hnext : (h :: l₂.reverse).getLast? = some (s.next b) := by
    have := hc.next_eq
    rwa [← List.getLast?_reverse, List.reverse_append] at this
  have hne : s.next b ≠ b := by
    intro heq
    have hmem := List.mem_of_getLast? hnext
    have hnot := hc.nodup
    rw [heq] at hmem
    simp only [List.nodup_cons, List.nodup_append, List.mem_append, List.mem_cons] at hnot
    simp only [List.mem_cons, List.mem_reverse] at hmem
    tauto
  have heq : s.remove b = ⟨update s.next (s.prev b) (s.next b),
      update s.prev (s.next b) (s.prev b)⟩ := by
    simp only [Links.remove, update_of_ne hne.symm]
  rw [heq]
  refine ⟨hnd, ?_, ?_⟩
  · exact hc.next.unlink hnd hprev (update_self ..)
      fun x _ hx => update_of_ne hx ..
  · have hp := hc.prev
    rw [List.reverse_append, List.reverse_cons, List.append_assoc, List.singleton_append] at hp
    rw [List.reverse_append]
    exact hp.unlink hnd' hnext (update_self ..) fun x _ hx => update_of_ne hx ..

/-- **A node is put in** after the head. -/
theorem insert (hc : Circle s h l) (hb : b ∉ h :: l) : Circle (s.insert h b) h (b :: l) := by
  have hbh : h ≠ b := fun heq => hb (heq ▸ List.mem_cons_self)
  have hfirst : (h :: l.reverse).getLast? = some (s.next h) := by
    have := hc.next.next_eq
    rwa [← List.getLast?_reverse, List.reverse_append] at this
  have hne : ∀ {x}, x ∈ h :: l → x ≠ b := fun hx heq => hb (heq ▸ hx)
  have hn : (s.insert h b).next = update (update s.next b (s.next h)) h b := rfl
  have hp : (s.insert h b).prev = update (update s.prev b h) (s.next h) b := by
    simp only [Links.insert, update_of_ne hbh]
  have hmem : s.next h ∈ h :: l := by
    have := List.mem_of_getLast? hfirst
    simpa using this
  refine ⟨?_, ?_, ?_⟩
  · have hnd := hc.nodup
    rw [List.nodup_cons] at hnd ⊢
    simp only [List.mem_cons, List.nodup_cons] at hb ⊢
    tauto
  · rw [hn]
    refine ⟨update_self .., hc.next.head ?_ fun x hx => ?_⟩
    · rw [update_of_ne hbh.symm, update_self]
    · have hxh : x ≠ h := by
        rintro rfl
        exact (List.nodup_cons.1 hc.nodup).1 hx
      rw [update_of_ne hxh, update_of_ne (hne (List.mem_cons_of_mem h hx))]
  · rw [hp, List.reverse_cons]
    refine path_append.2 ⟨?_, ?_⟩
    · refine hc.prev.redirect hc.flip.nodup hfirst (update_self ..) fun x hx hxy => ?_
      have hx' : x ∈ h :: l := by simpa using hx
      rw [update_of_ne hxy, update_of_ne (hne hx')]
    · show update (update s.prev b h) (s.next h) b b = h
      rw [update_of_ne (hne hmem).symm, update_self]

end Circle

/-! ## Loops along the links -/

/-- `for(b = h->next; b != h; b = b->next) if(p(b)) return b;`, at most `fuel` rounds of it; the
    head is `none`. -/
def scan (p : α → Bool) (next : Option α → Option α) : ℕ → Option α → Option α
  | 0, _ => none
  | _ + 1, none => none
  | fuel + 1, some b => if p b then some b else scan p next fuel (next (some b))

/-- **The loop** finds the first node that passes the test. -/
theorem scan_path {p : α → Bool} {next : Option α → Option α} {a : Option α} {l : List α}
    (h : Path next a (l.map some) none) {fuel : ℕ} (hfuel : l.length ≤ fuel) :
    scan p next fuel (next a) = l.find? p := by
  induction l generalizing a fuel with
  | nil =>
    have hn : next a = none := h
    rw [hn]
    cases fuel <;> rfl
  | cons b l ih =>
    cases fuel with
    | zero => cases hfuel
    | succ fuel =>
      obtain ⟨hb, h⟩ := h
      rw [hb, scan, List.find?_cons, ih h (Nat.le_of_succ_le_succ hfuel)]
      cases p b <;> rfl

end Ring
