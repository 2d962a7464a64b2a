/-
  Redo logs over a map.

  A list of writes is applied to a map from left to right (`redo`).  Addresses
  that are not written keep their value (`redo_notMem`), and when the addresses
  of the list are distinct every write of it is found in the result
  (`redo_mem`).
-/
import Mathlib.Logic.Function.Basic
import Mathlib.Data.List.Basic

namespace Redo

variable {α β : Type*} [DecidableEq α]

/-- Apply writes from left to right. -/
def redo (ws : List (α × β)) (d : α → β) : α → β :=
  ws.foldl (fun d w => Function.update d w.1 w.2) d

@[simp] theorem redo_nil (d : α → β) : redo [] d = d := rfl

@[simp] theorem redo_cons (w : α × β) (ws : List (α × β)) (d : α → β) :
    redo (w :: ws) d = redo ws (Function.update d w.1 w.2) := rfl

theorem redo_append (ws vs : List (α × β)) (d : α → β) : redo (ws ++ vs) d = redo vs (redo ws d) :=
  List.foldl_append

/-- An address that is not written keeps its value. -/
theorem redo_notMem {x : α} : ∀ {ws : List (α × β)} (d : α → β), (∀ w ∈ ws, w.1 ≠ x) →
    redo ws d x = d x
  | [], _, _ => rfl
  | w :: ws, d, h => by
    rw [redo_cons, redo_notMem _ fun v hv => h v (List.mem_cons_of_mem _ hv)]
    exact Function.update_of_ne (h w List.mem_cons_self).symm _ _

/-- With distinct addresses every write of the list is found in the result. -/
theorem redo_mem {x : α} {v : β} : ∀ {ws : List (α × β)} (d : α → β), (ws.map Prod.fst).Nodup →
    (x, v) ∈ ws → redo ws d x = v
  | w :: ws, d, hnd, h => by
    obtain ⟨hw, hnd⟩ := List.nodup_cons.1 hnd
    rw [redo_cons]
    rcases List.mem_cons.1 h with rfl | h
    · rw [redo_notMem, Function.update_self]
      exact fun u hu hx => hw (List.mem_map.2 ⟨u, hu, hx⟩)
    · exact redo_mem _ hnd h

end Redo
