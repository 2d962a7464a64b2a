/-
  Resources with exactly one owner.

  A map `σ` from owners to the resource they hold, if any, fits a set of
  resources in use when no resource has two owners and those in use are the
  owned ones (`Owns`).  An owner without a resource takes a free one, gives its
  resource back, or passes it on.
-/
import Mathlib.Logic.Function.Basic

namespace Own

open Function

variable {K V : Type*}

/-- Every resource in use has exactly one owner, and owned resources are in use. -/
structure Owns (σ : K → Option V) (used : V → Prop) : Prop where
  inj : ∀ {k l v}, σ k = some v → σ l = some v → k = l
  used_iff : ∀ v, used v ↔ ∃ k, σ k = some v

namespace Owns
variable {σ τ : K → Option V} {used used' : V → Prop} {k l : K} {v : V}

theorem mem (h : Owns σ used) (hk : σ k = some v) : used v := (h.used_iff v).2 ⟨k, hk⟩

theorem congr (h : Owns σ used) (hσ : ∀ k, τ k = σ k) (hu : ∀ v, used' v ↔ used v) :
    Owns τ used' where
  inj hk hl := h.inj (hσ _ ▸ hk) (hσ _ ▸ hl)
  used_iff v := by simp only [hu, h.used_iff, hσ]

/-- Owner `k` takes the free resource `v`. -/
theorem take (h : Owns σ used) (hk : σ k = none) (hv : ¬ used v) (hτ : τ k = some v)
    (hσ : ∀ l, l ≠ k → τ l = σ l) (hu : ∀ w, used' w ↔ w = v ∨ used w) : Owns τ used' := by
  have hcase : ∀ {l w}, τ l = some w → l = k ∧ w = v ∨ l ≠ k ∧ σ l = some w := by
    intro l w hl
    by_cases hlk : l = k
    · subst hlk
      rw [hτ] at hl
      exact .inl ⟨rfl, (Option.some.inj hl).symm⟩
    · exact .inr ⟨hlk, hσ l hlk ▸ hl⟩
  refine ⟨fun {l m w} hl hm => ?_, fun w => ?_⟩
  · rcases hcase hl with ⟨rfl, rfl⟩ | ⟨-, hl⟩ <;> rcases hcase hm with ⟨rfl, h2⟩ | ⟨-, hm⟩
    · rfl
    · exact absurd (h.mem hm) hv
    · exact absurd (h2 ▸ h.mem hl) hv
    · exact h.inj hl hm
  · rw [hu, h.used_iff]
    constructor
    · rintro (rfl | ⟨l, hl⟩)
      · exact ⟨k, hτ⟩
      · have hlk : l ≠ k := by rintro rfl; rw [hk] at hl; cases hl
        exact ⟨l, (hσ l hlk).trans hl⟩
    · rintro ⟨l, hl⟩
      rcases hcase hl with ⟨-, rfl⟩ | ⟨-, hl⟩
      · exact .inl rfl
      · exact .inr ⟨l, hl⟩

/-- Owner `k` gives its resource back. -/
theorem drop (h : Owns σ used) (hk : σ k = some v) (hτ : τ k = none)
    (hσ : ∀ l, l ≠ k → τ l = σ l) (hu : ∀ w, used' w ↔ w ≠ v ∧ used w) : Owns τ used' := by
  have hcase : ∀ {l w}, τ l = some w → l ≠ k ∧ σ l = some w := by
    intro l w hl
    have hlk : l ≠ k := by rintro rfl; rw [hτ] at hl; cases hl
    exact ⟨hlk, hσ l hlk ▸ hl⟩
  refine ⟨fun hl hm => h.inj (hcase hl).2 (hcase hm).2, fun w => ?_⟩
  rw [hu, h.used_iff]
  constructor
  · rintro ⟨hw, l, hl⟩
    have hlk : l ≠ k := by rintro rfl; exact hw (Option.some.inj (hl.symm.trans hk))
    exact ⟨l, (hσ l hlk).trans hl⟩
  · rintro ⟨l, hl⟩
    obtain ⟨hlk, hl⟩ := hcase hl
    exact ⟨fun hw => hlk (h.inj (hw ▸ hl) hk), l, hl⟩

/-- Owner `k` passes its resource on to `l`. -/
theorem pass (h : Owns σ used) (hk : σ k = some v) (hl : σ l = none) (hτk : τ k = none)
    (hτl : τ l = some v) (hσ : ∀ m, m ≠ k → m ≠ l → τ m = σ m) : Owns τ used := by
  classical
  have hkl : l ≠ k := by
    rintro rfl
    rw [hl] at hk
    cases hk
  have hdrop : Owns (update σ k none) fun w => w ≠ v ∧ used w :=
    h.drop hk (update_self ..) (fun m hm => update_of_ne hm ..) fun _ => Iff.rfl
  refine hdrop.take (k := l) (v := v) ?_ (fun hv => hv.1 rfl) hτl (fun m hm => ?_) fun w => ?_
  · rw [update_of_ne hkl, hl]
  · by_cases hmk : m = k
    · rw [hmk, update_self, hτk]
    · rw [update_of_ne hmk, hσ m hmk hm]
  · by_cases hw : w = v
    · simp [hw, h.mem hk]
    · simp [hw]

end Owns

end Own
