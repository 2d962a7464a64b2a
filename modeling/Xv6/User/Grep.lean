/-
  The pattern matcher of `grep` (`grep.c`).

  A string is a list of bytes; past its end it reads as NUL.  `match'`,
  `matchhere` and `matchstar` are those of `grep.c`.  The meaning of a pattern is
  given without them: it is read into items, every item denotes a language, and
  the pattern matches where a word of the product of these languages is found
  in the text.
-/
import Mathlib.Computability.Language

namespace Xv6.Grep

abbrev caret : UInt8 := 94
abbrev star : UInt8 := 42
abbrev dollar : UInt8 := 36
abbrev dot : UInt8 := 46

/-! ## `grep.c` -/

mutual
/-- Search for `re` at the beginning of `text`. -/
def matchhere : List UInt8 → List UInt8 → Bool
  | [], _ => true
  | c :: re, text =>
    if c = 0 then true
    else if re.headD 0 = star then matchstar c re.tail text
    else if c = dollar ∧ re.headD 0 = 0 then text.headD 0 = 0
    else if text.headD 0 ≠ 0 ∧ (c = dot ∨ c = text.headD 0) then matchhere re text.tail
    else false
termination_by re text => (re.length, text.length, 0)

/-- Search for `c*re` at the beginning of `text`; a `*` matches zero or more instances. -/
def matchstar (c : UInt8) (re : List UInt8) : List UInt8 → Bool
  | [] => matchhere re []
  | t :: text =>
    if matchhere re (t :: text) then true
    else if t ≠ 0 ∧ (t = c ∨ c = dot) then matchstar c re text
    else false
termination_by text => (re.length, text.length, 1)
end

/-- The loop of `match`; it must look at the empty string. -/
def matchLoop (re : List UInt8) : List UInt8 → Bool
  | [] => matchhere re []
  | t :: text => if matchhere re (t :: text) then true else if t ≠ 0 then matchLoop re text else false

/-- `match` -/
def match' (re text : List UInt8) : Bool :=
  if re.headD 0 = caret then matchhere re.tail text else matchLoop re text

/-! ## What a pattern means -/

/-- An item of a pattern. -/
inductive Item where
  /-- a single character -/
  | char (c : UInt8)
  /-- a character followed by `*` -/
  | star (c : UInt8)
  deriving DecidableEq

/-- Read a pattern from left to right into items. -/
def items : List UInt8 → List Item
  | [] => []
  | [c] => [.char c]
  | c :: d :: re => if d = star then .star c :: items re else .char c :: items (d :: re)

/-- The words of one character that `c` stands for. -/
def charLang (c : UInt8) : Language UInt8 := {w | ∃ x, (c = dot ∨ x = c) ∧ w = [x]}

open Computability in
def Item.lang : Item → Language UInt8
  | .char c => charLang c
  | .star c => (charLang c)∗

/-- The last item is a single `$`. -/
def AtEnd (is : List Item) : Prop := is.getLast? = some (.char dollar)

instance (is : List Item) : Decidable (AtEnd is) := inferInstanceAs (Decidable (_ = _))

/-- The language of the items; a `$` at the end only says where in the text the word is. -/
def lang (is : List Item) : Language UInt8 :=
  ((if AtEnd is then is.dropLast else is).map Item.lang).prod

/-- Some substring of `text` matches the pattern `re`. -/
def Matches (re text : List UInt8) : Prop :=
  let anchored := re.head? = some caret
  let is := items (if re.head? = some caret then re.tail else re)
  ∃ u s v, text = u ++ s ++ v ∧ s ∈ lang is ∧ (anchored → u = []) ∧ (AtEnd is → v = [])

/-! ## Items at the beginning of a text -/

/-- The items match at the beginning of `text`. -/
def Begins (is : List Item) (text : List UInt8) : Prop :=
  ∃ s v, text = s ++ v ∧ s ∈ lang is ∧ (AtEnd is → v = [])

section
variable {is : List Item} {c t : UInt8} {re text : List UInt8}

theorem begins_nil (text : List UInt8) : Begins [] text :=
  ⟨[], text, rfl, rfl, by rintro ⟨⟩⟩

theorem begins_dollar : Begins [.char dollar] text ↔ text = [] := by
  constructor
  · rintro ⟨s, v, rfl, hs, hv⟩
    obtain rfl : s = [] := hs
    exact hv rfl
  · rintro rfl
    exact ⟨[], [], rfl, rfl, fun _ => rfl⟩

/-- The first item, unless it is the `$` at the end. -/
theorem begins_cons {i : Item} (h : ¬ AtEnd [i] ∨ is ≠ []) :
    Begins (i :: is) text ↔ ∃ s t, text = s ++ t ∧ s ∈ i.lang ∧ Begins is t := by
  have hend : AtEnd (i :: is) ↔ AtEnd is := by
    cases is with
    | nil => exact iff_of_false (h.resolve_right (absurd rfl)) (by rintro ⟨⟩)
    | cons j is => rw [AtEnd, AtEnd, List.getLast?_cons_cons]
  have hlang : lang (i :: is) = i.lang * lang is := by
    rw [lang, lang]
    by_cases hd : AtEnd is
    · rw [if_pos hd, if_pos (hend.2 hd), List.dropLast_cons_of_ne_nil, List.map_cons, List.prod_cons]
      rintro rfl
      cases hd
    · rw [if_neg hd, if_neg (mt hend.1 hd), List.map_cons, List.prod_cons]
  simp only [Begins, hend, hlang, Language.mem_mul]
  constructor
  · rintro ⟨-, v, rfl, ⟨s, hs, w, hw, rfl⟩, hv⟩
    exact ⟨s, w ++ v, List.append_assoc .., hs, w, v, rfl, hw, hv⟩
  · rintro ⟨s, -, rfl, hs, w, v, rfl, hw, hv⟩
    exact ⟨s ++ w, v, (List.append_assoc ..).symm, ⟨s, hs, w, hw, rfl⟩, hv⟩

theorem begins_char (h : c ≠ dollar ∨ is ≠ []) :
    Begins (.char c :: is) text ↔ ∃ x t, text = x :: t ∧ (c = dot ∨ x = c) ∧ Begins is t := by
  have h' : ¬ AtEnd [.char c] ∨ is ≠ [] := h.imp_left fun hc heq => hc (by cases heq; rfl)
  rw [begins_cons h']
  constructor
  · rintro ⟨-, t, rfl, ⟨x, hx, rfl⟩, ht⟩
    exact ⟨x, t, rfl, hx, ht⟩
  · rintro ⟨x, t, rfl, hx, ht⟩
    exact ⟨[x], t, rfl, ⟨x, hx, rfl⟩, ht⟩

/-- A starred item matches nothing, or a character and then itself. -/
theorem begins_star : Begins (.star c :: is) text ↔
    Begins is text ∨ ∃ x t, text = x :: t ∧ (c = dot ∨ x = c) ∧ Begins (.star c :: is) t := by
  have h : ∀ {text}, Begins (.star c :: is) text ↔
      ∃ s t, text = s ++ t ∧ s ∈ (Item.star c).lang ∧ Begins is t := begins_cons (.inl (by rintro ⟨⟩))
  have hunfold : (Item.star c).lang = 1 + charLang c * (Item.star c).lang :=
    (Language.one_add_self_mul_kstar_eq_kstar _).symm
  constructor
  · intro hb
    obtain ⟨s, t, rfl, hs, ht⟩ := h.1 hb
    rw [hunfold] at hs
    rcases hs with hs | ⟨-, ⟨x, hx, rfl⟩, w, hw, rfl⟩
    · obtain rfl : s = [] := hs
      exact .inl ht
    · exact .inr ⟨x, w ++ t, rfl, hx, h.2 ⟨w, t, rfl, hw, ht⟩⟩
  · rintro (hb | ⟨x, t, rfl, hx, hb⟩)
    · exact h.2 ⟨[], text, rfl, Language.nil_mem_kstar _, hb⟩
    · obtain ⟨s, t, rfl, hs, ht⟩ := h.1 hb
      refine h.2 ⟨x :: s, t, rfl, ?_, ht⟩
      rw [hunfold]
      exact .inr ⟨[x], ⟨x, hx, rfl⟩, s, hs, rfl⟩

/-! ## The matcher -/

theorem headD_ne_zero (h : (0 : UInt8) ∉ text) (hne : text ≠ []) : text.headD 0 ≠ 0 := by
  cases text with
  | nil => exact absurd rfl hne
  | cons t text => exact fun h0 => h (h0 ▸ List.mem_cons_self)

theorem items_eq_nil : items re = [] ↔ re = [] := by
  constructor
  · intro h
    fun_cases items re <;> simp_all [items]
  · rintro rfl
    rfl

/-- The loop of `matchstar`, for a pattern that `matchhere` is right about. -/
theorem matchstar_iff (h : ∀ text : List UInt8, 0 ∉ text → (matchhere re text ↔ Begins is text))
    (h0 : 0 ∉ text) : matchstar c re text ↔ Begins (.star c :: is) text := by
  induction text with
  | nil =>
    rw [matchstar, h [] h0, begins_star]
    simp
  | cons t text ih =>
    have h0' : 0 ∉ text := fun hm => h0 (List.mem_cons_of_mem t hm)
    have ht : t ≠ 0 := fun hz => h0 (hz ▸ List.mem_cons_self)
    rw [matchstar, begins_star, ← h (t :: text) h0]
    split_ifs with hhere hstep
    · simp [hhere]
    · rw [ih h0', or_iff_right hhere]
      constructor
      · exact fun hb => ⟨t, text, rfl, hstep.2.symm, hb⟩
      · rintro ⟨x, t', heq, -, hb⟩
        cases heq
        exact hb
    · refine iff_of_false (by rintro ⟨⟩) ?_
      rintro (hm | ⟨x, t', heq, hx, -⟩)
      · exact hhere hm
      · cases heq
        exact hstep ⟨ht, hx.symm⟩

/-- `matchhere` on a single character, for a rest of the pattern that it is right about. -/
theorem matchhere_char (h : ∀ text : List UInt8, 0 ∉ text → (matchhere re text ↔ Begins is text))
    (hre : 0 ∉ c :: re) (hstar : re.headD 0 ≠ star) (hnil : is = [] ↔ re = []) (h0 : 0 ∉ text) :
    matchhere (c :: re) text ↔ Begins (.char c :: is) text := by
  have hc : c ≠ 0 := fun hz => hre (hz ▸ List.mem_cons_self)
  have hre' : 0 ∉ re := fun hm => hre (List.mem_cons_of_mem c hm)
  rw [matchhere, if_neg hc, if_neg hstar]
  split_ifs with hend hstep
  · -- the `$` at the end
    obtain ⟨rfl, hr⟩ := hend
    obtain rfl : re = [] := by_contra fun hne => headD_ne_zero hre' hne hr
    rw [hnil.2 rfl, begins_dollar, decide_eq_true_iff]
    exact ⟨fun ht => by_contra fun hne => headD_ne_zero h0 hne ht, fun ht => by rw [ht]; rfl⟩
  all_goals
    have hchar : c ≠ dollar ∨ is ≠ [] := by
      by_contra! hboth
      exact hend ⟨hboth.1, by rw [hnil.1 hboth.2]; rfl⟩
    rw [begins_char hchar]
  · cases text with
    | nil => exact absurd rfl hstep.1
    | cons t text =>
      rw [List.tail_cons, h text fun hm => h0 (List.mem_cons_of_mem t hm)]
      constructor
      · exact fun hb => ⟨t, text, rfl, hstep.2.imp_right Eq.symm, hb⟩
      · rintro ⟨x, t', heq, -, hb⟩
        cases heq
        exact hb
  · refine iff_of_false (by rintro ⟨⟩) ?_
    rintro ⟨x, t', rfl, hx, -⟩
    exact hstep ⟨headD_ne_zero h0 (by rintro ⟨⟩), hx.imp_right Eq.symm⟩

/-- **`matchhere`** finds the items of the pattern at the beginning of the text. -/
theorem matchhere_iff (re : List UInt8) (hre : 0 ∉ re) :
    ∀ text : List UInt8, 0 ∉ text → (matchhere re text ↔ Begins (items re) text) := by
  -- by the cases in which a pattern is read into items
  fun_induction items re with
  | case1 =>
    intro text _
    rw [matchhere]
    exact iff_of_true rfl (begins_nil text)
  | case2 c =>
    have hnil : ∀ text : List UInt8, 0 ∉ text → (matchhere [] text ↔ Begins [] text) := by
      intro text _
      rw [matchhere]
      exact iff_of_true rfl (begins_nil text)
    exact fun text ht => matchhere_char hnil hre (by decide) (by simp) ht
  | case3 c re ih =>
    intro text ht
    have hc : c ≠ 0 := fun hz => hre (hz ▸ List.mem_cons_self)
    rw [matchhere, if_neg hc, if_pos (by rfl), List.tail_cons]
    refine matchstar_iff (ih fun hm => hre ?_) ht
    exact List.mem_cons_of_mem _ (List.mem_cons_of_mem _ hm)
  | case4 c d re hd ih =>
    intro text ht
    have hnil : items (d :: re) = [] ↔ d :: re = [] := items_eq_nil
    exact matchhere_char (ih fun hm => hre (List.mem_cons_of_mem _ hm)) hre hd hnil ht

/-- The loop of `match` tries every suffix of the text. -/
theorem matchLoop_iff (h0 : 0 ∉ text) :
    matchLoop re text ↔ ∃ u v, text = u ++ v ∧ matchhere re v := by
  induction text with
  | nil => simp [matchLoop]
  | cons t text ih =>
    have ht : t ≠ 0 := fun hz => h0 (hz ▸ List.mem_cons_self)
    rw [matchLoop, if_pos ht]
    split_ifs with hhere
    · exact iff_of_true rfl ⟨[], t :: text, rfl, hhere⟩
    · rw [ih fun hm => h0 (List.mem_cons_of_mem t hm)]
      constructor
      · rintro ⟨u, v, rfl, hv⟩
        exact ⟨t :: u, v, rfl, hv⟩
      · rintro ⟨u, v, heq, hv⟩
        cases u with
        | nil =>
          cases heq
          exact absurd hv hhere
        | cons x u =>
          cases heq
          exact ⟨u, v, rfl, hv⟩

end

/-- **`match`** is regular-expression matching. -/
theorem match_iff_matches {re text : List UInt8} (hre : 0 ∉ re) (htext : 0 ∉ text) :
    match' re text ↔ Matches re text := by
  rw [match', Matches]
  by_cases hc : re.head? = some caret
  · obtain ⟨re, rfl⟩ : ∃ re', re = caret :: re' := by
      cases re with
      | nil => cases hc
      | cons c re =>
        cases hc
        exact ⟨re, rfl⟩
    have hre' : 0 ∉ re := fun hm => hre (List.mem_cons_of_mem _ hm)
    rw [if_pos (by rfl), List.tail_cons, matchhere_iff re hre' text htext]
    simp only [hc, if_pos, forall_const]
    constructor
    · rintro ⟨s, v, rfl, hs, hv⟩
      exact ⟨[], s, v, rfl, hs, rfl, hv⟩
    · rintro ⟨-, s, v, rfl, hs, rfl, hv⟩
      exact ⟨s, v, rfl, hs, hv⟩
  · have hc' : re.headD 0 ≠ caret := by
      cases re with
      | nil => decide
      | cons c re => exact fun heq => hc (congrArg some heq)
    rw [if_neg hc', matchLoop_iff htext]
    simp only [hc, if_neg, not_false_iff, false_imp_iff, true_and]
    constructor
    · rintro ⟨u, w, rfl, hw⟩
      have hw0 : 0 ∉ w := fun hm => htext (List.mem_append_right u hm)
      obtain ⟨s, v, rfl, hs, hv⟩ := (matchhere_iff re hre w hw0).1 hw
      exact ⟨u, s, v, (List.append_assoc ..).symm, hs, hv⟩
    · rintro ⟨u, s, v, rfl, hs, hv⟩
      have hw0 : 0 ∉ s ++ v := fun hm => htext (by
        rw [List.append_assoc]
        exact List.mem_append_right u hm)
      exact ⟨u, s ++ v, List.append_assoc .., (matchhere_iff re hre _ hw0).2 ⟨s, v, rfl, hs, hv⟩⟩

theorem matches_star_end : Matches [97, 42, 36] [98, 97, 97] :=
  (match_iff_matches (by decide) (by decide)).1 (by simp +decide [match', matchLoop, matchhere, matchstar])

end Xv6.Grep
