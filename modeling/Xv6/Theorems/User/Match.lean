import Mathlib.Computability.Language
import Xv6.User.Grep

/-! The languages of grep's patterns, and that `match` decides them. -/

namespace Xv6.Grep
open Computability List

def chars (c : UInt8) : Language UInt8 := {w | ∃ t, w = [t] ∧ (c = '.'.toUInt8 ∨ t = c)}

/-- An item of a pattern: a character, a character with a star, or the `$` for the end of the text. -/
inductive Item where
  | one (c : UInt8)
  | star (c : UInt8)
  | eot
deriving DecidableEq

def Item.language : Item → Language UInt8
  | .one c => chars c
  | .star c => (chars c)∗
  | .eot => 1

def items : List UInt8 → List Item
  | [] => []
  | [c] => if c = '$'.toUInt8 then [.eot] else [.one c]
  | c :: d :: re => if d = '*'.toUInt8 then .star c :: items re else .one c :: items (d :: re)

/-- A beginning of the text is in the language of the items, and it is all of the text if its end is asked for. -/
def Matches (is : List Item) (text : List UInt8) : Prop :=
  ∃ w rest, text = w ++ rest ∧ w ∈ (is.map Item.language).prod ∧ (.eot ∈ is → rest = [])

variable {c : UInt8} {i : Item} {is : List Item} {text : List UInt8} {here : List UInt8 → Bool}

theorem matches_nil (text : List UInt8) : Matches [] text :=
  ⟨[], text, rfl, Language.nil_mem_one, fun h => absurd h not_mem_nil⟩

theorem matches_eot : Matches [.eot] text ↔ text = [] := by
  constructor
  · rintro ⟨w, rest, rfl, hw, hr⟩
    rw [map_singleton, prod_singleton, Item.language, Language.mem_one] at hw
    rw [hw, hr mem_cons_self, nil_append]
  · rintro rfl
    refine ⟨[], [], rfl, ?_, fun _ => rfl⟩
    rw [map_singleton, prod_singleton, Item.language]
    exact Language.nil_mem_one

theorem matches_cons (hi : i ≠ .eot) :
    Matches (i :: is) text ↔ ∃ w rest, text = w ++ rest ∧ w ∈ i.language ∧ Matches is rest := by
  have hmem : Item.eot ∈ i :: is ↔ Item.eot ∈ is := by rw [mem_cons, or_iff_right hi.symm]
  simp only [Matches, hmem, map_cons, prod_cons, Language.mem_mul]
  constructor
  · rintro ⟨_, rest, rfl, ⟨w, hw, x, hx, rfl⟩, hr⟩
    exact ⟨w, x ++ rest, append_assoc _ _ _, hw, x, rest, rfl, hx, hr⟩
  · rintro ⟨w, _, rfl, hw, x, rest, rfl, hx, hr⟩
    exact ⟨w ++ x, rest, (append_assoc _ _ _).symm, ⟨w, hw, x, hx, rfl⟩, hr⟩

theorem matches_one : Matches (.one c :: is) text ↔
    ∃ t rest, text = t :: rest ∧ (c = '.'.toUInt8 ∨ t = c) ∧ Matches is rest := by
  rw [matches_cons (by simp)]
  constructor
  · rintro ⟨_, rest, rfl, ⟨t, rfl, ht⟩, hr⟩
    exact ⟨t, rest, rfl, ht, hr⟩
  · rintro ⟨t, rest, rfl, ht, hr⟩
    exact ⟨[t], rest, rfl, ⟨t, rfl, ht⟩, hr⟩

theorem matches_star : Matches (.star c :: is) text ↔
    Matches is text ∨ ∃ t rest, text = t :: rest ∧ (c = '.'.toUInt8 ∨ t = c) ∧ Matches (.star c :: is) rest := by
  have hstar : ∀ s, Matches (.star c :: is) s ↔ ∃ w rest, s = w ++ rest ∧ w ∈ (chars c)∗ ∧ Matches is rest := fun s =>
    matches_cons (by simp)
  rw [hstar]
  constructor
  · rintro ⟨w, rest, rfl, hw, hr⟩
    rw [← Language.one_add_self_mul_kstar_eq_kstar, Language.mem_add, Language.mem_one, Language.mem_mul] at hw
    rcases hw with rfl | ⟨_, ⟨t, rfl, ht⟩, x, hx, rfl⟩
    · exact .inl hr
    · exact .inr ⟨t, x ++ rest, rfl, ht, (hstar _).mpr ⟨x, rest, rfl, hx, hr⟩⟩
  · rintro (hr | ⟨t, _, rfl, ht, hr⟩)
    · exact ⟨[], text, rfl, Language.nil_mem_kstar _, hr⟩
    · obtain ⟨x, rest, rfl, hx, hr⟩ := (hstar _).mp hr
      have hone : [t] ∈ chars c := ⟨t, rfl, ht⟩
      refine ⟨t :: x, rest, rfl, ?_, hr⟩
      rw [← Language.one_add_self_mul_kstar_eq_kstar]
      exact .inr (Language.append_mem_mul hone hx)

/-! ### The matcher -/

theorem char_iff (c t : UInt8) : (c == '.'.toUInt8 || c == t) = true ↔ c = '.'.toUInt8 ∨ t = c := by
  rw [Bool.or_eq_true, beq_iff_eq, beq_iff_eq, eq_comm (a := c) (b := t)]

theorem starLoop_iff (h : ∀ s, here s = true ↔ Matches is s) (text : List UInt8) :
    starLoop here c text = true ↔ Matches (.star c :: is) text := by
  induction text with
  | nil =>
    rw [starLoop, matches_star, h]
    simp
  | cons t text ih =>
    rw [starLoop, matches_star, Bool.or_eq_true, h, Bool.and_eq_true, ih]
    simp [or_comm]

theorem matchhere_iff (re text : List UInt8) : matchhere re text = true ↔ Matches (items re) text := by
  induction re using items.induct generalizing text with
  | case1 => exact iff_of_true (by rw [matchhere]) (matches_nil text)
  | case2 => simp [matchhere, items, matches_eot]
  | case3 c hc =>
    rw [items, if_neg hc, matches_one]
    cases text with
    | nil => simp [matchhere, hc]
    | cons t text =>
      rw [matchhere, if_neg hc, char_iff]
      simp [matches_nil]
  | case4 c re ih =>
    simp only [matchhere, items, if_true]
    exact starLoop_iff ih text
  | case5 c d re hd ih =>
    rw [items, if_neg hd, matches_one]
    cases text with
    | nil => simp [matchhere, hd]
    | cons t text =>
      rw [matchhere, if_neg hd, Bool.and_eq_true, char_iff, ih]
      simp

theorem matchLoop_iff (re text : List UInt8) : matchLoop re text = true ↔ ∃ s, s <:+ text ∧ matchhere re s = true := by
  induction text with
  | nil => simp [matchLoop]
  | cons t text ih => simp [matchLoop, ih, suffix_cons_iff]

def Anchored (re : List UInt8) : Prop := re.head? = some '^'.toUInt8

instance (re : List UInt8) : Decidable (Anchored re) := inferInstanceAs (Decidable (_ = _))

def remaining (re : List UInt8) : List UInt8 := if Anchored re then re.tail else re

/-- `match` returns 1 exactly if some end of the text, the whole of it for a pattern with `^`, starts with a word of the
    language of the pattern. -/
theorem match_iff (re text : List UInt8) : matchText re text = true ↔
    ∃ s, s <:+ text ∧ (Anchored re → s = text) ∧ Matches (items (remaining re)) s := by
  cases re with
  | nil =>
    have ha : ¬Anchored [] := by decide
    rw [matchText, matchLoop_iff, remaining, if_neg ha]
    simp only [ha, matchhere_iff, false_imp_iff, true_and]
  | cons c re =>
    rw [matchText]
    split
    next hc =>
      have ha : Anchored (c :: re) := congrArg some hc
      rw [remaining, if_pos ha, tail_cons, matchhere_iff]
      constructor
      · exact fun h => ⟨text, suffix_rfl, fun _ => rfl, h⟩
      · rintro ⟨s, -, hs, h⟩
        exact hs ha ▸ h
    next hc =>
      have ha : ¬Anchored (c :: re) := fun h => hc (Option.some_inj.mp h)
      rw [remaining, if_neg ha, matchLoop_iff]
      simp only [ha, matchhere_iff, false_imp_iff, true_and]

-- `a*$` finds the end of any text, `^a*$` only a text of `a`
example : matchText "a*$".toUTF8.toList "ab".toUTF8.toList = true ∧
    matchText "^a*$".toUTF8.toList "ab".toUTF8.toList = false := by decide +kernel

end Xv6.Grep
