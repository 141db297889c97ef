import Mathlib.Tactic.Common

/-! Resources with one owner each: every slot holds at most one resource, no resource is held twice, and a
    map of marks records which resources of an area are held. -/

/-- `own x` is what slot `x` holds; `used` marks the resources of `area` that some slot holds. -/
structure Owns {S A : Type} (own : S → Option A) (used : A → Bool) (area : A → Prop) : Prop where
  inj : ∀ {x y a}, own x = some a → own y = some a → x = y
  mem : ∀ {x a}, own x = some a → area a
  used_iff : ∀ {a}, area a → (used a = true ↔ ∃ x, own x = some a)

namespace Owns
open Function

variable {S A : Type} [DecidableEq S] [DecidableEq A] {own : S → Option A} {used : A → Bool} {area : A → Prop}
  {x : S} {a : A}

omit [DecidableEq S] [DecidableEq A] in
theorem not_held (h : Owns own used area) (ha : area a) (hu : used a = false) (y : S) : own y ≠ some a := by
  intro hy
  have := (h.used_iff ha).mpr ⟨y, hy⟩
  rw [hu] at this
  cases this

omit [DecidableEq S] [DecidableEq A] in
theorem used_of_own (h : Owns own used area) (hx : own x = some a) : used a = true :=
  (h.used_iff (h.mem hx)).mpr ⟨x, hx⟩

theorem take (h : Owns own used area) (hx : own x = none) (ha : area a) (hu : used a = false) :
    Owns (update own x (some a)) (update used a true) area := by
  have hno := h.not_held ha hu
  refine ⟨fun {y z b} hy hz => ?_, fun {y b} hy => ?_, fun {b} hb => ?_⟩
  · by_cases hyx : y = x <;> by_cases hzx : z = x
    · rw [hyx, hzx]
    · subst hyx
      rw [update_self] at hy
      rw [update_of_ne hzx] at hz
      cases hy
      exact absurd hz (hno z)
    · subst hzx
      rw [update_self] at hz
      rw [update_of_ne hyx] at hy
      cases hz
      exact absurd hy (hno y)
    · rw [update_of_ne hyx] at hy
      rw [update_of_ne hzx] at hz
      exact h.inj hy hz
  · by_cases hyx : y = x
    · subst hyx
      rw [update_self] at hy
      cases hy
      exact ha
    · rw [update_of_ne hyx] at hy
      exact h.mem hy
  · by_cases hba : b = a
    · subst hba
      rw [update_self]
      exact ⟨fun _ => ⟨x, update_self ..⟩, fun _ => rfl⟩
    · rw [update_of_ne hba, h.used_iff hb]
      refine ⟨fun ⟨y, hy⟩ => ⟨y, ?_⟩, fun ⟨y, hy⟩ => ⟨y, ?_⟩⟩
      · rw [update_of_ne (by rintro rfl; rw [hx] at hy; cases hy)]
        exact hy
      · by_cases hyx : y = x
        · subst hyx
          rw [update_self] at hy
          exact absurd (Option.some.inj hy).symm hba
        · rwa [update_of_ne hyx] at hy

theorem drop (h : Owns own used area) (hx : own x = some a) : Owns (update own x none) (update used a false) area := by
  have hne : ∀ {y b}, update own x none y = some b → own y = some b ∧ b ≠ a := by
    intro y b hy
    by_cases hyx : y = x
    · subst hyx
      rw [update_self] at hy
      cases hy
    · rw [update_of_ne hyx] at hy
      exact ⟨hy, fun hb => hyx (h.inj (hb ▸ hy) hx)⟩
  refine ⟨fun hy hz => h.inj (hne hy).1 (hne hz).1, fun hy => h.mem (hne hy).1, fun {b} hb => ?_⟩
  by_cases hba : b = a
  · subst hba
    rw [update_self]
    exact ⟨fun h => absurd h (by simp), fun ⟨y, hy⟩ => absurd rfl (hne hy).2⟩
  · rw [update_of_ne hba, h.used_iff hb]
    refine ⟨fun ⟨y, hy⟩ => ⟨y, ?_⟩, fun ⟨y, hy⟩ => ⟨y, (hne hy).1⟩⟩
    rw [update_of_ne]
    · exact hy
    · rintro rfl
      rw [hx] at hy
      exact hba (Option.some.inj hy).symm

end Owns
