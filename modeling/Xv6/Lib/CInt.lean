import Mathlib.Tactic.Positivity
import Mathlib.Tactic.Ring

/-! Signed machine integers as integers: `wrap w x` is the value `x` takes in a signed type of `w` bits
    with wrap-around. -/

namespace CInt

/-- `x` brought into the range of a signed `w`-bit type. -/
def wrap (w : Nat) (x : Int) : Int := x.bmod (2 ^ w)

theorem wrap_wrap (w : Nat) (x : Int) : wrap w (wrap w x) = wrap w x := by
  simp [wrap]

theorem wrap_wrap_add (w : Nat) (x y : Int) : wrap w (wrap w x + y) = wrap w (x + y) := by
  simp [wrap]

theorem wrap_zero (w : Nat) : wrap w 0 = 0 := by
  simp [wrap]

theorem wrap_of_range {w : Nat} {x : Int} (hlo : -2 ^ w ≤ x) (hhi : x < 2 ^ w) : wrap (w + 1) x = x := by
  have hp : (0 : Int) < 2 ^ w := by positivity
  have h2 : ((2 ^ (w + 1) : Nat) : Int) = 2 * 2 ^ w := by push_cast; ring
  unfold wrap
  apply Int.bmod_eq_of_le
  · rw [h2]; omega
  · rw [h2]; omega

theorem wrap_pos_iff {w : Nat} {x : Int} : 0 < wrap (w + 1) x ↔ 0 < x % 2 ^ (w + 1) ∧ x % 2 ^ (w + 1) < 2 ^ w := by
  have hp : (0 : Int) < 2 ^ w := by positivity
  have h2 : ((2 ^ (w + 1) : Nat) : Int) = 2 * 2 ^ w := by push_cast; ring
  have h3 : (2 : Int) ^ (w + 1) = 2 * 2 ^ w := by ring
  have hr0 := Int.emod_nonneg x (b := 2 * 2 ^ w) (by omega)
  have hr1 := Int.emod_lt_of_pos x (b := 2 * 2 ^ w) (by omega)
  unfold wrap
  rw [Int.bmod_def, h2, h3]
  split <;> omega

theorem wrap_inj {w : Nat} {x y : Int} (hxy : x < y) (hlt : y - x < 2 ^ w) : wrap w x ≠ wrap w y := by
  intro h
  have h0 : (y - x).bmod (2 ^ w) = 0 := by
    have := Int.bmod_eq_bmod_iff_bmod_sub_eq_zero.mp h.symm
    exact this
  have hd := Int.dvd_of_bmod_eq_zero h0
  have := Int.le_of_dvd (by omega) hd
  push_cast at this
  omega

end CInt
