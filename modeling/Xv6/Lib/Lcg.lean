import Mathlib.Algebra.Order.BigOperators.Group.Finset
import Mathlib.Algebra.Ring.GeomSum
import Mathlib.Data.Int.CardIntervalMod
import Mathlib.Data.Nat.Prime.Basic
import Mathlib.Dynamics.PeriodicPts.Defs

/-! Linear congruential generators `x ↦ a * x + c` modulo a power of two. With `a` one more than a multiple
    of four and `c` odd, a cycle of the generator runs through all residues. What a residue modulo `T` of the
    values drawn in a cycle does is then a count of residues below the modulus. -/

namespace Lcg
open Finset

def next (a c k x : Nat) : Nat := (a * x + c) % 2 ^ k

variable {a c k x : Nat}

/-! ### The period -/

/-- `n` steps from `x` in closed form. -/
theorem iterate_modEq (b c k x n : Nat) :
    (next (b + 1) c k)^[n] x ≡ x + (b * x + c) * ∑ i ∈ range n, (b + 1) ^ i [MOD 2 ^ k] := by
  induction n with
  | zero => simp [Nat.ModEq.refl]
  | succ n ih =>
    rw [Function.iterate_succ_apply', next]
    calc ((b + 1) * (next (b + 1) c k)^[n] x + c) % 2 ^ k
        ≡ (b + 1) * (next (b + 1) c k)^[n] x + c [MOD 2 ^ k] := Nat.mod_modEq _ _
      _ ≡ (b + 1) * (x + (b * x + c) * ∑ i ∈ range n, (b + 1) ^ i) + c [MOD 2 ^ k] :=
          (ih.mul_left _).add_right _
      _ = x + (b * x + c) * ∑ i ∈ range (n + 1), (b + 1) ^ i := by
          rw [sum_range_succ, ← geom_sum_mul_add b n]
          ring

/-- The sum of the first `n` powers has as many factors two as `n`. -/
theorem dvd_sum_pow_iff (ha : a % 4 = 1) (k n : Nat) : 2 ^ k ∣ ∑ i ∈ range n, a ^ i ↔ 2 ^ k ∣ n := by
  have hpow : ∀ i, a ^ i % 4 = 1 := fun i => by simp [Nat.pow_mod, ha]
  induction n using Nat.strong_induction_on generalizing k with
  | _ n ih =>
    have hpar : ∀ m, (∑ i ∈ range m, a ^ i) % 2 = m % 2 := by
      intro m
      induction m with
      | zero => simp
      | succ m ihm =>
        have := hpow m
        rw [sum_range_succ]
        omega
    cases k with
    | zero => simp
    | succ k =>
      rcases Nat.even_or_odd' n with ⟨m, rfl | rfl⟩
      · rcases Nat.eq_zero_or_pos m with rfl | hm
        · simp
        -- The sum over `2 * m` powers is the one over `m` times `1 + a ^ m`, which is twice an odd number.
        obtain ⟨q, hq⟩ : ∃ q, 1 + a ^ m = 2 * (2 * q + 1) := ⟨(1 + a ^ m) / 4, by have := hpow m; omega⟩
        have hsplit : ∑ i ∈ range (2 * m), a ^ i = 2 * ((∑ i ∈ range m, a ^ i) * (2 * q + 1)) := by
          have h1 : ∑ i ∈ range (2 * m), a ^ i = (∑ i ∈ range m, a ^ i) * (1 + a ^ m) := by
            rw [two_mul, sum_range_add, mul_add, mul_one, sum_mul]
            congr 1
            exact sum_congr rfl fun i _ => by rw [← pow_add, add_comm]
          rw [h1, hq]
          ring
        have hodd : Nat.Coprime (2 ^ k) (2 * q + 1) := by
          apply Nat.Coprime.pow_left
          rw [Nat.coprime_two_left]
          exact ⟨q, rfl⟩
        rw [hsplit, pow_succ, mul_comm (2 ^ k) 2, Nat.mul_dvd_mul_iff_left (by norm_num),
          Nat.mul_dvd_mul_iff_left (by norm_num), hodd.dvd_mul_right]
        exact ih m (by omega) k
      · have hnot : ∀ x, x % 2 = 1 → ¬2 ^ (k + 1) ∣ x := by
          intro x hx hd
          have : 2 ∣ x := Dvd.dvd.trans (dvd_pow_self 2 (by omega)) hd
          omega
        exact iff_of_false (hnot _ (by rw [hpar]; omega)) (hnot _ (by omega))

theorem next_lt (a c k x : Nat) : next a c k x < 2 ^ k := Nat.mod_lt _ (by positivity)

theorem iterate_lt (hx : x < 2 ^ k) (n : Nat) : (next a c k)^[n] x < 2 ^ k := by
  induction n generalizing x with
  | zero => exact hx
  | succ n ih => exact ih (next_lt a c k x)

section

variable (ha : a % 4 = 1) (hc : c % 2 = 1)
include ha hc

/-- From any value below the modulus the generator is back after exactly the multiples of the modulus. -/
theorem iterate_eq_iff (hx : x < 2 ^ k) (n : Nat) : (next a c k)^[n] x = x ↔ 2 ^ k ∣ n := by
  obtain ⟨b, rfl⟩ : ∃ b, a = b + 1 := ⟨a - 1, by omega⟩
  have hodd : Nat.Coprime (2 ^ k) (b * x + c) := by
    apply Nat.Coprime.pow_left
    rw [Nat.coprime_two_left, Nat.odd_iff, Nat.add_mod, Nat.mul_mod]
    have : b % 2 = 0 := by omega
    simp [this, hc]
  rw [← dvd_sum_pow_iff ha, ← hodd.dvd_mul_left, ← Nat.modEq_zero_iff_dvd]
  have hn := iterate_modEq b c k x n
  constructor
  · intro h
    rw [h] at hn
    have h0 : x + 0 ≡ x + (b * x + c) * ∑ i ∈ range n, (b + 1) ^ i [MOD 2 ^ k] := hn
    exact (Nat.ModEq.add_left_cancel' x h0).symm
  · intro h
    have h1 : (next (b + 1) c k)^[n] x ≡ x [MOD 2 ^ k] := hn.trans (Nat.ModEq.add_left x h)
    exact Nat.ModEq.eq_of_lt_of_lt h1 (iterate_lt hx n) hx

theorem minimalPeriod_eq (hx : x < 2 ^ k) : Function.minimalPeriod (next a c k) x = 2 ^ k := by
  have h : ∀ n, Function.minimalPeriod (next a c k) x ∣ n ↔ 2 ^ k ∣ n := fun n => by
    rw [← Function.isPeriodicPt_iff_minimalPeriod_dvd, ← iterate_eq_iff ha hc hx]
    rfl
  exact Nat.dvd_antisymm ((h _).mpr dvd_rfl) ((h _).mp dvd_rfl)

theorem injOn_draws : Set.InjOn (fun i => (next a c k)^[i + 1] x) (range (2 ^ k)) := by
  intro i hi j hj hij
  have hper := minimalPeriod_eq ha hc (next_lt a c k x)
  simp only [Function.iterate_succ_apply] at hij
  refine (Function.iterate_eq_iterate_iff_of_lt_minimalPeriod ?_ ?_).mp hij
  · rw [hper]
    exact mem_range.mp hi
  · rw [hper]
    exact mem_range.mp hj

theorem image_draws : (range (2 ^ k)).image (fun i => (next a c k)^[i + 1] x) = range (2 ^ k) := by
  apply eq_of_subset_of_card_le
  · intro v hv
    obtain ⟨i, -, rfl⟩ := mem_image.mp hv
    rw [Function.iterate_succ_apply']
    exact mem_range.mpr (next_lt ..)
  · rw [card_image_of_injOn (injOn_draws ha hc)]

/-- Each of them is drawn exactly once. -/
theorem existsUnique_draw {v : Nat} (hv : v < 2 ^ k) : ∃! i, i < 2 ^ k ∧ (next a c k)^[i + 1] x = v := by
  have hmem : v ∈ (range (2 ^ k)).image (fun i => (next a c k)^[i + 1] x) := by
    rw [image_draws ha hc]
    exact mem_range.mpr hv
  obtain ⟨i, hi, rfl⟩ := mem_image.mp hmem
  refine ⟨i, ⟨mem_range.mp hi, rfl⟩, ?_⟩
  rintro j ⟨hj, hji⟩
  exact injOn_draws ha hc (mem_coe.mpr (mem_range.mpr hj)) (mem_coe.mpr hi) hji

/-- So in a cycle a set of values is met as often as it has members. -/
theorem card_draws (P : Nat → Prop) [DecidablePred P] :
    #{i ∈ range (2 ^ k) | P ((next a c k)^[i + 1] x)} = #{v ∈ range (2 ^ k) | P v} := by
  conv_rhs => rw [← image_draws ha hc (x := x), filter_image]
  rw [card_image_of_injOn]
  intro i hi j hj
  exact injOn_draws ha hc (mem_filter.mp hi).1 (mem_filter.mp hj).1

end

/-! ### Residues of the values -/

/-- The numbers below `N` whose residue modulo `T` lies in an interval of `t` residues. -/
theorem card_mod_bounds {N T lo t : Nat} (h : lo + t ≤ T) : t * (N / T) ≤ #{v ∈ range N | lo ≤ v % T ∧ v % T < lo + t} ∧
      #{v ∈ range N | lo ≤ v % T ∧ v % T < lo + t} ≤ t * (N / T + 1) := by
  have hfiber : ∀ w ∈ Ico lo (lo + t), #{v ∈ range N | v % T = w} = N / T + if w < N % T then 1 else 0 := by
    intro w hw
    have hwT : w < T := by have := (mem_Ico.mp hw).2; omega
    have hcount := Nat.count_modEq_card N (r := T) (by omega) w
    rw [Nat.count_eq_card_filter_range, Nat.mod_eq_of_lt hwT] at hcount
    rw [← hcount]
    congr 1
    ext v
    simp [Nat.ModEq, Nat.mod_eq_of_lt hwT]
  have hsum : #{v ∈ range N | lo ≤ v % T ∧ v % T < lo + t} =
      ∑ w ∈ Ico lo (lo + t), (N / T + if w < N % T then 1 else 0) := by
    rw [card_eq_sum_card_fiberwise (f := (· % T)) (t := Ico lo (lo + t))]
    · refine sum_congr rfl fun w hw => ?_
      rw [← hfiber w hw, filter_filter]
      congr 1
      ext v
      have := mem_Ico.mp hw
      simp only [mem_filter, mem_range]
      omega
    · intro v hv
      have := (mem_filter.mp hv).2
      simpa using this
  rw [hsum]
  constructor
  · calc t * (N / T) = ∑ w ∈ Ico lo (lo + t), N / T := by simp
      _ ≤ _ := sum_le_sum fun w _ => by split <;> omega
  · calc ∑ w ∈ Ico lo (lo + t), (N / T + if w < N % T then 1 else 0) ≤ ∑ w ∈ Ico lo (lo + t), (N / T + 1) :=
        sum_le_sum fun w _ => by split <;> omega
      _ = t * (N / T + 1) := by simp

end Lcg
