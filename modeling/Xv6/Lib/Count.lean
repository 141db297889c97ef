import Mathlib.Algebra.BigOperators.Group.Finset.Basic
import Mathlib.Data.Fintype.Basic

/-! Sums over a finite type when the function changes at one point. -/

variable {P A M : Type} [Fintype P] [DecidableEq P] [AddCommMonoid M]

theorem sum_update_exchange (g : P → A → M) (f : P → A) (p : P) (x : A) :
    (∑ q, g q (Function.update f p x q)) + g p (f p) = (∑ q, g q (f q)) + g p x := by
  have h1 := Finset.add_sum_erase Finset.univ (fun q => g q (Function.update f p x q)) (Finset.mem_univ p)
  have h2 := Finset.add_sum_erase Finset.univ (fun q => g q (f q)) (Finset.mem_univ p)
  have h3 : ∑ q ∈ Finset.univ.erase p, g q (Function.update f p x q) = ∑ q ∈ Finset.univ.erase p, g q (f q) :=
    Finset.sum_congr rfl fun q hq => by rw [Function.update_of_ne (Finset.ne_of_mem_erase hq)]
  simp only [Function.update_self] at h1
  rw [← h1, ← h2, h3, add_right_comm, add_comm (g p x), add_right_comm]

theorem sum_update_add (g : A → Nat) (f : P → A) (p : P) (x : A) :
    (∑ q, g (Function.update f p x q)) + g (f p) = (∑ q, g (f q)) + g x :=
  sum_update_exchange (fun _ => g) f p x
