import Mathlib.Tactic.Common

/-! A lock and the threads that hold it: which program points lie inside the lock, and who is at one. -/

/-- The holder of the lock is the thread whose program point lies inside it. -/
def Mutex {P : Type} (lock : Option P) (inside : P → Bool) : Prop := ∀ p, lock = some p ↔ inside p = true

namespace Mutex

variable {P : Type} {lock lock' : Option P} {inside inside' : P → Bool} {p q : P}

section

variable (h : Mutex lock inside)
include h

theorem unique (hp : inside p = true) (hq : inside q = true) : p = q :=
  Option.some.inj (((h p).mpr hp).symm.trans ((h q).mpr hq))

theorem outside_of_ne (hp : lock ≠ some p) : inside p = false := by
  have := mt (h p).mpr hp
  simpa using this

theorem outside_of_free (hl : lock = none) (p : P) : inside p = false :=
  h.outside_of_ne (by simp [hl])

theorem free_of_outside (hout : ∀ p, inside p = false) : lock = none :=
  Option.eq_none_iff_forall_ne_some.mpr fun p hp => Bool.eq_false_iff.mp (hout p) ((h p).mp hp)

theorem others (hp : inside p = true ∨ lock = none) (hq : q ≠ p) : inside q = false := by
  rcases hp with hp | hl
  · cases hc : inside q with
    | false => rfl
    | true => exact absurd (h.unique hc hp) hq
  · exact h.outside_of_free hl q

theorem step (p : P) (hq : ∀ q, q ≠ p → inside' q = inside q)
    (hfree : inside' p = true → inside p = true ∨ lock = none)
    (hlock : lock' = if inside' p = inside p then lock else if inside' p then some p else none) :
    Mutex lock' inside' := by
  intro q
  by_cases hsame : inside' p = inside p
  · rw [hlock, if_pos hsame, h q]
    by_cases hqp : q = p
    · rw [hqp, hsame]
    · rw [hq q hqp]
  rw [hlock, if_neg hsame]
  cases hp' : inside' p with
  | true =>
    by_cases hqp : q = p
    · simp [hqp, hp']
    · have hpq : p ≠ q := fun h => hqp h.symm
      simp [hq q hqp, hpq, h.others (hfree hp') hqp]
  | false =>
    have hp : inside p = true := by simpa [hp'] using hsame
    by_cases hqp : q = p
    · simp [hqp, hp']
    · simp [hq q hqp, h.others (.inl hp) hqp]

end

end Mutex
