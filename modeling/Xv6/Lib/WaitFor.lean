import Mathlib.Logic.Relation
import Mathlib.Order.Basic

/-! Processes that wait for locks: an order of the locks that every process keeps to rules out a deadlock. -/

variable {P L R : Type} [Preorder R]

def WaitFor (wait : P → Option L) (hold : L → Option P) (p q : P) : Prop :=
  ∃ l, wait p = some l ∧ hold l = some q

variable {wait : P → Option L} {hold : L → Option P} {D : L → Prop} {r : L → R} {p q : P}

/-- Along a chain of waiting processes that starts at lock `l`, the rank grows. -/
theorem WaitFor.chain (h : ∀ p l k, wait p = some l → hold k = some p → D k ∧ (D l → r k < r l))
    (hpq : Relation.TransGen (WaitFor wait hold) p q) :
    ∃ l k, wait p = some l ∧ hold k = some q ∧ (l = k ∨ (D k → D l ∧ r l < r k)) := by
  induction hpq with
  | single hw =>
    obtain ⟨l, hl, hq⟩ := hw
    exact ⟨l, l, hl, hq, .inl rfl⟩
  | tail _ hw ih =>
    obtain ⟨l, k, hl, hk, hlk⟩ := ih
    obtain ⟨k', hk', hr⟩ := hw
    obtain ⟨hDk, hlt⟩ := h _ _ _ hk' hk
    refine ⟨l, k', hl, hr, .inr fun hD => ?_⟩
    rcases hlk with rfl | hlk
    · exact ⟨hDk, hlt hD⟩
    · exact ⟨(hlk hDk).1, (hlk hDk).2.trans (hlt hD)⟩

theorem WaitFor.acyclic (h : ∀ p l k, wait p = some l → hold k = some p → D k ∧ (D l → r k < r l)) (p : P) :
    ¬Relation.TransGen (WaitFor wait hold) p p := by
  intro hp
  obtain ⟨l, k, hl, hk, hlk⟩ := WaitFor.chain h hp
  obtain ⟨hDk, hlt⟩ := h p l k hl hk
  rcases hlk with rfl | hlk
  · exact lt_irrefl _ (hlt hDk)
  · exact lt_asymm (hlk hDk).2 (hlt (hlk hDk).1)
