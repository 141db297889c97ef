import Mathlib.Data.List.Basic

/-! Linked lists: the nodes that are visited when a link is followed from node to node. -/

/-- From `v` on, the nodes `l` are visited one after the other, and then `e` is reached. -/
def PtrPath {α : Type} (next : α → α) : α → List α → α → Prop
  | v, [], e => v = e
  | v, c :: l, e => v = c ∧ PtrPath next (next c) l e

namespace PtrPath

variable {α : Type} {next next' : α → α} {v c e m : α} {l l' : List α}

theorem append_iff : PtrPath next v (l ++ l') e ↔ ∃ m, PtrPath next v l m ∧ PtrPath next m l' e := by
  induction l generalizing v with
  | nil => exact ⟨fun h => ⟨v, rfl, h⟩, fun ⟨m, hm, h⟩ => by subst hm; exact h⟩
  | cons c l ih =>
    constructor
    · rintro ⟨rfl, h⟩
      obtain ⟨m, h1, h2⟩ := ih.mp h
      exact ⟨m, ⟨rfl, h1⟩, h2⟩
    · rintro ⟨m, ⟨rfl, h1⟩, h2⟩
      exact ⟨rfl, ih.mpr ⟨m, h1, h2⟩⟩

theorem append_cons_iff : PtrPath next v (l ++ c :: l') e ↔ PtrPath next v l c ∧ PtrPath next (next c) l' e := by
  rw [append_iff]
  constructor
  · rintro ⟨m, h1, rfl, h2⟩
    exact ⟨h1, h2⟩
  · rintro ⟨h1, h2⟩
    exact ⟨c, h1, rfl, h2⟩

theorem congr (h : PtrPath next v l e) (hn : ∀ c ∈ l, next' c = next c) : PtrPath next' v l e := by
  induction l generalizing v with
  | nil => exact h
  | cons c l ih =>
    refine ⟨h.1, ?_⟩
    rw [hn c List.mem_cons_self]
    exact ih h.2 fun d hd => hn d (List.mem_cons_of_mem _ hd)

theorem eq_headD (h : PtrPath next v l e) : v = l.headD e := by
  cases l with
  | nil => exact h
  | cons c l => exact h.1

end PtrPath
