import Mathlib.Logic.Function.Basic

/-! Redo logs. A disk maps addresses to contents; the contents of one address, the head, names the home
    addresses of the entries that the log's slots hold. The disk is recoverable to the contents `C` when
    copying each entry to its home gives `C` there, and every other home address holds `C` already. -/

namespace Redo
open Function

/-- Where the log lies: the head, the slot of each of `cap` entries, and the addresses it serves. -/
structure Layout (α : Type) where
  head : α
  slot : Nat → α
  cap : Nat
  home : α → Prop
  head_out : ¬home head
  slot_out : ∀ i, i < cap → ¬home (slot i)
  slot_ne : ∀ i, i < cap → slot i ≠ head

variable {α β : Type} {l : Layout α} {N : β → List α} {d C C' : α → β} {v : β} {i : Nat} {a : α} {es : List α}

def entries (l : Layout α) (N : β → List α) (d : α → β) : List α := N (d l.head)

structure Recoverable (l : Layout α) (N : β → List α) (d C : α → β) : Prop where
  fits : (entries l N d).length ≤ l.cap
  home : ∀ a ∈ entries l N d, l.home a
  saved : ∀ i a, (entries l N d)[i]? = some a → d (l.slot i) = C a
  rest : ∀ a, l.home a → a ∉ entries l N d → d a = C a

variable [DecidableEq α]

theorem entries_update_home (ha : l.home a) : entries l N (update d a v) = entries l N d := by
  have : l.head ≠ a := fun h => l.head_out (h ▸ ha)
  simp [entries, this]

theorem entries_update_slot (hi : i < l.cap) : entries l N (update d (l.slot i) v) = entries l N d := by
  simp [entries, (l.slot_ne i hi).symm]

theorem entries_update_head : entries l N (update d l.head v) = N v := by
  simp [entries]

/-- Installing an entry, also a second time, keeps the disk recoverable. -/
theorem Recoverable.install (h : Recoverable l N d C) (hi : (entries l N d)[i]? = some a) :
    Recoverable l N (update d a (d (l.slot i))) C := by
  have hmem := List.mem_of_getElem? hi
  have ha := h.home a hmem
  have he := entries_update_home (N := N) (d := d) (v := d (l.slot i)) ha
  refine ⟨by rw [he]; exact h.fits, by rw [he]; exact h.home, ?_, ?_⟩
  · intro j b hj
    rw [he] at hj
    have hlt : j < l.cap := Nat.lt_of_lt_of_le (List.getElem?_eq_some_iff.mp hj).1 h.fits
    have hne : l.slot j ≠ a := fun heq => l.slot_out j hlt (heq ▸ ha)
    rw [update_of_ne hne]
    exact h.saved j b hj
  · intro b hb hnot
    rw [he] at hnot
    have hne : b ≠ a := fun heq => hnot (heq ▸ hmem)
    rw [update_of_ne hne]
    exact h.rest b hb hnot

theorem Recoverable.clear (h : Recoverable l N d C) (hin : ∀ a ∈ entries l N d, d a = C a)
    (hv : N v = []) : Recoverable l N (update d l.head v) C ∧ ∀ a, l.home a → update d l.head v a = C a := by
  have hall : ∀ a, l.home a → update d l.head v a = C a := by
    intro a ha
    have hne : a ≠ l.head := fun heq => l.head_out (heq ▸ ha)
    rw [update_of_ne hne]
    by_cases hmem : a ∈ entries l N d
    · exact hin a hmem
    · exact h.rest a ha hmem
  have he := entries_update_head (l := l) (N := N) (d := d) (v := v)
  rw [hv] at he
  exact ⟨⟨by simp [he], by simp [he], by simp [he], fun a ha _ => hall a ha⟩, hall⟩

theorem Recoverable.fill (h : Recoverable l N d C) (hempty : entries l N d = []) (hi : i < l.cap) :
    Recoverable l N (update d (l.slot i) v) C := by
  have he := entries_update_slot (N := N) (d := d) (v := v) hi
  rw [hempty] at he
  refine ⟨by simp [he], by simp [he], by simp [he], fun a ha _ => ?_⟩
  have hne : a ≠ l.slot i := fun heq => l.slot_out i hi (heq ▸ ha)
  rw [update_of_ne hne]
  exact h.rest a ha (by simp [hempty])

/-- The write of the head commits: from then on the disk recovers to the new contents. -/
theorem Recoverable.commit (h : Recoverable l N d C) (hempty : entries l N d = []) (hv : N v = es)
    (hfits : es.length ≤ l.cap) (hhome : ∀ a ∈ es, l.home a)
    (hsaved : ∀ i a, es[i]? = some a → d (l.slot i) = C' a) (hsame : ∀ a, l.home a → a ∉ es → C' a = C a) :
    Recoverable l N (update d l.head v) C' := by
  have he := entries_update_head (l := l) (N := N) (d := d) (v := v)
  rw [hv] at he
  refine ⟨by rw [he]; exact hfits, by rw [he]; exact hhome, fun i a hi => ?_, fun a ha hnot => ?_⟩
  · rw [he] at hi
    have hlt : i < l.cap := Nat.lt_of_lt_of_le (List.getElem?_eq_some_iff.mp hi).1 hfits
    rw [update_of_ne (l.slot_ne i hlt)]
    exact hsaved i a hi
  · rw [he] at hnot
    have hne : a ≠ l.head := fun heq => l.head_out (heq ▸ ha)
    rw [update_of_ne hne, hsame a ha hnot]
    exact h.rest a ha (by simp [hempty])

end Redo
