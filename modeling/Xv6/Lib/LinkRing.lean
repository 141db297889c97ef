import Mathlib.Data.List.Nodup
import Mathlib.Data.Option.Basic
import Xv6.Lib.Path

/-! Circular doubly linked lists with a head. The nodes are the head, `none`, and the elements. -/

structure LinkRing (α : Type) where
  next : Option α → Option α
  prev : Option α → Option α

namespace LinkRing
open List

variable {α : Type}

section Operations
variable [DecidableEq α]

def setNext (r : LinkRing α) (a b : Option α) : LinkRing α := { r with next := Function.update r.next a b }

def setPrev (r : LinkRing α) (a b : Option α) : LinkRing α := { r with prev := Function.update r.prev a b }

def clear (r : LinkRing α) : LinkRing α := (r.setPrev none none).setNext none none

def unlink (r : LinkRing α) (b : α) : LinkRing α :=
  let r := r.setPrev (r.next (some b)) (r.prev (some b))
  r.setNext (r.prev (some b)) (r.next (some b))

def pushFront (r : LinkRing α) (b : α) : LinkRing α :=
  let r := r.setNext (some b) (r.next none)
  let r := r.setPrev (some b) none
  let r := r.setPrev (r.next none) (some b)
  r.setNext none (some b)

end Operations

/-- The nodes from `v` on along a link, up to the head, are searched: `none` if the search has not ended after so many
    turns. -/
def search (link : Option α → Option α) (p : α → Bool) : Nat → Option α → Option (Option α)
  | 0, _ => none
  | _ + 1, none => some none
  | f + 1, some b => if p b then some (some b) else search link p f (link (some b))

/-! ### Segments -/

/-- The links in both directions lead from `a` over the nodes `l` to `e`. -/
def Seg (r : LinkRing α) : Option α → List (Option α) → Option α → Prop
  | a, [], e => r.next a = e ∧ r.prev e = a
  | a, x :: l, e => (r.next a = x ∧ r.prev x = a) ∧ r.Seg x l e

variable {r r' : LinkRing α} {a e x : Option α} {b : α} {l l₁ l₂ : List (Option α)}

theorem seg_append : r.Seg a (l₁ ++ x :: l₂) e ↔ r.Seg a l₁ x ∧ r.Seg x l₂ e := by
  induction l₁ generalizing a with
  | nil => rfl
  | cons y l₁ ih =>
    rw [cons_append, Seg, Seg, ih]
    exact and_assoc.symm

section

variable (h : r.Seg a l e)
include h

theorem Seg.congr (hn : ∀ x ∈ a :: l, r'.next x = r.next x) (hp : ∀ x ∈ e :: l, r'.prev x = r.prev x) :
    r'.Seg a l e := by
  induction l generalizing a with
  | nil => exact ⟨(hn a mem_cons_self).trans h.1, (hp e mem_cons_self).trans h.2⟩
  | cons y l ih =>
    have hy : r'.prev y = r.prev y := hp y (mem_cons_of_mem _ mem_cons_self)
    refine ⟨⟨(hn a mem_cons_self).trans h.1.1, hy.trans h.1.2⟩, ih h.2 (fun x hx => hn x (mem_cons_of_mem _ hx)) ?_⟩
    intro x hx
    rcases mem_cons.mp hx with rfl | hx
    · exact hp _ mem_cons_self
    · exact hp x (mem_cons_of_mem _ (mem_cons_of_mem _ hx))

theorem Seg.next_mem : r.next a ∈ e :: l := by
  cases l with
  | nil => exact h.1 ▸ mem_cons_self
  | cons y l => exact h.1.1 ▸ mem_cons_of_mem _ mem_cons_self

theorem Seg.prev_mem : r.prev e ∈ a :: l := by
  induction l generalizing a with
  | nil => exact h.2 ▸ mem_cons_self
  | cons y l ih => exact mem_cons_of_mem _ (ih h.2)

theorem Seg.next_path : PtrPath r.next (r.next a) l e := by
  induction l generalizing a with
  | nil => exact h.1
  | cons y l ih => exact ⟨h.1.1, ih h.2⟩

theorem Seg.prev_path : PtrPath r.prev (r.prev e) l.reverse a := by
  induction l generalizing a with
  | nil => exact h.2
  | cons y l ih =>
    rw [reverse_cons]
    exact PtrPath.append_cons_iff.mpr ⟨ih h.2, h.1.2⟩

theorem Seg.inverse : (∀ x ∈ a :: l, r.prev (r.next x) = x) ∧ ∀ x ∈ e :: l, r.next (r.prev x) = x := by
  induction l generalizing a with
  | nil =>
    obtain ⟨h1, h2⟩ := h
    simp [h1, h2]
  | cons y l ih =>
    obtain ⟨⟨h1, h2⟩, h⟩ := h
    obtain ⟨ihp, ihn⟩ := ih h
    refine ⟨fun x hx => ?_, fun x hx => ?_⟩
    · rcases mem_cons.mp hx with rfl | hx
      · rw [h1, h2]
      · exact ihp x hx
    · rcases mem_cons.mp hx with rfl | hx
      · exact ihn _ mem_cons_self
      · rcases mem_cons.mp hx with rfl | hx
        · rw [h2, h1]
        · exact ihn x (mem_cons_of_mem _ hx)

end

theorem PtrPath.search_eq {link : Option α → Option α} {v : Option α} {l : List α} {f : Nat} (p : α → Bool)
    (h : PtrPath link v (l.map some) none) (hf : l.length < f) : search link p f v = some (l.find? p) := by
  obtain _ | f := f
  · omega
  induction l generalizing v f with
  | nil =>
    obtain rfl : v = none := h
    rfl
  | cons b l ih =>
    obtain ⟨rfl, h⟩ := h
    rw [length_cons] at hf
    obtain _ | f := f
    · omega
    rw [search, List.find?_cons]
    cases p b with
    | true => rfl
    | false => exact ih h f (by omega)

/-! ### Lists -/

/-- The links form one circle through the head and the elements of the list, each of them once. -/
structure Reps (r : LinkRing α) (l : List α) : Prop where
  nodup : l.Nodup
  seg : r.Seg none (l.map some) none

section Reps
variable [DecidableEq α] {l : List α}

theorem reps_clear (r : LinkRing α) : r.clear.Reps [] :=
  ⟨nodup_nil, by simp [clear, setNext], by simp [clear, setNext, setPrev]⟩

/-- Two segments that meet at `b` become one when `b` is unlinked. -/
theorem Seg.unlink (h₁ : r.Seg a l₁ (some b)) (h₂ : r.Seg (some b) l₂ e) (hd : (a :: (l₁ ++ some b :: l₂)).Nodup)
    (he : e ∉ l₁ ++ some b :: l₂) : (r.unlink b).Seg a (l₁ ++ l₂) e := by
  have hb : r.next (some b) ≠ some b := fun hb => by
    have hm := h₂.next_mem
    rw [hb] at hm
    rcases mem_cons.mp hm with h | h
    · exact he (h ▸ mem_append_right _ mem_cons_self)
    · exact (nodup_cons.mp (nodup_append.mp (nodup_cons.mp hd).2).2.1).1 h
  have hnext : ∀ x, (r.unlink b).next x = if x = r.prev (some b) then r.next (some b) else r.next x := fun x => by
    simp only [LinkRing.unlink, setNext, setPrev, Function.update_of_ne hb.symm, Function.update_apply]
  have hprev : ∀ x, (r.unlink b).prev x = if x = r.next (some b) then r.prev (some b) else r.prev x := fun x => by
    simp only [LinkRing.unlink, setNext, setPrev, Function.update_apply]
  induction l₁ generalizing a with
  | nil =>
    have ha : r.prev (some b) = a := h₁.2
    rw [nil_append] at hd he ⊢
    obtain ⟨had, hbd⟩ := nodup_cons.mp hd
    have hbl := nodup_cons.mp hbd
    cases l₂ with
    | nil => exact ⟨by rw [hnext, if_pos ha.symm, h₂.1], by rw [hprev, if_pos h₂.1.symm, ha]⟩
    | cons y l₂ =>
      have hy : r.next (some b) = y := h₂.1.1
      refine ⟨⟨by rw [hnext, if_pos ha.symm, hy], by rw [hprev, if_pos hy.symm, ha]⟩,
        h₂.2.congr (fun x hx => ?_) fun x hx => ?_⟩
      · rw [hnext, if_neg]
        rintro rfl
        exact had (mem_cons_of_mem _ (ha ▸ hx))
      · rw [hprev, if_neg]
        rintro rfl
        rw [hy] at hx
        rcases mem_cons.mp hx with rfl | hx
        · exact he (mem_cons_of_mem _ mem_cons_self)
        · exact (nodup_cons.mp hbl.2).1 hx
  | cons y l₁ ih =>
    obtain ⟨⟨hay, hya⟩, h₁⟩ := h₁
    rw [cons_append] at hd he
    obtain ⟨had, hd'⟩ := nodup_cons.mp hd
    have hyd := (nodup_cons.mp hd').1
    refine ⟨⟨?_, ?_⟩, ih h₁ hd' fun h => he (mem_cons_of_mem _ h)⟩
    · rw [hnext, if_neg, hay]
      rintro rfl
      rcases mem_cons.mp h₁.prev_mem with h | h
      · exact had (h ▸ mem_cons_self)
      · exact had (mem_cons_of_mem _ (mem_append_left _ h))
    · rw [hprev, if_neg, hya]
      rintro rfl
      rcases mem_cons.mp h₂.next_mem with h | h
      · exact he (h ▸ mem_cons_self)
      · exact hyd (mem_append_right _ (mem_cons_of_mem _ h))

theorem Reps.unlink (h : r.Reps l) (hb : b ∈ l) : (r.unlink b).Reps (l.erase b) := by
  obtain ⟨l₁, l₂, rfl, hb₁⟩ := eq_append_cons_of_mem hb
  have hseg := h.seg
  rw [map_append, map_cons] at hseg
  obtain ⟨h₁, h₂⟩ := seg_append.mp hseg
  have hnone : none ∉ l₁.map some ++ some b :: l₂.map some := by simp
  have hnd : (l₁.map some ++ some b :: l₂.map some).Nodup := by
    rw [← map_cons, ← map_append]
    exact h.nodup.map (Option.some_injective α)
  refine ⟨h.nodup.erase b, ?_⟩
  rw [erase_append_right _ hb₁, erase_cons_head, map_append]
  exact h₁.unlink h₂ (nodup_cons.mpr ⟨hnone, hnd⟩) hnone

theorem Reps.pushFront (h : r.Reps l) (hb : b ∉ l) : (r.pushFront b).Reps (b :: l) := by
  have hm := h.seg.next_mem
  have hfirst : r.next none ≠ some b := fun he => by
    rw [he] at hm
    simp [hb] at hm
  have hnext : ∀ x, (r.pushFront b).next x = if x = none then some b else if x = some b then r.next none
    else r.next x :=
    fun x => by simp only [LinkRing.pushFront, setNext, setPrev, Function.update_apply]
  have hprev : ∀ x, (r.pushFront b).prev x = if x = r.next none then some b else if x = some b then none
    else r.prev x :=
    fun x => by
      simp only [LinkRing.pushFront, setNext, setPrev, Function.update_of_ne (show none ≠ some b from nofun),
        Function.update_apply]
  refine ⟨nodup_cons.mpr ⟨hb, h.nodup⟩, ⟨by rw [hnext, if_pos rfl], by rw [hprev, if_neg hfirst.symm, if_pos rfl]⟩, ?_⟩
  have hseg := h.seg
  cases l with
  | nil =>
    have h1 : r.next none = none := hseg.1
    exact ⟨by rw [hnext, if_neg (nofun : some b ≠ none), if_pos rfl, h1], by rw [hprev, if_pos h1.symm]⟩
  | cons y l =>
    have h1 : r.next none = some y := hseg.1.1
    refine ⟨⟨by rw [hnext, if_neg (nofun : some b ≠ none), if_pos rfl, h1], by rw [hprev, if_pos h1.symm]⟩,
      hseg.2.congr (fun x hx => ?_) fun x hx => ?_⟩
    · rw [← map_cons] at hx
      obtain ⟨z, hz, rfl⟩ := mem_map.mp hx
      rw [hnext, if_neg (nofun : some z ≠ none), if_neg]
      exact fun he => hb (Option.some_inj.mp he ▸ hz)
    · rcases mem_cons.mp hx with rfl | hx
      · rw [hprev, if_neg (by rw [h1]; nofun), if_neg nofun]
      · obtain ⟨z, hz, rfl⟩ := mem_map.mp hx
        rw [hprev, h1, if_neg, if_neg]
        · exact fun he => hb (Option.some_inj.mp he ▸ mem_cons_of_mem _ hz)
        · exact fun he => (nodup_cons.mp h.nodup).1 (Option.some_inj.mp he ▸ hz)

end Reps

theorem Reps.inverse {l : List α} (h : r.Reps l) (hall : ∀ b, b ∈ l) (x : Option α) : r.prev (r.next x) = x ∧
    r.next (r.prev x) = x := by
  have hx : x ∈ none :: l.map some := by
    cases x with
    | none => exact mem_cons_self
    | some b => exact mem_cons_of_mem _ (mem_map_of_mem (hall b))
  exact ⟨h.seg.inverse.1 x hx, h.seg.inverse.2 x hx⟩

end LinkRing
