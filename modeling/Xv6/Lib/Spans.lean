import Mathlib.Data.List.Pairwise
import Mathlib.Tactic.Common

/-! Lists of intervals of addresses: how often an address is covered, and lists in increasing order in which no two
    intervals touch, with an interval joined to its neighbours. -/

/-- The addresses from `start` on, `len` of them. -/
structure Span where
  start : Nat
  len : Nat
deriving DecidableEq

namespace Span
open List

def stop (b : Span) : Nat := b.start + b.len

def Has (b : Span) (x : Nat) : Prop := b.start ≤ x ∧ x < b.stop

instance (b : Span) (x : Nat) : Decidable (b.Has x) := inferInstanceAs (Decidable (_ ∧ _))

def Apart (b c : Span) : Prop := b.stop ≤ c.start ∨ c.stop ≤ b.start

/-- The first interval ends before the second starts, and does not touch it. -/
def Before (b c : Span) : Prop := b.stop < c.start

/-- How many of the intervals contain the address. -/
def cover (l : List Span) (x : Nat) : Nat := l.countP (·.Has x)

variable {b c : Span} {l l' : List Span} {x : Nat}

@[simp] theorem cover_nil : cover [] x = 0 := rfl

@[simp] theorem cover_cons : cover (b :: l) x = (if b.Has x then 1 else 0) + cover l x := by
  rw [cover, countP_cons, cover, Nat.add_comm]
  simp only [decide_eq_true_eq]

@[simp] theorem cover_append : cover (l ++ l') x = cover l x + cover l' x := countP_append

theorem cover_perm (h : l.Perm l') : cover l x = cover l' x := h.countP_eq _

theorem cover_pos_iff : 0 < cover l x ↔ ∃ b ∈ l, b.Has x := by
  rw [cover, countP_pos_iff]
  simp only [decide_eq_true_eq]

theorem pairwise_apart (h : ∀ x, cover l x ≤ 1) (hpos : ∀ b ∈ l, 0 < b.len) : l.Pairwise Apart := by
  induction l with
  | nil => exact List.Pairwise.nil
  | cons b l ih =>
    have hb := hpos b mem_cons_self
    refine pairwise_cons.mpr ⟨fun c hc => ?_, ih (fun x => ?_) fun c hc => hpos c (mem_cons_of_mem _ hc)⟩
    · have hc' := hpos c (mem_cons_of_mem _ hc)
      by_contra hn
      -- the later of the two starts is in both
      have hboth : b.Has (max b.start c.start) ∧ c.Has (max b.start c.start) := by
        simp only [Apart, Has, stop] at *
        omega
      have h1 := h (max b.start c.start)
      have h2 := cover_pos_iff.mpr ⟨c, hc, hboth.2⟩
      rw [cover_cons, if_pos hboth.1] at h1
      omega
    · have := h x
      rw [cover_cons] at this
      omega

theorem Apart.symm (h : Apart b c) : Apart c b := Or.symm h

instance : Std.Symm Apart := ⟨fun _ _ h => h.symm⟩

theorem exists_cut (h : l.Pairwise Before) (x : Nat) :
    ∃ l₁ l₂, l = l₁ ++ l₂ ∧ (∀ c ∈ l₁, c.start < x) ∧ ∀ c ∈ l₂, x ≤ c.start := by
  induction l with
  | nil => exact ⟨[], [], rfl, nofun, nofun⟩
  | cons b l ih =>
    obtain ⟨hb, hl⟩ := pairwise_cons.mp h
    by_cases hx : b.start < x
    · obtain ⟨l₁, l₂, rfl, h1, h2⟩ := ih hl
      refine ⟨b :: l₁, l₂, rfl, fun c hc => ?_, h2⟩
      rcases mem_cons.mp hc with rfl | hc
      · exact hx
      · exact h1 c hc
    · refine ⟨[], b :: l, rfl, nofun, fun c hc => ?_⟩
      rcases mem_cons.mp hc with rfl | hc
      · exact Nat.not_lt.mp hx
      · have := hb c hc
        simp only [Before, stop] at this
        omega

/-- Addresses in a row that are in a list in order are in one of its intervals. -/
theorem exists_row {a m : Nat} (hl : l.Pairwise Before) (h : ∀ x, a ≤ x → x ≤ a + m → ∃ b ∈ l, b.Has x) :
    ∃ b ∈ l, b.start ≤ a ∧ a + m < b.stop := by
  induction m with
  | zero => exact h a (Nat.le_refl _) (Nat.le_refl _)
  | succ m ih =>
    obtain ⟨b, hb, hba, hab⟩ := ih fun x h1 h2 => h x h1 (Nat.le_succ_of_le h2)
    obtain ⟨c, hc, hcx⟩ := h (a + (m + 1)) (Nat.le_add_right ..) (Nat.le_refl _)
    by_cases hbc : b = c
    · exact ⟨b, hb, hba, hbc ▸ hcx.2⟩
    · -- they do not touch, so the next address cannot be in another one
      have hsymm : Std.Symm fun b c => Before b c ∨ Before c b := ⟨fun _ _ => Or.symm⟩
      have hne := (hl.imp (S := fun b c => Before b c ∨ Before c b) Or.inl).forall hb hc hbc
      simp only [Before, Has, stop] at *
      omega

/-- The interval put in front of the list, joined to the first one if they touch. -/
def join (b : Span) : List Span → List Span
  | [] => [b]
  | c :: l => if b.stop = c.start then ⟨b.start, b.len + c.len⟩ :: l else b :: c :: l

theorem join_cases (b : Span) (l : List Span) : join b l = b :: l ∧ (∀ c ∈ l.head?, b.stop ≠ c.start) ∨
      ∃ c l', l = c :: l' ∧ b.stop = c.start ∧ join b l = ⟨b.start, b.len + c.len⟩ :: l' := by
  cases l with
  | nil => exact .inl ⟨rfl, nofun⟩
  | cons c l =>
    by_cases h : b.stop = c.start
    · exact .inr ⟨c, l, rfl, h, if_pos h⟩
    · refine .inl ⟨if_neg h, fun d hd => ?_⟩
      cases hd
      exact h

theorem cover_join : cover (join b l) x = cover (b :: l) x := by
  obtain ⟨h, -⟩ | ⟨c, l', rfl, hc, h⟩ := join_cases b l
  · rw [h]
  · have hor : Has ⟨b.start, b.len + c.len⟩ x ↔ b.Has x ∨ c.Has x := by
      simp only [Has, stop] at hc ⊢
      omega
    have hand : ¬(b.Has x ∧ c.Has x) := by
      simp only [Has, stop] at hc ⊢
      omega
    rw [h, cover_cons, cover_cons, cover_cons, ← Nat.add_assoc]
    by_cases hb : b.Has x
    · rw [if_pos (hor.mpr (.inl hb)), if_pos hb, if_neg fun hc => hand ⟨hb, hc⟩]
    · simp only [hor, hb, false_or, if_false, Nat.zero_add]

theorem cover_split {m n : Nat} (h : c.len = m + n) (x : Nat) :
    cover [⟨c.start, m⟩, ⟨c.start + m, n⟩] x = cover [c] x := by
  have hj : join ⟨c.start, m⟩ [⟨c.start + m, n⟩] = [c] := by
    rw [join, if_pos (show stop ⟨c.start, m⟩ = c.start + m from rfl), ← h]
  rw [← hj, cover_join]

theorem mem_join (h : c ∈ join b l) : c.start = b.start ∧ b.len ≤ c.len ∧ (∃ d ∈ b :: l, c.stop = d.stop) ∨ c ∈ l := by
  obtain ⟨hj, -⟩ | ⟨d, l', rfl, hc, hj⟩ := join_cases b l
  · rw [hj] at h
    rcases mem_cons.mp h with rfl | h
    · exact .inl ⟨rfl, Nat.le_refl _, c, mem_cons_self, rfl⟩
    · exact .inr h
  · rw [hj] at h
    rcases mem_cons.mp h with rfl | h
    · refine .inl ⟨rfl, Nat.le_add_right _ _, d, mem_cons_of_mem _ mem_cons_self, ?_⟩
      simp only [stop] at hc ⊢
      omega
    · exact .inr (mem_cons_of_mem _ h)

theorem join_eq_cons (b : Span) (l : List Span) : ∃ c l', join b l = c :: l' ∧ c.start = b.start ∧ b.len ≤ c.len := by
  obtain ⟨hj, -⟩ | ⟨d, l', rfl, hc, hj⟩ := join_cases b l
  · exact ⟨b, l, hj, rfl, Nat.le_refl _⟩
  · exact ⟨_, l', hj, rfl, Nat.le_add_right _ _⟩

theorem exists_mem_join_join (b c : Span) (l : List Span) : ∃ d ∈ join b (join c l), c.len ≤ d.len := by
  obtain ⟨e, l', he, -, hlen⟩ := join_eq_cons c l
  rw [he]
  obtain ⟨hj, -⟩ | ⟨d, l'', hd, hc, hj⟩ := join_cases b (e :: l')
  · rw [hj]
    exact ⟨e, mem_cons_of_mem _ mem_cons_self, hlen⟩
  · obtain ⟨rfl, rfl⟩ := List.cons.inj hd
    rw [hj]
    exact ⟨_, mem_cons_self, Nat.le_trans hlen (Nat.le_add_left _ _)⟩

/-- A joined list is in order again, with no two intervals touching. -/
theorem pairwise_join (hl : l.Pairwise Before) (hpos : ∀ c ∈ l, 0 < c.len) (hb : ∀ c ∈ l, b.stop ≤ c.start) :
    (join b l).Pairwise Before := by
  obtain ⟨h, hne⟩ | ⟨c, l', rfl, hc, h⟩ := join_cases b l
  · rw [h]
    refine pairwise_cons.mpr ⟨fun c hc => ?_, hl⟩
    cases l with
    | nil => cases hc
    | cons d l =>
      have hd : b.stop < d.start := Nat.lt_of_le_of_ne (hb d mem_cons_self) (hne d rfl)
      rcases mem_cons.mp hc with rfl | hc
      · exact hd
      · have hdc := (pairwise_cons.mp hl).1 c hc
        simp only [Before, stop] at *
        omega
  · rw [h]
    obtain ⟨hc', hl⟩ := pairwise_cons.mp hl
    refine pairwise_cons.mpr ⟨fun d hd => ?_, hl⟩
    have hd' := hc' d hd
    simp only [Before, stop] at *
    omega

end Span
