import Xv6.Lib.Bytes

/-! C strings in memory, and a text as newline-terminated lines. -/

namespace Cstr
open List

def read (mem : Nat → UInt8) : Nat → Nat → List UInt8
  | 0, _ => []
  | f + 1, p => if mem p = 0 then [] else mem p :: read mem f (p + 1)

def strchr (mem : Nat → UInt8) (c : UInt8) : Nat → Nat → Option Nat
  | 0, _ => none
  | f + 1, p => if mem p = 0 then none else if mem p = c then some p else strchr mem c f (p + 1)

/-- The string `s` stands at address `p`, followed by its NUL. -/
def At (mem : Nat → UInt8) : Nat → List UInt8 → Prop
  | p, [] => mem p = 0
  | p, c :: s => c ≠ 0 ∧ mem p = c ∧ At mem (p + 1) s

variable {mem mem' : Nat → UInt8} {p f : Nat} {s x : List UInt8} {c : UInt8}

theorem At.read_eq (h : At mem p s) (hf : s.length < f) : read mem f p = s := by
  induction s generalizing p f with
  | nil =>
    obtain _ | f := f
    · omega
    exact if_pos h
  | cons c s ih =>
    obtain _ | f := f
    · omega
    obtain ⟨h0, hc, hs⟩ := h
    rw [read, hc, if_neg h0, ih hs (Nat.succ_lt_succ_iff.mp hf)]

theorem At.strchr_none (h : At mem p s) (hc : c ∉ s) : strchr mem c f p = none := by
  induction s generalizing p f with
  | nil =>
    cases f with
    | zero => rfl
    | succ f => exact if_pos h
  | cons b s ih =>
    cases f with
    | zero => rfl
    | succ f =>
      obtain ⟨h0, hb, hs⟩ := h
      rw [mem_cons, not_or] at hc
      rw [strchr, hb, if_neg h0, if_neg (Ne.symm hc.1), ih hs hc.2]

theorem At.strchr_some (h : At mem p (x ++ c :: s)) (hx : c ∉ x) (hf : x.length < f) :
    strchr mem c f p = some (p + x.length) := by
  obtain _ | f := f
  · omega
  induction x generalizing p f with
  | nil =>
    obtain ⟨h0, hc, -⟩ := h
    rw [strchr, hc, if_neg h0, if_pos rfl]
    rfl
  | cons b x ih =>
    obtain ⟨h0, hb, hs⟩ := h
    rw [mem_cons, not_or] at hx
    rw [List.length_cons] at hf
    obtain _ | f := f
    · omega
    rw [strchr, hb, if_neg h0, if_neg (Ne.symm hx.1), ih hs hx.2 f (by omega), List.length_cons]
    congr 1
    omega

theorem At.unique (h : At mem p s) (h' : At mem p x) : s = x := by
  induction s generalizing p x with
  | nil =>
    cases x with
    | nil => rfl
    | cons b x => exact absurd (h'.2.1.symm.trans h) h'.1
  | cons c s ih =>
    cases x with
    | nil => exact absurd (h.2.1.symm.trans h') h.1
    | cons b x => rw [h.2.1.symm.trans h'.2.1, ih h.2.2 h'.2.2]

theorem At.ne_zero (h : At mem p s) (hc : c ∈ s) : c ≠ 0 := by
  induction s generalizing p with
  | nil => cases hc
  | cons b s ih =>
    rcases mem_cons.mp hc with rfl | hc
    · exact h.1
    · exact ih h.2.2 hc

theorem At.drop (h : At mem p (x ++ s)) : At mem (p + x.length) s := by
  induction x generalizing p with
  | nil => exact h
  | cons b x ih =>
    rw [List.length_cons, Nat.add_comm x.length, ← Nat.add_assoc]
    exact ih h.2.2

theorem At.congr (h : At mem p s) (hm : ∀ i, p ≤ i → i ≤ p + s.length → mem' i = mem i) : At mem' p s := by
  induction s generalizing p with
  | nil => exact (hm p (Nat.le_refl p) (Nat.le_refl p)).trans h
  | cons b s ih =>
    rw [List.length_cons] at hm
    exact ⟨h.1, (hm p (Nat.le_refl p) (by omega)).trans h.2.1, ih h.2.2 fun i h1 h2 => hm i (by omega) (by omega)⟩

theorem At.cut (h : At mem p (x ++ c :: s)) : At (Function.update mem (p + x.length) 0) p x := by
  induction x generalizing p with
  | nil => exact Function.update_self _ _ _
  | cons b x ih =>
    have hne : p ≠ p + (b :: x).length := by
      rw [List.length_cons]
      omega
    refine ⟨h.1, by rw [Function.update_of_ne hne]; exact h.2.1, ?_⟩
    rw [List.length_cons, Nat.add_comm x.length, ← Nat.add_assoc]
    exact ih h.2.2

theorem at_of_bytes (h0 : 0 ∉ s) (hs : ∀ i (hi : i < s.length), mem (p + i) = s[i]) (hn : mem (p + s.length) = 0) :
    At mem p s := by
  induction s generalizing p with
  | nil => exact hn
  | cons b s ih =>
    rw [mem_cons, not_or] at h0
    refine ⟨Ne.symm h0.1, hs 0 (Nat.succ_pos _), ih h0.2 (fun i hi => ?_) ?_⟩
    · rw [Nat.add_assoc, Nat.add_comm 1]
      exact hs (i + 1) (Nat.succ_lt_succ hi)
    · rw [Nat.add_assoc, Nat.add_comm 1]
      exact hn

theorem At.bytes (h : At mem p s) : ∀ i (hi : i < s.length), mem (p + i) = s[i] := by
  induction s generalizing p with
  | nil => exact fun i hi => absurd hi (Nat.not_lt_zero i)
  | cons b s ih =>
    intro i hi
    cases i with
    | zero => exact h.2.1
    | succ i =>
      rw [getElem_cons_succ, Nat.add_comm i, ← Nat.add_assoc]
      exact ih h.2.2 i (Nat.succ_lt_succ_iff.mp hi)

theorem At.slice (h : At mem p (x ++ s)) : Bytes.slice mem p x.length = x := by
  refine ext_getElem Bytes.slice_length fun i h1 h2 => ?_
  have hb := h.bytes i (by rw [List.length_append]; omega)
  rw [getElem_append_left h2] at hb
  simpa [Bytes.slice] using hb

end Cstr

/-! ### Lines -/

namespace Lines

def nl : UInt8 := 10

/-- The newline-terminated lines of a text, without their newlines. -/
def complete (s : List UInt8) : List (List UInt8) := (s.splitOn nl).dropLast

def rest (s : List UInt8) : List UInt8 := (s.splitOn nl).getLastD []

variable {s t x : List UInt8}

theorem splitOn_ne_nil : s.splitOn nl ≠ [] := List.splitOnP_ne_nil _ _

theorem beq_nl_of_not_mem (h : nl ∉ s) (c : UInt8) (hc : c ∈ s) : (c == nl) = false :=
  beq_false_of_ne fun hn => h (hn ▸ hc)

theorem splitOn_of_not_mem (h : nl ∉ s) : s.splitOn nl = [s] := List.splitOnP_eq_singleton (beq_nl_of_not_mem h)

theorem splitOn_line (h : nl ∉ x) : (x ++ nl :: s).splitOn nl = x :: s.splitOn nl :=
  List.splitOnP_append_cons_of_forall_mem (beq_nl_of_not_mem h) nl (beq_self_eq_true nl) s

theorem complete_of_not_mem (h : nl ∉ s) : complete s = [] := by rw [complete, splitOn_of_not_mem h]; rfl

theorem rest_of_not_mem (h : nl ∉ s) : rest s = s := by rw [rest, splitOn_of_not_mem h]; rfl

theorem complete_line (h : nl ∉ x) : complete (x ++ nl :: s) = x :: complete s := by
  rw [complete, splitOn_line h, List.dropLast_cons_of_ne_nil splitOn_ne_nil, complete]

theorem rest_line (h : nl ∉ x) : rest (x ++ nl :: s) = rest s := by
  rw [rest, splitOn_line h, rest]
  cases hs : s.splitOn nl with
  | nil => exact absurd hs splitOn_ne_nil
  | cons y l => rfl

theorem cases_line (s : List UInt8) : nl ∉ s ∨ ∃ x t, nl ∉ x ∧ s = x ++ nl :: t := by
  by_cases h : nl ∈ s
  · obtain ⟨x, t, hs, hx⟩ := List.eq_append_cons_of_mem h
    exact .inr ⟨x, t, hx, hs⟩
  · exact .inl h

theorem induction_lines {P : List UInt8 → Prop} (last : ∀ s, nl ∉ s → P s)
    (line : ∀ x s, nl ∉ x → P s → P (x ++ nl :: s)) (s : List UInt8) : P s := by
  obtain h | ⟨x, t, hx, hs⟩ := cases_line s
  · exact last s h
  · exact hs ▸ line x t hx (induction_lines last line t)
termination_by s.length
decreasing_by
  rw [hs, List.length_append, List.length_cons]
  omega

theorem not_mem_rest (s : List UInt8) : nl ∉ rest s := by
  induction s using induction_lines with
  | last s h => rwa [rest_of_not_mem h]
  | line x s hx ih => rwa [rest_line hx]

theorem rest_suffix (s : List UInt8) : rest s <:+ s := by
  induction s using induction_lines with
  | last s h => exact ⟨[], by rw [List.nil_append, rest_of_not_mem h]⟩
  | line x s hx ih =>
    rw [rest_line hx]
    exact ih.trans ((List.suffix_cons nl s).trans (List.suffix_append x _))

theorem complete_append (s t : List UInt8) : complete (s ++ t) = complete s ++ complete (rest s ++ t) := by
  induction s using induction_lines with
  | last s h => rw [complete_of_not_mem h, rest_of_not_mem h, List.nil_append]
  | line x s hx ih =>
    rw [List.append_assoc, List.cons_append, complete_line hx, complete_line hx, rest_line hx, ih, List.cons_append]

end Lines
