import Xv6.Memmove
import Mathlib.Tactic.Common

/-! What `memmove` has to do, and when the loop up and the loop down do it: a byte of the source may not be overwritten
    before it is read. -/

namespace Xv6
open Function

/-- The `n` bytes at `dst` are what those at `src` were, and every other byte is as before. -/
structure Moved (m m' : Addr → UInt8) (dst src : Addr) (n : Nat) : Prop where
  copied : ∀ i < n, m' (dst + .ofNat 32 i) = m (src + .ofNat 32 i)
  kept : ∀ a, (∀ i < n, a ≠ dst + .ofNat 32 i) → m' a = m a

variable {m : Addr → UInt8} {dst src : Addr}

theorem Moved.unique {m₁ m₂ : Addr → UInt8} {n : Nat} (h₁ : Moved m m₁ dst src n) (h₂ : Moved m m₂ dst src n) :
    m₁ = m₂ := by
  funext a
  by_cases ha : ∀ i < n, a ≠ dst + .ofNat 32 i
  · rw [h₁.kept a ha, h₂.kept a ha]
  · push Not at ha
    obtain ⟨i, hi, rfl⟩ := ha
    rw [h₁.copied i hi, h₂.copied i hi]

/-! ### Addresses -/

theorem addr_toNat {a : Addr} {i : Nat} (h : a.toNat + i < 2 ^ 32) : (a + .ofNat 32 i).toNat = a.toNat + i := by
  rw [BitVec.toNat_add, BitVec.toNat_ofNat]
  omega

theorem addr_succ (a : Addr) (i : Nat) : a + 1 + .ofNat 32 i = a + .ofNat 32 (i + 1) := by
  rw [BitVec.ofNat_add, BitVec.add_assoc, BitVec.add_comm 1]
  rfl

theorem addr_ne {a : Addr} {i j : Nat} (hij : i < j) (hj : j < 2 ^ 32) : a + .ofNat 32 i ≠ a + .ofNat 32 j := by
  intro h
  have h' := congrArg BitVec.toNat ((BitVec.add_right_inj a).mp h)
  rw [BitVec.toNat_ofNat, BitVec.toNat_ofNat, Nat.mod_eq_of_lt hj, Nat.mod_eq_of_lt (Nat.lt_trans hij hj)] at h'
  omega

/-! ### The loops -/

section

variable {n : Nat}

theorem copyUp_kept {a : Addr} (ha : ∀ i < n, a ≠ dst + .ofNat 32 i) : copyUp n m dst src a = m a := by
  induction n generalizing m dst src with
  | zero => rfl
  | succ n ih =>
    rw [copyUp, ih, update_of_ne]
    · simpa using ha 0 (Nat.succ_pos n)
    · intro i hi
      rw [addr_succ]
      exact ha (i + 1) (by omega)

theorem copyUp_moved (hn : n ≤ 2 ^ 32) (h : ∀ i j, i < n → j < i → src + .ofNat 32 i ≠ dst + .ofNat 32 j) :
    Moved m (copyUp n m dst src) dst src n := by
  refine ⟨?_, fun a => copyUp_kept⟩
  induction n generalizing m dst src with
  | zero => exact fun i hi => absurd hi (Nat.not_lt_zero i)
  | succ n ih =>
    rintro (- | i) hi
    · rw [BitVec.add_zero, BitVec.add_zero, copyUp, copyUp_kept, update_self]
      intro j hj
      rw [addr_succ]
      simpa using addr_ne (a := dst) (Nat.succ_pos j) (by omega)
    · rw [← addr_succ, ← addr_succ, copyUp, ih (by omega) _ i (by omega), update_of_ne]
      · rw [addr_succ]
        simpa using h (i + 1) 0 hi (Nat.succ_pos i)
      · intro i j hi hj
        rw [addr_succ, addr_succ]
        exact h (i + 1) (j + 1) (by omega) (by omega)

/-- The loop down does if no byte of it lies among those further up. -/
theorem copyDown_moved (hn : n ≤ 2 ^ 32) (h : ∀ i j, j < n → i < j → src + .ofNat 32 i ≠ dst + .ofNat 32 j) :
    Moved m (copyDown n m (dst + .ofNat 32 n) (src + .ofNat 32 n)) dst src n := by
  induction n generalizing m with
  | zero => exact ⟨fun i hi => absurd hi (Nat.not_lt_zero i), fun _ _ => rfl⟩
  | succ n ih =>
    have hd : ∀ a : Addr, a + .ofNat 32 (n + 1) - 1 = a + .ofNat 32 n := by
      intro a
      rw [BitVec.ofNat_add, ← BitVec.add_assoc]
      exact BitVec.add_sub_cancel _ _
    rw [copyDown, hd, hd]
    have hr := ih (m := update m (dst + .ofNat 32 n) (m (src + .ofNat 32 n))) (by omega)
      fun i j hj hi => h i j (by omega) hi
    constructor
    · intro i hi
      by_cases hin : i = n
      · rw [hin, hr.kept _ fun j hj => (addr_ne hj (by omega)).symm, update_self]
      · rw [hr.copied i (by omega), update_of_ne (h i n (by omega) (by omega))]
    · intro a ha
      rw [hr.kept a fun i hi => ha i (by omega), update_of_ne (ha n (by omega))]

theorem copyUp_add (i j : Nat) :
    copyUp (i + j) m dst src = copyUp j (copyUp i m dst src) (dst + .ofNat 32 i) (src + .ofNat 32 i) := by
  induction i generalizing m dst src with
  | zero => simp [copyUp]
  | succ i ih => rw [Nat.succ_add, copyUp, ih, copyUp, addr_succ, addr_succ]

/-- With the destination `k` bytes further up, the loop up reads its own first byte as the byte `k` of the source. -/
theorem copyUp_overlap {k : Nat} (hkn : k < n) (hn : k + n ≤ 2 ^ 32) :
    copyUp n m (src + .ofNat 32 k) src (src + .ofNat 32 k + .ofNat 32 k) = m src := by
  obtain ⟨r, rfl⟩ := Nat.exists_eq_add_of_lt hkn
  have hfirst : Moved m (copyUp k m (src + .ofNat 32 k) src) (src + .ofNat 32 k) src k :=
    copyUp_moved (by omega) fun i j hi _ => by
    rw [BitVec.add_assoc, ← BitVec.ofNat_add]
    exact addr_ne (by omega) (by omega)
  rw [Nat.add_assoc, copyUp_add, copyUp, copyUp_kept, update_self]
  · by_cases hk : k = 0
    · simp [hk, copyUp]
    · simpa using hfirst.copied 0 (by omega)
  · intro i hi
    rw [addr_succ]
    simpa using addr_ne (a := src + .ofNat 32 k + .ofNat 32 k) (Nat.succ_pos i) (by omega)

end

/-! ### The functions -/

variable {n : BitVec 32}

theorem memmove_moved (hd : dst.toNat + n.toNat ≤ 2 ^ 32) (hs : src.toNat + n.toNat ≤ 2 ^ 32) :
    Moved m (memmove m dst src n) dst src n.toNat := by
  have hn : n.toNat ≤ 2 ^ 32 := by omega
  have hne : ∀ i j, i < n.toNat → j < n.toNat → src.toNat + i ≠ dst.toNat + j →
      src + .ofNat 32 i ≠ dst + .ofNat 32 j := by
    intro i j hi hj hij h
    have h' := congrArg BitVec.toNat h
    rw [addr_toNat (by omega), addr_toNat (by omega)] at h'
    exact hij h'
  unfold memmove
  split
  · next h =>
    have hlt : src.toNat < dst.toNat := h.1
    have := copyDown_moved (m := m) hn fun i j hj hi => hne i j (Nat.lt_trans hi hj) hj (by omega)
    simpa using this
  · next h =>
    refine copyUp_moved hn fun i j hi hj => hne i j hi (Nat.lt_trans hj hi) fun hij => h ⟨?_, ?_⟩
    · exact BitVec.lt_def.mpr (by omega)
    · have hwrap : src.toNat + n.toNat < 2 ^ 32 := by omega
      exact BitVec.lt_def.mpr (by rw [BitVec.toNat_add, Nat.mod_eq_of_lt hwrap]; omega)

/-- The user library's function is right, and then the same as the kernel's, exactly if the destination does not start
    inside the source; the kernel's always is. -/
theorem memmove_correct_iff (hd : dst.toNat + n.toNat ≤ 2 ^ 32) (hs : src.toNat + n.toNat ≤ 2 ^ 32) :
    (∀ m, Moved m (memmove m dst src n) dst src n.toNat) ∧
    (0 ≤ n.toInt → ((∀ m, Moved m (Ulib.memmove m dst src n.toInt) dst src n.toNat ∧
      Ulib.memmove m dst src n.toInt = memmove m dst src n) ↔ ¬(src < dst ∧ dst.toNat < src.toNat + n.toNat))) := by
  refine ⟨fun m => memmove_moved hd hs, fun hn => ?_⟩
  have hint : n.toInt.toNat = n.toNat := by
    rw [BitVec.toInt_eq_toNat_cond] at hn ⊢
    split
    · rfl
    · have := n.isLt
      split at hn <;> omega
  constructor
  · rintro h ⟨hlt, hin⟩
    have hlt : src.toNat < dst.toNat := hlt
    obtain ⟨k, hk⟩ := Nat.exists_eq_add_of_lt hlt
    have hdst : dst = src + .ofNat 32 (k + 1) := BitVec.eq_of_toNat_eq (by rw [addr_toNat (by omega)]; omega)
    -- A memory in which the first byte of the source is not that of the destination.
    let m : Addr → UInt8 := fun a => if a = src then 1 else 0
    have hm := (h m).1.copied (k + 1) (by omega)
    unfold Ulib.memmove at hm
    rw [hint, hdst, copyUp_overlap (by omega) (by omega), ← hdst] at hm
    have hne : dst ≠ src := by
      rintro rfl
      omega
    simp [m, hne] at hm
  · intro h m
    have hmv : Moved m (Ulib.memmove m dst src n.toInt) dst src n.toNat := by
      unfold Ulib.memmove
      rw [hint]
      refine copyUp_moved (by omega) fun i j hi hj hij => ?_
      have h' := congrArg BitVec.toNat hij
      rw [addr_toNat (by omega), addr_toNat (by omega)] at h'
      exact h ⟨BitVec.lt_def.mpr (by omega), by omega⟩
    exact ⟨hmv, hmv.unique (memmove_moved hd hs)⟩

theorem memmove_correct_iff_two : (∀ m, Moved m (memmove m 4 3 2) 4 3 2) ∧
    ¬∀ m, Moved m (Ulib.memmove m 4 3 2) 4 3 2 ∧ Ulib.memmove m 4 3 2 = memmove m 4 3 2 := by
  have h := @memmove_correct_iff 4 3 2 (by decide) (by decide)
  exact ⟨h.1, fun hc => (h.2 (by decide)).mp hc (by decide)⟩

/-- The bytes 1, 2 at 3, to be moved to 4: the second becomes 1. -/
theorem ulib_memmove_smears : let m : Addr → UInt8 := fun a => if a = 3 then 1 else if a = 4 then 2 else 0
    (memmove m 4 3 2 4, memmove m 4 3 2 5) = (1, 2) ∧ (Ulib.memmove m 4 3 2 4, Ulib.memmove m 4 3 2 5) = (1, 1) := by
  decide

end Xv6
