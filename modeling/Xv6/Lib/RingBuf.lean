import Mathlib.Algebra.GroupWithZero.Nat
import Mathlib.Data.List.Infix

/-! Ring buffers indexed by two free-running counters of `w` bits. As long as the capacity divides 2^w the
    buffer is a queue, however often the counters have wrapped around. -/

structure RingBuf (α : Type) (w N : Nat) where
  data : Fin N → α
  nread : BitVec w
  nwrite : BitVec w

namespace RingBuf
open List

variable {α : Type} {w N : Nat} [NeZero N] {r : RingBuf α w N} {stored taken : List α} {a : α}

def cell (n : BitVec w) : Fin N := Fin.ofNat N n.toNat

def Full (r : RingBuf α w N) : Prop := r.nwrite = r.nread + BitVec.ofNat w N

def Empty (r : RingBuf α w N) : Prop := r.nread = r.nwrite

instance : Decidable r.Full := inferInstanceAs (Decidable (_ = _))

instance : Decidable r.Empty := inferInstanceAs (Decidable (_ = _))

def push (r : RingBuf α w N) (a : α) : RingBuf α w N :=
  { r with data := Function.update r.data (cell r.nwrite) a, nwrite := r.nwrite + 1 }

def front (r : RingBuf α w N) : α := r.data (cell r.nread)

def pop (r : RingBuf α w N) : RingBuf α w N := { r with nread := r.nread + 1 }

def back (r : RingBuf α w N) : α := r.data (cell (r.nwrite - 1))

def unpush (r : RingBuf α w N) : RingBuf α w N := { r with nwrite := r.nwrite - 1 }

/-- The buffer after the elements `stored` were put in and the elements `taken` were taken out. -/
structure Holds (r : RingBuf α w N) (stored taken : List α) : Prop where
  nread : r.nread = BitVec.ofNat w taken.length
  nwrite : r.nwrite = BitVec.ofNat w stored.length
  fifo : taken <+: stored
  room : stored.length ≤ taken.length + N
  kept : ∀ j (h : j < stored.length), taken.length ≤ j → r.data (Fin.ofNat N j) = stored[j]

theorem cell_ofNat (hd : N ∣ 2 ^ w) (n : Nat) : (cell (BitVec.ofNat w n) : Fin N) = Fin.ofNat N n := by
  ext
  simp [cell, Nat.mod_mod_of_dvd n hd]

theorem ofNat_ne {i j : Nat} (hij : i < j) (hj : j < i + N) : Fin.ofNat N i ≠ Fin.ofNat N j := by
  intro h
  have hmod : i % N = j % N := by simpa using congrArg Fin.val h
  have hdvd : N ∣ j - i := Nat.dvd_of_mod_eq_zero (Nat.sub_mod_eq_zero_of_mod_eq hmod.symm)
  have := Nat.le_of_dvd (by omega) hdvd
  omega

theorem ofNat_inj {i j : Nat} (hij : i ≤ j) (hj : j < i + 2 ^ w) (h : BitVec.ofNat w i = BitVec.ofNat w j) : i = j := by
  have hmod : i % 2 ^ w = j % 2 ^ w := by simpa using congrArg BitVec.toNat h
  by_contra hne
  have hdvd : 2 ^ w ∣ j - i := Nat.dvd_of_mod_eq_zero (Nat.sub_mod_eq_zero_of_mod_eq hmod.symm)
  have := Nat.le_of_dvd (by omega) hdvd
  omega

theorem toNat_ofNat_sub {i j : Nat} (hij : i ≤ j) (hj : j < i + 2 ^ w) :
    (BitVec.ofNat w j - BitVec.ofNat w i).toNat = j - i := by
  have hadd : BitVec.ofNat w j = BitVec.ofNat w (j - i) + BitVec.ofNat w i := by
    rw [← BitVec.ofNat_add, Nat.sub_add_cancel hij]
  rw [hadd, BitVec.add_sub_cancel, BitVec.toNat_ofNat, Nat.mod_eq_of_lt (by omega)]

namespace Holds

section

variable (h : r.Holds stored taken)
include h

theorem length (hN : N < 2 ^ w) :
    stored.length = taken.length + (r.nwrite - r.nread).toNat ∧ (r.nwrite - r.nread).toNat ≤ N := by
  have hle := h.fifo.length_le
  have hroom := h.room
  rw [h.nread, h.nwrite, toNat_ofNat_sub hle (by omega)]
  omega

theorem full_iff (hN : N < 2 ^ w) : r.Full ↔ stored.length = taken.length + N := by
  unfold Full
  rw [h.nread, h.nwrite, ← BitVec.ofNat_add]
  constructor
  · intro he
    have := h.fifo.length_le
    exact ofNat_inj h.room (by omega) he
  · intro he
    rw [he]

theorem empty_iff (hN : N < 2 ^ w) : r.Empty ↔ taken.length = stored.length := by
  unfold Empty
  rw [h.nread, h.nwrite]
  constructor
  · intro he
    have := h.room
    exact ofNat_inj h.fifo.length_le (by omega) he
  · intro he
    rw [he]

theorem push (hd : N ∣ 2 ^ w) (hN : N < 2 ^ w) (hf : ¬r.Full) (a : α) : (r.push a).Holds (stored ++ [a]) taken := by
  rw [h.full_iff hN] at hf
  have hroom := h.room
  refine ⟨h.nread, ?_, h.fifo.trans (prefix_append _ _), by simp; omega, fun j hj hle => ?_⟩
  · simp [RingBuf.push, h.nwrite, BitVec.ofNat_add]
  · simp only [RingBuf.push, h.nwrite, cell_ofNat hd]
    rcases Nat.lt_or_ge j stored.length with hjs | hjs
    · -- The new element takes the place of one that was taken out.
      rw [Function.update_of_ne (ofNat_ne hjs (by omega)), getElem_append_left hjs]
      exact h.kept j hjs hle
    · have hjeq : j = stored.length := by
        simp at hj
        omega
      subst hjeq
      simp

theorem pop (hd : N ∣ 2 ^ w) (hN : N < 2 ^ w) (he : ¬r.Empty) : r.pop.Holds stored (taken ++ [r.front]) := by
  rw [h.empty_iff hN] at he
  have hlt : taken.length < stored.length := lt_of_le_of_ne h.fifo.length_le he
  have hroom := h.room
  have hfront : r.front = stored[taken.length] := by
    rw [front, h.nread, cell_ofNat hd]
    exact h.kept _ hlt le_rfl
  refine ⟨?_, h.nwrite, ?_, by simp; omega, fun j hj hle => h.kept j hj (by simp at hle; omega)⟩
  · simp [RingBuf.pop, h.nread, BitVec.ofNat_add]
  · obtain ⟨rest, rfl⟩ := h.fifo
    cases rest with
    | nil => simp at hlt
    | cons b rest =>
      rw [hfront]
      exact ⟨rest, by simp⟩

end

theorem nwrite_sub_one (h : r.Holds (stored ++ [a]) taken) : r.nwrite - 1 = BitVec.ofNat w stored.length := by
  have hadd : BitVec.ofNat w (stored.length + 1) = BitVec.ofNat w stored.length + 1 := BitVec.ofNat_add _ _
  rw [h.nwrite, length_append, length_singleton, hadd, BitVec.add_sub_cancel]

theorem back (h : r.Holds (stored ++ [a]) taken) (hd : N ∣ 2 ^ w) (hle : taken.length ≤ stored.length) :
    r.back = a := by
  rw [RingBuf.back, h.nwrite_sub_one, cell_ofNat hd, h.kept _ (by simp) hle]
  simp

theorem unpush (h : r.Holds (stored ++ [a]) taken) (hle : taken.length ≤ stored.length) :
    r.unpush.Holds stored taken := by
  have hroom := h.room
  rw [length_append, length_singleton] at hroom
  refine ⟨h.nread, h.nwrite_sub_one, prefix_of_prefix_length_le h.fifo (prefix_append _ _) hle, by omega,
    fun j hj hlo => ?_⟩
  rw [RingBuf.unpush, h.kept j (by simp; omega) hlo, getElem_append_left hj]

end Holds
end RingBuf
