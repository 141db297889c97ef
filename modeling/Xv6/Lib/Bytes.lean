import Mathlib.Tactic.Ring
import Mathlib.Data.List.Basic

/-! Memory as a function from addresses to bytes: little-endian words, and runs of bytes read and
    written as lists. -/

namespace Bytes
open List

def half (d : Nat → UInt8) (o : Nat) : Nat := (d o).toNat + 256 * (d (o + 1)).toNat

def word (d : Nat → UInt8) (j : Nat) : Nat :=
  (d (4 * j)).toNat + 256 * (d (4 * j + 1)).toNat + 256 ^ 2 * (d (4 * j + 2)).toNat + 256 ^ 3 * (d (4 * j + 3)).toNat

def setWord (d : Nat → UInt8) (j v : Nat) : Nat → UInt8 := fun i =>
  if i / 4 = j then UInt8.ofNat (v / 256 ^ (i % 4)) else d i

def setHalf (d : Nat → UInt8) (o v : Nat) : Nat → UInt8 := fun i =>
  if i = o then UInt8.ofNat v else if i = o + 1 then UInt8.ofNat (v / 256) else d i

/-- Memory from address `o`, as if it started at 0. -/
def shift (d : Nat → UInt8) (o : Nat) : Nat → UInt8 := fun i => d (o + i)

def slice (d : Nat → UInt8) (o n : Nat) : List UInt8 := (List.range n).map fun i => d (o + i)

def splice (d : Nat → UInt8) (o : Nat) (src : List UInt8) : Nat → UInt8 := fun i =>
  if o ≤ i ∧ i < o + src.length then src.getD (i - o) 0 else d i

/-- The 32-bit word from address `o`, aligned or not. -/
def load (d : Nat → UInt8) (o : Nat) : Nat := word (fun i => d (o + i)) 0

def ofWord (v : Nat) : List UInt8 := (List.range 4).map fun i => UInt8.ofNat (v / 256 ^ i)

/-- The 32-bit word `v` written from address `o`. -/
def store (d : Nat → UInt8) (o v : Nat) : Nat → UInt8 := splice d o (ofWord v)

variable {d e : Nat → UInt8} {i j v o o' n : Nat} {src : List UInt8}

theorem word_setWord (hv : v < 2 ^ 32) : word (setWord d j v) j = v := by
  have h0 : (4 * j) / 4 = j ∧ (4 * j) % 4 = 0 := by omega
  have h1 : (4 * j + 1) / 4 = j ∧ (4 * j + 1) % 4 = 1 := by omega
  have h2 : (4 * j + 2) / 4 = j ∧ (4 * j + 2) % 4 = 2 := by omega
  have h3 : (4 * j + 3) / 4 = j ∧ (4 * j + 3) % 4 = 3 := by omega
  simp only [word, setWord, h0, h1, h2, h3, if_true, UInt8.toNat_ofNat']
  omega

theorem word_setWord_ne (h : i ≠ j) : word (setWord d j v) i = word d i := by
  have h0 : (4 * i) / 4 ≠ j := by omega
  have h1 : (4 * i + 1) / 4 ≠ j := by omega
  have h2 : (4 * i + 2) / 4 ≠ j := by omega
  have h3 : (4 * i + 3) / 4 ≠ j := by omega
  simp only [word, setWord, h0, h1, h2, h3, if_false]

theorem word_lt : word d j < 2 ^ 32 := by
  have h0 := (d (4 * j)).toNat_lt
  have h1 := (d (4 * j + 1)).toNat_lt
  have h2 := (d (4 * j + 2)).toNat_lt
  have h3 := (d (4 * j + 3)).toNat_lt
  simp only [word]
  omega

theorem word_congr (h : ∀ i, i / 4 = j → d i = e i) : word d j = word e j := by
  simp only [word, h (4 * j) (by omega), h (4 * j + 1) (by omega), h (4 * j + 2) (by omega), h (4 * j + 3) (by omega)]

theorem half_congr (h : ∀ i, i = o ∨ i = o + 1 → d i = e i) : half d o = half e o := by
  simp only [half, h o (.inl rfl), h (o + 1) (.inr rfl)]

theorem half_setWord (h : o / 4 ≠ j) (h' : (o + 1) / 4 ≠ j) : half (setWord d j v) o = half d o := by
  simp only [half, setWord, h, h', if_false]

@[simp] theorem word_zero : word (fun _ => 0) j = 0 := rfl

@[simp] theorem slice_length : (slice d o n).length = n := by simp [slice]

theorem splice_of_not_mem (h : i < o ∨ o + src.length ≤ i) : splice d o src i = d i := by
  rw [splice, if_neg (by omega)]

theorem splice_congr (h : d i = e i) : splice d o src i = splice e o src i := by
  simp only [splice, h]

@[simp] theorem ofWord_length : (ofWord v).length = 4 := rfl

theorem load_store (hv : v < 2 ^ 32) : load (store d o v) o = v := by
  have h : ∀ k, k < 4 → store d o v (o + k) = UInt8.ofNat (v / 256 ^ k) := by
    intro k hk
    rw [store, splice, if_pos (by simp; omega), Nat.add_sub_cancel_left]
    simp [ofWord, getD_eq_getElem?_getD, hk]
  simp only [load, word, h 0, h 1, h 2, h 3, Nat.mul_zero, Nat.zero_add, show (0 : Nat) < 4 by decide,
    show (1 : Nat) < 4 by decide, show (2 : Nat) < 4 by decide, show (3 : Nat) < 4 by decide, UInt8.toNat_ofNat']
  omega

theorem load_congr (h : ∀ k, k < 4 → d (o + k) = e (o + k)) : load d o = load e o := by
  simp only [load, word, Nat.mul_zero, Nat.zero_add, h 0 (by decide), h 1 (by decide), h 2 (by decide), h 3 (by decide)]

theorem load_splice (h : o + 4 ≤ o' ∨ o' + src.length ≤ o) : load (splice d o' src) o = load d o :=
  load_congr fun _ _ => splice_of_not_mem (by omega)

theorem load_store_ne (h : o + 4 ≤ o' ∨ o' + 4 ≤ o) : load (store d o' v) o = load d o :=
  load_splice (by rwa [ofWord_length])

section Fold

variable {ι : Type} {f : (Nat → UInt8) → ι → Nat → UInt8} {W : ι → Nat → Prop}

/-- Writes by several writers, each to bytes of its W: the others leave a byte as it is. -/
theorem foldl_of_not_own (hout : ∀ d k i, ¬W k i → f d k i = d i) {l : List ι} (h : ∀ k ∈ l, ¬W k i) :
    l.foldl f d i = d i := by
  induction l generalizing d with
  | nil => rfl
  | cons k l ih =>
    rw [foldl_cons, ih fun k hk => h k (mem_cons_of_mem _ hk)]
    exact hout d k i (h k mem_cons_self)

/-- A byte of writer `k` is the one `k` alone writes. -/
theorem foldl_of_own (hout : ∀ d k i, ¬W k i → f d k i = d i) (hloc : ∀ d e k i, d i = e i → f d k i = f e k i)
    (hdisj : ∀ k l i, W k i → W l i → k = l) {l : List ι} (hl : l.Nodup) {k : ι} (hk : k ∈ l) (hi : W k i) :
    l.foldl f d i = f d k i := by
  induction l generalizing d with
  | nil => cases hk
  | cons m l ih =>
    rw [foldl_cons]
    obtain ⟨hm, hl⟩ := nodup_cons.mp hl
    by_cases hkm : k = m
    · subst hkm
      exact foldl_of_not_own hout fun j hj hij => hm (hdisj _ _ _ hi hij ▸ hj)
    · rw [ih hl ((mem_cons.mp hk).resolve_left hkm)]
      exact hloc _ _ _ _ (hout _ _ _ fun him => hkm (hdisj _ _ _ hi him))

end Fold
end Bytes
