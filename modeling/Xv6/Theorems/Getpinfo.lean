import Xv6.Getpinfo
import Xv6.Theorems.Syscall
import Xv6.Theorems.Vm.Paging

/-! What `getpinfo` prints. The state letter is printed as a string, up to the first NUL after it, in padding that
    `fillpstat` does not write. -/

namespace Xv6
open List Bytes

variable {c d : Caller} {s : Ptable} {name : Slot → Nat → UInt8} {m m' t nm : Nat → UInt8} {a i n o p v : Nat}

/-! ### Numbers -/

def decimal (x : Int) : List UInt8 := (toString x).toList.map charByte

theorem printDigits_reverse {base x : Nat} (hb : 1 < base) (hx : x < base ^ (n + 1)) :
    (printDigits base (n + 1) x).reverse = (Nat.toDigits base x).map charByte := by
  induction n generalizing x with
  | zero =>
    have hlt : x < base := by simpa using hx
    simp [printDigits, Nat.toDigits_of_lt_base hlt, Nat.mod_eq_of_lt hlt]
  | succ n ih =>
    rw [printDigits, Nat.toDigits_eq_if hb]
    by_cases hlt : x < base
    · simp [hlt, Nat.div_eq_of_lt hlt, Nat.mod_eq_of_lt hlt]
    · have hle : base ≤ x := Nat.le_of_not_lt hlt
      have hdiv : x / base ≠ 0 := Nat.ne_of_gt (Nat.div_pos hle (by omega))
      have hrec := ih (x := x / base) ((Nat.div_lt_iff_lt_mul (by omega)).mpr (by rwa [← Nat.pow_succ]))
      rw [if_neg hlt, if_pos hdiv, reverse_cons, hrec, map_append, map_singleton]

theorem printint_intWord {x : Int} : printint (intWord x) 10 true = decimal (int32 x) := by
  have hlo := Int.emod_nonneg x (b := 2 ^ 32) (by decide)
  have hhi := Int.emod_lt_of_pos x (b := 2 ^ 32) (by decide)
  have hw : (intWord x : Int) = x % 2 ^ 32 := Int.toNat_of_nonneg hlo
  have hint : int32 x = if (intWord x : Int) < 2 ^ 31 then (intWord x : Int) else (intWord x : Int) - 2 ^ 32 := by
    rw [hw, int32, CInt.wrap, Int.bmod_def]
    split_ifs <;> omega
  rw [decimal, Int.toString_eq_repr, Int.repr_eq_if, hint, printint]
  by_cases hneg : 2 ^ 31 ≤ intWord x
  · rw [if_pos ⟨rfl, hneg⟩, if_neg (by omega), if_neg (by omega), printDigits_reverse (by decide) (by omega)]
    simp [String.toList_append]
  · rw [if_neg (by simpa using hneg), if_pos (by omega), if_pos (by omega), printDigits_reverse (by decide) (by omega)]
    simp

/-! ### Strings -/

theorem putsFrom_at {text : List UInt8} (h : Cstr.At c.mem a text) (ha : a + text.length < PGROUNDUP c.sz)
    (hn : text.length < n) : putsFrom c n a = some text := by
  induction text generalizing a n with
  | nil =>
    obtain ⟨n, rfl⟩ := Nat.exists_eq_succ_of_ne_zero (by omega : n ≠ 0)
    have hload : c.load a = some 0 := by rw [Caller.load, if_pos (by simpa using ha), show c.mem a = 0 from h]
    simp [putsFrom, hload]
  | cons b text ih =>
    obtain ⟨n, rfl⟩ := Nat.exists_eq_succ_of_ne_zero (by omega : n ≠ 0)
    obtain ⟨hne, hb, h⟩ := h
    rw [length_cons] at ha hn
    have hload : c.load a = some b := by rw [Caller.load, if_pos (by omega), hb]
    rw [putsFrom, hload]
    split
    · next h => cases h
    · next h => exact absurd (Option.some.inj h) hne
    · next h =>
      cases h
      rw [ih h (by omega) (by omega)]
      rfl

def textWithin (n : Nat) (t : Nat → UInt8) : List UInt8 := ((List.range n).map t).takeWhile (· ≠ 0)

theorem textWithin_succ : textWithin (n + 1) t = if t 0 ≠ 0 then t 0 :: textWithin n fun i => t (i + 1) else [] := by
  simp only [textWithin, range_succ_eq_map, map_cons, takeWhile_cons, map_map, decide_eq_true_eq]
  rfl

theorem length_textWithin_le : (textWithin n t).length ≤ n :=
  ( takeWhile_prefix _).length_le.trans (by simp)

theorem safestrcpyFrom_frame (hi : i < a ∨ a + n < i) : safestrcpyFrom n m a t i = m i := by
  induction n generalizing m a t with
  | zero => exact splice_of_not_mem (by simp; omega)
  | succ n ih =>
    rw [safestrcpyFrom]
    have hfirst : Bytes.splice m a [t 0] i = m i := splice_of_not_mem (by simp; omega)
    split
    · exact (ih (by omega)).trans hfirst
    · exact (splice_of_not_mem (by simp; omega)).trans hfirst

theorem safestrcpyFrom_congr (h : m i = m' i) : safestrcpyFrom n m a t i = safestrcpyFrom n m' a t i := by
  induction n generalizing m m' a t with
  | zero => exact splice_congr h
  | succ n ih =>
    rw [safestrcpyFrom, safestrcpyFrom]
    split
    · exact ih (splice_congr h)
    · exact splice_congr (splice_congr h)

theorem splice_self {b : UInt8} : Bytes.splice m a [b] a = b := by
  simp [Bytes.splice]

theorem safestrcpyFrom_at : Cstr.At (safestrcpyFrom n m a t) a (textWithin n t) := by
  induction n generalizing m a t with
  | zero => exact splice_self
  | succ n ih =>
    rw [safestrcpyFrom, textWithin_succ]
    split
    · next hne =>
      refine ⟨hne, ?_, ih⟩
      rw [safestrcpyFrom_frame (by omega), splice_self]
    · next hz =>
      have hz : t 0 = 0 := by simpa using hz
      refine (splice_of_not_mem (by simp)).trans ?_
      rw [splice_self, hz]

/-! ### The entries -/

theorem safestrcpy_frame (hi : i < a ∨ a + 16 ≤ i) : safestrcpy m a t 16 i = m i :=
  safestrcpyFrom_frame (by omega)

theorem load_safestrcpy (h : o + 4 ≤ a ∨ a + 16 ≤ o) : Bytes.load (safestrcpy m a t 16) o = Bytes.load m o :=
  load_congr fun k hk => safestrcpy_frame (by omega)

variable {x : Proc}

theorem fillEntry_frame (hi : i < a ∨ a + 33 ≤ i) : fillEntry m a x nm i = m i := by
  have hstore : ∀ m o v, a ≤ o → o ≤ a + 12 → Bytes.store m o v i = m i := fun m o v hlo hhi =>
    splice_of_not_mem (by rw [ofWord_length]; omega)
  rw [fillEntry]
  split
  · exact hstore _ _ _ (by omega) (by omega)
  · rw [splice_of_not_mem (by simp; omega), safestrcpy_frame (by omega), hstore _ _ _ (by omega) (by omega),
      hstore _ _ _ (by omega) (by omega), hstore _ _ _ (by omega) (by omega), hstore _ _ _ (by omega) (by omega)]

theorem fillEntry_congr (h : m i = m' i) : fillEntry m a x nm i = fillEntry m' a x nm i := by
  rw [fillEntry, fillEntry]
  split
  · exact splice_congr h
  · refine splice_congr (safestrcpyFrom_congr ?_)
    exact splice_congr (splice_congr (splice_congr (splice_congr h)))

theorem intWord_lt {x : Int} : intWord x < 2 ^ 32 := by
  have := Int.emod_lt_of_pos x (b := 2 ^ 32) (by decide)
  have := Int.emod_nonneg x (b := 2 ^ 32) (by decide)
  unfold intWord
  omega

structure Entry (m : Nat → UInt8) (a : Nat) (x : Proc) (nm : Nat → UInt8) : Prop where
  inuse : Bytes.load m a ≠ 0
  tickets : Bytes.load m (a + 4) = intWord x.tickets
  pid : Bytes.load m (a + 8) = intWord x.pid
  ticks : Bytes.load m (a + 12) = intWord x.ticks
  name : Cstr.At m (a + 16) (textWithin 15 nm)
  state : m (a + 32) = charByte x.state.letter

theorem fillEntry_entry (hx : x.state ≠ .unused) : Entry (fillEntry m a x nm) a x nm := by
  have hload : ∀ m o, o + 4 ≤ a + 16 → Bytes.load (Bytes.splice (safestrcpy m (a + 16) nm 16) (a + 32)
      [charByte x.state.letter]) o = Bytes.load m o := fun m o ho => by
    rw [load_splice (by omega), load_safestrcpy (by omega)]
  rw [fillEntry, if_neg hx]
  refine ⟨?_, ?_, ?_, ?_, ?_, splice_self⟩
  · rw [hload _ _ (by omega), load_store_ne (by omega), load_store_ne (by omega),
      load_store_ne (by omega), load_store (by decide)]
    decide
  · rw [hload _ _ (by omega), load_store_ne (by omega), load_store_ne (by omega), load_store intWord_lt]
  · rw [hload _ _ (by omega), load_store_ne (by omega), load_store intWord_lt]
  · rw [hload _ _ (by omega), load_store intWord_lt]
  · refine safestrcpyFrom_at.congr fun i _ hi => splice_of_not_mem ?_
    have := length_textWithin_le (n := 15) (t := nm)
    omega

theorem fillEntry_unused (hx : x.state = .unused) : Bytes.load (fillEntry m a x nm) a = 0 := by
  rw [fillEntry, if_pos hx, load_store (by decide)]

theorem fillpstat_apply {i : Slot} {y : Nat} (hlo : p + sizeofPstat * i ≤ y) (hhi : y < p + sizeofPstat * i + 36) :
    fillpstat s name p m y = fillEntry m (p + sizeofPstat * i) (s.proc i) (name i) y := by
  unfold fillpstat
  refine foldl_of_own (f := fun m (k : Slot) => fillEntry m (p + sizeofPstat * k) (s.proc k) (name k))
    (W := fun (k : Slot) y => p + sizeofPstat * k ≤ y ∧ y < p + sizeofPstat * k + 36)
    (fun d k y hy => fillEntry_frame ?_) (fun _ _ _ _ => fillEntry_congr) (fun k l y hk hl => ?_)
    (nodup_finRange NPROC) (mem_finRange i) ⟨hlo, hhi⟩
  · omega
  · unfold sizeofPstat at hk hl
    ext
    omega

/-! ### The rows -/

def filled (s : Ptable) (name : Slot → Nat → UInt8) (p : Nat) (c : Caller) : Caller :=
  { c with mem := fillpstat s name p c.mem }

theorem cprintf_text {text : List Char} {argp : List Nat} (h : '%' ∉ text) :
    cprintf c text argp = some (text.map charByte) := by
  induction text with
  | nil => rfl
  | cons b text ih =>
    rw [mem_cons, not_or] at h
    rw [cprintf.eq_def]
    simp [Ne.symm h.1, ih h.2]

theorem filled_entry {i : Slot} (hi : (s.proc i).state ≠ .unused) :
    Entry (filled s name p c).mem (p + sizeofPstat * i) (s.proc i) (name i) := by
  have hfill : ∀ y, p + sizeofPstat * i ≤ y → y < p + sizeofPstat * i + 36 → (filled s name p c).mem y =
      fillEntry c.mem (p + sizeofPstat * i) (s.proc i) (name i) y := fun y => fillpstat_apply
  have hload : ∀ o, o ≤ 12 → Bytes.load (filled s name p c).mem (p + sizeofPstat * i + o) =
      Bytes.load (fillEntry c.mem (p + sizeofPstat * i) (s.proc i) (name i)) (p + sizeofPstat * i + o) := fun o ho =>
    load_congr fun k hk => hfill _ (by omega) (by omega)
  have h : Entry (fillEntry c.mem (p + sizeofPstat * i) (s.proc i) (name i)) (p + sizeofPstat * i) (s.proc i)
    (name i) :=
    fillEntry_entry hi
  have hlen := length_textWithin_le (n := 15) (t := name i)
  refine ⟨?_, (hload 4 (by omega)).trans h.tickets, (hload 8 (by omega)).trans h.pid,
    (hload 12 (by omega)).trans h.ticks, h.name.congr fun y hlo hhi => hfill y (by omega) (by omega),
    (hfill _ (by omega) (by omega)).trans h.state⟩
  rw [← Nat.add_zero (p + sizeofPstat * i), hload 0 (by omega)]
  exact h.inuse

theorem filled_padding {i : Slot} :
    (filled s name p c).mem (p + sizeofPstat * i + 33) = c.mem (p + sizeofPstat * i + 33) :=
  (fillpstat_apply (i := i) (by omega) (by omega)).trans (fillEntry_frame (by omega))

theorem letter_ne_zero {st : ProcState} : charByte st.letter ≠ 0 := by
  cases st <;> decide

def row (x : Proc) (nm : Nat → UInt8) : List UInt8 :=
  decimal (int32 x.pid) ++ [charByte '\t'] ++ decimal (int32 x.tickets) ++ [charByte '\t'] ++ decimal (int32 x.ticks) ++
    [charByte '\t', charByte x.state.letter, charByte '\t'] ++ textWithin 15 nm ++ [charByte '\n']

theorem printEntry_entry (h : Entry c.mem a x nm) (ha : a + 36 ≤ PGROUNDUP c.sz) :
    printEntry c a = (putsFrom c (PGROUNDUP c.sz - (a + 33)) (a + 33)).map fun rest =>
      decimal (int32 x.pid) ++ [charByte '\t'] ++ decimal (int32 x.tickets) ++ [charByte '\t'] ++ decimal
      (int32 x.ticks) ++
        [charByte '\t', charByte x.state.letter] ++ rest ++ [charByte '\t'] ++ textWithin 15 nm ++ [charByte '\n'] := by
  have hlen := length_textWithin_le (n := 15) (t := nm)
  have hname : puts c (a + 16) = some (textWithin 15 nm) := by
    rw [puts, if_neg (by omega)]
    exact putsFrom_at h.name (by omega) (by omega)
  have hstate : puts c (a + 32) =
      (putsFrom c (PGROUNDUP c.sz - (a + 33)) (a + 33)).map (charByte x.state.letter :: ·) := by
    rw [puts, if_neg (by omega), show PGROUNDUP c.sz - (a + 32) = PGROUNDUP c.sz - (a + 33) + 1 by omega, putsFrom,
      show c.load (a + 32) = some (charByte x.state.letter) by rw [Caller.load, if_pos (by omega), h.state]]
    split
    · next h => cases h
    · next h => exact absurd (Option.some.inj h) letter_ne_zero
    · next h =>
      cases h
      rfl
  rw [printEntry, if_neg h.inuse, h.pid, h.tickets, h.ticks]
  cases hrest : putsFrom c (PGROUNDUP c.sz - (a + 33)) (a + 33) with
  | none => simp [cprintf, hstate, hrest]
  | some rest => simp [cprintf, hname, hstate, hrest, printint_intWord]

def slotRow (s : Ptable) (name : Slot → Nat → UInt8) (i : Slot) : List UInt8 :=
  if (s.proc i).state = .unused then [] else row (s.proc i) (name i)

/-- In the table at `p`, before the call, the byte after the state letter of entry `i` is 0, if slot `i` is in use. -/
def Terminated (s : Ptable) (p : Nat) (c : Caller) (i : Slot) : Prop :=
  (s.proc i).state ≠ .unused → c.mem (p + sizeofPstat * i + 33) = 0

theorem entry_le {i : Slot} (hp : p + sizeofPstatTable ≤ n) : p + sizeofPstat * i + 36 ≤ n := by
  have := i.isLt
  simp only [sizeofPstatTable, sizeofPstat, NPROC] at *
  omega

theorem printEntry_unused {i : Slot} (hi : (s.proc i).state = .unused) :
    printEntry (filled s name p c) (p + sizeofPstat * i) = some [] := by
  have hload : Bytes.load (filled s name p c).mem (p + sizeofPstat * i) = 0 := by
    have h : Bytes.load (fillEntry c.mem (p + sizeofPstat * i) (s.proc i) (name i)) (p + sizeofPstat * i) = 0 :=
      fillEntry_unused hi
    rw [← h]
    exact load_congr fun k hk => fillpstat_apply (by omega) (by omega)
  rw [printEntry, if_pos hload]

section

variable (hp : p + sizeofPstatTable ≤ PGROUNDUP c.sz)
include hp

theorem printEntry_of_terminated {i : Slot} (h : Terminated s p c i) :
    printEntry (filled s name p c) (p + sizeofPstat * i) = some (slotRow s name i) := by
  unfold slotRow
  split
  · next hi => exact printEntry_unused hi
  · next hi =>
    have hle : p + sizeofPstat * i + 36 ≤ PGROUNDUP (filled s name p c).sz := entry_le hp
    have hnil : Cstr.At (filled s name p c).mem (p + sizeofPstat * i + 33) [] := filled_padding.trans (h hi)
    rw [printEntry_entry (filled_entry hi) hle, putsFrom_at hnil]
    · simp [row]
    · rw [length_nil]
      omega
    · rw [length_nil]
      omega

theorem length_printEntry {i : Slot} {out : List UInt8}
    (h : ¬Terminated s p c i) (hout : printEntry (filled s name p c) (p + sizeofPstat * i) = some out) :
    (slotRow s name i).length < out.length := by
  obtain ⟨hi, hpad⟩ := Classical.not_imp.mp h
  have hle : p + sizeofPstat * i + 36 ≤ PGROUNDUP (filled s name p c).sz := entry_le hp
  rw [printEntry_entry (filled_entry hi) hle, Option.map_eq_some_iff] at hout
  obtain ⟨rest, hrest, rfl⟩ := hout
  have hne : rest ≠ [] := by
    rintro rfl
    obtain ⟨k, hk⟩ := Nat.exists_eq_succ_of_ne_zero
      (by omega : PGROUNDUP (filled s name p c).sz - (p + sizeofPstat * i + 33) ≠ 0)
    rw [hk, putsFrom, Caller.load, if_pos (by omega), filled_padding] at hrest
    split at hrest
    · cases hrest
    · next h => exact hpad (Option.some.inj h)
    · simp at hrest
  have := length_pos_of_ne_nil hne
  simp only [slotRow, if_neg hi, row, length_append, length_cons]
  omega

theorem length_printEntries {l : List Slot} {out : List UInt8}
    (hout : printEntries (filled s name p c) p l = some out) : (l.flatMap (slotRow s name)).length ≤ out.length ∧
      (out.length ≤ (l.flatMap (slotRow s name)).length → ∀ i ∈ l, Terminated s p c i) := by
  induction l generalizing out with
  | nil => simp
  | cons j l ih =>
    simp only [printEntries, Option.bind_eq_bind, Option.bind_eq_some_iff, Option.pure_def, Option.some.injEq] at hout
    obtain ⟨o, ho, os, hos, rfl⟩ := hout
    obtain ⟨hle, hall⟩ := ih hos
    simp only [flatMap_cons, length_append, forall_mem_cons]
    by_cases hj : Terminated s p c j
    · rw [printEntry_of_terminated hp hj] at ho
      cases ho
      exact ⟨by omega, fun hlen => ⟨hj, hall (by omega)⟩⟩
    · have := length_printEntry hp hj ho
      exact ⟨by omega, fun hlen => by omega⟩

theorem printEntries_of_terminated {l : List Slot}
    (h : ∀ i ∈ l, Terminated s p c i) : printEntries (filled s name p c) p l = some (l.flatMap (slotRow s name)) := by
  induction l with
  | nil => rfl
  | cons j l ih =>
    obtain ⟨hj, h⟩ := forall_mem_cons.mp h
    simp [printEntries, printEntry_of_terminated hp hj, ih h]

end

/-! ### The call -/

def listingHead : List UInt8 := "PID\tTKTS\tTCKS\tSTAT\tNAME\n".toList.map charByte

def listing (s : Ptable) (name : Slot → Nat → UInt8) : List UInt8 :=
  listingHead ++ (slots.filter fun i => (s.proc i).state ≠ .unused).flatMap fun i => row (s.proc i) (name i)

theorem listing_eq : listing s name = listingHead ++ slots.flatMap (slotRow s name) := by
  refine congrArg (listingHead ++ ·) ?_
  generalize slots = l
  induction l with
  | nil => rfl
  | cons i l ih =>
    by_cases hi : (s.proc i).state = .unused
    · simpa [slotRow, hi] using ih
    · simpa [slotRow, hi] using ih

theorem argptr_le (h : c.argptr 0 sizeofPstatTable = some p) : p + sizeofPstatTable ≤ c.sz := by
  have hsize : (sizeofPstatTable : Int) < 2 ^ 31 := by decide
  exact_mod_cast ((Caller.argptr_eq_some hsize).mp h).2.2.2

def printed (s : Ptable) (name : Slot → Nat → UInt8) (c : Caller) : Option (List UInt8) :=
  (getpinfo s name c).map (·.2.2)

theorem printed_eq (h : c.argptr 0 sizeofPstatTable = some p) :
    printed s name c = (printEntries (filled s name p c) p slots).map (listingHead ++ ·) := by
  have hhead : ∀ c, cprintf c "PID\tTKTS\tTCKS\tSTAT\tNAME\n".toList [] = some listingHead := fun c =>
    cprintf_text (by decide)
  unfold printed getpinfo
  rw [h]
  simp only [hhead, Option.bind_eq_bind, Option.bind_some]
  change ((printEntries (filled s name p c) p slots).bind _).map _ = _
  cases printEntries (filled s name p c) p slots <;> rfl

/-- The call prints the listing of the process table exactly when every entry in use of the caller's buffer has a 0
    after the place of the state letter; and calls from two such buffers print the same. -/
theorem getpinfo_prints_listing {q : Nat} (hc : c.argptr 0 sizeofPstatTable = some p)
    (hd : d.argptr 0 sizeofPstatTable = some q) : (printed s name c = some (listing s name) ↔ ∀ i, Terminated s p c i) ∧
      ((∀ i, Terminated s p c i) → (∀ i, Terminated s q d i) → printed s name c = printed s name d) := by
  have hiff : ∀ {c : Caller} {p : Nat}, c.argptr 0 sizeofPstatTable = some p →
      (printed s name c = some (listing s name) ↔ ∀ i, Terminated s p c i) := by
    intro c p h
    have hp := (argptr_le h).trans (le_PGROUNDUP c.sz_lt.le)
    rw [printed_eq h, listing_eq]
    constructor
    · intro hout i
      obtain ⟨out, hout, happ⟩ := Option.map_eq_some_iff.mp hout
      rw [append_cancel_left happ] at hout
      exact (length_printEntries hp hout).2 le_rfl i (mem_finRange i)
    · intro hall
      rw [printEntries_of_terminated hp fun i _ => hall i, Option.map_some]
  exact ⟨hiff hc, fun h₁ h₂ => ((hiff hc).mpr h₁).trans ((hiff hd).mpr h₂).symm⟩

def oneRunning : Ptable :=
  { proc := fun i => if i = 0 then { state := .running, pid := 1, tickets := 10, ticks := 7 } else {} }

def shName : Slot → Nat → UInt8 := fun _ i => ("sh".toList.map charByte).getD i 0

/-- A caller with two pages of zeroes, but for the buffer's address, 100, as the argument on its stack and the byte `b`
    after the state letter of the buffer's first entry. -/
def callerWith (b : UInt8) : Caller :=
  ⟨fun i => if i = 4 then 100 else if i = 133 then b else 0, 8192, 0, by decide⟩

theorem getpinfo_prints_listing_oneRunning :
    printed oneRunning shName (callerWith 0) = some (listing oneRunning shName) := by
  have hp : (callerWith 0).argptr 0 sizeofPstatTable = some 100 := by decide +kernel
  refine (getpinfo_prints_listing hp hp).1.mpr fun i hi => ?_
  have h0 : i = 0 := by
    by_contra hne
    simp [oneRunning, hne] at hi
  subst h0
  decide

/-- With a `!` there the state column is `R!`, and the output differs from the listing, which a zeroed buffer gives. -/
theorem getpinfo_prints_padding :
    (callerWith 33).argptr 0 sizeofPstatTable = some 100 ∧ (callerWith 0).argptr 0 sizeofPstatTable = some 100 ∧
      printed oneRunning shName (callerWith 33) = some (listingHead ++ "1\t10\t7\tR!\tsh\n".toList.map charByte) ∧
      printed oneRunning shName (callerWith 33) ≠ some (listing oneRunning shName) ∧
      printed oneRunning shName (callerWith 33) ≠ printed oneRunning shName (callerWith 0) := by
  have hbang : printed oneRunning shName (callerWith 33) =
      some (listingHead ++ "1\t10\t7\tR!\tsh\n".toList.map charByte) := by decide +kernel
  have hzero : printed oneRunning shName (callerWith 0) =
      some (listingHead ++ "1\t10\t7\tR\tsh\n".toList.map charByte) := by decide +kernel
  have hlist : listing oneRunning shName = listingHead ++ "1\t10\t7\tR\tsh\n".toList.map charByte := by decide +kernel
  rw [hbang, hzero, hlist]
  decide +kernel

end Xv6
