import Xv6.Exec

/-! `copyout` stops at the first page with a page table that is not the user's. A page table that does not exist is
    not noticed: `uva2ka` reads the entry through the null pointer. -/

namespace Xv6
open List Option

def Pgdir.userPage (d : Pgdir) (a : Nat) : Option Page :=
  (d.lookup a).bind fun e => if e.flags &&& PTE_U = 0 then none else some e.page

def Pgdir.Reaches (d : Pgdir) (a : Nat) (pg : Page) (o : Nat) : Prop := d.userPage a = some pg ∧ a % PGSIZE = o

variable {k k' : Kmem} {cur d : Pgdir} {va n f i : Nat} {buf : List UInt8} {pg : Page} {log log' : NullReads}
  {r : Except Stop (Bool × Kmem × NullReads)}

/-- Every page of the range is present and the user's. -/
def AllUser (d : Pgdir) (va n : Nat) : Prop := ∀ i < n, (d.userPage (va + i)).isSome

/-- There is a page table for each page of the range, up to the first that is not the user's. -/
def Tabled (d : Pgdir) (va n : Nat) : Prop := ∀ i < n, AllUser d va i → d.pde (PDX (va + i)) ≠ none

/-- Every page of the range that has a page table is the user's. -/
def Passed (d : Pgdir) (va n : Nat) : Prop := ∀ i < n, d.pde (PDX (va + i)) ≠ none → (d.userPage (va + i)).isSome

/-- Addresses of the range that reach the same byte get the same value. -/
def Agrees (d : Pgdir) (va : Nat) (buf : List UInt8) : Prop :=
  ∀ i < buf.length, ∀ j < buf.length, ∀ pg o, d.Reaches (va + i) pg o → d.Reaches (va + j) pg o →
    buf.getD i 0 = buf.getD j 0

/-- The range holds the bytes of `buf`, and what no address of it reaches is as before. -/
structure Copied (d : Pgdir) (va : Nat) (buf : List UInt8) (k k' : Kmem) : Prop where
  bytes : ∀ i < buf.length, ∀ pg o, d.Reaches (va + i) pg o → k'.mem pg o = buf.getD i 0
  others : ∀ pg o, (∀ i < buf.length, ¬d.Reaches (va + i) pg o) → k'.mem pg o = k.mem pg o

def Placed (d : Pgdir) (va : Nat) (buf : List UInt8) (k k' : Kmem) : Prop :=
  ∀ pg o, (∃ i < buf.length, d.Reaches (va + i) pg o ∧ k'.mem pg o = buf.getD i 0) ∨
    (∀ i < buf.length, ¬d.Reaches (va + i) pg o) ∧ k'.mem pg o = k.mem pg o

theorem Placed.copied (h : Placed d va buf k k') (ha : Agrees d va buf) : Copied d va buf k k' where
  bytes i hi pg o hr := by
    rcases h pg o with ⟨j, hj, hrj, hv⟩ | ⟨hno, -⟩
    · rw [hv]
      exact ha j hj i hi pg o hrj hr
    · exact absurd hr (hno i hi)
  others pg o hno := by
    rcases h pg o with ⟨j, hj, hr, -⟩ | ⟨-, hv⟩
    · exact absurd hr (hno j hj)
    · exact hv

theorem Copied.agrees (h : Copied d va buf k k') : Agrees d va buf := fun i hi j hj pg o hri hrj =>
  (h.bytes i hi pg o hri).symm.trans (h.bytes j hj pg o hrj)

/-! ### One page -/

theorem slot_of_page (h : va % PGSIZE + i < PGSIZE) :
    PDX (va + i) = PDX (PGROUNDDOWN va) ∧ PTX (va + i) = PTX (PGROUNDDOWN va) := by
  constructor
  · apply Fin.ext
    simp only [PDX, PGROUNDDOWN, PGSIZE] at *
    omega
  · apply Fin.ext
    simp only [PTX, PGROUNDDOWN, PGSIZE] at *
    omega

theorem userPage_of_page (h : va % PGSIZE + i < PGSIZE) : d.userPage (va + i) = d.userPage (PGROUNDDOWN va) := by
  obtain ⟨hd, ht⟩ := slot_of_page h
  simp only [Pgdir.userPage, Pgdir.lookup, hd, ht]

theorem uva2ka_tabled {a : Nat} (h : d.pde (PDX a) ≠ none) : uva2ka cur k d a = .ok (d.userPage a) := by
  have hnull : (d.pde (PDX a)).isNone = false := by rwa [isNone_eq_false_iff, isSome_iff_ne_none]
  simp only [uva2ka, hnull, Bool.false_eq_true, if_false, false_and, Except.ok_bind, Pgdir.userPage]
  cases d.lookup a with
  | none => rfl
  | some e =>
    simp only [bind_some]
    split <;> rfl

structure Cut (va len n : Nat) : Prop where
  pos : 0 < n
  le : n ≤ len
  page : ∀ i < n, va % PGSIZE + i < PGSIZE
  next : n < len → PGROUNDDOWN va + PGSIZE = va + n

theorem cut_min {len : Nat} (va : Nat) (h : 0 < len) : Cut va len (min (PGSIZE - (va - PGROUNDDOWN va)) len) := by
  constructor <;> simp only [PGROUNDDOWN, PGSIZE] <;> omega

theorem Cut.allUser_iff {len : Nat} (c : Cut va len n) (hu : (d.userPage (PGROUNDDOWN va)).isSome) :
    AllUser d va len ↔ AllUser d (va + n) (len - n) := by
  refine ⟨fun h i hi => ?_, fun h i hi => ?_⟩
  · rw [Nat.add_assoc]
    exact h (n + i) (by omega)
  · by_cases hin : i < n
    · rw [userPage_of_page (c.page i hin)]
      exact hu
    · have := h (i - n) (by omega)
      rwa [Nat.add_assoc, Nat.add_sub_cancel' (Nat.not_lt.mp hin)] at this

theorem Cut.tabled_iff {len : Nat} (c : Cut va len n) (ht : d.pde (PDX (PGROUNDDOWN va)) ≠ none)
    (hu : (d.userPage (PGROUNDDOWN va)).isSome) : Tabled d va len ↔ Tabled d (va + n) (len - n) := by
  refine ⟨fun h i hi ha => ?_, fun h i hi ha => ?_⟩
  · rw [Nat.add_assoc]
    refine h (n + i) (by omega) fun j hj => ?_
    by_cases hjn : j < n
    · rw [userPage_of_page (c.page j hjn)]
      exact hu
    · have := ha (j - n) (by omega)
      rwa [Nat.add_assoc, Nat.add_sub_cancel' (Nat.not_lt.mp hjn)] at this
  · by_cases hin : i < n
    · rw [(slot_of_page (c.page i hin)).1]
      exact ht
    · have := h (i - n) (by omega) fun j hj => by
        rw [Nat.add_assoc]
        exact ha (n + j) (by omega)
      rwa [Nat.add_assoc, Nat.add_sub_cancel' (Nat.not_lt.mp hin)] at this

theorem Cut.passed {len : Nat} (c : Cut va len n)
    (h0 : d.pde (PDX (PGROUNDDOWN va)) ≠ none → (d.userPage (PGROUNDDOWN va)).isSome)
    (h : Passed d (va + n) (len - n)) : Passed d va len := fun i hi ht => by
  by_cases hin : i < n
  · rw [(slot_of_page (c.page i hin)).1] at ht
    rw [userPage_of_page (c.page i hin)]
    exact h0 ht
  · have := h (i - n) (by omega)
    rw [Nat.add_assoc, Nat.add_sub_cancel' (Nat.not_lt.mp hin)] at this
    exact this ht

theorem Cut.placed (c : Cut va buf.length n) (hu : d.userPage (PGROUNDDOWN va) = some pg)
    (h : Placed d (va + n) (buf.drop n) (k.write pg (va - PGROUNDDOWN va) (buf.take n)) k') : Placed d va buf k k' := by
  have hn := c.le
  have hoff : va - PGROUNDDOWN va = va % PGSIZE := by
    simp only [PGROUNDDOWN, PGSIZE]
    omega
  have hmod : ∀ i < n, (va + i) % PGSIZE = va % PGSIZE + i := fun i hi => by
    have := c.page i hi
    simp only [PGSIZE] at *
    omega
  intro q o
  rcases h q o with ⟨i, hi, hr, hv⟩ | ⟨hno, hv⟩
  · rw [length_drop] at hi
    refine .inl ⟨n + i, by omega, by rwa [← Nat.add_assoc], ?_⟩
    rw [hv]
    simp [getD_eq_getElem?_getD]
  -- not written later: what the write to this page has left
  by_cases hw : q = pg ∧ va % PGSIZE ≤ o ∧ o < va % PGSIZE + n
  · obtain ⟨rfl, hlo, hhi⟩ := hw
    have hi : o - va % PGSIZE < n := by omega
    refine .inl ⟨o - va % PGSIZE, by omega, ⟨?_, ?_⟩, ?_⟩
    · rw [userPage_of_page (c.page _ hi), hu]
    · rw [hmod _ hi]
      omega
    · rw [hv, hoff]
      simp only [Kmem.write, Function.update_self, Bytes.splice, length_take]
      rw [if_pos (by omega)]
      simp [getD_eq_getElem?_getD, hi]
  · refine .inr ⟨fun i hi hr => ?_, ?_⟩
    · by_cases hin : i < n
      · obtain ⟨hr1, hr2⟩ := hr
        rw [userPage_of_page (c.page i hin), hu] at hr1
        rw [hmod i hin] at hr2
        exact hw ⟨(some.inj hr1).symm, by omega, by omega⟩
      · refine hno (i - n) (by rw [length_drop]; omega) ?_
        rwa [Nat.add_assoc, Nat.add_sub_cancel' (Nat.not_lt.mp hin)]
    · rw [hv, hoff]
      simp only [Kmem.write]
      by_cases hq : q = pg
      · subst hq
        have hout : ¬(va % PGSIZE ≤ o ∧ o < va % PGSIZE + n) := fun ho => hw ⟨rfl, ho⟩
        rw [Function.update_self, Bytes.splice_of_not_mem (by rw [length_take]; omega)]
      · rw [Function.update_of_ne hq]

/-! ### The loop -/

inductive Outcome (d : Pgdir) (va : Nat) (buf : List UInt8) (k : Kmem) (log : NullReads) :
    Except Stop (Bool × Kmem × NullReads) → Prop
  | null (h : ¬Tabled d va buf.length) {r : Except Stop (Bool × Kmem × NullReads)}
    (hr : ∀ x, r = .ok x → log.length < x.2.2.length ∧ (x.1 = true → Passed d va buf.length)) : Outcome d va buf k log r
  | refused (h : Tabled d va buf.length) (hu : ¬AllUser d va buf.length) (k' : Kmem) :
    Outcome d va buf k log (.ok (false, k', log))
  | copied (h : Tabled d va buf.length) (hu : AllUser d va buf.length) {k' : Kmem} (hp : Placed d va buf k k') :
    Outcome d va buf k log (.ok (true, k', log))

theorem Outcome.passed (h : Outcome d va buf k log r) {x : Bool × Kmem × NullReads} (hr : r = .ok x) :
    log.length ≤ x.2.2.length ∧ (x.1 = true → Passed d va buf.length) := by
  cases h with
  | null _ hx => exact ⟨(hx x hr).1.le, (hx x hr).2⟩
  | refused =>
    cases hr
    exact ⟨le_rfl, nofun⟩
  | copied _ hu =>
    cases hr
    exact ⟨le_rfl, fun _ i hi _ => hu i hi⟩

theorem outcome_nil (va : Nat) : Outcome d va [] k log (.ok (true, k, log)) :=
  .copied (fun _ hi => absurd hi (Nat.not_lt_zero _)) (fun _ hi => absurd hi (Nat.not_lt_zero _))
    fun _ _ => .inr ⟨fun _ hi => absurd hi (Nat.not_lt_zero _), rfl⟩

theorem PDX_mod (va i : Nat) : PDX (va % 2 ^ 32 + i) = PDX (va + i) := by
  apply Fin.ext
  simp only [PDX]
  omega

theorem userPage_mod (d : Pgdir) (va i : Nat) : d.userPage (va % 2 ^ 32 + i) = d.userPage (va + i) := by
  have ht : PTX (va % 2 ^ 32 + i) = PTX (va + i) := by
    apply Fin.ext
    simp only [PTX]
    omega
  simp only [Pgdir.userPage, Pgdir.lookup, PDX_mod, ht]

theorem Outcome.of_mod (h : Outcome d (va % 2 ^ 32) buf k log r) : Outcome d va buf k log r := by
  have hA : ∀ n, AllUser d (va % 2 ^ 32) n ↔ AllUser d va n := fun n => by simp only [AllUser, userPage_mod]
  have hT : ∀ n, Tabled d (va % 2 ^ 32) n ↔ Tabled d va n := fun n => by simp only [Tabled, hA, PDX_mod]
  have hR : ∀ i pg o, d.Reaches (va % 2 ^ 32 + i) pg o ↔ d.Reaches (va + i) pg o := fun i pg o => by
    have hm : (va % 2 ^ 32 + i) % PGSIZE = (va + i) % PGSIZE := by
      simp only [PGSIZE]
      omega
    simp only [Pgdir.Reaches, userPage_mod, hm]
  cases h with
  | null h hr =>
    refine .null (fun h' => h ((hT _).mpr h')) ?_
    simpa only [Passed, PDX_mod, userPage_mod] using hr
  | refused h hu k' => exact .refused ((hT _).mp h) (fun h' => hu ((hA _).mpr h')) k'
  | copied h hu hp =>
    refine .copied ((hT _).mp h) ((hA _).mp hu) ?_
    simpa only [Placed, hR] using hp

/-- The turns to come. -/
theorem Cut.rest (c : Cut va buf.length n)
    (ih : ∀ {k va buf log}, buf.length ≤ f → Outcome d va buf k log (copyoutFrom cur d f k log va buf))
    (hf : buf.length ≤ f + 1) : Outcome d (va + n) (buf.drop n) k log
      (copyoutFrom cur d f k log ((PGROUNDDOWN va + PGSIZE) % 2 ^ 32) (buf.drop n)) := by
  have hpos := c.pos
  have hlen : (buf.drop n).length = buf.length - n := length_drop
  by_cases hlt : n < buf.length
  · rw [c.next hlt]
    exact (ih (by omega)).of_mod
  · rw [drop_eq_nil_of_le (by omega)]
    cases f <;> exact outcome_nil _

theorem Cut.written (c : Cut va buf.length n) (ht : d.pde (PDX (PGROUNDDOWN va)) ≠ none)
    (hu : d.userPage (PGROUNDDOWN va) = some pg)
    (h : Outcome d (va + n) (buf.drop n) (k.write pg (va - PGROUNDDOWN va) (buf.take n)) log r) :
    Outcome d va buf k log r := by
  have hsome : (d.userPage (PGROUNDDOWN va)).isSome := by rw [hu]; rfl
  have hT := c.tabled_iff ht hsome
  have hA := c.allUser_iff hsome
  rw [← length_drop] at hT hA
  cases h with
  | null h hr =>
    refine .null (fun h' => h (hT.mp h')) fun x hx => ⟨(hr x hx).1, fun hc => c.passed (fun _ => hsome) ?_⟩
    rw [← length_drop]
    exact (hr x hx).2 hc
  | refused h hu' k' => exact .refused (hT.mpr h) (fun h' => hu' (hA.mp h')) k'
  | copied h hu' hp => exact .copied (hT.mpr h) (hA.mpr hu') (c.placed hu hp)

theorem Cut.refused (c : Cut va buf.length n) (ht : d.pde (PDX (PGROUNDDOWN va)) ≠ none)
    (hu : d.userPage (PGROUNDDOWN va) = none) : Outcome d va buf k log (.ok (false, k, log)) := by
  have hno : ∀ m, 0 < m → ¬AllUser d va m := fun m hm ha => by
    have := ha 0 hm
    rw [userPage_of_page (c.page 0 c.pos), hu] at this
    cases this
  refine .refused (fun i _ ha => ?_) (hno _ (c.pos.trans_le c.le)) k
  rcases Nat.eq_zero_or_pos i with rfl | hi
  · rw [(slot_of_page (c.page 0 c.pos)).1]
    exact ht
  · exact absurd ha (hno i hi)

theorem copyoutFrom_outcome (hf : buf.length ≤ f) : Outcome d va buf k log (copyoutFrom cur d f k log va buf) := by
  induction f generalizing k va buf log with
  | zero =>
    obtain rfl : buf = [] := eq_nil_of_length_eq_zero (by omega)
    exact outcome_nil va
  | succ f ih =>
    rw [copyoutFrom]
    split
    · next h =>
      rw [List.isEmpty_iff] at h
      subst h
      exact outcome_nil va
    next h =>
    have hpos : 0 < buf.length := length_pos_iff.mpr fun h0 => h (by rw [h0]; rfl)
    have c := cut_min va hpos
    dsimp only
    generalize min (PGSIZE - (va - PGROUNDDOWN va)) buf.length = n at c
    by_cases ht : d.pde (PDX (PGROUNDDOWN va)) = none
    · -- The entry is the caller's word at address 0, of which nothing is known.
      have h0 : d.pde (PDX (va + 0)) = none := by rw [(slot_of_page (c.page 0 c.pos)).1, ht]
      refine .null (fun hT => hT 0 hpos (fun _ hi => absurd hi (Nat.not_lt_zero _)) h0) fun x hx => ?_
      rw [Except.bind_eq_ok] at hx
      obtain ⟨o, -, hx⟩ := hx
      rw [ht, isNone_none, if_pos rfl] at hx
      cases o with
      | none =>
        cases hx
        simp
      | some pg =>
        obtain ⟨hle, hpass⟩ := (c.rest ih hf).passed hx
        rw [if_pos rfl, length_append, length_singleton] at hle
        rw [length_drop] at hpass
        exact ⟨hle, fun hc => c.passed (fun h => absurd ht h) (hpass hc)⟩
    rw [uva2ka_tabled ht, Except.ok_bind, if_neg (by simpa using ht)]
    cases hu : d.userPage (PGROUNDDOWN va) with
    | none => exact c.refused ht hu
    | some pg =>
      dsimp only
      rw [if_neg (by simpa using ht)]
      exact c.written ht hu (c.rest ih hf)

theorem copyout_outcome (cur : Pgdir) (k : Kmem) (log : NullReads) (d : Pgdir) (va : Nat) (buf : List UInt8) :
    Outcome d va buf k log (copyout cur k log d va buf) := copyoutFrom_outcome le_rfl

/-- What `copyout` should do: refuse a range with a page that is not the user's, and copy to any other, and read no
    entry through the null pointer. -/
def Validates (cur : Pgdir) (k : Kmem) (d : Pgdir) (va : Nat) (buf : List UInt8) : Prop :=
  ∃ r k', copyout cur k [] d va buf = .ok (r, k', []) ∧ (r = true ↔ AllUser d va buf.length) ∧
    (r = true → Copied d va buf k k')

/-- `copyout` validates every page exactly if no page table it comes to is missing, and addresses that reach one
    byte are not to get different values. -/
theorem copyout_validates_iff (cur : Pgdir) (k : Kmem) (d : Pgdir) (va : Nat) (buf : List UInt8) :
    Validates cur k d va buf ↔ Tabled d va buf.length ∧ (AllUser d va buf.length → Agrees d va buf) := by
  unfold Validates
  have ho := copyout_outcome cur k [] d va buf
  generalize copyout cur k [] d va buf = r at ho
  constructor
  · rintro ⟨r, k', rfl, hiff, hcopy⟩
    cases ho with
    | null h hr => exact absurd (hr _ rfl).1 (Nat.lt_irrefl _)
    | refused h hu => exact ⟨h, fun hu' => absurd hu' hu⟩
    | copied h hu hp => exact ⟨h, fun _ => (hcopy rfl).agrees⟩
  · rintro ⟨hT, hA⟩
    cases ho with
    | null h => exact absurd hT h
    | refused h hu k' => exact ⟨false, k', rfl, iff_of_false nofun hu, nofun⟩
    | copied h hu hp => exact ⟨true, _, rfl, iff_of_true rfl hu, fun _ => hp.copied (hA hu)⟩

theorem not_tabled (hpde : d.pde (PDX va) = none) (hn : 0 < n) : ¬Tabled d va n := fun h =>
  h 0 hn (fun _ hi => absurd hi (Nat.not_lt_zero _)) hpde

/-- A directory like the one `exec` builds for an image of two pages: the kernel's part maps physical memory up to
    `PHYSTOP` and the devices from `DEVSPACE` on, and nothing between the two. -/
def twoPages : Pgdir where
  page := 1
  pde i :=
    if i.val = 0 then some ⟨2, fun j => if j.val < 2 then some ⟨3 + j.val, PTE_W ||| PTE_U⟩ else none⟩
    else if 512 ≤ i.val ∧ i.val < 568 ∨ 1016 ≤ i.val then some ⟨5 + i.val, fun _ => some ⟨0, PTE_W⟩⟩
    else none

theorem pushArgs_long {arg : List UInt8} (h : arg.length = 33562624) :
    pushArgs cur d [arg] 0 k [] (2 * PGSIZE) [] = (do
      let (copied, k, log) ← copyout cur k [] d 4261412860 (arg ++ [0])
      if copied then .ok (some (4261412860, [4261412860]), k, log) else .ok (none, k, log)) := by
  have hsp : usub (2 * PGSIZE) (arg.length + 1) / 4 * 4 = 4261412860 := by
    rw [h]
    decide
  rw [pushArgs, if_neg (by decide)]
  dsimp only
  rw [hsp]
  rfl

theorem copyout_null_table : ∃ arg : List UInt8, arg.length = 33562624 ∧ ∀ cur k,
    pushArgs cur twoPages [arg] 0 k [] (2 * PGSIZE) [] = (do
      let (copied, k, log) ← copyout cur k [] twoPages 4261412860 (arg ++ [0])
      if copied then .ok (some (4261412860, [4261412860]), k, log) else .ok (none, k, log)) ∧
    ¬Validates cur k twoPages 4261412860 (arg ++ [0]) := by
  obtain ⟨arg, harg⟩ : ∃ arg : List UInt8, arg.length = 33562624 := ⟨_, length_replicate (a := 1)⟩
  refine ⟨arg, harg, fun cur k => ⟨pushArgs_long harg, ?_⟩⟩
  rintro ⟨r, k', hr, -⟩
  have ho := copyout_outcome cur k [] twoPages 4261412860 (arg ++ [0])
  have hT : ¬Tabled twoPages 4261412860 (arg ++ [0]).length := not_tabled (by decide) (by simp)
  rw [hr] at ho
  cases ho with
  | null _ hx => exact absurd (hx _ rfl).1 (Nat.lt_irrefl _)
  | refused h | copied h => exact hT h

end Xv6
