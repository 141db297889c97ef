import Xv6.Theorems.Vm.Pages

/-! The loader of `exec` on any file: what the page tables and the memory hold after each program header, and that no
    header leads to a panic. -/

namespace Xv6
open List Option Except

variable {k k' : Kmem} {d d' : Pgdir} {a b n i sz perm off : Nat} {pg : Page} {file bytes : List UInt8} {ph : ProgHdr}
  {l : List ProgHdr}

/-! ### The kernel's part of a directory -/

theorem mapFrom_takes {r : Bool} (h : mapFrom perm n k d a pg = .ok (r, k', d')) : k.Takes k' := by
  induction n generalizing k d a pg with
  | zero =>
    cases h
    exact .refl _
  | succ n ih =>
    rw [mapFrom] at h
    split at h
    · next k1 d1 hw =>
      cases h
      exact (walkpgdir_walked hw).takes
    · next k1 d1 hw =>
      split_ifs at h
      exact (walkpgdir_walked hw).takes.trans (ih h)

theorem mapFrom_returns (perm : Nat) (k : Kmem) (pg : Page) (ha : PGSIZE ∣ a) (hn : a + n * PGSIZE ≤ 2 ^ 32)
    (hl : ∀ b, PGSIZE ∣ b → a ≤ b → b < a + n * PGSIZE → d.lookup b = none) :
    ∃ r k' d', mapFrom perm n k d a pg = .ok (r, k', d') ∧
      ∀ b, PGSIZE ∣ b → b < 2 ^ 32 → b < a ∨ a + n * PGSIZE ≤ b → d'.lookup b = d.lookup b := by
  induction n generalizing k d a pg with
  | zero => exact ⟨_, _, _, rfl, fun _ _ _ _ => rfl⟩
  | succ n ih =>
    rw [Nat.succ_mul] at hn hl
    have hpos : 0 < PGSIZE := by decide
    rw [mapFrom]
    split
    · next k1 d1 hw => exact ⟨_, _, _, rfl, fun b _ _ _ => (walkpgdir_walked hw).lookup b⟩
    next k1 d1 hw =>
    have w := walkpgdir_walked hw
    rw [w.lookup a, hl a ha le_rfl (by omega)]
    have hset : ∀ b, PGSIZE ∣ b → b < 2 ^ 32 → b ≠ a → (d1.setPte a (some ⟨pg, perm⟩)).lookup b = d.lookup b :=
      fun b hb hb' hne => by rw [Pgdir.lookup_setPte ha hb (by omega) hb' (w.pde rfl), if_neg hne, w.lookup]
    obtain ⟨r, k', d', hr, ho⟩ := ih (d := d1.setPte a (some ⟨pg, perm⟩)) (a := a + PGSIZE) k1 (pg + 1)
      (Nat.dvd_add ha (Nat.dvd_refl _)) (by omega) fun b hb hab hbn => by
        rw [hset b hb (by omega) (by omega)]
        exact hl b hb (by omega) (by omega)
    refine ⟨r, k', d', hr, fun b hb hb' hout => ?_⟩
    rw [Nat.succ_mul] at hout
    rw [ho b hb hb' (by omega), hset b hb hb' (by omega)]

def Kmap.size (e : Kmap) : Nat := (e.physEnd + 2 ^ 32 - e.physStart) % 2 ^ 32

/-- The mappings are made of whole pages and follow one another. -/
def Stacked : Nat → List Kmap → Prop
  | _, [] => True
  | a, e :: es => a ≤ e.virt ∧ PGSIZE ∣ e.virt ∧ PGSIZE ∣ e.size ∧ 0 < e.size ∧ e.virt + e.size ≤ 2 ^ 32 ∧
    Stacked (e.virt + e.size) es

theorem mappages_whole (k : Kmem) (d : Pgdir) {va size : Nat} (hva : PGSIZE ∣ va) (hsize : PGSIZE ∣ size)
    (h0 : 0 < size)
    (hle : va + size ≤ 2 ^ 32) : mappages k d va size pg perm = mapFrom perm (size / PGSIZE) k d va pg := by
  have h1 : PGROUNDDOWN va = va := Nat.div_mul_cancel hva
  have h2 : PGROUNDDOWN ((va + size - 1) % 2 ^ 32) = va + size - PGSIZE := by
    have hlt : (va + size - 1) % 2 ^ 32 = va + size - 1 := Nat.mod_eq_of_lt (by omega)
    rw [hlt]
    simp only [PGROUNDDOWN, PGSIZE] at hva hsize ⊢
    clear hlt hle h1
    omega
  have h3 : (va + size - PGSIZE - va) / PGSIZE + 1 = size / PGSIZE := by
    simp only [PGSIZE] at *
    omega
  rw [mappages, h1, h2, h3]

theorem freevm_gives (k : Kmem) (d : Pgdir) : k.Gives (freevm k d) := by
  have htab : ∀ (is : List (Fin NPDENTRIES)) (k : Kmem) (d : Pgdir), k.Gives (freeTables k d is) := by
    intro is
    induction is with
    | nil => exact fun k _ => .refl k
    | cons i is ih =>
      intro k d
      refine Kmem.Gives.trans ?_ (ih _ d)
      dsimp only
      cases d.pde i with
      | none => exact .refl k
      | some t => exact Kmem.gives_kfree k t.page
  have hu := deallocuvm_unmapped k d (Nat.le_refl KERNBASE) (show 0 < KERNBASE by decide)
  exact hu.gives.trans ((htab _ _ _).trans (Kmem.gives_kfree _ _))

def Untouched (k k' : Kmem) : Prop := ∀ pg ∉ k.freelist, k'.mem pg = k.mem pg

/-- A table of kernel mappings: one above the other from `KERNBASE` on. -/
def KernelTable (es : List Kmap) : Prop := Stacked KERNBASE es

/-- What `setupkvm` makes of the free pages: a directory that maps nothing below `KERNBASE`. -/
structure KernelOnly (k : Kmem) (o : Option Pgdir) (k' : Kmem) : Prop where
  untouched : Untouched k k'
  pages : dirPages o + (k'.freelist : Multiset Page) = k.freelist
  user : ∀ d, o = some d → ∀ b, PGSIZE ∣ b → b < KERNBASE → d.lookup b = none

theorem Stacked.kernelMap {es : List Kmap} (ha : KERNBASE ≤ a) (hs : Stacked a es) : KernelMap es := by
  induction es generalizing a with
  | nil => exact nofun
  | cons e es ih =>
    obtain ⟨hav, -, -, h0, hle, hs⟩ := hs
    exact forall_mem_cons.mpr ⟨⟨by omega, by omega⟩, ih (by omega) hs⟩

theorem mapKernel_returns {es : List Kmap} (k : Kmem) (ha : KERNBASE ≤ a) (hs : Stacked a es)
    (hl : ∀ b, PGSIZE ∣ b → a ≤ b → b < 2 ^ 32 → d.lookup b = none)
    (hu : ∀ b, PGSIZE ∣ b → b < KERNBASE → d.lookup b = none) :
    ∃ o k', mapKernel es k d = .ok (o, k') ∧ (∀ pg, pg ∉ allPages k d → k'.mem pg = k.mem pg) ∧
      ∀ d', o = some d' → ∀ b, PGSIZE ∣ b → b < KERNBASE → d'.lookup b = none := by
  induction es generalizing k d a with
  | nil =>
    refine ⟨_, _, rfl, fun _ _ => rfl, fun d' hd => ?_⟩
    cases hd
    exact hu
  | cons e es ih =>
    obtain ⟨hav, hv, hsz, h0, hle, hs⟩ := hs
    have hcount : e.virt + e.size / PGSIZE * PGSIZE = e.virt + e.size := by rw [Nat.div_mul_cancel hsz]
    obtain ⟨r, k1, d1, hr, hout⟩ := mapFrom_returns e.perm k (e.physStart / PGSIZE) hv (by rw [hcount]; exact hle)
      fun b hb h1 h2 => hl b hb (Nat.le_trans hav h1) (by omega)
    rw [hcount] at hout
    have htakes := mapFrom_takes hr
    have hpages : allPages k1 d1 = allPages k d := mapFrom_kernel (Nat.le_trans ha hav) (by rw [hcount]; exact hle) hr
    have hfree : ∀ {pg}, pg ∉ allPages k d → pg ∉ k.freelist := fun h hm =>
      h (Multiset.mem_add.mpr (.inr (Multiset.mem_coe.mpr hm)))
    have hK : ∀ b, PGSIZE ∣ b → b < KERNBASE → d1.lookup b = none := fun b hb hlt => by
      rw [hout b hb (Nat.lt_trans hlt (by decide)) (.inl (by omega)), hu b hb hlt]
    rw [mapKernel, show (e.physEnd + 2 ^ 32 - e.physStart) % 2 ^ 32 = e.size from rfl, mappages_whole k d hv hsz h0 hle,
      hr, ok_bind]
    cases r with
    | false =>
      refine ⟨none, freevm k1 d1, rfl, fun pg hpg => ?_, by simp⟩
      have hlast : pg ∉ (freevm k1 d1).freelist := fun hm => hpg (by
        rw [← hpages, ← freevm_freelist]
        exact Multiset.mem_coe.mpr hm)
      rw [(freevm_gives k1 d1).mem pg hlast, htakes.mem pg (hfree hpg)]
    | true =>
      obtain ⟨o, k', ho, hmem, huser⟩ := ih k1 (Nat.le_trans ha (by omega)) hs
        (fun b hb h1 h2 => by rw [hout b hb h2 (.inr h1), hl b hb (by omega) h2]) hK
      refine ⟨o, k', ho, fun pg hpg => ?_, huser⟩
      rw [hmem pg (by rw [hpages]; exact hpg), htakes.mem pg (hfree hpg)]

/-- The linker puts the kernel's data on a page of its own, behind its text. -/
structure DataAddr (data : Nat) : Prop where
  aligned : PGSIZE ∣ data
  lo : KERNLINK < data
  hi : data < KERNBASE + PHYSTOP

theorem kernelTable_kmap {data : Nat} (h : DataAddr data) : KernelTable (kmap data) := by
  obtain ⟨h1, h2, h3⟩ := h
  simp only [KernelTable, Stacked, kmap, Kmap.size, V2P, KERNLINK, KERNBASE, EXTMEM, PHYSTOP, DEVSPACE, PGSIZE] at *
  and_intros
  all_goals first | omega | trivial

theorem setupkvm_returns {es : List Kmap} (hes : KernelTable es) (k : Kmem) :
    ∃ o k', setupkvm es k = .ok (o, k') ∧ KernelOnly k o k' := by
  suffices h : ∃ o k', setupkvm es k = .ok (o, k') ∧ Untouched k k' ∧
      ∀ d, o = some d → ∀ b, PGSIZE ∣ b → b < KERNBASE → d.lookup b = none by
    obtain ⟨o, k', hr, h1, h2⟩ := h
    exact ⟨o, k', hr, h1, setupkvm_pages (Stacked.kernelMap le_rfl hes) hr, h2⟩
  unfold setupkvm
  split
  · next k1 hk => exact ⟨none, k1, rfl, fun pg hpg => (Kmem.takes_of_none hk).mem pg hpg, nofun⟩
  · next pg k1 hk =>
    obtain ⟨o, k', hr, hmem, huser⟩ := mapKernel_returns (d := ⟨pg, fun _ => none⟩) (k1.memset pg 0) le_rfl hes
      (fun _ _ _ _ => rfl) fun _ _ _ => rfl
    refine ⟨o, k', hr, fun q hq => ?_, huser⟩
    have hall : q ∉ allPages (k1.memset pg 0) ⟨pg, fun _ => none⟩ := by
      rw [memset_allPages, allPages_empty hk]
      exact fun h => hq (Multiset.mem_coe.mp h)
    rw [hmem q hall]
    exact (Kmem.takes_of_some hk fun _ => 0).mem q hq

/-! ### The user's bytes -/

def userByte (k : Kmem) (d : Pgdir) (a : Nat) : UInt8 := (d.lookup a).elim 0 fun e => k.mem e.page (a % PGSIZE)

theorem Pgdir.lookup_rounddown (d : Pgdir) (a : Nat) : d.lookup (PGROUNDDOWN a) = d.lookup a := by
  have hd : PDX (PGROUNDDOWN a) = PDX a := by
    apply Fin.ext
    simp only [PDX, PGROUNDDOWN, PGSIZE]
    omega
  have ht : PTX (PGROUNDDOWN a) = PTX a := by
    apply Fin.ext
    simp only [PTX, PGROUNDDOWN, PGSIZE]
    omega
  simp only [lookup, hd, ht]

theorem userByte_write {e : Pte} (hnd : (allPages k d).Nodup) (ha : PGSIZE ∣ a) (ha' : a < KERNBASE)
    (he : d.lookup a = some e) (hlen : bytes.length ≤ PGSIZE) (hb : b < KERNBASE) :
    userByte (k.write e.page 0 bytes) d b = if a ≤ b ∧ b < a + bytes.length then bytes.getD (b - a) 0
    else userByte k d b := by
  have hround : PGROUNDDOWN b ≤ b := Nat.div_mul_le_self b PGSIZE
  by_cases hpage : PGROUNDDOWN b = a
  · have hbe : d.lookup b = some e := by rw [← d.lookup_rounddown b, hpage, he]
    have hoff : b % PGSIZE = b - a ∧ a ≤ b := by
      simp only [PGROUNDDOWN, PGSIZE] at hpage hround ⊢
      omega
    simp only [userByte, hbe, elim_some, Kmem.write, Function.update_self, Bytes.splice, hoff.1, Nat.sub_zero]
    by_cases hin : b < a + bytes.length
    · rw [if_pos (by omega), if_pos ⟨hoff.2, hin⟩]
    · rw [if_neg (by omega), if_neg fun h => hin h.2]
  · have hout : ¬(a ≤ b ∧ b < a + bytes.length) := fun h => hpage (by
      simp only [PGROUNDDOWN, PGSIZE] at *
      omega)
    rw [if_neg hout]
    cases hbe : d.lookup b with
    | none => simp only [userByte, hbe, elim_none]
    | some e' =>
      have hne : e'.page ≠ e.page := fun hp =>
        hpage (Pgdir.lookup_inj (Multiset.nodup_add.mp hnd).1 (Nat.dvd_mul_left _ _) ha (by omega) ha'
          ((d.lookup_rounddown b).trans hbe) he hp)
      simp only [userByte, hbe, elim_some, Kmem.write, Function.update_of_ne hne]

/-! ### loaduvm -/

/-- What loading `sz` bytes from `offset` of the file to `addr` does, from byte `i` on. -/
structure Loading (d : Pgdir) (addr : Nat) (file : List UInt8) (offset sz i : Nat) (k : Kmem) (r : Bool) (k' : Kmem) :
    Prop where
  freelist : k'.freelist = k.freelist
  others : ∀ pg ∉ d.pages, k'.mem pg = k.mem pg
  bytes : r = true → ∀ a < KERNBASE, userByte k' d a =
    if addr + i ≤ a ∧ a < addr + sz then file.getD (offset + (a - addr)) 0 else userByte k d a

theorem loadFrom_returns {addr offset : Nat} (hfile : file.length < 2 ^ 32) (hoff : i < sz → offset + i < 2 ^ 32)
    (hnd : (allPages k d).Nodup) (haddr : PGSIZE ∣ addr) (hK : addr + sz ≤ KERNBASE)
    (hmap : ∀ b, PGSIZE ∣ b → addr ≤ b → b < addr + sz → (d.lookup b).isSome)
    (hi : PGSIZE ∣ i) (hn : sz ≤ i + n * PGSIZE) :
    ∃ r k', loadFrom d addr file offset sz n k i = .ok (r, k') ∧ Loading d addr file offset sz i k r k' := by
  have hdone : sz ≤ i → Loading d addr file offset sz i k true k := fun hle =>
    ⟨rfl, fun _ _ => rfl, fun _ a _ => by rw [if_neg (by omega)]⟩
  induction n generalizing k i with
  | zero => exact ⟨true, k, rfl, hdone (by omega)⟩
  | succ n ih =>
    rw [loadFrom]
    split
    case isFalse hlt => exact ⟨true, k, rfl, hdone (by omega)⟩
    case isTrue hlt =>
    have hva : (addr + i) % 2 ^ 32 = addr + i := Nat.mod_eq_of_lt (by simp only [KERNBASE] at hK; omega)
    have hdvd : PGSIZE ∣ addr + i := Nat.dvd_add haddr hi
    obtain ⟨e, he⟩ := isSome_iff_exists.mp (hmap (addr + i) hdvd (by omega) (by omega))
    simp only [hva, Pgdir.pde_of_lookup he, he, elim_some, Bool.false_eq_true, if_false, Nat.mod_eq_of_lt (hoff hlt)]
    generalize hm : (if sz - i < PGSIZE then sz - i else PGSIZE) = m
    have hmle : m ≤ PGSIZE ∧ m ≤ sz - i ∧ (m = PGSIZE ∨ m = sz - i) := by
      rw [← hm]
      split <;> omega
    have hblen : (fileRead file (offset + i) m).length ≤ PGSIZE := by
      simp only [fileRead, length_take]
      omega
    have hwrite := fun a ha => userByte_write hnd hdvd (a := addr + i) (b := a) (by omega) he hblen ha
    have hother : ∀ pg ∉ d.pages, (k.write e.page 0 (fileRead file (offset + i) m)).mem pg = k.mem pg := fun pg hpg =>
      Function.update_of_ne (fun h => hpg (by rw [h]; exact Pgdir.mem_pages_of_lookup (by omega) he)) _ _
    split
    case isFalse => exact ⟨false, _, rfl, rfl, hother, by simp⟩
    case isTrue hfull =>
    -- a read that was not short ends within the file, so the next offset does not wrap
    have hnext : i + PGSIZE < sz → offset + (i + PGSIZE) < 2 ^ 32 := fun hlt' => by
      simp only [fileRead, length_take, length_drop] at hfull
      omega
    obtain ⟨r, k', hr, hl⟩ := ih (k := k.write e.page 0 (fileRead file (offset + i) m)) (i := i + PGSIZE) hnext
      hnd (Nat.dvd_add hi (Nat.dvd_refl _)) (by rw [Nat.succ_mul] at hn; omega)
      fun hle => ⟨rfl, fun _ _ => rfl, fun _ a _ => by rw [if_neg (by omega)]⟩
    refine ⟨r, k', hr, hl.freelist, fun pg hpg => (hl.others pg hpg).trans (hother pg hpg), fun ht a ha => ?_⟩
    rw [hl.bytes ht a ha, hwrite a ha, hfull]
    -- the bytes of this page, and those of the pages to come
    by_cases hin : addr + i ≤ a ∧ a < addr + i + m
    · rw [if_neg (by omega), if_pos hin, if_pos (by omega)]
      simp only [fileRead, getD_eq_getElem?_getD, getElem?_take, getElem?_drop]
      rw [if_pos (by omega), show offset + i + (a - (addr + i)) = offset + (a - addr) by omega]
    · rw [if_neg hin]
      by_cases hlater : addr + (i + PGSIZE) ≤ a ∧ a < addr + sz
      · rw [if_pos hlater, if_pos (by omega)]
      · rw [if_neg hlater, if_neg (by omega)]

theorem loaduvm_returns {addr offset : Nat} (hfile : file.length < 2 ^ 32) (hoff : offset < 2 ^ 32)
    (hnd : (allPages k d).Nodup) (haddr : PGSIZE ∣ addr) (hK : addr + sz ≤ KERNBASE)
    (hmap : ∀ b, PGSIZE ∣ b → addr ≤ b → b < addr + sz → (d.lookup b).isSome) :
    ∃ r k', loaduvm k d addr file offset sz = .ok (r, k') ∧ Loading d addr file offset sz 0 k r k' := by
  rw [loaduvm, if_pos (Nat.dvd_iff_mod_eq_zero.mp haddr)]
  refine loadFrom_returns hfile (fun _ => hoff) hnd haddr hK hmap (Nat.dvd_zero _) ?_
  simp only [PGSIZE]
  omega

/-! ### The loop over the program headers -/

theorem ProgHdr.ofBytes_lt (b : List UInt8) :
    (ofBytes b).off < 2 ^ 32 ∧ (ofBytes b).vaddr < 2 ^ 32 ∧ (ofBytes b).memsz < 2 ^ 32 := by
  dsimp only [ofBytes]
  exact ⟨Bytes.word_lt, Bytes.word_lt, Bytes.word_lt⟩

def segments (file : List UInt8) : Nat → Nat → List ProgHdr
  | 0, _ => []
  | n + 1, off =>
    let ph := ProgHdr.ofBytes (fileRead file off ProgHdr.size)
    let rest := segments file n ((off + ProgHdr.size) % 2 ^ 32)
    if ph.type ≠ ELF_PROG_LOAD then rest else ph :: rest

def ProgHdr.covers (ph : ProgHdr) (a : Nat) : Bool := ph.vaddr ≤ a ∧ a < ph.vaddr + ph.filesz

/-- The byte at `a` of the image of the segments: from the last segment whose file part contains it, or 0. -/
def imageByte (file : List UInt8) (l : List ProgHdr) (a : Nat) : UInt8 :=
  match l.reverse.find? (·.covers a) with
  | some ph => file.getD (ph.off + (a - ph.vaddr)) 0
  | none => 0

theorem imageByte_append : imageByte file (l ++ [ph]) a =
    if ph.covers a then file.getD (ph.off + (a - ph.vaddr)) 0 else imageByte file l a := by
  unfold imageByte
  rw [reverse_append, reverse_singleton, singleton_append, find?_cons]
  cases ph.covers a <;> rfl

theorem imageByte_eq_zero (h : ∀ ph ∈ l, ph.vaddr + ph.filesz ≤ a) : imageByte file l a = 0 := by
  have hnone : l.reverse.find? (·.covers a) = none := by
    refine find?_eq_none.mpr fun ph hph => ?_
    have := h ph (mem_reverse.mp hph)
    simp only [ProgHdr.covers, decide_eq_true_eq]
    omega
  rw [imageByte, hnone]

/-- The directory is made of pages that were free in `k₀`, and only those have been written. -/
structure Within (k₀ k : Kmem) (d : Pgdir) : Prop where
  pages : allPages k d = k₀.freelist
  untouched : Untouched k₀ k

/-- The segments `l` are loaded into a directory that maps exactly the user pages below the size, and what the
    directory `d₀` maps above. -/
structure Image (file : List UInt8) (k₀ : Kmem) (d₀ : Pgdir) (l : List ProgHdr) (k : Kmem) (d : Pgdir) (sz : Nat) : Prop
    extends Within k₀ k d where
  sz_lt : sz < KERNBASE
  exact : ∀ b, PGSIZE ∣ b → b < KERNBASE → ((d.lookup b).isSome ↔ b < PGROUNDUP sz)
  kernel : ∀ b, PGSIZE ∣ b → KERNBASE ≤ b → b < 2 ^ 32 → d.lookup b = d₀.lookup b
  bytes : ∀ a < PGROUNDUP sz, userByte k d a = imageByte file l a
  inside : ∀ ph ∈ l, ph.vaddr + ph.filesz ≤ sz

variable {k₀ : Kmem} {d₀ : Pgdir} {newsz : Nat}

section

variable (h : Within k₀ k d)
include h

theorem Within.nodup (hnd : k₀.freelist.Nodup) : (allPages k d).Nodup := by
  rw [h.pages]
  exact Multiset.coe_nodup.mpr hnd

theorem Within.not_mem (hpg : pg ∉ k₀.freelist) : pg ∉ allPages k d := by
  rw [h.pages]
  exact fun hm => hpg (Multiset.mem_coe.mp hm)

theorem Within.not_free (hpg : pg ∉ k₀.freelist) : pg ∉ k.freelist := fun hm =>
  h.not_mem hpg (Multiset.mem_add.mpr (.inr (Multiset.mem_coe.mpr hm)))

theorem Within.takes (ht : k.Takes k') (hp : allPages k' d' = allPages k d) : Within k₀ k' d' :=
  ⟨hp.trans h.pages, fun pg hpg => (ht.mem pg (h.not_free hpg)).trans (h.untouched pg hpg)⟩

theorem Within.freevm :
    ((Xv6.freevm k d).freelist : Multiset Page) = k₀.freelist ∧ Untouched k₀ (Xv6.freevm k d) := by
  have hfree := (freevm_freelist (k := k) (d := d)).trans h.pages
  refine ⟨hfree, fun pg hpg => ?_⟩
  have hnot : pg ∉ (Xv6.freevm k d).freelist := fun hm => by
    have := Multiset.mem_coe.mpr hm
    rw [hfree] at this
    exact hpg (Multiset.mem_coe.mp this)
  rw [(freevm_gives k d).mem pg hnot, h.untouched pg hpg]

end

theorem PGROUNDUP_le (h : sz ≤ newsz) (hK : newsz ≤ KERNBASE) : PGROUNDUP sz ≤ PGROUNDUP newsz := by
  simp only [PGROUNDUP, PGSIZE, KERNBASE] at *
  omega

theorem KernelOnly.image (h : KernelOnly k₀ (some d) k) : Image file k₀ d [] k d 0 := by
  refine ⟨⟨h.pages, h.untouched⟩, by decide, fun b hb hbK => ?_, fun _ _ _ _ => rfl, fun a ha => ?_, nofun⟩
  · rw [h.user d rfl b hb hbK]
    exact iff_of_false nofun (Nat.not_lt_zero b)
  · exact absurd ha (Nat.not_lt_zero a)

theorem Image.grow (h : Image file k₀ d₀ l k d sz) (hnd : k₀.freelist.Nodup) (hK : newsz < KERNBASE) (hle : sz ≤ newsz)
    (g : Grown (PGROUNDUP sz) newsz k d k' d') : Image file k₀ d₀ l k' d' newsz := by
  have hnd' := h.nodup hnd
  have hup := PGROUNDUP_le hle hK.le
  have hold : ∀ b, PGSIZE ∣ b → b < KERNBASE → b < PGROUNDUP sz → d'.lookup b = d.lookup b := fun b hb hbK hlt =>
    g.old b hb (Nat.lt_trans hbK (by decide)) (by omega)
  refine ⟨h.toWithin.takes g.takes g.pages, hK, fun b hb hbK => ?_, fun b hb hbK hb' => ?_, fun a ha => ?_,
    fun ph hph => Nat.le_trans (h.inside ph hph) hle⟩
  · by_cases hlt : b < PGROUNDUP sz
    · rw [hold b hb hbK hlt]
      exact iff_of_true ((h.exact b hb hbK).mpr hlt) (by omega)
    · rw [lt_PGROUNDUP hK.le hb]
      by_cases hnew : b < newsz
      · obtain ⟨e, he, -⟩ := g.new hnd' b hb (by omega) hnew
        exact iff_of_true (by rw [he]; rfl) hnew
      · rw [g.old b hb (Nat.lt_trans hbK (by decide)) (by omega)]
        exact iff_of_false (fun hs => hlt ((h.exact b hb hbK).mp hs)) hnew
  · rw [g.old b hb hb' (by omega)]
    exact h.kernel b hb hbK hb'
  · have hround : PGROUNDDOWN a ≤ a ∧ PGSIZE ∣ PGROUNDDOWN a := ⟨Nat.div_mul_le_self a PGSIZE, Nat.dvd_mul_left _ _⟩
    have hnewK : PGROUNDUP newsz ≤ KERNBASE := PGROUNDUP_le hK.le (by decide)
    by_cases hlt : a < PGROUNDUP sz
    · rw [← h.bytes a hlt]
      have hl : d'.lookup a = d.lookup a := by
        rw [← d'.lookup_rounddown, ← d.lookup_rounddown, hold _ hround.2 (by omega) (by omega)]
      unfold userByte
      rw [hl]
      cases he : d.lookup a with
      | none => rfl
      | some e => rw [elim_some, elim_some, g.takes.mem _ (not_free_of_lookup hnd' (by omega) he)]
    · have hpage : PGROUNDUP sz ≤ PGROUNDDOWN a ∧ PGROUNDDOWN a < newsz := by
        have hdvd := PGSIZE_dvd_PGROUNDUP sz
        rw [← lt_PGROUNDUP hK.le hround.2]
        simp only [PGROUNDDOWN, PGSIZE] at *
        omega
      obtain ⟨pg, he, -, hz⟩ := g.new hnd' _ hround.2 hpage.1 hpage.2
      rw [d'.lookup_rounddown] at he
      rw [userByte, he, elim_some, hz]
      refine (imageByte_eq_zero fun ph hph => ?_).symm
      have h1 := h.inside ph hph
      have h2 := le_PGROUNDUP h.sz_lt.le
      omega

theorem Image.load (h : Image file k₀ d₀ l k d sz) (hle : ph.vaddr + ph.filesz ≤ sz)
    (hl : Loading d ph.vaddr file ph.off ph.filesz 0 k true k') : Image file k₀ d₀ (l ++ [ph]) k' d sz := by
  refine ⟨⟨(allPages_congr hl.freelist).trans h.pages, fun pg hpg => ?_⟩, h.sz_lt, h.exact, h.kernel, fun a ha => ?_,
    fun x hx => ?_⟩
  · have hnot : pg ∉ d.pages := fun hm => h.not_mem hpg (Multiset.mem_add.mpr (.inl hm))
    rw [hl.others pg hnot, h.untouched pg hpg]
  · have hK := h.sz_lt
    rw [hl.bytes rfl a (by simp only [PGROUNDUP, PGSIZE, KERNBASE] at *; omega), imageByte_append, Nat.add_zero,
      h.bytes a ha]
    simp only [ProgHdr.covers, decide_eq_true_eq]
  · rcases mem_append.mp hx with hx | hx
    · exact h.inside x hx
    · rw [mem_singleton.mp hx]
      exact hle

theorem loadSegments_returns (hsize : file.length < 2 ^ 32) (hnd : k₀.freelist.Nodup) (h : Image file k₀ d₀ l k d sz)
    (n off : Nat) : ∃ x k' d', loadSegments file n off k d sz = .ok (x, k', d') ∧ Within k₀ k' d' ∧
      ∀ z, x = some z → Image file k₀ d₀ (l ++ segments file n off) k' d' z := by
  induction n generalizing off k d sz l with
  | zero =>
    refine ⟨some sz, k, d, rfl, h.toWithin, fun z hz => ?_⟩
    cases hz
    rwa [segments, append_nil]
  | succ n ih =>
    have hbad : ∀ {k d}, Within k₀ k d →
      ∃ x k' d', (.ok (none, k, d) : Except Stop (Option Nat × Kmem × Pgdir)) = .ok (x, k', d') ∧
        Within k₀ k' d' ∧ ∀ z, x = some z → Image file k₀ d₀ (l ++ segments file (n + 1) off) k' d' z :=
      fun hw => ⟨none, _, _, rfl, hw, nofun⟩
    rw [loadSegments]
    dsimp only
    split
    · exact hbad h.toWithin
    generalize hph : ProgHdr.ofBytes (fileRead file off ProgHdr.size) = ph
    split
    case isTrue htype =>
      rw [segments]
      simp only [hph, if_pos htype]
      exact ih h _
    case isFalse htype =>
    have hseg : segments file (n + 1) off = ph :: segments file n ((off + ProgHdr.size) % 2 ^ 32) := by
      rw [segments]
      simp only [hph, if_neg htype]
    split
    · exact hbad h.toWithin
    next hfile =>
    split
    · exact hbad h.toWithin
    next hwrap =>
    -- the new size, whether the image has to grow for it or not
    generalize hnew : (ph.vaddr + ph.memsz) % 2 ^ 32 = newsz at hwrap
    have hlt := ProgHdr.ofBytes_lt (fileRead file off ProgHdr.size)
    rw [hph] at hlt
    have hend : ph.vaddr + ph.memsz = newsz := by omega
    obtain ⟨r, k1, d1, hr, hres⟩ : ∃ r k1 d1, allocuvm k d sz newsz = .ok (r, k1, d1) ∧
        (r = 0 ∧ Within k₀ k1 d1 ∨ newsz ≤ r ∧ newsz < KERNBASE ∧ Image file k₀ d₀ l k1 d1 r) := by
      by_cases hK : KERNBASE ≤ newsz
      · exact ⟨0, k, d, by rw [allocuvm, if_pos hK], .inl ⟨rfl, h.toWithin⟩⟩
      by_cases hlt : newsz < sz
      · exact ⟨sz, k, d, by rw [allocuvm, if_neg hK, if_pos hlt], .inr ⟨hlt.le, by omega, h⟩⟩
      obtain ⟨r, k1, d1, hr, ⟨rfl, g⟩ | ⟨rfl, u⟩⟩ := allocuvm_returns (d := d) k (Nat.not_le.mp hK) (Nat.not_lt.mp hlt)
        fun b hb hsz hbn => by
          have hno := mt (h.exact b hb (by omega)).mp (by rw [lt_PGROUNDUP h.sz_lt.le hb]; omega)
          simpa using hno
      · exact ⟨_, k1, d1, hr, .inr ⟨le_rfl, by omega, h.grow hnd (by omega) (by omega) g⟩⟩
      · refine ⟨0, k1, d1, hr, .inl ⟨rfl, u.pages.trans h.pages, fun pg hpg => ?_⟩⟩
        have hw : pg ∉ k1.freelist := fun hm => h.not_mem hpg (by
          rw [← u.pages]
          exact Multiset.mem_add.mpr (.inr (Multiset.mem_coe.mpr hm)))
        rw [u.mem pg (h.not_free hpg) hw, h.untouched pg hpg]
    rw [hr, ok_bind]
    dsimp only
    split
    case isTrue h0 =>
      rcases hres with ⟨-, hw⟩ | ⟨-, -, hi⟩
      · exact hbad hw
      · exact hbad hi.toWithin
    case isFalse h0 =>
    obtain ⟨hle, hK, hi⟩ := hres.resolve_left fun hz => h0 hz.1
    split
    · exact hbad hi.toWithin
    next halign =>
    obtain ⟨loaded, k2, hld, hl⟩ := loaduvm_returns (d := d1) hsize hlt.1 (hi.nodup hnd)
      (Nat.dvd_iff_mod_eq_zero.mpr (not_not.mp halign)) (show ph.vaddr + ph.filesz ≤ KERNBASE by omega)
      fun b hb h1 h2 =>
        (hi.exact b hb (by omega)).mpr ((lt_PGROUNDUP hi.sz_lt.le hb).mpr (by omega))
    rw [hld, ok_bind]
    cases loaded with
    | false =>
      refine hbad ⟨(allPages_congr hl.freelist).trans hi.pages, fun pg hpg => ?_⟩
      have hnot : pg ∉ d1.pages := fun hm => hi.not_mem hpg (Multiset.mem_add.mpr (.inl hm))
      rw [hl.others pg hnot, hi.untouched pg hpg]
    | true =>
      obtain ⟨x, k', d', hx, hw, himg⟩ := ih (hi.load (by omega) hl) _
      refine ⟨x, k', d', hx, hw, fun z hz => ?_⟩
      rw [hseg, append_cons]
      exact himg z hz

/-- The loader returns, whatever is in the file and whichever calls of `kalloc` fail, and writes only to pages that were
    free. It goes to `bad` with all of them free again and the process as it was, or leaves a directory that maps
    exactly the user pages below the size, with the bytes of the segments and zero where there are none, and the
    kernel's part as `setupkvm` made it. -/
theorem exec_loader_safe (es : List Kmap) (hes : KernelTable es) (k : Kmem) (hnd : k.freelist.Nodup) (file : List UInt8)
    (hfile : file.length < 2 ^ 32) :
    ∃ o k', execLoad es k file = .ok (o, k') ∧ (∀ pg ∉ k.freelist, k'.mem pg = k.mem pg) ∧
      (o = none → k'.freelist.Perm k.freelist ∧ ∀ u argv, exec es k u (some file) argv = .ok (-1, k', u, [])) ∧
      ∀ sz d, o = some (sz, d) → sz < KERNBASE ∧
        (∀ b, PGSIZE ∣ b → b < KERNBASE → ((d.lookup b).isSome ↔ b < PGROUNDUP sz)) ∧
        (∃ d₀ k₁, setupkvm es k = .ok (some d₀, k₁) ∧
          ∀ b, PGSIZE ∣ b → KERNBASE ≤ b → b < 2 ^ 32 → d.lookup b = d₀.lookup b) ∧
        ∀ a < PGROUNDUP sz, userByte k' d a = imageByte file
          (segments file (ElfHdr.ofBytes (fileRead file 0 ElfHdr.size)).phnum
            (ElfHdr.ofBytes (fileRead file 0 ElfHdr.size)).phoff) a := by
  unfold execLoad exec
  dsimp only
  split
  · exact ⟨none, k, rfl, fun _ _ => rfl, fun _ => ⟨.refl _, fun _ _ => rfl⟩, by simp⟩
  obtain ⟨o, k1, hs, hko⟩ := setupkvm_returns hes k
  simp only [hs, ok_bind]
  cases o with
  | none =>
    have hp := hko.pages
    rw [dirPages, elim_none, zero_add] at hp
    exact ⟨none, k1, rfl, hko.untouched, fun _ => ⟨Multiset.coe_eq_coe.mp hp, fun _ _ => rfl⟩, by simp⟩
  | some d₀ =>
    obtain ⟨x, k2, d2, hx, hw, himg⟩ := loadSegments_returns hfile hnd hko.image
      (ElfHdr.ofBytes (fileRead file 0 ElfHdr.size)).phnum (ElfHdr.ofBytes (fileRead file 0 ElfHdr.size)).phoff
    simp only [hx, ok_bind, makeImage]
    cases x with
    | none =>
      obtain ⟨hfree, hmem⟩ := hw.freevm
      exact ⟨none, freevm k2 d2, rfl, hmem, fun _ => ⟨Multiset.coe_eq_coe.mp hfree, fun _ _ => rfl⟩, by simp⟩
    | some sz =>
      have hi := himg sz rfl
      refine ⟨some (sz, d2), k2, rfl, hw.untouched, by simp, fun sz' d' ho => ?_⟩
      cases ho
      exact ⟨hi.sz_lt, hi.exact, ⟨d₀, k1, rfl, hi.kernel⟩, by simpa using hi.bytes⟩

def twelveFree : Kmem := ⟨range' 2 12, fun _ _ => 0, fun _ => false⟩

theorem kernelTable_smallKmap : KernelTable Memory.smallKmap :=
  ⟨le_rfl, by decide, by decide, by decide, by decide, by decide, by decide, by decide, by decide, by decide, trivial⟩

theorem exec_loader_safe_tinyElf : ∃ k' d,
    execLoad Memory.smallKmap twelveFree Memory.tinyElf = .ok (some (PGSIZE, d), k') ∧ (d.lookup 0).isSome ∧
      d.lookup PGSIZE = none ∧ userByte k' d 0 = 0x7F ∧ userByte k' d 4 = 0 := by
  have h : (execLoad Memory.smallKmap twelveFree Memory.tinyElf).toOption.map (fun x => x.1.map Prod.fst) =
      some (some PGSIZE) := by decide +kernel
  obtain ⟨o, k', hr, -, -, himg⟩ :=
    exec_loader_safe _ kernelTable_smallKmap twelveFree nodup_range' Memory.tinyElf (by decide)
  rw [hr] at h
  obtain ⟨⟨sz, d⟩, rfl, hsz⟩ := map_eq_some_iff.mp (some.inj h)
  obtain rfl : sz = PGSIZE := hsz
  obtain ⟨-, hmap, -, hbytes⟩ := himg _ d rfl
  refine ⟨k', d, hr, (hmap 0 (by decide) (by decide)).mpr (by decide), ?_, ?_, ?_⟩
  · simpa using mt (hmap PGSIZE (by decide) (by decide)).mp (by decide)
  · rw [hbytes 0 (by decide)]
    decide
  · rw [hbytes 4 (by decide)]
    decide

end Xv6
