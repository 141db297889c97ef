import Mathlib.Algebra.BigOperators.Fin
import Mathlib.Tactic.Abel
import Xv6.Lib.Count
import Xv6.Vm

/-! What vm.c does to the entries of a page directory, to its pages and to the bytes in them. The pages are a
    multiset, so that one taken or given back twice would show. -/

namespace Xv6
open Function Multiset Option

/-! ### Addresses -/

theorem slot_inj {a b : Nat} (ha : PGSIZE ∣ a) (hb : PGSIZE ∣ b) (ha' : a < 2 ^ 32) (hb' : b < 2 ^ 32)
    (hd : PDX a = PDX b) (ht : PTX a = PTX b) : a = b := by
  have hd := congrArg Fin.val hd
  have ht := congrArg Fin.val ht
  simp only [PDX, PTX, PGSIZE] at *
  omega

theorem PDX_lt {a : Nat} (ha : a < KERNBASE) : (PDX a).val < 512 := by
  simp only [PDX, KERNBASE] at *
  omega

theorem le_PDX {a : Nat} (ha : KERNBASE ≤ a) (ha' : a < 2 ^ 32) : 512 ≤ (PDX a).val := by
  simp only [PDX, KERNBASE] at *
  omega

theorem PGSIZE_dvd_PGROUNDUP (a : Nat) : PGSIZE ∣ PGROUNDUP a := Nat.dvd_mul_left _ _

theorem le_PGROUNDUP {a : Nat} (ha : a ≤ KERNBASE) : a ≤ PGROUNDUP a := by
  simp only [PGROUNDUP, PGSIZE, KERNBASE] at *
  omega

theorem lt_PGROUNDUP {a b : Nat} (ha : a ≤ KERNBASE) (hb : PGSIZE ∣ b) : b < PGROUNDUP a ↔ b < a := by
  simp only [PGROUNDUP, PGSIZE, KERNBASE] at *
  omega

/-! ### Entries -/

namespace Pgdir

variable {d : Pgdir} {a b : Nat} {e : Option Pte}

theorem lookup_of_pde_none (h : d.pde (PDX a) = none) : d.lookup a = none := by
  simp [lookup, h]

theorem pde_of_lookup {x : Pte} (h : d.lookup a = some x) : (d.pde (PDX a)).isNone = false := by
  cases h0 : d.pde (PDX a) with
  | none =>
    rw [lookup_of_pde_none h0] at h
    cases h
  | some t => rfl

@[simp] theorem setPte_page : (d.setPte a e).page = d.page := by
  unfold setPte
  split <;> rfl

theorem lookup_setPte_self (h : d.pde (PDX a) ≠ none) : (d.setPte a e).lookup a = e := by
  obtain ⟨t, ht⟩ := ne_none_iff_exists'.mp h
  simp [setPte, lookup, ht]

theorem lookup_setPte_of_ne (h : PDX a = PDX b → PTX a ≠ PTX b) : (d.setPte a e).lookup b = d.lookup b := by
  cases ht : d.pde (PDX a) with
  | none => simp [setPte, ht]
  | some t =>
    by_cases hd : PDX b = PDX a
    · simp [setPte, lookup, ht, hd, update_of_ne (h hd.symm).symm]
    · simp [setPte, lookup, ht, update_of_ne hd]

theorem lookup_setPte (ha : PGSIZE ∣ a) (hb : PGSIZE ∣ b) (ha' : a < 2 ^ 32) (hb' : b < 2 ^ 32)
    (h : d.pde (PDX a) ≠ none) : (d.setPte a e).lookup b = if b = a then e else d.lookup b := by
  split
  · next hab => rw [hab, lookup_setPte_self h]
  · next hab => exact lookup_setPte_of_ne fun hd ht => hab (slot_inj ha hb ha' hb' hd ht).symm

end Pgdir

def Pte.pages (e : Option Pte) : Multiset Page := e.elim 0 fun e => {e.page}

def Pgtab.mapped (t : Pgtab) : Multiset Page := ∑ j, Pte.pages (t.pte j)

/-- The page of a table, and for a table below `KERNBASE` the pages it maps. -/
def Pgtab.pages (i : Fin NPDENTRIES) (t : Option Pgtab) : Multiset Page :=
  t.elim 0 fun t => {t.page} + if i.val < 512 then t.mapped else 0

def Pgdir.pages (d : Pgdir) : Multiset Page := {d.page} + ∑ i, Pgtab.pages i (d.pde i)

theorem Pgtab.mapped_update (t : Pgtab) (j : Fin NPTENTRIES) (e : Option Pte) :
    Pgtab.mapped { t with pte := update t.pte j e } + Pte.pages (t.pte j) = t.mapped + Pte.pages e :=
  sum_update_exchange (fun _ => Pte.pages) t.pte j e

namespace Pgdir

variable {d : Pgdir} {a b : Nat} {e : Option Pte}

theorem pages_update (d : Pgdir) (i : Fin NPDENTRIES) (t : Option Pgtab) :
    Pgdir.pages { d with pde := update d.pde i t } + Pgtab.pages i (d.pde i) = d.pages + Pgtab.pages i t := by
  simp only [pages, add_assoc]
  rw [sum_update_exchange]

theorem setPte_of_pde {t : Pgtab} (ht : d.pde (PDX a) = some t) : d.setPte a e =
      { d with pde := update d.pde (PDX a) (some { t with pte := update t.pte (PTX a) e }) } := by
  simp [setPte, ht]

theorem pages_setPte (ha : a < KERNBASE) (h : d.pde (PDX a) ≠ none) :
    (d.setPte a e).pages + Pte.pages (d.lookup a) = d.pages + Pte.pages e := by
  obtain ⟨t, ht⟩ := ne_none_iff_exists'.mp h
  have hp := d.pages_update (PDX a) (some { t with pte := update t.pte (PTX a) e })
  have hm := t.mapped_update (PTX a) e
  have hl : d.lookup a = t.pte (PTX a) := by simp [lookup, ht]
  rw [← setPte_of_pde ht] at hp
  simp only [Pgtab.pages, ht, elim_some, if_pos (PDX_lt ha)] at hp
  rw [hl]
  refine add_right_cancel (b := {t.page} + t.mapped) ?_
  calc _ = (d.setPte a e).pages + ({t.page} + t.mapped) + Pte.pages (t.pte (PTX a)) := add_right_comm _ _ _
    _ = d.pages + {t.page} +
        (Pgtab.mapped { t with pte := update t.pte (PTX a) e } + Pte.pages (t.pte (PTX a))) := by
      rw [hp]
      simp only [add_assoc]
    _ = d.pages + Pte.pages e + ({t.page} + t.mapped) := by rw [hm]; abel

theorem pages_setPte_kernel (ha : KERNBASE ≤ a) (ha' : a < 2 ^ 32) : (d.setPte a e).pages = d.pages := by
  cases ht : d.pde (PDX a) with
  | none => simp [setPte, ht]
  | some t =>
    have hp := d.pages_update (PDX a) (some { t with pte := update t.pte (PTX a) e })
    have hi : ¬(PDX a).val < 512 := Nat.not_lt.mpr (le_PDX ha ha')
    rw [← setPte_of_pde ht] at hp
    simp only [Pgtab.pages, ht, elim_some, if_neg hi] at hp
    exact (add_left_inj _).mp hp

theorem mem_pages_of_lookup {x : Pte} (ha : a < KERNBASE) (h : d.lookup a = some x) : x.page ∈ d.pages := by
  cases ht : d.pde (PDX a) with
  | none => simp [lookup, ht] at h
  | some t =>
    have hx : t.pte (PTX a) = some x := by simpa [lookup, ht] using h
    rw [pages, mem_add, mem_sum]
    refine .inr ⟨PDX a, Finset.mem_univ _, ?_⟩
    simp only [Pgtab.pages, ht, elim_some, if_pos (PDX_lt ha)]
    rw [mem_add, Pgtab.mapped, mem_sum]
    exact .inr ⟨PTX a, Finset.mem_univ _, by simp [hx, Pte.pages]⟩

end Pgdir

/-! ### The allocator -/

namespace Kmem

variable {k k' k'' : Kmem} {pg : Page}

@[simp] theorem memset_freelist (v : UInt8) : (k.memset pg v).freelist = k.freelist := rfl

@[simp] theorem kfree_freelist : (k.kfree pg).freelist = pg :: k.freelist := rfl

theorem kalloc_none (h : k.kalloc = (none, k')) : k'.freelist = k.freelist ∧ k'.mem = k.mem := by
  unfold kalloc at h
  dsimp only at h
  split at h
  · cases h
  · cases h
    exact ⟨rfl, rfl⟩

theorem kalloc_some (h : k.kalloc = (some pg, k')) : k.freelist = pg :: k'.freelist ∧ k'.mem = k.mem := by
  unfold kalloc at h
  dsimp only at h
  split at h
  · next hr =>
    cases h
    exact ⟨hr, rfl⟩
  · cases h

/-- Pages may have been taken from the list; those that were not on it are as before. -/
structure Takes (k k' : Kmem) : Prop where
  sub : ∀ pg ∈ k'.freelist, pg ∈ k.freelist
  mem : ∀ pg ∉ k.freelist, k'.mem pg = k.mem pg

/-- Pages may have been put on the list; those that are not on it are as before. -/
structure Gives (k k' : Kmem) : Prop where
  sub : ∀ pg ∈ k.freelist, pg ∈ k'.freelist
  mem : ∀ pg ∉ k'.freelist, k'.mem pg = k.mem pg

theorem Takes.refl (k : Kmem) : Takes k k := ⟨fun _ h => h, fun _ _ => rfl⟩

theorem Takes.trans (h : Takes k k') (h' : Takes k' k'') : Takes k k'' :=
  ⟨fun pg hp => h.sub pg (h'.sub pg hp),
    fun pg hp => (h'.mem pg fun hq => hp (h.sub pg hq)).trans (h.mem pg hp)⟩

theorem Gives.refl (k : Kmem) : Gives k k := ⟨fun _ h => h, fun _ _ => rfl⟩

theorem Gives.trans (h : Gives k k') (h' : Gives k' k'') : Gives k k'' :=
  ⟨fun pg hp => h'.sub pg (h.sub pg hp),
    fun pg hp => (h'.mem pg hp).trans (h.mem pg fun hq => hp (h'.sub pg hq))⟩

theorem takes_of_none (h : k.kalloc = (none, k')) : Takes k k' := by
  obtain ⟨hf, hm⟩ := kalloc_none h
  exact ⟨fun pg hp => hf ▸ hp, fun pg _ => by rw [hm]⟩

theorem takes_of_some (h : k.kalloc = (some pg, k')) (x : Nat → UInt8) :
    Takes k { k' with mem := update k'.mem pg x } := by
  obtain ⟨hf, hm⟩ := kalloc_some h
  refine ⟨fun q hq => hf ▸ List.mem_cons_of_mem _ hq, fun q hq => ?_⟩
  have hne : q ≠ pg := by
    rintro rfl
    exact hq (hf ▸ List.mem_cons_self)
  change update k'.mem pg x q = k.mem q
  rw [update_of_ne hne, hm]

theorem gives_kfree (k : Kmem) (pg : Page) : Gives k (k.kfree pg) := by
  refine ⟨fun q hq => List.mem_cons_of_mem _ hq, fun q hq => ?_⟩
  have hne : q ≠ pg := by
    rintro rfl
    exact hq List.mem_cons_self
  exact update_of_ne hne _ _

end Kmem

def allPages (k : Kmem) (d : Pgdir) : Multiset Page := d.pages + (k.freelist : Multiset Page)

variable {d : Pgdir} {k : Kmem}

variable {pg : Page}

theorem not_free_of_mem (hnd : (allPages k d).Nodup) (hpg : pg ∈ d.pages) : pg ∉ k.freelist :=
  disjoint_left.mp (nodup_add.mp hnd).2.2 hpg

theorem not_free_of_lookup {a : Nat} {e : Pte} (hnd : (allPages k d).Nodup) (ha : a < KERNBASE)
    (h : d.lookup a = some e) : e.page ∉ k.freelist :=
  not_free_of_mem hnd (Pgdir.mem_pages_of_lookup ha h)

theorem kalloc_allPages {k k' : Kmem} (h : k.kalloc = (some pg, k')) : pg ::ₘ allPages k' d = allPages k d := by
  rw [allPages, allPages, (Kmem.kalloc_some h).1, ← cons_coe, add_cons]

theorem kalloc_none_allPages {k k' : Kmem} (h : k.kalloc = (none, k')) : allPages k' d = allPages k d := by
  rw [allPages, allPages, (Kmem.kalloc_none h).1]

theorem memset_allPages {v : UInt8} : allPages (k.memset pg v) d = allPages k d := rfl

theorem memmove_allPages (pg src : Page) : allPages (k.memmove pg src) d = allPages k d := rfl

theorem kfree_allPages : allPages (k.kfree pg) d = pg ::ₘ allPages k d := by
  rw [allPages, allPages, Kmem.kfree_freelist, ← cons_coe, add_cons]

section

variable {k k' : Kmem} {d d' : Pgdir} {a b n perm oldsz newsz : Nat} {pg : Page} {r : Bool}

/-! ### Walking and mapping -/

structure Walked (a : Nat) (k : Kmem) (d : Pgdir) (r : Bool) (k' : Kmem) (d' : Pgdir) : Prop where
  takes : k.Takes k'
  pages : allPages k' d' = allPages k d
  lookup : ∀ b, d'.lookup b = d.lookup b
  pde : r = true → d'.pde (PDX a) ≠ none

theorem walkpgdir_walked (h : walkpgdir k d a true = (r, k', d')) : Walked a k d r k' d' := by
  unfold walkpgdir at h
  split at h
  · next t ht =>
    cases h
    exact ⟨.refl k, rfl, fun _ => rfl, fun _ => by simp [ht]⟩
  · next ht =>
    rw [if_pos rfl] at h
    split at h
    · next k1 hk =>
      cases h
      exact ⟨Kmem.takes_of_none hk, kalloc_none_allPages hk, fun _ => rfl, nofun⟩
    · next p k1 hk =>
      cases h
      refine ⟨Kmem.takes_of_some hk _, ?_, fun b => ?_, fun _ => by simp⟩
      · have hp := d.pages_update (PDX a) (some ⟨p, fun _ => none⟩)
        have hz : Pgtab.mapped ⟨p, fun _ => none⟩ = 0 := Finset.sum_eq_zero fun _ _ => rfl
        simp only [ht, Pgtab.pages, elim_none, elim_some, add_zero, hz, ite_self] at hp
        rw [allPages, hp, allPages, (Kmem.kalloc_some hk).1, Kmem.memset_freelist, ← cons_coe,
          ← singleton_add, add_assoc]
      · -- the new table has no entries, and there was none before
        by_cases hb : PDX b = PDX a
        · simp [Pgdir.lookup, hb, ht]
        · simp [Pgdir.lookup, update_of_ne hb]

theorem mappages_page (ha : PGSIZE ∣ a) (ha' : a < KERNBASE) :
    mappages k d a PGSIZE pg perm = mapFrom perm 1 k d a pg := by
  have h1 : PGROUNDDOWN a = a := by
    simp only [PGROUNDDOWN, PGSIZE] at *
    omega
  have h2 : PGROUNDDOWN ((a + PGSIZE - 1) % 2 ^ 32) = a := by
    simp only [PGSIZE, KERNBASE] at ha ha'
    rw [Nat.mod_eq_of_lt (by simp only [PGSIZE]; omega)]
    simp only [PGROUNDDOWN, PGSIZE]
    omega
  rw [mappages, h1, h2, Nat.sub_self, Nat.zero_div, Nat.zero_add]

structure Mapped (a : Nat) (pg : Page) (perm : Nat) (k : Kmem) (d : Pgdir) (r : Bool) (k' : Kmem) (d' : Pgdir) :
    Prop where
  takes : k.Takes k'
  pages : allPages k' d' = if r then pg ::ₘ allPages k d else allPages k d
  self : r = true → d'.lookup a = some ⟨pg, perm⟩
  other : ∀ b, PGSIZE ∣ b → b < 2 ^ 32 → b ≠ a → d'.lookup b = d.lookup b
  fail : r = false → d'.lookup a = d.lookup a

theorem mappages_mapped (ha : PGSIZE ∣ a) (ha' : a < KERNBASE)
    (h : mappages k d a PGSIZE pg perm = .ok (r, k', d')) : Mapped a pg perm k d r k' d' := by
  have ha32 : a < 2 ^ 32 := Nat.lt_trans ha' (by decide)
  rw [mappages_page ha ha', mapFrom] at h
  split at h
  · next k1 d1 hw =>
    have w := walkpgdir_walked hw
    cases h
    exact ⟨w.takes, w.pages, nofun, fun b _ _ _ => w.lookup b, fun _ => w.lookup a⟩
  · next k1 d1 hw =>
    have w := walkpgdir_walked hw
    split_ifs at h with hl
    have hl : d1.lookup a = none := by simpa using hl
    rw [mapFrom] at h
    cases h
    refine ⟨w.takes, ?_, fun _ => Pgdir.lookup_setPte_self (w.pde rfl), fun b hb hb' hne => ?_, nofun⟩
    · have hp := Pgdir.pages_setPte (e := some ⟨pg, perm⟩) ha' (w.pde rfl)
      rw [hl] at hp
      simp only [Pte.pages, elim_none, elim_some, add_zero] at hp
      rw [if_pos rfl, ← w.pages, allPages, hp, allPages, ← singleton_add, add_right_comm, add_comm]
    · rw [Pgdir.lookup_setPte ha hb ha32 hb' (w.pde rfl), if_neg hne, w.lookup]

theorem mappages_returns (k : Kmem) (pg : Page) (perm : Nat) (ha : PGSIZE ∣ a) (ha' : a < KERNBASE)
    (hl : d.lookup a = none) : ∃ r k' d', mappages k d a PGSIZE pg perm = .ok (r, k', d') := by
  rw [mappages_page ha ha', mapFrom]
  split
  · exact ⟨_, _, _, rfl⟩
  · next k1 d1 hw =>
    rw [(walkpgdir_walked hw).lookup, hl]
    exact ⟨_, _, _, rfl⟩

theorem mapFrom_kernel (ha : KERNBASE ≤ a) (hn : a + n * PGSIZE ≤ 2 ^ 32)
    (h : mapFrom perm n k d a pg = .ok (r, k', d')) : allPages k' d' = allPages k d := by
  induction n generalizing k d a pg with
  | zero =>
    cases h
    rfl
  | succ n ih =>
    rw [mapFrom] at h
    split at h
    · next k1 d1 hw =>
      cases h
      exact (walkpgdir_walked hw).pages
    · next k1 d1 hw =>
      split_ifs at h
      rw [Nat.succ_mul] at hn
      have h32 : a < 2 ^ 32 := by
        simp only [PGSIZE] at hn
        omega
      rw [ih (Nat.le_add_right_of_le ha) (by omega) h, allPages, Pgdir.pages_setPte_kernel ha h32]
      exact (walkpgdir_walked hw).pages

/-! ### Giving pages back -/

theorem walkpgdir_look : walkpgdir k d a false = ((d.pde (PDX a)).isSome, k, d) := by
  unfold walkpgdir
  cases d.pde (PDX a) <;> rfl

theorem PGADDR_next (ha : a < KERNBASE) : PGADDR (PDX a + 1) 0 0 = (a / 2 ^ 22 + 1) * 2 ^ 22 := by
  simp only [PGADDR, PDX, KERNBASE] at *
  omega

structure Unmapped (a oldsz : Nat) (k : Kmem) (d : Pgdir) (k' : Kmem) (d' : Pgdir) : Prop where
  gives : k.Gives k'
  pages : allPages k' d' = allPages k d
  lookup : ∀ b, PGSIZE ∣ b → b < 2 ^ 32 → d'.lookup b = if a ≤ b ∧ b < oldsz then none else d.lookup b

theorem deallocFrom_unmapped (ha : PGSIZE ∣ a) (ho : oldsz ≤ KERNBASE) (hn : oldsz ≤ a + n * PGSIZE) :
    Unmapped a oldsz k d (deallocFrom oldsz n k d a).1 (deallocFrom oldsz n k d a).2 := by
  induction n generalizing k d a with
  | zero =>
    refine ⟨.refl k, rfl, fun b _ _ => ?_⟩
    rw [if_neg (by omega)]
    rfl
  | succ n ih =>
    rw [Nat.succ_mul] at hn
    rw [deallocFrom]
    split
    · next hlt =>
      have haK : a < KERNBASE := Nat.lt_of_lt_of_le hlt ho
      have ha32 : a < 2 ^ 32 := Nat.lt_trans haK (by decide)
      rw [walkpgdir_look]
      cases ht : d.pde (PDX a) with
      | none =>
        -- no table: the addresses up to the next one are not mapped
        have hnext := PGADDR_next haK
        have h := ih (k := k) (d := d) (a := PGADDR (PDX a + 1) 0 0)
          (by rw [hnext]; simp only [PGSIZE]; omega) (by rw [hnext]; simp only [PGSIZE] at *; omega)
        refine ⟨h.gives, h.pages, fun b hb hb' => ?_⟩
        refine (h.lookup b hb hb').trans ?_
        rw [hnext]
        by_cases hd : PDX b = PDX a
        · have hl : d.lookup b = none := by simp [Pgdir.lookup, hd, ht]
          rw [hl, ite_self, ite_self]
        · have : a ≤ b ↔ (a / 2 ^ 22 + 1) * 2 ^ 22 ≤ b := by
            have hd : b / 2 ^ 22 % 1024 ≠ a / 2 ^ 22 % 1024 := fun h => hd (Fin.ext h)
            simp only [KERNBASE] at haK
            omega
          simp only [this]
      | some t =>
        have step : ∀ k1 d1, Unmapped a (a + PGSIZE) k d k1 d1 →
            Unmapped a oldsz k d (deallocFrom oldsz n k1 d1 (a + PGSIZE)).1
              (deallocFrom oldsz n k1 d1 (a + PGSIZE)).2 := fun k1 d1 h1 => by
          have h := ih (k := k1) (d := d1) (a := a + PGSIZE) (Nat.dvd_add ha (Nat.dvd_refl _)) (by omega)
          refine ⟨h1.gives.trans h.gives, h.pages.trans h1.pages, fun b hb hb' => ?_⟩
          rw [h.lookup b hb hb', h1.lookup b hb hb']
          have : a ≤ b ∧ b < oldsz ↔ (a + PGSIZE ≤ b ∧ b < oldsz) ∨ (a ≤ b ∧ b < a + PGSIZE) := by
            simp only [PGSIZE] at *
            omega
          grind
        have single : ∀ b, PGSIZE ∣ b → (a ≤ b ∧ b < a + PGSIZE ↔ b = a) := fun b hb => by
          simp only [PGSIZE] at *
          omega
        dsimp only [isSome_some]
        split
        · next hl =>
          refine step k d ⟨.refl k, rfl, fun b hb _ => ?_⟩
          split
          · next hba => rw [(single b hb).mp hba, hl]
          · rfl
        · next e hl =>
          refine step _ _ ⟨Kmem.gives_kfree k _, ?_, fun b hb hb' => ?_⟩
          · have hp := Pgdir.pages_setPte (e := none) haK (d := d) (by simp [ht])
            rw [hl] at hp
            simp only [Pte.pages, elim_none, elim_some, add_zero] at hp
            rw [allPages, allPages, Kmem.kfree_freelist, ← cons_coe, ← singleton_add, ← add_assoc, hp]
          · rw [Pgdir.lookup_setPte ha hb ha32 hb' (by simp [ht])]
            simp only [single b hb]
    · refine ⟨.refl k, rfl, fun b _ _ => ?_⟩
      rw [if_neg (by omega)]

theorem deallocuvm_unmapped (k : Kmem) (d : Pgdir) (ho : oldsz ≤ KERNBASE) (hlt : newsz < oldsz) :
    Unmapped (PGROUNDUP newsz) oldsz k d (deallocuvm k d oldsz newsz).2.1 (deallocuvm k d oldsz newsz).2.2 := by
  rw [deallocuvm, if_neg (by omega)]
  refine deallocFrom_unmapped (PGSIZE_dvd_PGROUNDUP _) ho ?_
  simp only [PGSIZE]
  omega

theorem deallocuvm_pages (newsz : Nat) (ho : oldsz ≤ KERNBASE) :
    allPages (deallocuvm k d oldsz newsz).2.1 (deallocuvm k d oldsz newsz).2.2 = allPages k d := by
  by_cases hlt : newsz < oldsz
  · exact (deallocuvm_unmapped k d ho hlt).pages
  · rw [deallocuvm, if_pos (by omega)]

namespace Pgdir

def tables (d : Pgdir) (i : Fin NPDENTRIES) : Multiset Page := (d.pde i).elim 0 fun t => {t.page}

def tablePages (d : Pgdir) : Multiset Page := {d.page} + ∑ i, d.tables i

def entryAddr (i : Fin NPDENTRIES) (j : Fin NPTENTRIES) : Nat := i * 2 ^ 22 + j * 2 ^ 12

def frames (d : Pgdir) : Multiset Page := ∑ i, if i.val < 512 then ∑ j, Pte.pages (d.lookup (entryAddr i j)) else 0

variable {i : Fin NPDENTRIES} {j : Fin NPTENTRIES}

theorem dvd_entryAddr : PGSIZE ∣ entryAddr i j := by
  simp only [entryAddr, PGSIZE]
  omega

theorem entryAddr_lt (hi : i.val < 512) : entryAddr i j < KERNBASE := by
  have hj := j.isLt
  simp only [entryAddr, KERNBASE, NPTENTRIES] at *
  omega

theorem lookup_entryAddr : d.lookup (entryAddr i j) = (d.pde i).bind fun t => t.pte j := by
  have hi := i.isLt
  have hj := j.isLt
  have hd : PDX (entryAddr i j) = i := Fin.ext (by simp only [PDX, entryAddr, NPTENTRIES, NPDENTRIES] at *; omega)
  have hp : PTX (entryAddr i j) = j := Fin.ext (by simp only [PTX, entryAddr, NPTENTRIES] at *; omega)
  rw [lookup, hd, hp]

theorem pages_eq (d : Pgdir) : d.pages = d.tablePages + d.frames := by
  have htab : ∀ i, Pgtab.pages i (d.pde i) =
      d.tables i + if i.val < 512 then ∑ j, Pte.pages (d.lookup (entryAddr i j)) else 0 := fun i => by
    simp only [lookup_entryAddr]
    cases ht : d.pde i with
    | none => simp [Pgtab.pages, tables, ht, Pte.pages]
    | some t => simp [Pgtab.pages, tables, ht, Pgtab.mapped]
  rw [pages, Finset.sum_congr rfl fun i _ => htab i, Finset.sum_add_distrib, ← add_assoc]
  rfl

theorem frames_congr (h : ∀ b, PGSIZE ∣ b → b < KERNBASE → d'.lookup b = d.lookup b) : d'.frames = d.frames := by
  refine Finset.sum_congr rfl fun i _ => ?_
  split
  · next hi => exact Finset.sum_congr rfl fun j _ => by rw [h _ dvd_entryAddr (entryAddr_lt hi)]
  · rfl

theorem pages_of_unmapped (h : ∀ b, PGSIZE ∣ b → b < KERNBASE → d.lookup b = none) : d.pages = d.tablePages := by
  have h0 : d.frames = 0 := Finset.sum_eq_zero fun i _ => by
    split
    · next hi => exact Finset.sum_eq_zero fun j _ => by rw [h _ dvd_entryAddr (entryAddr_lt hi)]; rfl
    · rfl
  rw [pages_eq, h0, add_zero]

theorem lookup_inj {x y : Pte} (hnd : d.pages.Nodup) (ha : PGSIZE ∣ a) (hb : PGSIZE ∣ b) (haK : a < KERNBASE)
    (hbK : b < KERNBASE) (hx : d.lookup a = some x) (hy : d.lookup b = some y) (hxy : x.page = y.page) : a = b := by
  by_contra hne
  have hK : KERNBASE < 2 ^ 32 := by decide
  have ht : d.pde (PDX a) ≠ none := fun h => by
    rw [lookup_of_pde_none h] at hx
    cases hx
  -- without the entry at `a` the page is still mapped at `b`
  have hp := pages_setPte (e := none) haK ht
  rw [hx] at hp
  simp only [Pte.pages, elim_none, elim_some, add_zero] at hp
  have hmem : y.page ∈ (d.setPte a none).pages := mem_pages_of_lookup hbK (by
    rw [lookup_setPte ha hb (haK.trans hK) (hbK.trans hK) ht, if_neg fun h => hne h.symm, hy])
  rw [← hp, nodup_add] at hnd
  exact disjoint_left.mp hnd.2.2 (hxy ▸ hmem) (mem_singleton_self _)

end Pgdir

theorem freeTables_freelist (is : List (Fin NPDENTRIES)) :
    ((freeTables k d is).freelist : Multiset Page) = (is.map d.tables).sum + k.freelist := by
  induction is generalizing k with
  | nil => simp [freeTables]
  | cons i is ih =>
    rw [freeTables, List.foldl_cons, ← freeTables, ih, List.map_cons, List.sum_cons, add_comm (d.tables i), add_assoc]
    congr 1
    unfold Pgdir.tables
    cases d.pde i with
    | none => simp
    | some t => simp

theorem freevm_freelist : ((freevm k d).freelist : Multiset Page) = allPages k d := by
  have hu := deallocuvm_unmapped k d (Nat.le_refl KERNBASE) (show 0 < KERNBASE by decide)
  have hnone : ∀ b, PGSIZE ∣ b → b < KERNBASE → (deallocuvm k d KERNBASE 0).2.2.lookup b = none :=
    fun b hb hlt => by
      rw [hu.lookup b hb (Nat.lt_trans hlt (by decide)), if_pos ⟨Nat.zero_le b, hlt⟩]
  rw [← hu.pages, allPages, Pgdir.pages_of_unmapped hnone, Pgdir.tablePages, Fin.sum_univ_def, freevm]
  simp only [Kmem.kfree_freelist, ← cons_coe, freeTables_freelist]
  rw [← singleton_add, add_assoc]

end

end Xv6
