import Xv6.Theorems.Vm.Sbrk

/-! The user part of a page directory as a flat map from pages to frames and flags, and what `allocuvm` and
    `deallocuvm` do to it and to the free list. -/

namespace Xv6
open List Pgdir

/-! ### The map -/

abbrev UserPage := Fin (KERNBASE / PGSIZE)

namespace UserPage

def addr (v : UserPage) : Nat := v * PGSIZE

variable (v : UserPage)

theorem dvd_addr : PGSIZE ∣ v.addr := Nat.dvd_mul_left ..

theorem addr_lt : v.addr < KERNBASE := by
  have := v.isLt
  simp only [addr, KERNBASE, PGSIZE] at *
  omega

theorem addr_lt_word : v.addr < 2 ^ 32 := v.addr_lt.trans (by decide)

theorem addr_inj {v w : UserPage} (h : v.addr = w.addr) : v = w :=
  Fin.ext (Nat.eq_of_mul_eq_mul_right (by decide : 0 < PGSIZE) h)

theorem exists_addr {b : Nat} (hb : PGSIZE ∣ b) (hbK : b < KERNBASE) : ∃ v : UserPage, v.addr = b :=
  ⟨⟨b / PGSIZE, by simp only [KERNBASE, PGSIZE] at *; omega⟩, Nat.div_mul_cancel hb⟩

end UserPage

abbrev UserMap := UserPage → Option Pte

namespace UserMap

def Covers (m : UserMap) (sz : Nat) : Prop := ∀ v, (m v).isSome ↔ v.addr < PGROUNDUP sz

def without (m : UserMap) (lo hi : Nat) : UserMap := fun v => if lo ≤ v.addr ∧ v.addr < hi then none else m v

end UserMap

def Pgdir.userMap (d : Pgdir) : UserMap := fun v => d.lookup v.addr

variable {k k' : Kmem} {d d' : Pgdir} {a b lo mid hi n oldsz newsz : Nat} {l : List Nat}

theorem userMap_eq_iff : d'.userMap = d.userMap ↔ ∀ b, PGSIZE ∣ b → b < KERNBASE → d'.lookup b = d.lookup b := by
  refine ⟨fun h b hb hbK => ?_, fun h => funext fun v => h _ v.dvd_addr v.addr_lt⟩
  obtain ⟨v, rfl⟩ := UserPage.exists_addr hb hbK
  exact congrFun h v

theorem UserMap.Covers.none (h : d.userMap.Covers oldsz) (ho : oldsz ≤ KERNBASE) (hb : PGSIZE ∣ b) (hle : oldsz ≤ b)
    (hbK : b < KERNBASE) : d.lookup b = none := by
  obtain ⟨v, rfl⟩ := UserPage.exists_addr hb hbK
  have hn : ¬v.addr < PGROUNDUP oldsz := fun hlt => by
    have := (lt_PGROUNDUP ho v.dvd_addr).mp hlt
    omega
  change d.userMap v = Option.none
  simpa using (h v).not.mpr hn

/-! ### Visiting every page -/

def pagesIn (lo hi : Nat) : List Nat :=
  (range' (lo / PGSIZE) ((hi + PGSIZE - 1) / PGSIZE - lo / PGSIZE)).map (· * PGSIZE)

theorem mem_pagesIn (hlo : PGSIZE ∣ lo) : a ∈ pagesIn lo hi ↔ PGSIZE ∣ a ∧ lo ≤ a ∧ a < hi := by
  simp only [pagesIn, mem_map, mem_range'_1]
  constructor
  · rintro ⟨v, hv, rfl⟩
    simp only [PGSIZE] at *
    omega
  · rintro ⟨⟨v, rfl⟩, hle, hlt⟩
    refine ⟨v, ?_, Nat.mul_comm ..⟩
    simp only [PGSIZE] at *
    omega

theorem pagesIn_nodup : (pagesIn lo hi).Nodup :=
  List.Nodup.map (fun _ _ h => Nat.eq_of_mul_eq_mul_right (by decide : 0 < PGSIZE) h) nodup_range'

theorem pagesIn_nil (h : hi ≤ lo) (hlo : PGSIZE ∣ lo) : pagesIn lo hi = [] :=
  eq_nil_iff_forall_not_mem.mpr fun a ha => by
    have := (mem_pagesIn hlo).mp ha
    omega

theorem pagesIn_append (hmid : PGSIZE ∣ mid) (h1 : lo ≤ mid) (h2 : mid ≤ hi) :
    pagesIn lo hi = pagesIn lo mid ++ pagesIn mid hi := by
  have hm : (mid + PGSIZE - 1) / PGSIZE = mid / PGSIZE := by
    simp only [PGSIZE] at *
    omega
  have hle : lo / PGSIZE ≤ mid / PGSIZE := Nat.div_le_div_right h1
  have hle' : mid / PGSIZE ≤ (hi + PGSIZE - 1) / PGSIZE := Nat.div_le_div_right (by simp only [PGSIZE]; omega)
  have hsplit : ∀ p q r : Nat, p ≤ q → q ≤ r → range' p (r - p) = range' p (q - p) ++ range' q (r - q) :=
    fun p q r hpq hqr => by
      rw [show r - p = q - p + (r - q) by omega, ← range'_append_1, Nat.add_sub_cancel' hpq]
  rw [pagesIn, hsplit _ _ _ hle hle', map_append, pagesIn, pagesIn, hm]

theorem pagesIn_cons (hlo : PGSIZE ∣ lo) (h : lo < hi) : pagesIn lo hi = lo :: pagesIn (lo + PGSIZE) hi := by
  have hn : (hi + PGSIZE - 1) / PGSIZE - lo / PGSIZE = (hi + PGSIZE - 1) / PGSIZE - (lo + PGSIZE) / PGSIZE + 1 := by
    simp only [PGSIZE] at *
    omega
  rw [pagesIn, hn, range'_succ, map_cons, Nat.div_mul_cancel hlo, pagesIn, Nat.add_div_right _ (by decide)]

def dropPage (s : Kmem × Pgdir) (a : Nat) : Kmem × Pgdir :=
  match s.2.lookup a with
  | none => s
  | some e => (s.1.kfree e.page, s.2.setPte a none)

theorem foldl_dropPage_none (h : ∀ a ∈ l, d.lookup a = none) : l.foldl dropPage (k, d) = (k, d) := by
  induction l with
  | nil => rfl
  | cons a l ih =>
    have hstep : dropPage (k, d) a = (k, d) := by rw [dropPage, h a mem_cons_self]
    rw [foldl_cons, hstep, ih fun b hb => h b (mem_cons_of_mem a hb)]

/-- The loop of `deallocuvm`, with its jump over a table that is not there, does what visiting every page does. -/
theorem deallocFrom_eq (ha : PGSIZE ∣ a) (ho : oldsz ≤ KERNBASE) (hn : oldsz ≤ a + n * PGSIZE) :
    deallocFrom oldsz n k d a = (pagesIn a oldsz).foldl dropPage (k, d) := by
  induction n generalizing k d a with
  | zero => rw [pagesIn_nil (by omega) ha, deallocFrom, foldl_nil]
  | succ n ih =>
    rw [Nat.succ_mul] at hn
    rw [deallocFrom]
    split
    case isFalse hlt => rw [pagesIn_nil (Nat.not_lt.mp hlt) ha, foldl_nil]
    case isTrue hlt =>
      have haK : a < KERNBASE := Nat.lt_of_lt_of_le hlt ho
      rw [walkpgdir_look]
      cases ht : d.pde (PDX a) with
      | none =>
        -- up to the next table nothing is mapped
        have hnext := PGADDR_next haK
        have hdvd : PGSIZE ∣ PGADDR (PDX a + 1) 0 0 := by
          rw [hnext]
          simp only [PGSIZE]
          omega
        have hle : a ≤ PGADDR (PDX a + 1) 0 0 := by
          rw [hnext]
          omega
        have hskip : ∀ b ∈ pagesIn a (min (PGADDR (PDX a + 1) 0 0) oldsz), d.lookup b = none := fun b hb => by
          obtain ⟨-, h1, h2⟩ := (mem_pagesIn ha).mp hb
          refine lookup_of_pde_none ?_
          rw [hnext] at h2
          have hdiv : b / 2 ^ 22 = a / 2 ^ 22 :=
            Nat.div_eq_of_lt_le ((Nat.div_mul_le_self a _).trans h1) (h2.trans_le (Nat.min_le_left ..))
          rw [show PDX b = PDX a from Fin.ext (congrArg (· % 1024) hdiv), ht]
        have hih : deallocFrom oldsz n k d (PGADDR (PDX a + 1) 0 0) = _ :=
          ih hdvd (by rw [hnext]; simp only [PGSIZE] at *; omega)
        simp only [Option.isSome_none]
        rw [hih]
        rcases Nat.le_total (PGADDR (PDX a + 1) 0 0) oldsz with hin | hout
        · rw [Nat.min_eq_left hin] at hskip
          rw [pagesIn_append hdvd hle hin, foldl_append, foldl_dropPage_none hskip]
        · rw [Nat.min_eq_right hout] at hskip
          rw [pagesIn_nil hout hdvd, foldl_dropPage_none hskip, foldl_nil]
      | some t =>
        have hih := fun k d =>
          ih (k := k) (d := d) (Nat.dvd_add ha (Nat.dvd_refl _)) (show oldsz ≤ a + PGSIZE + n * PGSIZE by omega)
        rw [pagesIn_cons ha hlt, foldl_cons]
        simp only [Option.isSome_some, dropPage]
        cases d.lookup a with
        | none => exact hih k d
        | some e => exact hih _ _

def Pgdir.frameAt (d : Pgdir) (a : Nat) : Option Page := (d.lookup a).map Pte.page

structure Removed (l : List Nat) (k : Kmem) (d : Pgdir) (k' : Kmem) (d' : Pgdir) : Prop where
  lookup : ∀ b, PGSIZE ∣ b → b < 2 ^ 32 → d'.lookup b = if b ∈ l then none else d.lookup b
  freelist : k'.freelist = (l.filterMap d.frameAt).reverse ++ k.freelist
  mem : ∀ pg ∉ l.filterMap d.frameAt, k'.mem pg = k.mem pg
  page : d'.page = d.page
  tables : ∀ i, d'.tables i = d.tables i

theorem tables_setPte {e : Option Pte} (i : Fin NPDENTRIES) : (d.setPte a e).tables i = d.tables i := by
  cases ht : d.pde (PDX a) with
  | none => simp [Pgdir.setPte, ht]
  | some t =>
    rw [setPte_of_pde ht]
    by_cases hi : i = PDX a
    · subst hi
      simp [Pgdir.tables, ht]
    · simp [Pgdir.tables, Function.update_of_ne hi]

theorem foldl_dropPage_removed (hl : ∀ a ∈ l, PGSIZE ∣ a ∧ a < 2 ^ 32) (hnd : l.Nodup) :
    Removed l k d (l.foldl dropPage (k, d)).1 (l.foldl dropPage (k, d)).2 := by
  induction l generalizing k d with
  | nil => exact ⟨fun b _ _ => by simp, rfl, fun _ _ => rfl, rfl, fun _ => rfl⟩
  | cons a l ih =>
    obtain ⟨hal, hnd⟩ := nodup_cons.mp hnd
    obtain ⟨hda, ha⟩ := hl a mem_cons_self
    have hl' := fun b hb => hl b (mem_cons_of_mem a hb)
    rw [foldl_cons]
    cases he : d.lookup a with
    | none =>
      have hstep : dropPage (k, d) a = (k, d) := by rw [dropPage, he]
      have hat : d.frameAt a = none := by rw [Pgdir.frameAt, he, Option.map_none]
      rw [hstep]
      have h := ih (k := k) (d := d) hl' hnd
      refine ⟨fun b hb hb' => ?_, by rw [filterMap_cons_none hat]; exact h.freelist,
        by rw [filterMap_cons_none hat]; exact h.mem, h.page, h.tables⟩
      rw [h.lookup b hb hb']
      by_cases hba : b = a
      · subst hba
        rw [if_neg hal, if_pos mem_cons_self, he]
      · simp [hba]
    | some e =>
      have hstep : dropPage (k, d) a = (k.kfree e.page, d.setPte a none) := by rw [dropPage, he]
      have hat : d.frameAt a = some e.page := by rw [Pgdir.frameAt, he, Option.map_some]
      have hpde : d.pde (PDX a) ≠ none := fun h => by
        rw [lookup_of_pde_none h] at he
        cases he
      have hne : ∀ b, PGSIZE ∣ b → b < 2 ^ 32 → b ≠ a → (d.setPte a none).lookup b = d.lookup b :=
        fun b hb hb' hba => by
        rw [lookup_setPte hda hb ha hb' hpde, if_neg hba]
      have hframes : l.filterMap (d.setPte a none).frameAt = l.filterMap d.frameAt :=
        filterMap_congr fun b hb => by
          rw [Pgdir.frameAt, hne b (hl' b hb).1 (hl' b hb).2 fun h => hal (h ▸ hb), Pgdir.frameAt]
      rw [hstep]
      have h := ih (k := k.kfree e.page) (d := d.setPte a none) hl' hnd
      refine ⟨fun b hb hb' => ?_, ?_, fun pg hpg => ?_, h.page.trans setPte_page,
        fun i => (h.tables i).trans (tables_setPte i)⟩
      · rw [h.lookup b hb hb']
        by_cases hba : b = a
        · subst hba
          rw [if_neg hal, if_pos mem_cons_self, lookup_setPte_self hpde]
        · rw [hne b hb hb' hba]
          simp [hba]
      · rw [h.freelist, hframes, filterMap_cons_some hat]
        simp
      · rw [filterMap_cons_some hat, mem_cons, not_or] at hpg
        rw [h.mem pg (by rw [hframes]; exact hpg.2)]
        exact Function.update_of_ne hpg.1 ..

/-! ### Refinement -/

/-- The user map of size `oldsz` has been extended to size `newsz`, by frames from the free list that are zero. -/
structure Extended (oldsz newsz : Nat) (k : Kmem) (d : Pgdir) (k' : Kmem) (d' : Pgdir) : Prop where
  covers : d'.userMap.Covers newsz
  old : ∀ v, v.addr < PGROUNDUP oldsz → d'.userMap v = d.userMap v
  fresh : ∀ v e, PGROUNDUP oldsz ≤ v.addr → d'.userMap v = some e →
    e.flags = PTE_W ||| PTE_U ∧ e.page ∈ k.freelist ∧ e.page ∉ k'.freelist ∧ k'.mem e.page = fun _ => 0
  distinct : ∀ v w e f, d'.userMap v = some e → d'.userMap w = some f → e.page = f.page → v = w
  pages : allPages k' d' = allPages k d
  mem : ∀ pg ∈ d.pages, k'.mem pg = k.mem pg

/-- The user map is as it was. The pages that have left the free list are tables. -/
structure Restored (k : Kmem) (d : Pgdir) (k' : Kmem) (d' : Pgdir) : Prop where
  map : d'.userMap = d.userMap
  freelist : d'.tablePages + (k'.freelist : Multiset Page) = d.tablePages + k.freelist
  mem : ∀ v e, d.userMap v = some e → k'.mem e.page = k.mem e.page

theorem Grown.extended (g : Grown (PGROUNDUP oldsz) newsz k d k' d') (hc : d.userMap.Covers oldsz) (hon : oldsz ≤ newsz)
    (hK : newsz < KERNBASE) (hnd : (allPages k d).Nodup) : Extended oldsz newsz k d k' d' := by
  have hnd' : (allPages k' d').Nodup := g.pages ▸ hnd
  have hold : ∀ v : UserPage, ¬(PGROUNDUP oldsz ≤ v.addr ∧ v.addr < newsz) → d'.userMap v = d.userMap v := fun v hv =>
    g.old v.addr v.dvd_addr v.addr_lt_word hv
  have hnew : ∀ v : UserPage, PGROUNDUP oldsz ≤ v.addr → v.addr < newsz →
      ∃ pg, d'.userMap v = some ⟨pg, PTE_W ||| PTE_U⟩ ∧ pg ∈ k.freelist ∧ k'.mem pg = fun _ => 0 :=
      fun v => g.new hnd _ v.dvd_addr
  refine ⟨fun v => ?_, fun v hv => hold v (by omega), fun v e hv he => ?_, fun v w e f he hf hef =>
    UserPage.addr_inj ?_, g.pages, fun pg hpg => g.takes.mem pg (not_free_of_mem hnd hpg)⟩
  · have hround := lt_PGROUNDUP (a := oldsz) (by omega) v.dvd_addr
    rw [lt_PGROUNDUP hK.le v.dvd_addr]
    by_cases hv : PGROUNDUP oldsz ≤ v.addr ∧ v.addr < newsz
    · obtain ⟨pg, he, -⟩ := hnew v hv.1 hv.2
      simp [he, hv.2]
    · rw [hold v hv, hc v]
      omega
  · by_cases hlt : v.addr < newsz
    · obtain ⟨pg, hpg, hfree, hz⟩ := hnew v hv hlt
      cases hpg.symm.trans he
      exact ⟨rfl, hfree, not_free_of_lookup hnd' v.addr_lt he, hz⟩
    · rw [hold v fun h => hlt h.2] at he
      have := (hc v).mp (by rw [he]; rfl)
      omega
  · exact lookup_inj (Multiset.nodup_add.mp hnd').1 v.dvd_addr w.dvd_addr v.addr_lt w.addr_lt he hf hef

theorem Undone.restored (h : Undone (PGROUNDUP oldsz) newsz k d k' d') (hc : d.userMap.Covers oldsz)
    (hnd : (allPages k d).Nodup) : Restored k d k' d' := by
  have hmap : d'.userMap = d.userMap := funext fun v => by
    refine (h.lookup v.addr v.dvd_addr v.addr_lt_word).trans ?_
    split
    · next hv =>
      -- above the old size nothing was mapped
      have hn : ¬(d.userMap v).isSome = true := (hc v).not.mpr (by omega)
      exact (by simpa using hn : d.userMap v = none).symm
    · rfl
  refine ⟨hmap, ?_, fun v e he => h.mem _ (not_free_of_lookup hnd v.addr_lt he) ?_⟩
  · have hp := h.pages
    rw [allPages, allPages, pages_eq, pages_eq, frames_congr (userMap_eq_iff.mp hmap), add_right_comm,
      add_right_comm d.tablePages] at hp
    exact add_right_cancel hp
  · have he' : d'.userMap v = some e := by rw [hmap, he]
    exact not_free_of_lookup (h.pages ▸ hnd) v.addr_lt he'

theorem deallocuvm_eq (k : Kmem) (d : Pgdir) (hlt : newsz < oldsz) (ho : oldsz ≤ KERNBASE) :
    deallocuvm k d oldsz newsz = (newsz, (pagesIn (PGROUNDUP newsz) oldsz).foldl dropPage (k, d)) := by
  rw [deallocuvm, if_neg (by omega), deallocFrom_eq (PGSIZE_dvd_PGROUNDUP _) ho]
  simp only [PGSIZE]
  omega

theorem Removed.frames (h : Removed l k d k' d') (hp : allPages k' d' = allPages k d) :
    d'.frames + (k'.freelist : Multiset Page) = d.frames + k.freelist := by
  have ht : d'.tablePages = d.tablePages := by
    rw [Pgdir.tablePages, Pgdir.tablePages, h.page, Finset.sum_congr rfl fun i _ => h.tables i]
  rw [allPages, allPages, pages_eq, pages_eq, ht, add_assoc, add_assoc] at hp
  exact add_left_cancel hp

/-- `allocuvm` extends the map to the new size with frames from the free list, or leaves it as it was and keeps no more
    than tables, whichever calls of `kalloc` fail. `deallocuvm` takes the pages from the new size up to the old one out
    of the map and frees their frames. -/
theorem uvm_refines_flat_map (k : Kmem) (d : Pgdir) (oldsz newsz : Nat) :
    (oldsz ≤ newsz → newsz < KERNBASE → d.userMap.Covers oldsz → (allPages k d).Nodup →
      ∃ r k' d', allocuvm k d oldsz newsz = .ok (r, k', d') ∧
        (r = newsz ∧ Extended oldsz newsz k d k' d' ∨ r = 0 ∧ Restored k d k' d')) ∧ (newsz < oldsz → oldsz ≤ KERNBASE →
      ∃ k' d', deallocuvm k d oldsz newsz = (newsz, k', d') ∧
        (k', d') = (pagesIn (PGROUNDUP newsz) oldsz).foldl dropPage (k, d) ∧
        d'.userMap = d.userMap.without (PGROUNDUP newsz) oldsz ∧ Removed (pagesIn (PGROUNDUP newsz) oldsz) k d k' d' ∧
        ((d.frames + (k.freelist : Multiset Page)).Nodup → k'.freelist.Nodup)) := by
  refine ⟨fun hon hK hc hnd => ?_, fun hlt ho => ?_⟩
  · obtain ⟨r, k', d', h, hr⟩ :=
      allocuvm_returns (d := d) k hK hon fun b hb hle hlt => hc.none (by omega) hb hle (hlt.trans hK)
    exact ⟨r, k', d', h, hr.imp (fun ⟨hr, g⟩ => ⟨hr, g.extended hc hon hK hnd⟩) fun ⟨hr, g⟩ => ⟨hr, g.restored hc hnd⟩⟩
  · have hdvd := PGSIZE_dvd_PGROUNDUP newsz
    have hrem : Removed (pagesIn (PGROUNDUP newsz) oldsz) k d _ _ := foldl_dropPage_removed (fun a ha => by
      obtain ⟨ha, -, hlt⟩ := (mem_pagesIn hdvd).mp ha
      exact ⟨ha, (hlt.trans_le ho).trans (by decide)⟩) pagesIn_nodup
    have hp := deallocuvm_pages (k := k) (d := d) newsz ho
    rw [deallocuvm_eq k d hlt ho] at hp
    refine ⟨_, _, deallocuvm_eq k d hlt ho, rfl, funext fun v => ?_, hrem, fun hnd => ?_⟩
    · refine (hrem.lookup v.addr v.dvd_addr v.addr_lt_word).trans ?_
      rw [UserMap.without]
      exact if_congr (by rw [mem_pagesIn hdvd]; exact and_iff_right v.dvd_addr) rfl rfl
    · rw [← hrem.frames hp, Multiset.nodup_add] at hnd
      exact hnd.2.1

theorem onePage_covers : onePage.pgdir.userMap.Covers PGSIZE :=
  fun v => onePage_proper.exact v.addr v.dvd_addr v.addr_lt

theorem uvm_refines_flat_map_onePage : (∃ k' d', allocuvm sixFree onePage.pgdir 4096 8192 = .ok (8192, k', d') ∧
      Extended 4096 8192 sixFree onePage.pgdir k' d') ∧
    ∃ k' d', deallocuvm sixFree onePage.pgdir 4096 0 = (0, k', d') ∧ k'.freelist = 3 :: range' 4 6 := by
  have hr : (allocuvm sixFree onePage.pgdir 4096 8192).toOption.map Prod.fst = some 8192 := by decide +kernel
  obtain ⟨k1, d1, h1, hext⟩ : ∃ k' d', allocuvm sixFree onePage.pgdir 4096 8192 = .ok (8192, k', d') ∧
      Extended 4096 8192 sixFree onePage.pgdir k' d' := by
    obtain ⟨r, k1, d1, h1, ⟨rfl, hext⟩ | ⟨rfl, -⟩⟩ :=
      (uvm_refines_flat_map sixFree onePage.pgdir 4096 8192).1 (by decide)
      (by decide) onePage_covers onePage_proper.nodup
    · exact ⟨k1, d1, h1, hext⟩
    · rw [h1] at hr
      cases hr
  obtain ⟨k', d', h, -, -, hrem, -⟩ := (uvm_refines_flat_map sixFree onePage.pgdir 4096 0).2 (by decide) (by decide)
  refine ⟨⟨k1, d1, h1, hext⟩, k', d', h, hrem.freelist.trans ?_⟩
  decide +kernel

end Xv6
