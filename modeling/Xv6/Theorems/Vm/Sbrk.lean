import Xv6.Lib.Fail
import Xv6.Theorems.Vm.Paging

/-! Growing and shrinking a process: what `allocuvm` and `growproc` do to the user pages of a process. -/

namespace Xv6
open Except

variable {k k' : Kmem} {d d' : Pgdir} {a n oldsz newsz r : Nat}

/-! ### allocuvm -/

structure Filled (a hi : Nat) (flags : Nat → Nat) (bytes : Nat → Nat → UInt8) (k : Kmem) (d : Pgdir) (k' : Kmem)
    (d' : Pgdir) : Prop where
  takes : k.Takes k'
  pages : allPages k' d' = allPages k d
  old : ∀ b, PGSIZE ∣ b → b < 2 ^ 32 → ¬(a ≤ b ∧ b < hi) → d'.lookup b = d.lookup b
  new : (allPages k d).Nodup → ∀ b, PGSIZE ∣ b → a ≤ b → b < hi →
    ∃ pg, d'.lookup b = some ⟨pg, flags b⟩ ∧ pg ∈ k.freelist ∧ k'.mem pg = bytes b

abbrev Grown (a newsz : Nat) (k : Kmem) (d : Pgdir) (k' : Kmem) (d' : Pgdir) : Prop :=
  Filled a newsz (fun _ => PTE_W ||| PTE_U) (fun _ _ => 0) k d k' d'

theorem Filled.refl {hi : Nat} {flags : Nat → Nat} {bytes : Nat → Nat → UInt8} (h : hi ≤ a) :
    Filled a hi flags bytes k d k d :=
  ⟨.refl _, rfl, fun _ _ _ _ => rfl, fun _ b _ _ _ => by omega⟩

theorem Filled.cons {hi : Nat} {flags : Nat → Nat} {bytes : Nat → Nat → UInt8} {k1 k2 : Kmem} {d2 : Pgdir} {mem : Page}
    (ha : PGSIZE ∣ a) (haK : a < KERNBASE) (hlt : a < hi) (hk : k.kalloc = (some mem, k1))
    (m : Mapped a mem (flags a) { k1 with mem := Function.update k1.mem mem (bytes a) } d true k2 d2)
    (g : Filled (a + PGSIZE) hi flags bytes k2 d2 k' d') : Filled a hi flags bytes k d k' d' := by
  have ht : k.Takes k2 := (Kmem.takes_of_some hk _).trans m.takes
  have hp1 : mem ::ₘ allPages k1 d = allPages k d := kalloc_allPages hk
  have hp2 : allPages k2 d2 = allPages k d := m.pages.trans hp1
  refine ⟨ht.trans g.takes, g.pages.trans hp2, fun b hb hb' hab => ?_, fun hnd b hb hab hbn => ?_⟩
  · rw [g.old b hb hb' (by omega), m.other b hb hb' (by omega)]
  · by_cases hba : b = a
    · -- the page just mapped is not free any more, so its bytes stay
      subst hba
      have he := m.self rfl
      have hfull : k2.mem mem = bytes b := by
        rw [← hp1] at hnd
        rw [m.takes.mem _ fun hmem => (Multiset.nodup_cons.mp hnd).1 (Multiset.mem_add.mpr (.inr hmem))]
        exact Function.update_self ..
      refine ⟨mem, ?_, ?_, ?_⟩
      · rw [g.old b hb (haK.trans (by decide)) (by simp only [PGSIZE]; omega), he]
      · rw [(Kmem.kalloc_some hk).1]
        exact List.mem_cons_self
      · rw [g.takes.mem _ (not_free_of_lookup (hp2 ▸ hnd) haK he), hfull]
    · obtain ⟨pg, he, hfree, hz⟩ := g.new (hp2 ▸ hnd) b hb (by simp only [PGSIZE] at *; omega) hbn
      exact ⟨pg, he, ht.sub pg hfree, hz⟩

structure Undone (a newsz : Nat) (k : Kmem) (d : Pgdir) (k' : Kmem) (d' : Pgdir) : Prop where
  mem : ∀ pg, pg ∉ k.freelist → pg ∉ k'.freelist → k'.mem pg = k.mem pg
  pages : allPages k' d' = allPages k d
  lookup : ∀ b, PGSIZE ∣ b → b < 2 ^ 32 → d'.lookup b = if a ≤ b ∧ b < newsz then none else d.lookup b

theorem Undone.of_unmapped {k0 : Kmem} {d0 : Pgdir} (ht : k.Takes k0) (hp : allPages k0 d0 = allPages k d)
    (hl : ∀ b, PGSIZE ∣ b → b < 2 ^ 32 → ¬(a ≤ b ∧ b < newsz) → d0.lookup b = d.lookup b)
    (h : Unmapped a newsz k0 d0 k' d') : Undone a newsz k d k' d' := by
  refine ⟨fun pg h1 h2 => (h.gives.mem pg h2).trans (ht.mem pg h1), h.pages.trans hp, fun b hb hb' => ?_⟩
  rw [h.lookup b hb hb']
  split
  · rfl
  · next hab => exact hl b hb hb' hab

theorem allocFrom_spec (ha : PGSIZE ∣ a) (hK : newsz < KERNBASE) (hn : newsz ≤ a + n * PGSIZE)
    (ho : PGROUNDUP oldsz ≤ a) (hon : oldsz ≤ newsz) (h : allocFrom oldsz newsz n k d a = .ok (r, k', d')) :
    r = newsz ∧ Grown a newsz k d k' d' ∨ r = 0 ∧ Undone (PGROUNDUP oldsz) newsz k d k' d' := by
  induction n generalizing k d a with
  | zero =>
    cases h
    exact .inl ⟨rfl, .refl (by omega)⟩
  | succ n ih =>
    rw [Nat.succ_mul] at hn
    rw [allocFrom] at h
    split at h
    · next hlt =>
      have haK : a < KERNBASE := Nat.lt_trans hlt hK
      have hinr : oldsz < newsz := Nat.lt_of_le_of_lt (Nat.le_trans (le_PGROUNDUP (by omega)) ho) hlt
      have hback : ∀ k0 d0 k1 d1, (deallocuvm k0 d0 newsz oldsz).2 = (k1, d1) →
          Unmapped (PGROUNDUP oldsz) newsz k0 d0 k1 d1 := fun k0 d0 k1 d1 h => by
        have hu := deallocuvm_unmapped (k := k0) (d := d0) hK.le hinr
        rwa [h] at hu
      split at h
      · next k1 hk =>
        obtain ⟨rfl, hd⟩ : 0 = r ∧ (deallocuvm k1 d newsz oldsz).2 = (k', d') := by simpa using h
        exact .inr ⟨rfl, .of_unmapped (Kmem.takes_of_none hk) (kalloc_none_allPages hk) (fun _ _ _ _ => rfl)
          (hback _ _ _ _ hd)⟩
      · next mem k1 hk =>
        have ht1 : k.Takes (k1.memset mem 0) := Kmem.takes_of_some hk _
        have hp1 : mem ::ₘ allPages (k1.memset mem 0) d = allPages k d := by
          rw [memset_allPages, kalloc_allPages hk]
        rw [bind_eq_ok] at h
        obtain ⟨⟨mapped, k2, d2⟩, hm, h⟩ := h
        have m := mappages_mapped ha haK hm
        cases mapped with
        | true =>
          have hp2 : allPages k2 d2 = allPages k d := m.pages.trans hp1
          rcases ih (Nat.dvd_add ha (Nat.dvd_refl _)) (by omega) (by omega) h with ⟨hr, g⟩ | ⟨hr, u⟩
          · exact .inl ⟨hr, .cons ha haK hlt hk m g⟩
          · refine .inr ⟨hr, fun pg h1 h2 => ?_, u.pages.trans hp2, fun b hb hb' => ?_⟩
            · have h3 : pg ∉ k2.freelist := fun hmem => h1 ((ht1.trans m.takes).sub pg hmem)
              rw [u.mem pg h3 h2, (ht1.trans m.takes).mem pg h1]
            · rw [u.lookup b hb hb']
              split
              · rfl
              · exact m.other b hb hb' (by omega)
        | false =>
          obtain ⟨rfl, hk', hd'⟩ : 0 = r ∧ (deallocuvm k2 d2 newsz oldsz).2.1.kfree mem = k' ∧
              (deallocuvm k2 d2 newsz oldsz).2.2 = d' := by simpa using h
          have hu := hback k2 d2 _ _ rfl
          rw [← hk', ← hd']
          refine .inr ⟨rfl, fun pg h1 h2 => ?_, ?_, fun b hb hb' => ?_⟩
          · have hg := hu.gives.trans (Kmem.gives_kfree _ mem)
            rw [hg.mem pg h2, (ht1.trans m.takes).mem pg h1]
          · rw [kfree_allPages, hu.pages, m.pages, ← hp1]
            rfl
          · rw [hu.lookup b hb hb']
            split
            · rfl
            · exact m.other b hb hb' (by omega)
    · next hlt =>
      cases h
      exact .inl ⟨rfl, .refl (by omega)⟩

theorem allocFrom_returns (oldsz : Nat) (ha : PGSIZE ∣ a) (hK : newsz < KERNBASE)
    (hl : ∀ b, PGSIZE ∣ b → a ≤ b → b < newsz → d.lookup b = none) :
    ∃ r k' d', allocFrom oldsz newsz n k d a = .ok (r, k', d') := by
  induction n generalizing k d a with
  | zero => exact ⟨_, _, _, rfl⟩
  | succ n ih =>
    rw [allocFrom]
    split
    · next hlt =>
      have haK : a < KERNBASE := Nat.lt_trans hlt hK
      split
      · exact ⟨_, _, _, rfl⟩
      · next mem k1 hk =>
        obtain ⟨r, k2, d2, hm⟩ :=
          mappages_returns (k1.memset mem 0) mem (PTE_W ||| PTE_U) ha haK (hl a ha (Nat.le_refl a) hlt)
        rw [hm, ok_bind]
        have m := mappages_mapped ha haK hm
        cases r with
        | true =>
          refine ih (Nat.dvd_add ha (Nat.dvd_refl _)) fun b hb hab hbn => ?_
          rw [m.other b hb (Nat.lt_trans (Nat.lt_trans hbn hK) (by decide)) (by simp only [PGSIZE] at hab; omega)]
          exact hl b hb (Nat.le_of_add_right_le hab) hbn
        | false => exact ⟨_, _, _, rfl⟩
    · exact ⟨_, _, _, rfl⟩

theorem allocuvm_returns (k : Kmem) (hK : newsz < KERNBASE) (hon : oldsz ≤ newsz)
    (hl : ∀ b, PGSIZE ∣ b → oldsz ≤ b → b < newsz → d.lookup b = none) :
    ∃ r k' d', allocuvm k d oldsz newsz = .ok (r, k', d') ∧ (r = newsz ∧ Grown (PGROUNDUP oldsz) newsz k d k' d' ∨
        r = 0 ∧ Undone (PGROUNDUP oldsz) newsz k d k' d') := by
  rw [allocuvm, if_neg (by omega), if_neg (by omega)]
  have hle := le_PGROUNDUP (a := oldsz) (by omega)
  obtain ⟨r, k', d', h⟩ := allocFrom_returns (k := k) (n := newsz / PGSIZE + 1) oldsz (PGSIZE_dvd_PGROUNDUP oldsz)
    hK fun b hb hab hbn => hl b hb (Nat.le_trans hle hab) hbn
  refine ⟨r, k', d', h, allocFrom_spec (PGSIZE_dvd_PGROUNDUP oldsz) hK ?_ (Nat.le_refl _) hon h⟩
  simp only [PGSIZE]
  omega

/-! ### sbrk -/

/-- The user pages that are mapped are exactly those below the size rounded up. -/
def Uvm.Exact (u : Uvm) : Prop :=
  ∀ b, PGSIZE ∣ b → b < KERNBASE → ((u.pgdir.lookup b).isSome ↔ b < PGROUNDUP u.sz)

/-- An address space as the kernel keeps them: below `KERNBASE`, and none of its pages in use twice or free. -/
structure Uvm.Proper (u : Uvm) (k : Kmem) : Prop where
  sz : u.sz < KERNBASE
  exact : u.Exact
  nodup : (allPages k u.pgdir).Nodup

def Uvm.KeptAt (k : Kmem) (u : Uvm) (k' : Kmem) (u' : Uvm) (b : Nat) : Prop :=
  u'.pgdir.lookup b = u.pgdir.lookup b ∧ ∀ e, u.pgdir.lookup b = some e → k'.mem e.page = k.mem e.page

/-- The size has changed by `n`, pages below both sizes are kept and those above the old size are zero. -/
structure SbrkDone (k : Kmem) (u : Uvm) (n : Int) (k' : Kmem) (u' : Uvm) : Prop where
  sz : (u'.sz : Int) = u.sz + n
  lt : u'.sz < KERNBASE
  exact : u'.Exact
  kept : ∀ b, PGSIZE ∣ b → b < PGROUNDUP u.sz → b < PGROUNDUP u'.sz → u.KeptAt k k' u' b
  zero : ∀ b, PGSIZE ∣ b → PGROUNDUP u.sz ≤ b → b < PGROUNDUP u'.sz →
    ∃ e, u'.pgdir.lookup b = some e ∧ k'.mem e.page = fun _ => 0

/-- The size and every user page are as before. -/
structure SbrkUndone (k : Kmem) (u : Uvm) (k' : Kmem) (u' : Uvm) : Prop where
  sz : u'.sz = u.sz
  kept : ∀ b, PGSIZE ∣ b → b < KERNBASE → u.KeptAt k k' u' b

def AllOrNothing (k : Kmem) (u : Uvm) (n : Int) (r : Int) (k' : Kmem) (u' : Uvm) : Prop :=
  r = u.sz ∧ SbrkDone k u n k' u' ∨ r = -1 ∧ SbrkUndone k u k' u'

variable {u : Uvm} {m : Int}

theorem grown_eq (hsz : u.sz < KERNBASE) (h0 : 0 ≤ (u.sz : Int) + m) (h1 : m < 2 ^ 31) :
    ((u.grown m : Nat) : Int) = u.sz + m := by
  simp only [Uvm.grown, KERNBASE] at *
  omega

theorem le_grown (hsz : u.sz < KERNBASE) (h0 : (u.sz : Int) + m < 0) (h1 : -2 ^ 31 ≤ m) : u.sz ≤ u.grown m := by
  simp only [Uvm.grown, KERNBASE] at *
  omega

theorem wrap_sz (hsz : u.sz < KERNBASE) : CInt.wrap 32 u.sz = u.sz :=
  CInt.wrap_of_range (w := 31) (by omega) (by simp only [KERNBASE] at hsz; omega)

theorem SbrkUndone.refl (k : Kmem) (u : Uvm) : SbrkUndone k u k u := ⟨rfl, fun _ _ _ => ⟨rfl, fun _ _ => rfl⟩⟩

/-- Pages mapped before and after, with the pages as a whole in use once each, keep their bytes when only free
    pages are written. -/
theorem Uvm.keptAt {b : Nat} {u' : Uvm} (hnd : (allPages k u.pgdir).Nodup)
    (hp : allPages k' u'.pgdir = allPages k u.pgdir) (hb : b < KERNBASE)
    (hmem : ∀ pg, pg ∉ k.freelist → pg ∉ k'.freelist → k'.mem pg = k.mem pg)
    (hl : u'.pgdir.lookup b = u.pgdir.lookup b) : u.KeptAt k k' u' b := by
  refine ⟨hl, fun e he => hmem _ (not_free_of_lookup hnd hb he) ?_⟩
  exact not_free_of_lookup (hp ▸ hnd) hb (hl.trans he)

section

variable (hu : u.Proper k)
include hu

theorem allocuvm_done {newsz : Nat} (hK : newsz < KERNBASE) (hlt : u.sz ≤ newsz)
    (hm : (newsz : Int) = u.sz + m) (g : Grown (PGROUNDUP u.sz) newsz k u.pgdir k' d') :
    SbrkDone k u m k' ⟨d', newsz⟩ := by
  have hold : ∀ b, PGSIZE ∣ b → b < KERNBASE → b < PGROUNDUP u.sz → d'.lookup b = u.pgdir.lookup b :=
    fun b hb hbK hlt => g.old b hb (Nat.lt_trans hbK (by decide)) (by omega)
  refine ⟨hm, hK, fun b hb hbK => ?_, fun b hb h1 h2 => ?_, fun b hb h1 h2 => ?_⟩
  · have hex := hu.exact b hb hbK
    rw [lt_PGROUNDUP hK.le hb]
    by_cases h : b < PGROUNDUP u.sz
    · have hb' := (lt_PGROUNDUP hu.sz.le hb).mp h
      change (d'.lookup b).isSome = true ↔ _
      rw [hold b hb hbK h, hex]
      exact ⟨fun _ => by omega, fun _ => h⟩
    · by_cases h2 : b < newsz
      · obtain ⟨e, he, -⟩ := g.new hu.nodup b hb (by omega) h2
        simp [he, h2]
      · change (d'.lookup b).isSome = true ↔ _
        rw [g.old b hb (Nat.lt_trans hbK (by decide)) (by omega), hex]
        exact ⟨fun h' => absurd h' h, fun h' => absurd h' h2⟩
  · have hbK : b < KERNBASE := Nat.lt_trans ((lt_PGROUNDUP hu.sz.le hb).mp h1) hu.sz
    exact Uvm.keptAt hu.nodup g.pages hbK (fun pg h _ => g.takes.mem pg h) (hold b hb hbK h1)
  · obtain ⟨pg, he, -, hz⟩ := g.new hu.nodup b hb h1 ((lt_PGROUNDUP hK.le hb).mp h2)
    exact ⟨_, he, hz⟩

theorem allocuvm_undone {newsz : Nat} (h : Undone (PGROUNDUP u.sz) newsz k u.pgdir k' d') :
    SbrkUndone k u k' ⟨d', u.sz⟩ := by
  refine ⟨rfl, fun b hb hbK => Uvm.keptAt hu.nodup h.pages hbK h.mem ?_⟩
  change d'.lookup b = _
  rw [h.lookup b hb (Nat.lt_trans hbK (by decide))]
  split
  · next hr =>
    -- above the old size nothing was mapped
    have hex := hu.exact b hb hbK
    cases hl : u.pgdir.lookup b with
    | none => rfl
    | some e =>
      rw [hl] at hex
      exact absurd (hex.mp rfl) (by omega)
  · rfl

theorem deallocuvm_done {newsz : Nat} (hlt : newsz < u.sz) (hm : (newsz : Int) = u.sz + m)
    (h : Unmapped (PGROUNDUP newsz) u.sz k u.pgdir k' d') : SbrkDone k u m k' ⟨d', newsz⟩ := by
  have hK : newsz < KERNBASE := Nat.lt_trans hlt hu.sz
  refine ⟨hm, hK, fun b hb hbK => ?_, fun b hb h1 h2 => ?_, fun b hb h1 h2 => ?_⟩
  · have hex := hu.exact b hb hbK
    rw [lt_PGROUNDUP hu.sz.le hb] at hex
    change (d'.lookup b).isSome = true ↔ b < PGROUNDUP newsz
    rw [h.lookup b hb (Nat.lt_trans hbK (by decide))]
    split
    · next hr => simp [Nat.not_lt.mpr hr.1]
    · next hr =>
      rw [hex]
      have := lt_PGROUNDUP hK.le hb
      omega
  · have hb' := (lt_PGROUNDUP hu.sz.le hb).mp h1
    have hbK : b < KERNBASE := Nat.lt_trans hb' hu.sz
    refine Uvm.keptAt hu.nodup h.pages hbK (fun pg _ hp => h.gives.mem pg hp) ?_
    change d'.lookup b = _
    have h2 : b < PGROUNDUP newsz := h2
    rw [h.lookup b hb (Nat.lt_trans hbK (by decide)), if_neg (by omega)]
  · have h1 := (lt_PGROUNDUP hu.sz.le hb).not.mp (Nat.not_lt.mpr h1)
    have h2 := (lt_PGROUNDUP hK.le hb).mp h2
    omega

theorem sysSbrk_pos (h0 : 0 < m) (h1 : m < 2 ^ 31) :
    ∃ r k' u', sysSbrk k u m = .ok (r, k', u') ∧ AllOrNothing k u m r k' u' := by
  have hg := grown_eq hu.sz (m := m) (by omega) h1
  by_cases hK : KERNBASE ≤ u.grown m
  · refine ⟨-1, k, u, ?_, .inr ⟨rfl, .refl k u⟩⟩
    simp [sysSbrk, growproc, ok_bind, Uvm.resize, h0, allocuvm, hK]
  · have hfree : ∀ b, PGSIZE ∣ b → u.sz ≤ b → b < u.grown m → u.pgdir.lookup b = none := fun b hb hle hlt => by
      have hex := (hu.exact b hb (by omega)).trans (lt_PGROUNDUP hu.sz.le hb)
      cases hl : u.pgdir.lookup b with
      | none => rfl
      | some e =>
        rw [hl] at hex
        exact absurd (hex.mp rfl) (by omega)
    obtain ⟨r, k', d', h, ⟨rfl, g⟩ | ⟨rfl, g⟩⟩ := allocuvm_returns k
      (show u.grown m < KERNBASE by omega) (show u.sz ≤ u.grown m by omega) hfree
    · refine ⟨u.sz, k', ⟨d', u.grown m⟩, ?_, .inl ⟨rfl, allocuvm_done hu (by omega) (by omega) hg g⟩⟩
      have hne : u.grown m ≠ 0 := by omega
      simp [sysSbrk, growproc, ok_bind, Uvm.resize, h0, h, hne, wrap_sz hu.sz]
    · refine ⟨-1, k', ⟨d', u.sz⟩, ?_, .inr ⟨rfl, allocuvm_undone hu g⟩⟩
      simp [sysSbrk, growproc, ok_bind, Uvm.resize, h0, h]

theorem sysSbrk_zero : sysSbrk k u 0 = .ok ((u.sz : Int), k, u) := by
  simp [sysSbrk, growproc, ok_bind, wrap_sz hu.sz]

theorem sbrkDone_zero : SbrkDone k u 0 k u :=
  ⟨by omega, hu.sz, hu.exact, fun _ _ _ _ => ⟨rfl, fun _ _ => rfl⟩, fun b hb h1 h2 => by omega⟩

end

theorem sysSbrk_neg_zero (hm : m < 0) (h : deallocuvm k u.pgdir u.sz (u.grown m) = (0, k', d')) :
    sysSbrk k u m = .ok (-1, k', ⟨d', u.sz⟩) := by
  simp [sysSbrk, growproc, ok_bind, Uvm.resize, Int.not_lt.mpr hm.le, hm, h]

theorem sysSbrk_neg_pos (hu : u.Proper k) (hm : m < 0) (h : deallocuvm k u.pgdir u.sz (u.grown m) = (r, k', d'))
    (hr : r ≠ 0) : sysSbrk k u m = .ok ((u.sz : Int), k', ⟨d', r⟩) := by
  simp [sysSbrk, growproc, ok_bind, Uvm.resize, Int.not_lt.mpr hm.le, hm, h, hr, wrap_sz hu.sz]

theorem not_allOrNothing_of_all (hu : u.Proper k) (hpos : 0 < u.sz)
    (h : Unmapped (PGROUNDUP 0) u.sz k u.pgdir k' d') : ¬AllOrNothing k u m (-1) k' ⟨d', u.sz⟩ := by
  rintro (⟨h', -⟩ | ⟨-, h'⟩)
  · omega
  · have hl := (h'.kept 0 (Nat.dvd_zero _) (by decide)).1
    have hex := (hu.exact 0 (Nat.dvd_zero _) (by decide)).trans (lt_PGROUNDUP hu.sz.le (Nat.dvd_zero _))
    have h0 := h.lookup 0 (Nat.dvd_zero _) (by decide)
    rw [if_pos ⟨by decide, hpos⟩] at h0
    rw [← hl, h0] at hex
    exact absurd (hex.mpr hpos) (by decide)

def onePage : Uvm where
  pgdir := ⟨1, fun i => if i = PDX 0 then some ⟨2, fun j => if j = PTX 0 then some ⟨3, PTE_W ||| PTE_U⟩ else none⟩
    else none⟩
  sz := PGSIZE

def sixFree : Kmem := ⟨List.range' 4 6, fun _ _ => 0, fun _ => false⟩

theorem onePage_proper : onePage.Proper sixFree := by
  refine ⟨by decide, fun b hb hbK => ?_, by decide +kernel⟩
  rw [lt_PGROUNDUP (by decide) hb]
  by_cases h0 : b = 0
  · subst h0
    decide
  · have hne : ¬(PDX b = PDX 0 ∧ PTX b = PTX 0) := fun h =>
      h0 (slot_inj hb (Nat.dvd_zero _) (Nat.lt_trans hbK (by decide)) (by decide) h.1 h.2)
    have hnone : onePage.pgdir.lookup b = none := by
      simp only [Pgdir.lookup, onePage]
      by_cases hd : PDX b = PDX 0
      · have ht : PTX b ≠ PTX 0 := fun ht => hne ⟨hd, ht⟩
        simp [hd, ht]
      · simp [hd]
    have hlt : ¬b < onePage.sz := by
      simp only [onePage, PGSIZE] at *
      omega
    simp [hnone, hlt]

/-- `sbrk` is all or nothing unless it is asked to take everything, or more than there is, from a process that has
    memory. -/
theorem sbrk_all_or_nothing (k : Kmem) (u : Uvm) (n : Int) (hu : u.Proper k) (hlo : -2 ^ 31 ≤ n) (hhi : n < 2 ^ 31) :
    ∃ r k' u', sysSbrk k u n = .ok (r, k', u') ∧ (AllOrNothing k u n r k' u' ↔ u.sz = 0 ∨ -(u.sz : Int) < n) := by
  rcases lt_trichotomy n 0 with hn | rfl | hn
  · rcases lt_or_ge ((u.sz : Int) + n) 0 with hs | hs
    · -- the new size wraps around, and `deallocuvm` returns the old one
      have hx : deallocuvm k u.pgdir u.sz (u.grown n) = (u.sz, k, u.pgdir) := by
        rw [deallocuvm, if_pos (le_grown hu.sz hs hlo)]
      by_cases h0 : u.sz = 0
      · have hx0 := hx.trans (by rw [h0] : _ = (0, k, u.pgdir))
        exact ⟨_, _, _, sysSbrk_neg_zero hn hx0, fun _ => .inl h0, fun _ => .inr ⟨rfl, .refl k u⟩⟩
      · refine ⟨_, _, _, sysSbrk_neg_pos hu hn hx h0, ?_, fun h => by omega⟩
        rintro (⟨-, h⟩ | ⟨h, -⟩)
        · have := h.sz
          dsimp only at this
          omega
        · omega
    · have hg := grown_eq hu.sz hs hhi
      have hlt : u.grown n < u.sz := by omega
      have hun := deallocuvm_unmapped (k := k) (d := u.pgdir) hu.sz.le hlt
      have hx : (deallocuvm k u.pgdir u.sz (u.grown n)).1 = u.grown n := by
        rw [deallocuvm, if_neg (by omega)]
      obtain ⟨r, k', d', hd⟩ : ∃ r k' d', deallocuvm k u.pgdir u.sz (u.grown n) = (r, k', d') := ⟨_, _, _, rfl⟩
      rw [hd] at hun hx
      obtain rfl : r = u.grown n := hx
      by_cases h0 : u.grown n = 0
      · rw [h0] at hd hun
        refine ⟨_, _, _, sysSbrk_neg_zero hn (by rwa [h0]), fun h => ?_, fun h => by omega⟩
        exact absurd h (not_allOrNothing_of_all hu (by omega) hun)
      · refine ⟨_, _, _, sysSbrk_neg_pos hu hn hd h0, fun _ => by omega, fun _ => .inl ⟨rfl, ?_⟩⟩
        exact deallocuvm_done hu hlt hg hun
  · exact ⟨_, _, _, sysSbrk_zero hu, fun _ => by omega, fun _ => .inl ⟨rfl, sbrkDone_zero hu⟩⟩
  · obtain ⟨r, k', u', h, ha⟩ := sysSbrk_pos hu hn hhi
    exact ⟨r, k', u', h, fun _ => .inr (by omega), fun _ => ha⟩

theorem sbrk_all_or_nothing_onePage :
    ∃ r k' u', sysSbrk sixFree onePage 4096 = .ok (r, k', u') ∧ AllOrNothing sixFree onePage 4096 r k' u' := by
  obtain ⟨r, k', u', h, hiff⟩ := sbrk_all_or_nothing sixFree onePage 4096 onePage_proper (by decide) (by decide)
  exact ⟨r, k', u', h, hiff.mpr (.inr (by decide))⟩

/-- `sbrk(-sz)` unmaps the whole memory and then fails. -/
theorem sbrk_all_unmaps : onePage.Proper sixFree ∧
      ∃ r k' u', sysSbrk sixFree onePage (-4096) = .ok (r, k', u') ∧ ¬AllOrNothing sixFree onePage (-4096) r k' u' := by
  have hx : onePage.grown (-4096) = 0 := by decide
  have hun := deallocuvm_unmapped sixFree onePage.pgdir (show onePage.sz ≤ KERNBASE by decide)
    (show 0 < onePage.sz by decide)
  refine ⟨onePage_proper, -1, _, _, sysSbrk_neg_zero (by decide) (by rw [hx]; rfl), ?_⟩
  exact not_allOrNothing_of_all onePage_proper (by decide) hun

end Xv6
