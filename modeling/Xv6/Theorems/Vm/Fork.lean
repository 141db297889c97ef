import Xv6.Theorems.Vm.FlatMap
import Xv6.Theorems.Vm.Loader

/-! `copyuvm`, by which `fork` makes the address space of the child: what is written through one of the two
    directories is not seen through the other. -/

namespace Xv6
open Function Option Multiset

variable {k k' k₀ : Kmem} {d d' parent : Pgdir} {a b n sz : Nat} {pg : Page}

/-! ### Stores through two directories -/

def Apart (d d' : Pgdir) : Prop :=
  ∀ a < KERNBASE, ∀ b < KERNBASE, ∀ x y, d.lookup a = some x → d'.lookup b = some y → x.page ≠ y.page

theorem Apart.symm (h : Apart d d') : Apart d' d := fun a ha b hb x y hx hy heq => h b hb a ha y x hy hx heq.symm

structure UserStore where
  child : Bool
  va : Nat
  lt : va < KERNBASE
  byte : UInt8

def UserStore.dir (parent child : Pgdir) (s : UserStore) : Pgdir := if s.child then child else parent

/-- The write goes where the writer's directory maps the address; where nothing is mapped it is a fault. -/
def UserStore.run (parent child : Pgdir) (k : Kmem) (s : UserStore) : Kmem :=
  ((s.dir parent child).lookup s.va).elim k fun e => k.write e.page (s.va % PGSIZE) [s.byte]

def SameUser (d : Pgdir) (k k' : Kmem) : Prop := ∀ a < KERNBASE, ∀ e, d.lookup a = some e → k.mem e.page = k'.mem e.page

theorem SameUser.userByte (h : SameUser d k k') (ha : a < KERNBASE) : userByte k d a = userByte k' d a := by
  unfold Xv6.userByte
  cases he : d.lookup a with
  | none => rfl
  | some e => exact congrFun (h a ha e he) _

theorem SameUser.other (h : SameUser d k k') (hap : Apart d d') {va : Nat} (hva : va < KERNBASE) (l : List UInt8) :
    SameUser d ((d'.lookup va).elim k fun e => k.write e.page (va % PGSIZE) l) k' := fun a ha x hx => by
  rw [← h a ha x hx]
  cases hy : d'.lookup va with
  | none => rfl
  | some y => exact update_of_ne (hap a ha va hva x y hx hy) _ _

theorem SameUser.own (h : SameUser d k k') {va : Nat} (hva : va < KERNBASE) (l : List UInt8) :
    SameUser d ((d.lookup va).elim k fun e => k.write e.page (va % PGSIZE) l)
      ((d.lookup va).elim k' fun e => k'.write e.page (va % PGSIZE) l) := fun a ha x hx => by
  cases hy : d.lookup va with
  | none => exact h a ha x hx
  | some y =>
    simp only [elim_some, Kmem.write, h va hva y hy]
    by_cases hp : x.page = y.page
    · rw [hp, update_self, update_self]
    · rw [update_of_ne hp, update_of_ne hp, h a ha x hx]

/-- Whatever is stored through both directories in whatever order, the one that `who` writes through shows what was
    stored through it alone. -/
theorem stores_sameUser {own : Pgdir} {who : UserStore → Bool} (hown : ∀ s, who s → s.dir parent d = own)
    (hother : ∀ s, ¬who s → Apart own (s.dir parent d)) (l : List UserStore) (h : SameUser own k k') :
    SameUser own (l.foldl (UserStore.run parent d) k) ((l.filter who).foldl (UserStore.run parent d) k') := by
  induction l generalizing k k' with
  | nil => exact h
  | cons s l ih =>
    rw [List.foldl_cons, List.filter_cons]
    by_cases hs : who s
    · rw [if_pos hs, List.foldl_cons, UserStore.run, UserStore.run, hown s hs]
      exact ih (h.own s.lt _)
    · rw [if_neg hs]
      exact ih (h.other (hother s hs) s.lt _)

theorem stores_parent (hap : Apart parent d) (l : List UserStore) (ha : a < KERNBASE) :
    userByte (l.foldl (UserStore.run parent d) k) parent a =
      userByte ((l.filter fun s => !s.child).foldl (UserStore.run parent d) k) parent a := by
  refine (stores_sameUser (fun s hs => ?_) (fun s hs => ?_) l fun _ _ _ _ => rfl).userByte ha
  · rw [UserStore.dir, if_neg (by simpa using hs)]
  · rw [UserStore.dir, if_pos (by simpa using hs)]
    exact hap

theorem stores_child (hap : Apart parent d) (l : List UserStore) (ha : a < KERNBASE) :
    userByte (l.foldl (UserStore.run parent d) k) d a = userByte
    ((l.filter (·.child)).foldl (UserStore.run parent d) k) d a := by
  refine (stores_sameUser (fun s hs => ?_) (fun s hs => ?_) l fun _ _ _ _ => rfl).userByte ha
  · rw [UserStore.dir, if_pos hs]
  · rw [UserStore.dir, if_neg hs]
    exact hap.symm

/-! ### The loop -/

def Pgdir.flagsAt (d : Pgdir) (a : Nat) : Nat := (d.lookup a).elim 0 Pte.flags

def Pgdir.bytesAt (d : Pgdir) (k : Kmem) (a : Nat) : Nat → UInt8 := (d.lookup a).elim (fun _ => 0) fun e => k.mem e.page

theorem copyFrom_returns (huse : ∀ b < KERNBASE, ∀ e, parent.lookup b = some e → e.page ∉ k₀.freelist)
    (hsz : sz < KERNBASE) (hmap : ∀ b, PGSIZE ∣ b → b < sz → (parent.lookup b).isSome) (hw : Within k₀ k d)
    (hl : ∀ b, PGSIZE ∣ b → a ≤ b → b < KERNBASE → d.lookup b = none) (ha : PGSIZE ∣ a) (hn : sz ≤ a + n * PGSIZE) :
    ∃ o k', copyFrom parent sz n k d a = .ok (o, k') ∧ Untouched k₀ k' ∧
      ∀ d', o = some d' → Filled a sz parent.flagsAt (parent.bytesAt k₀) k d k' d' := by
  have hdone : sz ≤ a → ∀ d', some d = some d' → Filled a sz parent.flagsAt (parent.bytesAt k₀) k d k d' :=
    fun hle d' hd => by
    cases hd
    exact .refl hle
  induction n generalizing k d a with
  | zero => exact ⟨some d, k, rfl, hw.untouched, hdone (by omega)⟩
  | succ n ih =>
    rw [Nat.succ_mul] at hn
    rw [copyFrom]
    split
    case isFalse hlt => exact ⟨some d, k, rfl, hw.untouched, hdone (by omega)⟩
    case isTrue hlt =>
    obtain ⟨e, he⟩ := isSome_iff_exists.mp (hmap a ha hlt)
    have haK : a < KERNBASE := by omega
    simp only [Pgdir.pde_of_lookup he, he, Bool.false_eq_true, if_false]
    cases hk : k.kalloc with
    | mk p k1 =>
    cases p with
    | none =>
      have hw1 : Within k₀ k1 d := hw.takes (Kmem.takes_of_none hk) (kalloc_none_allPages hk)
      exact ⟨none, freevm k1 d, rfl, hw1.freevm.2, by simp⟩
    | some mem =>
      -- the parent's page has not been written since the copy began
      have hcopy : k1.memmove mem e.page = { k1 with mem := update k1.mem mem (parent.bytesAt k₀ a) } := by
        rw [Kmem.memmove, Pgdir.bytesAt, he, elim_some, (Kmem.kalloc_some hk).2, hw.untouched _ (huse a haK e he)]
      have hflags : e.flags = parent.flagsAt a := by rw [Pgdir.flagsAt, he, elim_some]
      dsimp only
      rw [hcopy, hflags]
      obtain ⟨r, k2, d2, hr⟩ := mappages_returns (d := d) { k1 with mem := update k1.mem mem (parent.bytesAt k₀ a) } mem
        (parent.flagsAt a) ha haK (hl a ha le_rfl haK)
      have m := mappages_mapped ha haK hr
      have ht : k.Takes k2 := (Kmem.takes_of_some hk _).trans m.takes
      have hp1 : mem ::ₘ allPages k1 d = allPages k d := kalloc_allPages hk
      rw [hr, Except.ok_bind]
      cases r with
      | false =>
        have hw2 : Within k₀ (k2.kfree mem) d2 := by
          refine ⟨?_, fun pg hpg => ?_⟩
          · rw [kfree_allPages, m.pages]
            exact hp1.trans hw.pages
          · have hne : pg ≠ mem := fun h => hw.not_free hpg (by
              rw [h, (Kmem.kalloc_some hk).1]
              exact List.mem_cons_self)
            exact (update_of_ne hne _ _).trans ((ht.mem pg (hw.not_free hpg)).trans (hw.untouched pg hpg))
        exact ⟨none, freevm (k2.kfree mem) d2, rfl, hw2.freevm.2, by simp⟩
      | true =>
        have hw2 : Within k₀ k2 d2 := hw.takes ht (m.pages.trans hp1)
        obtain ⟨o, k', ho, hun, hfill⟩ := ih hw2 (a := a + PGSIZE)
          (fun b hb hab hbK => by
            simp only [PGSIZE] at hab
            rw [m.other b hb (hbK.trans (by decide)) (by omega), hl b hb (by omega) hbK])
          (Nat.dvd_add ha (Nat.dvd_refl _)) (by omega) (fun hle d' hd => by cases hd; exact .refl hle)
        exact ⟨o, k', ho, hun, fun d' hd => .cons ha haK hlt hk m (hfill d' hd)⟩

/-! ### The copy -/

/-- The directory of the child: the parent's pages below the size, each copied to a page that was free. -/
structure Child (k : Kmem) (parent : Pgdir) (sz : Nat) (k' : Kmem) (d : Pgdir) : Prop where
  covers : d.userMap.Covers sz
  copies : ∀ v : UserPage, v.addr < sz → ∃ e pg, parent.userMap v = some e ∧ d.userMap v = some ⟨pg, e.flags⟩ ∧
    k'.mem pg = k.mem e.page
  distinct : ∀ v w x y, d.userMap v = some x → d.userMap w = some y → x.page = y.page → v = w
  pages : allPages k' d = k.freelist

theorem Filled.child {k₁ : Kmem} {d₀ : Pgdir} (hnd : k.freelist.Nodup) (hsz : sz < KERNBASE)
    (hmap : ∀ b, PGSIZE ∣ b → b < sz → (parent.lookup b).isSome) (hw : Within k k₁ d₀)
    (hu : ∀ b, PGSIZE ∣ b → b < KERNBASE → d₀.lookup b = none)
    (hf : Filled 0 sz parent.flagsAt (parent.bytesAt k) k₁ d₀ k' d) : Child k parent sz k' d := by
  have hpages : allPages k' d = k.freelist := hf.pages.trans hw.pages
  have hnd' : d.pages.Nodup := by
    have : (allPages k' d).Nodup := by
      rw [hpages]
      exact coe_nodup.mpr hnd
    exact (nodup_add.mp this).1
  have hnew := hf.new (hw.nodup hnd)
  refine ⟨fun v => ?_, fun v hv => ?_, fun v w x y hx hy hxy => ?_, hpages⟩
  · rw [lt_PGROUNDUP hsz.le v.dvd_addr]
    by_cases hv : v.addr < sz
    · obtain ⟨pg, he, -⟩ := hnew _ v.dvd_addr (Nat.zero_le _) hv
      exact iff_of_true (by rw [Pgdir.userMap, he]; rfl) hv
    · refine iff_of_false ?_ hv
      rw [Pgdir.userMap, hf.old _ v.dvd_addr v.addr_lt_word fun h => hv h.2, hu _ v.dvd_addr v.addr_lt]
      exact nofun
  · obtain ⟨e, he⟩ := isSome_iff_exists.mp (hmap _ v.dvd_addr hv)
    obtain ⟨pg, hpg, -, hb⟩ := hnew _ v.dvd_addr (Nat.zero_le _) hv
    rw [Pgdir.flagsAt, he, elim_some] at hpg
    rw [Pgdir.bytesAt, he, elim_some] at hb
    exact ⟨e, pg, he, hpg, hb⟩
  · exact UserPage.addr_inj (Pgdir.lookup_inj hnd' v.dvd_addr w.dvd_addr v.addr_lt w.addr_lt hx hy hxy)

theorem Child.apart (h : Child k parent sz k' d) {other : Pgdir}
    (huse : ∀ b < KERNBASE, ∀ e, other.lookup b = some e → e.page ∉ k.freelist) : Apart other d :=
  fun a ha b hb x y hx hy hxy => huse a ha x hx (by
    rw [hxy, ← mem_coe, ← h.pages]
    exact mem_add.mpr (.inl (Pgdir.mem_pages_of_lookup hb hy)))

/-- `copyuvm` returns whichever calls of `kalloc` fail, and writes no page that was in use. It returns 0 with the same
    pages free as before, or a directory that maps exactly the pages below the size rounded up, each with the parent's
    flags and bytes and on a page of its own. Whatever is then written through the two, each shows what was written
    through it alone. -/
theorem copyuvm_isolates (es : List Kmap) (hes : KernelTable es) (k : Kmem) (hnd : k.freelist.Nodup) (parent : Pgdir)
    (huse : ∀ b < KERNBASE, ∀ e, parent.lookup b = some e → e.page ∉ k.freelist) (sz : Nat) (hsz : sz < KERNBASE)
    (hmap : ∀ v : UserPage, v.addr < sz → (parent.userMap v).isSome) :
    ∃ o k', copyuvm es k parent sz = .ok (o, k') ∧ (∀ pg ∉ k.freelist, k'.mem pg = k.mem pg) ∧
      (o = none → k'.freelist.Perm k.freelist) ∧ ∀ d, o = some d → Child k parent sz k' d ∧
        (∀ other : Pgdir, (∀ b < KERNBASE, ∀ e, other.lookup b = some e → e.page ∉ k.freelist) → Apart other d) ∧
        ∀ l : List UserStore, ∀ a < KERNBASE, userByte (l.foldl (UserStore.run parent d) k') parent a =
              userByte ((l.filter fun s => !s.child).foldl (UserStore.run parent d) k') parent a ∧
            userByte (l.foldl (UserStore.run parent d) k') d a =
              userByte ((l.filter (·.child)).foldl (UserStore.run parent d) k') d a := by
  have hmap' : ∀ b, PGSIZE ∣ b → b < sz → (parent.lookup b).isSome := fun b hb hlt => by
    obtain ⟨v, rfl⟩ := UserPage.exists_addr hb (hlt.trans hsz)
    exact hmap v hlt
  obtain ⟨o, k₁, hs, hko⟩ := setupkvm_returns hes k
  rw [copyuvm, hs, Except.ok_bind]
  cases o with
  | none =>
    have hp := hko.pages
    rw [dirPages, elim_none, zero_add] at hp
    exact ⟨none, k₁, rfl, hko.untouched, fun _ => coe_eq_coe.mp hp, by simp⟩
  | some d₀ =>
    have hw : Within k k₁ d₀ := ⟨hko.pages, hko.untouched⟩
    have hu := hko.user d₀ rfl
    obtain ⟨o, k', ho, hun, hfill⟩ := copyFrom_returns (n := sz / PGSIZE + 1) huse hsz hmap' hw
      (fun b hb _ hbK => hu b hb hbK) (Nat.dvd_zero _) (by simp only [PGSIZE]; omega)
    refine ⟨o, k', ho, hun, fun hnone => ?_, fun d hd => ?_⟩
    · have hp := (copyFrom_pages (Nat.dvd_zero _) hsz.le ho).trans hw.pages
      rw [hnone, dirPages, elim_none, zero_add] at hp
      exact coe_eq_coe.mp hp
    · have hc := (hfill d hd).child hnd hsz hmap' hw hu
      have hap := hc.apart huse
      exact ⟨hc, fun other => hc.apart, fun l a ha => ⟨stores_parent hap l ha, stores_child hap l ha⟩⟩

theorem copyuvm_isolates_onePage : ∃ k' d,
    copyuvm Memory.smallKmap sixFree onePage.pgdir 4096 = .ok (some d, k') ∧ Child sixFree onePage.pgdir 4096 k' d ∧
      userByte (UserStore.run onePage.pgdir d k' ⟨true, 0, by decide, 9⟩) onePage.pgdir 0 =
      userByte k' onePage.pgdir 0 := by
  have hs : (copyuvm Memory.smallKmap sixFree onePage.pgdir 4096).toOption.map (fun x => x.1.isSome) = some true := by
    decide +kernel
  obtain ⟨o, k', h, -, -, hok⟩ := copyuvm_isolates Memory.smallKmap kernelTable_smallKmap sixFree List.nodup_range'
    onePage.pgdir (fun b hb e he => not_free_of_lookup onePage_proper.nodup hb he) 4096 (by decide)
    (fun v hv => (onePage_covers v).mpr hv)
  rw [h] at hs
  obtain ⟨d, rfl⟩ := isSome_iff_exists.mp (some.inj hs)
  obtain ⟨hc, -, hst⟩ := hok d rfl
  exact ⟨k', d, h, hc, (hst [⟨true, 0, by decide, 9⟩] 0 (by decide)).1⟩

end Xv6
