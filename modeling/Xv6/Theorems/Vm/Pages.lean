import Xv6.Theorems.Vm.Copyout
import Xv6.Theorems.Vm.Sbrk

/-! Who owns a physical page: each function accounts for the pages it takes on every path, so over any run each page
    has exactly one owner. -/

namespace Xv6
open Function Multiset Except Option List

variable {k k' : Kmem} {d d' : Pgdir} {u u' : Uvm} {o : Option Pgdir} {a n i sz oldsz newsz r : Nat}

/-! ### vm.c -/

theorem allocuvm_pages (ho : newsz < oldsz → oldsz < KERNBASE) (h : allocuvm k d oldsz newsz = .ok (r, k', d')) :
    allPages k' d' = allPages k d ∧ r < KERNBASE := by
  unfold allocuvm at h
  split at h
  · cases h
    exact ⟨rfl, by decide⟩
  · next hK =>
    split at h
    · next hlt =>
      cases h
      exact ⟨rfl, ho hlt⟩
    · next hlt =>
      have hn : newsz ≤ PGROUNDUP oldsz + (newsz / PGSIZE + 1) * PGSIZE := by
        simp only [PGSIZE]
        omega
      rcases allocFrom_spec (PGSIZE_dvd_PGROUNDUP oldsz) (by omega) hn (Nat.le_refl _) (by omega) h with
        ⟨rfl, g⟩ | ⟨rfl, g⟩
      · exact ⟨g.pages, by omega⟩
      · exact ⟨g.pages, by decide⟩

def dirPages (o : Option Pgdir) : Multiset Page := o.elim 0 Pgdir.pages

def KernelMap (es : List Kmap) : Prop := ∀ e ∈ es, KERNBASE ≤ e.virt ∧ e.virt < 2 ^ 32

theorem kernelMap_kmap {data : Nat} (h : KERNLINK ≤ data) (h' : data < 2 ^ 32) : KernelMap (kmap data) := by
  have hd : KERNBASE ≤ data := Nat.le_trans (by decide) h
  simp only [KernelMap, kmap, List.forall_mem_cons, not_mem_nil, false_imp_iff, implies_true, and_true]
  exact ⟨by decide, by decide, ⟨hd, h'⟩, by decide⟩

theorem mappages_kernel {va size pg perm : Nat} {b : Bool} (hva : KERNBASE ≤ va) (hva' : va < 2 ^ 32)
    (h : mappages k d va size pg perm = .ok (b, k', d')) : allPages k' d' = allPages k d := by
  refine mapFrom_kernel ?_ ?_ h
  · simp only [PGROUNDDOWN, PGSIZE, KERNBASE] at *
    omega
  · have hlast : PGROUNDDOWN ((va + size - 1) % 2 ^ 32) + PGSIZE ≤ 2 ^ 32 := by
      simp only [PGROUNDDOWN, PGSIZE]
      omega
    have hfirst : PGROUNDDOWN va + PGSIZE ≤ 2 ^ 32 := by
      simp only [PGROUNDDOWN, PGSIZE]
      omega
    simp only [PGSIZE] at *
    omega

variable {es : List Kmap}

theorem mapKernel_pages (hes : KernelMap es) (h : mapKernel es k d = .ok (o, k')) :
    dirPages o + (k'.freelist : Multiset Page) = allPages k d := by
  induction es generalizing k d with
  | nil =>
    cases h
    rfl
  | cons e es ih =>
    have he := hes e mem_cons_self
    rw [mapKernel, bind_eq_ok] at h
    obtain ⟨⟨mapped, k1, d1⟩, hm, h⟩ := h
    rw [← mappages_kernel he.1 he.2 hm]
    cases mapped with
    | true => exact ih (fun e' he' => hes e' (mem_cons_of_mem _ he')) h
    | false =>
      cases h
      rw [dirPages, elim_none, zero_add, freevm_freelist]

theorem allPages_empty {pg : Page} (h : k.kalloc = (some pg, k')) :
    allPages k' ⟨pg, fun _ => none⟩ = (k.freelist : Multiset Page) := by
  have hz : ∑ i, Pgtab.pages i none = 0 := Finset.sum_eq_zero fun _ _ => rfl
  rw [allPages, Pgdir.pages, hz, add_zero, (Kmem.kalloc_some h).1, ← cons_coe, singleton_add]

theorem setupkvm_pages (hes : KernelMap es) (h : setupkvm es k = .ok (o, k')) :
    dirPages o + (k'.freelist : Multiset Page) = k.freelist := by
  unfold setupkvm at h
  split at h
  · next k1 hk =>
    cases h
    rw [(Kmem.kalloc_none hk).1, dirPages, elim_none, zero_add]
  · next pg k1 hk =>
    rw [mapKernel_pages hes h, memset_allPages, allPages_empty hk]

theorem copyFrom_pages {parent : Pgdir} (ha : PGSIZE ∣ a) (hsz : sz ≤ KERNBASE)
    (h : copyFrom parent sz n k d a = .ok (o, k')) : dirPages o + (k'.freelist : Multiset Page) = allPages k d := by
  induction n generalizing k d a with
  | zero =>
    cases h
    rfl
  | succ n ih =>
    rw [copyFrom] at h
    split at h
    · next hlt =>
      split_ifs at h
      split at h
      · cases h
      · next e he =>
        split at h
        · next k1 hk =>
          cases h
          rw [dirPages, elim_none, zero_add, freevm_freelist, kalloc_none_allPages hk]
        · next mem k1 hk =>
          rw [bind_eq_ok] at h
          obtain ⟨⟨mapped, k2, d2⟩, hm, h⟩ := h
          have m := mappages_mapped ha (Nat.lt_of_lt_of_le hlt hsz) hm
          rw [← kalloc_allPages hk, ← memmove_allPages mem e.page]
          cases mapped with
          | true => rw [ih (Nat.dvd_add ha (Nat.dvd_refl _)) h, m.pages, if_pos rfl]
          | false =>
            cases h
            rw [dirPages, elim_none, zero_add, freevm_freelist, kfree_allPages, m.pages]
            rfl
    · cases h
      rfl

theorem copyuvm_pages {parent : Pgdir} (hes : KernelMap es) (hsz : sz ≤ KERNBASE)
    (h : copyuvm es k parent sz = .ok (o, k')) : dirPages o + (k'.freelist : Multiset Page) = k.freelist := by
  rw [copyuvm, bind_eq_ok] at h
  obtain ⟨⟨o1, k1⟩, hs, h⟩ := h
  rw [← setupkvm_pages hes hs]
  cases o1 with
  | none =>
    cases h
    rfl
  | some d1 => exact copyFrom_pages (Nat.dvd_zero _) hsz h

theorem resize_pages {x : Int} (hsz : u.sz < KERNBASE) (hr : r < KERNBASE) (h : u.resize k d r = (x, k', u')) :
    allPages k' u'.pgdir = allPages k d ∧ u'.sz < KERNBASE := by
  unfold Uvm.resize at h
  split at h <;> cases h
  · exact ⟨rfl, hsz⟩
  · exact ⟨rfl, hr⟩

theorem growproc_pages {m x : Int} (hsz : u.sz < KERNBASE) (h : growproc k u m = .ok (x, k', u')) :
    allPages k' u'.pgdir = allPages k u.pgdir ∧ u'.sz < KERNBASE := by
  unfold growproc at h
  split at h
  · rw [bind_eq_ok] at h
    obtain ⟨⟨r, k1, d1⟩, ha, h⟩ := h
    obtain ⟨hp, hr⟩ := allocuvm_pages (fun _ => hsz) ha
    rw [← hp]
    exact resize_pages hsz hr (Except.ok.inj h)
  · split at h
    · have hr : (deallocuvm k u.pgdir u.sz (u.grown m)).1 < KERNBASE := by
        rw [deallocuvm]
        split
        · exact hsz
        · exact Nat.lt_trans (by omega) hsz
      rw [← deallocuvm_pages (k := k) (d := u.pgdir) (u.grown m) hsz.le]
      exact resize_pages hsz hr (Except.ok.inj h)
    · cases h
      exact ⟨rfl, hsz⟩

theorem sysSbrk_pages {m x : Int} (hsz : u.sz < KERNBASE) (h : sysSbrk k u m = .ok (x, k', u')) :
    allPages k' u'.pgdir = allPages k u.pgdir ∧ u'.sz < KERNBASE := by
  rw [sysSbrk, bind_eq_ok] at h
  obtain ⟨⟨y, k1, u1⟩, hg, h⟩ := h
  obtain ⟨rfl, rfl⟩ : k1 = k' ∧ u1 = u' := by
    dsimp only at h
    split at h <;> exact (Prod.mk.inj (Prod.mk.inj (Except.ok.inj h)).2)
  exact growproc_pages hsz hg

/-! ### exec.c -/

section

variable {file : List UInt8} {argv : List (List UInt8)} {addr offset off sp va argc : Nat} {b : Bool}
  {ustack : List Nat} {cur : Pgdir} {log log' : NullReads}

theorem loadFrom_freelist (h : loadFrom d addr file offset sz n k i = .ok (b, k')) : k'.freelist = k.freelist := by
  induction n generalizing k i with
  | zero =>
    cases h
    rfl
  | succ n ih =>
    rw [loadFrom] at h
    split at h
    · dsimp only at h
      generalize (if sz - i < PGSIZE then sz - i else PGSIZE) = m at h
      split at h
      · cases h
      · split at h
        · have hk := ih h
          exact hk
        · cases h
          rfl
    · cases h
      rfl

theorem loaduvm_freelist (h : loaduvm k d addr file offset sz = .ok (b, k')) : k'.freelist = k.freelist := by
  unfold loaduvm at h
  split_ifs at h
  exact loadFrom_freelist h

theorem copyoutFrom_freelist {buf : List UInt8} (h : copyoutFrom cur d n k log va buf = .ok (b, k', log')) :
    k'.freelist = k.freelist := by
  induction n generalizing k va buf log with
  | zero =>
    cases h
    rfl
  | succ n ih =>
    rw [copyoutFrom] at h
    split at h
    · cases h
      rfl
    · rw [bind_eq_ok] at h
      obtain ⟨o, -, h⟩ := h
      cases o with
      | none =>
        cases h
        rfl
      | some pg =>
        have hk := ih h
        exact hk

theorem pushArgs_freelist {x : Option (Nat × List Nat)}
    (h : pushArgs cur d argv argc k log sp ustack = .ok (x, k', log')) : k'.freelist = k.freelist := by
  induction argv generalizing argc k sp ustack log with
  | nil =>
    cases h
    rfl
  | cons arg argv ih =>
    rw [pushArgs] at h
    split at h
    · cases h
      rfl
    · rw [bind_eq_ok] at h
      obtain ⟨⟨copied, k1, log1⟩, hc, h⟩ := h
      have hk1 : k1.freelist = k.freelist := copyoutFrom_freelist hc
      cases copied with
      | true => rw [ih h, hk1]
      | false =>
        cases h
        exact hk1

theorem pushStack_freelist (h : pushStack cur k d sz argv = .ok (b, k', log)) : k'.freelist = k.freelist := by
  rw [pushStack, bind_eq_ok] at h
  obtain ⟨⟨x, k1, log1⟩, hp, h⟩ := h
  rw [← pushArgs_freelist hp]
  cases x with
  | none =>
    cases h
    rfl
  | some x => exact copyoutFrom_freelist h

theorem allPages_congr (h : k'.freelist = k.freelist) : allPages k' d = allPages k d := by
  rw [allPages, allPages, h]

theorem clearpteu_pages (ha : a < 2 ^ 32) (h : clearpteu d a = .ok d') : d'.pages = d.pages := by
  unfold clearpteu at h
  split at h
  · cases h
  · next t ht =>
    split at h
    · cases h
      rfl
    · next e he =>
      cases h
      by_cases hK : a < KERNBASE
      · have hp := Pgdir.pages_setPte (d := d) (e := some { e with flags := e.flags - (e.flags &&& PTE_U) }) hK
          (by simp [ht])
        rw [he] at hp
        exact add_right_cancel hp
      · exact Pgdir.pages_setPte_kernel (Nat.not_lt.mp hK) ha

theorem loadSegments_pages {x : Option Nat} (hsz : sz < KERNBASE)
    (h : loadSegments file n off k d sz = .ok (x, k', d')) :
    allPages k' d' = allPages k d ∧ ∀ z, x = some z → z < KERNBASE := by
  induction n generalizing off k d sz with
  | zero =>
    cases h
    exact ⟨rfl, fun z hz => by cases hz; exact hsz⟩
  | succ n ih =>
    rw [loadSegments] at h
    dsimp only at h
    split at h
    · cases h
      exact ⟨rfl, nofun⟩
    · split at h
      · exact ih hsz h
      · split at h
        · cases h
          exact ⟨rfl, nofun⟩
        · split at h
          · cases h
            exact ⟨rfl, nofun⟩
          · rw [bind_eq_ok] at h
            obtain ⟨⟨z, k1, d1⟩, ha, h⟩ := h
            obtain ⟨hp, hz⟩ := allocuvm_pages (fun _ => hsz) ha
            rw [← hp]
            dsimp only at h
            split at h
            · cases h
              exact ⟨rfl, nofun⟩
            · split at h
              · cases h
                exact ⟨rfl, nofun⟩
              · rw [bind_eq_ok] at h
                obtain ⟨⟨loaded, k2⟩, hl, h⟩ := h
                rw [← allPages_congr (d := d1) (loaduvm_freelist hl)]
                cases loaded with
                | true => exact ih hz h
                | false =>
                  cases h
                  exact ⟨rfl, nofun⟩

theorem makeStack_pages {x : Option Nat} (hsz : sz < KERNBASE) (h : makeStack cur k d sz argv = .ok (x, k', d', log)) :
    allPages k' d' = allPages k d ∧ ∀ z, x = some z → z < KERNBASE := by
  rw [makeStack] at h
  dsimp only at h
  rw [bind_eq_ok] at h
  obtain ⟨⟨z, k1, d1⟩, ha, h⟩ := h
  have hup : PGROUNDUP sz ≤ KERNBASE := by
    simp only [PGROUNDUP, PGSIZE, KERNBASE] at *
    omega
  obtain ⟨hp, hz⟩ := allocuvm_pages (fun hlt => by simp only [PGSIZE, KERNBASE] at *; omega) ha
  rw [← hp]
  dsimp only at h
  split at h
  · cases h
    exact ⟨rfl, by simp⟩
  · rw [bind_eq_ok] at h
    obtain ⟨d2, hc, h⟩ := h
    rw [bind_eq_ok] at h
    obtain ⟨⟨pushed, k2, log2⟩, hs, h⟩ := h
    cases h
    refine ⟨?_, fun w hw => ?_⟩
    · rw [allPages_congr (pushStack_freelist hs), allPages, clearpteu_pages (Nat.mod_lt _ (by decide)) hc, allPages]
    · cases pushed <;> cases hw
      exact hz

theorem makeImage_pages {x : Option Nat} {elf : ElfHdr} (h : makeImage cur k d file elf argv = .ok (x, k', d', log)) :
    allPages k' d' = allPages k d ∧ ∀ z, x = some z → z < KERNBASE := by
  rw [makeImage, bind_eq_ok] at h
  obtain ⟨⟨y, k1, d1⟩, hl, h⟩ := h
  obtain ⟨hp, hy⟩ := loadSegments_pages (by decide) hl
  rw [← hp]
  cases y with
  | none =>
    cases h
    exact ⟨rfl, nofun⟩
  | some z => exact makeStack_pages (hy z rfl) h

end

theorem exec_pages {file : Option (List UInt8)} {argv : List (List UInt8)} {x : Int} (hes : KernelMap es)
    (hsz : u.sz < KERNBASE) (h : exec es k u file argv = .ok (x, k', u', [])) :
    allPages k' u'.pgdir = allPages k u.pgdir ∧ u'.sz < KERNBASE := by
  unfold exec at h
  split at h
  · cases h
    exact ⟨rfl, hsz⟩
  · dsimp only at h
    split at h
    · cases h
      exact ⟨rfl, hsz⟩
    · rw [bind_eq_ok] at h
      obtain ⟨⟨o, k1⟩, hs, h⟩ := h
      have hs := setupkvm_pages hes hs
      cases o with
      | none =>
        cases h
        rw [dirPages, elim_none, zero_add] at hs
        exact ⟨by rw [allPages, allPages, hs], hsz⟩
      | some d =>
        rw [bind_eq_ok] at h
        obtain ⟨⟨y, k2, d2, log⟩, hi, h⟩ := h
        obtain ⟨hp, hy⟩ := makeImage_pages hi
        -- the new image is made of pages that were free
        have hnew : allPages k2 d2 = (k.freelist : Multiset Page) := hp.trans hs
        cases y with
        | none =>
          cases h
          exact ⟨by rw [allPages, freevm_freelist, hnew]; rfl, hsz⟩
        | some z =>
          cases h
          refine ⟨?_, hy z rfl⟩
          rw [allPages, freevm_freelist, allPages, allPages, ← hnew, allPages, add_left_comm]
          rfl

/-! ### Processes and pipes -/

def VmProc.pages (x : VmProc) : Multiset Page :=
  if x.life = .unused then 0 else (x.uvm.elim 0 fun u => u.pgdir.pages) + x.kstack.elim 0 fun pg => {pg}

namespace Memory

variable {P : Type} [DecidableEq P] [Fintype P] {s t : Memory P} {p : P} {x : VmProc}

/-- Every page with its uses: free, in the directory of the kernel or of a process that is not unused (as the directory
    itself, as a table, or mapped below `KERNBASE`), the stack of a CPU or of a process, the buffer of a pipe. -/
def owned (s : Memory P) : Multiset Page :=
  s.kmem.freelist + s.kpgdir.pages + s.cpu + ∑ p, (s.proc p).pages + s.pipe

theorem owned_setProc
    (h : x.pages + (k.freelist : Multiset Page) = (s.proc p).pages + (s.kmem.freelist : Multiset Page)) :
    (s.setProc k p x).owned = s.owned := by
  have hsum := sum_update_exchange (fun _ => VmProc.pages) s.proc p x
  refine add_right_cancel (b := (s.proc p).pages) ?_
  calc (k.freelist + s.kpgdir.pages + s.cpu + ∑ q, (update s.proc p x q).pages + s.pipe : Multiset Page) +
        (s.proc p).pages
      = s.kpgdir.pages + s.cpu + s.pipe + ((∑ q, (update s.proc p x q).pages) + (s.proc p).pages) +
        k.freelist := by abel
    _ = s.kpgdir.pages + s.cpu + s.pipe + (∑ q, (s.proc q).pages) + (x.pages + k.freelist) := by rw [hsum]; abel
    _ = s.owned + (s.proc p).pages := by rw [h, owned]; abel

omit [DecidableEq P] [Fintype P] in
theorem running_eq {u : Uvm} (h : s.running p = .ok u) : (s.proc p).life = .live ∧ (s.proc p).uvm = some u := by
  unfold running at h
  split at h
  · next hl hu =>
    cases h
    exact ⟨hl, hu⟩
  · cases h

structure Inv (given : Multiset Page) (s : Memory P) : Prop where
  owned : s.owned = given
  sz : ∀ p u, (s.proc p).uvm = some u → u.sz < KERNBASE

variable {given : Multiset Page} {es : List Kmap}

theorem Inv.setProc (hi : s.Inv given)
    (h : x.pages + (k.freelist : Multiset Page) = (s.proc p).pages + (s.kmem.freelist : Multiset Page))
    (hsz : ∀ u, x.uvm = some u → u.sz < KERNBASE) : (s.setProc k p x).Inv given := by
  refine ⟨(owned_setProc h).trans hi.owned, fun q u hu => ?_⟩
  by_cases hq : q = p
  · subst hq
    simp only [Memory.setProc, update_self] at hu
    exact hsz u hu
  · simp only [Memory.setProc, update_of_ne hq] at hu
    exact hi.sz q u hu

theorem Inv.setUvm {u u' : Uvm} (hi : s.Inv given) (hr : s.running p = .ok u)
    (h : allPages k u'.pgdir = allPages s.kmem u.pgdir) (hsz : u'.sz < KERNBASE) :
    (s.setProc k p { s.proc p with uvm := some u' }).Inv given := by
  obtain ⟨hl, hu⟩ := running_eq hr
  refine hi.setProc ?_ fun v hv => by cases hv; exact hsz
  rw [VmProc.pages, VmProc.pages, hl, hu]
  simp only [reduceCtorEq, if_false, elim_some]
  rw [add_right_comm, ← allPages, h, allPages, add_right_comm]

theorem fork_inv {np : P} (hes : KernelMap es) (hi : s.Inv given) (h : s.fork es p np = .ok t) : t.Inv given := by
  rw [fork, bind_eq_ok] at h
  obtain ⟨u, hr, h⟩ := h
  have hsz := hi.sz p u (running_eq hr).2
  split_ifs at h with hnp
  have hnp : (s.proc np).life = .unused := not_not.mp hnp
  have h0 : (s.proc np).pages = 0 := by rw [VmProc.pages, if_pos hnp]
  split at h
  · next k1 hk =>
    cases h
    refine hi.setProc ?_ fun v hv => hi.sz np v hv
    rw [h0, VmProc.pages, if_pos hnp, (Kmem.kalloc_none hk).1]
  · next stack k1 hk =>
    rw [bind_eq_ok] at h
    obtain ⟨⟨o, k2⟩, hc, h⟩ := h
    have hc := copyuvm_pages hes hsz.le hc
    have hf := (Kmem.kalloc_some hk).1
    cases o with
    | none =>
      cases h
      refine hi.setProc ?_ nofun
      rw [dirPages, elim_none, zero_add] at hc
      rw [h0, hf, Kmem.kfree_freelist, ← cons_coe, ← cons_coe, hc]
      rfl
    | some d =>
      cases h
      refine hi.setProc ?_ fun v hv => by cases hv; exact hsz
      rw [h0, hf, ← cons_coe, ← hc, ← singleton_add, zero_add]
      simp only [VmProc.pages, reduceCtorEq, if_false, elim_some, dirPages]
      rw [add_assoc, add_left_comm]

omit [DecidableEq P] in
theorem sysPipe_inv {files fds : Bool} (hi : s.Inv given) : (s.sysPipe files fds).Inv given := by
  unfold sysPipe
  split
  · split
    · next k1 hk => exact ⟨by rw [← hi.owned, owned, owned, (Kmem.kalloc_none hk).1], hi.sz⟩
    · next pg k1 hk =>
      have hf := (Kmem.kalloc_some hk).1
      split
      · refine ⟨?_, hi.sz⟩
        rw [← hi.owned, owned, owned, hf, ← cons_coe, ← cons_coe, ← singleton_add,
          ← singleton_add]
        abel
      · exact ⟨by rw [← hi.owned, owned, owned, hf]; rfl, hi.sz⟩
  · exact hi

omit [DecidableEq P] in
theorem pipeclose_inv {i : Nat} (hi : s.Inv given) (h : s.pipeclose i = .ok t) : t.Inv given := by
  unfold pipeclose at h
  split at h
  · cases h
  · next pg hpg =>
    cases h
    refine ⟨?_, hi.sz⟩
    obtain ⟨hlt, rfl⟩ := List.getElem?_eq_some_iff.mp hpg
    have hperm : (s.pipe : Multiset Page) = s.pipe[i] ::ₘ (s.pipe.eraseIdx i : Multiset Page) := by
      rw [cons_coe, coe_eq_coe]
      exact (getElem_cons_eraseIdx_perm hlt).symm
    rw [← hi.owned, owned, owned, hperm, Kmem.kfree_freelist, ← cons_coe, ← singleton_add,
      ← singleton_add]
    abel

theorem wait_inv (hi : s.Inv given) (h : s.wait p = .ok t) : t.Inv given := by
  unfold wait at h
  split at h
  · next u stack hp =>
    cases h
    refine hi.setProc ?_ fun v hv => by cases hv; exact hi.sz p u (by rw [hp])
    rw [hp, freevm_freelist, kfree_allPages]
    simp only [VmProc.pages, reduceCtorEq, if_false, if_true, elim_some, zero_add, allPages]
    rw [← singleton_add]
    abel
  · cases h

/-- No `exec` hands `copyout` an address for which the new directory has no page table. -/
def noNullRead (es : List Kmap) (s : Memory P) : MemCall P → Bool
  | .exec p file argv => ((s.running p).bind fun u => exec es s.kmem u file argv).toOption.all (·.2.2.2.isEmpty)
  | _ => true

theorem call_inv {c : MemCall P} (hes : KernelMap es) (hi : s.Inv given) (hc : noNullRead es s c)
    (h : s.call es c = .ok t) : t.Inv given := by
  cases c with
  | fork p np => exact fork_inv hes hi h
  | exec p file argv =>
    rw [call, sysExec, bind_eq_ok] at h
    obtain ⟨u, hr, h⟩ := h
    rw [bind_eq_ok] at h
    obtain ⟨⟨x, k1, u1, log⟩, he, h⟩ := h
    have hlog : log.isEmpty := by simpa [noNullRead, hr, Except.bind, he, Except.toOption] using hc
    obtain rfl := List.isEmpty_iff.mp hlog
    cases h
    obtain ⟨hp, hsz⟩ := exec_pages hes (hi.sz p u (running_eq hr).2) he
    exact hi.setUvm hr hp hsz
  | sbrk p n =>
    rw [call, sbrk, bind_eq_ok] at h
    obtain ⟨u, hr, h⟩ := h
    rw [bind_eq_ok] at h
    obtain ⟨⟨x, k1, u1⟩, he, h⟩ := h
    cases h
    obtain ⟨hp, hsz⟩ := sysSbrk_pages (hi.sz p u (running_eq hr).2) he
    exact hi.setUvm hr hp hsz
  | pipe files fds =>
    cases h
    exact sysPipe_inv hi
  | pipeclose i => exact pipeclose_inv hi h
  | exit p =>
    rw [call, exit, bind_eq_ok] at h
    obtain ⟨u, hr, h⟩ := h
    cases h
    refine hi.setProc ?_ fun v hv => hi.sz p v hv
    simp only [VmProc.pages, (running_eq hr).1, reduceCtorEq, if_false]
  | wait p => exact wait_inv hi h

/-! ### Boot -/

def tinyElf : List UInt8 :=
  [0x7F, 0x45, 0x4C, 0x46] ++ List.replicate 24 0 ++ [52, 0, 0, 0] ++ List.replicate 12 0 ++ [1, 0] ++
    List.replicate 6 0 ++ [1, 0, 0, 0] ++ List.replicate 12 0 ++ [4, 0, 0, 0] ++ [0, 16, 0, 0] ++ List.replicate 8 0

/-- A small table of kernel mappings: a page of memory and a page of devices. -/
def smallKmap : List Kmap := [⟨KERNBASE, 0, PGSIZE, PTE_W⟩, ⟨DEVSPACE, DEVSPACE, DEVSPACE + PGSIZE, PTE_W⟩]

end Memory

end Xv6
