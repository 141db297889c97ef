import Xv6.Theorems.Vm.Loader

/-! The arguments that `exec` pushes, and where they lie on the new stack. A stack pointer that leaves the stack
    page is not noticed by `exec` itself; the page below makes `copyout` refuse. -/

namespace Xv6
open List Except

variable {k k' k₀ : Kmem} {cur d d' d₀ : Pgdir} {log log' : NullReads} {a b n sp va sz : Nat} {pg : Page}
  {buf file : List UInt8} {l : List ProgHdr}

/-! ### copyout on user bytes -/

theorem userPage_eq_some : d.userPage a = some pg ↔ ∃ e, d.lookup a = some e ∧ e.flags &&& PTE_U ≠ 0 ∧ e.page = pg := by
  unfold Pgdir.userPage
  cases d.lookup a with
  | none => simp
  | some e => by_cases h : e.flags &&& PTE_U = 0 <;> simp [h]

theorem addr_inj {x y : Pte} (hnd : d.pages.Nodup) (ha : a < KERNBASE) (hb : b < KERNBASE) (hx : d.lookup a = some x)
    (hy : d.lookup b = some y) (hp : x.page = y.page) (ho : a % PGSIZE = b % PGSIZE) : a = b := by
  have hra : PGROUNDDOWN a ≤ a := Nat.div_mul_le_self ..
  have hrb : PGROUNDDOWN b ≤ b := Nat.div_mul_le_self ..
  have h := Pgdir.lookup_inj hnd (Nat.dvd_mul_left ..) (Nat.dvd_mul_left ..) (hra.trans_lt ha) (hrb.trans_lt hb)
    ((d.lookup_rounddown a).trans hx) ((d.lookup_rounddown b).trans hy) hp
  simp only [PGROUNDDOWN, PGSIZE] at *
  omega

structure Written (d : Pgdir) (va : Nat) (buf : List UInt8) (k k' : Kmem) : Prop where
  bytes : ∀ a < KERNBASE, userByte k' d a =
    if va ≤ a ∧ a < va + buf.length then buf.getD (a - va) 0 else userByte k d a
  others : ∀ pg ∉ d.pages, k'.mem pg = k.mem pg

theorem Placed.written (h : Placed d va buf k k') (hnd : d.pages.Nodup) (hle : va + buf.length ≤ KERNBASE)
    (hu : AllUser d va buf.length) : Written d va buf k k' := by
  have hreach : ∀ {a i pg o}, a < KERNBASE → i < buf.length → d.Reaches (va + i) pg o → ∀ x, d.lookup a = some x →
      x.page = pg → a % PGSIZE = o → a = va + i := fun ha hi hr x hx hp ho => by
    obtain ⟨e, he, -, hpe⟩ := userPage_eq_some.mp hr.1
    exact addr_inj hnd ha (by omega) hx he (hp.trans hpe.symm) (ho.trans hr.2.symm)
  have hagree : Agrees d va buf := fun i hi j hj pg o hri hrj => by
    obtain ⟨e, he, -, hpe⟩ := userPage_eq_some.mp hri.1
    have := hreach (by omega) hj hrj e he hpe hri.2
    rw [Nat.add_left_cancel this]
  have hc := h.copied hagree
  refine ⟨fun a ha => ?_, fun pg hpg => funext fun o => hc.others pg o fun i hi hr => ?_⟩
  · by_cases hin : va ≤ a ∧ a < va + buf.length
    · rw [if_pos hin]
      have hi : a - va < buf.length := by omega
      have heq : va + (a - va) = a := by omega
      obtain ⟨pg, hpg⟩ := Option.isSome_iff_exists.mp (hu (a - va) hi)
      rw [← hc.bytes (a - va) hi pg (a % PGSIZE) ⟨hpg, by rw [heq]⟩]
      rw [heq] at hpg
      obtain ⟨e, he, -, rfl⟩ := userPage_eq_some.mp hpg
      rw [userByte, he, Option.elim_some]
    · rw [if_neg hin, userByte, userByte]
      cases he : d.lookup a with
      | none => rfl
      | some e =>
        refine hc.others e.page (a % PGSIZE) fun i hi hr => hin ?_
        have := hreach ha hi hr e he rfl rfl
        omega
  · obtain ⟨e, he, -, rfl⟩ := userPage_eq_some.mp hr.1
    exact hpg (Pgdir.mem_pages_of_lookup (by omega) he)

/-! ### The page below the stack -/

/-- The last user page below the size is the stack; user programs do not reach the page below it. -/
structure Guarded (d : Pgdir) (sz : Nat) : Prop where
  two : 2 * PGSIZE ≤ sz
  lt : sz < KERNBASE
  tabled : ∀ a, sz - 2 * PGSIZE ≤ a → a < sz → d.pde (PDX a) ≠ none
  guard : ∀ a, sz - 2 * PGSIZE ≤ a → a < sz - PGSIZE → d.userPage a = none

theorem Guarded.fits (h : Guarded d sz) (hlo : sz - PGSIZE ≤ sp) (hhi : sp ≤ sz) (hn : 0 < n) (hva : va ≤ usub sp n)
    (hva' : usub sp n < va + 4) (hu : Passed d va n) : sz - PGSIZE ≤ va ∧ va + n ≤ sp := by
  have h2 := h.two
  have hK := h.lt
  -- no address of the range is in the page below the stack, directly or past the end of the address space
  have hno : ∀ i < n, ∀ a, (va + i) % 2 ^ 32 = a → sz - 2 * PGSIZE ≤ a → ¬a < sz - PGSIZE := fun i hi a ha hlo hlt => by
    have hpass := hu i hi
    rw [← Nat.add_zero (va + i), ← PDX_mod, ← userPage_mod, ha, Nat.add_zero, h.guard a hlo hlt] at hpass
    cases hpass (h.tabled a hlo (by omega))
  unfold usub at hva hva'
  simp only [KERNBASE, PGSIZE] at *
  by_cases hle : n ≤ sp
  · have hsub : (sp + 2 ^ 32 - n % 2 ^ 32) % 2 ^ 32 = sp - n := by omega
    rw [hsub] at hva hva'
    refine ⟨?_, by omega⟩
    by_contra hlt
    by_cases hin : sz - 2 * 4096 ≤ va
    · exact hno 0 hn va (by omega) hin (by omega)
    · exact hno (sz - 2 * 4096 - va) (by omega) (sz - 2 * 4096) (by omega) le_rfl (by omega)
  · -- the stack pointer has passed 0
    exfalso
    by_cases hin : va < sz - 4096
    · by_cases hin' : sz - 2 * 4096 ≤ va
      · exact hno 0 hn va (by omega) hin' hin
      · exact hno (sz - 2 * 4096 - va) (by omega) (sz - 2 * 4096) (by omega) le_rfl (by omega)
    · exact hno (2 ^ 32 + (sz - 2 * 4096) - va) (by omega) (sz - 2 * 4096) (by omega) le_rfl (by omega)

theorem Guarded.tabled_range (h : Guarded d sz) (hlo : sz - PGSIZE ≤ va) (hhi : va + n ≤ sz) : Tabled d va n :=
  fun i hi _ => h.tabled _ (by have := h.two; omega) (by omega)

/-! ### Pushing -/

def HoldsAt (k : Kmem) (d : Pgdir) (a : Nat) (bytes : List UInt8) : Prop :=
  ∀ i < bytes.length, userByte k d (a + i) = bytes.getD i 0

/-- What has been pushed on the stack, each with its address, the last one at the stack pointer. -/
structure Pushed (d : Pgdir) (sz : Nat) (k₀ : Kmem) (pushed : List (Nat × List UInt8)) (sp : Nat) (k : Kmem) :
    Prop where
  lo : sz - PGSIZE ≤ sp
  hi : sp ≤ sz
  inside : ∀ r ∈ pushed, sp ≤ r.1 ∧ r.1 + r.2.length ≤ sz
  apart : pushed.Pairwise fun r s => s.1 + s.2.length ≤ r.1
  holds : ∀ r ∈ pushed, HoldsAt k d r.1 r.2
  below : ∀ a < sp, userByte k d a = userByte k₀ d a
  others : ∀ pg ∉ d.pages, k.mem pg = k₀.mem pg
  freelist : k.freelist = k₀.freelist

variable {pushed : List (Nat × List UInt8)}

theorem Pushed.nil (d : Pgdir) (sz : Nat) (k : Kmem) : Pushed d sz k [] sz k :=
  ⟨Nat.sub_le .., le_rfl, nofun, .nil, nofun, fun _ _ => rfl, fun _ _ => rfl, rfl⟩

theorem Pushed.push (h : Pushed d sz k₀ pushed sp k) (hg : Guarded d sz) (hnd : d.pages.Nodup) (hbuf : 0 < buf.length)
    (hva : va ≤ usub sp buf.length) (hva' : usub sp buf.length < va + 4)
    (hc : copyout cur k log d va buf = .ok (true, k', log')) :
    va + buf.length ≤ sp ∧ log' = log ∧ Pushed d sz k₀ (pushed ++ [(va, buf)]) va k' := by
  have hfree := copyoutFrom_freelist hc
  have ho := copyout_outcome cur k log d va buf
  obtain ⟨hlo, hhi⟩ := hg.fits h.lo h.hi hbuf hva hva' ((ho.passed hc).2 rfl)
  have hK := hg.lt
  have hspz := h.hi
  rw [hc] at ho
  cases ho with
  | null hno => exact absurd (hg.tabled_range hlo (by omega)) hno
  | copied _ hu hp =>
  have hw := hp.written hnd (by omega) hu
  have hold : ∀ a < KERNBASE, a < va ∨ sp ≤ a → userByte k' d a = userByte k d a := fun a ha hout => by
    rw [hw.bytes a ha, if_neg (by omega)]
  refine ⟨hhi, rfl, hlo, by omega, fun r hr => ?_, ?_, fun r hr => ?_, fun a ha => ?_, fun pg hpg => ?_,
    hfree.trans h.freelist⟩
  · rcases mem_append.mp hr with hr | hr
    · have := h.inside r hr
      omega
    · rw [mem_singleton.mp hr]
      exact ⟨le_rfl, hhi.trans hspz⟩
  · refine pairwise_append.mpr ⟨h.apart, pairwise_singleton .., fun r hr s hs => ?_⟩
    rw [mem_singleton.mp hs]
    exact hhi.trans (h.inside r hr).1
  · rcases mem_append.mp hr with hr | hr
    · have := h.inside r hr
      intro i hi
      rw [hold _ (by omega) (by omega), h.holds r hr i hi]
    · rw [mem_singleton.mp hr]
      intro i hi
      rw [hw.bytes _ (by dsimp only at *; omega), if_pos (by dsimp only at *; omega), Nat.add_sub_cancel_left]
  · rw [hold a (by omega) (.inl ha), h.below a (by omega)]
  · rw [hw.others pg hpg, h.others pg hpg]

variable {argv : List (List UInt8)}

theorem pushArgs_pushed {argc sp' : Nat} {ustack args : List Nat} (hg : Guarded d sz)
    (hnd : d.pages.Nodup) (h : Pushed d sz k₀ pushed sp k)
    (hp : pushArgs cur d argv argc k log sp ustack = .ok (some (sp', args), k', log')) :
    log' = log ∧ sp' = argsSp argv sp ∧ ∃ ptrs : List Nat, args = ustack ++ ptrs ∧ ptrs.length = argv.length ∧
      Pushed d sz k₀ (pushed ++ ptrs.zip (argv.map (· ++ [0]))) sp' k' := by
  induction argv generalizing argc k log sp ustack pushed with
  | nil =>
    cases hp
    exact ⟨rfl, rfl, [], by simp, rfl, by simpa using h⟩
  | cons arg argv ih =>
    rw [pushArgs] at hp
    split at hp
    · cases hp
    rw [bind_eq_ok] at hp
    obtain ⟨⟨copied, k1, log1⟩, hc, hp⟩ := hp
    dsimp only at hp
    cases copied with
    | false => cases hp
    | true =>
      have hlen : (arg ++ [0]).length = arg.length + 1 := by simp
      rw [if_pos rfl] at hp
      have hround : ∀ x : Nat, x / 4 * 4 ≤ x ∧ x < x / 4 * 4 + 4 := fun x => by omega
      obtain ⟨-, rfl, h1⟩ := h.push hg hnd (by omega) (by rw [hlen]; exact (hround _).1)
        (by rw [hlen]; exact (hround _).2) hc
      obtain ⟨hlog, hsp, ptrs, hargs, hl, h2⟩ := ih h1 hp
      refine ⟨hlog, ?_, usub sp (arg.length + 1) / 4 * 4 :: ptrs, by rw [hargs]; simp, by simp [hl], by simpa using h2⟩
      rw [argsSp, foldl_cons]
      exact hsp

def mainWords (esp argc : Nat) (ptrs : List Nat) : List Nat := [0xffffffff, argc, esp + 12] ++ ptrs ++ [0]

theorem wordBytes_length (w : Nat) : (wordBytes w).length = 4 := rfl

theorem length_flatMap_wordBytes (ws : List Nat) : (ws.flatMap wordBytes).length = 4 * ws.length := by
  induction ws with
  | nil => rfl
  | cons w ws ih =>
    rw [flatMap_cons, length_append, ih, wordBytes_length, length_cons]
    omega

theorem pushStack_pushed (hg : Guarded d sz) (hnd : d.pages.Nodup)
    (h : pushStack cur k d sz argv = .ok (true, k', log)) : log = [] ∧
    ∃ ptrs : List Nat, ptrs.length = argv.length ∧ Pushed d sz k (ptrs.zip (argv.map (· ++ [0])) ++
        [(execEsp sz argv, (mainWords (execEsp sz argv) argv.length ptrs).flatMap wordBytes)])
        (execEsp sz argv) k' := by
  rw [pushStack, bind_eq_ok] at h
  obtain ⟨⟨x, k1, log1⟩, hp, h⟩ := h
  cases x with
  | none => cases h
  | some y =>
    obtain ⟨sp, args⟩ := y
    obtain ⟨rfl, rfl, ptrs, hargs, hl, h1⟩ := pushArgs_pushed hg hnd (.nil d sz k) hp
    rw [nil_append] at h1 hargs
    subst hargs
    have hlen : (([0xffffffff, argv.length, usub (argsSp argv sz) ((argv.length + 1) * 4)] ++ args ++ [0]).flatMap
        wordBytes).length = (3 + argv.length + 1) * 4 := by
      rw [length_flatMap_wordBytes]
      simp only [length_append, length_cons, length_nil, hl]
      omega
    obtain ⟨hle, rfl, h2⟩ := h1.push hg hnd (by rw [hlen]; omega) (by rw [hlen]) (by rw [hlen]; omega) h
    -- the stack pointer did not wrap, so the array of pointers is 12 bytes above it
    have harr : usub (argsSp argv sz) ((argv.length + 1) * 4) = execEsp sz argv + 12 := by
      have hK := hg.lt
      have h3 := h1.hi
      rw [hlen] at hle
      unfold execEsp
      unfold usub at hle ⊢
      simp only [KERNBASE] at hK
      omega
    refine ⟨rfl, args, hl, ?_⟩
    rw [harr] at h2
    exact h2

/-! ### The words and the strings -/

theorem HoldsAt.congr {bytes : List UInt8} (h : HoldsAt k d a bytes) (hle : a + bytes.length ≤ KERNBASE)
    (heq : ∀ b < KERNBASE, userByte k' d b = userByte k d b) : HoldsAt k' d a bytes := fun i hi => by
  rw [heq _ (by omega), h i hi]

theorem HoldsAt.append {x y : List UInt8} (h : HoldsAt k d a (x ++ y)) : HoldsAt k d a x ∧
    HoldsAt k d (a + x.length) y := by
  refine ⟨fun i hi => ?_, fun i hi => ?_⟩
  · rw [h i (by rw [length_append]; omega)]
    simp [getD_eq_getElem?_getD, getElem?_append_left hi]
  · rw [Nat.add_assoc, h _ (by rw [length_append]; omega)]
    simp [getD_eq_getElem?_getD, getElem?_append_right]

theorem HoldsAt.load {ws : List Nat} {j w : Nat} (h : HoldsAt k d a (ws.flatMap wordBytes)) (hj : ws[j]? = some w)
    (hw : w < 2 ^ 32) : Bytes.load (userByte k d) (a + 4 * j) = w := by
  induction ws generalizing a j with
  | nil => cases hj
  | cons x ws ih =>
    rw [flatMap_cons] at h
    obtain ⟨h0, h1⟩ := h.append
    cases j with
    | zero =>
      cases hj
      refine (Bytes.load_congr fun i hi => ?_).trans (Bytes.load_store (d := fun _ => 0) hw)
      rw [Nat.mul_zero, Nat.add_zero, h0 i hi, Bytes.store, Bytes.splice,
        if_pos ⟨Nat.le_add_right .., by rw [Bytes.ofWord_length]; omega⟩, Nat.add_sub_cancel_left]
      rfl
    | succ j =>
      rw [wordBytes_length] at h1
      rw [Nat.mul_succ, Nat.add_comm (4 * j), ← Nat.add_assoc]
      exact ih h1 hj

def argRegions (argv : List (List UInt8)) (esp : Nat) (ptrs : List Nat) : List (Nat × List UInt8) :=
  ptrs.zip (argv.map (· ++ [0])) ++ [(esp, (mainWords esp argv.length ptrs).flatMap wordBytes)]

structure ArgStack (k : Kmem) (d : Pgdir) (sz : Nat) (argv : List (List UInt8)) (esp : Nat) (ptrs : List Nat) :
    Prop where
  length : ptrs.length = argv.length
  words : ∀ j w : Nat, (mainWords esp argv.length ptrs)[j]? = some w → Bytes.load (userByte k d) (esp + 4 * j) = w
  strings : ∀ (i p : Nat) (arg : List UInt8), ptrs[i]? = some p → argv[i]? = some arg → HoldsAt k d p (arg ++ [0])
  inside : ∀ r ∈ argRegions argv esp ptrs, sz - PGSIZE ≤ r.1 ∧ r.1 + r.2.length ≤ sz
  apart : (argRegions argv esp ptrs).Pairwise fun r s => s.1 + s.2.length ≤ r.1

theorem Pushed.argStack {esp : Nat} {ptrs : List Nat} (hK : sz < KERNBASE)
    (hl : ptrs.length = argv.length) (h : Pushed d sz k₀ (argRegions argv esp ptrs) esp k)
    (heq : ∀ a < KERNBASE, userByte k' d a = userByte k d a) : ArgStack k' d sz argv esp ptrs := by
  have hin : ∀ r ∈ argRegions argv esp ptrs, sz - PGSIZE ≤ r.1 ∧ r.1 + r.2.length ≤ sz := fun r hr =>
    ⟨h.lo.trans (h.inside r hr).1, (h.inside r hr).2⟩
  have hholds : ∀ r ∈ argRegions argv esp ptrs, HoldsAt k' d r.1 r.2 := fun r hr =>
    (h.holds r hr).congr ((hin r hr).2.trans hK.le) heq
  have hzip : ∀ (i p : Nat) (arg : List UInt8), ptrs[i]? = some p → argv[i]? = some arg →
      (p, arg ++ [0]) ∈ argRegions argv esp ptrs := fun i p arg hp harg =>
    mem_append.mpr (.inl (mem_of_getElem? (i := i) (by
      rw [getElem?_zip_eq_some]
      exact ⟨hp, by rw [getElem?_map, harg]; rfl⟩)))
  have hlast : (esp, (mainWords esp argv.length ptrs).flatMap wordBytes) ∈ argRegions argv esp ptrs :=
    mem_append.mpr (.inr (mem_singleton_self _))
  refine ⟨hl, fun j w hw => (hholds _ hlast).load hw ?_, fun i p arg hp harg => hholds _ (hzip i p arg hp harg), hin,
    h.apart⟩
  -- everything lies below `KERNBASE`, so each word fits
  have hfit := (hin _ hlast).2
  rw [length_flatMap_wordBytes] at hfit
  have hwm : w ∈ mainWords esp argv.length ptrs := mem_of_getElem? hw
  simp only [mainWords, mem_append, mem_cons, not_mem_nil, or_false] at hwm
  simp only [mainWords, length_append, length_cons, length_nil, KERNBASE] at hfit hK
  rcases hwm with ((rfl | rfl | rfl) | hp) | rfl
  · decide
  · omega
  · omega
  · obtain ⟨i, hi, hip⟩ := getElem_of_mem hp
    have hp' : ptrs[i]? = some w := by rw [getElem?_eq_getElem hi, hip]
    have harg : argv[i]? = some (argv.get ⟨i, hl ▸ hi⟩) := by simp
    have := (hin _ (hzip i w _ hp' harg)).2
    simp only [length_append] at this
    omega
  · decide

/-! ### exec -/

theorem PGROUNDUP_of_dvd (ha : PGSIZE ∣ a) (hK : a ≤ KERNBASE) : PGROUNDUP a = a := by
  simp only [PGROUNDUP, PGSIZE, KERNBASE] at *
  omega

theorem Image.roundup (h : Image file k₀ d₀ l k d sz) (hK : PGROUNDUP sz < KERNBASE) :
    Image file k₀ d₀ l k d (PGROUNDUP sz) := by
  have hup : PGROUNDUP (PGROUNDUP sz) = PGROUNDUP sz := PGROUNDUP_of_dvd (PGSIZE_dvd_PGROUNDUP sz) hK.le
  exact ⟨h.toWithin, hK, by rw [hup]; exact h.exact, h.kernel, by rw [hup]; exact h.bytes,
    fun ph hph => (h.inside ph hph).trans (le_PGROUNDUP h.sz_lt.le)⟩

theorem Image.setFlags (h : Image file k₀ d₀ l k d sz) {e : Pte} (hb : PGSIZE ∣ b) (hbK : b < KERNBASE)
    (he : d.lookup b = some e) (f : Nat) : Image file k₀ d₀ l k (d.setPte b (some { e with flags := f })) sz := by
  have hpde : d.pde (PDX b) ≠ none := fun h0 => by
    rw [Pgdir.lookup_of_pde_none h0] at he
    cases he
  have h32 : ∀ {c}, c < KERNBASE → c < 2 ^ 32 := fun hc => hc.trans (by decide)
  have hl : ∀ c, PGSIZE ∣ c → c < 2 ^ 32 → (d.setPte b (some { e with flags := f })).lookup c =
      if c = b then some { e with flags := f } else d.lookup c := fun c hc hc' =>
    Pgdir.lookup_setPte hb hc (h32 hbK) hc' hpde
  refine ⟨⟨?_, h.untouched⟩, h.sz_lt, fun c hc hcK => ?_, fun c hc hcK hc' => ?_, fun a ha => ?_, h.inside⟩
  · have hp := Pgdir.pages_setPte (e := some { e with flags := f }) hbK hpde
    rw [he] at hp
    rw [← h.pages, allPages, allPages, add_right_cancel hp]
  · rw [← h.exact c hc hcK, hl c hc (h32 hcK)]
    split
    · next hcb => rw [hcb, he]; rfl
    · rfl
  · rw [hl c hc hc', if_neg (by omega), h.kernel c hc hcK hc']
  · have haK : a < KERNBASE := ha.trans_le (PGROUNDUP_le h.sz_lt.le le_rfl)
    have hround : PGROUNDDOWN a ≤ a := Nat.div_mul_le_self ..
    rw [← h.bytes a ha, userByte, userByte, ← Pgdir.lookup_rounddown, ← d.lookup_rounddown a,
      hl (PGROUNDDOWN a) (Nat.dvd_mul_left ..) (h32 (hround.trans_lt haK))]
    split
    · next hab => rw [hab, he]; rfl
    · rfl

theorem clearpteu_user {pg : Page} (h : d.lookup a = some ⟨pg, PTE_W ||| PTE_U⟩) :
    clearpteu d a = .ok (d.setPte a (some ⟨pg, PTE_W⟩)) ∧
      (d.setPte a (some ⟨pg, PTE_W⟩)).lookup a = some ⟨pg, PTE_W⟩ := by
  have hpde : d.pde (PDX a) ≠ none := fun h0 => by
    rw [Pgdir.lookup_of_pde_none h0] at h
    cases h
  refine ⟨?_, Pgdir.lookup_setPte_self hpde⟩
  unfold clearpteu
  split
  · next h0 => exact absurd h0 hpde
  · simp only [h, show (PTE_W ||| PTE_U) - ((PTE_W ||| PTE_U) &&& PTE_U) = PTE_W by decide]

theorem makeStack_guarded {z : Nat} (hnd : k₀.freelist.Nodup) (h : Image file k₀ d₀ l k d sz)
    (hm : makeStack cur k d sz argv = .ok (some z, k', d', log)) :
    ∃ k1, Image file k₀ d₀ l k1 d' z ∧ Guarded d' z ∧ pushStack cur k1 d' z argv = .ok (true, k', log) ∧
      ∃ e, d'.lookup (z - 2 * PGSIZE) = some e ∧ e.flags &&& PTE_U = 0 := by
  have hupK : PGROUNDUP sz ≤ KERNBASE := PGROUNDUP_le h.sz_lt.le le_rfl
  have hdvd := PGSIZE_dvd_PGROUNDUP sz
  have hnew : (PGROUNDUP sz + 2 * PGSIZE) % 2 ^ 32 = PGROUNDUP sz + 2 * PGSIZE := by
    simp only [KERNBASE, PGSIZE] at *
    omega
  rw [makeStack] at hm
  dsimp only at hm
  rw [hnew] at hm
  generalize hz : PGROUNDUP sz + 2 * PGSIZE = newsz at hm
  by_cases hK : KERNBASE ≤ newsz
  · rw [allocuvm, if_pos hK] at hm
    cases hm
  have hi := h.roundup (by omega)
  have hnone : ∀ b, PGSIZE ∣ b → PGROUNDUP sz ≤ b → b < newsz → d.lookup b = none := fun b hb hle hlt => by
    have hno := mt (h.exact b hb (by omega)).mp (by omega)
    simpa using hno
  obtain ⟨r, k1, d1, hr, ⟨rfl, g⟩ | ⟨rfl, -⟩⟩ := allocuvm_returns k (Nat.not_le.mp hK) (by omega) hnone
  · have hi1 := hi.grow hnd (by omega) (by omega) g
    have hup : PGROUNDUP (PGROUNDUP sz) = PGROUNDUP sz := PGROUNDUP_of_dvd hdvd hupK
    obtain ⟨pg, hpg, -⟩ := g.new (h.nodup hnd) (PGROUNDUP sz) hdvd hup.le (by simp only [PGSIZE] at hz; omega)
    have hg : usub r (2 * PGSIZE) = PGROUNDUP sz := by
      simp only [usub, PGSIZE, KERNBASE] at *
      omega
    obtain ⟨hclear, hself⟩ := clearpteu_user hpg
    rw [hr, ok_bind] at hm
    dsimp only at hm
    rw [if_neg (by simp only [PGSIZE] at hz; omega), hg, hclear, ok_bind, bind_eq_ok] at hm
    obtain ⟨⟨pushed, k2, log2⟩, hp, hm⟩ := hm
    cases pushed with
    | false => cases hm
    | true =>
      cases hm
      have hi2 := hi1.setFlags hdvd (by omega) hpg PTE_W
      have hW : PTE_W &&& PTE_U = 0 := by decide
      have hzeq : z - 2 * PGSIZE = PGROUNDUP sz := by omega
      have hdr : PGSIZE ∣ z := hz ▸ Nat.dvd_add hdvd (Nat.dvd_mul_left ..)
      refine ⟨k1, hi2, ⟨by omega, by omega, fun a hlo hhi => ?_, fun a hlo hhi => ?_⟩, hp, ⟨pg, PTE_W⟩,
        by rw [hzeq]; exact hself, hW⟩
      · have hround : PGROUNDDOWN a ≤ a := Nat.div_mul_le_self ..
        have hsome := (hi2.exact (PGROUNDDOWN a) (Nat.dvd_mul_left ..) (by omega)).mpr (by
          rw [PGROUNDUP_of_dvd hdr (by omega)]
          omega)
        rw [Pgdir.lookup_rounddown] at hsome
        intro h0
        rw [Pgdir.lookup_of_pde_none h0] at hsome
        cases hsome
      · have hround : PGROUNDDOWN a = PGROUNDUP sz := by
          simp only [PGROUNDDOWN, PGSIZE] at *
          omega
        rw [Pgdir.userPage, ← Pgdir.lookup_rounddown, hround, hself, Option.bind_some, if_pos hW]
  · rw [hr, ok_bind] at hm
    cases hm

theorem freevm_keeps {old : Pgdir} (hnd : (allPages k₀ old).Nodup) (hp : allPages k d = k₀.freelist)
    (ha : a < KERNBASE) : userByte (freevm k old) d a = userByte k d a := by
  unfold userByte
  cases he : d.lookup a with
  | none => rfl
  | some e =>
    have hmem := Pgdir.mem_pages_of_lookup ha he
    have hnd' : (allPages k d).Nodup := by
      rw [hp]
      exact (Multiset.nodup_add.mp hnd).2.1
    refine congrFun ((freevm_gives k old).mem e.page fun hf => ?_) _
    rw [← Multiset.mem_coe, freevm_freelist, allPages, Multiset.mem_add] at hf
    rcases hf with hf | hf
    · refine not_free_of_mem hnd hf ?_
      rw [← Multiset.mem_coe, ← hp]
      exact Multiset.mem_add.mpr (.inl hmem)
    · exact not_free_of_mem hnd' hmem (Multiset.mem_coe.mp hf)

/-- When `exec` succeeds, the program finds at its stack pointer a return address that is none, the number of its
    arguments and the address of the array of pointers to them, which ends with 0. All of it lies in the last page below
    the size, no two parts at one address. User programs do not reach the page below, and below that are the segments as
    they were loaded. Nothing was read through the null pointer. -/
theorem exec_passes_arguments (es : List Kmap) (hes : KernelTable es) (k : Kmem) (u : Uvm)
    (hnd : (allPages k u.pgdir).Nodup)
    (file : List UInt8) (hfile : file.length < 2 ^ 32) (argv : List (List UInt8)) (k' : Kmem) (u' : Uvm)
    (log : NullReads) (h : exec es k u (some file) argv = .ok (0, k', u', log)) :
    log = [] ∧ (∃ ptrs, ArgStack k' u'.pgdir u'.sz argv (execEsp u'.sz argv) ptrs) ∧
      (∃ e, u'.pgdir.lookup (u'.sz - 2 * PGSIZE) = some e ∧ e.flags &&& PTE_U = 0) ∧
      ∀ a < u'.sz - 2 * PGSIZE, userByte k' u'.pgdir a = imageByte file
        (segments file (ElfHdr.ofBytes (fileRead file 0 ElfHdr.size)).phnum
          (ElfHdr.ofBytes (fileRead file 0 ElfHdr.size)).phoff) a := by
  have hfree : k.freelist.Nodup := Multiset.coe_nodup.mp (Multiset.nodup_add.mp hnd).2.1
  rw [exec] at h
  split at h
  · cases h
  obtain ⟨o, k1, hs, hko⟩ := setupkvm_returns hes k
  rw [hs, ok_bind] at h
  cases o with
  | none => cases h
  | some d₀ =>
    obtain ⟨x, k2, d2, hx, -, himg⟩ := loadSegments_returns hfile hfree hko.image
      (ElfHdr.ofBytes (fileRead file 0 ElfHdr.size)).phnum (ElfHdr.ofBytes (fileRead file 0 ElfHdr.size)).phoff
    dsimp only at h
    rw [makeImage, hx, ok_bind] at h
    cases x with
    | none => cases h
    | some sz =>
      rw [bind_eq_ok] at h
      obtain ⟨⟨y, k3, d3, log1⟩, hm, h⟩ := h
      cases y with
      | none => cases h
      | some z =>
        cases h
        obtain ⟨k4, hi, hg, hp, hguard⟩ := makeStack_guarded hfree (himg sz rfl) hm
        obtain ⟨rfl, ptrs, hl, hpush⟩ := pushStack_pushed hg (Multiset.nodup_add.mp (hi.nodup hfree)).1 hp
        have hkeep : ∀ a < KERNBASE, userByte (freevm k3 (u.pgdir.overwritten [])) d3 a = userByte k3 d3 a :=
          fun a ha =>
          freevm_keeps hnd ((allPages_congr hpush.freelist).trans hi.pages) ha
        refine ⟨rfl, ⟨ptrs, hpush.argStack hg.lt hl hkeep⟩, hguard, fun a ha => ?_⟩
        have hlo := hpush.lo
        have hK := hg.lt
        dsimp only at ha
        rw [hkeep a (by omega), hpush.below a (by simp only [PGSIZE] at *; omega),
          hi.bytes a (lt_of_lt_of_le (by omega) (le_PGROUNDUP hK.le)), nil_append]

def noPages : Uvm := ⟨⟨1, fun _ => none⟩, 0⟩

theorem exec_passes_arguments_two : ∃ k' u' ptrs,
    exec Memory.smallKmap twelveFree noPages (some Memory.tinyElf) [[0x6c, 0x73], [0x2d, 0x6c]] =
      .ok (0, k', u', []) ∧ ArgStack k' u'.pgdir 0x3000 [[0x6c, 0x73], [0x2d, 0x6c]] 0x2fe0 ptrs := by
  have h : (exec Memory.smallKmap twelveFree noPages (some Memory.tinyElf) [[0x6c, 0x73], [0x2d, 0x6c]]).toOption.map
      (fun r => decide (r.1 = 0 ∧ r.2.2.1.sz = 0x3000)) = some true := by decide +kernel
  obtain ⟨⟨r, k', u', log⟩, hr, hd⟩ := Option.map_eq_some_iff.mp h
  obtain ⟨rfl, hsz⟩ : r = 0 ∧ u'.sz = 0x3000 := of_decide_eq_true hd
  have hr := toOption_eq_some.mp hr
  have hnd : (allPages twelveFree noPages.pgdir).Nodup := by
    have hall : allPages twelveFree noPages.pgdir = (range' 1 13 : List Page) :=
      allPages_empty (k := ⟨range' 1 13, fun _ _ => 0, fun _ => false⟩) rfl
    rw [hall]
    exact Multiset.coe_nodup.mpr nodup_range'
  obtain ⟨rfl, ⟨ptrs, hs⟩, -⟩ := exec_passes_arguments _ kernelTable_smallKmap _ _ hnd _ (by decide) _ k' u' log hr
  refine ⟨k', u', ptrs, hr, ?_⟩
  rw [hsz] at hs
  exact hs

end Xv6
