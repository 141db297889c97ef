import Xv6.Theorems.Fs.Holder

/-! Allocating and freeing inodes keeps the invariant. -/

namespace Xv6

variable {sb : Superblock} {d : Disk} {ip : Dinode} {x y k : Nat}

namespace Disk

theorem Ok.iupdate_empty (h : d.Ok sb) (hold : ∀ k ≤ NDIRECT, (d.dinode x).addrs k = 0)
    (hnew : ∀ k ≤ NDIRECT, ip.addrs k = 0) (hsize : ip.size = 0) : (d.iupdate x ip).Ok sb := by
  have hx : (d.iupdate x ip).dinode x = ip := by simp [iupdate]
  have hy : ∀ y ≠ x, (d.iupdate x ip).dinode y = d.dinode y := fun y hy => by simp [iupdate, hy]
  have hown : (d.iupdate x ip).own = d.own := by
    funext z
    obtain ⟨y, k⟩ := z
    by_cases hyx : y = x
    · subst hyx
      rw [own_iupdate_self, slot_no_addrs hnew]
      exact (slot_no_addrs hold).symm
    · rw [own_iupdate_ne hyx]
      rfl
  refine ⟨⟨by rw [hown]; exact h.sound.owns, h.sound.meta_used⟩, fun y hfree k hk => ?_, fun y hty bn hbn => ?_,
    fun y hty => ?_⟩
  · by_cases hyx : y = x
    · subst hyx
      rw [hx]
      exact hnew k hk
    · rw [hy y hyx] at hfree ⊢
      exact h.free y hfree k hk
  · by_cases hyx : y = x
    · subst hyx
      rw [hx, hsize]
      simpa using (Dinode.slot_block_none hbn).mp (slot_no_addrs hnew)
    · rw [hy y hyx] at hty ⊢
      exact h.filled y hty bn hbn
  · by_cases hyx : y = x
    · subst hyx
      rw [hx, hsize]
      exact Nat.zero_le _
    · rw [hy y hyx] at hty ⊢
      exact h.size_le y hty

theorem Ok.itrunc_free (h : d.Ok sb) (x : Nat) :
    ∃ m, itrunc d (d.dinode x) = .ok ({ d.dinode x with size := 0, addrs := fun _ => 0 }, { d with bitmap := m }) ∧
      ({ d with bitmap := m }.iupdate x { d.dinode x with type := .free, size := 0, addrs := fun _ => 0 }).Ok sb := by
  obtain ⟨m, hm, hs⟩ := itrunc_ok (show (d.iupdate x (d.dinode x)).Sound sb by rw [iupdate_self]; exact h.sound)
  obtain ⟨d₁, hd₁⟩ : ∃ e : Disk, e =
    { d with bitmap := m }.iupdate x { d.dinode x with size := 0, addrs := fun _ => 0 } := ⟨_, rfl⟩
  have hx : d₁.dinode x = { d.dinode x with size := 0, addrs := fun _ => 0 } := by rw [hd₁]; simp [iupdate]
  have hy : ∀ y ≠ x, d₁.dinode y = d.dinode y := fun y hy => by rw [hd₁]; simp [iupdate, hy]
  have hdata : d₁.data = d.data := by rw [hd₁]; rfl
  have hok : d₁.Ok sb := by
    refine ⟨by rw [hd₁]; exact hs, fun y hfree k hk => ?_, fun y hty bn hbn => ?_, fun y hty => ?_⟩
    · by_cases hyx : y = x
      · subst hyx
        rw [hx]
      · rw [hy y hyx] at hfree ⊢
        exact h.free y hfree k hk
    · by_cases hyx : y = x
      · subst hyx
        rw [hx]
        have : { d.dinode y with size := 0, addrs := fun _ => 0 }.blockAt d₁.data bn = 0 :=
          (Dinode.slot_block_none hbn).mp (slot_no_addrs fun _ _ => rfl)
        simp [this]
      · rw [hy y hyx] at hty ⊢
        rw [hdata]
        exact h.filled y hty bn hbn
    · by_cases hyx : y = x
      · subst hyx
        rw [hx]
        exact Nat.zero_le _
      · rw [hy y hyx] at hty ⊢
        exact h.size_le y hty
  refine ⟨m, hm, ?_⟩
  have : (d₁.iupdate x { d.dinode x with type := .free, size := 0, addrs := fun _ => 0 }).Ok sb :=
    hok.iupdate_empty (by rw [hx]; simp) (by simp) rfl
  rwa [hd₁, iupdate_iupdate] at this

end Disk

namespace Fs

variable {P : Type} {s t : Fs P} {p q : P} {i j : Fin NINODE} {type : InodeType} {e : Halt} {c : Prop}

def freed (s : Fs P) (i : Fin NINODE) (m : Nat → Bool) : Fs P :=
  { s.setInode i { s.icache i with
      d := { (s.icache i).d with type := .free, size := 0, addrs := fun _ => 0 }, valid := false } with
    disk := { s.disk with bitmap := m }.iupdate (s.icache i).inum
      { (s.icache i).d with type := .free, size := 0, addrs := fun _ => 0 } }

theorem freed_icache (s : Fs P) (i j : Fin NINODE) (m : Nat → Bool) :
    ((s.freed i m).icache j).inum = (s.icache j).inum ∧ ((s.freed i m).icache j).ref = (s.icache j).ref ∧
      ((s.freed i m).icache j).lock = (s.icache j).lock := by
  by_cases hj : j = i
  · subst hj
    simp [freed, setInode]
  · simp [freed, setInode, hj]

theorem freed_icache_ne (m : Nat → Bool) (hj : j ≠ i) : (s.freed i m).icache j = s.icache j := by
  simp [freed, setInode, hj]

theorem freed_dinode (m : Nat → Bool) (hx : x ≠ (s.icache i).inum) : (s.freed i m).disk.dinode x = s.disk.dinode x := by
  simp [freed, Disk.iupdate, hx]

theorem freed_type (s : Fs P) (i : Fin NINODE) (m : Nat → Bool) :
    ((s.freed i m).disk.dinode (s.icache i).inum).type = .free := by
  simp [freed, Disk.iupdate]

theorem iallocTry_inv {b : Bool} (hr : s.iallocTry type x = .ok (b, t)) :
    b = false ∧ t = s ∨ b = true ∧ (s.disk.dinode x).type = .free ∧
      t = { s with
        disk := s.disk.iupdate x { type, major := 0, minor := 0, nlink := 0, size := 0, addrs := fun _ => 0 }
        born := Function.update s.born x s.clock
        clock := s.clock + 1 } := by
  unfold iallocTry at hr
  split at hr
  · rename_i hf
    cases hr
    exact .inr ⟨rfl, hf, rfl⟩
  · cases hr
    exact .inl ⟨rfl, rfl⟩

section

variable [Fintype P]

theorem iputTest_inv (h : InvIf c sb s) (hr : s.iputTest i = .ok ((), t)) :
    (s.icache i).lock = none ∧
      (t = s ∧ ¬((s.icache i).valid = true ∧ (s.icache i).d.nlink = 0 ∧ (s.icache i).ref = 1) ∨
        (s.icache i).valid = true ∧ (s.icache i).d.nlink = 0 ∧ (s.icache i).ref = 1 ∧
        ∃ m, t = s.freed i m ∧ t.disk.Ok sb) := by
  unfold iputTest at hr
  simp only at hr
  split at hr
  · cases hr
  rename_i hl
  refine ⟨by simpa using hl, ?_⟩
  split at hr
  · rename_i hc
    obtain ⟨hv, hn, h1⟩ := hc
    obtain ⟨hcopy, -⟩ := h.copy i (by omega) hv
    obtain ⟨m, hm, hok⟩ := h.disk.itrunc_free (s.icache i).inum
    rw [hcopy, hm, Except.ok_bind] at hr
    cases hr
    refine .inr ⟨hv, hn, h1, m, ?_, hok⟩
    unfold freed
    rw [hcopy]
  · rename_i hc
    cases hr
    exact .inl ⟨rfl, hc⟩

theorem iputTest_error (h : InvIf c sb s) (hr : s.iputTest i = .error e) :
    e = .wait .iput i ∧ (s.icache i).lock ≠ none := by
  unfold iputTest at hr
  simp only at hr
  split at hr
  · rename_i hl
    cases hr
    exact ⟨rfl, Option.isSome_iff_ne_none.mp hl⟩
  split_ifs at hr with hc
  obtain ⟨hv, hn, h1⟩ := hc
  obtain ⟨hcopy, -⟩ := h.copy i (by omega) hv
  obtain ⟨m, hm, -⟩ := h.disk.itrunc_free (s.icache i).inum
  rw [hcopy, hm, Except.ok_bind] at hr
  cases hr

theorem freed_typeOf (h : InvIf c sb s) (m : Nat → Bool) (hi : 0 < (s.icache i).ref) (hj : j ≠ i)
    (hr : 0 < (s.icache j).ref) : (s.freed i m).typeOf j = s.typeOf j := by
  unfold typeOf
  rw [(freed_icache s i j m).1, freed_dinode m fun hx => hj (h.uniq j i hr hi hx)]

theorem freed_ent (m : Nat → Bool) (h : InvIf c sb s) (hx : x ≠ (s.icache i).inum) :
    (s.freed i m).disk.ent x k = s.disk.ent x k :=
  Disk.ent_congr h.disk (freed_dinode m hx) fun _ _ _ => rfl

theorem freed_keep (h : InvIf c sb s) (h1 : (s.icache i).ref = 1) (m : Nat → Bool)
    {H : Fin NINODE → Prop} (hH : ∀ j, H j → j ≠ i ∧ 0 < (s.icache j).ref) : Keep q H s (s.freed i m) where
  inum j _ := (freed_icache s i j m).1
  alive j hj ha := by rwa [freed_typeOf h m (by omega) (hH j hj).1 (hH j hj).2]
  inode x hx := by
    refine .inl ⟨?_, rfl⟩
    rw [freed_dinode m]
    rintro rfl
    exact hx (freed_type s i m)
  clock := le_rfl
  file _ _ _ := .refl _

theorem freed_spares (h : InvIf c sb s) (hi : i ∈ s.held p) (h1 : (s.icache i).ref = 1) (hv : (s.icache i).valid = true)
    {m : Nat → Bool} (hok : (s.freed i m).disk.Ok sb) : Spares p s (s.freed i m) where
  inum j _ := (freed_icache s i j m).1
  dinode x _ := by
    by_cases hx : x = (s.icache i).inum
    · exact .inr ⟨i, hx.symm, h.ref_pos (.inl hi), hv, .inr ⟨hi, h1⟩⟩
    · exact .inl (freed_dinode m hx)
  data _ _ _ _ := .inl rfl
  blocks x hx k b hb := by
    have hne : x ≠ (s.icache i).inum := fun hc => hx i hi hc.symm h1
    have : (s.freed i m).disk.own (x, k) = some b := by
      unfold Disk.own
      rw [freed_dinode m hne]
      exact hb
    exact hok.sound.owns.used_of_own this
  target _ := .inl

theorem iallocTry_step (h : InvIf c sb s) {b : Bool} (hr : s.iallocTry type x = .ok (b, t)) :
    Step c sb p (· ∈ s.held p) s t ∧ t.held = s.held ∧ t.icache = s.icache ∧
      (b = true → (∀ y ≠ x, t.born y < t.born x)) := by
  rcases iallocTry_inv hr with ⟨rfl, rfl⟩ | ⟨rfl, hf, ht⟩
  · have hq : Quiet t t := ⟨fun _ _ => rfl, fun _ => rfl, rfl, rfl, fun _ _ _ _ => .refl _⟩
    exact ⟨⟨h, hq.guar h (fun _ _ => ⟨rfl, fun _ => Iff.rfl, .inl rfl⟩) (h.spares rfl (fun _ _ => rfl) fun _ => .inl),
      rfl, hq.keep fun _ => h.ref_pos⟩, rfl, rfl, by simp⟩
  have hic : t.icache = s.icache := by rw [ht]
  have hheld : t.held = s.held := by rw [ht]
  have hproc : t.proc = s.proc := by rw [ht]
  have hft : t.ftable = s.ftable := by rw [ht]
  have hdy : ∀ y ≠ x, t.disk.dinode y = s.disk.dinode y := fun y hy => by rw [ht]; simp [Disk.iupdate, hy]
  have hby : ∀ y ≠ x, t.born y = s.born y := fun y hy => by rw [ht]; simp [hy]
  have hbx : t.born x = s.clock := by rw [ht]; simp
  have htypeOf : ∀ j, s.typeOf j ≠ .free → t.typeOf j = s.typeOf j := fun j hj => by
    unfold typeOf at hj ⊢
    rw [hic, hdy]
    rintro hx
    exact hj (hx ▸ hf)
  have hent : ∀ y k, t.disk.ent y k = if y = x then none else s.disk.ent y k := by
    intro y k
    split
    · rename_i hy
      subst hy
      rw [ht]
      simp [Disk.ent, Disk.iupdate]
    · rename_i hy
      exact Disk.ent_congr h.disk (hdy y hy) (by rw [ht]; intros; rfl)
  have hkeep : ∀ q, Keep q (fun j => j ∈ s.held q ∨ s.FileRef q j) s t := fun q => by
    refine ⟨fun j _ => by rw [hic], fun j _ hj => by rwa [htypeOf j hj], fun y hy => ?_, by rw [ht]; simp,
      fun _ _ _ => by rw [hft]; exact .refl _⟩
    by_cases hyx : y = x
    · subst hyx
      exact .inr ⟨hf, hbx.ge⟩
    · exact .inl ⟨by rw [hdy y hyx], hby y hyx⟩
  have hspares : Spares p s t := by
    refine ⟨fun j _ => by rw [hic], fun y hy => .inl (hdy y ?_), fun _ _ _ _ => .inl (by rw [ht]; rfl),
      fun y _ k b hb => ?_, fun j => .inl ∘ (Target.congr hft hproc).mp⟩
    · rintro rfl
      exact hy hf
    · rw [show t.disk.bitmap = s.disk.bitmap by rw [ht]; rfl]
      exact h.disk.sound.owns.used_of_own (x := (y, k)) hb
  refine ⟨⟨⟨?_, fun a b => ?_, fun a => ?_, fun a ha hv => ?_, fun a => ?_, fun a q => ?_, fun f => ?_, fun f => ?_,
    fun f => ?_, fun hc f hty hw => ?_, fun hc y k n z he hn1 hn2 hz => ?_, fun y => ?_⟩, ⟨fun q _ => ⟨by rw [hheld],
    fun j => by rw [hic], .inl (by rw [hproc])⟩, fun q _ => hkeep q, hspares⟩, by rw [hproc], hkeep p⟩, hheld, hic,
    fun _ y hy => ?_⟩
  · rw [ht]
    exact h.disk.iupdate_empty (h.disk.free x hf) (by simp) rfl
  · rw [hic]
    exact h.uniq a b
  · rw [hic]
    exact h.inum_lt a
  · rw [hic] at ha hv ⊢
    obtain ⟨hc, hne⟩ := h.copy a ha hv
    rw [htypeOf a hne, hdy]
    · exact ⟨hc, hne⟩
    · rintro hx
      exact hne (by unfold typeOf; rw [hx]; exact hf)
  · rw [hic, fileRefs_congr hft, cwdRefs_congr hproc, heldRefs_congr hheld]
    exact h.refs a
  · unfold FileRef
    rw [hic, hheld, hproc, hft]
    exact h.locked a q
  · rw [hft, slotRefs_congr hproc]
    exact h.files f
  · rw [hft]
    exact h.unused f
  · rw [hft]
    exact h.opening f
  · rw [hft] at hty hw ⊢
    have := h.writable hc f hty hw
    rwa [htypeOf]
    rcases this with h' | h' <;> rw [h'] <;> simp
  · rw [hent] at he
    split_ifs at he with hy
    rw [hby y hy]
    by_cases hzx : z = x
    · subst hzx
      rw [hbx]
      exact h.born_lt y
    · rw [hdy z hzx] at hz
      rw [hby z hzx]
      exact h.order hc y k n z he hn1 hn2 hz
  · rw [show t.clock = s.clock + 1 by rw [ht]]
    by_cases hy : y = x
    · subst hy
      rw [hbx]
      omega
    · rw [hby y hy]
      have := h.born_lt y
      omega
  · rw [hbx, hby y hy]
    exact h.born_lt y

end

variable [Fintype P] [DecidableEq P]

/-! ### Freeing -/

theorem InvIf.sole_ref (h : InvIf c sb s) (hi : i ∈ s.held p) (h1 : (s.icache i).ref = 1) :
    s.fileRefs i = 0 ∧ s.cwdRefs i = 0 ∧ (s.held p).count i = 1 ∧ ∀ q ≠ p, i ∉ s.held q := by
  have hrefs := h.refs i
  have hc := count_le_heldRefs s p i
  have hpos := List.count_pos_iff.mpr hi
  refine ⟨by omega, by omega, by omega, fun q hq hm => ?_⟩
  have := count_add_count_le (s := s) hq.symm i
  have := List.count_pos_iff.mpr hm
  omega

theorem freed_inv (h : InvIf c sb s) (hi : i ∈ s.held p) (h1 : (s.icache i).ref = 1) (hl : (s.icache i).lock = none)
    {m : Nat → Bool} (hok : (s.freed i m).disk.Ok sb) : InvIf c sb (s.freed i m) := by
  have hic := fun j => freed_icache s i j m
  obtain ⟨hfile, -, -, -⟩ := h.sole_ref hi h1
  refine ⟨hok, fun a b ha hb hab => ?_, fun a ha => ?_, fun a ha hv => ?_, fun a => ?_, fun a q hq => ?_, h.files,
    h.unused, h.opening, fun hc f ht hw => ?_, fun hc x k n y he hn1 hn2 hy => ?_, h.born_lt⟩
  · rw [(hic a).2.1] at ha
    rw [(hic b).2.1] at hb
    rw [(hic a).1, (hic b).1] at hab
    exact h.uniq a b ha hb hab
  · rw [(hic a).2.1] at ha
    rw [(hic a).1]
    exact h.inum_lt a ha
  · by_cases hai : a = i
    · subst hai
      simp [freed, setInode] at hv
    · rw [freed_icache_ne m hai] at ha hv ⊢
      rw [freed_typeOf h m (by omega) hai ha, freed_dinode m fun hx => hai (h.uniq a i ha (by omega) hx)]
      exact h.copy a ha hv
  · rw [(hic a).2.1]
    exact h.refs a
  · by_cases hai : a = i
    · subst hai
      rw [(hic a).2.2, hl] at hq
      cases hq
    · rw [freed_icache_ne m hai] at hq ⊢
      exact h.locked a q hq
  · change (s.ftable f).type = .inode at ht
    have hr := h.ref_pos_of_file ht
    have hne : (s.ftable f).ip ≠ i := fun hf => by
      have hrf : (s.ftable f).ref ≠ 0 := fun h0 => by
        rw [h.unused f h0] at ht
        cases ht
      have := fileRefs_pos hrf ht hf
      omega
    have := freed_typeOf h m (by omega) hne hr
    change Plain ((s.freed i m).typeOf (s.ftable f).ip)
    rw [this]
    exact h.writable hc f ht hw
  · have hx : x ≠ (s.icache i).inum := by
      rintro rfl
      have := Disk.type_of_ent he
      rw [freed_type] at this
      cases this
    have hyi : y ≠ (s.icache i).inum := by
      rintro rfl
      rw [freed_type] at hy
      cases hy
    rw [freed_ent m h hx] at he
    rw [freed_dinode m hyi] at hy
    exact h.order hc x k n y he hn1 hn2 hy

theorem iputTest_step (h : InvIf c sb s) (hi : i ∈ s.held p) (hr : s.iputTest i = .ok ((), t)) :
    Step c sb p (· ∈ (s.held p).erase i) s t ∧ t.held = s.held ∧ ∀ j, (t.icache j).lock = (s.icache j).lock := by
  obtain ⟨hl, ⟨rfl, -⟩ | ⟨hv, -, h1, m, rfl, hok⟩⟩ := iputTest_inv h hr
  · have hq : Quiet t t := ⟨fun _ _ => rfl, fun _ => rfl, rfl, rfl, fun _ _ _ _ => .refl _⟩
    refine ⟨⟨h, hq.guar h (fun _ _ => ⟨rfl, fun _ => Iff.rfl, .inl rfl⟩) (h.spares rfl (fun _ _ => rfl) fun _ => .inl),
      rfl, hq.keep fun j hj => ?_⟩, rfl, fun _ => rfl⟩
    exact h.ref_pos (hj.imp List.mem_of_mem_erase id)
  · obtain ⟨hfile, -, hcount, hoth⟩ := h.sole_ref hi h1
    have hnf : ∀ q j, s.FileRef q j → j ≠ i ∧ 0 < (s.icache j).ref := by
      refine fun q j hj => ⟨?_, h.ref_pos (.inr hj)⟩
      rintro rfl
      have := h.fileRefs_pos_of_fileRef hj
      omega
    refine ⟨⟨freed_inv h hi h1 hl hok, ⟨fun q _ => ⟨rfl, fun j => ?_, .inl rfl⟩, fun q hq => ?_,
      freed_spares h hi h1 hv hok⟩, rfl, ?_⟩, rfl, fun j => ?_⟩
    · rw [(freed_icache s i j m).2.2]
    · refine freed_keep h h1 m fun j hj => hj.elim (fun hm => ⟨?_, h.ref_pos (.inl hm)⟩) (hnf q j)
      rintro rfl
      exact hoth q hq hm
    · refine freed_keep h h1 m fun j hj => hj.elim (fun hm => ⟨?_, h.ref_pos (.inl (List.mem_of_mem_erase hm))⟩)
        (hnf p j)
      rintro rfl
      rw [← List.count_pos_iff, List.count_erase_self] at hm
      omega
    · exact (freed_icache s i j m).2.2

end Fs

end Xv6
