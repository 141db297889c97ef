import Xv6.Theorems.Fs.Lookup

/-! What a process that runs alone changes: an inode it has locked, and inodes that are freed and allocated. -/

namespace Xv6

def Dinode.blank (type : InodeType) : Dinode :=
  { type, major := 0, minor := 0, nlink := 0, size := 0, addrs := fun _ => 0 }

namespace Disk

def Freed (sb : Superblock) (x : Nat) (d d' : Disk) : Prop :=
  ∃ m, d' = { d with bitmap := m }.iupdate x { d.dinode x with type := .free, size := 0, addrs := fun _ => 0 } ∧
    d'.Ok sb

/-- The entry at place `k` of directory `x` becomes `e`. -/
structure Wrote (sb : Superblock) (x k : Nat) (e : Option (List UInt8 × Nat)) (d d' : Disk) : Prop where
  kept : d.Kept sb x d'
  size : (d'.dinode x).size = max (d.dinode x).size (k * DIRENT + DIRENT)
  ent : ∀ k', d'.ent x k' = if k' = k then e else d.ent x k'

theorem Kept.nlink {sb : Superblock} {x : Nat} {d d' : Disk} (h : d.Kept sb x d') (y : Nat) :
    (d'.dinode y).nlink = (d.dinode y).nlink := by
  by_cases hy : y = x
  · rw [hy, h.fields]
  · rw [h.dinode y hy]

theorem Kept.type {sb : Superblock} {x : Nat} {d d' : Disk} (h : d.Kept sb x d') (y : Nat) :
    (d'.dinode y).type = (d.dinode y).type := by
  by_cases hy : y = x
  · rw [hy, h.fields]
  · rw [h.dinode y hy]

end Disk

namespace Fs

variable {P : Type} {sb : Superblock} {s s₀ t : Fs P} {d d' : Disk} {p q : P}
  {i j : Fin NINODE} {f : Fin NFILE} {fd : Fin NOFILE} {H H' : Multiset (Fin NINODE × Nat)} {K : Finset (Fin NINODE)}
  {X : Set Nat} {x y n k off : Nat} {name src : List UInt8} {ip : Dinode} {type : InodeType}

variable [Fintype P]

/-! ### The holder of a lock -/

section

variable (h : Still sb p s₀ d H K s) (hi : i ∈ K) (hx : (s.icache i).inum = x)
include h hi hx

theorem StillBut.copy {D : Fin NINODE → Prop}
    (hst : Step False sb p D s (s.setCopy i ip d')) (hdin : ∀ y ≠ x, d'.dinode y = d.dinode y)
    (hn : CInt.wrap 16 (d'.dinode x).nlink = (d'.dinode x).nlink) : Still sb p s₀ d' H K (s.setCopy i ip d') := by
  have hic := fun j => setCopy_icache s i j ip d'
  have hl := h.alone.lock hi
  refine ⟨⟨hst.inv, ⟨h.alone.own.held, fun j => by rw [hic]; exact h.alone.own.locks j⟩, fun a ha => ?_, h.alone.others,
    fun q hq j => by rw [hic]; exact h.alone.unlocked q hq j, ⟨fun y => ?_, h.alone.typed.off⟩, h.alone.put⟩,
    ⟨rfl, h.since.ftable, h.since.proc, fun j hj => ?_⟩, fun y _ ht hy => ?_⟩
  · rw [hic]
    exact h.alone.inum a ha
  · change CInt.wrap 16 (d'.dinode y).nlink = _
    by_cases hyx : y = x
    · rw [hyx]
      exact hn
    · have := h.alone.typed.nlink y
      rwa [h.since.disk, ← hdin y hyx] at this
  · rw [hic]
    exact h.since.inum j hj
  · by_cases hyx : y = x
    · refine ⟨i, ?_⟩
      rw [hic]
      exact ⟨hx.trans hyx.symm, h.alone.inv.ref_pos_of_lock hl, (h.alone.inv.locked i p hl).1⟩
    · change (d'.dinode y).type ≠ .free at ht
      change (d'.dinode y).nlink = 0 at hy
      rw [hdin y hyx, ← h.since.disk] at ht hy
      obtain ⟨j, hj⟩ := h.cached y (Set.notMem_empty y) ht hy
      refine ⟨j, ?_⟩
      rw [hic]
      exact hj

theorem StillBut.update {g : Dinode → Dinode}
    (hg : ∀ d, (g d).type = d.type ∧ (g d).size = d.size ∧ (g d).addrs = d.addrs)
    (hn : ∀ d, CInt.wrap 16 (g d).nlink = (g d).nlink) (hr : s.update i g = .ok ((), t)) :
    Still sb p s₀ (d.iupdate x (g (d.dinode x))) H K t := by
  have hl := h.alone.lock hi
  obtain ⟨hc, -⟩ := h.alone.inv.copy_of_lock hl
  have hst := (update_step h.alone.inv hl hg hr).1
  unfold Fs.update at hr
  rw [hc, hx, h.since.disk] at hr
  cases hr
  refine h.copy hi hx hst (fun y hy => by simp [Disk.iupdate, hy]) ?_
  simp only [Disk.iupdate, Function.update_self]
  exact hn _

theorem StillBut.clear (ht : (d.dinode x).type = .dir)
    (hr : s.writei sb i (k * DIRENT) (List.replicate DIRENT 0) = .ok (some n, t)) :
    ∃ d', d.Wrote sb x k none d' ∧ Still sb p s₀ d' H K t := by
  have hl := h.alone.lock hi
  have ht' : s.typeOf i = .dir := by
    rw [typeOf, hx, h.since.disk]
    exact ht
  have hst := (clear_step h.alone.inv hl ht' hr).1
  obtain ⟨d', rfl, hk, hsize, hent⟩ := clear_inv h.alone.inv hl ht' hr
  rw [hx, h.since.disk] at hk hsize hent
  refine ⟨d', ⟨hk, hsize, hent⟩, h.copy hi hx hst hk.dinode ?_⟩
  rw [hk.nlink, ← h.since.disk]
  exact h.alone.typed.nlink x

theorem StillBut.dirwrite (ht : (d.dinode x).type = .dir) (hy : y < 2 ^ 16)
    (hr : s.dirwrite sb i name y = .ok ((), t)) :
    ∃ k d', d.Wrote sb x k (if y = 0 then none else some (cname name, y)) d' ∧ d.FirstEmpty x k ∧
      Still sb p s₀ d' H K t := by
  have hl := h.alone.lock hi
  have ht' : s.typeOf i = .dir := by
    rw [typeOf, hx, h.since.disk]
    exact ht
  have hst := (dirwrite_step h.alone.inv hl ht' hy False.elim hr).1
  obtain ⟨k, d', rfl, hk, hsize, hfirst, hent⟩ := dirwrite_inv h.alone.inv hl ht' hy hr
  rw [hx, h.since.disk] at hk hsize hfirst hent
  refine ⟨k, d', ⟨hk, hsize, hent⟩, hfirst, h.copy hi hx hst hk.dinode ?_⟩
  rw [hk.nlink, ← h.since.disk]
  exact h.alone.typed.nlink x

end

/-! ### Freeing and allocating -/

theorem StillBut.anchored_of_ref (h : StillBut X sb p s₀ d ((i, x) ::ₘ H) K s) (h1 : 1 < (s.icache i).ref) :
    Anchored s₀ H x := by
  have hx : (s.icache i).inum = x := h.alone.inum _ (Multiset.mem_cons_self ..)
  have ha : Alone sb p ({(i, x)} + H) K s := by
    rw [Multiset.singleton_add]
    exact h.alone
  rcases ha.target_or_held (i := i) (by simpa using h1) with ht | hm
  · have ht := h.since.target.mp ht
    exact .inl ⟨i, ht, by rw [← h.since.inum i ht]; exact hx⟩
  · exact .inr ⟨i, hx ▸ hm⟩

theorem StillBut.iallocTry (h : Still sb p s₀ d H K s) {b : Bool} (hr : s.iallocTry type x = .ok (b, t)) :
    b = false ∧ t = s ∨ b = true ∧ (d.dinode x).type = .free ∧
    StillBut {x} sb p s₀ (d.iupdate x (.blank type)) H K t := by
  obtain ⟨hst, hheld, hic, -⟩ := iallocTry_step (p := p) h.alone.inv hr
  rcases iallocTry_inv hr with ⟨rfl, rfl⟩ | ⟨rfl, hf, ht⟩
  · exact .inl ⟨rfl, rfl⟩
  rw [h.since.disk] at hf
  have hdisk : t.disk = d.iupdate x (.blank type) := by
    rw [ht, h.since.disk]
    rfl
  have hy : ∀ y ≠ x, t.disk.dinode y = s.disk.dinode y := fun y hy => by
    rw [hdisk, h.since.disk]
    exact Function.update_of_ne hy ..
  have hft : t.ftable = s.ftable := by rw [ht]
  have hproc : t.proc = s.proc := by rw [ht]
  refine .inr ⟨rfl, hf,
    ⟨⟨hst.inv, ⟨by rw [hheld]; exact h.alone.own.held, fun j => by rw [hic]; exact h.alone.own.locks j⟩,
    fun a ha => by rw [hic]; exact h.alone.inum a ha, fun q hq => by rw [hheld]; exact h.alone.others q hq,
    fun q hq j => by rw [hic]; exact h.alone.unlocked q hq j, ⟨fun y => ?_, ?_⟩, by rw [hproc]; exact h.alone.put⟩,
    ⟨hdisk, hft.trans h.since.ftable, hproc.trans h.since.proc, fun j hj => by rw [hic]; exact h.since.inum j hj⟩,
    fun y hyX hty hny => ?_⟩⟩
  · by_cases hyx : y = x
    · rw [hyx, hdisk]
      simp only [Disk.iupdate, Function.update_self]
      rfl
    · rw [hy y hyx]
      exact h.alone.typed.nlink y
  · rw [hft]
    exact h.alone.typed.off
  · have hyx : y ≠ x := hyX
    rw [hy y hyx] at hty hny
    rw [hic]
    exact h.cached y (Set.notMem_empty y) hty hny

def Dropped (d : Disk) (s₀ : Fs P) (H : Multiset (Fin NINODE × Nat)) (x : Nat) : Prop :=
  (d.dinode x).type ≠ .free ∧ (d.dinode x).nlink = 0 ∧ ¬Anchored s₀ H x

/-- What `iput` leaves of the disk: an inode nothing refers to any more is freed. -/
inductive Put (sb : Superblock) (s₀ : Fs P) (H : Multiset (Fin NINODE × Nat)) (x : Nat) (d : Disk) : Disk → Prop
  | kept (h : ¬Dropped d s₀ H x) : Put sb s₀ H x d d
  | freed {d' : Disk} (h : Dropped d s₀ H x) (hf : d.Freed sb x d') : Put sb s₀ H x d d'

theorem StillBut.dropped (h : Still sb p s₀ d ((i, x) ::ₘ H) K s) (hd : Dropped d s₀ H x) :
    (s.icache i).valid = true ∧ (s.icache i).d.nlink = 0 ∧ (s.icache i).ref = 1 := by
  obtain ⟨ht, hn, ha⟩ := hd
  have hmem : (i, x) ∈ (i, x) ::ₘ H := Multiset.mem_cons_self ..
  have hx : (s.icache i).inum = x := h.alone.inum _ hmem
  have hpos := h.alone.ref_pos hmem
  rw [← h.since.disk] at ht hn
  obtain ⟨j, hj, hr, hv⟩ := h.cached x (Set.notMem_empty x) ht hn
  obtain rfl : j = i := h.alone.inv.uniq j i hr hpos (hj.trans hx.symm)
  refine ⟨hv, by rw [(h.alone.inv.copy j hr hv).1, hx]; exact hn, ?_⟩
  by_contra h1
  exact ha (h.anchored_of_ref (by omega))

variable [DecidableEq P]

theorem StillBut.iputTest (h : Still sb p s₀ d ((i, x) ::ₘ H) K s) (hr : s.iputTest i = .ok ((), t)) :
    ∃ d', Put sb s₀ H x d d' ∧ Still sb p s₀ d' ((i, x) ::ₘ H) K t ∧ (t.icache i).lock = none ∧
      ¬((t.icache i).valid = true ∧ (t.icache i).d.nlink = 0 ∧ (t.icache i).ref = 1) := by
  have hmem : (i, x) ∈ (i, x) ::ₘ H := Multiset.mem_cons_self ..
  have hx : (s.icache i).inum = x := h.alone.inum _ hmem
  obtain ⟨hl, ⟨rfl, hk⟩ | ⟨hv, hn, h1, m, rfl, hok⟩⟩ := iputTest_inv h.alone.inv hr
  · exact ⟨d, .kept fun hd => hk (h.dropped hd), h, hl, hk⟩
  have hpos : 0 < (s.icache i).ref := by omega
  obtain ⟨hcopy, hne⟩ := h.alone.inv.copy i hpos hv
  have hd : Dropped d s₀ H x := by
    rw [typeOf, hx, h.since.disk] at hne
    refine ⟨hne, by rw [hcopy, hx, h.since.disk] at hn; exact hn, fun ha => ?_⟩
    exact h.kept (fun _ _ => ha) ⟨hv, hn, h1⟩
  have hic := fun j => freed_icache s i j m
  refine ⟨(s.freed i m).disk, .freed hd ⟨m, ?_, hok⟩, ⟨⟨freed_inv h.alone.inv (h.alone.mem hmem) h1 hl hok,
    ⟨h.alone.own.held, fun j => by rw [(hic j).2.2]; exact h.alone.own.locks j⟩, fun a ha => ?_, h.alone.others,
    fun q hq j => by rw [(hic j).2.2]; exact h.alone.unlocked q hq j, ⟨fun y => ?_, h.alone.typed.off⟩, h.alone.put⟩,
    ⟨rfl, h.since.ftable, h.since.proc, fun j hj => ?_⟩, fun y _ ht hy => ?_⟩, by rw [(hic i).2.2]; exact hl, ?_⟩
  · simp only [freed]
    rw [hcopy, hx, h.since.disk]
  · rw [(hic a.1).1]
    exact h.alone.inum a ha
  · by_cases hyx : y = (s.icache i).inum
    · rw [hyx]
      simp only [freed, Disk.iupdate, Function.update_self]
      rw [hn]
      decide
    · rw [freed_dinode m hyx]
      exact h.alone.typed.nlink y
  · rw [(hic j).1]
    exact h.since.inum j hj
  · have hyx : y ≠ (s.icache i).inum := by
      rintro rfl
      exact ht (freed_type s i m)
    rw [freed_dinode m hyx] at ht hy
    obtain ⟨j, rfl, hj⟩ := h.cached y (Set.notMem_empty y) ht hy
    have hji : j ≠ i := by
      rintro rfl
      exact hyx rfl
    exact ⟨j, (hic j).1, by rw [freed_icache_ne m hji]; exact hj⟩
  · simp [freed, setInode]

end Fs

end Xv6
