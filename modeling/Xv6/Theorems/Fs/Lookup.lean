import Xv6.Theorems.Fs.Calls

/-! A process that runs alone: what it knows of the state, and the actions that change neither the disk nor what is
    open. -/


namespace Xv6
open Multiset

namespace Disk

def lookup (d : Disk) (x : Nat) (name : List UInt8) : Option (Nat × Nat) :=
  (List.range ((d.dinode x).size / DIRENT + 1)).findSome? fun k =>
    match d.ent x k with
    | some (n, y) => if n = cname name then some (y, k) else none
    | none => none

def resolve (d : Disk) (parent : Bool) : Nat → Nat → List UInt8 → Option (Nat × List UInt8)
  | 0, _, _ => none
  | fuel + 1, x, path =>
    match skipelem path with
    | none => if parent then none else some (x, [])
    | some (name, rest) =>
      if (d.dinode x).type ≠ .dir then none
      else if parent ∧ rest = [] then some (x, name)
      else
        match d.lookup x name with
        | none => none
        | some (y, _) => d.resolve parent fuel y rest

variable {d : Disk} {x y k : Nat} {name : List UInt8}

theorem lookup_none (h : ∀ k y, d.ent x k ≠ some (cname name, y)) : d.lookup x name = none := by
  refine List.findSome?_eq_none_iff.mpr fun k _ => ?_
  split
  · rename_i n y he
    rw [if_neg]
    rintro rfl
    exact h k y he
  · rfl

theorem lookup_some (he : d.ent x k = some (cname name, y)) (hb : ∀ k' < k, ∀ y', d.ent x k' ≠ some (cname name, y')) :
    d.lookup x name = some (y, k) := by
  have hk : k < (d.dinode x).size / DIRENT + 1 := by
    have := ent_size he
    simp only [DIRENT] at *
    omega
  refine List.findSome?_eq_some_iff.mpr
    ⟨List.range k, k, List.map (k + 1 + ·) (List.range ((d.dinode x).size / DIRENT - k)),
    ?_, by simp [he], fun k' hk' => ?_⟩
  · rw [show (d.dinode x).size / DIRENT + 1 = k + 1 + ((d.dinode x).size / DIRENT - k) by omega, List.range_add,
      List.range_succ]
    simp
  · split
    · rename_i n y' he'
      rw [if_neg]
      rintro rfl
      exact hb k' (List.mem_range.mp hk') y' he'
    · rfl

theorem ent_of_lookup (h : d.lookup x name = some (y, k)) : d.ent x k = some (cname name, y) := by
  obtain ⟨k', -, h⟩ := List.exists_of_findSome?_eq_some h
  split at h
  · rename_i n y' he
    split_ifs at h with hn
    cases h
    rw [he, hn]
  · cases h

theorem lookup_ne_none (h : d.ent x k = some (cname name, y)) : d.lookup x name ≠ none := by
  intro hn
  have hk : k < (d.dinode x).size / DIRENT + 1 := by
    have := ent_size h
    simp only [DIRENT] at *
    omega
  have := List.findSome?_eq_none_iff.mp hn k (List.mem_range.mpr hk)
  rw [h] at this
  simp at this

end Disk

namespace Fs

variable {P : Type}

def origin (s : Fs P) (p : P) (path : List UInt8) : Option Nat :=
  if path.head? = some 47 then some ROOTINO else (s.proc p).cwd.map fun i => (s.icache i).inum

def resolve (s : Fs P) (p : P) (parent : Bool) (path : List UInt8) : Option (Nat × List UInt8) :=
  (s.origin p path).bind fun x => s.disk.resolve parent (path.length + 1) x path

variable {sb : Superblock} {s s₀ t : Fs P} {d : Disk} {p q : P} {i j : Fin NINODE}
  {H H' : Multiset (Fin NINODE × Nat)} {K K' : Finset (Fin NINODE)} {x y n k off fuel : Nat} {name path : List UInt8}
  {E : Halt → Prop} {α β : Type}

/-! ### A process that runs alone -/

/-- The numbers fit their fields: link counts are shorts, offsets of open files are 32 bits wide. -/
structure Typed (s : Fs P) : Prop where
  nlink : ∀ x, CInt.wrap 16 (s.disk.dinode x).nlink = (s.disk.dinode x).nlink
  off : ∀ f, (s.ftable f).type = .inode → (s.ftable f).off < 2 ^ 32

/-- Every inode without links, but for those in `X`, is read in and referred to. -/
def Cached (X : Set Nat) (s : Fs P) : Prop :=
  ∀ x ∉ X, (s.disk.dinode x).type ≠ .free → (s.disk.dinode x).nlink = 0 →
    ∃ i, (s.icache i).inum = x ∧ 0 < (s.icache i).ref ∧ (s.icache i).valid = true

/-- An open file or a current directory refers to inode `x`, or one of the references `H` does. -/
def Anchored (s₀ : Fs P) (H : Multiset (Fin NINODE × Nat)) (x : Nat) : Prop :=
  (∃ i, s₀.Target i ∧ (s₀.icache i).inum = x) ∨ ∃ i, (i, x) ∈ H

/-- Every inode without links is anchored. -/
def AllAnchored (d : Disk) (s₀ : Fs P) (H : Multiset (Fin NINODE × Nat)) : Prop :=
  ∀ x, (d.dinode x).type ≠ .free → (d.dinode x).nlink = 0 → Anchored s₀ H x

abbrev noType : Halt := .panic "ilock: no type"

def NoDangling (d : Disk) : Prop := ∀ x k n y, d.ent x k = some (n, y) → (d.dinode y).type ≠ .free

structure Since (d : Disk) (s₀ s : Fs P) : Prop where
  disk : s.disk = d
  ftable : s.ftable = s₀.ftable
  proc : s.proc = s₀.proc
  inum : ∀ i, s₀.Target i → (s.icache i).inum = (s₀.icache i).inum

theorem Since.refl (s : Fs P) : Since s.disk s s := ⟨rfl, rfl, rfl, fun _ _ => rfl⟩

theorem Since.target (h : Since d s₀ s) : s.Target i ↔ s₀.Target i := Target.congr h.ftable h.proc

theorem Anchored.mono (h : Anchored s₀ H x) (hH : H ≤ H') : Anchored s₀ H' x :=
  h.imp id fun ⟨i, hi⟩ => ⟨i, mem_of_le hH hi⟩

variable [Fintype P]

/-- Process `p` runs alone. It holds the references `H`, each to the inode of that number, and the locks `K`. -/
structure Alone (sb : Superblock) (p : P) (H : Multiset (Fin NINODE × Nat)) (K : Finset (Fin NINODE)) (s : Fs P) :
    Prop where
  inv : InvIf False sb s
  own : Own p (H.map Prod.fst) K s
  inum : ∀ a ∈ H, (s.icache a.1).inum = a.2
  others : ∀ q ≠ p, s.held q = []
  unlocked : ∀ q ≠ p, ∀ i, (s.icache i).lock ≠ some q
  typed : Typed s
  put : (s.proc p).put = false

structure StillBut (X : Set Nat) (sb : Superblock) (p : P) (s₀ : Fs P) (d : Disk) (H : Multiset (Fin NINODE × Nat))
    (K : Finset (Fin NINODE)) (s : Fs P) : Prop where
  alone : Alone sb p H K s
  since : Since d s₀ s
  cached : s.Cached X

abbrev Still (sb : Superblock) (p : P) (s₀ : Fs P) (d : Disk) (H : Multiset (Fin NINODE × Nat))
    (K : Finset (Fin NINODE)) (s : Fs P) : Prop := StillBut ∅ sb p s₀ d H K s

theorem Alone.mem (h : Alone sb p H K s) (ha : (i, x) ∈ H) : i ∈ s.held p :=
  h.own.mem.mpr (mem_map_of_mem Prod.fst ha)

theorem Alone.lock (h : Alone sb p H K s) (hi : i ∈ K) : (s.icache i).lock = some p := (h.own.locks i).mpr hi

theorem target_of_refs (h : s.fileRefs i + s.cwdRefs i ≠ 0) : s.Target i := by
  by_cases hf : s.fileRefs i = 0
  · obtain ⟨q, -, hq⟩ := Finset.exists_ne_zero_of_sum_ne_zero (show s.cwdRefs i ≠ 0 by omega)
    exact .inr ⟨q, by simpa using hq⟩
  · obtain ⟨f, -, hf⟩ := Finset.exists_ne_zero_of_sum_ne_zero hf
    exact .inl ⟨f, by simpa using hf⟩

theorem still_start (h : Alone sb p H K s) (hc : s.Cached ∅) : Still sb p s s.disk H K s := ⟨h, .refl s, hc⟩

theorem Alone.ref_pos (h : Alone sb p H K s) (ha : (i, x) ∈ H) : 0 < (s.icache i).ref := h.inv.ref_pos (.inl (h.mem ha))

theorem Alone.target_or_held {G : Multiset (Fin NINODE × Nat)} (h : Alone sb p (G + H) K s)
    (hr : (G.map Prod.fst).count i < (s.icache i).ref) : s.Target i ∨ (i, (s.icache i).inum) ∈ H := by
  refine or_iff_not_imp_left.mpr fun ht => ?_
  have h0 : s.fileRefs i + s.cwdRefs i = 0 := by
    by_contra h0
    exact ht (target_of_refs h0)
  have hheld : s.heldRefs i = (s.held p).count i := by
    refine Finset.sum_eq_single p (fun q _ hq => ?_) fun hp => absurd (Finset.mem_univ p) hp
    rw [h.others q hq]
    rfl
  have hrefs := h.inv.refs i
  rw [hheld, ← coe_count, h.own.held, map_add, count_add] at hrefs
  obtain ⟨⟨j, y⟩, hj, rfl⟩ := mem_map.mp (count_pos.mp (show 0 < (H.map Prod.fst).count i by omega))
  rw [h.inum _ (mem_add.mpr (.inr hj))]
  exact hj

theorem StillBut.allAnchored (h : Still sb p s₀ d H K s) : AllAnchored d s₀ H := by
  intro x ht hn
  rw [← h.since.disk] at ht hn
  obtain ⟨i, rfl, hr, -⟩ := h.cached x (Set.notMem_empty x) ht hn
  have ha : Alone sb p (0 + H) K s := by
    rw [zero_add]
    exact h.alone
  refine (ha.target_or_held (by simpa using hr)).imp (fun hi => ?_) fun hi => ⟨i, hi⟩
  have hi := h.since.target.mp hi
  exact ⟨i, hi, (h.since.inum i hi).symm⟩

variable [DecidableEq P] {X Y : Set Nat}

theorem Alone.lock_none (h : Alone sb p H K s) (hi : i ∉ K) : (s.icache i).lock = none := by
  cases hl : (s.icache i).lock with
  | none => rfl
  | some q =>
    by_cases hq : q = p
    · exact absurd ((h.own.locks i).mp (hq ▸ hl)) hi
    · exact absurd hl (h.unlocked q hq i)

theorem StillBut.entry {D : Fin NINODE → Prop} {e : Inode P} {l : List (Fin NINODE)} (h : StillBut X sb p s₀ d H K s)
    (hst : Step False sb p D s t) (hs : EntrySet p i e l s t)
    (hc : 0 < (s.icache i).ref → (s.icache i).valid = true → (s.icache i).d.nlink = 0 → 0 < e.ref ∧ e.valid = true)
    (hX : ∀ y ∉ Y, y ∉ X ∨ (t.icache i).inum = y ∧ 0 < e.ref ∧ e.valid = true)
    (hl : (l : Multiset (Fin NINODE)) = H'.map Prod.fst) (hH : ∀ a ∈ H', a ∈ H ∨ (t.icache a.1).inum = a.2)
    (hK : ∀ j, (t.icache j).lock = some p ↔ j ∈ K') : StillBut Y sb p s₀ d H' K' t := by
  have hinum := hst.guar.spares.inum
  refine ⟨⟨hst.inv, ⟨by rw [hs.held, Function.update_self, hl], hK⟩, fun a ha => ?_, fun q hq => ?_,
    fun q hq j hj => h.alone.unlocked q hq j (((hst.guar.priv q hq).locks j).mp hj), ⟨?_, ?_⟩,
    by rw [hs.proc]; exact h.alone.put⟩,
    ⟨hs.disk.trans h.since.disk, hs.ftable.trans h.since.ftable, hs.proc.trans h.since.proc, fun j hj => ?_⟩,
    fun y hy ht hn => ?_⟩
  · rcases hH a ha with ha | ha
    · rw [hinum a.1 (h.alone.ref_pos ha)]
      exact h.alone.inum a ha
    · exact ha
  · rw [hs.held, Function.update_of_ne hq]
    exact h.alone.others q hq
  · rw [hs.disk]
    exact h.alone.typed.nlink
  · rw [hs.ftable]
    exact h.alone.typed.off
  · rw [hinum j (h.alone.inv.ref_pos_of_target (h.since.target.mpr hj))]
    exact h.since.inum j hj
  · rcases hX y hy with hyX | ⟨rfl, hr, hv⟩
    · rw [hs.disk] at ht hn
      obtain ⟨j, rfl, hr, hv⟩ := h.cached y hyX ht hn
      refine ⟨j, hinum j hr, ?_⟩
      by_cases hji : j = i
      · subst hji
        rw [hs.entry]
        exact hc hr hv (by rw [(h.alone.inv.copy j hr hv).1]; exact hn)
      · rw [hs.entry_ne hji]
        exact ⟨hr, hv⟩
    · exact ⟨i, rfl, by rw [hs.entry]; exact hr, by rw [hs.entry]; exact hv⟩

theorem StillBut.kept (h : StillBut X sb p s₀ d ((i, x) ::ₘ H) K s)
    (ha : (d.dinode x).type ≠ .free → (d.dinode x).nlink = 0 → Anchored s₀ H x) :
    ¬((s.icache i).valid = true ∧ (s.icache i).d.nlink = 0 ∧ (s.icache i).ref = 1) := by
  rintro ⟨hv, hn, h1⟩
  have hi : (i, x) ∈ (i, x) ::ₘ H := mem_cons_self ..
  have hx : (s.icache i).inum = x := h.alone.inum _ hi
  obtain ⟨hcopy, hne⟩ := h.alone.inv.copy i (by omega) hv
  rw [hcopy, hx, h.since.disk] at hn
  rw [typeOf, hx, h.since.disk] at hne
  obtain ⟨hfile, hcwd, hcount, -⟩ := h.alone.inv.sole_ref (h.alone.mem hi) h1
  rcases ha hne hn with ⟨j, hj, hjx⟩ | ⟨j, hj⟩
  · have ht : s.Target j := h.since.target.mpr hj
    have hji : j = i := h.alone.inv.uniq j i (h.alone.inv.ref_pos_of_target ht) (by omega)
      (by rw [h.since.inum j hj, hjx, hx])
    have := ht.refs_pos
    rw [hji] at this
    omega
  · have hj' : (j, x) ∈ (i, x) ::ₘ H := mem_cons_of_mem hj
    have hji : j = i := h.alone.inv.uniq j i (h.alone.ref_pos hj') (by omega)
      (by rw [h.alone.inum _ hj', hx])
    have hc : 0 < (H.map Prod.fst).count i :=
      count_pos.mpr (hji ▸ mem_map_of_mem Prod.fst hj)
    have := h.alone.own.held
    rw [← coe_count, this, map_cons, count_cons_self] at hcount
    omega

/-! ### Actions -/

section

variable (h : StillBut X sb p s₀ d H K s)
include h

theorem StillBut.iget (hx : x < 2 ^ 16) (hr : s.iget p x = .ok (i, t)) : StillBut X sb p s₀ d ((i, x) ::ₘ H) K t := by
  obtain ⟨hst, -, hl, hn, -⟩ := iget_step h.alone.inv hx hr
  have hK : ∀ j, (t.icache j).lock = some p ↔ j ∈ K := fun j => by rw [hl]; exact h.alone.own.locks j
  have hH : ∀ a ∈ (i, x) ::ₘ H, a ∈ H ∨ (t.icache a.1).inum = a.2 := fun a ha =>
    (mem_cons.mp ha).elim (fun h => .inr (by rw [h]; exact hn)) .inl
  have hheld : ((i :: s.held p : List (Fin NINODE)) : Multiset (Fin NINODE)) = ((i, x) ::ₘ H).map Prod.fst := by
    rw [map_cons, ← h.alone.own.held]
    rfl
  rcases iget_inv hr with ⟨-, -, hset⟩ | ⟨h0, -, hset⟩
  · exact h.entry hst hset (fun _ hv _ => ⟨Nat.succ_pos _, hv⟩) (fun _ => .inl) hheld hH hK
  · exact h.entry hst hset (fun hpos => by omega) (fun _ => .inl) hheld hH hK

theorem StillBut.idupCwd (hc : (s₀.proc p).cwd = some i) (hr : s.idup p i = .ok ((), t)) :
    StillBut X sb p s₀ d ((i, (s₀.icache i).inum) ::ₘ H) K t := by
  have ht : s₀.Target i := .inr ⟨p, dir_eq_some.mpr ⟨hc, h.since.proc ▸ h.alone.put⟩⟩
  obtain ⟨hst, -, hl⟩ := idup_step h.alone.inv (h.alone.inv.ref_pos_of_target (h.since.target.mpr ht)) hr
  have hset := idup_inv hr
  refine h.entry hst hset (fun _ hv _ => ⟨Nat.succ_pos _, hv⟩) (fun _ => .inl) ?_ (fun a ha => ?_) fun j => ?_
  · rw [map_cons, ← h.alone.own.held]
    rfl
  · refine (mem_cons.mp ha).elim (fun ha => .inr ?_) .inl
    rw [ha, hset.entry]
    exact h.since.inum i ht
  · rw [hl]
    exact h.alone.own.locks j

theorem StillBut.ilock (hi : i ∈ s.held p ∨ s.FileRef p i)
    (hX : ∀ y ∉ Y, y ∉ X ∨ (s.icache i).inum = y) (hr : s.ilock p i = .ok ((), t)) :
    StillBut Y sb p s₀ d H (insert i K) t := by
  obtain ⟨hst, -, hl, -⟩ := ilock_step h.alone.inv hi hr
  have hpos := h.alone.inv.ref_pos hi
  have hinum := hst.guar.spares.inum i hpos
  have hK : ∀ j, (t.icache j).lock = some p ↔ j ∈ insert i K := fun j => by
    rw [hl, h.alone.own.locks, Finset.mem_insert]
    exact or_comm
  obtain ⟨-, -, ⟨hv, hset⟩ | ⟨-, hset⟩⟩ := ilock_inv hr
  · exact h.entry hst hset (fun hr hv _ => ⟨hr, hv⟩) (fun y hy => (hX y hy).imp id fun hy => ⟨hinum.trans hy, hpos, hv⟩)
      h.alone.own.held (fun _ => .inl) hK
  · exact h.entry hst hset (fun hr _ _ => ⟨hr, rfl⟩)
      (fun y hy => (hX y hy).imp id fun hy => ⟨hinum.trans hy, hpos, rfl⟩) h.alone.own.held (fun _ => .inl) hK

theorem StillBut.iunlock (hr : s.iunlock p i = .ok ((), t)) : StillBut X sb p s₀ d H (K.erase i) t := by
  obtain ⟨hst, -, hl, -⟩ := iunlock_step h.alone.inv hr
  obtain ⟨-, hset⟩ := iunlock_inv hr
  refine h.entry hst hset (fun hr hv _ => ⟨hr, hv⟩) (fun _ => .inl) h.alone.own.held (fun _ => .inl) fun j => ?_
  rw [hl, h.alone.own.locks, Finset.mem_erase]
  exact and_comm

end

theorem StillBut.iputDrop (h : StillBut X sb p s₀ d ((i, x) ::ₘ H) K s) (hl : (s.icache i).lock = none)
    (hk : ¬((s.icache i).valid = true ∧ (s.icache i).d.nlink = 0 ∧ (s.icache i).ref = 1))
    (hr : s.iputDrop p i = .ok ((), t)) : StillBut X sb p s₀ d H K t := by
  have hset := iputDrop_inv hr
  have hmem := h.alone.mem (mem_cons_self (i, x) H)
  obtain ⟨hst, -, hlk⟩ := iputDrop_step h.alone.inv hmem (by rw [hl]; nofun) hr
  refine h.entry hst hset (fun hpos hv hn => ⟨?_, hv⟩) (fun _ => .inl) ?_
    (fun a ha => .inl (mem_cons_of_mem ha)) fun j => ?_
  · have : (s.icache i).ref ≠ 1 := fun h1 => hk ⟨hv, hn, h1⟩
    simp only
    omega
  · rw [← coe_erase, h.alone.own.held, map_cons, erase_cons_head]
  · rw [hlk]
    exact h.alone.own.locks j

end Fs

end Xv6
