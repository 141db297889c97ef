import Xv6.Theorems.Mkfs.Append
import Xv6.Theorems.Fs.Image
import Mathlib.Data.List.TakeWhile

/-! The image that mkfs makes: what its inodes hold after each append, whether it is consistent, and what the kernel
    finds in it. -/

namespace Xv6
open Function List Option

namespace Disk

/-- What the kernel relies on: the block numbers in the slots of the inodes are distinct blocks of the data area, those
    marked in use in the bitmap, and an inode has a block for every index below its size. -/
structure Backed (sb : Superblock) (d : Disk) : Prop where
  distinct : ∀ x y j k b, (d.dinode x).slot d.data j = some b → (d.dinode y).slot d.data k = some b → x = y ∧ j = k
  inArea : ∀ x k b, (d.dinode x).slot d.data k = some b → sb.datastart ≤ b ∧ b < sb.size
  bitmap : ∀ b, sb.datastart ≤ b → b < sb.size → (d.bitmap b = true ↔ ∃ x k, (d.dinode x).slot d.data k = some b)
  blocks : ∀ x bn, bn < ((d.dinode x).size + BSIZE - 1) / BSIZE → (d.dinode x).blockAt d.data bn ≠ 0

end Disk

namespace Mkfs

open State

variable {s s' : State} {img : FsImage} {files : List File} {f : File} {x y k u v : Nat} {t : InodeType}
  {n c p : List UInt8} {l : List (List UInt8 × List UInt8)}

/-! ### What the inodes hold -/

/-- Inode `x` has type `t` and the bytes `c`. -/
structure Made (s : State) (x : Nat) (t : InodeType) (c : List UInt8) : Prop where
  lt : x < NINODES
  type : (s.disk.dinode x).type = t
  hasBlocks : t.hasBlocks
  size : (s.disk.dinode x).size = c.length
  content : (s.disk.dinode x).content s.disk.data 0 c.length = c
  indirect : IndirectAt (s.disk.dinode x) c.length

/-- The inodes hold what `st` says, in `u` blocks. -/
structure Holds (s : State) (st : Nat → Option (InodeType × List UInt8)) (u : Nat) : Prop where
  clean : s.Clean
  freeblock : s.freeblock = nmeta + u
  ok : s.disk.Ok sb
  super : s.img 1 = start.img 1
  blank : ∀ x, st x = none → s.disk.dinode x = .ofBytes fun _ => 0
  made : ∀ x t c, st x = some (t, c) → Made s x t c

variable {st : Nat → Option (InodeType × List UInt8)}

theorem Made.length_le (h : Made s x t c) (hok : s.disk.Ok sb) : c.length ≤ MAXFILE * BSIZE := by
  rw [← h.size]
  exact hok.size_le x (by rw [h.type]; exact h.hasBlocks)

theorem Made.congr (h : Made s x t c) (hok : s.disk.Ok sb) (hi : s'.disk.dinode x = s.disk.dinode x)
    (hd : ∀ k b, (s.disk.dinode x).slot s.disk.data k = some b → s'.disk.data b = s.disk.data b) : Made s' x t c where
  lt := h.lt
  type := by rw [hi, h.type]
  hasBlocks := h.hasBlocks
  size := by rw [hi, h.size]
  content := by
    rw [hi]
    refine (map_congr_left fun i hi => ?_).trans h.content
    have := h.length_le hok
    exact Disk.byteAt_congr rfl hd (by have := mem_range.mp hi; omega)
  indirect := by rw [hi]; exact h.indirect

theorem addrs_blank : (Dinode.ofBytes fun _ => 0).addrs = fun _ => 0 := by
  funext k
  exact ite_self _

theorem blockAt_no_addrs {ip : Dinode} (h : ip.addrs = fun _ => 0) {data : Nat → Nat → UInt8} (bn : Nat) :
    ip.blockAt data bn = 0 := by
  simp [Dinode.blockAt, h]

theorem ok_fresh {d : Disk} (h : d.Ok sb) (hx : (d.dinode x).addrs = fun _ => 0) : (d.iupdate x (fresh t)).Ok sb where
  sound := h.sound.iupdate_congr hx.symm
  free y hy k hk := by
    by_cases hyx : y = x
    · subst hyx
      simp [Disk.iupdate, fresh]
    · simp only [Disk.iupdate, update_of_ne hyx] at hy ⊢
      exact h.free y hy k hk
  filled y hy := by
    by_cases hyx : y = x
    · subst hyx
      intro bn _
      simp [Disk.iupdate, fresh, blockAt_no_addrs]
    · simp only [Disk.iupdate, update_of_ne hyx] at hy ⊢
      exact h.filled y hy
  size_le y hy := by
    by_cases hyx : y = x
    · subst hyx
      simp [Disk.iupdate, fresh]
    · simp only [Disk.iupdate, update_of_ne hyx] at hy ⊢
      exact h.size_le y hy

theorem Holds.ialloc (h : Holds s st u) (type : Nat) (hx : s.freeinode < NINODES) (hnone : st s.freeinode = none)
    (ht : type < 2 ^ 8) (hb : (InodeType.ofShort type).hasBlocks) :
    ∃ s', s.ialloc type = some (s.freeinode, s') ∧ s'.freeinode = s.freeinode + 1 ∧
      Holds s' (update st s.freeinode (some (.ofShort type, []))) u := by
  obtain ⟨s', he, hdisk, hsame⟩ := ialloc_eq hx ht
  have hblank := h.blank _ hnone
  have hself : s'.disk.dinode s.freeinode = fresh (.ofShort type) := by
    rw [hdisk]
    simp [Disk.iupdate]
  have hother : ∀ y ≠ s.freeinode, s'.disk.dinode y = s.disk.dinode y := fun y hy => by
    rw [hdisk]
    simp [Disk.iupdate, hy]
  have hdata : s'.disk.data = s.disk.data := by rw [hdisk]; rfl
  refine ⟨s', he, hsame.freeinode, hsame.clean ⟨h.clean.lo, h.clean.hi, h.clean.zero⟩,
    hsame.freeblock.trans h.freeblock, ?_, hsame.super.trans h.super, fun y hy => ?_, fun y t c hy => ?_⟩
  · rw [hdisk]
    exact ok_fresh h.ok (by rw [hblank, addrs_blank])
  · have hne : y ≠ s.freeinode := by
      rintro rfl
      simp at hy
    rw [update_of_ne hne] at hy
    rw [hother y hne, h.blank y hy]
  · by_cases hyx : y = s.freeinode
    · subst hyx
      rw [update_self] at hy
      cases hy
      exact ⟨hx, by rw [hself]; rfl, hb, by rw [hself]; rfl, rfl,
        by rw [hself]; exact ⟨fun _ => Nat.zero_le _, fun _ => rfl⟩⟩
    · rw [update_of_ne hyx] at hy
      exact (h.made y t c hy).congr h.ok (hother y hyx) fun _ _ _ => by rw [hdata]

theorem Holds.iappend (h : Holds s st u) (hx : st x = some (t, c)) (hmax : (c ++ p).length ≤ MAXFILE * BSIZE)
    (hu : v + blocksFor c.length = u + blocksFor (c ++ p).length) (hroom : nmeta + v ≤ FSSIZE) :
    ∃ s', s.iappend x p = some s' ∧ s'.freeinode = s.freeinode ∧ Holds s' (update st x (some (t, c ++ p))) v := by
  have hm := h.made x t c hx
  have hfb := h.freeblock
  rw [length_append] at hmax hu
  obtain ⟨s', he, hc, hfb', hfi, hsup, hk, hsize, hind, hbyte⟩ :=
    iappend_ok h.clean h.ok hm.lt (by rw [hm.type]; exact hm.hasBlocks) hm.size hm.indirect hmax (by omega)
  refine ⟨s', he, hfi, hc, by omega, hk.ok, hsup.trans h.super, fun y hy => ?_, fun y t' c' hy => ?_⟩
  · have hne : y ≠ x := by
      rintro rfl
      simp at hy
    rw [update_of_ne hne] at hy
    rw [hk.dinode y hne, h.blank y hy]
  · by_cases hyx : y = x
    · subst hyx
      rw [update_self] at hy
      cases hy
      refine ⟨hm.lt, by rw [hk.fields]; exact hm.type, hm.hasBlocks, by rw [hsize, length_append], ?_,
        by rw [length_append]; exact hind⟩
      refine ext_getElem (by simp) fun i h1 h2 => ?_
      rw [length_append] at h2
      simp only [Dinode.content, getElem_map, getElem_range, Nat.zero_add]
      rw [hbyte i (by omega)]
      by_cases hi : c.length ≤ i
      · have hlt : i - c.length < p.length := by omega
        rw [if_pos ⟨hi, h2⟩, getElem_append_right hi]
        simp [hlt]
      · -- a byte that was there
        have hold : (s.disk.dinode y).byteAt s.disk.data i = (c)[i] := by
          have := congrArg (fun l : List UInt8 => l[i]?) hm.content
          simpa [Dinode.content, Nat.not_le.mp hi] using this
        rw [if_neg (fun hc => hi hc.1), hold, getElem_append_left (by omega)]
    · rw [update_of_ne hyx] at hy
      exact (h.made y t' c' hy).congr h.ok (hk.dinode y hyx) (hk.data y hyx)

/-! ### The files -/

def entries (l : List (List UInt8 × List UInt8)) : List (Nat × List UInt8) :=
  (ROOTINO, ['.'.toUInt8]) :: (ROOTINO, ['.'.toUInt8, '.'.toUInt8]) :: l.zipIdx.map fun f => (f.2 + 2, f.1.1)

def rootBytes (l : List (List UInt8 × List UInt8)) : List UInt8 := (entries l).flatMap fun e => mkDirent e.1 e.2

def store (l : List (List UInt8 × List UInt8)) (x : Nat) : Option (InodeType × List UInt8) :=
  if x = ROOTINO then some (.dir, rootBytes l)
  else if 2 ≤ x then l[x - 2]?.map fun f => (.file, f.2)
  else none

def blocksOf (l : List (List UInt8 × List UInt8)) : Nat :=
  blocksFor (DIRENT * (l.length + 2)) + (l.map fun f => blocksFor f.2.length).sum

theorem entries_append (f : List UInt8 × List UInt8) : entries (l ++ [f]) = entries l ++ [(l.length + 2, f.1)] := by
  simp [entries, zipIdx_append]

theorem entries_length : (entries l).length = l.length + 2 := by
  simp [entries]

theorem rootBytes_append (f : List UInt8 × List UInt8) :
    rootBytes (l ++ [f]) = rootBytes l ++ mkDirent (l.length + 2) f.1 := by
  simp [rootBytes, entries_append]

theorem rootBytes_length : (rootBytes l).length = DIRENT * (l.length + 2) := by
  simp [rootBytes, length_flatMap, entries_length, Nat.mul_comm]

theorem blocksOf_append (f : List UInt8 × List UInt8) : blocksOf (l ++ [f]) + blocksFor (DIRENT * (l.length + 2)) =
      blocksOf l + blocksFor (DIRENT * (l.length + 3)) + blocksFor f.2.length := by
  simp only [blocksOf, length_append, length_singleton, map_append, map_cons, map_nil,
    sum_append, sum_singleton, show l.length + 1 + 2 = l.length + 3 from rfl]
  omega

theorem blocksOf_le_append (l l' : List (List UInt8 × List UInt8)) : blocksOf l ≤ blocksOf (l ++ l') := by
  have := blocksFor_mono (m := DIRENT * (l.length + 2)) (n := DIRENT * ((l ++ l').length + 2))
    (by simp only [length_append, DIRENT]; omega)
  simp only [blocksOf, map_append, sum_append]
  omega

theorem store_of_append {e f : List UInt8 × List UInt8} (he : e.1 = f.1) :
    store (l ++ [f]) = update (store (l ++ [e])) (l.length + 2) (some (.file, f.2)) := by
  have hroot : rootBytes (l ++ [f]) = rootBytes (l ++ [e]) := by rw [rootBytes_append, rootBytes_append, he]
  funext x
  rw [update_apply]
  by_cases hx : x = l.length + 2
  · subst hx
    simp [store, ROOTINO]
  · rw [if_neg hx]
    simp only [store, hroot]
    by_cases h2 : 2 ≤ x
    · have : (l ++ [f])[x - 2]? = (l ++ [e])[x - 2]? := by
        rcases Nat.lt_or_ge (x - 2) l.length with hlt | hge
        · rw [List.getElem?_append_left hlt, List.getElem?_append_left hlt]
        · rw [List.getElem?_eq_none (by simp; omega), List.getElem?_eq_none (by simp; omega)]
      rw [this]
    · rw [if_neg h2, if_neg h2]

theorem store_new (n : List UInt8) : update (update (store l) (l.length + 2) (some (.file, []))) ROOTINO
    (some (.dir, rootBytes l ++ mkDirent (l.length + 2) n)) = store (l ++ [(n, [])]) := by
  funext x
  rw [update_apply, update_apply]
  by_cases h1 : x = ROOTINO
  · subst h1
    simp [store, rootBytes_append]
  · rw [if_neg h1]
    by_cases hx : x = l.length + 2
    · subst hx
      simp [store, ROOTINO]
    · rw [if_neg hx]
      simp only [store, if_neg h1]
      by_cases h2 : 2 ≤ x
      · rw [if_pos h2, if_pos h2]
        rcases Nat.lt_or_ge (x - 2) l.length with hlt | hge
        · rw [List.getElem?_append_left hlt]
        · rw [List.getElem?_eq_none (by omega), List.getElem?_eq_none (by simp; omega)]
      · rw [if_neg h2, if_neg h2]

/-- The image holds the files with these names and contents. -/
structure HoldsFiles (s : State) (l : List (List UInt8 × List UInt8)) : Prop where
  holds : Holds s (store l) (blocksOf l)
  freeinode : s.freeinode = l.length + 2

theorem HoldsFiles.create (h : HoldsFiles s l) (hi : l.length + 2 < NINODES)
    (hroom : nmeta + blocksOf (l ++ [(n, [])]) ≤ FSSIZE) :
    ∃ s₁ s₂, s.ialloc 2 = some (l.length + 2, s₁) ∧ s₁.iappend ROOTINO (mkDirent (l.length + 2) n) = some s₂ ∧
      HoldsFiles s₂ (l ++ [(n, [])]) := by
  have hfi := h.freeinode
  obtain ⟨s₁, he₁, hfi₁, h₁⟩ := h.holds.ialloc 2 (by omega) (by simp [hfi, store, ROOTINO]) (by decide) (.inr rfl)
  rw [hfi] at he₁ h₁
  have hblocks := blocksOf_append (l := l) (n, [])
  rw [show blocksFor ([] : List UInt8).length = 0 from rfl, Nat.add_zero] at hblocks
  obtain ⟨s₂, he₂, hfi₂, h₂⟩ :=
    h₁.iappend (x := ROOTINO) (t := .dir) (c := rootBytes l) (p := mkDirent (l.length + 2) n)
    (v := blocksOf (l ++ [(n, [])])) (by rw [update_of_ne (by simp [ROOTINO])]; rfl)
    (by
      rw [length_append, rootBytes_length, mkDirent_length]
      simp only [DIRENT, NINODES, MAXFILE, NDIRECT, NINDIRECT, BSIZE] at *
      omega)
    (by
      rw [length_append, rootBytes_length, mkDirent_length, hblocks]
      rfl) hroom
  rw [show InodeType.ofShort 2 = .file from rfl, store_new] at h₂
  exact ⟨s₁, s₂, he₁, he₂, h₂, by simp; omega⟩

theorem HoldsFiles.append (h : HoldsFiles s (l ++ [(n, c)])) (hmax : (c ++ p).length ≤ MAXFILE * BSIZE)
    (hroom : nmeta + blocksOf (l ++ [(n, c ++ p)]) ≤ FSSIZE) :
    ∃ s', s.iappend (l.length + 2) p = some s' ∧ HoldsFiles s' (l ++ [(n, c ++ p)]) := by
  have h1 := blocksOf_append (l := l) (n, c)
  have h2 := blocksOf_append (l := l) (n, c ++ p)
  dsimp only at h1 h2
  obtain ⟨s', he, hfi, h'⟩ := h.holds.iappend (x := l.length + 2) (t := .file) (c := c) (p := p)
    (v := blocksOf (l ++ [(n, c ++ p)])) (by simp [store, ROOTINO]) hmax (by omega) hroom
  rw [← store_of_append (e := (n, c)) (f := (n, c ++ p)) rfl] at h'
  exact ⟨s', he, h', by rw [hfi, h.freeinode]; simp⟩

theorem HoldsFiles.reads (h : HoldsFiles s (l ++ [(n, c)])) (rs : List (List UInt8))
    (hmax : (c ++ rs.flatten).length ≤ MAXFILE * BSIZE)
    (hroom : nmeta + blocksOf (l ++ [(n, c ++ rs.flatten)]) ≤ FSSIZE) :
    ∃ s', rs.foldlM (fun s buf => s.iappend (l.length + 2) buf) s = some s' ∧
    HoldsFiles s' (l ++ [(n, c ++ rs.flatten)]) := by
  induction rs generalizing s c with
  | nil => exact ⟨s, rfl, by simpa using h⟩
  | cons r rs ih =>
    rw [flatten_cons, ← append_assoc] at hmax hroom ⊢
    have hle : (c ++ r).length ≤ (c ++ r ++ rs.flatten).length := by simp
    have hroom' : nmeta + blocksOf (l ++ [(n, c ++ r)]) ≤ FSSIZE := by
      have h1 := blocksOf_append (l := l) (n, c ++ r)
      have h2 := blocksOf_append (l := l) (n, c ++ r ++ rs.flatten)
      have h3 := blocksFor_mono hle
      dsimp only at h1 h2
      omega
    obtain ⟨s₁, he₁, h₁⟩ := h.append (hle.trans hmax) hroom'
    obtain ⟨s₂, he₂, h₂⟩ := ih h₁ hmax hroom
    refine ⟨s₂, ?_, h₂⟩
    rw [foldlM_cons, he₁]
    exact he₂

theorem HoldsFiles.addFile (h : HoldsFiles s l) (hi : l.length + 2 < NINODES) (hslash : '/'.toUInt8 ∉ f.arg)
    (hmax : f.content.length ≤ MAXFILE * BSIZE) (hroom : nmeta + blocksOf (l ++ [(f.name, f.content)]) ≤ FSSIZE) :
    ∃ s', Mkfs.addFile ROOTINO s f = some s' ∧ HoldsFiles s' (l ++ [(f.name, f.content)]) := by
  have hroom' : nmeta + blocksOf (l ++ [(f.name, [])]) ≤ FSSIZE := by
    have h1 := blocksOf_append (l := l) (f.name, [])
    have h2 := blocksOf_append (l := l) (f.name, f.content)
    rw [show blocksFor ([] : List UInt8).length = 0 from rfl] at h1
    dsimp only at h2
    omega
  obtain ⟨s₁, s₂, he₁, he₂, h₂⟩ := h.create hi hroom'
  obtain ⟨s₃, he₃, h₃⟩ := h₂.reads f.reads hmax hroom
  refine ⟨s₃, ?_, h₃⟩
  simp only [Mkfs.addFile, if_neg hslash, he₁]
  change (s₁.iappend ROOTINO _ >>= _) = _
  rw [he₂]
  exact he₃

def File.made (f : File) : List UInt8 × List UInt8 := (f.name, f.content)

theorem HoldsFiles.addFiles (h : HoldsFiles s l) (files : List File) (hi : l.length + files.length + 2 ≤ NINODES)
    (hslash : ∀ f ∈ files, '/'.toUInt8 ∉ f.arg) (hmax : ∀ f ∈ files, f.content.length ≤ MAXFILE * BSIZE)
    (hroom : nmeta + blocksOf (l ++ files.map File.made) ≤ FSSIZE) :
    ∃ s', files.foldlM (Mkfs.addFile ROOTINO) s = some s' ∧ HoldsFiles s' (l ++ files.map File.made) := by
  induction files generalizing s l with
  | nil => exact ⟨s, rfl, by simpa using h⟩
  | cons f files ih =>
    rw [map_cons, append_cons] at hroom ⊢
    rw [length_cons] at hi
    obtain ⟨s₁, he₁, h₁⟩ := h.addFile (f := f) (by omega) (hslash f mem_cons_self) (hmax f mem_cons_self)
      (le_trans (Nat.add_le_add_left (blocksOf_le_append ..) _) hroom)
    obtain ⟨s₂, he₂, h₂⟩ := ih h₁ (by simp; omega) (fun g hg => hslash g (mem_cons_of_mem _ hg))
      (fun g hg => hmax g (mem_cons_of_mem _ hg)) hroom
    refine ⟨s₂, ?_, h₂⟩
    rw [foldlM_cons, he₁]
    exact he₂

/-! ### The empty image and the root directory -/

theorem start_zero {b : Nat} (hb : b ≠ 1) : start.img b = fun _ => 0 := by
  simp [start, hb]

theorem start_dinode (x : Nat) : start.disk.dinode x = .ofBytes fun _ => 0 := by
  by_cases hx : x < NINODES
  · rw [disk_dinode hx, start_zero (by have := iblock_bounds hx; omega)]
    rfl
  · exact disk_dinode_beyond (by omega)

theorem start_holds : Holds start (fun _ => none) 0 where
  clean := ⟨le_rfl, by decide, fun b hb => start_zero (by rintro rfl; exact absurd hb (by decide))⟩
  freeblock := rfl
  super := rfl
  blank x _ := start_dinode x
  made x t c h := by cases h
  ok := {
    sound := by
      have hown : ∀ x, start.disk.own x = none := fun x => by
        rw [Disk.own, start_dinode]
        exact Disk.slot_no_addrs fun k _ => by rw [addrs_blank]
      refine ⟨⟨fun h => ?_, fun h => ?_, fun {b} hb => ?_⟩, fun b hb => decide_eq_true hb⟩
      · rw [hown] at h
        cases h
      · rw [hown] at h
        cases h
      · have : ¬b < nmeta := Nat.not_lt.mpr hb.1
        change decide (b < nmeta) = true ↔ _
        simp [this, hown]
    free := fun x _ k _ => by rw [start_dinode, addrs_blank]
    filled := fun x h => by
      rw [start_dinode] at h
      rcases h with h | h <;> cases h
    size_le := fun x h => by
      rw [start_dinode] at h
      rcases h with h | h <;> cases h }

theorem root_holds : ∃ s₀ s₁ s₂, start.ialloc 1 = some (ROOTINO, s₀) ∧
    s₀.iappend ROOTINO (mkDirent ROOTINO ['.'.toUInt8]) = some s₁ ∧
    s₁.iappend ROOTINO (mkDirent ROOTINO ['.'.toUInt8, '.'.toUInt8]) = some s₂ ∧ HoldsFiles s₂ [] := by
  obtain ⟨s₀, he₀, hf₀, h₀⟩ := start_holds.ialloc 1 (by decide) rfl (by decide) (.inl rfl)
  obtain ⟨s₁, he₁, hf₁, h₁⟩ := h₀.iappend (x := ROOTINO) (t := .dir) (c := []) (p := mkDirent ROOTINO ['.'.toUInt8])
    (v := 1) rfl (by decide) (by decide) (by decide)
  obtain ⟨s₂, he₂, hf₂, h₂⟩ := h₁.iappend (x := ROOTINO) (t := .dir) (p := mkDirent ROOTINO ['.'.toUInt8, '.'.toUInt8])
    (v := 1) (update_self ..) (by decide) (by decide) (by decide)
  refine ⟨s₀, s₁, s₂, he₀, he₁, he₂, ?_, by rw [hf₂, hf₁, hf₀]; rfl⟩
  have hstore : store [] = update (update (update (fun _ => none) start.freeinode
      (some (.ofShort 1, []))) ROOTINO (some (.dir, [] ++ mkDirent ROOTINO ['.'.toUInt8]))) ROOTINO
      (some (.dir, [] ++ mkDirent ROOTINO ['.'.toUInt8] ++ mkDirent ROOTINO ['.'.toUInt8, '.'.toUInt8])) := by
    funext x
    by_cases hx : x = ROOTINO
    · subst hx
      rw [update_self]
      rfl
    · have hx' : x ≠ start.freeinode := hx
      rw [update_of_ne hx, update_of_ne hx, update_of_ne hx']
      simp [store, hx]
  rw [hstore]
  exact h₂

/-! ### The last steps -/

theorem testBit_set (a : UInt8) {i k : Nat} (hi : i < 8) (hk : k < 8) :
    (a ||| 1 <<< UInt8.ofNat k).toNat.testBit i = (a.toNat.testBit i || decide (i = k)) := by
  have hone : ∀ i k : Fin 8, ((1 : UInt8) <<< UInt8.ofNat k.val).toNat.testBit i.val = decide (i.val = k.val) := by
    decide
  rw [UInt8.toNat_or, Nat.testBit_or, hone ⟨i, hi⟩ ⟨k, hk⟩]

theorem bits_eq (used : Nat) {j i : Nat} (hi : i < 8) :
    ((List.range used).foldl (fun buf i => update buf (i / 8) (buf (i / 8) ||| 1 <<< UInt8.ofNat (i % 8)))
      (fun _ => (0 : UInt8)) j).toNat.testBit i = decide (8 * j + i < used) := by
  induction used with
  | zero => simp
  | succ m ih =>
    rw [range_succ, foldl_append, foldl_cons, foldl_nil, update_apply]
    split
    · rename_i hj
      rw [← hj, testBit_set _ hi (Nat.mod_lt _ (by decide)), ih, ← Bool.decide_or]
      exact decide_eq_decide.mpr (by omega)
    · rename_i hj
      rw [ih]
      exact decide_eq_decide.mpr (by omega)

def rootSize (n : Nat) : Nat := (n / BSIZE + 1) * BSIZE

structure Final (s : State) (img : FsImage) : Prop where
  super : img 1 = s.img 1
  dinode : (Disk.ofImage sb img).dinode = update s.disk.dinode ROOTINO {
    s.disk.dinode ROOTINO with size := rootSize (s.disk.dinode ROOTINO).size }
  data : (Disk.ofImage sb img).data = s.disk.data
  bitmap : ∀ b < FSSIZE, (Disk.ofImage sb img).bitmap b = decide (b < s.freeblock)

theorem balloc_eq (h : s.freeblock ≤ FSSIZE) :
    ∃ s', s.balloc s.freeblock = some s' ∧ s'.img 1 = s.img 1 ∧ (Disk.ofImage sb s'.img).dinode = s.disk.dinode ∧
      (Disk.ofImage sb s'.img).data = s.disk.data ∧
      ∀ b < FSSIZE, (Disk.ofImage sb s'.img).bitmap b = decide (b < s.freeblock) := by
  have hlt : s.freeblock < BSIZE * 8 := lt_of_le_of_lt h (by decide)
  have hbmap : sb.bmapstart = 58 := rfl
  have hsup : ∀ buf, (s.wsect sb.bmapstart buf).img 1 = s.img 1 := fun buf =>
    update_of_ne (show 1 ≠ sb.bmapstart by rw [hbmap]; decide) buf s.img
  refine ⟨_, by rw [State.balloc, if_pos hlt], hsup _, ?_, ?_, fun b hb => ?_⟩
  · funext x
    by_cases hx : x < NINODES
    · have hne : IBLOCK x sb ≠ sb.bmapstart := by
        have h1 : IBLOCK x sb = x / 8 + 32 := rfl
        simp only [NINODES] at hx
        omega
      exact (if_pos hx).trans (by rw [disk_dinode hx, State.wsect]; simp only [update_of_ne hne])
    · exact (if_neg hx).trans (if_neg hx).symm
  · funext c
    by_cases hc : nmeta ≤ c
    · have hne : c ≠ sb.bmapstart := by
        have : nmeta = 59 := rfl
        omega
      exact (if_pos hc).trans (by rw [disk_data hc]; exact update_of_ne hne _ _)
    · exact (if_neg hc).trans (if_neg hc).symm
  · have hsmall : b < 4096 := lt_trans hb (by decide)
    have h1 : BBLOCK b sb = sb.bmapstart := by
      simp only [BBLOCK, BPB, BSIZE]
      omega
    have h2 : b % BPB = b := Nat.mod_eq_of_lt hsmall
    simp only [Disk.ofImage, h1, h2, State.wsect, update_self]
    rw [bits_eq _ (Nat.mod_lt _ (by decide))]
    exact decide_eq_decide.mpr (by omega)

theorem addFiles_slash (h : ∃ f ∈ files, '/'.toUInt8 ∈ f.arg) : files.foldlM (addFile x) s = none := by
  induction files generalizing s with
  | nil => simp at h
  | cons g files ih =>
    rw [foldlM_cons]
    obtain ⟨f, hf, hslash⟩ := h
    rcases mem_cons.mp hf with rfl | hf
    · rw [addFile, if_pos hslash]
      rfl
    · cases he : addFile x s g with
      | none => rfl
      | some s₁ => exact ih ⟨f, hf, hslash⟩

/-! ### The input files -/

def blocksNeeded (files : List File) : Nat :=
  blocksFor (DIRENT * (files.length + 2)) + (files.map fun f => blocksFor f.content.length).sum

/-- Names that are not empty and differ in what a directory entry holds of them, and files that fit. -/
@[mk_iff] structure Inputs (files : List File) : Prop where
  cstr : ∀ f ∈ files, 0 ∉ f.arg
  nonempty : ∀ f ∈ files, f.name.take DIRSIZ ≠ []
  distinct : (files.map fun f => f.name.take DIRSIZ).Nodup
  size_le : ∀ f ∈ files, f.content.length ≤ MAXFILE * BSIZE
  inodes : files.length + 1 ≤ NINODES - 1
  blocks : nmeta + blocksNeeded files ≤ FSSIZE

instance Inputs.decidable (files : List File) : Decidable (Inputs files) := decidable_of_iff _ (inputs_iff files).symm

theorem blocksOf_made : blocksOf (files.map File.made) = blocksNeeded files := by
  simp [blocksOf, blocksNeeded, File.made, Function.comp_def]

theorem mkfs_eq (h : Inputs files) (hslash : ∀ f ∈ files, '/'.toUInt8 ∉ f.arg) :
    ∃ img s, mkfs files = some img ∧ HoldsFiles s (files.map File.made) ∧ Final s img := by
  obtain ⟨s₀, s₁, s₂, he₀, he₁, he₂, h₂⟩ := root_holds
  have hi := h.inodes
  simp only [NINODES] at hi
  obtain ⟨s₃, he₃, h₃⟩ := h₂.addFiles files (by simp only [length_nil, NINODES]; omega) hslash h.size_le
    (by rw [nil_append, blocksOf_made]; exact h.blocks)
  rw [nil_append] at h₃
  obtain ⟨din, hr, hdin⟩ := rinode_eq (s := s₃) (x := ROOTINO) (by decide)
  have hsz : Bytes.word din 2 = (s₃.disk.dinode ROOTINO).size := by rw [← hdin]; rfl
  have hle : (s₃.disk.dinode ROOTINO).size ≤ MAXFILE * BSIZE := by
    have hm := h₃.holds.made ROOTINO _ _ rfl
    rw [hm.size]
    exact hm.length_le h₃.holds.ok
  obtain ⟨s₄, hw, hdisk, hsame⟩ := winode_eq (s := s₃) (x := ROOTINO)
    (Bytes.setWord din 2 (rootSize (s₃.disk.dinode ROOTINO).size)) (by decide)
  rw [Dinode.ofBytes_setWord_size (by simp only [rootSize, MAXFILE, NDIRECT, NINDIRECT, BSIZE] at *; omega), hdin]
    at hdisk
  obtain ⟨s₅, hb, hsup, hino, hdata, hbit⟩ := balloc_eq (s := s₄) (by rw [hsame.freeblock]; exact h₃.holds.clean.hi)
  refine ⟨s₅.img, s₃, ?_, h₃, hsup.trans hsame.super, by rw [hino, hdisk]; rfl, by rw [hdata, hdisk]; rfl,
    fun b hb => by rw [hbit b hb, hsame.freeblock]⟩
  simp only [mkfs, he₀, he₁, he₂, he₃, hr, bind_eq_bind, bind_some, ne_eq, not_true_eq_false, if_false, hsz]
  change ((s₃.winode ROOTINO (Bytes.setWord din 2 (rootSize _))).bind _) = _
  rw [hw]
  simp only [bind_some, hb]

theorem mkfs_slash (h : ∃ f ∈ files, '/'.toUInt8 ∈ f.arg) : mkfs files = none := by
  obtain ⟨s₀, s₁, s₂, he₀, he₁, he₂, h₂⟩ := root_holds
  simp only [mkfs, he₀, he₁, he₂, addFiles_slash h, bind_eq_bind, bind_some, bind_none, ne_eq,
    not_true_eq_false, if_false]

theorem mkfs_some (h : Inputs files) (hm : mkfs files = some img) :
    ∃ s, HoldsFiles s (files.map File.made) ∧ Final s img := by
  have hslash : ∀ f ∈ files, '/'.toUInt8 ∉ f.arg := fun f hf hc => by
    rw [mkfs_slash ⟨f, hf, hc⟩] at hm
    cases hm
  obtain ⟨img', s, he, hs, hf⟩ := mkfs_eq h hslash
  rw [hm] at he
  cases he
  exact ⟨s, hs, hf⟩

/-! ### Consistency -/

theorem Final.addrs (hf : Final s img) (x : Nat) :
    ((Disk.ofImage sb img).dinode x).addrs = (s.disk.dinode x).addrs := by
  rw [hf.dinode, update_apply]
  split
  · rename_i hx
    rw [hx]
  · rfl

theorem Final.slot (hf : Final s img) (x k : Nat) :
    ((Disk.ofImage sb img).dinode x).slot (Disk.ofImage sb img).data k = (s.disk.dinode x).slot s.disk.data k := by
  rw [hf.data]
  exact Dinode.slot_congr (hf.addrs x) fun _ => rfl

theorem Final.blockAt (hf : Final s img) (x k : Nat) :
    ((Disk.ofImage sb img).dinode x).blockAt (Disk.ofImage sb img).data k =
    (s.disk.dinode x).blockAt s.disk.data k := by
  rw [hf.data]
  exact Dinode.blockAt_congr (hf.addrs x) fun _ => rfl

theorem Final.content (hf : Final s img) (x : Nat) :
    ((Disk.ofImage sb img).dinode x).content (Disk.ofImage sb img).data = (s.disk.dinode x).content s.disk.data := by
  funext off n
  simp only [Dinode.content, Dinode.byteAt, hf.blockAt]
  rw [hf.data]

theorem HoldsFiles.root (h : HoldsFiles s l) : Made s ROOTINO .dir (rootBytes l) := h.holds.made _ _ _ rfl

theorem HoldsFiles.root_block (h : HoldsFiles s l) (bn : Nat) (hbn : bn < MAXFILE) :
    (s.disk.dinode ROOTINO).blockAt s.disk.data bn ≠ 0 ↔ bn * BSIZE < DIRENT * (l.length + 2) := by
  have hfill := h.holds.ok.filled ROOTINO (by rw [h.root.type]; exact h.root.hasBlocks) bn hbn
  rwa [h.root.size, rootBytes_length] at hfill

theorem backed_iff (h : HoldsFiles s l) (hl : l.length + 2 ≤ NINODES) (hf : Final s img) :
    (Disk.ofImage sb img).Backed sb ↔ (l.length + 2) % 32 ≠ 0 := by
  have howns := h.holds.ok.sound.owns
  have hroot : ((Disk.ofImage sb img).dinode ROOTINO).size = rootSize (DIRENT * (l.length + 2)) := by
    rw [hf.dinode, update_self, ← rootBytes_length, ← h.root.size]
  simp only [NINODES] at hl
  refine ⟨fun hb hmod => ?_, fun hmod => ⟨fun x y j k b hx hy => ?_, fun x k b hx => ?_, fun b hlo hhi => ?_,
    fun x bn hbn => ?_⟩⟩
  · have hlast := hb.blocks ROOTINO (DIRENT * (l.length + 2) / BSIZE) (by
      rw [hroot]
      simp only [rootSize, DIRENT, BSIZE]
      omega)
    rw [hf.blockAt, h.root_block _ (by simp only [DIRENT, BSIZE, MAXFILE, NDIRECT, NINDIRECT]; omega)] at hlast
    simp only [DIRENT, BSIZE] at hlast
    omega
  · rw [hf.slot] at hx hy
    exact Prod.mk.inj (howns.inj (x := (x, j)) (y := (y, k)) hx hy)
  · rw [hf.slot] at hx
    exact howns.mem (x := (x, k)) hx
  · rw [hf.bitmap b hhi]
    simp only [hf.slot]
    exact (howns.used_iff ⟨hlo, hhi⟩).trans Prod.exists
  · rw [hf.blockAt]
    by_cases hx : x = ROOTINO
    · subst hx
      rw [hroot] at hbn
      simp only [rootSize, DIRENT, BSIZE] at hbn
      rw [h.root_block _ (by simp only [MAXFILE, NDIRECT, NINDIRECT]; omega)]
      simp only [DIRENT, BSIZE]
      omega
    · rw [hf.dinode, update_of_ne hx] at hbn
      cases hst : store l x with
      | none =>
        rw [h.holds.blank x hst] at hbn
        exact absurd hbn (by simp [Dinode.ofBytes, BSIZE])
      | some tc =>
        have hm := h.holds.made x tc.1 tc.2 hst
        have hle := hm.length_le h.holds.ok
        have hfill := h.holds.ok.filled x (by rw [hm.type]; exact hm.hasBlocks) bn (by
          rw [hm.size] at hbn
          simp only [BSIZE] at *
          omega)
        rw [hfill]
        simp only [BSIZE] at *
        omega

/-- The image is consistent unless the entries of the root directory, with "." and "..", fill its blocks: then the size
    that mkfs sets for it asks for one block more than it has. -/
theorem mkfs_backed_iff (h : Inputs files) : ((∃ img, mkfs files = some img) ↔ ∀ f ∈ files, '/'.toUInt8 ∉ f.arg) ∧
      ∀ img, mkfs files = some img → ((Disk.ofImage sb img).Backed sb ↔ (files.length + 2) % 32 ≠ 0) := by
  refine ⟨⟨fun ⟨img, hm⟩ f hf hc => ?_, fun hslash => ?_⟩, fun img hm => ?_⟩
  · rw [mkfs_slash ⟨f, hf, hc⟩] at hm
    cases hm
  · obtain ⟨img, -, hm, -⟩ := mkfs_eq h hslash
    exact ⟨img, hm⟩
  · obtain ⟨s, hs, hf⟩ := mkfs_some h hm
    have hi := h.inodes
    have := backed_iff hs (by simp only [length_map, NINODES] at *; omega) hf
    rwa [length_map] at this

def letters (n : Nat) : List File := (List.range n).map fun i => { arg := [UInt8.ofNat (65 + i)], reads := [] }

theorem letters_inputs : Inputs (letters 30) := by decide

theorem letters_two_inputs : Inputs (letters 2) := by decide

theorem mkfs_backed_two : ∃ img, mkfs (letters 2) = some img ∧ (Disk.ofImage sb img).Backed sb := by
  obtain ⟨hex, hiff⟩ := mkfs_backed_iff letters_two_inputs
  obtain ⟨img, hm⟩ := hex.mpr (by decide)
  exact ⟨img, hm, (hiff img hm).mpr (by decide)⟩

/-- Thirty files: 32 entries fill the first block of the root directory, whose size becomes 1024. -/
theorem mkfs_thirty_not_backed :
    Inputs (letters 30) ∧ ∃ img, mkfs (letters 30) = some img ∧ ((Disk.ofImage sb img).dinode ROOTINO).size = 1024 ∧
      ((Disk.ofImage sb img).dinode ROOTINO).blockAt (Disk.ofImage sb img).data 1 = 0 ∧
      ¬(Disk.ofImage sb img).Backed sb := by
  obtain ⟨img, s, hm, hs, hf⟩ := mkfs_eq letters_inputs (by decide)
  have hlen : ((letters 30).map File.made).length = 30 := rfl
  refine ⟨letters_inputs, img, hm, ?_, ?_, fun hb => (backed_iff hs (by decide) hf).mp hb (by rw [hlen])⟩
  · rw [hf.dinode, update_self]
    change rootSize (s.disk.dinode ROOTINO).size = _
    rw [hs.root.size, rootBytes_length, hlen]
    rfl
  · have := hs.root_block 1 (by decide)
    rw [hlen] at this
    rw [hf.blockAt]
    by_contra h0
    exact absurd (this.mp h0) (by decide)

/-! ### What the kernel finds -/

theorem drop_flatMap {α β : Type} {g : α → List β} {w : Nat} (hw : ∀ a, (g a).length = w) {l : List α} {k : Nat} {a : α}
    (hk : l[k]? = some a) : ((l.flatMap g).drop (k * w)).take w = g a := by
  induction l generalizing k with
  | nil => cases hk
  | cons b l ih =>
    rw [flatMap_cons]
    cases k with
    | zero =>
      cases hk
      rw [Nat.zero_mul, drop_zero, take_left' (hw _)]
    | succ k =>
      rw [Nat.succ_mul, Nat.add_comm, ← drop_drop, drop_left' (hw b)]
      exact ih (by simpa using hk)

theorem HoldsFiles.dirent (h : HoldsFiles s l) {e : Nat × List UInt8} (hk : (entries l)[k]? = some e) :
    (s.disk.dinode ROOTINO).content s.disk.data (k * DIRENT) DIRENT = mkDirent e.1 e.2 := by
  have hlt : k < l.length + 2 := by
    rw [← entries_length]
    exact (List.getElem?_eq_some_iff.mp hk).1
  rw [← Dinode.content_slice (n := (rootBytes l).length) (by rw [rootBytes_length]; simp only [DIRENT]; omega),
    h.root.content]
  exact drop_flatMap (fun _ => mkDirent_length) hk

end Mkfs

namespace Disk

variable {sb : Superblock} {d : Disk} {ip : Dinode} {t off n : Nat}

theorem readi_of_blocks (hf : ∀ bn < MAXFILE, bn * BSIZE < t → ip.blockAt d.data bn ≠ 0) (ht : t ≤ MAXFILE * BSIZE)
    (hle : t ≤ ip.size) (hoff : off + n ≤ t) : readi sb d ip off n = .ok (some (ip.content d.data off n), ip, d) := by
  have hm : MAXFILE * BSIZE = 71680 := rfl
  rw [readi, if_neg (by omega), if_neg (by omega)]
  simp only [readBlocks_eq hf ht le_rfl hoff]
  rfl

theorem dirScan_found {msg : String} {stop : List UInt8 → Bool} {g : Nat → List UInt8} {k j fuel : Nat}
    (hg : ∀ i ≤ k, readi sb d ip (i * DIRENT) DIRENT = .ok (some (g i), ip, d) ∧ (g i).length = DIRENT)
    (hsize : k * DIRENT < ip.size) (hno : ∀ i < k, stop (g i) = false) (hyes : stop (g k) = true) (hj : j ≤ k)
    (hfuel : k < j + fuel) : dirScan sb msg stop fuel d ip (j * DIRENT) = .ok ((k * DIRENT, some (g k)), ip, d) := by
  induction fuel generalizing j with
  | zero => omega
  | succ fuel ih =>
    have hlt : j * DIRENT < ip.size := lt_of_le_of_lt (Nat.mul_le_mul_right _ hj) hsize
    obtain ⟨hr, hlen⟩ := hg j hj
    simp only [dirScan, hlt, if_true, hr, Except.ok_bind, hlen]
    rcases Nat.lt_or_eq_of_le hj with hjk | rfl
    · rw [hno j hjk, show j * DIRENT + DIRENT = (j + 1) * DIRENT by simp only [DIRENT]; omega]
      exact ih hjk (by omega)
    · rw [hyes]
      rfl

end Disk

namespace Mkfs

open State

variable {s s' : State} {img : FsImage} {files : List File} {f : File} {k : Nat} {n : List UInt8}
  {l : List (List UInt8 × List UInt8)}

theorem dirlookup_eq (h : HoldsFiles s l) (hl : l.length + 2 ≤ NINODES) (hf : Final s img) {e : Nat × List UInt8}
    (hk : (entries l)[k]? = some e) (he : cname e.2 = cname n)
    (hfirst : ∀ i < k, ∀ e', (entries l)[i]? = some e' → cname e'.2 ≠ cname n) {P : Type} [DecidableEq P] (t : Fs P)
    (p : P)
    (i : Fin NINODE) (hdisk : t.disk = Disk.ofImage sb img)
    (hi : (t.icache i).d = (Disk.ofImage sb img).dinode ROOTINO) :
    t.dirlookup sb p i n = (t.iget p e.1).bind fun r => .ok (some (r.1, k * DIRENT), r.2) := by
  have hlt : k < l.length + 2 := by
    rw [← entries_length]
    exact (List.getElem?_eq_some_iff.mp hk).1
  simp only [NINODES] at hl
  obtain ⟨sz, hsz⟩ : ∃ sz, sz = DIRENT * (l.length + 2) := ⟨_, rfl⟩
  have hsize : ((Disk.ofImage sb img).dinode ROOTINO).size = rootSize sz := by
    rw [hf.dinode, update_self, hsz, ← rootBytes_length, ← h.root.size]
  have htype : ((Disk.ofImage sb img).dinode ROOTINO).type = .dir := by
    rw [hf.dinode, update_self]
    exact h.root.type
  -- the entries, and what the comparison says of each
  have hinum : ∀ (i : Nat) (e' : Nat × List UInt8), (entries l)[i]? = some e' → 0 < e'.1 ∧ e'.1 < 2 ^ 16 := by
    intro i e' hi
    obtain ⟨hlt', rfl⟩ := List.getElem?_eq_some_iff.mp hi
    rw [entries_length] at hlt'
    rcases i with - | - | i
    · simp [entries, ROOTINO]
    · simp [entries, ROOTINO]
    · simp [entries]
      omega
  obtain ⟨stop, hstop⟩ : ∃ stop : List UInt8 → Bool, stop = fun de => direntInum de ≠ 0 ∧ nameEq n (direntName de) :=
    ⟨_, rfl⟩
  have hval : ∀ (i : Nat) (e' : Nat × List UInt8), (entries l)[i]? = some e' →
      stop (mkDirent e'.1 e'.2) = decide (cname e'.2 = cname n) := by
    intro i e' hi
    obtain ⟨h0, h1⟩ := hinum i e' hi
    simp only [hstop, direntInum_mkDirent h1, direntName_mkDirent, nameEq, cname_cname]
    simp [h0.ne', eq_comm]
  have hget : ∀ i ≤ k, ∃ e', (entries l)[i]? = some e' := fun i hi =>
    ⟨_, List.getElem?_eq_getElem (by rw [entries_length]; omega)⟩
  have hread : ∀ i ≤ k, (Disk.ofImage sb img).readi sb ((Disk.ofImage sb img).dinode ROOTINO) (i * DIRENT) DIRENT =
      .ok (some ((s.disk.dinode ROOTINO).content s.disk.data (i * DIRENT) DIRENT), (Disk.ofImage sb img).dinode ROOTINO,
        Disk.ofImage sb img) := fun i hi => by
    rw [← hf.content]
    refine Disk.readi_of_blocks (t := sz) (fun bn hbn hb => ?_) ?_ ?_ ?_
    · rw [hf.blockAt, h.root_block bn hbn, ← hsz]
      exact hb
    · simp only [hsz, DIRENT, MAXFILE, NDIRECT, NINDIRECT, BSIZE]
      omega
    · rw [hsize]
      simp only [rootSize, BSIZE]
      omega
    · simp only [hsz, DIRENT]
      omega
  have hscan : (Disk.ofImage sb img).dirScan sb "dirlookup read" stop
      (((Disk.ofImage sb img).dinode ROOTINO).size / DIRENT + 1) ((Disk.ofImage sb img).dinode ROOTINO) (0 * DIRENT) =
      _ :=
    Disk.dirScan_found (g := fun i => (s.disk.dinode ROOTINO).content s.disk.data (i * DIRENT) DIRENT)
      (fun i hi => ⟨hread i hi, Dinode.content_length⟩)
      (by rw [hsize]; simp only [rootSize, hsz, DIRENT, BSIZE]; omega)
      (fun i hi => by
        obtain ⟨e', he'⟩ := hget i hi.le
        rw [h.dirent he', hval i e' he']
        exact decide_eq_false (hfirst i hi e' he'))
      (by rw [h.dirent hk, hval k e hk]; exact decide_eq_true he) (Nat.zero_le _)
      (by rw [hsize]; simp only [rootSize, hsz, DIRENT, BSIZE]; omega)
  rw [Nat.zero_mul] at hscan
  have hself : t.setCopy i ((Disk.ofImage sb img).dinode ROOTINO) (Disk.ofImage sb img) = t := by
    rw [← hi, ← hdisk]
    simp [Fs.setCopy, Fs.setInode]
  rw [Fs.dirlookup, hi, if_neg (by rw [htype]; simp), ← hstop]
  simp only [Fs.dirScan, hi, hdisk, hscan, Except.ok_bind, hself, h.dirent hk, direntInum_mkDirent (hinum k e hk).2]
  rfl

/-- The file as the kernel reads it: `dirlookup` in the root directory finds the name, and `readi` from offset 0 returns
    the bytes of the inode found, all of them. -/
def ReadsBack (img : FsImage) (f : File) : Prop :=
  ∃ inum off,
    (∀ (P : Type) [DecidableEq P] (t : Fs P) (p : P) (i : Fin NINODE), t.disk = Disk.ofImage sb img →
      (t.icache i).d = (Disk.ofImage sb img).dinode ROOTINO →
        t.dirlookup sb p i f.name = (t.iget p inum).bind fun r => .ok (some (r.1, off), r.2)) ∧
    ((Disk.ofImage sb img).dinode inum).type = .file ∧ ((Disk.ofImage sb img).dinode inum).size = f.content.length ∧
    ∀ n < 2 ^ 32, f.content.length ≤ n → (Disk.ofImage sb img).readi sb ((Disk.ofImage sb img).dinode inum) 0 n =
      .ok (some f.content, (Disk.ofImage sb img).dinode inum, Disk.ofImage sb img)

/-- The fields of the superblock that the kernel reads. -/
structure SuperOk (img : FsImage) : Prop where
  size : Bytes.word (img 1) 0 = sb.size
  nblocks : Bytes.word (img 1) 1 = sb.nblocks
  ninodes : Bytes.word (img 1) 2 = sb.ninodes
  nlog : Bytes.word (img 1) 3 = LOGSIZE
  logstart : Bytes.word (img 1) 4 = 2
  inodestart : Bytes.word (img 1) 5 = sb.inodestart
  bmapstart : Bytes.word (img 1) 6 = sb.bmapstart

theorem name_subset {c : UInt8} (h : c ∈ f.name) : c ∈ f.arg := by
  unfold File.name at h
  split at h
  · cases h
  · rename_i b name heq
    rw [heq]
    split at h
    · exact mem_cons_of_mem _ h
    · exact h

theorem cname_name (h : 0 ∉ f.arg) : cname f.name = f.name.take DIRSIZ := by
  refine takeWhile_eq_self_iff.mpr fun c hc => ?_
  have : c ≠ 0 := by
    rintro rfl
    exact h (name_subset (mem_of_mem_take hc))
  simpa using this

theorem superOk (h : HoldsFiles s l) (hf : Final s img) : SuperOk img := by
  have himg : img 1 = start.img 1 := hf.super.trans h.holds.super
  constructor <;> rw [himg] <;> decide

theorem entries_zero : (entries l)[0]? = some (ROOTINO, ['.'.toUInt8]) := rfl

theorem entries_one : (entries l)[1]? = some (ROOTINO, ['.'.toUInt8, '.'.toUInt8]) := rfl

theorem entries_get (i : Nat) : (entries (files.map File.made))[i + 2]? = files[i]?.map fun f => (i + 2, f.name) := by
  simp [entries, File.made, Function.comp_def]

/-- Every file is read back, unless its name is one of the two that the root directory starts with. -/
theorem mkfs_reads_back (h : Inputs files)
    (hdots : ∀ f ∈ files, f.name.take DIRSIZ ≠ ['.'.toUInt8] ∧ f.name.take DIRSIZ ≠ ['.'.toUInt8, '.'.toUInt8])
    (hm : mkfs files = some img) : SuperOk img ∧ ∀ f ∈ files, ReadsBack img f := by
  obtain ⟨s, hs, hf⟩ := mkfs_some h hm
  have hn := h.inodes
  have hl : (files.map File.made).length + 2 ≤ NINODES := by
    simp only [length_map, NINODES] at *
    omega
  refine ⟨superOk hs hf, fun f hfile => ?_⟩
  obtain ⟨j, hj, hget⟩ := mem_iff_getElem.mp hfile
  have hgetj : files[j]? = some f := by rw [List.getElem?_eq_getElem hj, hget]
  have hstore : store (files.map File.made) (j + 2) = some (.file, f.content) := by
    simp [store, ROOTINO, hgetj, File.made]
  have hmade := hs.holds.made (j + 2) _ _ hstore
  have hdin : (Disk.ofImage sb img).dinode (j + 2) = s.disk.dinode (j + 2) := by
    rw [hf.dinode, update_of_ne (by simp [ROOTINO])]
  refine ⟨j + 2, (j + 2) * DIRENT, fun P _ t p i hdisk hi => ?_, by rw [hdin, hmade.type], by rw [hdin, hmade.size],
    fun n hn hle => ?_⟩
  · have hent : (entries (files.map File.made))[j + 2]? = some (j + 2, f.name) := by rw [entries_get, hgetj]; rfl
    refine dirlookup_eq hs hl hf hent rfl (fun i hi e' he' hc => ?_) t p i hdisk hi
    rw [cname_name (h.cstr f hfile)] at hc
    rcases i with _ | _ | i
    · obtain rfl := Option.some.inj (entries_zero.symm.trans he')
      exact (hdots f hfile).1 hc.symm
    · obtain rfl := Option.some.inj (entries_one.symm.trans he')
      exact (hdots f hfile).2 hc.symm
    · rw [entries_get] at he'
      obtain ⟨g, hg, rfl⟩ := map_eq_some_iff.mp he'
      obtain ⟨hi', hgi⟩ := List.getElem?_eq_some_iff.mp hg
      rw [cname_name (h.cstr g (hgi ▸ getElem_mem hi'))] at hc
      have hinj := nodup_iff_injective_getElem.mp h.distinct
      have : (⟨i, by simpa using hi'⟩ : Fin (files.map fun f => f.name.take DIRSIZ).length) = ⟨j, by simpa using hj⟩ :=
        hinj (by simp [hgi, hget, hc])
      simp only [Fin.mk.injEq] at this
      omega
  · have hfill := hs.holds.ok.filled (j + 2) (by rw [hmade.type]; exact hmade.hasBlocks)
    rw [hdin, Disk.readi_eq (fun bn hbn => by rw [hf.data]; exact hfill bn hbn)
      (hs.holds.ok.size_le _ (by rw [hmade.type]; exact hmade.hasBlocks)) hn, if_neg (by omega), hf.data, hmade.size,
      Nat.sub_zero, Nat.min_eq_right hle, hmade.content]

def twoFiles : List File := [
  { arg := ['_'.toUInt8, 'a'.toUInt8], reads := [[1, 2, 3], [4]] },
  { arg := ['b'.toUInt8], reads := [] }]

theorem twoFiles_inputs : Inputs twoFiles := by decide

theorem mkfs_reads_back_two : ∃ img, mkfs twoFiles = some img ∧ SuperOk img ∧ ∀ f ∈ twoFiles, ReadsBack img f := by
  obtain ⟨img, -, hm, -⟩ := mkfs_eq twoFiles_inputs (by decide)
  exact ⟨img, hm, mkfs_reads_back twoFiles_inputs (by decide) hm⟩

/-- A file `_.`, whose name in the image is the root directory's own ".". -/
def dotFile : File := { arg := ['_'.toUInt8, '.'.toUInt8], reads := [[1]] }

theorem dotFile_inputs : Inputs [dotFile] := by decide

def uncached (d : Disk) : Fs Unit where
  disk := d
  icache _ := { inum := 0, ref := 0, lock := none, valid := false, d := d.dinode ROOTINO }
  ftable _ := { type := .none, ref := 0, readable := false, writable := false, ip := 0, off := 0 }
  proc _ := { ofile := fun _ => none, cwd := none, put := false }
  held _ := []
  born _ := 0
  clock := 0

theorem uncached_iget (d : Disk) (x : Nat) :
    ∃ t, (uncached d).iget () x = .ok ((0 : Fin NINODE), t) ∧ (t.icache 0).inum = x := by
  have h1 : (List.finRange NINODE).find? (fun i => 0 < ((uncached d).icache i).ref ∧ ((uncached d).icache i).inum = x) =
      none := by
    simp [uncached]
  have h2 : (List.finRange NINODE).find? (fun i => ((uncached d).icache i).ref = 0) = some 0 := rfl
  simp only [Fs.iget, h1, h2]
  exact ⟨_, rfl, by simp [Fs.setInode, Fs.setHeld]⟩

/-- The kernel finds the root directory under the name of the file. -/
theorem mkfs_dot_not_read : Inputs [dotFile] ∧ ∃ img, mkfs [dotFile] = some img ∧ ¬ReadsBack img dotFile := by
  obtain ⟨img, s, hm, hs, hf⟩ := mkfs_eq dotFile_inputs (by decide)
  refine ⟨dotFile_inputs, img, hm, ?_⟩
  rintro ⟨inum, off, hlook, htype, -⟩
  have hdot :=
    dirlookup_eq hs (by decide) hf (n := dotFile.name) entries_zero rfl (fun i hi => absurd hi (Nat.not_lt_zero i))
    (uncached (Disk.ofImage sb img)) () 0 rfl rfl
  rw [hlook Unit _ () 0 rfl rfl] at hdot
  obtain ⟨t₁, ht₁, hi₁⟩ := uncached_iget (Disk.ofImage sb img) inum
  obtain ⟨t₂, ht₂, hi₂⟩ := uncached_iget (Disk.ofImage sb img) ROOTINO
  rw [ht₁, ht₂] at hdot
  simp only [Except.bind, Except.ok.injEq, Prod.mk.injEq] at hdot
  rw [← hi₁, hdot.2, hi₂, hf.dinode, update_self] at htype
  change (s.disk.dinode ROOTINO).type = _ at htype
  rw [hs.root.type] at htype
  cases htype

end Mkfs

end Xv6
