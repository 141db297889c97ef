import Xv6.Fs
import Xv6.Lib.Fail
import Xv6.Lib.Owner

/-! Ownership of blocks: which block each slot of each inode holds, and what allocating and freeing blocks
    does to it. -/

namespace Xv6
open Function List Dinode Except

def Dinode.blockAt (ip : Dinode) (data : Nat → Nat → UInt8) (bn : Nat) : Nat :=
  if bn < NDIRECT then ip.addrs bn
  else if ip.addrs NDIRECT = 0 then 0
  else Bytes.word (data (ip.addrs NDIRECT)) (bn - NDIRECT)

/-- What slot `k` of an inode holds: block `k` of its content, or, for the slot after the last of these,
    its indirect block. -/
def Dinode.slot (ip : Dinode) (data : Nat → Nat → UInt8) (k : Nat) : Option Nat :=
  let a := if k < MAXFILE then ip.blockAt data k else if k = MAXFILE then ip.addrs NDIRECT else 0
  if a = 0 then none else some a

namespace Disk

def own (d : Disk) (x : Nat × Nat) : Option Nat := (d.dinode x.1).slot d.data x.2

def Area (sb : Superblock) (b : Nat) : Prop := sb.datastart ≤ b ∧ b < sb.size

/-- Every block of the data area is held by one slot or is free, as the bitmap says. -/
structure Sound (sb : Superblock) (d : Disk) : Prop where
  owns : Owns d.own d.bitmap (Area sb)
  meta_used : ∀ b < sb.datastart, d.bitmap b = true

end Disk

open Disk

variable {sb : Superblock} {d d' d'' : Disk} {ip ip' ip'' : Dinode} {data data' : Nat → Nat → UInt8}
  {x y k bn a b off : Nat}

theorem Superblock.datastart_pos (sb : Superblock) : 0 < sb.datastart := by
  have := sb.nblocks_lt
  unfold Superblock.datastart
  omega

theorem Disk.Area.ne_zero (h : Area sb b) : b ≠ 0 := by
  have := sb.datastart_pos
  have := h.1
  omega

theorem Disk.Area.lt (h : Area sb b) : b < 2 ^ 32 := by
  have h1 := h.2
  have h2 := sb.size_le
  simp only [FSSIZE] at h2
  omega

/-! ### Slots -/

namespace Dinode

theorem blockAt_direct (h : k < NDIRECT) : ip.blockAt data k = ip.addrs k := by
  simp [blockAt, h]

theorem blockAt_indirect (h : NDIRECT ≤ k) (h0 : ip.addrs NDIRECT ≠ 0) :
    ip.blockAt data k = Bytes.word (data (ip.addrs NDIRECT)) (k - NDIRECT) := by
  simp [blockAt, h0, Nat.not_lt.mpr h]

theorem blockAt_none (h : NDIRECT ≤ k) (h0 : ip.addrs NDIRECT = 0) : ip.blockAt data k = 0 := by
  simp [blockAt, h0, Nat.not_lt.mpr h]

theorem slot_block (h : k < MAXFILE) : ip.slot data k = some b ↔ ip.blockAt data k = b ∧ b ≠ 0 := by
  simp only [slot, h, if_true]
  split
  · rename_i h0
    simp only [reduceCtorEq, false_iff]
    rintro ⟨rfl, hb⟩
    exact hb h0
  · rename_i h0
    simp only [Option.some.injEq]
    refine ⟨?_, And.left⟩
    rintro rfl
    exact ⟨rfl, h0⟩

theorem slot_ind : ip.slot data MAXFILE = some b ↔ ip.addrs NDIRECT = b ∧ b ≠ 0 := by
  simp only [slot, Nat.lt_irrefl, if_false, if_true]
  split
  · rename_i h0
    simp only [reduceCtorEq, false_iff]
    rintro ⟨rfl, hb⟩
    exact hb h0
  · rename_i h0
    simp only [Option.some.injEq]
    refine ⟨?_, And.left⟩
    rintro rfl
    exact ⟨rfl, h0⟩

theorem slot_block_none (h : k < MAXFILE) : ip.slot data k = none ↔ ip.blockAt data k = 0 := by
  simp [slot, h]

theorem slot_ind_none : ip.slot data MAXFILE = none ↔ ip.addrs NDIRECT = 0 := by
  simp [slot]

theorem slot_beyond (h : MAXFILE < k) : ip.slot data k = none := by
  simp [slot, Nat.not_lt.mpr h.le, h.ne']

theorem blockAt_congr (ha : ip'.addrs = ip.addrs)
    (hd : ip.addrs NDIRECT ≠ 0 → data' (ip.addrs NDIRECT) = data (ip.addrs NDIRECT)) :
    ip'.blockAt data' k = ip.blockAt data k := by
  by_cases h0 : ip.addrs NDIRECT = 0
  · simp [blockAt, ha, h0]
  · simp [blockAt, ha, hd h0]

theorem slot_congr (ha : ip'.addrs = ip.addrs)
    (hd : ip.addrs NDIRECT ≠ 0 → data' (ip.addrs NDIRECT) = data (ip.addrs NDIRECT)) :
    ip'.slot data' k = ip.slot data k := by
  simp only [slot, blockAt_congr ha hd, ha]

theorem blockAt_set_direct (hk : k < NDIRECT)
    (hd : ip.addrs NDIRECT ≠ 0 → data' (ip.addrs NDIRECT) = data (ip.addrs NDIRECT)) (j : Nat) :
    { ip with addrs := update ip.addrs k b }.blockAt data' j = if j = k then b else ip.blockAt data j := by
  have hne : NDIRECT ≠ k := by omega
  by_cases hj : j < NDIRECT
  · rw [blockAt_direct hj, blockAt_direct hj]
    exact update_apply ..
  · rw [if_neg (by omega)]
    by_cases h0 : ip.addrs NDIRECT = 0
    · rw [blockAt_none (by omega) (by simp [hne, h0]), blockAt_none (by omega) h0]
    · rw [blockAt_indirect (by omega) (by simp [hne, h0]), blockAt_indirect (by omega) h0]
      simp [hne, hd h0]

theorem blockAt_set_ind (h0 : ip.addrs NDIRECT = 0) (hd : data' b = fun _ => 0) (j : Nat) :
    { ip with addrs := update ip.addrs NDIRECT b }.blockAt data' j = ip.blockAt data j := by
  by_cases hj : j < NDIRECT
  · rw [blockAt_direct hj, blockAt_direct hj]
    exact update_of_ne (by omega) _ _
  · rw [blockAt_none (by omega) h0]
    simp [blockAt, hj, hd]

theorem blockAt_set_entry (hk : NDIRECT ≤ k) (h0 : ip.addrs NDIRECT ≠ 0) (hb : b < 2 ^ 32)
    (hd : data' (ip.addrs NDIRECT) = Bytes.setWord (data (ip.addrs NDIRECT)) (k - NDIRECT) b) (j : Nat) :
    ip.blockAt data' j = if j = k then b else ip.blockAt data j := by
  by_cases hj : j < NDIRECT
  · rw [blockAt_direct hj, blockAt_direct hj, if_neg (by omega)]
  · rw [blockAt_indirect (by omega) h0, blockAt_indirect (by omega) h0, hd]
    split
    · rename_i hjk
      rw [hjk, Bytes.word_setWord hb]
    · rw [Bytes.word_setWord_ne (by omega)]

theorem slot_of_block (hk : k < MAXFILE) (hb : b ≠ 0)
    (h : ∀ j, ip'.blockAt data' j = if j = k then b else ip.blockAt data j) (hi : ip'.addrs NDIRECT = ip.addrs NDIRECT)
    (j : Nat) : ip'.slot data' j = if j = k then some b else ip.slot data j := by
  by_cases hjk : j = k
  · subst hjk
    simp [slot, hk, h, hb]
  · simp [slot, h, hjk, hi]

theorem slot_of_ind (hb : b ≠ 0) (h : ∀ j, ip'.blockAt data' j = ip.blockAt data j) (hi : ip'.addrs NDIRECT = b)
    (j : Nat) : ip'.slot data' j = if j = MAXFILE then some b else ip.slot data j := by
  by_cases hj : j = MAXFILE
  · subst hj
    simp [slot, hi, hb]
  · simp [slot, h, hj]

end Dinode

namespace Disk

theorem own_iupdate_self : (d.iupdate x ip).own (x, k) = ip.slot d.data k := by
  simp [own, iupdate]

theorem own_iupdate_ne (h : y ≠ x) : (d.iupdate x ip).own (y, k) = (d.dinode y).slot d.data k := by
  simp [own, iupdate, h]

theorem iupdate_self (d : Disk) (x : Nat) : d.iupdate x (d.dinode x) = d := by
  simp [iupdate]

theorem iupdate_iupdate : (d.iupdate x ip).iupdate x ip' = d.iupdate x ip' := by
  simp [iupdate]

theorem Sound.area (h : d.Sound sb) (hb : d.own (x, k) = some b) : Area sb b := h.owns.mem hb

theorem Sound.iupdate_congr (h : d.Sound sb) (ha : ip.addrs = (d.dinode x).addrs) : (d.iupdate x ip).Sound sb := by
  have hown : (d.iupdate x ip).own = d.own := by
    funext ⟨y, k⟩
    by_cases hy : y = x
    · subst hy
      rw [own_iupdate_self]
      exact slot_congr ha fun _ => rfl
    · rw [own_iupdate_ne hy]
      rfl
  exact ⟨by rw [hown]; exact h.owns, h.meta_used⟩

/-! ### Allocating a block -/

theorem balloc_inv (h : balloc sb d = .ok (b, d')) : b < sb.size ∧ d.bitmap b = false ∧
      d' = { d with bitmap := update d.bitmap b true, data := update d.data b fun _ => 0 } := by
  unfold balloc at h
  split at h
  · rename_i c hc
    cases h
    refine ⟨mem_range.mp (mem_of_find?_eq_some hc), ?_, rfl⟩
    simpa using find?_some hc
  · cases h

theorem balloc_error {e : Halt} (h : balloc sb d = .error e) : e = .panic "balloc: out of blocks" := by
  unfold balloc at h
  split at h
  · cases h
  · cases h
    rfl

/-- What work on the blocks of inode `x`, whose in-memory copy goes from `ip` to `ip'`, keeps. -/
structure Touched (sb : Superblock) (x : Nat) (d : Disk) (ip : Dinode) (d' : Disk) (ip' : Dinode) : Prop where
  sound : (d'.iupdate x ip').Sound sb
  dinode : d'.dinode = d.dinode
  fields : ip' = { ip with addrs := ip'.addrs }
  block : ∀ k < MAXFILE, ip.blockAt d.data k ≠ 0 → ip'.blockAt d'.data k = ip.blockAt d.data k
  other : ∀ y ≠ x, ∀ k b, (d.dinode y).slot d.data k = some b → d'.data b = d.data b
  used : ∀ b, d.bitmap b = true → d'.bitmap b = true

/-- An allocation also keeps the content of the inode's own blocks. -/
structure Grown (sb : Superblock) (x : Nat) (d : Disk) (ip : Dinode) (d' : Disk) (ip' : Dinode) : Prop
    extends Touched sb x d ip d' ip' where
  content : ∀ k < MAXFILE, ip.blockAt d.data k ≠ 0 → d'.data (ip.blockAt d.data k) = d.data (ip.blockAt d.data k)

theorem Touched.refl (h : (d.iupdate x ip).Sound sb) : Touched sb x d ip d ip :=
  ⟨h, rfl, rfl, fun _ _ _ => rfl, fun _ _ _ _ _ => rfl, fun _ => id⟩

theorem Touched.slot (h : Touched sb x d ip d' ip') (hy : y ≠ x) :
    (d'.dinode y).slot d'.data k = (d.dinode y).slot d.data k := by
  rw [h.dinode]
  refine slot_congr rfl fun h0 => h.other y hy MAXFILE _ (slot_ind.mpr ⟨rfl, h0⟩)

theorem Touched.trans (h : Touched sb x d ip d' ip') (h' : Touched sb x d' ip' d'' ip'') :
    Touched sb x d ip d'' ip'' where
  sound := h'.sound
  dinode := h'.dinode.trans h.dinode
  fields := by rw [h'.fields, h.fields]
  block k hk h0 := by
    have h1 := h.block k hk h0
    rw [h'.block k hk (by rw [h1]; exact h0), h1]
  other y hy k b hb := by
    rw [h'.other y hy k b (by rw [h.slot hy]; exact hb), h.other y hy k b hb]
  used b hb := h'.used b (h.used b hb)

theorem Grown.refl (h : (d.iupdate x ip).Sound sb) : Grown sb x d ip d ip :=
  ⟨.refl h, fun _ _ _ => rfl⟩

theorem Grown.trans (h : Grown sb x d ip d' ip') (h' : Grown sb x d' ip' d'' ip'') : Grown sb x d ip d'' ip'' := by
  refine ⟨h.toTouched.trans h'.toTouched, fun k hk h0 => ?_⟩
  have h1 := h.block k hk h0
  have h2 := h'.content k hk (by rw [h1]; exact h0)
  rw [h1] at h2
  rw [h2, h.content k hk h0]

theorem Sound.fresh (h : d.Sound sb) (hb : b < sb.size) (hf : d.bitmap b = false) : Area sb b ∧
    ∀ x, d.own x ≠ some b := by
  have ha : Area sb b := by
    refine ⟨?_, hb⟩
    by_contra hlt
    rw [h.meta_used b (by omega)] at hf
    cases hf
  exact ⟨ha, h.owns.not_held ha hf⟩

theorem Sound.fresh_ne (h : (d.iupdate x ip).Sound sb) (hb : a < sb.size) (hf : d.bitmap a = false) :
    a ≠ 0 ∧ (∀ j < MAXFILE, ip.blockAt d.data j ≠ a) ∧ ip.addrs NDIRECT ≠ a ∧
      ∀ y ≠ x, ∀ j b, (d.dinode y).slot d.data j = some b → b ≠ a := by
  obtain ⟨ha, hno⟩ := h.fresh hb hf
  have h0 := ha.ne_zero
  refine ⟨h0, fun j hj hc => hno (x, j) ?_, fun hc => hno (x, MAXFILE) ?_, fun y hy j b hj hc => hno (y, j) ?_⟩
  · rw [own_iupdate_self]
    exact (slot_block hj).mpr ⟨hc, h0⟩
  · rw [own_iupdate_self]
    exact slot_ind.mpr ⟨hc, h0⟩
  · rw [own_iupdate_ne hy, hj, hc]

theorem Sound.ind_ne (h : (d.iupdate x ip).Sound sb) (hi : ip.addrs NDIRECT ≠ 0) :
    (∀ j < MAXFILE, ip.blockAt d.data j ≠ ip.addrs NDIRECT) ∧
      ∀ y ≠ x, ∀ j b, (d.dinode y).slot d.data j = some b → b ≠ ip.addrs NDIRECT := by
  have hx : (d.iupdate x ip).own (x, MAXFILE) = some (ip.addrs NDIRECT) := by
    rw [own_iupdate_self]
    exact slot_ind.mpr ⟨rfl, hi⟩
  refine ⟨fun j hj hc => ?_, fun y hy j b hj hc => ?_⟩
  · have := h.owns.inj (x := (x, j)) (by rw [own_iupdate_self]; exact (slot_block hj).mpr ⟨hc, hi⟩) hx
    simp only [Prod.mk.injEq, true_and] at this
    omega
  · have := h.owns.inj (x := (y, j)) (by rw [own_iupdate_ne hy, hj, hc]) hx
    simp only [Prod.mk.injEq] at this
    exact hy this.1

theorem Sound.take (h : (d.iupdate x ip).Sound sb) (hb : b < sb.size) (hf : d.bitmap b = false)
    (hk : ip.slot d.data k = none) (hx : ∀ j, ip'.slot data' j = if j = k then some b else ip.slot d.data j)
    (hy : ∀ y ≠ x, ∀ j, (d.dinode y).slot data' j = (d.dinode y).slot d.data j) :
    ({ d with bitmap := update d.bitmap b true, data := data' }.iupdate x ip').Sound sb := by
  have hown : ({ d with bitmap := update d.bitmap b true, data := data' }.iupdate x ip').own =
      update (d.iupdate x ip).own (x, k) (some b) := by
    funext ⟨y, j⟩
    by_cases hyx : y = x
    · subst hyx
      rw [own_iupdate_self, hx, update_apply, own_iupdate_self]
      simp
    · rw [own_iupdate_ne hyx, update_of_ne (by simp [hyx]), own_iupdate_ne hyx]
      exact hy y hyx j
  refine ⟨?_, fun c hc => ?_⟩
  · rw [hown]
    exact h.owns.take (by rw [own_iupdate_self]; exact hk) (h.fresh hb hf).1 hf
  · change update d.bitmap b true c = true
    rw [update_apply]
    split
    · rfl
    · exact h.meta_used c hc

theorem ballocAddr_inv (h : ballocAddr sb d ip k = .ok (a, ip', d')) : ip.addrs k ≠ 0 ∧ a = ip.addrs k ∧ ip' = ip ∧
    d' = d ∨
      ip.addrs k = 0 ∧ balloc sb d = .ok (a, d') ∧ ip' = { ip with addrs := update ip.addrs k a } := by
  unfold ballocAddr at h
  split at h
  · rename_i h0
    obtain ⟨⟨b, e⟩, hb, h⟩ := bind_eq_ok.mp h
    cases h
    exact .inr ⟨h0, hb, rfl⟩
  · rename_i h0
    cases h
    exact .inl ⟨h0, rfl, rfl, rfl⟩

theorem ballocAddr_grown (h : (d.iupdate x ip).Sound sb) (hk : k ≤ NDIRECT)
    (hr : ballocAddr sb d ip k = .ok (a, ip', d')) : Grown sb x d ip d' ip' ∧ a ≠ 0 ∧ ip'.addrs k = a ∧
      (∀ j < MAXFILE, j ≠ k ∨ k = NDIRECT → ip'.blockAt d'.data j = ip.blockAt d.data j) ∧
      (ip.addrs k ≠ 0 → ip' = ip ∧ d' = d) ∧ (ip.addrs k = 0 → d'.data a = fun _ => 0) := by
  rcases ballocAddr_inv hr with ⟨h0, rfl, rfl, rfl⟩ | ⟨h0, hb, rfl⟩
  · exact ⟨.refl h, h0, rfl, fun _ _ _ => rfl, fun _ => ⟨rfl, rfl⟩, fun h1 => absurd h1 h0⟩
  obtain ⟨hlt, hf, rfl⟩ := balloc_inv hb
  obtain ⟨hne0, hblkne, hindne, hothne⟩ := h.fresh_ne hlt hf
  -- the new block holds nothing of any inode
  have hdata : ∀ {c}, c ≠ a → update d.data a (fun _ => 0) c = d.data c :=
    fun hc => update_of_ne hc _ _
  have hoth : ∀ y ≠ x, ∀ j b, (d.dinode y).slot d.data j = some b →
      update d.data a (fun _ => 0) b = d.data b := fun y hy j b hj => hdata (hothne y hy j b hj)
  have hmine : ∀ j < MAXFILE, ip.blockAt d.data j ≠ 0 →
      update d.data a (fun _ => 0) (ip.blockAt d.data j) = d.data (ip.blockAt d.data j) :=
    fun j hj _ => hdata (hblkne j hj)
  have hslot : ∀ y ≠ x, ∀ j, (d.dinode y).slot (update d.data a fun _ => 0) j = (d.dinode y).slot d.data j :=
    fun y hy j => slot_congr rfl fun h0 => hoth y hy MAXFILE _ (slot_ind.mpr ⟨rfl, h0⟩)
  have hused : ∀ b, d.bitmap b = true → update d.bitmap a true b = true := fun b hb => by
    rw [update_apply]
    split
    · rfl
    · exact hb
  rcases Nat.lt_or_eq_of_le hk with hk | rfl
  · have hblk := blockAt_set_direct (b := a) hk fun _ => hdata hindne
    have hkm : k < MAXFILE := by simp only [MAXFILE]; omega
    refine ⟨⟨⟨h.take hlt hf ((slot_block_none hkm).mpr ?_) (slot_of_block hkm hne0 hblk ?_) hslot,
      rfl, rfl, fun j hj hj0 => ?_, hoth, hused⟩, hmine⟩, hne0, by simp, fun j hj hjk => ?_, fun h1 => absurd h0 h1,
      fun _ => by simp⟩
    · rw [blockAt_direct hk, h0]
    · exact update_of_ne (by omega) _ _
    · rw [hblk, if_neg]
      rintro rfl
      rw [blockAt_direct hk] at hj0
      exact hj0 h0
    · rw [hblk, if_neg (by omega)]
  · have hblk : ∀ j, { ip with addrs := update ip.addrs NDIRECT a }.blockAt
        (update d.data a fun _ => 0) j = ip.blockAt d.data j :=
      blockAt_set_ind h0 (update_self ..)
    refine ⟨⟨⟨h.take hlt hf (slot_ind_none.mpr h0) (slot_of_ind hne0 hblk (by simp)) hslot,
      rfl, rfl, fun j _ _ => hblk j, hoth, hused⟩, hmine⟩, hne0, by simp, fun j _ _ => hblk j, fun h1 => absurd h0 h1,
      fun _ => by simp⟩

theorem setEntry_grown (h : (d.iupdate x ip).Sound sb) (hi : ip.addrs NDIRECT ≠ 0) (hk : NDIRECT ≤ k)
    (hkm : k < MAXFILE) (h0 : ip.blockAt d.data k = 0) (hb : balloc sb d = .ok (a, d')) (hd : d'' = { d' with
      data := update d'.data (ip.addrs NDIRECT)
        (Bytes.setWord (d'.data (ip.addrs NDIRECT)) (k - NDIRECT) a) }) :
    Grown sb x d ip d'' ip ∧ a ≠ 0 ∧ (∀ j, ip.blockAt d''.data j = if j = k then a else ip.blockAt d.data j) ∧
      d''.data a = fun _ => 0 := by
  obtain ⟨hlt, hf, rfl⟩ := balloc_inv hb
  obtain ⟨hne0, hblkne, hindne, hothne⟩ := h.fresh_ne hlt hf
  obtain ⟨hindblk, hindoth⟩ := h.ind_ne hi
  simp only [update_of_ne hindne] at hd
  have hdata : ∀ {c}, c ≠ a → c ≠ ip.addrs NDIRECT → d''.data c = d.data c := by
    intro c hc hc'
    rw [hd]
    exact (update_of_ne hc' _ _).trans (update_of_ne hc _ _)
  have hoth : ∀ y ≠ x, ∀ j b, (d.dinode y).slot d.data j = some b → d''.data b = d.data b :=
    fun y hy j b hj => hdata (hothne y hy j b hj) (hindoth y hy j b hj)
  have hblk : ∀ j, ip.blockAt d''.data j = if j = k then a else ip.blockAt d.data j := by
    refine blockAt_set_entry hk hi (h.fresh hlt hf).1.lt ?_
    rw [hd]
    exact update_self ..
  have hsound := h.take hlt hf ((slot_block_none hkm).mpr h0) (slot_of_block hkm hne0 hblk rfl)
    fun y hy j => slot_congr rfl fun h0 => hoth y hy MAXFILE _ (slot_ind.mpr ⟨rfl, h0⟩)
  refine ⟨⟨⟨?_, by rw [hd], rfl, fun j _ hj0 => ?_, hoth, fun b hb => ?_⟩,
    fun j hj _ => hdata (hblkne j hj) (hindblk j hj)⟩, hne0, hblk, ?_⟩
  · subst hd
    exact hsound
  · rw [hblk, if_neg]
    rintro rfl
    exact hj0 h0
  · rw [hd]
    simp only [update_apply]
    split
    · rfl
    · exact hb
  · rw [hd]
    exact (update_of_ne hindne.symm _ _).trans (update_self ..)

theorem bmap_grown (h : (d.iupdate x ip).Sound sb) (hbn : bn < MAXFILE) (hr : bmap sb d ip bn = .ok (a, ip', d')) :
    Grown sb x d ip d' ip' ∧ a ≠ 0 ∧ ip'.blockAt d'.data bn = a ∧
      (∀ j < MAXFILE, j ≠ bn → ip'.blockAt d'.data j = ip.blockAt d.data j) ∧
      (ip.blockAt d.data bn ≠ 0 → ip' = ip ∧ d' = d) ∧ (ip.blockAt d.data bn = 0 → d'.data a = fun _ => 0) := by
  unfold bmap at hr
  split at hr
  · rename_i hlt
    obtain ⟨hg, ha, hat, hoth, hsame, hzero⟩ := ballocAddr_grown h hlt.le hr
    rw [blockAt_direct hlt, blockAt_direct hlt]
    exact ⟨hg, ha, hat, fun j hj hjb => hoth j hj (.inl hjb), hsame, hzero⟩
  · rename_i hlt
    rw [if_pos (by simp only [MAXFILE] at hbn; omega)] at hr
    obtain ⟨⟨ind, ip₁, d₁⟩, hr₁, hr⟩ := bind_eq_ok.mp hr
    obtain ⟨hg, hind, rfl, hoth, hsame, -⟩ := ballocAddr_grown h le_rfl hr₁
    have hat : ip₁.blockAt d₁.data bn = _ := blockAt_indirect (Nat.not_lt.mp hlt) hind
    have hold : ip₁.blockAt d₁.data bn = ip.blockAt d.data bn := hoth bn hbn (.inr rfl)
    simp only at hr
    split at hr
    · rename_i h0
      obtain ⟨⟨b, d₂⟩, hb, hr⟩ := bind_eq_ok.mp hr
      cases hr
      obtain ⟨hg', ha, hblk, hzero⟩ := setEntry_grown hg.sound hind (Nat.not_lt.mp hlt) hbn (hat.trans h0) hb rfl
      refine ⟨hg.trans hg', ha, by rw [hblk, if_pos rfl], fun j hj hjb => ?_, fun hne => ?_, fun _ => hzero⟩
      · rw [hblk, if_neg hjb, hoth j hj (.inr rfl)]
      · rw [← hold, hat, h0] at hne
        exact absurd rfl hne
    · rename_i h0
      cases hr
      refine ⟨hg, h0, hat, fun j hj _ => hoth j hj (.inr rfl), fun hne => hsame fun hi => ?_, fun hz => ?_⟩
      · rw [blockAt_none (Nat.not_lt.mp hlt) hi] at hne
        exact hne rfl
      · rw [← hold, hat] at hz
        exact absurd hz h0

theorem ballocAddr_error {e : Halt} (h : ballocAddr sb d ip k = .error e) : e = .panic "balloc: out of blocks" := by
  unfold ballocAddr at h
  split_ifs at h
  rcases bind_eq_error.mp h with h | ⟨r, -, h⟩
  · exact balloc_error h
  · cases h

theorem bmap_error {e : Halt} (hbn : bn < MAXFILE) (h : bmap sb d ip bn = .error e) :
    e = .panic "balloc: out of blocks" := by
  unfold bmap at h
  split at h
  · exact ballocAddr_error h
  · rw [if_pos (by simp only [MAXFILE] at hbn; omega)] at h
    rcases bind_eq_error.mp h with h | ⟨⟨ind, ip₁, d₁⟩, -, h⟩
    · exact ballocAddr_error h
    · simp only at h
      split_ifs at h
      rcases bind_eq_error.mp h with h | ⟨r, -, h⟩
      · exact balloc_error h
      · cases h

/-! ### Freeing blocks -/

theorem bfreeAll_ok {o : Nat × Nat → Option Nat} {area : Nat → Prop} {v : Nat → Nat} {f : Nat → Nat × Nat}
    (hf : Function.Injective f) {L : List Nat} (hL : L.Nodup) (h : Owns o d.bitmap area)
    (hv : ∀ j ∈ L, o (f j) = if v j = 0 then none else some (v j)) :
    ∃ m, bfreeAll d (L.map v) = .ok { d with bitmap := m } ∧
      Owns (fun y => if y ∈ L.map f then none else o y) m area ∧ ∀ b, ¬area b → m b = d.bitmap b := by
  induction L generalizing d o with
  | nil => exact ⟨d.bitmap, rfl, by simpa using h, fun _ _ => rfl⟩
  | cons j L ih =>
    obtain ⟨hj, hL⟩ := nodup_cons.mp hL
    have hvj := hv j mem_cons_self
    by_cases h0 : v j = 0
    · obtain ⟨m, hm, how, hrest⟩ := ih hL h fun i hi => hv i (mem_cons_of_mem _ hi)
      refine ⟨m, by simpa [bfreeAll, h0] using hm, ?_, hrest⟩
      convert how using 2 with y
      rw [if_pos h0] at hvj
      by_cases hy : y = f j
      · subst hy
        simp [hvj]
      · simp [hy]
    · rw [if_neg h0] at hvj
      have hused : d.bitmap (v j) = true := h.used_of_own hvj
      have hstep := h.drop hvj
      obtain ⟨m, hm, how, hrest⟩ := ih (d := { d with bitmap := update d.bitmap (v j) false }) hL hstep
        fun i hi => by
          rw [update_of_ne (fun hc : f i = f j => hj (hf hc ▸ hi))]
          exact hv i (mem_cons_of_mem _ hi)
      refine ⟨m, ?_, ?_, fun b hb => ?_⟩
      · simp only [map_cons, bfreeAll, if_neg h0, bfree, hused, if_true]
        exact hm
      · convert how using 2 with y
        by_cases hy : y = f j
        · subst hy
          simp
        · simp [hy]
      · rw [hrest b hb]
        exact update_of_ne (fun hc : b = v j => hb (hc ▸ h.mem hvj)) _ _

theorem slot_no_addrs (h : ∀ k ≤ NDIRECT, ip.addrs k = 0) : ip.slot data k = none := by
  rcases Nat.lt_trichotomy k MAXFILE with hk | rfl | hk
  · rw [slot_block_none hk]
    by_cases hd : k < NDIRECT
    · rw [blockAt_direct hd, h k hd.le]
    · rw [blockAt_none (Nat.not_lt.mp hd) (h _ le_rfl)]
  · exact slot_ind_none.mpr (h _ le_rfl)
  · exact slot_beyond hk

theorem own_truncated (d : Disk) (ip : Dinode) (m : Nat → Bool) :
    ({ d with bitmap := m }.iupdate x { ip with size := 0, addrs := fun _ => 0 }).own =
      fun y => if y.1 = x then none else (d.iupdate x ip).own y := by
  funext ⟨y, k⟩
  by_cases hy : y = x
  · subst hy
    rw [own_iupdate_self]
    simp [slot_no_addrs]
  · rw [own_iupdate_ne hy]
    simp [hy, own_iupdate_ne hy]

theorem itrunc_ok (h : (d.iupdate x ip).Sound sb) :
    ∃ m, itrunc d ip = .ok ({ ip with size := 0, addrs := fun _ => 0 }, { d with bitmap := m }) ∧
      ({ d with bitmap := m }.iupdate x { ip with size := 0, addrs := fun _ => 0 }).Sound sb := by
  have harea : ∀ b < sb.datastart, ¬Area sb b := fun b hb ha => by
    have := ha.1
    omega
  have hslot : ∀ k < MAXFILE, (d.iupdate x ip).own (x, k) =
      if ip.blockAt d.data k = 0 then none else some (ip.blockAt d.data k) := fun k hk => by
    rw [own_iupdate_self]
    simp [Dinode.slot, hk]
  -- the direct blocks
  obtain ⟨m₁, hm₁, ho₁, hr₁⟩ := bfreeAll_ok (f := fun k => (x, k)) (v := ip.addrs) (d := d)
    (fun a b h => (Prod.mk.inj h).2) (nodup_range (n := NDIRECT)) h.owns fun k hk => by
      have hk := mem_range.mp hk
      rw [hslot k (by simp only [MAXFILE]; omega), blockAt_direct hk]
  by_cases hi : ip.addrs NDIRECT = 0
  · refine ⟨m₁, ?_, ?_, fun b hb => (hr₁ b (harea b hb)).trans (h.meta_used b hb)⟩
    · unfold itrunc
      simp only [hm₁, hi, if_true]
      rfl
    · have hrest : ∀ k, ¬k < NDIRECT → (d.iupdate x ip).own (x, k) = none := fun k hk => by
        rw [own_iupdate_self]
        rcases Nat.lt_trichotomy k MAXFILE with hkm | rfl | hkm
        · exact (slot_block_none hkm).mpr (blockAt_none (Nat.not_lt.mp hk) hi)
        · exact slot_ind_none.mpr hi
        · exact slot_beyond hkm
      have hown : (fun y => if y ∈ (range NDIRECT).map (fun k => (x, k)) then none else (d.iupdate x ip).own y) =
          fun y => if y.1 = x then none else (d.iupdate x ip).own y := by
        funext ⟨y, k⟩
        by_cases hy : y = x
        · subst hy
          by_cases hk : k < NDIRECT
          · simp [hk]
          · simp [hrest k hk]
        · simp [hy, Ne.symm hy]
      rw [own_truncated d ip, ← hown]
      exact ho₁
  · -- the entries of the indirect block, and the block itself
    obtain ⟨m₂, hm₂, ho₂, hr₂⟩ := bfreeAll_ok (f := fun k => (x, k + NDIRECT))
      (v := Bytes.word (d.data (ip.addrs NDIRECT))) (d := { d with bitmap := m₁ })
      (fun a b h => by have := (Prod.mk.inj h).2; omega) (nodup_range (n := NINDIRECT)) ho₁ fun k hk => by
        have hk := mem_range.mp hk
        rw [if_neg (by simp), hslot (k + NDIRECT) (by simp only [MAXFILE]; omega),
          blockAt_indirect (by omega) hi, Nat.add_sub_cancel]
    have hind : (fun y => if y ∈ (range NINDIRECT).map (fun k => (x, k + NDIRECT)) then none
        else if y ∈ (range NDIRECT).map (fun k => (x, k)) then none else (d.iupdate x ip).own y) (x, MAXFILE) =
        some (ip.addrs NDIRECT) := by
      have h1 : (x, MAXFILE) ∉ (range NINDIRECT).map (fun k => (x, k + NDIRECT)) := by
        simp [MAXFILE, NINDIRECT, NDIRECT]
      have h2 : (x, MAXFILE) ∉ (range NDIRECT).map (fun k => (x, k)) := by
        simp [MAXFILE, NINDIRECT, NDIRECT]
      simp only [h1, h2, if_false]
      rw [own_iupdate_self]
      exact slot_ind.mpr ⟨rfl, hi⟩
    have hused : m₂ (ip.addrs NDIRECT) = true := ho₂.used_of_own hind
    refine ⟨update m₂ (ip.addrs NDIRECT) false, ?_, ?_, fun b hb => ?_⟩
    · unfold itrunc
      simp only [hm₁, if_neg hi]
      change (bfreeAll { d with bitmap := m₁ } _ >>= _) >>= _ = _
      simp only [hm₂]
      change (bfree { d with bitmap := m₂ } _) >>= _ = _
      simp only [bfree, hused, if_true]
      rfl
    · have hown : update (fun y => if y ∈ (range NINDIRECT).map (fun k => (x, k + NDIRECT)) then none
          else if y ∈ (range NDIRECT).map (fun k => (x, k)) then none else (d.iupdate x ip).own y) (x, MAXFILE)
          none = fun y => if y.1 = x then none else (d.iupdate x ip).own y := by
        funext ⟨y, k⟩
        by_cases hy : y = x
        · subst hy
          rw [update_apply]
          rcases Nat.lt_trichotomy k MAXFILE with hkm | rfl | hkm
          · by_cases hk : k < NDIRECT
            · simp [hk]
            · have : (y, k) ∈ (range NINDIRECT).map fun k => (y, k + NDIRECT) :=
                mem_map.mpr ⟨k - NDIRECT, mem_range.mpr (by simp only [MAXFILE] at hkm; omega),
                  by simp only [Prod.mk.injEq, true_and]; omega⟩
              simp [this]
          · simp
          · have : (d.iupdate y ip).own (y, k) = none := by
              rw [own_iupdate_self]
              exact slot_beyond hkm
            simp [this]
        · rw [update_of_ne (by simp [hy])]
          simp [hy, Ne.symm hy]
      rw [own_truncated d ip, ← hown]
      exact ho₂.drop hind
    · change update m₂ _ false b = true
      rw [update_of_ne (fun hc : b = ip.addrs NDIRECT => harea b hb (hc ▸ ho₂.mem hind))]
      exact ((hr₂ b (harea b hb)).trans (hr₁ b (harea b hb))).trans (h.meta_used b hb)

end Disk

end Xv6
