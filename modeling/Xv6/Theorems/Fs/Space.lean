import Xv6.Theorems.Fs.Holder

/-! Free blocks: with as many as a write still needs, none of its allocations fails. -/

namespace Xv6
open Finset Function Except

def Disk.freeBlocks (sb : Superblock) (d : Disk) : Nat :=
  ((range sb.size).filter fun b => d.bitmap b = false).card

/-- The blocks the first `n` blocks of an inode still need: each that is not there, and the indirect block. -/
def Dinode.missing (ip : Dinode) (data : Nat → Nat → UInt8) (n : Nat) : Nat :=
  ((range n).filter fun bn => ip.blockAt data bn = 0).card + if NDIRECT < n ∧ ip.addrs NDIRECT = 0 then 1 else 0

variable {sb : Superblock} {d d' : Disk} {ip ip' : Dinode} {data data' : Nat → Nat → UInt8}
  {x a b k bn n off fuel : Nat} {src : List UInt8}

namespace Dinode

theorem missing_congr (hb : ∀ j < n, ip'.blockAt data' j = ip.blockAt data j)
    (hi : ip'.addrs NDIRECT = ip.addrs NDIRECT) : ip'.missing data' n = ip.missing data n := by
  unfold missing
  rw [hi, filter_congr fun j hj => by rw [hb j (mem_range.mp hj)]]

theorem missing_block (hbn : bn < n) (h0 : ip.blockAt data bn = 0) (h1 : ip'.blockAt data' bn ≠ 0)
    (hb : ∀ j < n, j ≠ bn → ip'.blockAt data' j = ip.blockAt data j) (hi : ip'.addrs NDIRECT = ip.addrs NDIRECT) :
    ip'.missing data' n + 1 = ip.missing data n := by
  have hset : (range n).filter (fun j => ip'.blockAt data' j = 0) =
      ((range n).filter fun j => ip.blockAt data j = 0).erase bn := by
    ext j
    simp only [mem_filter, mem_erase, mem_range]
    by_cases hj : j = bn
    · subst hj
      simp [h1]
    · constructor
      · rintro ⟨hjn, hz⟩
        exact ⟨hj, hjn, by rwa [← hb j hjn hj]⟩
      · rintro ⟨-, hjn, hz⟩
        exact ⟨hjn, by rwa [hb j hjn hj]⟩
  have hmem : bn ∈ (range n).filter fun j => ip.blockAt data j = 0 :=
    mem_filter.mpr ⟨mem_range.mpr hbn, h0⟩
  have hpos := card_pos.mpr ⟨bn, hmem⟩
  unfold missing
  rw [hset, hi, card_erase_of_mem hmem]
  omega

theorem missing_ind (hn : NDIRECT < n) (h0 : ip.addrs NDIRECT = 0) (h1 : ip'.addrs NDIRECT ≠ 0)
    (hb : ∀ j < n, ip'.blockAt data' j = ip.blockAt data j) : ip'.missing data' n + 1 = ip.missing data n := by
  unfold missing
  rw [if_neg fun h => h1 h.2, if_pos ⟨hn, h0⟩, filter_congr fun j hj => by rw [hb j (mem_range.mp hj)]]

theorem missing_pos (hbn : bn < n) (h0 : ip.blockAt data bn = 0) : 0 < ip.missing data n :=
  Nat.add_pos_left (card_pos.mpr ⟨bn, mem_filter.mpr ⟨mem_range.mpr hbn, h0⟩⟩) _

end Dinode

namespace Disk

def Enough (sb : Superblock) (n : Nat) (ip : Dinode) (d : Disk) : Prop := ip.missing d.data n ≤ d.freeBlocks sb

instance : Decidable (Enough sb n ip d) := inferInstanceAs (Decidable (_ ≤ _))

theorem balloc_ok (h : 0 < d.freeBlocks sb) : ∃ b d', balloc sb d = .ok (b, d') := by
  obtain ⟨b, hb⟩ := card_pos.mp h
  obtain ⟨hlt, hb⟩ := mem_filter.mp hb
  unfold balloc
  split
  · exact ⟨_, _, rfl⟩
  · rename_i hno
    have := List.find?_eq_none.mp hno b (List.mem_range.mpr (mem_range.mp hlt))
    rw [hb] at this
    exact absurd rfl this

theorem balloc_free (h : balloc sb d = .ok (b, d')) : d'.freeBlocks sb + 1 = d.freeBlocks sb := by
  obtain ⟨hlt, hb, rfl⟩ := balloc_inv h
  have hmem : b ∈ (range sb.size).filter fun b => d.bitmap b = false :=
    mem_filter.mpr ⟨mem_range.mpr hlt, hb⟩
  have hset : (range sb.size).filter (fun c => update d.bitmap b true c = false) =
      ((range sb.size).filter fun c => d.bitmap c = false).erase b := by
    ext c
    by_cases hc : c = b <;> simp [hc, update_apply]
  have hpos := card_pos.mpr ⟨b, hmem⟩
  unfold freeBlocks
  rw [hset, card_erase_of_mem hmem]
  omega

theorem ballocAddr_enough (h : (d.iupdate x ip).Sound sb) (hk : k ≤ NDIRECT) (hkn : k < n) (hm : n ≤ MAXFILE)
    (he : Enough sb n ip d) : ∃ a ip' d', ballocAddr sb d ip k = .ok (a, ip', d') ∧ Enough sb n ip' d' := by
  by_cases h0 : ip.addrs k = 0
  case neg => exact ⟨ip.addrs k, ip, d, by rw [ballocAddr, if_neg h0], he⟩
  -- one of the missing blocks is the one that is allocated
  have key : ∀ a ip' d', ballocAddr sb d ip k = .ok (a, ip', d') → ip'.missing d'.data n + 1 = ip.missing d.data n := by
    intro a ip' d' hr
    obtain ⟨-, ha, hat, hoth, -, -⟩ := ballocAddr_grown h hk hr
    rcases Nat.lt_or_eq_of_le hk with hlt | rfl
    · refine Dinode.missing_block hkn (by rw [Dinode.blockAt_direct hlt, h0])
        (by rw [Dinode.blockAt_direct hlt, hat]; exact ha) (fun j hj hjk => hoth j (hj.trans_le hm) (.inl hjk)) ?_
      rcases ballocAddr_inv hr with ⟨-, -, rfl, -⟩ | ⟨-, -, rfl⟩
      · rfl
      · exact update_of_ne (by omega) ..
    · exact Dinode.missing_ind hkn h0 (by rw [hat]; exact ha) fun j hj => hoth j (hj.trans_le hm) (.inr rfl)
  have hpos : 0 < ip.missing d.data n := by
    rcases Nat.lt_or_eq_of_le hk with hlt | rfl
    · exact Dinode.missing_pos hkn (by rw [Dinode.blockAt_direct hlt, h0])
    · rw [Dinode.missing, if_pos ⟨hkn, h0⟩]
      omega
  obtain ⟨a, d', hb⟩ := balloc_ok (hpos.trans_le he)
  have hr : ballocAddr sb d ip k = .ok (a, { ip with addrs := update ip.addrs k a }, d') := by
    rw [ballocAddr, if_pos h0, hb]
    rfl
  refine ⟨a, _, d', hr, ?_⟩
  have hmiss := key _ _ _ hr
  have hfree := balloc_free hb
  unfold Enough at he ⊢
  omega

theorem bmap_enough (h : (d.iupdate x ip).Sound sb) (hbn : bn < n) (hm : n ≤ MAXFILE) (he : Enough sb n ip d) :
    ∃ a ip' d', bmap sb d ip bn = .ok (a, ip', d') ∧ Enough sb n ip' d' := by
  have hmax : bn < MAXFILE := hbn.trans_le hm
  by_cases hd : bn < NDIRECT
  · rw [bmap, if_pos hd]
    exact ballocAddr_enough h hd.le hbn hm he
  have hle : NDIRECT ≤ bn := Nat.not_lt.mp hd
  rw [bmap, if_neg hd, if_pos (by simp only [MAXFILE] at hmax; omega)]
  obtain ⟨ind, ip₁, d₁, hr₁, he₁⟩ := ballocAddr_enough h le_rfl (hle.trans_lt hbn) hm he
  obtain ⟨hg, hind, rfl, -⟩ := ballocAddr_grown h le_rfl hr₁
  rw [hr₁, ok_bind]
  simp only
  split
  · rename_i h0
    have h0 : ip₁.blockAt d₁.data bn = 0 := (Dinode.blockAt_indirect hle hind).trans h0
    obtain ⟨a, d₂, hb⟩ := balloc_ok ((Dinode.missing_pos hbn h0).trans_le he₁)
    rw [hb, ok_bind]
    refine ⟨a, ip₁, _, rfl, ?_⟩
    obtain ⟨-, ha, hblk, -⟩ := setEntry_grown hg.sound hind hle hmax h0 hb rfl
    have hmiss := Dinode.missing_block hbn h0 (by rw [hblk, if_pos rfl]; exact ha)
      (fun j _ hj => by rw [hblk, if_neg hj]) rfl
    exact Nat.le_of_add_le_add_right (hmiss.trans_le (he₁.trans (balloc_free hb).ge))
  · exact ⟨_, ip₁, d₁, rfl, he₁⟩

theorem writeBlocks_enough (h : (d.iupdate x ip).Sound sb) (hm : n ≤ MAXFILE) (hoff : off + src.length ≤ n * BSIZE)
    (he : Enough sb n ip d) : ∃ ip' d', writeBlocks sb fuel d ip off src = .ok (ip', d') ∧ Enough sb n ip' d' := by
  induction fuel generalizing d ip off src with
  | zero => exact ⟨ip, d, rfl, he⟩
  | succ fuel ih =>
    unfold writeBlocks
    split
    · exact ⟨ip, d, rfl, he⟩
    rename_i h0
    have hbn : off / BSIZE < n := Nat.div_lt_of_lt_mul (by rw [Nat.mul_comm]; omega)
    obtain ⟨a, ip₁, d₁, hr, he₁⟩ := bmap_enough h hbn hm he
    obtain ⟨hg, ha, hat, -⟩ := bmap_grown h (hbn.trans_le hm) hr
    rw [hr, ok_bind]
    obtain ⟨htd, hblk, -⟩ := splice_touched hg.sound (hbn.trans_le hm) hat ha rfl
    refine ih htd.sound (by rw [List.length_drop]; omega) ?_
    unfold Enough at he₁ ⊢
    rwa [Dinode.missing_congr (fun j _ => hblk j) rfl]

theorem writei_enough (h : d.Ok sb) (hm : n ≤ MAXFILE) (hoff : off + src.length ≤ n * BSIZE)
    (he : Enough sb n (d.dinode x) d) :
    ∃ r ip' d', writei sb d x (d.dinode x) off src = .ok (r, ip', d') ∧ Enough sb n ip' d' := by
  unfold writei
  split
  · exact ⟨_, _, _, rfl, he⟩
  split
  · exact ⟨_, _, _, rfl, he⟩
  have hs : (d.iupdate x (d.dinode x)).Sound sb := by
    rw [iupdate_self]
    exact h.sound
  obtain ⟨ip', d', hr, he'⟩ : ∃ ip' d', writeBlocks sb src.length d (d.dinode x) off src = .ok (ip', d') ∧
    Enough sb n ip' d' :=
    writeBlocks_enough hs hm hoff he
  rw [hr, ok_bind]
  simp only
  split
  · exact ⟨_, _, _, rfl, he'⟩
  · exact ⟨_, _, _, rfl, he'⟩

end Disk

namespace Fs

def blocksFor (n : Nat) : Nat := (n + BSIZE - 1) / BSIZE

theorem blocksFor_spec (hn : n ≤ MAXFILE * BSIZE) : n ≤ blocksFor n * BSIZE ∧ blocksFor n ≤ MAXFILE := by
  simp only [blocksFor, MAXFILE, NDIRECT, NINDIRECT, BSIZE] at *
  omega

theorem enough_of_le (h : d.Ok sb) (ht : (d.dinode x).type.hasBlocks) (hn : n ≤ (d.dinode x).size) :
    Disk.Enough sb (blocksFor n) (d.dinode x) d := by
  obtain ⟨-, hmax⟩ := blocksFor_spec (hn.trans (h.size_le x ht))
  have hthere : ∀ bn < blocksFor n, (d.dinode x).blockAt d.data bn ≠ 0 := fun bn hbn =>
    (h.filled x ht bn (hbn.trans_le hmax)).mpr (by simp only [blocksFor, BSIZE] at *; omega)
  have h0 : (d.dinode x).missing d.data (blocksFor n) = 0 := by
    unfold Dinode.missing
    rw [filter_false_of_mem fun bn hbn => hthere bn (mem_range.mp hbn), card_empty, if_neg]
    rintro ⟨hlt, hind⟩
    exact hthere NDIRECT hlt (Dinode.blockAt_none le_rfl hind)
  unfold Disk.Enough
  omega

theorem writei_enough {P : Type} [Fintype P] [DecidableEq P] {s : Fs P} {p : P} {i : Fin NINODE} {c : Prop}
    (h : InvIf c sb s) (hl : (s.icache i).lock = some p) (ht : (s.typeOf i).hasBlocks) (hm : n ≤ MAXFILE)
    (hoff : off + src.length ≤ n * BSIZE) (he : Disk.Enough sb n (s.disk.dinode (s.icache i).inum) s.disk) :
    ∃ r t, s.writei sb i off src = .ok (r, t) ∧ Disk.Enough sb n (t.disk.dinode (s.icache i).inum) t.disk := by
  have hlen : src.length < 2 ^ 32 := by
    simp only [MAXFILE, NDIRECT, NINDIRECT, BSIZE] at *
    omega
  obtain ⟨r, ip', d', hr, he'⟩ := Disk.writei_enough h.disk hm hoff he
  obtain ⟨-, hip, -⟩ := Disk.writei_ok h.disk ht hlen hr
  refine ⟨r, s.setCopy i ip' d', ?_, by rw [← hip] at he'; exact he'⟩
  unfold Fs.writei
  rw [(h.copy_of_lock hl).1, hr, ok_bind]

end Fs

end Xv6
