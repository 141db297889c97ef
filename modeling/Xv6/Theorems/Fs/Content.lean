import Xv6.Theorems.Fs.Blocks

/-! The content of an inode: what `readi` returns and what `writei` changes, and the invariant of the disk
    that both keep. -/

namespace Xv6
open List Dinode Function Except

/-- Byte `i` of the content of an inode; a block that is not there counts as zeros. -/
def Dinode.byteAt (ip : Dinode) (data : Nat → Nat → UInt8) (i : Nat) : UInt8 :=
  if ip.blockAt data (i / BSIZE) = 0 then 0 else data (ip.blockAt data (i / BSIZE)) (i % BSIZE)

def Dinode.content (ip : Dinode) (data : Nat → Nat → UInt8) (off n : Nat) : List UInt8 :=
  (List.range n).map fun i => ip.byteAt data (off + i)

/-- The blocks that are there are those of the first `t` bytes. -/
def Dinode.Filled (ip : Dinode) (data : Nat → Nat → UInt8) (t : Nat) : Prop :=
  ∀ bn < MAXFILE, ip.blockAt data bn ≠ 0 ↔ bn * BSIZE < t

def InodeType.hasBlocks (t : InodeType) : Prop := t = .dir ∨ t = .file

structure Disk.Ok (sb : Superblock) (d : Disk) : Prop where
  sound : d.Sound sb
  free : ∀ x, (d.dinode x).type = .free → ∀ k ≤ NDIRECT, (d.dinode x).addrs k = 0
  filled : ∀ x, (d.dinode x).type.hasBlocks → (d.dinode x).Filled d.data (d.dinode x).size
  size_le : ∀ x, (d.dinode x).type.hasBlocks → (d.dinode x).size ≤ MAXFILE * BSIZE

variable {sb : Superblock} {d d' : Disk} {ip ip' : Dinode} {data : Nat → Nat → UInt8} {x y k bn a off n m t fuel : Nat}
  {src : List UInt8}

namespace Dinode

@[simp] theorem content_length : (ip.content data off n).length = n := by simp [content]

theorem content_add : ip.content data off (m + n) = ip.content data off m ++ ip.content data (off + m) n := by
  simp [content, range_add, Nat.add_assoc]

theorem content_slice {a : Nat} (h : a + m ≤ n) : ((ip.content data 0 n).drop a).take m = ip.content data a m := by
  obtain ⟨r, rfl⟩ := Nat.exists_eq_add_of_le h
  rw [Nat.add_assoc, content_add, content_add, drop_left' content_length, take_left' content_length, Nat.zero_add]

theorem content_write {data' : Nat → Nat → UInt8} (hoff : off ≤ n) (hmax : max n (off + src.length) ≤ MAXFILE * BSIZE)
    (hbyte : ∀ i < MAXFILE * BSIZE, ip'.byteAt data' i =
      if off ≤ i ∧ i < off + src.length then src.getD (i - off) 0 else ip.byteAt data i) :
    ip'.content data' 0 (max n (off + src.length)) =
      (ip.content data 0 n).take off ++ src ++ (ip.content data 0 n).drop (off + src.length) := by
  have hlen : ((ip.content data 0 n).take off).length = off := by simpa using hoff
  refine ext_getElem (by simp; omega) fun i h1 h2 => ?_
  have hi : i < max n (off + src.length) := by simpa using h1
  have hb := hbyte i (by omega)
  rw [show (ip'.content data' 0 (max n (off + src.length)))[i] = ip'.byteAt data' i by simp [content], hb]
  by_cases ha : i < off
  · rw [if_neg (by omega), getElem_append_left (by simp; omega), getElem_append_left (by simp; omega)]
    simp [content]
  by_cases hs : i < off + src.length
  · rw [if_pos (by omega), getElem_append_left (by simp; omega), getElem_append_right (by simp; omega)]
    have hlt : i - off < src.length := by omega
    simp [hlen, hlt]
  · rw [if_neg (by omega), getElem_append_right (by simp; omega)]
    simp only [getElem_drop, length_append, hlen]
    simp only [content, getElem_map, getElem_range]
    congr 1
    omega

theorem content_block (hm : off % BSIZE + m ≤ BSIZE) (h0 : ip.blockAt data (off / BSIZE) ≠ 0) :
    ip.content data off m = Bytes.slice (data (ip.blockAt data (off / BSIZE))) (off % BSIZE) m := by
  refine map_congr_left fun i hi => ?_
  have hi := mem_range.mp hi
  have h1 : (off + i) / BSIZE = off / BSIZE := by simp only [BSIZE] at *; omega
  have h2 : (off + i) % BSIZE = off % BSIZE + i := by simp only [BSIZE] at *; omega
  rw [byteAt, h1, h2, if_neg h0]

end Dinode

namespace Disk

/-! ### Reading -/

theorem bmap_of_block (hbn : bn < MAXFILE) (h0 : ip.blockAt d.data bn ≠ 0) :
    bmap sb d ip bn = .ok (ip.blockAt d.data bn, ip, d) := by
  by_cases hd : bn < NDIRECT
  · rw [blockAt_direct hd] at h0 ⊢
    simp only [bmap, hd, if_true, ballocAddr, if_neg h0]
  · have hi : ip.addrs NDIRECT ≠ 0 := fun hi => h0 (blockAt_none (Nat.not_lt.mp hd) hi)
    rw [blockAt_indirect (Nat.not_lt.mp hd) hi] at h0 ⊢
    have hlt : bn - NDIRECT < NINDIRECT := by simp only [MAXFILE] at hbn; omega
    simp only [bmap, hd, hlt, if_true, if_false, ballocAddr, if_neg hi]
    change (if _ then _ else _) = _
    rw [if_neg h0]

theorem readBlocks_eq (hf : ∀ bn < MAXFILE, bn * BSIZE < t → ip.blockAt d.data bn ≠ 0) (ht : t ≤ MAXFILE * BSIZE)
    (hn : n ≤ fuel) (hoff : off + n ≤ t) : readBlocks sb fuel d ip off n = .ok (ip.content d.data off n, ip, d) := by
  induction fuel generalizing off n with
  | zero =>
    obtain rfl : n = 0 := by omega
    rfl
  | succ fuel ih =>
    by_cases h0 : n = 0
    · subst h0
      rfl
    have hbn : off / BSIZE < MAXFILE := by simp only [BSIZE] at *; omega
    have hblk := hf (off / BSIZE) hbn (by simp only [BSIZE] at *; omega)
    obtain ⟨m, hm⟩ : ∃ m, m = min n (BSIZE - off % BSIZE) := ⟨_, rfl⟩
    have hmod : off % BSIZE < BSIZE := Nat.mod_lt _ (by decide)
    have hrest : readBlocks sb fuel d ip (off + m) (n - m) = _ := ih (by omega) (by omega)
    simp only [readBlocks, h0, if_false, bmap_of_block hbn hblk]
    change (readBlocks sb fuel d ip _ _ >>= _) = _
    rw [← hm, hrest, ← content_block (by omega) hblk]
    change ok (ip.content d.data off m ++ ip.content d.data (off + m) (n - m), ip, d) = _
    rw [← content_add, show m + (n - m) = n by omega]

theorem readi_eq (hf : ip.Filled d.data ip.size) (hs : ip.size ≤ MAXFILE * BSIZE) (hn : n < 2 ^ 32) :
    readi sb d ip off n = .ok (if off > ip.size ∨ (off + n) % 2 ^ 32 < off then none
      else some (ip.content d.data off (min n (ip.size - off))), ip, d) := by
  unfold readi
  split
  · rfl
  · rename_i hc
    have hsz : ip.size < 2 ^ 32 := by simp only [MAXFILE, NDIRECT, NINDIRECT, BSIZE] at hs; omega
    have hmin : (if (off + n) % 2 ^ 32 > ip.size then ip.size - off else n) = min n (ip.size - off) := by
      split <;> omega
    have hr : readBlocks sb (min n (ip.size - off)) d ip off (min n (ip.size - off)) = _ :=
      readBlocks_eq (fun bn hbn hlt => (hf bn hbn).mpr hlt) hs le_rfl (by omega)
    simp only [hmin, hr]
    rfl

/-! ### Writing -/

section

variable (h : (d.iupdate x ip).Sound sb)
include h

theorem bmap_byteAt (hbn : bn < MAXFILE) (hr : bmap sb d ip bn = .ok (a, ip', d'))
    {i : Nat} (hi : i < MAXFILE * BSIZE) : ip'.byteAt d'.data i = ip.byteAt d.data i := by
  obtain ⟨hg, ha, hat, hoth, -, hzero⟩ := bmap_grown h hbn hr
  have hk : i / BSIZE < MAXFILE := Nat.div_lt_of_lt_mul (by rwa [Nat.mul_comm])
  by_cases h0 : ip.blockAt d.data (i / BSIZE) = 0
  · by_cases hkb : i / BSIZE = bn
    · rw [hkb] at h0
      simp only [Dinode.byteAt, hkb, hat, hzero h0, h0]
      split <;> rfl
    · simp only [Dinode.byteAt, hoth _ hk hkb, h0, if_true]
  · simp only [Dinode.byteAt, hg.block _ hk h0, hg.content _ hk h0]

theorem splice_touched (hbn : bn < MAXFILE) (ha : ip.blockAt d.data bn = a) (h0 : a ≠ 0)
    (hd : d' = { d with data := update d.data a (Bytes.splice (d.data a) k src) }) :
    Touched sb x d ip d' ip ∧ (∀ j, ip.blockAt d'.data j = ip.blockAt d.data j) ∧
      ∀ i < MAXFILE * BSIZE, ip.byteAt d'.data i =
        if i / BSIZE = bn then Bytes.splice (d.data a) k src (i % BSIZE) else ip.byteAt d.data i := by
  have hown : (d.iupdate x ip).own (x, bn) = some a := by
    rw [own_iupdate_self]
    exact (slot_block hbn).mpr ⟨ha, h0⟩
  have hdata : ∀ {c}, c ≠ a → d'.data c = d.data c := fun hc => by
    rw [hd]
    exact update_of_ne hc _ _
  have hoth : ∀ y ≠ x, ∀ j b, (d.dinode y).slot d.data j = some b → d'.data b = d.data b := by
    refine fun y hy j b hj => hdata fun hc => hy ?_
    exact (Prod.mk.inj (h.owns.inj (x := (y, j)) (by rw [own_iupdate_ne hy, hj, hc]) hown)).1
  have hind : ip.addrs NDIRECT ≠ 0 → d'.data (ip.addrs NDIRECT) = d.data (ip.addrs NDIRECT) :=
    fun hi => hdata fun hc => (h.ind_ne hi).1 bn hbn (ha.trans hc.symm)
  have hblk : ∀ j, ip.blockAt d'.data j = ip.blockAt d.data j := fun j => blockAt_congr rfl hind
  have hsame : (d'.iupdate x ip).own = (d.iupdate x ip).own := by
    funext ⟨y, j⟩
    by_cases hy : y = x
    · subst hy
      rw [own_iupdate_self, own_iupdate_self]
      exact slot_congr rfl hind
    · rw [own_iupdate_ne hy, own_iupdate_ne hy]
      rw [show d'.dinode = d.dinode by rw [hd]]
      exact slot_congr rfl fun hi => hoth y hy MAXFILE _ (slot_ind.mpr ⟨rfl, hi⟩)
  refine ⟨⟨⟨?_, ?_⟩, by rw [hd], rfl, fun j _ _ => hblk j, hoth, fun b hb => by rw [hd]; exact hb⟩, hblk,
    fun i hi => ?_⟩
  · rw [hsame]
    have := h.owns
    subst hd
    exact this
  · have := h.meta_used
    subst hd
    exact this
  · have hk : i / BSIZE < MAXFILE := Nat.div_lt_of_lt_mul (by rwa [Nat.mul_comm])
    simp only [Dinode.byteAt, hblk]
    split
    · rename_i hz
      rw [if_neg]
      rintro rfl
      exact h0 (ha ▸ hz)
    · rename_i hz
      split
      · rename_i hib
        rw [hib, ha, hd]
        exact congrFun (update_self ..) _
      · rename_i hib
        rw [hdata]
        intro hc
        have := h.owns.inj (x := (x, i / BSIZE))
          (by rw [own_iupdate_self]; exact (slot_block hk).mpr ⟨hc, h0⟩) hown
        exact hib (Prod.mk.inj this).2

theorem filled_bmap (hf : ip.Filled d.data t) (hoff : off ≤ t) (hm : 0 < m)
    (hmb : off % BSIZE + m ≤ BSIZE) (hbn : off / BSIZE < MAXFILE) (hr : bmap sb d ip (off / BSIZE) = .ok (a, ip', d')) :
    ip'.Filled d'.data (max t (off + m)) := by
  obtain ⟨-, ha, hat, hoth, -, -⟩ := bmap_grown h hbn hr
  intro bn hbn'
  by_cases hb : bn = off / BSIZE
  · subst hb
    rw [hat]
    refine ⟨fun _ => ?_, fun _ => ha⟩
    have := Nat.div_mul_le_self off BSIZE
    omega
  · rw [hoth bn hbn' hb, hf bn hbn']
    simp only [BSIZE] at *
    omega

theorem writeBlocks_ok (hf : ip.Filled d.data t) (hoff : off ≤ t)
    (hmax : off + src.length ≤ MAXFILE * BSIZE) (hfuel : src.length ≤ fuel)
    (hr : writeBlocks sb fuel d ip off src = .ok (ip', d')) :
    Touched sb x d ip d' ip' ∧ ip'.Filled d'.data (max t (off + src.length)) ∧ (off + src.length ≤ t → ip' = ip) ∧
      ∀ i < MAXFILE * BSIZE, ip'.byteAt d'.data i =
        if off ≤ i ∧ i < off + src.length then src.getD (i - off) 0 else ip.byteAt d.data i := by
  induction fuel generalizing d ip off src t with
  | zero =>
    cases hr
    obtain rfl : src = [] := length_eq_zero_iff.mp (by omega)
    refine ⟨.refl h, by simpa [Nat.max_eq_left hoff] using hf, fun _ => rfl, fun i _ => ?_⟩
    rw [if_neg (by simp)]
  | succ fuel ih =>
    unfold writeBlocks at hr
    split at hr
    · rename_i h0
      cases hr
      obtain rfl : src = [] := length_eq_zero_iff.mp h0
      refine ⟨.refl h, by simpa [Nat.max_eq_left hoff] using hf, fun _ => rfl, fun i _ => ?_⟩
      rw [if_neg (by simp)]
    rename_i h0
    obtain ⟨⟨a, ip₁, d₁⟩, hb, hr⟩ := bind_eq_ok.mp hr
    obtain ⟨m, hm⟩ : ∃ m, m = min src.length (BSIZE - off % BSIZE) := ⟨_, rfl⟩
    have hmod : off % BSIZE < BSIZE := Nat.mod_lt _ (by decide)
    have hbn : off / BSIZE < MAXFILE := by simp only [BSIZE] at *; omega
    obtain ⟨hg, ha, hat, hoth, hsame, -⟩ := bmap_grown h hbn hb
    have hf₁ := filled_bmap h hf hoff (m := m) (by omega) (by omega) hbn hb
    simp only [← hm] at hr
    obtain ⟨d₂, hd₂⟩ : ∃ e : Disk, e = {
      d₁ with data := update d₁.data a (Bytes.splice (d₁.data a) (off % BSIZE) (src.take m)) } := ⟨_, rfl⟩
    rw [← hd₂] at hr
    obtain ⟨ht, hblk, hbyte⟩ := splice_touched hg.sound hbn hat ha hd₂
    have hlen : (src.drop m).length = src.length - m := length_drop ..
    have hf₂ : ip₁.Filled d₂.data (max t (off + m)) := fun bn hbn => by rw [hblk]; exact hf₁ bn hbn
    obtain ⟨ht', hf', hsame', hbyte'⟩ := ih ht.sound hf₂ (by omega) (by omega) (by omega) hr
    refine ⟨hg.toTouched.trans (ht.trans ht'), ?_, fun hle => ?_, fun i hi => ?_⟩
    · rwa [show max (max t (off + m)) (off + m + (src.drop m).length) = max t (off + src.length) by omega] at hf'
    · -- the block was there, so nothing was allocated
      have hthere : ip.blockAt d.data (off / BSIZE) ≠ 0 := (hf _ hbn).mpr (by simp only [BSIZE] at *; omega)
      rw [hsame' (by omega), (hsame hthere).1]
    · rw [hbyte' i hi, hbyte i hi, bmap_byteAt h hbn hb hi, hlen]
      by_cases h1 : off + m ≤ i ∧ i < off + m + (src.length - m)
      · rw [if_pos h1, if_pos (by omega)]
        simp only [getD_eq_getElem?_getD, List.getElem?_drop]
        rw [show m + (i - (off + m)) = i - off by omega]
      · rw [if_neg h1]
        by_cases h2 : off ≤ i ∧ i < off + m
        · have hib : i / BSIZE = off / BSIZE := by simp only [BSIZE] at *; omega
          have hmod' : i % BSIZE = off % BSIZE + (i - off) := by simp only [BSIZE] at *; omega
          have hlt : i - off < m := by omega
          rw [if_pos hib, if_pos (by omega), Bytes.splice, if_pos (by simp only [length_take]; omega), hmod',
            Nat.add_sub_cancel_left]
          simp only [getD_eq_getElem?_getD, List.getElem?_take, hlt, if_true]
        · rw [if_neg (c := off ≤ i ∧ i < off + src.length) (by omega)]
          by_cases hib : i / BSIZE = off / BSIZE
          · rw [if_pos hib, Bytes.splice, if_neg]
            · rw [← bmap_byteAt h hbn hb hi, Dinode.byteAt, hib, hat, if_neg ha]
            · simp only [length_take, BSIZE] at *
              omega
          · rw [if_neg hib]

end

theorem writeBlocks_error {e : Halt} (hmax : off + src.length ≤ MAXFILE * BSIZE)
    (h : writeBlocks sb fuel d ip off src = .error e) : e = .panic "balloc: out of blocks" := by
  induction fuel generalizing d ip off src with
  | zero => cases h
  | succ fuel ih =>
    unfold writeBlocks at h
    split_ifs at h with h0
    rcases bind_eq_error.mp h with h | ⟨⟨a, ip₁, d₁⟩, -, h⟩
    · exact bmap_error (by simp only [BSIZE] at *; omega) h
    · refine ih ?_ h
      simp only [length_drop]
      omega

structure Kept (sb : Superblock) (x : Nat) (d d' : Disk) : Prop where
  ok : d'.Ok sb
  dinode : ∀ y ≠ x, d'.dinode y = d.dinode y
  fields : d'.dinode x = { d.dinode x with size := (d'.dinode x).size, addrs := (d'.dinode x).addrs }
  data : ∀ y ≠ x, ∀ k b, (d.dinode y).slot d.data k = some b → d'.data b = d.data b
  used : ∀ b, d.bitmap b = true → d'.bitmap b = true

theorem Kept.refl (h : d.Ok sb) : Kept sb x d d := ⟨h, fun _ _ => rfl, rfl, fun _ _ _ _ _ => rfl, fun _ => id⟩

theorem Kept.trans {d'' : Disk} (h : Kept sb x d d') (h' : Kept sb x d' d'') : Kept sb x d d'' := by
  refine ⟨h'.ok, fun y hy => (h'.dinode y hy).trans (h.dinode y hy), ?_, fun y hy k b hb => ?_,
    fun b hb => h'.used b (h.used b hb)⟩
  · rw [h'.fields, h.fields]
  · have hslot : (d'.dinode y).slot d'.data k = some b := by
      rw [h.dinode y hy, slot_congr rfl fun h0 => h.data y hy MAXFILE _ (slot_ind.mpr ⟨rfl, h0⟩)]
      exact hb
    rw [h'.data y hy k b hslot, h.data y hy k b hb]

theorem touched_kept (h : d.Ok sb) (ht : (d.dinode x).type.hasBlocks) (htd : Touched sb x d (d.dinode x) d' ip')
    (hf : ip'.Filled d'.data t) (hmax : t ≤ MAXFILE * BSIZE) : Kept sb x d (d'.iupdate x { ip' with size := t }) := by
  have htype : ip'.type = (d.dinode x).type := by rw [htd.fields]
  have hx : (d'.iupdate x { ip' with size := t }).dinode x = { ip' with size := t } := by simp [iupdate]
  have hy : ∀ y ≠ x, (d'.iupdate x { ip' with size := t }).dinode y = d.dinode y := fun y hy => by
    simp [iupdate, hy, htd.dinode]
  have hdata : ∀ y ≠ x, (d.dinode y).addrs NDIRECT ≠ 0 →
      d'.data ((d.dinode y).addrs NDIRECT) = d.data ((d.dinode y).addrs NDIRECT) := fun y hy h0 =>
    htd.other y hy MAXFILE _ (slot_ind.mpr ⟨rfl, h0⟩)
  refine ⟨⟨?_, fun y hfree k hk => ?_, fun y hty => ?_, fun y hty => ?_⟩, hy, ?_, htd.other, htd.used⟩
  · have h2 : ((d'.iupdate x ip').iupdate x { ip' with size := t }).Sound sb :=
      htd.sound.iupdate_congr (by simp [iupdate])
    rwa [iupdate_iupdate] at h2
  · by_cases hyx : y = x
    · subst hyx
      rw [hx] at hfree
      simp only [htype] at hfree
      rcases ht with h' | h' <;> rw [hfree] at h' <;> cases h'
    · rw [hy y hyx] at hfree ⊢
      exact h.free y hfree k hk
  · by_cases hyx : y = x
    · subst hyx
      rw [hx]
      exact fun bn hbn => hf bn hbn
    · rw [hy y hyx] at hty ⊢
      intro bn hbn
      rw [← h.filled y hty bn hbn]
      exact not_congr (by rw [show (d'.iupdate x { ip' with size := t }).data = d'.data from rfl,
        blockAt_congr rfl (hdata y hyx)])
  · by_cases hyx : y = x
    · subst hyx
      rw [hx]
      exact hmax
    · rw [hy y hyx] at hty ⊢
      exact h.size_le y hty
  · rw [hx, htd.fields]

theorem writei_ok {r : Option Nat} (h : d.Ok sb) (ht : (d.dinode x).type.hasBlocks) (hlen : src.length < 2 ^ 32)
    (hr : writei sb d x (d.dinode x) off src = .ok (r, ip', d')) : Kept sb x d d' ∧ d'.dinode x = ip' ∧
      (r = none ∧ d' = d ∧ (off > (d.dinode x).size ∨ off + src.length > MAXFILE * BSIZE) ∨
        r = some src.length ∧ off ≤ (d.dinode x).size ∧ ip'.size = max (d.dinode x).size (off + src.length) ∧
        ∀ i < MAXFILE * BSIZE, ip'.byteAt d'.data i =
          if off ≤ i ∧ i < off + src.length then src.getD (i - off) 0 else (d.dinode x).byteAt d.data i) := by
  have hs := h.size_le x ht
  have hm : MAXFILE * BSIZE = 71680 := rfl
  unfold writei at hr
  split at hr
  · cases hr
    exact ⟨.refl h, rfl, .inl ⟨rfl, rfl, by omega⟩⟩
  split at hr
  · cases hr
    exact ⟨.refl h, rfl, .inl ⟨rfl, rfl, by omega⟩⟩
  rename_i h1 h2
  have hmax : off + src.length ≤ MAXFILE * BSIZE := by omega
  obtain ⟨⟨ip₁, d₁⟩, hw, hr⟩ := bind_eq_ok.mp hr
  obtain ⟨htd, hf, hsame, hbyte⟩ := writeBlocks_ok (x := x) (by rw [iupdate_self]; exact h.sound) (h.filled x ht)
    (by omega) hmax le_rfl hw
  have hsize : ip₁.size = (d.dinode x).size := by rw [htd.fields]
  simp only at hr
  split at hr
  · rename_i hgrow
    cases hr
    rw [Nat.max_eq_right (by omega)] at hf
    refine ⟨touched_kept h ht htd hf hmax, by simp [iupdate], .inr ⟨rfl, by omega, ?_, hbyte⟩⟩
    change off + src.length = _
    omega
  · rename_i hgrow
    obtain ⟨rfl, rfl, rfl⟩ : some src.length = r ∧ ip₁ = ip' ∧ d₁ = d' := by simpa using hr
    have hle : off + src.length ≤ (d.dinode x).size := by omega
    rw [Nat.max_eq_left hle] at hf
    have hip : ip₁ = d.dinode x := hsame hle
    have hk := touched_kept h ht htd hf hs
    have hid : d₁.iupdate x { ip₁ with size := (d.dinode x).size } = d₁ := by
      rw [hip, ← htd.dinode]
      exact iupdate_self ..
    rw [hid] at hk
    refine ⟨hk, by rw [htd.dinode, hip], .inr ⟨rfl, by omega, ?_, hbyte⟩⟩
    rw [hip]
    omega

theorem writei_error {e : Halt} (hlen : src.length < 2 ^ 32) (h : writei sb d x ip off src = .error e)
    (hs : ip.size ≤ MAXFILE * BSIZE) : e = .panic "balloc: out of blocks" := by
  have hm : MAXFILE * BSIZE = 71680 := rfl
  unfold writei at h
  split at h
  · cases h
  split_ifs at h
  rcases bind_eq_error.mp h with h | ⟨⟨ip₁, d₁⟩, -, h⟩
  · exact writeBlocks_error (by omega) h
  · simp only at h
    split at h <;> cases h

end Disk

end Xv6
