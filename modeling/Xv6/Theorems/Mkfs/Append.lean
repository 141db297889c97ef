import Xv6.Mkfs
import Xv6.Theorems.Fs.Dirent

/-! `iappend` does to the image what `writei` does to the disk: the blocks that mkfs hands out by counting are those
    the kernel finds first in the bitmap. -/

namespace Xv6
open Function Bytes List

namespace Dinode

variable {b b' : Nat → UInt8} {k v : Nat}

theorem ofBytes_congr (h : ∀ i < DINODE, b i = b' i) : ofBytes b = ofBytes b' := by
  have hh : ∀ o, o + 1 < DINODE → Bytes.half b o = Bytes.half b' o := fun o ho =>
    half_congr fun i hi => h i (by omega)
  have hw : ∀ j, j < 16 → Bytes.word b j = Bytes.word b' j := fun j hj =>
    word_congr fun i hi => h i (by simp only [DINODE]; omega)
  have ha : ∀ k, (if k ≤ NDIRECT then Bytes.word b (3 + k) else 0) = if k ≤ NDIRECT then Bytes.word b' (3 + k)
    else 0 := by
    intro k
    split
    · rename_i hk
      exact hw _ (by simp only [NDIRECT] at hk; omega)
    · rfl
  simp only [ofBytes, hh 0 (by decide), hh 2 (by decide), hh 4 (by decide), hh 6 (by decide), hw 2 (by decide), ha]

theorem ofBytes_setWord_size (hv : v < 2 ^ 32) : ofBytes (Bytes.setWord b 2 v) = { ofBytes b with size := v } := by
  have ha : ∀ k, Bytes.word (Bytes.setWord b 2 v) (3 + k) = Bytes.word b (3 + k) := fun k =>
    word_setWord_ne (by omega)
  simp only [ofBytes, half_setWord (d := b) (j := 2) (v := v) (o := 0) (by decide) (by decide),
    half_setWord (d := b) (j := 2) (v := v) (o := 2) (by decide) (by decide),
    half_setWord (d := b) (j := 2) (v := v) (o := 4) (by decide) (by decide),
    half_setWord (d := b) (j := 2) (v := v) (o := 6) (by decide) (by decide), word_setWord hv, ha]

theorem ofBytes_setWord_addr (hk : k ≤ NDIRECT) (hv : v < 2 ^ 32) :
    ofBytes (Bytes.setWord b (3 + k) v) = { ofBytes b with addrs := update (ofBytes b).addrs k v } := by
  have hh : ∀ o, o < 7 → Bytes.half (Bytes.setWord b (3 + k) v) o = Bytes.half b o := fun o ho =>
    half_setWord (by omega) (by omega)
  have hs : Bytes.word (Bytes.setWord b (3 + k) v) 2 = Bytes.word b 2 := word_setWord_ne (by omega)
  have ha : (fun j => if j ≤ NDIRECT then Bytes.word (Bytes.setWord b (3 + k) v) (3 + j) else 0) =
      update (fun j => if j ≤ NDIRECT then Bytes.word b (3 + j) else 0) k v := by
    funext j
    rw [update_apply]
    by_cases hj : j = k
    · subst hj
      rw [if_pos hk, if_pos rfl, word_setWord hv]
    · rw [if_neg hj, word_setWord_ne (by omega)]
  simp only [ofBytes, hh 0 (by decide), hh 2 (by decide), hh 4 (by decide), hh 6 (by decide), hs, ha]

end Dinode

namespace Mkfs

variable {s s' : State} {din din' : Nat → UInt8} {x y k b fbn off fuel : Nat} {p : List UInt8}

theorem iblock_bounds (hx : x < NINODES) : 2 ≤ IBLOCK x sb ∧ IBLOCK x sb < nmeta := by
  have h1 : IBLOCK x sb = x / 8 + 32 := rfl
  have h2 : nmeta = 59 := rfl
  simp only [NINODES] at hx
  omega

namespace State

/-- The disk that the image stands for while mkfs is at work: the blocks handed out are in use. -/
def disk (s : State) : Disk := { Disk.ofImage sb s.img with bitmap := fun b => decide (b < s.freeblock) }

structure Clean (s : State) : Prop where
  lo : nmeta ≤ s.freeblock
  hi : s.freeblock ≤ FSSIZE
  zero : ∀ b, s.freeblock ≤ b → s.img b = fun _ => 0

theorem disk_dinode (hx : x < NINODES) :
    s.disk.dinode x = .ofBytes (Bytes.shift (s.img (IBLOCK x sb)) (x % IPB * DINODE)) :=
  if_pos hx

theorem disk_dinode_beyond (hx : NINODES ≤ x) : s.disk.dinode x = .ofBytes fun _ => 0 := if_neg (Nat.not_lt.mpr hx)

theorem disk_data (hb : nmeta ≤ b) : s.disk.data b = s.img b := if_pos hb

/-! ### Sectors and inodes -/

theorem disk_wsect (hb : nmeta ≤ b) {f : Nat → UInt8} :
    (s.wsect b f).disk = { s.disk with data := update s.disk.data b f } := by
  have hi : (s.wsect b f).disk.dinode = s.disk.dinode := by
    funext x
    by_cases hx : x < NINODES
    · have hne : IBLOCK x sb ≠ b := by
        have := iblock_bounds hx
        omega
      rw [disk_dinode hx, disk_dinode hx, wsect]
      simp only [update_of_ne hne]
    · rw [disk_dinode_beyond (by omega), disk_dinode_beyond (by omega)]
  have hd : (s.wsect b f).disk.data = update s.disk.data b f := by
    funext c
    rw [update_apply]
    by_cases hc : nmeta ≤ c
    · rw [disk_data hc, disk_data hc, wsect]
      simp only [update_apply]
    · rw [if_neg (by omega)]
      exact (if_neg hc).trans (if_neg hc).symm
  exact congrArg₂ (fun i c => Disk.mk i s.disk.bitmap c) hi hd

theorem Clean.wsect (h : s.Clean) (hb : b < s.freeblock) {f : Nat → UInt8} : (s.wsect b f).Clean where
  lo := h.lo
  hi := h.hi
  zero c hc := by
    have hc : s.freeblock ≤ c := hc
    exact (update_of_ne (by omega) _ _).trans (h.zero c hc)

theorem rinode_eq (hx : x < NINODES) : ∃ din, s.rinode x = some din ∧ Dinode.ofBytes din = s.disk.dinode x := by
  have hlt : IBLOCK x sb < FSSIZE := (iblock_bounds hx).2.trans (by decide)
  refine ⟨_, ?_, (disk_dinode hx).symm⟩
  simp only [rinode, rsect, hlt, if_true]
  rfl

structure SameBlocks (s s' : State) : Prop where
  freeinode : s'.freeinode = s.freeinode
  freeblock : s'.freeblock = s.freeblock
  super : s'.img 1 = s.img 1
  data : ∀ b, nmeta ≤ b → s'.img b = s.img b

theorem winode_eq (din : Nat → UInt8) (hx : x < NINODES) :
    ∃ s', s.winode x din = some s' ∧ s'.disk = s.disk.iupdate x (.ofBytes din) ∧ SameBlocks s s' := by
  obtain ⟨hlo, hhi⟩ := iblock_bounds hx
  have hlt : IBLOCK x sb < FSSIZE := hhi.trans (by decide)
  obtain ⟨buf, hbuf⟩ : ∃ buf : Nat → UInt8, buf = fun i =>
      if x % IPB * DINODE ≤ i ∧ i < x % IPB * DINODE + DINODE then din (i - x % IPB * DINODE)
      else s.img (IBLOCK x sb) i := ⟨_, rfl⟩
  have hother : ∀ b, b ≠ IBLOCK x sb → (s.wsect (IBLOCK x sb) buf).img b = s.img b := fun b hb =>
    update_of_ne hb _ _
  refine ⟨s.wsect (IBLOCK x sb) buf, ?_, ?_, rfl, rfl, hother 1 (by omega), fun b hb => hother b (by omega)⟩
  · simp only [winode, rsect, hlt, if_true, hbuf]
    rfl
  · have hi : (s.wsect (IBLOCK x sb) buf).disk.dinode = update s.disk.dinode x (.ofBytes din) := by
      funext y
      rw [update_apply]
      by_cases hy : y < NINODES
      · rw [disk_dinode hy, disk_dinode hy, State.wsect]
        simp only [update_apply]
        by_cases hb : IBLOCK y sb = IBLOCK x sb
        · rw [if_pos hb]
          by_cases hyx : y = x
          · subst hyx
            rw [if_pos rfl]
            refine Dinode.ofBytes_congr fun i hi => ?_
            simp only [Bytes.shift, hbuf]
            rw [if_pos (by omega), Nat.add_sub_cancel_left]
          · -- another inode of the same block
            rw [if_neg hyx, hb]
            refine Dinode.ofBytes_congr fun i hi => ?_
            have h1 : IBLOCK y sb = y / 8 + 32 := rfl
            have h2 : IBLOCK x sb = x / 8 + 32 := rfl
            simp only [Bytes.shift, hbuf]
            rw [if_neg]
            simp only [IPB, DINODE] at *
            omega
        · rw [if_neg hb, if_neg]
          rintro rfl
          exact hb rfl
      · rw [if_neg (by omega), disk_dinode_beyond (by omega), disk_dinode_beyond (by omega)]
    have hd : (s.wsect (IBLOCK x sb) buf).disk.data = s.disk.data := by
      funext c
      by_cases hc : nmeta ≤ c
      · rw [disk_data hc, disk_data hc]
        exact hother c (by omega)
      · exact (if_neg hc).trans (if_neg hc).symm
    exact congrArg₂ (fun i c => Disk.mk i s.disk.bitmap c) hi hd

theorem SameBlocks.clean (h : SameBlocks s s') (hc : s.Clean) : s'.Clean where
  lo := by rw [h.freeblock]; exact hc.lo
  hi := by rw [h.freeblock]; exact hc.hi
  zero b hb := by
    rw [h.freeblock] at hb
    rw [h.data b (hc.lo.trans hb), hc.zero b hb]

/-! ### Blocks -/

theorem balloc_disk (h : s.Clean) (hlt : s.freeblock < FSSIZE) :
    Disk.balloc sb s.disk = .ok (s.freeblock, { s with freeblock := s.freeblock + 1 }.disk) := by
  have hfind : (range sb.size).find? (fun b => !s.disk.bitmap b) = some s.freeblock := by
    rw [find?_range_eq_some]
    refine ⟨?_, mem_range.mpr hlt, fun j hj => ?_⟩
    · simp [disk]
    · simp [disk, hj]
  have hbit : update s.disk.bitmap s.freeblock true = fun b => decide (b < s.freeblock + 1) := by
    funext b
    rw [update_apply]
    split
    · rename_i hb
      simp [hb]
    · rename_i hb
      change decide (b < s.freeblock) = _
      exact decide_eq_decide.mpr (by omega)
  have hdata : update s.disk.data s.freeblock (fun _ => 0) = s.disk.data := by
    rw [update_eq_self_iff, disk_data h.lo, h.zero _ le_rfl]
  simp only [Disk.balloc, hfind, hbit, hdata]
  rfl

theorem Clean.next (h : s.Clean) (hlt : s.freeblock < FSSIZE) : { s with freeblock := s.freeblock + 1 }.Clean where
  lo := h.lo.trans (Nat.le_succ _)
  hi := hlt
  zero b hb := h.zero b ((Nat.le_succ _).trans hb)

theorem freeblock_lt (h : s.Clean) : s.freeblock < 2 ^ 32 := lt_of_le_of_lt h.hi (by decide)

theorem allocAddr_eq (din : Nat → UInt8) (h : s.Clean) (hk : k ≤ NDIRECT)
    (hroom : (Dinode.ofBytes din).addrs k = 0 → s.freeblock < FSSIZE) : ∃ a din' s', s.allocAddr din k = (a, din', s') ∧
      s.disk.ballocAddr sb (.ofBytes din) k = .ok (a, .ofBytes din', s'.disk) ∧ s'.Clean ∧
      s'.freeblock = s.freeblock + (if (Dinode.ofBytes din).addrs k = 0 then 1 else 0) ∧ s'.freeinode = s.freeinode ∧
      s'.img = s.img := by
  have haddr : (Dinode.ofBytes din).addrs k = Bytes.word din (3 + k) := if_pos hk
  by_cases h0 : Bytes.word din (3 + k) = 0
  · rw [haddr] at hroom ⊢
    refine ⟨_, _, _, by rw [allocAddr, if_pos h0], ?_, h.next (hroom h0), by rw [if_pos h0], rfl, rfl⟩
    rw [Disk.ballocAddr, haddr, if_pos h0, balloc_disk h (hroom h0), Dinode.ofBytes_setWord_addr hk (freeblock_lt h)]
    rfl
  · refine ⟨_, _, _, by rw [allocAddr, if_neg h0], ?_, h, by rw [haddr, if_neg h0]; rfl, rfl, rfl⟩
    rw [Disk.ballocAddr, haddr, if_neg h0]

/-- The blocks that block `fbn` of an inode takes: itself, and the indirect block if there is none. -/
def takes (ip : Dinode) (data : Nat → Nat → UInt8) (fbn : Nat) : Nat :=
  (if ip.blockAt data fbn = 0 then 1 else 0) + (if NDIRECT ≤ fbn ∧ ip.addrs NDIRECT = 0 then 1 else 0)

theorem held_block (hs : (s.disk.iupdate x (.ofBytes din)).Sound sb)
    (hk : (Dinode.ofBytes din).slot s.disk.data k = some b) : nmeta ≤ b ∧ b < FSSIZE ∧ b < s.freeblock := by
  have hown : (s.disk.iupdate x (.ofBytes din)).own (x, k) = some b := by rw [Disk.own_iupdate_self, hk]
  have harea := hs.area hown
  exact ⟨harea.1, harea.2, of_decide_eq_true (hs.owns.used_of_own hown)⟩

theorem appendBlock_eq (h : s.Clean) (hs : (s.disk.iupdate x (.ofBytes din)).Sound sb) (hfbn : fbn < MAXFILE)
    (hroom : s.freeblock + takes (.ofBytes din) s.disk.data fbn ≤ FSSIZE) :
    ∃ a din' s', s.appendBlock din fbn = some (a, din', s') ∧
      s.disk.bmap sb (.ofBytes din) fbn = .ok (a, .ofBytes din', s'.disk) ∧ s'.Clean ∧
      s'.freeblock = s.freeblock + takes (.ofBytes din) s.disk.data fbn ∧ s'.freeinode = s.freeinode ∧
      s'.img 1 = s.img 1 ∧
      ((Dinode.ofBytes din').addrs NDIRECT = 0 ↔ (Dinode.ofBytes din).addrs NDIRECT = 0 ∧ fbn < NDIRECT) := by
  by_cases hd : fbn < NDIRECT
  · have htakes : takes (.ofBytes din) s.disk.data fbn = if (Dinode.ofBytes din).addrs fbn = 0 then 1 else 0 := by
      rw [takes, Dinode.blockAt_direct hd, if_neg (c := NDIRECT ≤ fbn ∧ _) (by omega), Nat.add_zero]
    rw [htakes] at hroom ⊢
    obtain ⟨a, din', s', he, hk, hc, hfb, hfi, himg⟩ :=
      allocAddr_eq din h hd.le (fun h0 => by rw [if_pos h0] at hroom; omega)
    refine ⟨a, din', s', by rw [appendBlock, if_pos hfbn, if_pos hd, he], by rw [Disk.bmap, if_pos hd, hk], hc, hfb,
      hfi, by rw [himg], ?_⟩
    have hind : (Dinode.ofBytes din').addrs NDIRECT = (Dinode.ofBytes din).addrs NDIRECT := by
      rcases Disk.ballocAddr_inv hk with ⟨-, -, heq, -⟩ | ⟨-, -, heq⟩
      · rw [heq]
      · rw [heq]
        exact update_of_ne (by omega) _ _
    rw [hind]
    exact ⟨fun h0 => ⟨h0, hd⟩, And.left⟩
  · have hle : NDIRECT ≤ fbn := Nat.not_lt.mp hd
    have hlt : fbn - NDIRECT < NINDIRECT := by simp only [MAXFILE] at hfbn; omega
    obtain ⟨ind, din₁, s₁, he, hk, hc₁, hfb₁, hfi₁, himg₁⟩ := allocAddr_eq din h le_rfl fun h0 => by
      rw [takes, Dinode.blockAt_none hle h0, if_pos rfl] at hroom
      omega
    obtain ⟨hg, hind0, hind, hsame, -, -⟩ := Disk.ballocAddr_grown hs le_rfl hk
    obtain ⟨hlo, hhi, hused⟩ := held_block hg.sound (Dinode.slot_ind.mpr ⟨hind, hind0⟩)
    have hrs : s₁.rsect ind = some (s₁.img ind) := if_pos hhi
    have hentry : (Dinode.ofBytes din).blockAt s.disk.data fbn = Bytes.word (s₁.img ind) (fbn - NDIRECT) := by
      rw [← hsame fbn hfbn (.inr rfl), Dinode.blockAt_indirect hle (by rw [hind]; exact hind0), hind, disk_data hlo]
    have htakes : takes (.ofBytes din) s.disk.data fbn =
        (if Bytes.word (s₁.img ind) (fbn - NDIRECT) = 0 then 1 else 0) + (s₁.freeblock - s.freeblock) := by
      rw [takes, hentry, hfb₁, Nat.add_sub_cancel_left]
      simp only [hle, true_and]
    have hge : s.freeblock ≤ s₁.freeblock := by omega
    have hiff : (Dinode.ofBytes din₁).addrs NDIRECT = 0 ↔ (Dinode.ofBytes din).addrs NDIRECT = 0 ∧ fbn < NDIRECT := by
      rw [hind]
      exact ⟨fun h0 => absurd h0 hind0, fun h0 => absurd h0.2 hd⟩
    rw [htakes] at hroom ⊢
    simp only [appendBlock, if_pos hfbn, if_neg hd, he, Disk.bmap, if_pos hlt, hk]
    simp only [hrs, Except.ok_bind, disk_data hlo]
    by_cases h0 : Bytes.word (s₁.img ind) (fbn - NDIRECT) = 0
    · rw [if_pos h0] at hroom ⊢
      have hroom₁ : s₁.freeblock < FSSIZE := by omega
      refine ⟨s₁.freeblock, din₁, { s₁ with freeblock := s₁.freeblock + 1 }.wsect ind
        (Bytes.setWord (s₁.img ind) (fbn - NDIRECT) s₁.freeblock), ?_, ?_,
        (hc₁.next hroom₁).wsect (Nat.lt_succ_of_lt hused), ?_, hfi₁, ?_, hiff⟩
      · change (if _ then _ else _) = _
        rw [if_pos h0]
      · rw [balloc_disk hc₁ hroom₁, disk_wsect hlo, ← disk_data hlo]
        rfl
      · change s₁.freeblock + 1 = _
        rw [if_pos h0]
        omega
      · rw [← himg₁]
        exact update_of_ne (by have : nmeta = 59 := rfl; omega) _ _
    · rw [if_neg h0] at hroom ⊢
      refine ⟨_, din₁, s₁, ?_, rfl, hc₁, ?_, hfi₁, by rw [himg₁], hiff⟩
      · change (if _ then _ else _) = _
        rw [if_neg h0]
      · rw [if_neg h0]
        omega

def blocksFor (n : Nat) : Nat := (n + BSIZE - 1) / BSIZE + (if NDIRECT * BSIZE < n then 1 else 0)

def IndirectAt (ip : Dinode) (n : Nat) : Prop := ip.addrs NDIRECT = 0 ↔ n ≤ NDIRECT * BSIZE

theorem takes_eq {ip : Dinode} {data : Nat → Nat → UInt8} (hf : ip.Filled data off) (hi : IndirectAt ip off)
    (hfbn : off / BSIZE < MAXFILE) {m : Nat} (hm : 0 < m) (hmb : off % BSIZE + m ≤ BSIZE) :
    blocksFor off + takes ip data (off / BSIZE) = blocksFor (off + m) := by
  have h0 : ip.blockAt data (off / BSIZE) = 0 ↔ off % BSIZE = 0 := by
    rw [← not_iff_not, ← ne_eq, hf _ hfbn]
    simp only [BSIZE]
    omega
  have h1 : ip.addrs NDIRECT = 0 ↔ off ≤ NDIRECT * BSIZE := hi
  simp only [takes, blocksFor, h0, h1]
  clear h0 h1 hi hf hfbn
  split_ifs <;> simp only [BSIZE, NDIRECT] at * <;> omega

theorem blocksFor_mono {m n : Nat} (h : m ≤ n) : blocksFor m ≤ blocksFor n := by
  unfold blocksFor
  split_ifs <;> simp only [BSIZE, NDIRECT] at * <;> omega

theorem appendLoop_eq (h : s.Clean) (hs : (s.disk.iupdate x (.ofBytes din)).Sound sb)
    (hf : (Dinode.ofBytes din).Filled s.disk.data off) (hi : IndirectAt (.ofBytes din) off)
    (hmax : off + p.length ≤ MAXFILE * BSIZE) (hfuel : p.length ≤ fuel)
    (hroom : s.freeblock + blocksFor (off + p.length) ≤ FSSIZE + blocksFor off) :
    ∃ din' s', appendLoop fuel s din off p = some (din', off + p.length, s') ∧
      s.disk.writeBlocks sb fuel (.ofBytes din) off p = .ok (.ofBytes din', s'.disk) ∧ s'.Clean ∧
      s'.freeblock + blocksFor off = s.freeblock + blocksFor (off + p.length) ∧ s'.freeinode = s.freeinode ∧
      s'.img 1 = s.img 1 ∧ IndirectAt (.ofBytes din') (off + p.length) := by
  induction fuel generalizing s din off p with
  | zero =>
    obtain rfl : p = [] := length_eq_zero_iff.mp (by omega)
    exact ⟨din, s, rfl, rfl, h, rfl, rfl, rfl, hi⟩
  | succ fuel ih =>
    by_cases h0 : p.length = 0
    · obtain rfl : p = [] := length_eq_zero_iff.mp h0
      exact ⟨din, s, rfl, rfl, h, rfl, rfl, rfl, hi⟩
    obtain ⟨m, hm⟩ : ∃ m, m = min p.length (BSIZE - off % BSIZE) := ⟨_, rfl⟩
    have hmod : off % BSIZE < BSIZE := Nat.mod_lt _ (by decide)
    have hfbn : off / BSIZE < MAXFILE := by simp only [BSIZE] at *; omega
    have htakes := takes_eq hf hi hfbn (m := m) (by omega) (by omega)
    have hmono : blocksFor (off + m) ≤ blocksFor (off + p.length) := blocksFor_mono (by omega)
    obtain ⟨a, din₁, s₁, he, hk, hc₁, hfb₁, hfi₁, hsup₁, hind₁⟩ := appendBlock_eq h hs hfbn (by omega)
    obtain ⟨hg, ha0, hat, -, -, -⟩ := Disk.bmap_grown hs hfbn hk
    obtain ⟨hlo, hhi, hused⟩ := held_block hg.sound ((Dinode.slot_block hfbn).mpr ⟨hat, ha0⟩)
    -- the block is written
    obtain ⟨f, hfdef⟩ : ∃ f, f = Bytes.splice (s₁.img a) (off % BSIZE) (p.take m) := ⟨_, rfl⟩
    have hdisk : (s₁.wsect a f).disk = {
        s₁.disk with data := update s₁.disk.data a (Bytes.splice (s₁.disk.data a) (off % BSIZE) (p.take m)) } := by
      rw [disk_wsect hlo, disk_data hlo, hfdef]
    obtain ⟨ht, hblk, -⟩ := Disk.splice_touched hg.sound hfbn hat ha0 hdisk
    have hf₁ : (Dinode.ofBytes din₁).Filled (s₁.wsect a f).disk.data (off + m) := by
      have := Disk.filled_bmap hs hf le_rfl (m := m) (by omega) (by omega) hfbn hk
      rw [Nat.max_eq_right (by omega)] at this
      exact fun bn hbn => by rw [hblk]; exact this bn hbn
    have hi₁ : IndirectAt (.ofBytes din₁) (off + m) := by
      have hi : (Dinode.ofBytes din).addrs NDIRECT = 0 ↔ off ≤ NDIRECT * BSIZE := hi
      rw [IndirectAt, hind₁, hi]
      simp only [BSIZE, NDIRECT] at *
      omega
    have hlen : (p.drop m).length = p.length - m := length_drop ..
    have hend : off + m + (p.drop m).length = off + p.length := by omega
    obtain ⟨din₂, s₂, he₂, hk₂, hc₂, hfb₂, hfi₂, hsup₂, hi₂⟩ := ih (p := p.drop m) (hc₁.wsect hused) ht.sound hf₁
      hi₁ (by omega) (by omega) (by change s₁.freeblock + _ ≤ _; rw [hend]; omega)
    rw [hend] at he₂ hi₂ hfb₂
    have hn1 : min p.length ((off / BSIZE + 1) * BSIZE - off) = m := by simp only [BSIZE] at *; omega
    have ho : off - off / BSIZE * BSIZE = off % BSIZE := by simp only [BSIZE] at *; omega
    refine ⟨din₂, s₂, ?_, ?_, hc₂, ?_, hfi₂.trans hfi₁, hsup₂.trans ?_, hi₂⟩
    · simp only [appendLoop, if_neg h0, he]
      change (s₁.rsect a >>= _) = _
      rw [rsect, if_pos hhi, hn1, ho]
      change appendLoop fuel (s₁.wsect a _) _ _ _ = _
      rw [← hfdef, he₂]
    · simp only [Disk.writeBlocks, if_neg h0, hk]
      change Disk.writeBlocks sb fuel _ _ _ _ = _
      rw [← hm, ← hdisk, hk₂]
    · have : (s₁.wsect a f).freeblock = s₁.freeblock := rfl
      omega
    · rw [← hsup₁]
      exact update_of_ne (by have : nmeta = 59 := rfl; omega) _ _

/-! ### `iappend` and `ialloc` -/

theorem iappend_ok (h : s.Clean) (hok : s.disk.Ok sb) (hx : x < NINODES) (ht : (s.disk.dinode x).type.hasBlocks)
    {n : Nat}
    (hn : (s.disk.dinode x).size = n) (hi : IndirectAt (s.disk.dinode x) n) (hmax : n + p.length ≤ MAXFILE * BSIZE)
    (hroom : s.freeblock + blocksFor (n + p.length) ≤ FSSIZE + blocksFor n) :
    ∃ s', s.iappend x p = some s' ∧ s'.Clean ∧ s'.freeblock + blocksFor n = s.freeblock + blocksFor (n + p.length) ∧
      s'.freeinode = s.freeinode ∧ s'.img 1 = s.img 1 ∧ Disk.Kept sb x s.disk s'.disk ∧
      (s'.disk.dinode x).size = n + p.length ∧ IndirectAt (s'.disk.dinode x) (n + p.length) ∧
      ∀ i < MAXFILE * BSIZE, (s'.disk.dinode x).byteAt s'.disk.data i =
        if n ≤ i ∧ i < n + p.length then p.getD (i - n) 0 else (s.disk.dinode x).byteAt s.disk.data i := by
  obtain ⟨din, hr, hdin⟩ := rinode_eq (s := s) hx
  have hsound : (s.disk.iupdate x (.ofBytes din)).Sound sb := by
    rw [hdin, Disk.iupdate_self]
    exact hok.sound
  have hfill : (Dinode.ofBytes din).Filled s.disk.data n := by
    rw [hdin, ← hn]
    exact hok.filled x ht
  have hoff : Bytes.word din 2 = n := by
    rw [← hn, ← hdin]
    rfl
  obtain ⟨din₁, s₁, he, hk, hc₁, hfb, hfi, hsup, hi₁⟩ :=
    appendLoop_eq h hsound hfill (by rw [hdin]; exact hi) hmax le_rfl hroom
  rw [hdin] at hk
  obtain ⟨htd, hf₁, -, hbyte⟩ := Disk.writeBlocks_ok (x := x) (by rw [Disk.iupdate_self]; exact hok.sound)
    (by rw [← hdin]; exact hfill) le_rfl hmax le_rfl hk
  rw [Nat.max_eq_right (Nat.le_add_right ..)] at hf₁
  have hlt : n + p.length < 2 ^ 32 := lt_of_le_of_lt hmax (by decide)
  obtain ⟨s₂, hw, hdisk, hsame⟩ := winode_eq (s := s₁) (Bytes.setWord din₁ 2 (n + p.length)) hx
  rw [Dinode.ofBytes_setWord_size hlt] at hdisk
  have hx₂ : s₂.disk.dinode x = { Dinode.ofBytes din₁ with size := n + p.length } := by
    rw [hdisk]
    simp [Disk.iupdate]
  have hdata : s₂.disk.data = s₁.disk.data := by rw [hdisk]; rfl
  refine ⟨s₂, ?_, hsame.clean hc₁, by rw [hsame.freeblock]; exact hfb, hsame.freeinode.trans hfi,
    hsame.super.trans hsup,
    hdisk ▸ Disk.touched_kept hok ht htd hf₁ hmax, by rw [hx₂], by rw [hx₂]; exact hi₁, fun i hi => ?_⟩
  · simp only [iappend, hr]
    change (appendLoop _ s din _ p >>= _) = _
    rw [hoff, he]
    exact hw
  · rw [hx₂, hdata, ← hbyte i hi]
    rfl

def fresh (t : InodeType) : Dinode :=
  { type := t, major := 0, minor := 0, nlink := 1, size := 0, addrs := fun _ => 0 }

theorem ialloc_eq (hx : s.freeinode < NINODES) {type : Nat} (ht : type < 2 ^ 8) :
    ∃ s', s.ialloc type = some (s.freeinode, s') ∧ s'.disk = s.disk.iupdate s.freeinode (fresh (.ofShort type)) ∧
      SameBlocks { s with freeinode := s.freeinode + 1 } s' := by
  obtain ⟨s', hw, hdisk, hsame⟩ := winode_eq (s := { s with freeinode := s.freeinode + 1 })
    (Bytes.setWord (Bytes.setHalf (Bytes.setHalf (fun _ => 0) 0 type) 6 1) 2 0) hx
  refine ⟨s', ?_, ?_, hsame⟩
  · simp only [ialloc, hw]
    rfl
  · rw [hdisk]
    congr 1
    have haddr : ∀ k, Bytes.word (Bytes.setWord (Bytes.setHalf (Bytes.setHalf (fun _ => 0) 0 type) 6 1) 2 0) (3 + k) =
      0 := by
      intro k
      rw [word_setWord_ne (by omega)]
      simp only [Bytes.word, Bytes.setHalf]
      repeat rw [if_neg (by omega)]
      rfl
    simp only [Dinode.ofBytes, fresh, haddr, ite_self, word_setWord (show 0 < 2 ^ 32 by decide)]
    have htype : Bytes.half (Bytes.setWord (Bytes.setHalf (Bytes.setHalf (fun _ => 0) 0 type) 6 1) 2 0) 0 = type := by
      rw [half_setWord (by decide) (by decide)]
      simp only [Bytes.half, Bytes.setHalf]
      simp
      omega
    rw [htype]
    rfl

end State

end Mkfs

end Xv6
