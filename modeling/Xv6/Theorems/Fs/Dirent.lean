import Xv6.Theorems.Fs.Content

/-! Directories as tables of entries: what the loops over a directory find, and what writing one entry
    changes. -/

namespace Xv6
open List

namespace Disk

def dirent (d : Disk) (x k : Nat) : List UInt8 := (d.dinode x).content d.data (k * DIRENT) DIRENT

def ent (d : Disk) (x k : Nat) : Option (List UInt8 × Nat) :=
  if (d.dinode x).type = .dir ∧ k * DIRENT < (d.dinode x).size ∧ direntInum (d.dirent x k) ≠ 0 then
    some (direntName (d.dirent x k), direntInum (d.dirent x k))
  else none

end Disk

variable {sb : Superblock} {d d' : Disk} {ip ip' : Dinode} {data : Nat → Nat → UInt8} {x y k j n fuel inum : Nat}
  {name : List UInt8} {stop : List UInt8 → Bool} {msg : String}

/-! ### The bytes of an entry -/

theorem cname_length (s : List UInt8) : (cname s).length ≤ DIRSIZ :=
  ( takeWhile_prefix _).length_le.trans (by simp)

theorem cname_ne_zero {s : List UInt8} {c : UInt8} (h : c ∈ cname s) : c ≠ 0 := by
  have := all_takeWhile (p := fun c : UInt8 => decide (c ≠ 0)) (l := s.take DIRSIZ)
  simpa using all_eq_true.mp this c h

theorem cname_pad (s : List UInt8) (n : Nat) : cname (cname s ++ replicate n 0) = cname s := by
  have hall : ∀ c ∈ cname s, decide (c ≠ 0) = true := fun c hc => by simpa using cname_ne_zero hc
  have htake : (cname s ++ replicate n 0).take DIRSIZ =
      cname s ++ replicate (min (DIRSIZ - (cname s).length) n) 0 := by
    rw [take_append, take_of_length_le (cname_length s), take_replicate]
  change ((cname s ++ replicate n 0).take DIRSIZ).takeWhile _ = _
  rw [htake, takeWhile_append_of_pos hall]
  simp

theorem cname_cname (s : List UInt8) : cname (cname s) = cname s := by
  simpa using cname_pad s 0

@[simp] theorem mkDirent_length : (mkDirent inum name).length = DIRENT := by
  have := cname_length name
  simp only [mkDirent, length_append, length_replicate, length_cons, length_nil]
  simp only [DIRSIZ, DIRENT] at *
  omega

theorem direntInum_mkDirent (h : inum < 2 ^ 16) : direntInum (mkDirent inum name) = inum := by
  simp only [direntInum, mkDirent, cons_append, nil_append, getD_cons_zero, getD_cons_succ,
    UInt8.toNat_ofNat']
  omega

theorem direntName_mkDirent : direntName (mkDirent inum name) = cname name := by
  simp only [direntName, mkDirent, cons_append, nil_append, drop_succ_cons, drop_zero]
  exact cname_pad ..

theorem direntInum_lt (de : List UInt8) : direntInum de < 2 ^ 16 := by
  have h0 := (de.getD 0 0).toNat_lt
  have h1 := (de.getD 1 0).toNat_lt
  unfold direntInum
  omega

theorem direntInum_zero : direntInum (replicate DIRENT 0) = 0 := rfl

namespace Disk

/-! ### The loop over a directory -/

@[simp] theorem dirent_length : (d.dirent x k).length = DIRENT := Dinode.content_length

theorem readi_dirent (h : d.Ok sb) (ht : (d.dinode x).type = .dir) (hk : k * DIRENT < (d.dinode x).size) :
    ∃ de, readi sb d (d.dinode x) (k * DIRENT) DIRENT = .ok (some de, d.dinode x, d) ∧
      (de.length = DIRENT → de = d.dirent x k) ∧ (de.length ≠ DIRENT → (d.dinode x).size % DIRENT ≠ 0) := by
  have hs := h.size_le x (.inl ht)
  have hm : MAXFILE * BSIZE = 71680 := rfl
  refine ⟨(d.dinode x).content d.data (k * DIRENT) (min DIRENT ((d.dinode x).size - k * DIRENT)), ?_, fun hl => ?_,
    fun hl => ?_⟩
  · rw [readi_eq (h.filled x (.inl ht)) hs (by decide), if_neg]
    simp only [DIRENT] at *
    omega
  · rw [Dinode.content_length] at hl
    rw [hl]
    rfl
  · rw [Dinode.content_length] at hl
    simp only [DIRENT] at *
    omega

structure ScanAt (d : Disk) (x : Nat) (stop : List UInt8 → Bool) (j : Nat) (r : Nat × Option (List UInt8)) (k : Nat) :
    Prop where
  le : j ≤ k
  off : r.1 = k * DIRENT
  before : ∀ i, j ≤ i → i < k → i * DIRENT < (d.dinode x).size ∧ stop (d.dirent x i) = false
  found : ∀ de, r.2 = some de → k * DIRENT < (d.dinode x).size ∧ stop (d.dirent x k) = true ∧ de = d.dirent x k
  ended : r.2 = none → (d.dinode x).size ≤ k * DIRENT

theorem dirScan_cases (h : d.Ok sb) (ht : (d.dinode x).type = .dir) (hfuel : (d.dinode x).size < (j + fuel) * DIRENT) :
    dirScan sb msg stop fuel d (d.dinode x) (j * DIRENT) = .error (.panic msg) ∧ (d.dinode x).size % DIRENT ≠ 0 ∨
      ∃ r k, dirScan sb msg stop fuel d (d.dinode x) (j * DIRENT) = .ok (r, d.dinode x, d) ∧ d.ScanAt x stop j r k := by
  induction fuel generalizing j with
  | zero =>
    refine .inr ⟨_, j, rfl, le_rfl, rfl, fun i h1 h2 => by omega, fun de hde => ?_, fun _ => by simpa using hfuel.le⟩
    cases hde
  | succ fuel ih =>
    unfold dirScan
    by_cases hlt : j * DIRENT < (d.dinode x).size
    · obtain ⟨de, hr, hde, hshort⟩ := readi_dirent h ht hlt
      simp only [hlt, if_true, hr]
      simp only [bind, Except.bind]
      by_cases hlen : de.length = DIRENT
      · obtain rfl := hde hlen
        rw [if_pos hlen]
        by_cases hst : stop (d.dirent x j) = true
        · rw [if_pos hst]
          refine .inr ⟨_, j, rfl, le_rfl, rfl, fun i h1 h2 => by omega, fun de hde => ?_, fun hn => ?_⟩
          · cases hde
            exact ⟨hlt, hst, rfl⟩
          · cases hn
        · rw [if_neg hst, show j * DIRENT + DIRENT = (j + 1) * DIRENT by simp only [DIRENT]; omega]
          refine (ih (j := j + 1) (by rw [show j + 1 + fuel = j + (fuel + 1) by omega]; exact hfuel)).imp id ?_
          rintro ⟨r, k, hr, hsc⟩
          refine ⟨r, k, hr, by have := hsc.le; omega, hsc.off, fun i h1 h2 => ?_, hsc.found, hsc.ended⟩
          by_cases hij : i = j
          · subst hij
            exact ⟨hlt, by simpa using hst⟩
          · exact hsc.before i (by omega) h2
      · rw [if_neg hlen]
        exact .inl ⟨rfl, hshort hlen⟩
    · simp only [hlt, if_false]
      refine .inr ⟨_, j, rfl, le_rfl, rfl, fun i h1 h2 => by omega, fun de hde => ?_, fun _ => by omega⟩
      cases hde

structure FirstEmpty (d : Disk) (x k : Nat) : Prop where
  empty : d.ent x k = none
  taken : ∀ k' < k, d.ent x k' ≠ none

theorem ScanAt.firstEmpty {r : Nat × Option (List UInt8)} (h : d.ScanAt x (fun de => direntInum de = 0) 0 r k)
    (ht : (d.dinode x).type = .dir) : d.FirstEmpty x k := by
  refine ⟨?_, fun k' hk' => ?_⟩
  · unfold ent
    rw [if_neg]
    rintro ⟨-, hlt, hne⟩
    cases hde : r.2 with
    | none =>
      have := h.ended hde
      omega
    | some de => exact hne (by simpa using (h.found de hde).2.1)
  · obtain ⟨hlt, hst⟩ := h.before k' (Nat.zero_le _) hk'
    unfold ent
    rw [if_pos ⟨ht, hlt, by simpa using hst⟩]
    nofun

theorem ent_size {r : List UInt8 × Nat} (h : d.ent x k = some r) : k * DIRENT < (d.dinode x).size := by
  unfold ent at h
  split_ifs at h with hc
  exact hc.2.1

theorem nameEq_direntName {de : List UInt8} : nameEq name (direntName de) = true ↔ direntName de = cname name := by
  unfold nameEq direntName
  rw [cname_cname, decide_eq_true_eq]
  exact eq_comm

theorem ScanAt.named {r : Nat × Option (List UInt8)}
    (h : d.ScanAt x (fun de => direntInum de ≠ 0 ∧ nameEq name (direntName de)) 0 r k) (ht : (d.dinode x).type = .dir) :
    (∀ k' < k, ∀ y, d.ent x k' ≠ some (cname name, y)) ∧ (r.2 = none → ∀ k y, d.ent x k ≠ some (cname name, y)) ∧
      ∀ de, r.2 = some de → d.ent x k = some (cname name, direntInum de) := by
  have hbefore : ∀ k' < k, ∀ y, d.ent x k' ≠ some (cname name, y) := fun k' hk' y he => by
    unfold ent at he
    split_ifs at he with hc
    have hst := (h.before k' (Nat.zero_le _) hk').2
    simp only [decide_eq_false_iff_not, not_and] at hst
    exact hst hc.2.2 (nameEq_direntName.mpr (Prod.mk.inj (Option.some.inj he)).1)
  refine ⟨hbefore, fun hn k' y he => ?_, fun de hde => ?_⟩
  · have hle := h.ended hn
    have hlt := ent_size he
    exact hbefore k' (by simp only [DIRENT] at *; omega) y he
  · obtain ⟨hlt, hst, rfl⟩ := h.found de hde
    simp only [decide_eq_true_eq] at hst
    unfold ent
    rw [if_pos ⟨ht, hlt, hst.1⟩, nameEq_direntName.mp hst.2]

/-! ### What a write keeps of the directories -/

theorem byteAt_congr {i : Nat} {data' : Nat → Nat → UInt8} (ha : ip'.addrs = ip.addrs)
    (hd : ∀ k b, ip.slot data k = some b → data' b = data b) (hi : i < MAXFILE * BSIZE) :
    ip'.byteAt data' i = ip.byteAt data i := by
  have hk : i / BSIZE < MAXFILE := Nat.div_lt_of_lt_mul (by rwa [Nat.mul_comm])
  have hb : ip'.blockAt data' (i / BSIZE) = ip.blockAt data (i / BSIZE) :=
    Dinode.blockAt_congr ha fun h0 => hd MAXFILE _ (Dinode.slot_ind.mpr ⟨rfl, h0⟩)
  simp only [Dinode.byteAt, hb]
  split
  · rfl
  · rename_i h0
    rw [hd _ _ ((Dinode.slot_block hk).mpr ⟨rfl, h0⟩)]

theorem dirent_in_range (h : d.Ok sb) (ht : (d.dinode x).type = .dir) (hk : k * DIRENT < (d.dinode x).size) {i : Nat}
    (hi : i < DIRENT) : k * DIRENT + i < MAXFILE * BSIZE := by
  have hs := h.size_le x (.inl ht)
  have hm : MAXFILE * BSIZE = 71680 := rfl
  simp only [DIRENT] at *
  omega

theorem ent_congr (h : d.Ok sb) (hi : d'.dinode y = d.dinode y)
    (hd : ∀ k b, (d.dinode y).slot d.data k = some b → d'.data b = d.data b) : d'.ent y k = d.ent y k := by
  unfold ent
  rw [hi]
  by_cases hc : (d.dinode y).type = .dir ∧ k * DIRENT < (d.dinode y).size
  · have hb : d'.dirent y k = d.dirent y k := by
      unfold dirent Dinode.content
      refine map_congr_left fun i hi' => ?_
      rw [hi]
      exact byteAt_congr rfl hd (dirent_in_range h hc.1 hc.2 (mem_range.mp hi'))
    rw [hb]
  · rw [if_neg fun h' => hc ⟨h'.1, h'.2.1⟩, if_neg fun h' => hc ⟨h'.1, h'.2.1⟩]

theorem Kept.ent (h : d.Ok sb) (hk : Kept sb x d d') (hy : y ≠ x) : d'.ent y k = d.ent y k :=
  ent_congr h (hk.dinode y hy) (hk.data y hy)

theorem ent_write {src : List UInt8} (h : d.Ok sb) (ht : (d.dinode x).type = .dir) (hlen : src.length = DIRENT)
    (hj : j * DIRENT ≤ (d.dinode x).size) (hmax : j * DIRENT + DIRENT ≤ MAXFILE * BSIZE)
    (ht' : (d'.dinode x).type = .dir) (hsize : (d'.dinode x).size = max (d.dinode x).size (j * DIRENT + DIRENT))
    (hbyte : ∀ i < MAXFILE * BSIZE, (d'.dinode x).byteAt d'.data i =
      if j * DIRENT ≤ i ∧ i < j * DIRENT + DIRENT then src.getD (i - j * DIRENT) 0 else (d.dinode x).byteAt d.data i) :
    d'.ent x k = if k = j then (if direntInum src = 0 then none else some (direntName src, direntInum src))
      else d.ent x k := by
  have hs := h.size_le x (.inl ht)
  by_cases hkj : k = j
  · subst hkj
    have hb : d'.dirent x k = src := by
      refine ext_getElem (by simp [hlen]) fun i h1 h2 => ?_
      have hi : i < DIRENT := by simpa using h1
      simp only [dirent, Dinode.content, getElem_map, getElem_range]
      rw [hbyte _ (by omega), if_pos (by omega), Nat.add_sub_cancel_left]
      simp [h2]
    rw [if_pos rfl]
    by_cases h0 : direntInum src = 0
    · rw [if_pos h0, ent, hb, if_neg (fun hc => hc.2.2 h0)]
    · rw [if_neg h0, ent, hb, if_pos ⟨ht', by simp only [DIRENT] at *; omega, h0⟩]
  · rw [if_neg hkj, ent, ent, ht, ht', hsize]
    have hlt : k * DIRENT < max (d.dinode x).size (j * DIRENT + DIRENT) ↔ k * DIRENT < (d.dinode x).size := by
      simp only [DIRENT] at *
      omega
    by_cases hc : k * DIRENT < (d.dinode x).size
    · have hb : d'.dirent x k = d.dirent x k := by
        unfold dirent Dinode.content
        refine map_congr_left fun i hi => ?_
        have hi := mem_range.mp hi
        rw [hbyte _ (dirent_in_range h ht hc hi), if_neg]
        simp only [DIRENT] at *
        omega
      simp only [hb, hlt]
    · rw [if_neg fun h' => hc (hlt.mp h'.2.1), if_neg fun h' => hc h'.2.1]

theorem Ok.iupdate_congr (h : d.Ok sb) (ht : ip.type = (d.dinode x).type) (hs : ip.size = (d.dinode x).size)
    (ha : ip.addrs = (d.dinode x).addrs) : (d.iupdate x ip).Ok sb := by
  have hblk : ∀ bn, ip.blockAt d.data bn = (d.dinode x).blockAt d.data bn := fun bn =>
    Dinode.blockAt_congr ha fun _ => rfl
  have key : ∀ y, ((d.iupdate x ip).dinode y).type = (d.dinode y).type ∧
      ((d.iupdate x ip).dinode y).size = (d.dinode y).size ∧
      ((d.iupdate x ip).dinode y).addrs = (d.dinode y).addrs := by
    intro y
    by_cases hy : y = x
    · subst hy
      simp [iupdate, ht, hs, ha]
    · simp [iupdate, hy]
  refine ⟨h.sound.iupdate_congr ha, fun y hy k hk => ?_, fun y hy bn hbn => ?_, fun y hy => ?_⟩
  · rw [(key y).1] at hy
    rw [(key y).2.2]
    exact h.free y hy k hk
  · rw [(key y).1] at hy
    rw [(key y).2.1, ← h.filled y hy bn hbn]
    exact not_congr (by rw [Dinode.blockAt_congr (key y).2.2 fun _ => rfl]; rfl)
  · rw [(key y).1] at hy
    rw [(key y).2.1]
    exact h.size_le y hy

theorem ent_iupdate_congr (h : d.Ok sb) (ht : ip.type = (d.dinode x).type) (hs : ip.size = (d.dinode x).size)
    (ha : ip.addrs = (d.dinode x).addrs) : (d.iupdate x ip).ent y k = d.ent y k := by
  by_cases hy : y = x
  · subst hy
    have hb : (d.iupdate y ip).dirent y k = d.dirent y k := by
      simp only [dirent, Dinode.content, Dinode.byteAt]
      have : ∀ bn, ((d.iupdate y ip).dinode y).blockAt (d.iupdate y ip).data bn = (d.dinode y).blockAt d.data bn :=
        fun bn => Dinode.blockAt_congr (by simp [iupdate, ha]) fun _ => rfl
      simp only [this]
      rfl
    simp only [ent, hb]
    simp [iupdate, ht, hs]
  · exact ent_congr h (by simp [iupdate, hy]) fun _ _ _ => rfl

theorem ent_of_not_dir (h : (d.dinode x).type ≠ .dir) : d.ent x k = none := by
  simp [ent, h]

theorem ent_lt (h : d.ent x k = some (name, y)) : y < 2 ^ 16 := by
  unfold ent at h
  split_ifs at h
  cases h
  exact direntInum_lt _

theorem FirstEmpty.le (h : d.FirstEmpty x k) (ha : (d.dinode x).size % DIRENT = 0) :
    k * DIRENT ≤ (d.dinode x).size := by
  by_contra hlt
  obtain ⟨r, hr⟩ := Option.ne_none_iff_exists'.mp (h.taken (k - 1) (by simp only [DIRENT] at *; omega))
  have := ent_size hr
  simp only [DIRENT] at *
  omega

theorem type_of_ent {r : List UInt8 × Nat} (h : d.ent x k = some r) : (d.dinode x).type = .dir := by
  by_contra ht
  rw [ent_of_not_dir ht] at h
  cases h

end Disk

end Xv6
