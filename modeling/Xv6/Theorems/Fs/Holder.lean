import Xv6.Theorems.Fs.Cache

/-! What the holder of an inode's lock does to the inode keeps the invariant. -/

namespace Xv6.Fs
open Except

variable {P : Type} {sb : Superblock} {s t : Fs P} {p q : P} {i j : Fin NINODE}
  {d' : Disk} {ip' : Dinode} {x y k n off : Nat} {name src : List UInt8} {e : Halt} {c : Prop}

@[simp] theorem setCopy_self (s : Fs P) (i : Fin NINODE) : s.setCopy i (s.icache i).d s.disk = s := by
  simp [setCopy, setInode]

theorem setCopy_icache (s : Fs P) (i j : Fin NINODE) (ip : Dinode) (d : Disk) :
    (s.setCopy i ip d).icache j = { s.icache j with d := if j = i then ip else (s.icache j).d } := by
  by_cases hj : j = i
  · subst hj
    simp [setCopy, setInode]
  · simp [setCopy, setInode, hj]

theorem setCopy_lock (s : Fs P) (i j : Fin NINODE) (ip : Dinode) (d : Disk) :
    ((s.setCopy i ip d).icache j).lock = (s.icache j).lock := by rw [setCopy_icache]

variable [Fintype P]

theorem InvIf.copyStep (h : InvIf c sb s) (hl : (s.icache i).lock = some p) (hok : d'.Ok sb)
    (hdin : ∀ y ≠ (s.icache i).inum, d'.dinode y = s.disk.dinode y)
    (htype : (d'.dinode (s.icache i).inum).type = s.typeOf i) (hcopy : d'.dinode (s.icache i).inum = ip')
    (hused : ∀ b, s.disk.bitmap b = true → d'.bitmap b = true)
    (hdata : ∀ y ≠ (s.icache i).inum, ∀ k b, (s.disk.dinode y).slot s.disk.data k = some b → d'.data b = s.disk.data b)
    (hord : c → ∀ x k n y, d'.ent x k = some (n, y) → n ≠ Sys.dot → n ≠ Sys.dotdot → (s.disk.dinode y).type = .dir →
      s.born x < s.born y) : Step c sb p (· ∈ s.held p) s (s.setCopy i ip' d') := by
  have hic := fun j => setCopy_icache s i j ip' d'
  have htypes : ∀ y, (d'.dinode y).type = (s.disk.dinode y).type := fun y => by
    by_cases hy : y = (s.icache i).inum
    · rw [hy, htype]
      rfl
    · rw [hdin y hy]
  have htypeOf : ∀ j, (s.setCopy i ip' d').typeOf j = s.typeOf j := fun j => by
    unfold typeOf
    rw [hic]
    exact htypes _
  have hpos := h.ref_pos_of_lock hl
  have hquiet : Quiet s (s.setCopy i ip' d') :=
    ⟨fun j _ => by rw [hic], htypes, rfl, rfl, fun _ _ _ _ => .refl _⟩
  have hspares : Spares p s (s.setCopy i ip' d') := by
    refine ⟨fun j _ => by rw [hic], fun y _ => ?_, fun y k b hb => ?_, fun y _ k b hb => ?_, fun j => .inl⟩
    · by_cases hy : y = (s.icache i).inum
      · exact .inr ⟨i, hy.symm, hpos, (h.locked i p hl).1, .inl ⟨hl, htypes y⟩⟩
      · exact .inl (hdin y hy)
    · by_cases hy : y = (s.icache i).inum
      · exact .inr ⟨i, hy.symm, hl⟩
      · exact .inl (hdata y hy k b hb)
    · exact hused b (h.disk.sound.owns.used_of_own (x := (y, k)) hb)
  refine ⟨⟨hok, fun a b ha hb hab => ?_, fun a ha => ?_, fun a ha hv => ?_, fun a => ?_, fun a q hq => ?_, h.files,
    h.unused, h.opening, fun hc f ht hw => ?_, fun hc x k n y he h1 h2 hy => ?_, h.born_lt⟩,
    hquiet.guar h (fun q _ => ⟨rfl, fun j => by rw [hic], .inl rfl⟩) hspares, rfl, hquiet.keep fun _ => h.ref_pos⟩
  · rw [hic] at ha hab
    rw [hic] at hb hab
    exact h.uniq a b ha hb hab
  · rw [hic] at ha ⊢
    exact h.inum_lt a ha
  · rw [hic] at ha hv ⊢
    rw [htypeOf]
    obtain ⟨hc, hf⟩ := h.copy a ha hv
    refine ⟨?_, hf⟩
    by_cases hai : a = i
    · subst hai
      simp only [if_true]
      exact hcopy.symm
    · simp only [hai, if_false]
      rw [hc]
      exact (hdin _ fun hx => hai (h.uniq a i ha hpos hx)).symm
  · rw [hic]
    exact h.refs a
  · rw [hic] at hq ⊢
    exact h.locked a q hq
  · rw [htypeOf]
    exact h.writable hc f ht hw
  · exact hord hc x k n y he h1 h2 (htypes y ▸ hy)

/-! ### Reading -/

section

variable (h : InvIf c sb s) (hl : (s.icache i).lock = some p)
include h hl

theorem readi_same (ht : (s.typeOf i).hasBlocks) (hn : n < 2 ^ 32) : ∃ r, s.readi sb i off n = .ok (r, s) := by
  obtain ⟨hc, -⟩ := h.copy_of_lock hl
  unfold readi
  rw [hc, Disk.readi_eq (h.disk.filled _ ht) (h.disk.size_le _ ht) hn]
  simp only [ok_bind, ← hc, setCopy_self]
  exact ⟨_, rfl⟩

theorem dirScan_cases (ht : s.typeOf i = .dir) (msg : String)
    (stop : List UInt8 → Bool) {j : Nat} (hj : off = j * DIRENT) : s.dirScan sb i msg stop off = .error (.panic msg) ∧
        (s.disk.dinode (s.icache i).inum).size % DIRENT ≠ 0 ∨
      ∃ r k, s.dirScan sb i msg stop off = .ok (r, s) ∧ s.disk.ScanAt (s.icache i).inum stop j r k := by
  subst hj
  obtain ⟨hc, -⟩ := h.copy_of_lock hl
  unfold dirScan
  rw [hc]
  have hfuel : (s.disk.dinode (s.icache i).inum).size <
      (j + ((s.disk.dinode (s.icache i).inum).size / DIRENT + 1)) * DIRENT := by
    simp only [DIRENT]
    omega
  rcases Disk.dirScan_cases h.disk ht hfuel with ⟨hr, hm⟩ | ⟨r, k, hr, hsc⟩
  · rw [hr]
    exact .inl ⟨rfl, hm⟩
  · refine .inr ⟨r, k, ?_, hsc⟩
    rw [hr]
    simp only [ok_bind, ← hc, setCopy_self]

theorem isdirempty_inv (ht : s.typeOf i = .dir) {b : Bool} (hr : s.isdirempty sb i = .ok (b, t)) :
    t = s ∧ (b = true ↔ ∀ k, 2 ≤ k → s.disk.ent (s.icache i).inum k = none) := by
  unfold isdirempty at hr
  rcases dirScan_cases h hl ht "isdirempty: readi" (fun de => direntInum de ≠ 0) rfl
    with ⟨hsr, hm⟩ | ⟨⟨off, de⟩, k, hsr, hsc⟩
  · rw [hsr] at hr
    cases hr
  rw [hsr, ok_bind] at hr
  cases hr
  refine ⟨rfl, ?_⟩
  cases de with
  | none =>
    simp only [Option.isNone_none, true_iff]
    intro k' hk'
    unfold Disk.ent
    rw [if_neg]
    rintro ⟨-, hlt, hne⟩
    have hle := hsc.ended rfl
    have hkk : k' < k := by simp only [DIRENT] at *; omega
    have := (hsc.before k' hk' hkk).2
    simp only [ne_eq, decide_not, Bool.not_eq_eq_eq_not, Bool.not_false, decide_eq_true_eq] at this
    exact hne this
  | some de =>
    simp only [Option.isNone_some, Bool.false_eq_true, false_iff]
    intro hall
    obtain ⟨hlt, hst, rfl⟩ := hsc.found de rfl
    have := hall k hsc.le
    unfold Disk.ent at this
    rw [if_pos ⟨ht, hlt, by simpa using hst⟩] at this
    cases this

theorem isdirempty_error (ht : s.typeOf i = .dir) (hr : s.isdirempty sb i = .error e) :
    e = .panic "isdirempty: readi" ∧ (s.disk.dinode (s.icache i).inum).size % DIRENT ≠ 0 := by
  unfold isdirempty at hr
  rcases dirScan_cases h hl ht "isdirempty: readi" (fun de => direntInum de ≠ 0) rfl with ⟨hsr, hm⟩ | ⟨r, k, hsr, hsc⟩
  · rw [hsr] at hr
    cases hr
    exact ⟨rfl, hm⟩
  · rw [hsr, ok_bind] at hr
    cases hr

variable [DecidableEq P]

theorem dirlookup_inv {r : Option (Fin NINODE × Nat)} (hr : s.dirlookup sb p i name = .ok (r, t)) : s.typeOf i = .dir ∧
      (r = none ∧ t = s ∧ (∀ k y, s.disk.ent (s.icache i).inum k ≠ some (cname name, y)) ∨
        ∃ j k y, r = some (j, k * DIRENT) ∧ s.disk.ent (s.icache i).inum k = some (cname name, y) ∧
          (∀ k' < k, ∀ y', s.disk.ent (s.icache i).inum k' ≠ some (cname name, y')) ∧ s.iget p y = .ok (j, t)) := by
  obtain ⟨hc, -⟩ := h.copy_of_lock hl
  unfold dirlookup at hr
  split_ifs at hr with ht
  simp only [ne_eq, Decidable.not_not] at ht
  rw [hc] at ht
  refine ⟨ht, ?_⟩
  rcases dirScan_cases h hl ht "dirlookup read" (fun de => direntInum de ≠ 0 ∧ nameEq name (direntName de))
    (Nat.zero_mul _).symm with ⟨hsr, hm⟩ | ⟨⟨off, de⟩, k, hsr, hsc⟩
  · rw [hsr] at hr
    cases hr
  rw [hsr, ok_bind] at hr
  obtain ⟨hbefore, hnone, hsome⟩ := hsc.named ht
  cases de with
  | none =>
    cases hr
    exact .inl ⟨rfl, rfl, hnone rfl⟩
  | some de =>
    obtain ⟨⟨j, u⟩, hg, hr⟩ := bind_eq_ok.mp hr
    cases hr
    obtain rfl : off = k * DIRENT := hsc.off
    exact .inr ⟨j, k, _, rfl, hsome de rfl, hbefore, hg⟩

theorem dirlookup_error (hr : s.dirlookup sb p i name = .error e) : e = .panic "dirlookup not DIR" ∧ s.typeOf i ≠ .dir ∨
      e = .panic "dirlookup read" ∧ (s.disk.dinode (s.icache i).inum).size % DIRENT ≠ 0 ∨
      ∃ k y, s.disk.ent (s.icache i).inum k = some (cname name, y) ∧
        (∀ k' < k, ∀ y', s.disk.ent (s.icache i).inum k' ≠ some (cname name, y')) ∧ s.iget p y = .error e := by
  obtain ⟨hc, -⟩ := h.copy_of_lock hl
  unfold dirlookup at hr
  split at hr
  · rename_i ht
    cases hr
    rw [hc] at ht
    exact .inl ⟨rfl, ht⟩
  rename_i ht
  simp only [ne_eq, Decidable.not_not] at ht
  rw [hc] at ht
  rcases dirScan_cases h hl ht "dirlookup read" (fun de => direntInum de ≠ 0 ∧ nameEq name (direntName de))
    (Nat.zero_mul _).symm with ⟨hsr, hm⟩ | ⟨⟨off, de⟩, k, hsr, hsc⟩
  · rw [hsr] at hr
    cases hr
    exact .inr (.inl ⟨rfl, hm⟩)
  rw [hsr, ok_bind] at hr
  cases de with
  | none => cases hr
  | some de =>
    rcases bind_eq_error.mp hr with hr | ⟨r, -, hr⟩
    · exact .inr (.inr ⟨k, _, (hsc.named ht).2.2 de rfl, (hsc.named ht).1, hr⟩)
    · cases hr

end

/-! ### Writing -/

section

variable (h : InvIf c sb s) (hl : (s.icache i).lock = some p)
include h hl

theorem update_step {g : Dinode → Dinode}
    (hg : ∀ d, (g d).type = d.type ∧ (g d).size = d.size ∧ (g d).addrs = d.addrs) (hr : s.update i g = .ok ((), t)) :
    Step c sb p (· ∈ s.held p) s t ∧ t.held = s.held ∧ (∀ j, (t.icache j).lock = (s.icache j).lock) ∧
      t.disk = s.disk.iupdate (s.icache i).inum (g (s.disk.dinode (s.icache i).inum)) := by
  obtain ⟨hc, -⟩ := h.copy_of_lock hl
  unfold update at hr
  rw [hc] at hr
  cases hr
  obtain ⟨ht, hs, ha⟩ := hg (s.disk.dinode (s.icache i).inum)
  refine ⟨h.copyStep hl (h.disk.iupdate_congr ht hs ha) (fun y hy => ?_) ?_ ?_ (fun _ => id)
    (fun _ _ _ _ _ => rfl) fun hc x k n y he => ?_, rfl,
    fun j => setCopy_lock .., rfl⟩
  · simp [Disk.iupdate, hy]
  · simp [Disk.iupdate, ht, typeOf]
  · simp [Disk.iupdate]
  · rw [Disk.ent_iupdate_congr h.disk ht hs ha] at he
    exact h.order hc x k n y he

theorem writei_inv (ht : (s.typeOf i).hasBlocks)
    (hlen : src.length < 2 ^ 32) {r : Option Nat} (hr : s.writei sb i off src = .ok (r, t)) :
    ∃ d', t = s.setCopy i (d'.dinode (s.icache i).inum) d' ∧ s.disk.Kept sb (s.icache i).inum d' ∧
    (r = none ∧ d' = s.disk ∧
          (off > (s.disk.dinode (s.icache i).inum).size ∨ off + src.length > MAXFILE * BSIZE) ∨
        r = some src.length ∧ off ≤ (s.disk.dinode (s.icache i).inum).size ∧
        (d'.dinode (s.icache i).inum).size = max (s.disk.dinode (s.icache i).inum).size (off + src.length) ∧
        ∀ b < MAXFILE * BSIZE, (d'.dinode (s.icache i).inum).byteAt d'.data b =
          if off ≤ b ∧ b < off + src.length then src.getD (b - off) 0
          else (s.disk.dinode (s.icache i).inum).byteAt s.disk.data b) := by
  obtain ⟨hc, -⟩ := h.copy_of_lock hl
  unfold writei at hr
  rw [hc] at hr
  obtain ⟨⟨r', ip', d'⟩, hw, hr⟩ := bind_eq_ok.mp hr
  cases hr
  obtain ⟨hk, rfl, hres⟩ := Disk.writei_ok h.disk ht hlen hw
  exact ⟨d', rfl, hk, hres⟩

theorem writei_error (ht : (s.typeOf i).hasBlocks)
    (hlen : src.length < 2 ^ 32) (hr : s.writei sb i off src = .error e) : e = .panic "balloc: out of blocks" := by
  obtain ⟨hc, -⟩ := h.copy_of_lock hl
  unfold writei at hr
  rw [hc] at hr
  rcases bind_eq_error.mp hr with hr | ⟨r, -, hr⟩
  · exact Disk.writei_error hlen hr (h.disk.size_le _ ht)
  · cases hr

theorem InvIf.keptStep (hk : s.disk.Kept sb (s.icache i).inum d')
    (hent : c → ∀ k n y, d'.ent (s.icache i).inum k = some (n, y) → n ≠ Sys.dot → n ≠ Sys.dotdot →
      (s.disk.dinode y).type = .dir → s.born (s.icache i).inum < s.born y) :
    Step c sb p (· ∈ s.held p) s (s.setCopy i (d'.dinode (s.icache i).inum) d') := by
  refine h.copyStep hl hk.ok hk.dinode (by rw [hk.fields]; rfl) rfl hk.used hk.data fun hc x k n y he h1 h2 hy => ?_
  by_cases hx : x = (s.icache i).inum
  · subst hx
    exact hent hc k n y he h1 h2 hy
  · rw [hk.ent h.disk hx] at he
    exact h.order hc x k n y he h1 h2 hy

theorem writei_step (hb : (s.typeOf i).hasBlocks)
    (ht : c → s.typeOf i = .file) (hlen : src.length < 2 ^ 32) {r : Option Nat}
    (hr : s.writei sb i off src = .ok (r, t)) :
    Step c sb p (· ∈ s.held p) s t ∧ t.held = s.held ∧ ∀ j, (t.icache j).lock = (s.icache j).lock := by
  obtain ⟨d', rfl, hk, -⟩ := writei_inv h hl hb hlen hr
  refine ⟨h.keptStep hl hk fun hc k n y he => ?_, rfl, fun j => setCopy_lock ..⟩
  have := Disk.type_of_ent he
  rw [hk.fields] at this
  change s.typeOf i = .dir at this
  rw [ht hc] at this
  cases this

section

variable (ht : s.typeOf i = .dir)
include ht

theorem writeEnt_inv {de : List UInt8} (hde : de.length = DIRENT)
    (hr : s.writei sb i (k * DIRENT) de = .ok (some n, t)) :
    ∃ d', t = s.setCopy i (d'.dinode (s.icache i).inum) d' ∧ s.disk.Kept sb (s.icache i).inum d' ∧
      (d'.dinode (s.icache i).inum).size = max (s.disk.dinode (s.icache i).inum).size (k * DIRENT + DIRENT) ∧
      ∀ k', d'.ent (s.icache i).inum k' =
        if k' = k then (if direntInum de = 0 then none else some (direntName de, direntInum de))
        else s.disk.ent (s.icache i).inum k' := by
  obtain ⟨d', rfl, hk, ⟨hr, -⟩ | ⟨-, hle, hsize, hbyte⟩⟩ := writei_inv h hl (.inl ht) (by simp [hde, DIRENT]) hr
  · cases hr
  · rw [hde] at hsize hbyte
    have hmax := hk.ok.size_le (s.icache i).inum (.inl (by rw [hk.fields]; exact ht))
    exact ⟨d', rfl, hk, hsize, fun k' =>
      Disk.ent_write h.disk ht hde hle (by omega) (by rw [hk.fields]; exact ht) hsize hbyte⟩

theorem clear_inv (hr : s.writei sb i (k * DIRENT) (List.replicate DIRENT 0) = .ok (some n, t)) :
    ∃ d', t = s.setCopy i (d'.dinode (s.icache i).inum) d' ∧ s.disk.Kept sb (s.icache i).inum d' ∧
      (d'.dinode (s.icache i).inum).size = max (s.disk.dinode (s.icache i).inum).size (k * DIRENT + DIRENT) ∧
      ∀ k', d'.ent (s.icache i).inum k' = if k' = k then none else s.disk.ent (s.icache i).inum k' := by
  have := writeEnt_inv h hl ht List.length_replicate hr
  rwa [direntInum_zero, if_pos rfl] at this

theorem clear_step {r : Option Nat}
    (hr : s.writei sb i (k * DIRENT) (List.replicate DIRENT 0) = .ok (r, t)) :
    Step c sb p (· ∈ s.held p) s t ∧ t.held = s.held ∧ ∀ j, (t.icache j).lock = (s.icache j).lock := by
  cases r with
  | none =>
    obtain ⟨d', rfl, hk, ⟨-, rfl, -⟩ | ⟨hr, -⟩⟩ := writei_inv h hl (.inl ht) (by decide) hr
    · exact ⟨h.keptStep hl hk fun hc k' n y he => h.order hc _ k' n y he, rfl, fun j => setCopy_lock ..⟩
    · cases hr
  | some n =>
    obtain ⟨d', rfl, hk, -, hent⟩ := clear_inv h hl ht hr
    refine ⟨h.keptStep hl hk fun hc k' n y he => ?_, rfl, fun j => setCopy_lock ..⟩
    rw [hent] at he
    split_ifs at he
    exact h.order hc _ k' n y he

theorem dirwrite_inv (hx : x < 2 ^ 16) (hr : s.dirwrite sb i name x = .ok ((), t)) :
    ∃ k d', t = s.setCopy i (d'.dinode (s.icache i).inum) d' ∧ s.disk.Kept sb (s.icache i).inum d' ∧
      (d'.dinode (s.icache i).inum).size = max (s.disk.dinode (s.icache i).inum).size (k * DIRENT + DIRENT) ∧
      s.disk.FirstEmpty (s.icache i).inum k ∧
      ∀ k', d'.ent (s.icache i).inum k' = if k' = k then (if x = 0 then none else some (cname name, x))
        else s.disk.ent (s.icache i).inum k' := by
  unfold dirwrite at hr
  rcases dirScan_cases h hl ht "dirlink read" (fun de => direntInum de = 0) (Nat.zero_mul _).symm with
    ⟨hsr, hm⟩ | ⟨⟨off, de⟩, k, hsr, hsc⟩
  · rw [hsr] at hr
    cases hr
  rw [hsr, ok_bind] at hr
  obtain rfl : off = k * DIRENT := hsc.off
  obtain ⟨⟨r, t'⟩, hw, hr⟩ := bind_eq_ok.mp hr
  simp only at hr
  split at hr
  case isFalse => cases hr
  case isTrue hrd =>
    cases hr
    rw [hrd] at hw
    obtain ⟨d', rfl, hk, hsize, hent⟩ := writeEnt_inv h hl ht mkDirent_length hw
    rw [direntInum_mkDirent hx, direntName_mkDirent] at hent
    exact ⟨k, d', rfl, hk, hsize, hsc.firstEmpty ht, hent⟩

theorem dirwrite_error (hr : s.dirwrite sb i name x = .error e) :
    e = .panic "dirlink read" ∧ (s.disk.dinode (s.icache i).inum).size % DIRENT ≠ 0 ∨
      (∃ k, s.disk.FirstEmpty (s.icache i).inum k ∧ s.writei sb i (k * DIRENT) (mkDirent x name) = .error e) ∨
      e = .panic "dirlink" ∧ ((s.disk.dinode (s.icache i).inum).size % DIRENT ≠ 0 ∨
        (s.disk.dinode (s.icache i).inum).size = MAXFILE * BSIZE) := by
  unfold dirwrite at hr
  rcases dirScan_cases h hl ht "dirlink read" (fun de => direntInum de = 0) (Nat.zero_mul _).symm with
    ⟨hsr, hm⟩ | ⟨⟨off, de⟩, k, hsr, hsc⟩
  · rw [hsr] at hr
    cases hr
    exact .inl ⟨rfl, hm⟩
  rw [hsr, ok_bind] at hr
  obtain rfl : off = k * DIRENT := hsc.off
  rcases bind_eq_error.mp hr with hr | ⟨⟨r, t'⟩, hw, hr⟩
  · exact .inr (.inl ⟨k, hsc.firstEmpty ht, hr⟩)
  simp only at hr
  split_ifs at hr with hne
  cases hr
  refine .inr (.inr ⟨rfl, ?_⟩)
  have hsz := h.disk.size_le _ (.inl ht)
  obtain ⟨d', -, -, ⟨-, -, hbig⟩ | ⟨rfl, -⟩⟩ := writei_inv h hl (.inl ht) (by simp [DIRENT]) hw
  · -- Only the place behind the last entry can lie outside.
    rw [mkDirent_length] at hbig
    cases de with
    | none =>
      have hend : _ ≤ k * DIRENT := hsc.ended rfl
      have hlast : k = 0 ∨ (k - 1) * DIRENT < _ :=
        or_iff_not_imp_left.mpr fun hk => (hsc.before (k - 1) (by omega) (by omega)).1
      simp only [DIRENT, MAXFILE, NDIRECT, NINDIRECT, BSIZE] at *
      omega
    | some de =>
      have hlt := (hsc.found de rfl).1
      simp only [DIRENT, MAXFILE, NDIRECT, NINDIRECT, BSIZE] at *
      omega
  · exact absurd (by rw [mkDirent_length]) hne

theorem dirwrite_step (hx : x < 2 ^ 16)
    (hord : c → cname name ≠ Sys.dot → cname name ≠ Sys.dotdot → (s.disk.dinode x).type = .dir →
      s.born (s.icache i).inum < s.born x) (hr : s.dirwrite sb i name x = .ok ((), t)) :
    Step c sb p (· ∈ s.held p) s t ∧ t.held = s.held ∧ ∀ j, (t.icache j).lock = (s.icache j).lock := by
  obtain ⟨k, d', rfl, hk, -, -, hent⟩ := dirwrite_inv h hl ht hx hr
  refine ⟨h.keptStep hl hk fun hc k' n y he h1 h2 hy => ?_, rfl, fun j => setCopy_lock ..⟩
  rw [hent] at he
  split at he
  · split at he
    · cases he
    · cases he
      exact hord hc h1 h2 hy
  · exact h.order hc _ k' n y he h1 h2 hy

end

end

end Xv6.Fs
