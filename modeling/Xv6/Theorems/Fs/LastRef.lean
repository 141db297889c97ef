import Xv6.Theorems.Fs.Ownership

/-! The last reference to an inode without links: `iput` looks at the reference count in one section and drops
    the reference in another, and other calls come in between. -/

namespace Xv6.Fs
open Function Option

variable {P : Type} [DecidableEq P] {sb : Superblock}

/-- The file system and the calls of `iput` that are under way: `putting p` is the entry process `p` is about
    to drop its reference to. -/
structure Puts (P : Type) where
  fs : Fs P
  putting : P → Option (Fin NINODE)

/-- The calls on the inode cache. The two sections of `iput` are two steps. -/
inductive RefOp
  | iget (inum : Fin (2 ^ 16))
  | idup (i : Fin NINODE)
  | ilock (i : Fin NINODE)
  | iunlock (i : Fin NINODE)
  | setNlink (i : Fin NINODE) (n : Int)
  | iput (i : Fin NINODE)
  | iputEnd
  deriving DecidableEq

def RefOp.run (p : P) (s : Fs P) : RefOp → Except Halt (Fs P)
  | .iget x => (s.iget p x).map (·.2)
  | .idup i => if i ∈ s.held p then (s.idup p i).map (·.2) else .error (.panic "idup")
  | .ilock i => if i ∈ s.held p then (s.ilock p i).map (·.2) else .error (.panic "ilock")
  | .iunlock i => (s.iunlock p i).map (·.2)
  | .setNlink i n =>
    if (s.icache i).lock = some p then (s.update i fun d => { d with nlink := n }).map (·.2)
    else .error (.panic "iupdate")
  | .iput _ => .error (.panic "iput")
  | .iputEnd => .error (.panic "iput")

def Puts.next (w : Puts P) (l : P × RefOp) : Option (Puts P) :=
  match w.putting l.1, l.2 with
  | none, .iput i =>
    if i ∈ w.fs.held l.1 then
      match w.fs.iputTest i with
      | .ok (_, t) => some ⟨t, Function.update w.putting l.1 (some i)⟩
      | .error _ => none
    else none
  | none, o =>
    match o.run l.1 w.fs with
    | .ok t => some { w with fs := t }
    | .error _ => none
  | some i, .iputEnd =>
    match w.fs.iputDrop l.1 i with
    | .ok (_, t) => some ⟨t, Function.update w.putting l.1 none⟩
    | .error _ => none
  | some _, _ => none

/-- Every inode without links is cached, read in and referred to. -/
def OrphansHeld (sb : Superblock) (s : Fs P) : Prop :=
  ∀ x < sb.ninodes, (s.disk.dinode x).type ≠ .free → (s.disk.dinode x).nlink = 0 →
    ∃ i, 0 < (s.icache i).ref ∧ (s.icache i).inum = x ∧ (s.icache i).valid = true

/-- Any calls on the inode cache by any processes, from a state of the file system between two actions. -/
def puts (P : Type) [Fintype P] [DecidableEq P] (sb : Superblock) : Machine (Puts P) (P × RefOp) where
  init w := Inv sb w.fs ∧ OrphansHeld sb w.fs ∧ ∀ p, w.putting p = none
  step w l w' := w.next l = some w'

/-- No `iput` begins while another one on the same entry is between its two sections. -/
def OneAtATime (w : Puts P) (l : P × RefOp) : Prop := ∀ i, l.2 = .iput i → ∀ q, w.putting q ≠ some i

instance [Fintype P] (w : Puts P) (l : P × RefOp) : Decidable (OneAtATime w l) :=
  inferInstanceAs (Decidable (∀ _, _ → ∀ _, _))

instance (s : Fs P) : Decidable (OrphansHeld sb s) := inferInstanceAs (Decidable (∀ x < sb.ninodes, _ → _ → ∃ _, _))

/-! ### What a step does -/

/-- An entry after a step of process `p` on it that is not one of `iput`. -/
structure Gentle [Fintype P] (p : P) (i : Fin NINODE) (e : Inode P) (s : Fs P) : Prop where
  keeps : 0 < (s.icache i).ref → e.inum = (s.icache i).inum ∧ 0 < e.ref ∧ ((s.icache i).valid = true → e.valid = true)
  lock : ∀ q ≠ p, e.lock = some q ↔ (s.icache i).lock = some q
  shared : ∀ q ≠ p, i ∈ s.held q → e.ref = 1 → e.ref = (s.icache i).ref ∧ e.valid = (s.icache i).valid ∧
    e.d = (s.icache i).d

variable {w w' : Puts P} {s t : Fs P} {p q : P} {i j : Fin NINODE} {e : Inode P} {o : RefOp} {l : List (Fin NINODE)}

theorem next_inv {l : P × RefOp} (h : w.next l = some w') :
    (∃ i, w.putting l.1 = none ∧ l.2 = .iput i ∧ i ∈ w.fs.held l.1 ∧ w.fs.iputTest i = .ok ((), w'.fs) ∧
        w'.putting = Function.update w.putting l.1 (some i)) ∨
      (w.putting l.1 = none ∧ l.2.run l.1 w.fs = .ok w'.fs ∧ w'.putting = w.putting) ∨
      ∃ i, w.putting l.1 = some i ∧ l.2 = .iputEnd ∧ w.fs.iputDrop l.1 i = .ok ((), w'.fs) ∧
        w'.putting = Function.update w.putting l.1 none := by
  obtain ⟨p, o⟩ := l
  unfold Puts.next at h
  dsimp only at h ⊢
  split at h
  · rename_i i hp
    split_ifs at h with hi
    split at h
    · rename_i r t hr
      cases h
      exact .inl ⟨i, hp, rfl, hi, hr, rfl⟩
    · cases h
  · rename_i hp hne
    split at h
    · rename_i t hr
      cases h
      exact .inr (.inl ⟨hp, hr, rfl⟩)
    · cases h
  · rename_i i hp
    split at h
    · rename_i r t hr
      cases h
      exact .inr (.inr ⟨i, hp, rfl, hr, rfl⟩)
    · cases h
  · cases h

section
variable [Fintype P]

theorem Inv.two_refs (h : Inv sb s) (hpq : p ≠ q) (hp : i ∈ s.held p) (hq : i ∈ s.held q ∨ s.FileRef q i) :
    2 ≤ (s.icache i).ref := by
  have h1 := List.count_pos_iff.mpr hp
  have h2 := h.refs i
  rcases hq with hq | hq
  · have h3 := List.count_pos_iff.mpr hq
    have := count_add_count_le hpq i (s := s)
    omega
  · have := h.fileRefs_pos_of_fileRef hq
    have := count_le_heldRefs s p i
    omega

omit [DecidableEq P] in
theorem Gentle.of_two (hk : 0 < (s.icache i).ref → e.inum = (s.icache i).inum ∧ 0 < e.ref ∧
    ((s.icache i).valid = true → e.valid = true)) (hl : ∀ q ≠ p, e.lock = some q ↔ (s.icache i).lock = some q)
    (hr : ∀ q ≠ p, i ∈ s.held q → 2 ≤ e.ref) : Gentle p i e s :=
  ⟨hk, hl, fun q hq hi h1 => by have := hr q hq hi; omega⟩

omit [Fintype P] [DecidableEq P] in
theorem map_snd_ok {α : Type} {x : Except Halt (α × Fs P)} (h : x.map (·.2) = .ok t) : ∃ r, x = .ok (r, t) := by
  cases x with
  | error e => cases h
  | ok r =>
    cases h
    exact ⟨r.1, rfl⟩

theorem run_inv (h : Inv sb s) (hr : o.run p s = .ok t) : Inv sb t ∧ ((∃ i e l, EntrySet p i e l s t ∧ Gentle p i e s) ∨
      ∃ i n, (s.icache i).lock = some p ∧
        t = s.setCopy i { (s.icache i).d with nlink := n }
        (s.disk.iupdate (s.icache i).inum { (s.icache i).d with nlink := n })) := by
  have hpos : ∀ {q i}, i ∈ s.held q → 0 < (s.icache i).ref := fun hi => h.ref_pos (.inl hi)
  cases o with
  | iget x =>
    obtain ⟨i, hi⟩ := map_snd_ok hr
    refine ⟨(iget_step h x.isLt hi).1.inv, .inl ?_⟩
    rcases iget_inv hi with ⟨-, -, hs⟩ | ⟨h0, -, hs⟩
    · refine ⟨i, _, _, hs, .of_two (fun hp => ⟨rfl, Nat.succ_pos _, id⟩) (fun _ _ => Iff.rfl) fun q _ hq => ?_⟩
      have := hpos hq
      simp only
      omega
    · refine ⟨i, _, _, hs, .of_two (fun hp => by omega) (fun _ _ => Iff.rfl) fun q _ hq => ?_⟩
      have := hpos hq
      omega
  | idup i =>
    simp only [RefOp.run] at hr
    split_ifs at hr with hi
    obtain ⟨⟨⟩, hr⟩ := map_snd_ok hr
    refine ⟨(idup_step h (hpos hi) hr).1.inv, .inl ⟨i, _, _, idup_inv hr, ?_⟩⟩
    refine .of_two (fun _ => ⟨rfl, Nat.succ_pos _, id⟩) (fun _ _ => Iff.rfl) fun q _ hq => ?_
    have := hpos hq
    simp only
    omega
  | ilock i =>
    simp only [RefOp.run] at hr
    split_ifs at hr with hi
    obtain ⟨⟨⟩, hr⟩ := map_snd_ok hr
    obtain ⟨-, hnone, hs⟩ := ilock_inv hr
    refine ⟨(ilock_step h (.inl hi) hr).1.inv, .inl ?_⟩
    have hlock : ∀ q ≠ p, some p = some q ↔ (s.icache i).lock = some q := fun q hq => by
      rw [hnone]
      simp [Ne.symm hq]
    rcases hs with ⟨-, hs⟩ | ⟨-, hs⟩
    · exact ⟨i, _, _, hs, .of_two (fun hp => ⟨rfl, hp, id⟩) hlock fun q hq hi' => h.two_refs hq hi' (.inl hi)⟩
    · exact ⟨i, _, _, hs, .of_two (fun hp => ⟨rfl, hp, fun _ => rfl⟩) hlock fun q hq hi' => h.two_refs hq hi' (.inl hi)⟩
  | iunlock i =>
    obtain ⟨⟨⟩, hr⟩ := map_snd_ok hr
    obtain ⟨hl, hs⟩ := iunlock_inv hr
    refine ⟨(iunlock_step h hr).1.inv,
      .inl ⟨i, _, _, hs, fun hp => ⟨rfl, hp, id⟩, fun q hq => ?_, fun _ _ _ _ => ⟨rfl, rfl, rfl⟩⟩⟩
    rw [hl]
    simp [Ne.symm hq]
  | setNlink i n =>
    simp only [RefOp.run] at hr
    split_ifs at hr with hl
    obtain ⟨⟨⟩, hr⟩ := map_snd_ok hr
    refine ⟨(update_step (g := fun d => { d with nlink := n }) h hl (fun _ => ⟨rfl, rfl, rfl⟩) hr).1.inv,
      .inr ⟨i, n, hl, ?_⟩⟩
    cases hr
    rfl
  | iput i => cases hr
  | iputEnd => cases hr

/-! ### The invariant -/

/-- Who is about to drop the last reference drops it from an inode that has links or is not read in. -/
structure PutInv (sb : Superblock) (w : Puts P) : Prop where
  inv : Inv sb w.fs
  orphans : OrphansHeld sb w.fs
  held : ∀ p i, w.putting p = some i → i ∈ w.fs.held p ∧ (w.fs.icache i).lock ≠ some p
  last : ∀ p i, w.putting p = some i → (w.fs.icache i).ref = 1 →
    ¬((w.fs.icache i).valid = true ∧ (w.fs.icache i).d.nlink = 0)
  alone : ∀ p q i, w.putting p = some i → w.putting q = some i → p = q

section

variable (h : PutInv sb w)
include h

theorem PutInv.entry (ht : Inv sb t) (hp : w.putting p = none) (hs : EntrySet p i e l w.fs t)
    (hg : Gentle p i e w.fs) : PutInv sb { w with fs := t } := by
  have hne : ∀ {q j}, w.putting q = some j → q ≠ p := by
    rintro q j hq rfl
    rw [hp] at hq
    cases hq
  refine ⟨ht, fun x hx ha hn => ?_, fun q j hq => ?_, fun q j hq hr => ?_, h.alone⟩
  · rw [hs.disk] at ha hn
    obtain ⟨j, hr, hin, hv⟩ := h.orphans x hx ha hn
    refine ⟨j, ?_⟩
    by_cases hj : j = i
    · subst hj
      obtain ⟨h1, h2, h3⟩ := hg.keeps hr
      rw [hs.entry]
      exact ⟨h2, h1.trans hin, h3 hv⟩
    · rw [hs.entry_ne hj]
      exact ⟨hr, hin, hv⟩
  · obtain ⟨hi, hl⟩ := h.held q j hq
    refine ⟨by rw [hs.held, update_of_ne (hne hq)]; exact hi, ?_⟩
    by_cases hj : j = i
    · subst hj
      rw [hs.entry, ne_eq, hg.lock q (hne hq)]
      exact hl
    · rw [hs.entry_ne hj]
      exact hl
  · by_cases hj : j = i
    · subst hj
      rw [hs.entry] at hr ⊢
      obtain ⟨h1, h2, h3⟩ := hg.shared q (hne hq) (h.held q j hq).1 hr
      rw [h2, h3]
      exact h.last q j hq (h1.symm.trans hr)
    · rw [hs.entry_ne hj] at hr ⊢
      exact h.last q j hq hr

theorem PutInv.setNlink {n : Int} (hp : w.putting p = none) (hl : (w.fs.icache i).lock = some p)
    (ht : t = w.fs.setCopy i { (w.fs.icache i).d with nlink := n }
      (w.fs.disk.iupdate (w.fs.icache i).inum { (w.fs.icache i).d with nlink := n })) (hinv : Inv sb t) :
    PutInv sb { w with fs := t } := by
  have hic : ∀ j, t.icache j = { w.fs.icache j with
      d := if j = i then { (w.fs.icache i).d with nlink := n } else (w.fs.icache j).d } := fun j => by
    rw [ht, setCopy_icache]
  have hheld : t.held = w.fs.held := by rw [ht]; rfl
  obtain ⟨hv, href⟩ := h.inv.locked i p hl
  refine ⟨hinv, fun x hx ha hn => ?_, fun q j hq => ?_, fun q j hq hr => ?_, h.alone⟩
  · by_cases hxi : x = (w.fs.icache i).inum
    · exact ⟨i, by rw [hic]; exact h.inv.ref_pos href, by rw [hic]; exact hxi.symm, by rw [hic]; exact hv⟩
    · have hd : t.disk.dinode x = w.fs.disk.dinode x := by
        rw [ht]
        exact update_of_ne hxi ..
      rw [hd] at ha hn
      obtain ⟨j, h1, h2, h3⟩ := h.orphans x hx ha hn
      exact ⟨j, by rw [hic]; exact h1, by rw [hic]; exact h2, by rw [hic]; exact h3⟩
  · rw [hheld, hic]
    exact h.held q j hq
  · rw [hic] at hr ⊢
    have hqp : q ≠ p := by
      rintro rfl
      rw [hp] at hq
      cases hq
    by_cases hj : j = i
    · -- the holder of the lock has a reference too
      subst hj
      have := h.inv.two_refs hqp (h.held q j hq).1 href
      simp only at hr
      omega
    · simp only [hj, if_false]
      exact h.last q j hq hr

theorem PutInv.test (hp : w.putting p = none) (hi : i ∈ w.fs.held p)
    (hone : ∀ q, w.putting q ≠ some i) (hr : w.fs.iputTest i = .ok ((), t)) :
    PutInv sb ⟨t, Function.update w.putting p (some i)⟩ := by
  have hst := (iputTest_step h.inv hi hr).1
  have hput : ∀ {q j}, Function.update w.putting p (some i) q = some j →
      q = p ∧ j = i ∨ w.putting q = some j ∧ j ≠ i := by
    intro q j hq
    by_cases hqp : q = p
    · subst hqp
      rw [update_self] at hq
      exact .inl ⟨rfl, (some.inj hq).symm⟩
    · rw [update_of_ne hqp] at hq
      refine .inr ⟨hq, ?_⟩
      rintro rfl
      exact hone q hq
  have halone : ∀ q r j, Function.update w.putting p (some i) q = some j →
      Function.update w.putting p (some i) r = some j → q = r := by
    intro q r j hq hr
    rcases hput hq with ⟨rfl, rfl⟩ | ⟨hq, hj⟩ <;> rcases hput hr with ⟨rfl, h2⟩ | ⟨hr, hj'⟩
    · rfl
    · exact absurd rfl hj'
    · exact absurd h2 hj
    · exact h.alone q r j hq hr
  obtain ⟨hl, ⟨rfl, hc⟩ | ⟨hv, hn, h1, m, rfl, hok⟩⟩ := iputTest_inv h.inv hr
  · refine ⟨h.inv, h.orphans, fun q j hq => ?_, fun q j hq hr => ?_, halone⟩
    · rcases hput hq with ⟨rfl, rfl⟩ | ⟨hq, -⟩
      · exact ⟨hi, by rw [hl]; nofun⟩
      · exact h.held q j hq
    · rcases hput hq with ⟨rfl, rfl⟩ | ⟨hq, -⟩
      · exact fun ⟨hv, hn⟩ => hc ⟨hv, hn, hr⟩
      · exact h.last q j hq hr
  · -- the inode was freed
    have hne : ∀ {j}, j ≠ i → (w.fs.freed i m).icache j = w.fs.icache j := fun hj => by
      simp [freed, setInode, hj]
    refine ⟨hst.inv, fun x hx ha hn' => ?_, fun q j hq => ?_, fun q j hq hr => ?_, halone⟩
    · have hxi : x ≠ (w.fs.icache i).inum := by
        rintro rfl
        simp [freed, Disk.iupdate] at ha
      have hd : (w.fs.freed i m).disk.dinode x = w.fs.disk.dinode x := by simp [freed, Disk.iupdate, hxi]
      rw [hd] at ha hn'
      obtain ⟨j, h2, h3, h4⟩ := h.orphans x hx ha hn'
      have hj : j ≠ i := by
        rintro rfl
        exact hxi h3.symm
      exact ⟨j, by rw [hne hj]; exact h2, by rw [hne hj]; exact h3, by rw [hne hj]; exact h4⟩
    · rcases hput hq with ⟨rfl, rfl⟩ | ⟨hq, hj⟩
      · exact ⟨hi, by simp [freed, setInode, hl]⟩
      · rw [hne hj]
        exact h.held q j hq
    · rcases hput hq with ⟨rfl, rfl⟩ | ⟨hq, hj⟩
      · simp [freed, setInode]
      · rw [hne hj] at hr ⊢
        exact h.last q j hq hr

theorem PutInv.drop (hp : w.putting p = some i) (hr : w.fs.iputDrop p i = .ok ((), t)) :
    PutInv sb ⟨t, Function.update w.putting p none⟩ := by
  obtain ⟨hi, hl⟩ := h.held p i hp
  have hst := (iputDrop_step h.inv hi hl hr).1
  have hs := iputDrop_inv hr
  have hpos := h.inv.ref_pos (.inl hi)
  have hput : ∀ {q j}, Function.update w.putting p none q = some j → w.putting q = some j ∧ q ≠ p ∧ j ≠ i := by
    intro q j hq
    by_cases hqp : q = p
    · subst hqp
      rw [update_self] at hq
      cases hq
    · rw [update_of_ne hqp] at hq
      refine ⟨hq, hqp, ?_⟩
      rintro rfl
      exact hqp (h.alone q p j hq hp)
  refine ⟨hst.inv, fun x hx ha hn => ?_, fun q j hq => ?_, fun q j hq hr => ?_, fun q r j hq hr => ?_⟩
  · rw [hs.disk] at ha hn
    obtain ⟨j, h1, h2, h3⟩ := h.orphans x hx ha hn
    by_cases hj : j = i
    · subst hj
      refine ⟨j, ?_, by rw [hs.entry]; exact h2, by rw [hs.entry]; exact h3⟩
      -- an inode without links that is read in is not dropped for the last time
      have hlast : (w.fs.icache j).ref ≠ 1 := fun h1' => by
        refine h.last p j hp h1' ⟨h3, ?_⟩
        rw [(h.inv.copy j hpos h3).1, h2]
        exact hn
      rw [hs.entry]
      simp only
      omega
    · exact ⟨j, by rw [hs.entry_ne hj]; exact h1, by rw [hs.entry_ne hj]; exact h2, by rw [hs.entry_ne hj]; exact h3⟩
  · obtain ⟨hq, hqp, hj⟩ := hput hq
    rw [hs.entry_ne hj, hs.held, update_of_ne hqp]
    exact h.held q j hq
  · obtain ⟨hq, hqp, hj⟩ := hput hq
    rw [hs.entry_ne hj] at hr ⊢
    exact h.last q j hq hr
  · exact h.alone q r j (hput hq).1 (hput hr).1

theorem PutInv.next {l : P × RefOp} (hone : OneAtATime w l) (hn : w.next l = some w') : PutInv sb w' := by
  obtain ⟨s', put'⟩ := w'
  rcases next_inv hn with ⟨i, hp, ho, hi, hr, rfl⟩ | ⟨hp, hr, rfl⟩ | ⟨i, hp, -, hr, rfl⟩
  · exact h.test hp hi (hone i ho) hr
  · obtain ⟨hinv, ⟨i, e, l, hs, hg⟩ | ⟨i, n, hl, ht⟩⟩ := run_inv h.inv hr
    · exact h.entry hinv hp hs hg
    · exact h.setNlink hp hl ht hinv
  · exact h.drop hp hr

/-- The reference count of an entry reaches zero only in the second section of `iput`. -/
theorem last_drop {l : P × RefOp} (hn : w.next l = some w') (hpos : 0 < (w.fs.icache i).ref)
    (h0 : (w'.fs.icache i).ref = 0) : ∃ j p, w.putting p = some j ∧ i = j ∧ (w.fs.icache j).ref = 1 := by
  rcases next_inv hn with ⟨j, -, -, -, hr, -⟩ | ⟨-, hr, -⟩ | ⟨j, hp, -, hr, -⟩
  · exfalso
    obtain ⟨-, ⟨ht, -⟩ | ⟨-, -, -, m, ht, -⟩⟩ := iputTest_inv h.inv hr
    · rw [ht] at h0
      omega
    · rw [ht] at h0
      by_cases hij : i = j
      · subst hij
        simp only [freed, setInode, update_self] at h0
        omega
      · simp only [freed, setInode, update_of_ne hij] at h0
        omega
  · exfalso
    obtain ⟨-, ⟨j, e, l', hs, hg⟩ | ⟨j, n, -, ht⟩⟩ := run_inv h.inv hr
    · by_cases hij : i = j
      · subst hij
        rw [hs.entry] at h0
        have := (hg.keeps hpos).2.1
        omega
      · rw [hs.entry_ne hij] at h0
        omega
    · rw [ht, setCopy_icache] at h0
      simp only at h0
      omega
  · have hs := iputDrop_inv hr
    by_cases hij : i = j
    · subst hij
      refine ⟨i, l.1, hp, rfl, ?_⟩
      rw [hs.entry] at h0
      simp only at h0
      omega
    · rw [hs.entry_ne hij] at h0
      omega

end

/-- If no `iput` begins while another one on the same entry is under way: an inode without links that is
    allocated is referred to, and the last reference to an entry that is read in and has no links never goes: such an
    inode has been freed, and its entry made invalid, before. -/
theorem last_reference (h : (puts P sb).ReachWhere OneAtATime w) : w.fs.disk.BlocksOwned sb ∧
      (∀ x < sb.ninodes, (w.fs.disk.dinode x).type ≠ .free → (w.fs.disk.dinode x).nlink = 0 →
        ∃ i, 0 < (w.fs.icache i).ref ∧ (w.fs.icache i).inum = x) ∧
      ∀ l w' i, w.next l = some w' → 0 < (w.fs.icache i).ref → (w'.fs.icache i).ref = 0 →
        (w.fs.icache i).valid = true → (w.fs.icache i).d.nlink ≠ 0 := by
  have hw : PutInv sb w := by
    refine h.invariant (I := PutInv sb) (fun w hw => ?_) fun w l w' hi hone hs => hi.next hone hs
    obtain ⟨h1, h2, h3⟩ := hw
    have hno : ∀ p i, w.putting p ≠ some i := fun p i => by rw [h3 p]; nofun
    exact ⟨h1, h2, fun p i hp => absurd hp (hno p i), fun p i hp => absurd hp (hno p i),
      fun p _ i hp => absurd hp (hno p i)⟩
  refine ⟨hw.inv.disk.blocksOwned, fun x hx ha hn => ?_, fun l w' i hn hpos h0 hv hnl => ?_⟩
  · obtain ⟨i, h1, h2, -⟩ := hw.orphans x hx ha hn
    exact ⟨i, h1, h2⟩
  · obtain ⟨j, p, hp, hij, h1⟩ := last_drop hw hn hpos h0
    rw [hij] at hv hnl
    exact hw.last p j hp h1 ⟨hv, hnl⟩

end

/-! ### Runs -/

def withFile : Option (Puts (Fin 2)) :=
  ([(0, .fork 1), (0, .open [47, 102] O_CREATE), (0, .close ⟨0, NOFILE_pos⟩)].foldlM (call smallDisk)
    (boot smallDisk 0)).bind fun s => if OrphansHeld smallDisk s then some ⟨s, fun _ => none⟩ else none

theorem withFile_init {w : Puts (Fin 2)} (h : withFile = some w) : (puts (Fin 2) smallDisk).init w := by
  obtain ⟨s, hs, h⟩ := bind_eq_some_iff.mp h
  split_ifs at h with ho
  cases h
  exact ⟨(machine_inv (reach_calls (boot_reach 0) hs)).1, ho, fun _ => rfl⟩

def unlinkFile : List (Fin 2 × RefOp) :=
  [(0, .iget 2), (1, .iget 2), (0, .ilock 1), (0, .setNlink 1 0), (0, .iunlock 1)]

def putInTurn : List (Fin 2 × RefOp) := unlinkFile ++ [(0, .iput 1), (0, .iputEnd), (1, .iput 1), (1, .iputEnd)]

theorem last_reference_putInTurn : ∃ w, (puts (Fin 2) smallDisk).ReachWhere OneAtATime w ∧
    (w.fs.disk.dinode 2).type = .free ∧ w.fs.disk.BlocksOwned smallDisk := by
  have h : (withFile.bind fun w₀ => (putInTurn.foldlM (fun w l => if OneAtATime w l then w.next l else none) w₀).map
      fun w : Puts (Fin 2) => (w.fs.disk.dinode 2).type) = some InodeType.free := by
    decide +kernel
  obtain ⟨w₀, h₀, h⟩ := bind_eq_some_iff.mp h
  obtain ⟨w, hw, h⟩ := map_eq_some_iff.mp h
  have hr : (puts (Fin 2) smallDisk).ReachWhere OneAtATime w := by
    refine .foldlM (fun w l w' hl => ?_) (.init (withFile_init h₀)) hw
    split_ifs at hl
    exact ⟨by assumption, hl⟩
  exact ⟨w, hr, h, (last_reference hr).1⟩

/-- Both processes look at the reference count, which is 2, before either drops its reference. -/
def putBoth : List (Fin 2 × RefOp) := unlinkFile ++ [(0, .iput 1), (1, .iput 1), (0, .iputEnd)]

/-- When process 1 drops the last reference the inode, read in and without links, is still allocated. -/
theorem putBoth_leaks : ∃ w w', (puts (Fin 2) smallDisk).Reach w ∧ w.next (1, .iputEnd) = some w' ∧
    0 < (w.fs.icache 1).ref ∧ (w'.fs.icache 1).ref = 0 ∧ (w.fs.icache 1).valid = true ∧ (w.fs.icache 1).d.nlink = 0 ∧
    (w'.fs.disk.dinode (w.fs.icache 1).inum).type ≠ .free := by
  have h : (withFile.bind fun w₀ => (putBoth.foldlM Puts.next w₀).bind fun w => (w.next (1, .iputEnd)).map fun w' =>
      decide (0 < (w.fs.icache 1).ref ∧ (w'.fs.icache 1).ref = 0 ∧ (w.fs.icache 1).valid = true ∧
        (w.fs.icache 1).d.nlink = 0 ∧ (w'.fs.disk.dinode (w.fs.icache 1).inum).type ≠ .free)) = some true := by
    decide +kernel
  obtain ⟨w₀, h₀, h⟩ := bind_eq_some_iff.mp h
  obtain ⟨w, hw, h⟩ := bind_eq_some_iff.mp h
  obtain ⟨w', hw', h⟩ := map_eq_some_iff.mp h
  exact ⟨w, w', .foldlM (fun _ _ _ => id) (.init (withFile_init h₀)) hw, hw', of_decide_eq_true h⟩

end Xv6.Fs
