import Xv6.Theorems.Fs.Inv

/-! The actions on the inode cache keep the invariant. -/

namespace Xv6.Fs
open Function List

variable {P : Type} {sb : Superblock} {s t : Fs P} {p q : P} {i j : Fin NINODE}
  {H : Multiset (Fin NINODE)} {K : Finset (Fin NINODE)} {F : Fs P → Prop} {e : Inode P} {l : List (Fin NINODE)}
  {x : Nat} {c : Prop}

theorem ilock_error {e : Halt} (h : s.ilock p i = .error e) :
    e = .panic "ilock" ∧ (s.icache i).ref = 0 ∨ e = .wait .ilock i ∧ (s.icache i).lock ≠ none ∨
      e = .panic "ilock: no type" ∧ s.typeOf i = .free := by
  unfold ilock at h
  simp only at h
  split at h
  · rename_i h0
    cases h
    exact .inl ⟨rfl, Nat.lt_one_iff.mp h0⟩
  split at h
  · rename_i hl
    cases h
    exact .inr (.inl ⟨rfl, Option.isSome_iff_ne_none.mp hl⟩)
  split at h
  · cases h
  split_ifs at h with ht
  cases h
  exact .inr (.inr ⟨rfl, ht⟩)

variable [DecidableEq P]

structure EntrySet (p : P) (i : Fin NINODE) (e : Inode P) (l : List (Fin NINODE)) (s t : Fs P) : Prop where
  icache : t.icache = Function.update s.icache i e
  held : t.held = Function.update s.held p l
  disk : t.disk = s.disk
  ftable : t.ftable = s.ftable
  proc : t.proc = s.proc
  born : t.born = s.born
  clock : t.clock = s.clock

structure Fits (p : P) (i : Fin NINODE) (e : Inode P) (l : List (Fin NINODE)) (s : Fs P) : Prop where
  count : ∀ j, l.count j + (if j = i then (s.icache i).ref else 0) = (s.held p).count j + (if j = i then e.ref else 0)
  inum : 0 < (s.icache i).ref ∧ e.inum = (s.icache i).inum ∨
    (s.icache i).ref = 0 ∧ e.inum < 2 ^ 16 ∧ ∀ j, 0 < (s.icache j).ref → (s.icache j).inum ≠ e.inum
  copy : e.valid = true → e.d = s.disk.dinode e.inum ∧ (s.disk.dinode e.inum).type ≠ .free
  lock : ∀ q, e.lock = some q → e.valid = true ∧ (q ≠ p → (s.icache i).lock = some q) ∧
    (q = p → i ∈ l ∨ s.FileRef p i)

theorem EntrySet.entry (h : EntrySet p i e l s t) : t.icache i = e := by
  rw [h.icache, update_self]

theorem EntrySet.entry_ne (h : EntrySet p i e l s t) (hj : j ≠ i) : t.icache j = s.icache j := by
  rw [h.icache, update_of_ne hj]

theorem EntrySet.fileRef (h : EntrySet p i e l s t) : t.FileRef q j ↔ s.FileRef q j := by
  unfold FileRef
  rw [h.proc, h.ftable]

theorem EntrySet.quiet (hs : EntrySet p i e l s t) (hf : Fits p i e l s) : Quiet s t where
  inum a ha := by
    by_cases hai : a = i
    · subst hai
      rw [hs.entry]
      rcases hf.inum with ⟨-, hi⟩ | ⟨h0, -⟩
      · exact hi
      · omega
    · rw [hs.entry_ne hai]
  type a := by rw [hs.disk]
  born := hs.born
  clock := hs.clock
  file q fd f _ := by
    rw [hs.ftable]
    exact .refl _

theorem EntrySet.private (hs : EntrySet p i e l s t) (hq : q ≠ p) (hl : e.lock = some q ↔ (s.icache i).lock = some q) :
    Private q s t where
  held := by rw [hs.held, update_of_ne hq]
  locks a := by
    by_cases hai : a = i
    · subst hai
      rw [hs.entry]
      exact hl
    · rw [hs.entry_ne hai]
  proc := .inl (by rw [hs.proc])

theorem iget_inv (h : s.iget p x = .ok (i, t)) : 0 < (s.icache i).ref ∧ (s.icache i).inum = x ∧
        EntrySet p i { s.icache i with ref := (s.icache i).ref + 1 } (i :: s.held p) s t ∨
      (s.icache i).ref = 0 ∧ (∀ j, 0 < (s.icache j).ref → (s.icache j).inum ≠ x) ∧
        EntrySet p i { s.icache i with inum := x, ref := 1, valid := false } (i :: s.held p) s t := by
  unfold iget at h
  split at h
  · rename_i a ha
    cases h
    have := List.find?_some ha
    simp only [decide_eq_true_eq] at this
    exact .inl ⟨this.1, this.2, rfl, rfl, rfl, rfl, rfl, rfl, rfl⟩
  · rename_i hno
    split at h
    · rename_i a ha
      cases h
      refine .inr ⟨by simpa using List.find?_some ha, fun j hj hx => ?_, rfl, rfl, rfl, rfl, rfl, rfl, rfl⟩
      have := List.find?_eq_none.mp hno j (mem_finRange j)
      simp [hj, hx] at this
    · cases h

theorem iget_error {e : Halt} (h : s.iget p x = .error e) : e = .panic "iget: no inodes" := by
  unfold iget at h
  split at h
  · cases h
  · split at h
    · cases h
    · cases h
      rfl

theorem idup_inv (hr : s.idup p i = .ok ((), t)) :
    EntrySet p i { s.icache i with ref := (s.icache i).ref + 1 } (i :: s.held p) s t := by
  unfold idup at hr
  cases hr
  exact ⟨rfl, rfl, rfl, rfl, rfl, rfl, rfl⟩

theorem ilock_inv (h : s.ilock p i = .ok ((), t)) : 0 < (s.icache i).ref ∧ (s.icache i).lock = none ∧
      ((s.icache i).valid = true ∧ EntrySet p i { s.icache i with lock := some p } (s.held p) s t ∨
        s.typeOf i ≠ .free ∧ EntrySet p i
          { s.icache i with lock := some p, valid := true, d := s.disk.dinode (s.icache i).inum } (s.held p) s t) := by
  unfold ilock at h
  simp only at h
  split at h
  · cases h
  split at h
  · cases h
  rename_i h1 h2
  refine ⟨by omega, by simpa using h2, ?_⟩
  split at h
  · rename_i hv
    cases h
    exact .inl ⟨hv, rfl, (update_eq_self ..).symm, rfl, rfl, rfl, rfl, rfl⟩
  split at h
  · cases h
  · rename_i hv ht
    cases h
    exact .inr ⟨ht, rfl, (update_eq_self ..).symm, rfl, rfl, rfl, rfl, rfl⟩

theorem iunlock_inv (h : s.iunlock p i = .ok ((), t)) :
    (s.icache i).lock = some p ∧ EntrySet p i { s.icache i with lock := none } (s.held p) s t := by
  unfold iunlock at h
  simp only at h
  split_ifs at h with hc
  cases h
  exact ⟨by tauto, rfl, (update_eq_self ..).symm, rfl, rfl, rfl, rfl, rfl⟩

theorem iunlock_error {e : Halt} (h : s.iunlock p i = .error e) :
    e = .panic "iunlock" ∧ ((s.icache i).lock ≠ some p ∨ (s.icache i).ref < 1) := by
  unfold iunlock at h
  simp only at h
  split_ifs at h with hc
  cases h
  exact ⟨rfl, hc⟩

theorem iputDrop_inv (hr : s.iputDrop p i = .ok ((), t)) :
    EntrySet p i { s.icache i with ref := (s.icache i).ref - 1 } ((s.held p).erase i) s t := by
  unfold iputDrop at hr
  cases hr
  exact ⟨rfl, rfl, rfl, rfl, rfl, rfl, rfl⟩

variable [Fintype P]

theorem InvIf.setEntry (h : InvIf c sb s) (hs : EntrySet p i e l s t) (hf : Fits p i e l s) : InvIf c sb t where
  disk := by rw [hs.disk]; exact h.disk
  uniq a b ha hb hab := by
    -- the entry itself against another one
    have key : ∀ c ≠ i, 0 < e.ref → 0 < (s.icache c).ref → e.inum = (s.icache c).inum → False := by
      intro c hc he hcr hn
      rcases hf.inum with ⟨hr, hi⟩ | ⟨-, -, hno⟩
      · exact hc (h.uniq c i hcr hr (by rw [← hn, hi]))
      · exact hno c hcr hn.symm
    by_cases hai : a = i <;> by_cases hbi : b = i
    · rw [hai, hbi]
    · subst hai
      rw [hs.entry] at ha hab
      rw [hs.entry_ne hbi] at hb hab
      exact (key b hbi ha hb hab).elim
    · subst hbi
      rw [hs.entry] at hb hab
      rw [hs.entry_ne hai] at ha hab
      exact (key a hai hb ha hab.symm).elim
    · rw [hs.entry_ne hai] at ha hab
      rw [hs.entry_ne hbi] at hb hab
      exact h.uniq a b ha hb hab
  inum_lt a ha := by
    by_cases hai : a = i
    · subst hai
      rw [hs.entry]
      rcases hf.inum with ⟨hr, hi⟩ | ⟨-, hlt, -⟩
      · rw [hi]
        exact h.inum_lt a hr
      · exact hlt
    · rw [hs.entry_ne hai] at ha ⊢
      exact h.inum_lt a ha
  copy a ha hv := by
    unfold typeOf
    rw [hs.disk]
    by_cases hai : a = i
    · subst hai
      rw [hs.entry] at hv ⊢
      exact hf.copy hv
    · rw [hs.entry_ne hai] at ha hv ⊢
      exact h.copy a ha hv
  refs a := by
    have h1 := h.refs a
    have h2 := heldRefs_update l a hs.held
    have h3 := hf.count a
    rw [fileRefs_congr hs.ftable, cwdRefs_congr hs.proc]
    by_cases hai : a = i
    · subst hai
      rw [hs.entry]
      simp only [if_true] at h3
      omega
    · rw [hs.entry_ne hai]
      simp only [hai, if_false] at h3
      omega
  locked a q hq := by
    have key : q ≠ p → t.held q = s.held q := fun hqp => by rw [hs.held, update_of_ne hqp]
    by_cases hai : a = i
    · subst hai
      rw [hs.entry] at hq ⊢
      obtain ⟨hv, hne, heq⟩ := hf.lock q hq
      refine ⟨hv, ?_⟩
      rw [hs.fileRef]
      by_cases hqp : q = p
      · subst hqp
        rw [hs.held, update_self]
        exact heq rfl
      · rw [key hqp]
        exact (h.locked a q (hne hqp)).2
    · rw [hs.entry_ne hai] at hq ⊢
      obtain ⟨hv, hr⟩ := h.locked a q hq
      refine ⟨hv, ?_⟩
      rw [hs.fileRef]
      by_cases hqp : q = p
      · subst hqp
        rw [hs.held, update_self]
        refine hr.imp (fun hm => ?_) id
        have := hf.count a
        simp only [hai, if_false, Nat.add_zero] at this
        rw [← count_pos_iff] at hm ⊢
        omega
      · rw [key hqp]
        exact hr
  files f := by
    rw [hs.ftable, slotRefs_congr hs.proc]
    exact h.files f
  unused f := by
    rw [hs.ftable]
    exact h.unused f
  opening f := by
    rw [hs.ftable]
    exact h.opening f
  writable hc f ht hw := by
    rw [hs.ftable] at ht hw ⊢
    have hr := h.ref_pos_of_file ht
    have := h.writable hc f ht hw
    unfold typeOf at this ⊢
    rw [hs.disk]
    by_cases hai : (s.ftable f).ip = i
    · rw [hai] at this hr ⊢
      rw [hs.entry]
      rcases hf.inum with ⟨-, hi⟩ | ⟨h0, -⟩
      · rwa [hi]
      · omega
    · rwa [hs.entry_ne hai]
  order hc a k n y he := by
    rw [hs.disk] at he ⊢
    rw [hs.born]
    exact h.order hc a k n y he
  born_lt a := by
    rw [hs.born, hs.clock]
    exact h.born_lt a

/-! ### The actions -/

structure Step (c : Prop) (sb : Superblock) (p : P) (H : Fin NINODE → Prop) (s t : Fs P) : Prop where
  inv : InvIf c sb t
  guar : Guar p s t
  proc : t.proc p = s.proc p
  keep : Keep p (fun i => H i ∨ s.FileRef p i) s t

theorem InvIf.entryStep (h : InvIf c sb s) (hs : EntrySet p i e l s t) (hf : Fits p i e l s)
    (hl : ∀ q ≠ p, e.lock = some q ↔ (s.icache i).lock = some q) : Step c sb p (· ∈ s.held p) s t :=
  ⟨h.setEntry hs hf, (hs.quiet hf).guar h (fun q hq => hs.private hq (hl q hq))
    (h.spares hs.disk (hs.quiet hf).inum fun _ => .inl ∘ (Target.congr hs.ftable hs.proc).mp), by rw [hs.proc],
    (hs.quiet hf).keep fun _ => h.ref_pos⟩

theorem count_cons_add (l : List (Fin NINODE)) (i j : Fin NINODE) (r : Nat) :
    (i :: l).count j + (if j = i then r else 0) = l.count j + (if j = i then r + 1 else 0) := by
  by_cases h : j = i
  · subst h
    simp only [count_cons_self, if_true]
    omega
  · rw [count_cons_of_ne (Ne.symm h)]
    simp [h]

theorem iget_step (h : InvIf c sb s) (hx : x < 2 ^ 16) (hr : s.iget p x = .ok (i, t)) :
    Step c sb p (· ∈ s.held p) s t ∧ t.held p = i :: s.held p ∧ (∀ j, (t.icache j).lock = (s.icache j).lock) ∧
      (t.icache i).inum = x ∧ t.disk = s.disk ∧ t.born = s.born := by
  rcases iget_inv hr with ⟨hpos, hinum, hs⟩ | ⟨h0, hno, hs⟩
  · refine ⟨h.entryStep hs ⟨fun j => count_cons_add _ _ j _, .inl ⟨hpos, rfl⟩, h.copy i hpos, fun q hq => ?_⟩ fun _ _ =>
      Iff.rfl, by rw [hs.held, update_self], fun j => ?_, by rw [hs.entry, ← hinum], hs.disk, hs.born⟩
    · exact ⟨(h.locked i q hq).1, fun _ => hq, fun _ => .inl mem_cons_self⟩
    · by_cases hj : j = i
      · subst hj
        rw [hs.entry]
      · rw [hs.entry_ne hj]
  · have hlock : ∀ q, (s.icache i).lock ≠ some q := fun q hq => by
      have := h.ref_pos_of_lock hq
      omega
    refine ⟨h.entryStep hs ⟨fun j => ?_, .inr ⟨h0, hx, hno⟩, fun hv => (by cases hv), fun q hq => absurd hq (hlock q)⟩
      fun _ _ => Iff.rfl, by rw [hs.held, update_self], fun j => ?_, by rw [hs.entry], hs.disk, hs.born⟩
    · have := count_cons_add (s.held p) i j 0
      simpa [h0] using this
    · by_cases hj : j = i
      · subst hj
        rw [hs.entry]
      · rw [hs.entry_ne hj]

theorem idup_step (h : InvIf c sb s) (hpos : 0 < (s.icache i).ref) (hr : s.idup p i = .ok ((), t)) :
    Step c sb p (· ∈ s.held p) s t ∧ t.held p = i :: s.held p ∧ ∀ j, (t.icache j).lock = (s.icache j).lock := by
  have hs := idup_inv hr
  refine ⟨h.entryStep hs ⟨fun j => count_cons_add _ _ j _, .inl ⟨hpos, rfl⟩, h.copy i hpos, fun q hq => ?_⟩ fun _ _ =>
    Iff.rfl, by rw [hs.held, update_self], fun j => ?_⟩
  · exact ⟨(h.locked i q hq).1, fun _ => hq, fun _ => .inl mem_cons_self⟩
  · by_cases hj : j = i
    · subst hj
      rw [hs.entry]
    · rw [hs.entry_ne hj]

theorem ilock_step (h : InvIf c sb s) (hi : i ∈ s.held p ∨ s.FileRef p i) (hr : s.ilock p i = .ok ((), t)) :
    Step c sb p (· ∈ s.held p) s t ∧ t.held p = s.held p ∧
      (∀ j, (t.icache j).lock = some p ↔ (s.icache j).lock = some p ∨ j = i) ∧ t.disk = s.disk := by
  obtain ⟨hpos, hnone, hs⟩ := ilock_inv hr
  obtain ⟨e, he, hinum, href, hs, hcopy, hv⟩ : ∃ e : Inode P, e.lock = some p ∧ e.inum = (s.icache i).inum ∧
      e.ref = (s.icache i).ref ∧ EntrySet p i e (s.held p) s t ∧
      (e.d = s.disk.dinode e.inum ∧ (s.disk.dinode e.inum).type ≠ .free) ∧ e.valid = true := by
    rcases hs with ⟨hv, hs⟩ | ⟨ht, hs⟩
    · exact ⟨{ s.icache i with lock := some p }, rfl, rfl, rfl, hs, h.copy i hpos hv, hv⟩
    · exact ⟨{ s.icache i with lock := some p, valid := true, d := s.disk.dinode (s.icache i).inum }, rfl, rfl, rfl, hs,
        ⟨rfl, ht⟩, rfl⟩
  refine ⟨h.entryStep hs ⟨fun j => by rw [href], .inl ⟨hpos, hinum⟩, fun _ => hcopy, fun q hq => ?_⟩ fun q hq => ?_,
    by rw [hs.held, update_self], fun j => ?_, hs.disk⟩
  · rw [he] at hq
    cases hq
    exact ⟨hv, fun hq => absurd rfl hq, fun _ => hi⟩
  · rw [he, hnone]
    simp [Ne.symm hq]
  · by_cases hj : j = i
    · subst hj
      simp [hs.entry, he]
    · simp [hs.entry_ne hj, hj]

theorem iunlock_step (h : InvIf c sb s) (hr : s.iunlock p i = .ok ((), t)) :
    Step c sb p (· ∈ s.held p) s t ∧ t.held p = s.held p ∧
      (∀ j, (t.icache j).lock = some p ↔ (s.icache j).lock = some p ∧ j ≠ i) ∧ t.disk = s.disk := by
  obtain ⟨hl, hs⟩ := iunlock_inv hr
  have hpos := h.ref_pos_of_lock hl
  refine ⟨h.entryStep hs ⟨fun j => rfl, .inl ⟨hpos, rfl⟩, h.copy i hpos, fun q hq => (by cases hq)⟩ fun q hq => ?_,
    by rw [hs.held, update_self], fun j => ?_, hs.disk⟩
  · rw [hl]
    simp [Ne.symm hq]
  · by_cases hj : j = i
    · subst hj
      simp [hs.entry]
    · simp [hs.entry_ne hj, hj]

theorem iputDrop_step (h : InvIf c sb s) (hi : i ∈ s.held p) (hl : (s.icache i).lock ≠ some p)
    (hr : s.iputDrop p i = .ok ((), t)) :
    Step c sb p (· ∈ s.held p) s t ∧ t.held p = (s.held p).erase i ∧ ∀ j, (t.icache j).lock = (s.icache j).lock := by
  have hs := iputDrop_inv hr
  have hpos := h.ref_pos (.inl hi)
  refine ⟨h.entryStep hs ⟨fun j => ?_, .inl ⟨hpos, rfl⟩, h.copy i hpos, fun q hq => ?_⟩ fun _ _ => Iff.rfl,
    by rw [hs.held, update_self], fun j => ?_⟩
  · by_cases hj : j = i
    · subst hj
      have := count_pos_iff.mpr hi
      simp only [count_erase_self, if_true]
      omega
    · rw [count_erase_of_ne hj]
      simp [hj]
  · exact ⟨(h.locked i q hq).1, fun _ => hq, fun hqp => absurd (hqp ▸ hq) hl⟩
  · by_cases hj : j = i
    · subst hj
      rw [hs.entry]
    · rw [hs.entry_ne hj]

end Xv6.Fs
