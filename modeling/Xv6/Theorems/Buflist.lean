import Xv6.Buflist

/-! The list of buffers is a move-to-front list, so a recycled buffer is the one least recently released. -/

namespace Xv6.Buflist
open LinkRing List Function

variable {s t : Buflist} {l : List (Fin NBUF)} {b : Fin NBUF} {op : Op}

/-- The links form one circle through all buffers, and from the front to the back a buffer was released before those in
    front of it, or never. -/
structure Ordered (s : Buflist) (l : List (Fin NBUF)) : Prop where
  ring : s.links.Reps l
  all : ∀ b, b ∈ l
  order : l.Pairwise fun i j => s.released j ≠ 0 → s.released j < s.released i

def Counted (s : Buflist) : Prop := ∀ b, s.released b ≤ s.releases

theorem reps_foldl {l₀ : List (Fin NBUF)} (bs : List (Fin NBUF)) (hd : bs.Nodup) {r : LinkRing (Fin NBUF)}
    (h : r.Reps l₀) (hn : ∀ b ∈ bs, b ∉ l₀) : (bs.foldl pushFront r).Reps (bs.reverse ++ l₀) := by
  induction bs generalizing r l₀ with
  | nil => exact h
  | cons b bs ih =>
    obtain ⟨hb, hd⟩ := nodup_cons.mp hd
    rw [foldl_cons, reverse_cons, append_assoc]
    refine ih hd (h.pushFront (hn b mem_cons_self)) fun c hc hm => ?_
    rcases mem_cons.mp hm with rfl | hm
    · exact hb hc
    · exact hn c (mem_cons_of_mem _ hc) hm

theorem reps_binit (r : LinkRing (Fin NBUF)) : (binit r).Reps (finRange NBUF).reverse := by
  have h := reps_foldl _ (nodup_finRange NBUF) (reps_clear r) fun _ _ => not_mem_nil
  rwa [append_nil] at h

theorem ordered_binit (r : LinkRing (Fin NBUF)) : Ordered { links := binit r } (finRange NBUF).reverse :=
  ⟨reps_binit r, fun b => mem_reverse.mpr (mem_finRange b), pairwise_of_forall fun _ _ h => absurd rfl h⟩

theorem Ordered.length (h : Ordered s l) : l.length = NBUF := by
  have hperm : l.Perm (finRange NBUF) :=
    (perm_ext_iff_of_nodup h.ring.nodup (nodup_finRange NBUF)).mpr fun b => iff_of_true (h.all b) (mem_finRange b)
  rw [hperm.length_eq, length_finRange]

/-- `bget` on the list: the search for the block starts at its front, the search for a buffer to recycle at its end. -/
theorem Ordered.bget_eq (h : Ordered s l) {turns : Nat} (ht : NBUF < turns) (dev blockno : UInt32) :
    s.bget turns dev blockno = some (match l.find? fun b => s.Cached dev blockno b with
      | some b => .ok (b, s.setBuf b { s.buf b with refcnt := (s.buf b).refcnt + 1 })
      | none =>
        match l.reverse.find? fun b => s.Unused b with
        | some b => .ok (b, s.setBuf b ⟨dev, blockno, false, false, 1⟩)
        | none => .error (.panic "bget: no buffers")) := by
  have hnext := PtrPath.search_eq (fun b => s.Cached dev blockno b) h.ring.seg.next_path (h.length ▸ ht)
  have hback : PtrPath s.links.prev (s.links.prev none) (l.reverse.map some) none := by
    rw [map_reverse]
    exact h.ring.seg.prev_path
  have hprev := PtrPath.search_eq (fun b => s.Unused b) hback (by rwa [length_reverse, h.length])
  rw [bget, hnext, hprev]
  cases l.find? fun b => s.Cached dev blockno b with
  | some b => rfl
  | none => cases l.reverse.find? fun b => s.Unused b <;> rfl

/-! ### Steps -/

theorem Ordered.setBuf (h : Ordered s l) (b : Fin NBUF) (x : BufHdr) : Ordered (s.setBuf b x) l :=
  ⟨h.ring, h.all, h.order⟩

theorem Ordered.released (h : Ordered s l) (hc : Counted s) (b : Fin NBUF) :
    Ordered { s with
      links := (s.links.unlink b).pushFront b
      releases := s.releases + 1
      released := update s.released b (s.releases + 1) } (b :: l.erase b) := by
  have hb := h.ring.nodup.not_mem_erase (a := b)
  refine ⟨(h.ring.unlink (h.all b)).pushFront hb, fun c => ?_, pairwise_cons.mpr ⟨fun j hj => ?_, ?_⟩⟩
  · by_cases hcb : c = b
    · exact hcb ▸ mem_cons_self
    · exact mem_cons_of_mem _ ((mem_erase_of_ne hcb).mpr (h.all c))
  · intro _
    have hne : j ≠ b := fun he => hb (he ▸ hj)
    dsimp only
    rw [update_self, update_of_ne hne]
    exact Nat.lt_succ_of_le (hc j)
  · have hother : ∀ j ∈ l.erase b, update s.released b (s.releases + 1) j = s.released j := fun j hj =>
      update_of_ne (fun he : j = b => hb (he ▸ hj)) _ _
    refine (h.order.sublist erase_sublist).imp_of_mem fun hi hj hij => ?_
    dsimp only
    rw [hother _ hi, hother _ hj]
    exact hij

def Inv (s : Buflist) : Prop := Counted s ∧ ∃ l, Ordered s l

theorem Inv.setBuf (h : Inv s) (b : Fin NBUF) (x : BufHdr) : Inv (s.setBuf b x) :=
  ⟨h.1, h.2.imp fun _ ho => ho.setBuf b x⟩

theorem Inv.step (h : Inv s) (hs : Step s op t) : Inv t := by
  cases hs with
  | flags => exact h.setBuf _ _
  | brelse =>
    rename_i b
    obtain ⟨hc, l, ho⟩ := h.setBuf b { s.buf b with refcnt := (s.buf b).refcnt - 1 }
    unfold brelse
    dsimp only
    split
    · refine ⟨fun c => ?_, _, ho.released hc b⟩
      dsimp only
      rw [update_apply]
      split
      · exact Nat.le_refl _
      · exact Nat.le_succ_of_le (hc c)
    · exact ⟨hc, l, ho⟩
  | bget hb =>
    unfold Buflist.bget at hb
    simp only [Option.bind_eq_bind, Option.bind_eq_some_iff] at hb
    obtain ⟨r, -, hb⟩ := hb
    split at hb
    · cases hb
      exact h.setBuf _ _
    · simp only [Option.bind_eq_some_iff] at hb
      obtain ⟨r, -, hb⟩ := hb
      split at hb
      · cases hb
        exact h.setBuf _ _
      · cases hb

theorem inv_of_reach (hr : machine.Reach s) : Inv s := by
  refine hr.invariant ?_ fun _ _ _ hi hs => hi.step hs
  rintro s ⟨r, rfl⟩
  exact ⟨fun _ => Nat.le_refl 0, _, ordered_binit r⟩

/-! ### Recycling -/

theorem Ordered.least (h : Ordered s l) (hb : l.reverse.find? (fun b => s.Unused b) = some b) :
    s.Unused b ∧ ∀ c, s.Unused c → s.released b ≤ s.released c := by
  obtain ⟨hu, l₁, l₂, hl, hnot⟩ := find?_eq_some_iff_append.mp hb
  refine ⟨of_decide_eq_true hu, fun c hc => ?_⟩
  have hl' : l = l₂.reverse ++ b :: l₁.reverse := by
    rw [← reverse_reverse l, hl]
    simp
  have hmem := h.all c
  have horder := h.order
  rw [hl'] at hmem horder
  rcases mem_append.mp hmem with hm | hm
  · have hcb := (pairwise_append.mp horder).2.2 c hm b mem_cons_self
    by_cases h0 : s.released b = 0
    · exact h0 ▸ Nat.zero_le _
    · exact (hcb h0).le
  · rcases mem_cons.mp hm with rfl | hm
    · exact Nat.le_refl _
    · exact absurd (decide_eq_true hc) (by simpa using hnot c (mem_reverse.mp hm))

/-- The links form one circle through the head and all buffers, in the order of their last release; and `bget` ends with
    the buffer that has the block, or else with the unused one that was least recently released, or else with a panic.
    -/
theorem buffers_in_release_order (hr : machine.Reach s) :
    ∃ l, Ordered s l ∧ (∀ x, s.links.prev (s.links.next x) = x ∧ s.links.next (s.links.prev x) = x) ∧
      ∀ dev blockno turns, NBUF < turns →
        (∃ b t, s.bget turns dev blockno = some (.ok (b, t)) ∧ (s.Cached dev blockno b ∨
          (∀ c, ¬s.Cached dev blockno c) ∧ s.Unused b ∧ ∀ c, s.Unused c → s.released b ≤ s.released c)) ∨
        s.bget turns dev blockno = some (.error (.panic "bget: no buffers")) ∧
          (∀ c, ¬s.Cached dev blockno c) ∧ ∀ c, ¬s.Unused c := by
  obtain ⟨-, l, h⟩ := inv_of_reach hr
  refine ⟨l, h, h.ring.inverse h.all, fun dev blockno turns ht => ?_⟩
  rw [h.bget_eq ht]
  cases hf : l.find? fun b => s.Cached dev blockno b with
  | some b =>
    have hb : s.Cached dev blockno b := by simpa using find?_some hf
    exact .inl ⟨b, _, rfl, .inl hb⟩
  | none =>
    have hmiss : ∀ c, ¬s.Cached dev blockno c := fun c => by simpa using find?_eq_none.mp hf c (h.all c)
    cases hu : l.reverse.find? fun b => s.Unused b with
    | some b => exact .inl ⟨b, _, rfl, .inr ⟨hmiss, h.least hu⟩⟩
    | none =>
      refine .inr ⟨rfl, hmiss, fun c => ?_⟩
      simpa using find?_eq_none.mp hu c (mem_reverse.mpr (h.all c))

/-- Two blocks are read, and the one that was read last is released first: the other one's buffer is in front of its
    buffer. -/
theorem buffers_in_release_order_two : ∃ s, machine.Reach s ∧ s.links.next none = some ⟨0, by decide⟩ ∧
    s.links.next (some ⟨0, by decide⟩) = some ⟨1, by decide⟩ ∧ s.released ⟨1, by decide⟩ = 1 ∧
    s.released ⟨0, by decide⟩ = 2 ∧ ∃ l, Ordered s l := by
  have hinit : machine.Reach { links := binit ⟨id, id⟩ } := .init ⟨_, rfl⟩
  obtain ⟨t, ht, u, hu, s, hs, hn⟩ : ∃ t, Buflist.bget { links := binit ⟨id, id⟩ } (NBUF + 1) 1 7 =
      some (.ok (⟨0, by decide⟩, t)) ∧ ∃ u, t.bget (NBUF + 1) 1 8 = some (.ok (⟨1, by decide⟩, u)) ∧
      ∃ s, (u.brelse ⟨1, by decide⟩).brelse ⟨0, by decide⟩ = s ∧ s.links.next none = some ⟨0, by decide⟩ ∧
      s.links.next (some ⟨0, by decide⟩) = some ⟨1, by decide⟩ ∧ s.released ⟨1, by decide⟩ = 1 ∧
      s.released ⟨0, by decide⟩ = 2 := ⟨_, rfl, _, rfl, _, rfl, rfl, rfl, rfl, rfl⟩
  have hreach : machine.Reach s := by
    rw [← hs]
    exact (((hinit.step (.bget ht)).step (.bget hu)).step (Step.brelse)).step Step.brelse
  obtain ⟨l, hl, -⟩ := buffers_in_release_order hreach
  exact ⟨s, hreach, hn.1, hn.2.1, hn.2.2.1, hn.2.2.2, l, hl⟩

end Xv6.Buflist
