import Xv6.Bio
import Xv6.Lib.Fail

/-! Every block has one current contents: in its buffer if that is valid, and on the disk unless the buffer is
    pinned, by B_DIRTY or by a user that has changed it. -/

namespace Xv6
open List Except

structure Buf.Ok {P : Type} (b : Buf P) (V : Nat → Block) (changed : Prop) : Prop where
  valid : b.valid → b.dev = ROOTDEV ∧ b.data = V b.blockno
  pinned : b.dirty ∨ changed → b.valid
  refcnt : b.refcnt = if b.lock.isSome then 1 else 0
  locked : b.lock.isSome → b.dev = ROOTDEV
  held : changed → b.lock.isSome

namespace Store

variable {P : Type} {s t : Store P} {p : P} {i j : Fin NBUF} {n : Nat} {b : Buf P} {d : Block}
  {V V' : Nat → Block} {U U' : Fin NBUF → Prop}

/-! ### The contents of the blocks -/

/-- The cache and the disk hold the contents `V`, where the users of the buffers in `U` have changed them
    and not passed them on. -/
structure Caches (s : Store P) (V : Nat → Block) (U : Fin NBUF → Prop) : Prop where
  mem : ∀ i, i ∈ s.mru
  uniq : ∀ i j, (s.buf i).dev = ROOTDEV → (s.buf j).dev = ROOTDEV → (s.buf i).blockno = (s.buf j).blockno → i = j
  buf : ∀ i, (s.buf i).Ok V (U i)
  clean : ∀ n, (∀ i, (s.buf i).dev = ROOTDEV → (s.buf i).blockno = n → ¬((s.buf i).dirty ∨ U i)) →
    s.disk n = V n

theorem Caches.boot {d : Nat → Block} : Caches ({ disk := d } : Store P) d fun _ => False where
  mem i := by simp
  uniq i j h := by simp [ROOTDEV] at h
  buf i := ⟨by simp, by simp, by simp, by simp, by simp⟩
  clean n h := rfl

theorem Caches.set (h : Caches s V U) (hmem : ∀ j, j ∈ t.mru) (hother : ∀ j, j ≠ i → t.buf j = s.buf j)
    (hdev : (t.buf i).dev = ROOTDEV)
    (hold : (s.buf i).dev = ROOTDEV → (s.buf i).blockno = (t.buf i).blockno ∨ ¬((s.buf i).dirty ∨ U i))
    (hnew : ∀ j, j ≠ i → (s.buf j).dev = ROOTDEV → (s.buf j).blockno ≠ (t.buf i).blockno)
    (hok : (t.buf i).Ok V' (U' i)) (hU : ∀ j, j ≠ i → (U' j ↔ U j))
    (hV : ∀ m, m ≠ (t.buf i).blockno → V' m = V m ∧ t.disk m = s.disk m)
    (hclean : ¬((t.buf i).dirty ∨ U' i) → t.disk (t.buf i).blockno = V' (t.buf i).blockno) : Caches t V' U' where
  mem := hmem
  uniq j k hj hk hjk := by
    by_cases hji : j = i <;> by_cases hki : k = i
    · rw [hji, hki]
    · subst hji
      rw [hother k hki] at hk hjk
      exact absurd hjk.symm (hnew k hki hk)
    · subst hki
      rw [hother j hji] at hj hjk
      exact absurd hjk (hnew j hji hj)
    · rw [hother j hji] at hj hjk
      rw [hother k hki] at hk hjk
      exact h.uniq j k hj hk hjk
  buf j := by
    by_cases hji : j = i
    · subst hji
      exact hok
    · rw [hother j hji]
      have hb := h.buf j
      refine ⟨fun hv => ?_, fun hp => hb.pinned (hp.imp_right (hU j hji).mp), hb.refcnt, hb.locked,
        fun hu => hb.held ((hU j hji).mp hu)⟩
      obtain ⟨h1, h2⟩ := hb.valid hv
      exact ⟨h1, by rw [h2, (hV _ (hnew j hji h1)).1]⟩
  clean m hm := by
    by_cases hmi : m = (t.buf i).blockno
    · subst hmi
      exact hclean (hm i hdev rfl)
    · obtain ⟨h1, h2⟩ := hV m hmi
      rw [h1, h2]
      refine h.clean m fun j hj hjm => ?_
      by_cases hji : j = i
      · subst hji
        rcases hold hj with he | he
        · exact absurd (hjm.symm.trans he) hmi
        · exact he
      · have := hm j (by rw [hother j hji]; exact hj) (by rw [hother j hji]; exact hjm)
        rwa [hother j hji, hU j hji] at this

theorem Caches.not_changed (h : Caches s V U) (hl : (s.buf i).lock = none) : ¬U i := by
  intro hu
  simpa [hl] using (h.buf i).held hu

theorem Caches.disk_eq (h : Caches s V U) (hd : (s.buf i).dev = ROOTDEV) (hp : ¬((s.buf i).dirty ∨ U i)) :
    s.disk (s.buf i).blockno = V (s.buf i).blockno := by
  refine h.clean _ fun j hj hn => ?_
  rw [h.uniq j i hj hd hn]
  exact hp

theorem Caches.ne_blockno (h : Caches s V U) (hd : (s.buf i).dev = ROOTDEV) (hji : j ≠ i)
    (hj : (s.buf j).dev = ROOTDEV) : (s.buf j).blockno ≠ (s.buf i).blockno :=
  fun hn => hji (h.uniq j i hj hd hn)

theorem Caches.use (h : Caches s V U) (hdev : (s.buf i).dev = ROOTDEV) (hmru : t.mru = s.mru)
    (hother : ∀ j, j ≠ i → t.buf j = s.buf j) (hd : (t.buf i).dev = (s.buf i).dev)
    (hn : (t.buf i).blockno = (s.buf i).blockno) (hok : (t.buf i).Ok V' (U' i)) (hU : ∀ j, j ≠ i → (U' j ↔ U j))
    (hV : ∀ m, m ≠ (s.buf i).blockno → V' m = V m ∧ t.disk m = s.disk m)
    (hclean : ¬((t.buf i).dirty ∨ U' i) → t.disk (s.buf i).blockno = V' (s.buf i).blockno) : Caches t V' U' := by
  refine h.set (i := i) (fun j => by rw [hmru]; exact h.mem j) hother (hd.trans hdev) (fun _ => .inl hn.symm)
    (fun j hji hj => ?_) hok hU (fun m hm => hV m (hn ▸ hm)) fun hp => ?_
  · rw [hn]
    exact h.ne_blockno hdev hji hj
  · rw [hn]
    exact hclean hp

/-! ### bread -/

@[simp] theorem setBuf_buf_self : (s.setBuf i b).buf i = b := by simp [setBuf]

theorem setBuf_buf_of_ne (h : j ≠ i) : (s.setBuf i b).buf j = s.buf j := by simp [setBuf, h]

structure Got (s t : Store P) (p : P) (n : Nat) (i : Fin NBUF) : Prop where
  disk : t.disk = s.disk
  writes : t.writes = s.writes
  other : ∀ j, j ≠ i → t.buf j = s.buf j
  free : (s.buf i).lock = none
  lock : (t.buf i).lock = some p
  blockno : (t.buf i).blockno = n
  dirty : (t.buf i).dirty = (s.buf i).dirty

theorem acquire_ok (h : s.acquire p i b = .ok (j, t)) :
    b.lock = none ∧ j = i ∧ t = s.setBuf i { b with lock := some p } := by
  unfold acquire at h
  split_ifs at h with hl
  cases h
  exact ⟨by simpa using hl, rfl, rfl⟩

theorem acquire_total (hl : b.lock = none) : s.acquire p i b = .ok (i, s.setBuf i { b with lock := some p }) := by
  simp [acquire, hl]

theorem Caches.bget (h : Caches s V U) (hb : s.bget p n = .ok (i, t)) : Caches t V U ∧ Got s t p n i := by
  unfold Store.bget at hb
  split at hb
  · -- The block is cached already.
    next k hk =>
    have hk := find?_some hk
    simp only [decide_eq_true_eq] at hk
    obtain ⟨hl, rfl, rfl⟩ := acquire_ok hb
    simp only at hl
    have hbuf := h.buf i
    refine ⟨h.use (i := i) hk.1 rfl (fun j => setBuf_buf_of_ne) (by simp) (by simp) ?_ (fun _ _ => Iff.rfl)
      (fun _ _ => ⟨rfl, rfl⟩) ?_, rfl, rfl, fun j => setBuf_buf_of_ne, hl, by simp, by simp [hk.2], by simp⟩
    · rw [setBuf_buf_self]
      exact ⟨hbuf.valid, hbuf.pinned, by simp [hbuf.refcnt, hl], fun _ => hk.1, by simp⟩
    · rw [setBuf_buf_self]
      exact h.disk_eq hk.1
  · next hnone =>
    -- No buffer has block `n`, so the disk has its contents.
    simp only [find?_eq_none, decide_eq_true_eq, not_and] at hnone
    have hno : ∀ j, (s.buf j).dev = ROOTDEV → (s.buf j).blockno ≠ n := fun j => hnone j (h.mem j)
    split at hb
    · next k hk =>
      have hk := find?_some hk
      simp only [decide_eq_true_eq] at hk
      obtain ⟨hl, rfl, rfl⟩ := acquire_ok hb
      simp only at hl
      have hu := h.not_changed hl
      refine ⟨h.set (i := i) h.mem (fun j => setBuf_buf_of_ne) (by simp) ?_ ?_ ?_ (fun _ _ => Iff.rfl)
        (fun _ _ => ⟨rfl, rfl⟩) ?_, rfl, rfl, fun j => setBuf_buf_of_ne, hl, by simp, by simp, by simp [hk.2]⟩
      · intro _
        exact .inr (by simp [hk.2, hu])
      · intro j _ hj
        simpa using hno j hj
      · rw [setBuf_buf_self]
        exact ⟨by simp, by simp [hu], by simp, by simp, by simp⟩
      · intro _
        rw [setBuf_buf_self]
        exact h.clean n fun j hj hjn => absurd hjn (hno j hj)
    · cases hb

theorem iderw_read [DecidableEq P] (hl : (s.buf i).lock = some p) (hd : (s.buf i).dirty = false)
    (hv : ¬(s.buf i).valid) :
    s.iderw p i = .ok (s.setBuf i { s.buf i with valid := true, data := s.disk (s.buf i).blockno }) := by
  simp [iderw, hl, hd, hv]

theorem Caches.bread [DecidableEq P] (h : Caches s V U) (hb : s.bread p n = .ok (i, t)) :
    Caches t V U ∧ Got s t p n i ∧ (t.buf i).valid ∧ (t.buf i).data = V n := by
  obtain ⟨⟨k, u⟩, hg, hb⟩ := bind_eq_ok.mp hb
  obtain ⟨hc, hgot⟩ := h.bget hg
  simp only at hb
  split at hb
  · next hv =>
    cases hb
    exact ⟨hc, hgot, hv, by rw [((hc.buf i).valid hv).2, hgot.blockno]⟩
  · next hv =>
    obtain ⟨v, hr, hb⟩ := bind_eq_ok.mp hb
    cases hb
    have hbuf := hc.buf i
    have hlock : (u.buf i).lock.isSome := by simp [hgot.lock]
    have hdev := hbuf.locked hlock
    -- An invalid buffer is not pinned, so the disk has the contents that `iderw` reads.
    have hpin : ¬((u.buf i).dirty ∨ U i) := fun hp => hv (hbuf.pinned hp)
    have hdirty : (u.buf i).dirty = false := by simpa using fun hd => hpin (.inl hd)
    have hdisk := hc.disk_eq hdev hpin
    rw [iderw_read hgot.lock hdirty hv] at hr
    cases hr
    refine ⟨hc.use (i := i) hdev rfl (fun j => setBuf_buf_of_ne) (by simp) (by simp) ?_ (fun _ _ => Iff.rfl)
      (fun _ _ => ⟨rfl, rfl⟩) ?_, ⟨hgot.disk, hgot.writes, ?_, hgot.free, by simpa using hgot.lock,
      by simpa using hgot.blockno, by simpa using hgot.dirty⟩, by simp, ?_⟩
    · rw [setBuf_buf_self]
      exact ⟨fun _ => ⟨hdev, hdisk⟩, by simp, hbuf.refcnt, fun _ => hdev, hbuf.held⟩
    · intro _
      exact hdisk
    · intro j hj
      rw [setBuf_buf_of_ne hj, hgot.other j hj]
    · rw [setBuf_buf_self, ← hgot.blockno]
      exact hdisk

/-! ### Using a buffer -/

theorem Caches.setData (h : Caches s V U) (hl : (s.buf i).lock = some p) (hv : (s.buf i).valid) :
    Caches (s.setData i d) (Function.update V (s.buf i).blockno d) fun j => U j ∨ j = i := by
  have hbuf := h.buf i
  have hlock : (s.buf i).lock.isSome := by simp [hl]
  have hdev := hbuf.locked hlock
  refine h.use (i := i) hdev rfl (fun j => setBuf_buf_of_ne) (by simp [Store.setData]) (by simp [Store.setData])
    ?_ (fun j hj => by simp [hj]) (fun m hm => ⟨by simp [hm], rfl⟩) (by simp)
  simp only [Store.setData, setBuf_buf_self]
  exact ⟨fun _ => ⟨hdev, by simp⟩, fun _ => hv, hbuf.refcnt, fun _ => hdev, fun _ => hlock⟩

theorem Caches.setDirty (h : Caches s V U) (hl : (s.buf i).lock = some p) (hv : (s.buf i).valid) :
    Caches (s.setBuf i { s.buf i with dirty := true }) V fun j => U j ∧ j ≠ i := by
  have hbuf := h.buf i
  have hlock : (s.buf i).lock.isSome := by simp [hl]
  have hdev := hbuf.locked hlock
  refine h.use (i := i) hdev rfl (fun j => setBuf_buf_of_ne) (by simp) (by simp)
    ?_ (fun j hj => by simp [hj]) (fun m hm => ⟨rfl, rfl⟩) (by simp)
  rw [setBuf_buf_self]
  exact ⟨hbuf.valid, fun _ => hv, hbuf.refcnt, hbuf.locked, fun hu => hbuf.held hu.1⟩

def put (s : Store P) (i : Fin NBUF) (d : Block) : Store P :=
  { s.setBuf i { s.buf i with valid := true, dirty := false, data := d } with
    disk := Function.update s.disk (s.buf i).blockno d, writes := s.writes ++ [((s.buf i).blockno, d)] }

theorem put_buf_of_ne (h : j ≠ i) : (s.put i d).buf j = s.buf j := setBuf_buf_of_ne h

theorem put_buf_self : (s.put i d).buf i = { s.buf i with valid := true, dirty := false, data := d } :=
  setBuf_buf_self

theorem Caches.put (h : Caches s V U) (hl : (s.buf i).lock = some p) (hu : ¬U i) :
    Caches (s.put i d) (Function.update V (s.buf i).blockno d) U := by
  have hbuf := h.buf i
  have hlock : (s.buf i).lock.isSome := by simp [hl]
  have hdev := hbuf.locked hlock
  refine h.use (i := i) hdev rfl (fun j => put_buf_of_ne) (by simp [put_buf_self]) (by simp [put_buf_self])
    ?_ (fun _ _ => Iff.rfl) (fun m hm => ⟨by simp [hm], by simp [Store.put, hm]⟩) (by simp [Store.put])
  rw [put_buf_self]
  exact ⟨fun _ => ⟨hdev, by simp⟩, by simp [hu], hbuf.refcnt, fun _ => hdev, hbuf.held⟩

variable [DecidableEq P]

theorem bwrite_eq (hl : (s.buf i).lock = some p) : s.bwrite p i =
    .ok { s.setBuf i { s.buf i with valid := true, dirty := false } with
      disk := Function.update s.disk (s.buf i).blockno (s.buf i).data
      writes := s.writes ++ [((s.buf i).blockno, (s.buf i).data)] } := by
  simp only [bwrite, iderw, setBuf_buf_self, hl]
  simp [setBuf]

theorem bwrite_setData (hl : (s.buf i).lock = some p) : (s.setData i d).bwrite p i = .ok (s.put i d) := by
  rw [bwrite_eq (by simpa [Store.setData] using hl)]
  simp [Store.setData, put, setBuf]

theorem Caches.brelse (h : Caches s V U) (hl : (s.buf i).lock = some p) (hu : ¬U i) :
    ∃ t, s.brelse p i = .ok t ∧ Caches t V U ∧ t.disk = s.disk ∧ t.writes = s.writes ∧
      (∀ j, j ≠ i → t.buf j = s.buf j) ∧ t.buf i = { s.buf i with lock := none, refcnt := 0 } := by
  have hbuf := h.buf i
  have hlock : (s.buf i).lock.isSome := by simp [hl]
  have hdev := hbuf.locked hlock
  have hr : (s.buf i).refcnt - 1 = 0 := by simp [hbuf.refcnt, hlock]
  refine ⟨{ s.setBuf i { s.buf i with lock := none, refcnt := 0 } with mru := i :: s.mru.erase i }, ?_, ?_, rfl, rfl,
    fun j => setBuf_buf_of_ne, setBuf_buf_self⟩
  · simp only [Store.brelse, hl, setBuf_buf_self, hr]
    simp [setBuf]
  · have hself : (s.setBuf i { s.buf i with lock := none, refcnt := 0 }).buf i =
        { s.buf i with lock := none, refcnt := 0 } := setBuf_buf_self
    refine h.set (i := i) (fun j => ?_) (fun j => setBuf_buf_of_ne) ?_ ?_ ?_ ?_ (fun _ _ => Iff.rfl)
      (fun _ _ => ⟨rfl, rfl⟩) ?_
    · by_cases hj : j = i
      · simp [hj]
      · exact mem_cons_of_mem i ((mem_erase_of_ne hj).mpr (h.mem j))
    all_goals simp only [hself]
    · exact hdev
    · exact fun _ => .inl trivial
    · exact fun j hj hd => h.ne_blockno hdev hj hd
    · exact ⟨hbuf.valid, hbuf.pinned, by simp, by simp, fun hu' => absurd hu' hu⟩
    · exact h.disk_eq hdev

theorem Caches.bread_total (h : Caches s V U) (hfree : ∃ j, (s.buf j).lock = none ∧ (s.buf j).dirty = false)
    (hn : ∀ j, (s.buf j).dev = ROOTDEV → (s.buf j).blockno = n → (s.buf j).lock = none) :
    ∃ i t, s.bread p n = .ok (i, t) := by
  have hget : ∃ i t, s.bget p n = .ok (i, t) := by
    unfold Store.bget
    split
    · next k hk =>
      have hk := find?_some hk
      simp only [decide_eq_true_eq] at hk
      exact ⟨k, _, acquire_total (hn k hk.1 hk.2)⟩
    · split
      · next k hk =>
        have hk := find?_some hk
        simp only [decide_eq_true_eq] at hk
        have hl : (s.buf k).lock = none := by
          have := (h.buf k).refcnt
          rw [hk.1] at this
          by_contra hl
          simp [Option.isSome_iff_ne_none.mpr hl] at this
        exact ⟨k, _, acquire_total hl⟩
      · next hnone =>
        simp only [find?_eq_none, mem_reverse, decide_eq_true_eq, not_and] at hnone
        obtain ⟨j, hl, hd⟩ := hfree
        exact absurd hd (hnone j (h.mem j) (by simp [(h.buf j).refcnt, hl]))
  obtain ⟨i, u, hg⟩ := hget
  obtain ⟨hc, hgot⟩ := h.bget hg
  by_cases hv : (u.buf i).valid
  · refine ⟨i, u, bind_eq_ok.mpr ⟨_, hg, ?_⟩⟩
    simp [hv]
  · have hdirty : (u.buf i).dirty = false := by simpa using fun hd => hv ((hc.buf i).pinned (.inl hd))
    obtain ⟨v, hr⟩ : ∃ v, u.iderw p i = .ok v := ⟨_, iderw_read hgot.lock hdirty hv⟩
    refine ⟨i, v, bind_eq_ok.mpr ⟨(i, u), hg, ?_⟩⟩
    simp only [hv]
    exact bind_eq_ok.mpr ⟨v, hr, rfl⟩

end Store
end Xv6
