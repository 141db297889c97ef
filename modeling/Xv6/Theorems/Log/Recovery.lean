import Xv6.Journal
import Xv6.Lib.Redo
import Xv6.Theorems.Bio

/-! Recovery: each turn of a loop of log.c writes one block and leaves every buffer as it found it, so
    `recover_from_log` gets through on every recoverable disk, and after any number of crashes on its way. -/

namespace Xv6
open Function Except List
namespace Store

variable {P : Type} {s t u : Store P} {p : P} {i j : Fin NBUF} {n a b start tail : Nat} {d : Block}
  {V : Nat → Block} {U : Fin NBUF → Prop}

/-! ### The turns -/

structure Turned (s t : Store P) (a : Nat) (d : Block) : Prop where
  disk : t.disk = update s.disk a d
  writes : t.writes = s.writes ++ [(a, d)]
  lock : ∀ k, (t.buf k).lock = (s.buf k).lock
  other : ∀ k, (s.buf k).lock.isSome → t.buf k = s.buf k
  dirty : ∀ k, (t.buf k).dirty → (s.buf k).dirty

variable [DecidableEq P]

structure GotTwo (s t : Store P) (p : P) (a b : Nat) (i j : Fin NBUF) : Prop where
  ne : i ≠ j
  disk : t.disk = s.disk
  writes : t.writes = s.writes
  other : ∀ k, k ≠ i → k ≠ j → t.buf k = s.buf k
  freeLeft : (s.buf i).lock = none
  freeRight : (s.buf j).lock = none
  lockLeft : (t.buf i).lock = some p
  lockRight : (t.buf j).lock = some p
  blocknoLeft : (t.buf i).blockno = a
  blocknoRight : (t.buf j).blockno = b
  dirty : ∀ k, (t.buf k).dirty = (s.buf k).dirty

theorem Caches.breadTwo (h : Caches s V U) (h1 : s.bread p a = .ok (i, t)) (h2 : t.bread p b = .ok (j, u)) :
    Caches u V U ∧ GotTwo s u p a b i j ∧ (u.buf i).data = V a ∧ (u.buf j).data = V b ∧ ¬U i ∧ ¬U j := by
  obtain ⟨hc1, g1, -, hd1⟩ := h.bread h1
  obtain ⟨hc2, g2, -, hd2⟩ := hc1.bread h2
  have hne : i ≠ j := by
    rintro rfl
    exact absurd g2.free (by simp [g1.lock])
  have hi := g2.other i hne
  have hj := g1.other j hne.symm
  have hfree := g2.free
  rw [hj] at hfree
  refine ⟨hc2, ⟨hne, g2.disk.trans g1.disk, g2.writes.trans g1.writes, fun k hki hkj => ?_, g1.free, hfree,
    by rw [hi, g1.lock], g2.lock, by rw [hi, g1.blockno], g2.blockno, fun k => ?_⟩, by rw [hi, hd1], hd2,
    h.not_changed g1.free, h.not_changed hfree⟩
  · rw [g2.other k hkj, g1.other k hki]
  · by_cases hkj : k = j
    · subst hkj
      rw [g2.dirty, hj]
    · rw [g2.other k hkj]
      by_cases hki : k = i
      · subst hki
        exact g1.dirty
      · rw [g1.other k hki]

theorem Caches.brelseTwo (h : Caches s V U) (hne : i ≠ j) (hi : (s.buf i).lock = some p)
    (hj : (s.buf j).lock = some p) (hui : ¬U i) (huj : ¬U j) :
    ∃ t, (s.brelse p i >>= fun s => s.brelse p j) = .ok t ∧ Caches t V U ∧ t.disk = s.disk ∧ t.writes = s.writes ∧
      (∀ k, k ≠ i → k ≠ j → t.buf k = s.buf k) ∧ (t.buf i).lock = none ∧ (t.buf j).lock = none ∧
      ∀ k, (t.buf k).dirty = (s.buf k).dirty := by
  obtain ⟨s1, h1, hc1, hd1, hw1, ho1, hi1⟩ := h.brelse hi hui
  have hj1 := ho1 j hne.symm
  obtain ⟨s2, h2, hc2, hd2, hw2, ho2, hj2⟩ := hc1.brelse (hj1 ▸ hj) huj
  refine ⟨s2, bind_eq_ok.mpr ⟨s1, h1, h2⟩, hc2, hd2.trans hd1, hw2.trans hw1, fun k hki hkj => ?_,
    by rw [ho2 i hne, hi1], by rw [hj2], fun k => ?_⟩
  · rw [ho2 k hkj, ho1 k hki]
  · by_cases hkj : k = j
    · subst hkj
      rw [hj2, hj1]
    · rw [ho2 k hkj]
      by_cases hki : k = i
      · subst hki
        rw [hi1]
      · rw [ho1 k hki]

theorem GotTwo.finish {x y z : Fin NBUF} (hc : Caches u V U) (g : GotTwo s u p a b i j) (hui : ¬U i) (huj : ¬U j)
    (hx : x = i ∨ x = j) (hyz : y = i ∧ z = j ∨ y = j ∧ z = i) :
    ∃ t, ((u.setData x d).bwrite p x >>= fun s => s.brelse p y >>= fun s => s.brelse p z) = .ok t ∧
      Turned s t (u.buf x).blockno d ∧ Caches t (update V (u.buf x).blockno d) U := by
  have hlx : (u.buf x).lock = some p := by
    rcases hx with rfl | rfl
    · exact g.lockLeft
    · exact g.lockRight
  have hux : ¬U x := by
    rcases hx with rfl | rfl
    · exact hui
    · exact huj
  have hc1 : Caches (u.put x d) (update V (u.buf x).blockno d) U := hc.put hlx hux
  have hput : ∀ k, ((u.put x d).buf k).lock = (u.buf k).lock ∧
      (((u.put x d).buf k).dirty → (u.buf k).dirty) := by
    intro k
    by_cases hk : k = x
    · subst hk
      simp [put_buf_self]
    · simp [put_buf_of_ne hk]
  have hyzne : y ≠ z := by
    rcases hyz with ⟨rfl, rfl⟩ | ⟨rfl, rfl⟩
    · exact g.ne
    · exact g.ne.symm
  have hly : (u.buf y).lock = some p ∧ (u.buf z).lock = some p ∧ ¬U y ∧ ¬U z := by
    rcases hyz with ⟨rfl, rfl⟩ | ⟨rfl, rfl⟩
    · exact ⟨g.lockLeft, g.lockRight, hui, huj⟩
    · exact ⟨g.lockRight, g.lockLeft, huj, hui⟩
  obtain ⟨t, ht, hct, hd, hw, ho, hy, hz, hdirty⟩ :=
    hc1.brelseTwo hyzne ((hput y).1.trans hly.1) ((hput z).1.trans hly.2.1) hly.2.2.1 hly.2.2.2
  -- The buffers other than the two are those of `s`.
  have hother : ∀ k, k ≠ i → k ≠ j → t.buf k = s.buf k := by
    intro k hki hkj
    have hkx : k ≠ x := by
      rcases hx with rfl | rfl
      · exact hki
      · exact hkj
    have hkyz : k ≠ y ∧ k ≠ z := by
      rcases hyz with ⟨rfl, rfl⟩ | ⟨rfl, rfl⟩
      · exact ⟨hki, hkj⟩
      · exact ⟨hkj, hki⟩
    rw [ho k hkyz.1 hkyz.2, put_buf_of_ne hkx, g.other k hki hkj]
  have hfree : (t.buf i).lock = none ∧ (t.buf j).lock = none := by
    rcases hyz with ⟨rfl, rfl⟩ | ⟨rfl, rfl⟩
    · exact ⟨hy, hz⟩
    · exact ⟨hz, hy⟩
  refine ⟨t, bind_eq_ok.mpr ⟨_, bwrite_setData hlx, ht⟩, ⟨?_, ?_, fun k => ?_, fun k hk => ?_, fun k hk => ?_⟩, hct⟩
  · rw [hd, ← g.disk]
    rfl
  · rw [hw, ← g.writes]
    rfl
  · by_cases hki : k = i
    · rw [hki, hfree.1, g.freeLeft]
    · by_cases hkj : k = j
      · rw [hkj, hfree.2, g.freeRight]
      · rw [hother k hki hkj]
  · refine hother k ?_ ?_
    · rintro rfl
      simp [g.freeLeft] at hk
    · rintro rfl
      simp [g.freeRight] at hk
  · rw [hdirty] at hk
    rw [← g.dirty]
    exact (hput k).2 hk

section

variable (h : Caches s V U)
include h

theorem Caches.installTurn_of (h1 : s.bread p (start + tail + 1) = .ok (i, t))
    (h2 : t.bread p b = .ok (j, u)) : ∃ v, s.installTurn p start tail b = .ok v ∧
      Turned s v b (V (start + tail + 1)) ∧ Caches v (update V b (V (start + tail + 1))) U := by
  obtain ⟨hc, g, hdi, -, hui, huj⟩ := h.breadTwo h1 h2
  obtain ⟨v, hv, ht, hcv⟩ := g.finish (d := (u.buf i).data) hc hui huj (.inr rfl) (.inl ⟨rfl, rfl⟩)
  rw [g.blocknoRight, hdi] at ht hcv
  exact ⟨v, bind_eq_ok.mpr ⟨_, h1, bind_eq_ok.mpr ⟨_, h2, hv⟩⟩, ht, hcv⟩

theorem Caches.writeLogTurn_of (h1 : s.bread p (start + tail + 1) = .ok (i, t))
    (h2 : t.bread p b = .ok (j, u)) : ∃ v, s.writeLogTurn p start tail b = .ok v ∧
      Turned s v (start + tail + 1) (V b) ∧ Caches v (update V (start + tail + 1) (V b)) U := by
  obtain ⟨hc, g, -, hdj, hui, huj⟩ := h.breadTwo h1 h2
  obtain ⟨v, hv, ht, hcv⟩ := g.finish (d := (u.buf j).data) hc hui huj (.inl rfl) (.inr ⟨rfl, rfl⟩)
  rw [g.blocknoLeft, hdj] at ht hcv
  exact ⟨v, bind_eq_ok.mpr ⟨_, h1, bind_eq_ok.mpr ⟨_, h2, hv⟩⟩, ht, hcv⟩

theorem Caches.writeHead_of (lh : List Nat) (h1 : s.bread p start = .ok (i, t)) :
    ∃ v, s.writeHead p start lh = .ok v ∧ Turned s v start (withHead lh (V start)) ∧
      Caches v (update V start (withHead lh (V start))) U := by
  obtain ⟨hc, g, -, hd⟩ := h.bread h1
  have hu := h.not_changed g.free
  have hc1 : Caches (t.put i (withHead lh (V start))) (update V (t.buf i).blockno (withHead lh (V start))) U :=
    hc.put g.lock hu
  obtain ⟨v, hv, hcv, hdv, hwv, hov, hiv⟩ := hc1.brelse (p := p) (by rw [put_buf_self]; exact g.lock) hu
  rw [g.blockno] at hcv
  have hbw : (t.setData i (withHead lh (t.buf i).data)).bwrite p i = .ok (t.put i (withHead lh (V start))) := by
    rw [bwrite_setData g.lock, hd]
  refine ⟨v, bind_eq_ok.mpr ⟨_, h1, bind_eq_ok.mpr ⟨_, hbw, hv⟩⟩, ⟨?_, ?_, fun k => ?_, fun k hk => ?_,
    fun k hk => ?_⟩, hcv⟩
  · rw [hdv, ← g.disk, ← g.blockno]
    rfl
  · rw [hwv, ← g.writes, ← g.blockno]
    rfl
  · by_cases hki : k = i
    · subst hki
      rw [hiv, g.free]
    · rw [hov k hki, put_buf_of_ne hki, g.other k hki]
  · have hki : k ≠ i := by
      rintro rfl
      simp [g.free] at hk
    rw [hov k hki, put_buf_of_ne hki, g.other k hki]
  · by_cases hki : k = i
    · subst hki
      simp [hiv, put_buf_self] at hk
    · rwa [hov k hki, put_buf_of_ne hki, g.other k hki] at hk

theorem Caches.readHead_of (h1 : s.bread p start = .ok (i, t)) :
    ∃ v, s.readHead p start = .ok (headOf (V start), v) ∧ Caches v V U ∧ v.disk = s.disk ∧ v.writes = s.writes ∧
      (∀ k, (v.buf k).lock = (s.buf k).lock) ∧ ∀ k, (v.buf k).dirty = (s.buf k).dirty := by
  obtain ⟨hc, g, -, hd⟩ := h.bread h1
  obtain ⟨v, hv, hcv, hdv, hwv, hov, hiv⟩ := hc.brelse g.lock (h.not_changed g.free)
  refine ⟨v, ?_, hcv, hdv.trans g.disk, hwv.trans g.writes, fun k => ?_, fun k => ?_⟩
  · rw [← hd]
    exact bind_eq_ok.mpr ⟨_, h1, bind_eq_ok.mpr ⟨_, hv, rfl⟩⟩
  · by_cases hki : k = i
    · subst hki
      rw [hiv, g.free]
    · rw [hov k hki, g.other k hki]
  · by_cases hki : k = i
    · subst hki
      rw [hiv, ← g.dirty]
    · rw [hov k hki, g.other k hki]

theorem Caches.installTurn (ht : s.installTurn p start tail b = .ok t) :
    Turned s t b (V (start + tail + 1)) ∧ Caches t (update V b (V (start + tail + 1))) U := by
  obtain ⟨⟨i, s1⟩, h1, ht'⟩ := bind_eq_ok.mp ht
  obtain ⟨⟨j, s2⟩, h2, -⟩ := bind_eq_ok.mp ht'
  obtain ⟨v, hv, hres⟩ := h.installTurn_of h1 h2
  cases hv.symm.trans ht
  exact hres

theorem Caches.writeLogTurn (ht : s.writeLogTurn p start tail b = .ok t) :
    Turned s t (start + tail + 1) (V b) ∧ Caches t (update V (start + tail + 1) (V b)) U := by
  obtain ⟨⟨i, s1⟩, h1, ht'⟩ := bind_eq_ok.mp ht
  obtain ⟨⟨j, s2⟩, h2, -⟩ := bind_eq_ok.mp ht'
  obtain ⟨v, hv, hres⟩ := h.writeLogTurn_of h1 h2
  cases hv.symm.trans ht
  exact hres

theorem Caches.writeHead {lh : List Nat} (ht : s.writeHead p start lh = .ok t) :
    Turned s t start (withHead lh (V start)) ∧ Caches t (update V start (withHead lh (V start))) U := by
  obtain ⟨⟨i, s1⟩, h1, -⟩ := bind_eq_ok.mp ht
  obtain ⟨v, hv, hres⟩ := h.writeHead_of lh h1
  cases hv.symm.trans ht
  exact hres

end

/-! ### The header block -/

omit [DecidableEq P] in
@[simp] theorem headOf_withHead {lh : List Nat} : headOf (withHead lh d) = lh := by
  apply ext_getElem
  · simp [headOf, withHead]
  · intro k h1 h2
    have hle : k + 1 ≤ lh.length := h2
    simp only [headOf, withHead, getElem_map, getElem_range, Nat.succ_ne_zero, if_false, if_pos hle,
      Nat.add_sub_cancel]
    exact (getElem_eq_getD 0).symm

def layout (start size : Nat) (h : 0 < size) : Redo.Layout Nat where
  head := start
  slot i := start + i + 1
  cap := size - 1
  home n := n < start ∨ start + size ≤ n
  head_out := by omega
  slot_out i hi := by omega
  slot_ne i hi := by omega

/-! ### Recovery -/

section Recovery
variable {size : Nat} {hsize : 0 < size} {C dk : Nat → Block}

def Calm (s : Store P) : Prop := ∀ k, (s.buf k).lock = none ∧ (s.buf k).dirty = false

/-- Recovery under way on the disk `dk`: whatever it has written, the disk is still recoverable to `C`
    after each of the writes. -/
structure Recovering (l : Redo.Layout Nat) (dk C : Nat → Block) (s : Store P) : Prop where
  cache : Caches s s.disk fun _ => False
  calm : Calm s
  disk : s.disk = written dk s.writes
  safe : ∀ k, Redo.Recoverable l headOf (written dk (s.writes.take k)) C

variable {l : Redo.Layout Nat}

omit [DecidableEq P] in
theorem Recovering.recoverable (h : Recovering l dk C s) : Redo.Recoverable l headOf s.disk C := by
  have := h.safe s.writes.length
  rwa [take_length, ← h.disk] at this

omit [DecidableEq P] in
theorem Recovering.boot (h : Redo.Recoverable l headOf dk C) : Recovering l dk C ({ disk := dk } : Store P) where
  cache := .boot
  calm k := ⟨rfl, rfl⟩
  disk := rfl
  safe k := by simpa [written] using h

omit [DecidableEq P] in
theorem Recovering.turn (h : Recovering l dk C s) (ht : Turned s t a d)
    (hc : Caches t (update s.disk a d) fun _ => False)
    (hr : Redo.Recoverable l headOf (update s.disk a d) C) : Recovering l dk C t where
  cache := by rw [ht.disk]; exact hc
  calm k := ⟨(ht.lock k).trans (h.calm k).1, by
    have := ht.dirty k
    simpa [(h.calm k).2] using this⟩
  disk := by
    rw [ht.disk, ht.writes, h.disk]
    simp [written]
  safe k := by
    rw [ht.writes]
    by_cases hk : k ≤ s.writes.length
    · rw [take_append_of_le_length hk]
      exact h.safe k
    · rw [take_of_length_le (by simp; omega)]
      rw [h.disk] at hr
      simpa [written] using hr

theorem Calm.bread (hcalm : Calm s) (h : Caches s V U) : ∃ i t, s.bread p n = .ok (i, t) :=
  h.bread_total ⟨⟨0, by decide⟩, hcalm _⟩ fun k _ _ => (hcalm k).1

theorem Calm.breadTwo (hcalm : Calm s) (h : Caches s V U) (hab : a ≠ b) :
    ∃ i t j u, s.bread p a = .ok (i, t) ∧ t.bread p b = .ok (j, u) := by
  obtain ⟨i, t, h1⟩ := hcalm.bread (p := p) (n := a) h
  obtain ⟨hc, g, -, -⟩ := h.bread h1
  obtain ⟨k, hk⟩ : ∃ k : Fin NBUF, k ≠ i := by
    by_cases hi : i = ⟨0, by decide⟩
    · exact ⟨⟨1, by decide⟩, by simp [hi]⟩
    · exact ⟨⟨0, by decide⟩, fun h => hi h.symm⟩
  obtain ⟨j, u, h2⟩ := hc.bread_total (p := p) (n := b) ⟨k, by rw [g.other k hk]; exact hcalm k⟩ fun m _ hm => by
    by_cases hmi : m = i
    · subst hmi
      exact absurd (g.blockno.symm.trans hm) hab
    · rw [g.other m hmi]
      exact (hcalm m).1
  exact ⟨i, t, j, u, h1, h2⟩

theorem Recovering.installTrans (h : Recovering (layout start size hsize) dk C s) (pre bs : List Nat)
    (hes : headOf (s.disk start) = pre ++ bs) (hpre : ∀ a ∈ pre, s.disk a = C a) :
    ∃ t, Store.installTrans p start bs pre.length s = .ok t ∧ Recovering (layout start size hsize) dk C t ∧
      headOf (t.disk start) = pre ++ bs ∧ ∀ a ∈ pre ++ bs, t.disk a = C a := by
  induction bs generalizing pre s with
  | nil => exact ⟨s, rfl, h, hes, by simpa using hpre⟩
  | cons b bs ih =>
    have hrec := h.recoverable
    have hget : (Redo.entries (layout start size hsize) headOf s.disk)[pre.length]? = some b := by
      show (headOf (s.disk start))[pre.length]? = some b
      simp [hes]
    have hhome := hrec.home b (mem_of_getElem? hget)
    have hsaved : s.disk (start + pre.length + 1) = C b := hrec.saved pre.length b hget
    have hne : start + pre.length + 1 ≠ b := by
      intro heq
      have hlt := (List.getElem?_eq_some_iff.mp hget).1
      have hfit := hrec.fits
      have hout := (layout start size hsize).slot_out pre.length (by omega)
      exact hout (by rw [show (layout start size hsize).slot pre.length = b from heq]; exact hhome)
    obtain ⟨i, t, j, u, h1, h2⟩ := h.calm.breadTwo (p := p) h.cache hne
    obtain ⟨v, hv, ht, hc⟩ := h.cache.installTurn_of h1 h2
    have hturn := h.turn ht hc (hrec.install hget)
    have hdisk : v.disk = update s.disk b (C b) := by rw [ht.disk, hsaved]
    have hstart : v.disk start = s.disk start := by
      have : start ≠ b := fun heq => (layout start size hsize).head_out (heq ▸ hhome)
      rw [hdisk, update_of_ne this]
    obtain ⟨w, hw, hrw, hew, hall⟩ := ih hturn (pre ++ [b]) (by rw [hstart, hes]; simp) (by
      intro a ha
      rw [hdisk]
      by_cases hab : a = b
      · simp [hab]
      · rw [update_of_ne hab]
        exact hpre a (by simpa [hab] using ha))
    refine ⟨w, ?_, hrw, by simpa using hew, fun a ha => hall a (by simpa using ha)⟩
    rw [length_append, length_singleton] at hw
    exact bind_eq_ok.mpr ⟨v, hv, hw⟩

theorem recoverFromLog_ok (p : P) (h : Redo.Recoverable (layout start size hsize) headOf dk C) :
    ∃ t, recoverFromLog ({ disk := dk } : Store P) p start = .ok t ∧
      Recovering (layout start size hsize) dk C t ∧ headOf (t.disk start) = [] ∧
      ∀ n, (layout start size hsize).home n → t.disk n = C n := by
  have hb : Recovering (layout start size hsize) dk C ({ disk := dk } : Store P) := .boot h
  obtain ⟨i, t, h1⟩ := hb.calm.bread (p := p) (n := start) hb.cache
  obtain ⟨u, hu, hcu, hdu, hwu, hlu, hpu⟩ := hb.cache.readHead_of h1
  have hru : Recovering (layout start size hsize) dk C u :=
    ⟨by rw [hdu]; exact hcu, fun k => ⟨(hlu k).trans (hb.calm k).1, (hpu k).trans (hb.calm k).2⟩,
      by rw [hdu, hwu]; exact hb.disk, by rw [hwu]; exact hb.safe⟩
  obtain ⟨v, hv, hrv, hev, hall⟩ := hru.installTrans (p := p) [] (headOf (dk start))
    (by rw [hdu]; rfl) (by simp)
  obtain ⟨j, w, h2⟩ := hrv.calm.bread (p := p) (n := start) hrv.cache
  obtain ⟨x, hx, hturn, hcx⟩ := hrv.cache.writeHead_of [] h2
  obtain ⟨hclear, hhome⟩ := hrv.recoverable.clear (v := withHead [] (v.disk start))
    (fun a ha => hall a (by rw [← hev]; exact ha)) headOf_withHead
  refine ⟨x, bind_eq_ok.mpr ⟨_, hu, bind_eq_ok.mpr ⟨v, hv, hx⟩⟩, hrv.turn hturn hcx hclear, ?_, ?_⟩
  · rw [hturn.disk]
    simp
  · intro n hn
    rw [hturn.disk]
    exact hhome n hn

theorem crashes_ok (p : P) (ks : List Nat) (h : Redo.Recoverable (layout start size hsize) headOf dk C) :
    ∃ d', crashes p start ks dk = .ok d' ∧ Redo.Recoverable (layout start size hsize) headOf d' C := by
  induction ks generalizing dk with
  | nil => exact ⟨dk, rfl, h⟩
  | cons k ks ih =>
    obtain ⟨t, ht, hr, -, -⟩ := recoverFromLog_ok p h
    obtain ⟨d', hd', hrec⟩ := ih (hr.safe k)
    exact ⟨d', bind_eq_ok.mpr ⟨t, ht, hd'⟩, hrec⟩

theorem reboot_ok (p : P) (ks : List Nat) (h : Redo.Recoverable (layout start size hsize) headOf dk C) :
    ∃ t, reboot p start ks dk = .ok t ∧ Caches t t.disk (fun _ => False) ∧ Calm t ∧
      headOf (t.disk start) = [] ∧ (∀ n, (layout start size hsize).home n → t.disk n = C n) ∧
      Redo.Recoverable (layout start size hsize) headOf t.disk C := by
  obtain ⟨d', hd', hrec⟩ := crashes_ok p ks h
  obtain ⟨t, ht, hr, he, hhome⟩ := recoverFromLog_ok p hrec
  exact ⟨t, bind_eq_ok.mpr ⟨d', hd', ht⟩, hr.cache, hr.calm, he, hhome, hr.recoverable⟩

end Recovery
end Store
end Xv6
