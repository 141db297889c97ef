import Xv6.Theorems.Log.Recovery
import Xv6.Theorems.Log.Reservation

/-! Crash atomicity of the log: at every moment the disk is recoverable to the contents after the groups whose
    header has been written, and an operation's changes all belong to one group. -/

namespace Xv6
open Function List Except

/-! ### Contents after a list of changes -/

namespace Mod

variable {d : Nat → Block} {ms : List Mod} {m : Mod} {n : Nat}

theorem apply_concat : apply d (ms ++ [m]) = update (apply d ms) m.blockno (m.change (apply d ms m.blockno)) := by
  simp [apply]

theorem apply_append {ms' : List Mod} : apply d (ms ++ ms') = apply (apply d ms) ms' := by
  simp [apply]

theorem apply_of_forall_ne (h : ∀ m ∈ ms, m.blockno ≠ n) : apply d ms n = d n := by
  induction ms using List.reverseRecOn with
  | nil => rfl
  | append_singleton ms m ih =>
    rw [apply_concat, update_of_ne (h m (by simp)).symm]
    exact ih fun x hx => h x (by simp [hx])

end Mod

namespace Journal

variable {P : Type} {s t : Journal P} {p q : P} {i j : Fin NBUF} {n : Nat}

def committed (s : Journal P) : Nat → Block := Mod.apply s.base s.groups.flatten

def contents (s : Journal P) : Nat → Block := Mod.apply s.base (s.groups.flatten ++ s.current)

theorem contents_eq : s.contents = Mod.apply s.committed s.current := Mod.apply_append

instance : DecidablePred s.Home := fun n =>
  inferInstanceAs (Decidable (n < s.ops.log.start ∨ s.ops.log.start + s.ops.log.size ≤ n))

/-- What a reader of block `n` sees: the log area is as it is on the disk. -/
def view (s : Journal P) (n : Nat) : Block := if s.Home n then s.contents n else s.store.disk n

theorem view_home (hn : s.Home n) : s.view n = s.contents n := if_pos hn

theorem view_not_home (hn : ¬s.Home n) : s.view n = s.store.disk n := if_neg hn

theorem view_update_area {a : Nat} {d : Block} (ha : ¬s.Home a) (hhome : ∀ n, t.Home n ↔ s.Home n)
    (hcon : t.contents = s.contents) (hdisk : t.store.disk = update s.store.disk a d) : t.view = update s.view a d := by
  funext n
  by_cases hna : n = a
  · subst hna
    rw [view_not_home (by rwa [hhome]), hdisk]
    simp
  · rw [update_of_ne hna]
    by_cases hn : s.Home n
    · rw [view_home hn, view_home ((hhome n).mpr hn), hcon]
    · rw [view_not_home hn, view_not_home (by rwa [hhome]), hdisk, update_of_ne hna]

def Changed (s : Journal P) (i : Fin NBUF) : Prop := ∃ p, i ∈ s.unlogged p

/-! ### The invariant -/

structure Users (s : Journal P) : Prop where
  locked : ∀ i, (s.store.buf i).lock.isSome → (s.store.buf i).valid
  op : ∀ p i, i ∈ s.unlogged p → (s.ops.passed p).isSome
  lock : ∀ p i, i ∈ s.unlogged p → (s.store.buf i).lock = some p

structure Numbered (s : Journal P) : Prop where
  active : ∀ p, (s.ops.passed p).isSome → s.number p < s.nextop
  current : ∀ m ∈ s.current, m.op < s.nextop
  group : ∀ m ∈ s.groups.flatten, m.op < s.nextop ∧ ∀ p, (s.ops.passed p).isSome → s.number p ≠ m.op
  apart : ∀ m ∈ s.groups.flatten, ∀ m' ∈ s.current, m.op ≠ m'.op

/-- How far the commit has come: the log blocks written, the header on the disk, the blocks installed. -/
def Phase (s : Journal P) : Option CommitPc → Prop
  | none => Store.headOf (s.store.disk s.start) = []
  | some (.writeLog k) => Store.headOf (s.store.disk s.start) = [] ∧ k < s.ops.log.lh.length ∧
    ∀ j b, j < k → s.ops.log.lh[j]? = some b → s.store.disk (s.start + j + 1) = s.contents b
  | some .writeHead => Store.headOf (s.store.disk s.start) = [] ∧ 0 < s.ops.log.lh.length ∧
    ∀ j b, s.ops.log.lh[j]? = some b → s.store.disk (s.start + j + 1) = s.contents b
  | some (.installTrans k) => Store.headOf (s.store.disk s.start) = s.ops.log.lh ∧ s.current = [] ∧
    k < s.ops.log.lh.length ∧ ∀ j b, j < k → s.ops.log.lh[j]? = some b → s.store.disk b = s.committed b
  | some .clear => Store.headOf (s.store.disk s.start) = s.ops.log.lh ∧ s.current = [] ∧
    ∀ b ∈ s.ops.log.lh, s.store.disk b = s.committed b
  | some .done => Store.headOf (s.store.disk s.start) = [] ∧ s.current = []

variable [Fintype P]

structure Ok (start size : Nat) (hsize : 0 < size) (s : Journal P) : Prop where
  hstart : s.ops.log.start = start
  hlen : s.ops.log.size = size
  counted : s.ops.Counted
  committing : s.ops.log.committing = true ↔ s.committer.isSome
  fits : s.ops.log.lh.length ≤ size - 1
  home : ∀ b ∈ s.ops.log.lh, s.Home b
  users : Users s
  numbered : Numbered s
  /-- A changed block is logged, or still with its user. -/
  touched : ∀ m ∈ s.current, m.blockno ∈ s.ops.log.lh ∨
    ∃ i, s.Changed i ∧ (s.store.buf i).dev = ROOTDEV ∧ (s.store.buf i).blockno = m.blockno
  cache : s.store.Caches s.view s.Changed
  recoverable : Redo.Recoverable (Store.layout start size hsize) Store.headOf s.store.disk s.committed
  phase : s.Phase (s.committer.map (·.2))

variable {start size : Nat} {hsize : 0 < size}

section

variable (h : Ok start size hsize s)
include h

theorem Ok.home_iff : s.Home n ↔ (Store.layout start size hsize).home n := by
  simp [Home, Store.layout, h.hstart, h.hlen]

theorem Ok.start_not_home : ¬s.Home s.start := by
  rw [h.home_iff]
  exact h.hstart ▸ (Store.layout start size hsize).head_out

theorem Ok.slot_not_home {k : Nat} (hk : k < s.ops.log.lh.length) : ¬s.Home (s.start + k + 1) := by
  rw [h.home_iff]
  have := (Store.layout start size hsize).slot_out k (lt_of_lt_of_le hk h.fits)
  exact h.hstart ▸ this

theorem Ok.idle (hc : s.ops.log.committing = true) :
    (∀ p, s.ops.passed p = none) ∧ (∀ i, ¬s.Changed i) ∧ ∀ m ∈ s.current, m.blockno ∈ s.ops.log.lh := by
  have hnone : ∀ p, s.ops.passed p = none := by
    intro p
    by_contra hp
    obtain ⟨bs, hbs⟩ := Option.ne_none_iff_exists'.mp hp
    exact h.counted.none_of_idle (h.counted.committing hc) p bs hbs
  have hch : ∀ i, ¬s.Changed i := by
    rintro i ⟨p, hi⟩
    simpa [hnone p] using h.users.op p i hi
  refine ⟨hnone, hch, fun m hm => ?_⟩
  rcases h.touched m hm with hb | ⟨i, hi, -⟩
  · exact hb
  · exact absurd hi (hch i)

theorem Ok.contents_of_not_mem (hc : s.ops.log.committing = true)
    (hn : n ∉ s.ops.log.lh) : s.contents n = s.committed n := by
  rw [contents_eq]
  refine Mod.apply_of_forall_ne fun m hm hmn => hn ?_
  rw [← hmn]
  exact (h.idle hc).2.2 m hm

end

/-! ### Steps outside commit -/

variable [DecidableEq P]

/-- The assumption on the operations: they change and log blocks outside the log area only. -/
def AtHome (s : Journal P) : Act P → Prop
  | .modify _ i _ | .logWrite _ i => s.Home (s.store.buf i).blockno
  | _ => True

instance : DecidablePred s.AtHome
  | .modify _ i _ | .logWrite _ i => inferInstanceAs (Decidable (s.Home (s.store.buf i).blockno))
  | .beginOp _ | .bread _ _ | .brelse _ _ | .endOp _ | .commit | .crash _ _ => inferInstanceAs (Decidable True)

omit [Fintype P] [DecidableEq P] in
theorem Phase.congr {pc : Option CommitPc} (h : s.Phase pc) (hdisk : t.store.disk = s.store.disk)
    (hlog : t.ops.log.lh = s.ops.log.lh ∧ t.start = s.start) (hcur : t.current = s.current)
    (hcon : t.contents = s.contents) (hcom : t.committed = s.committed) : t.Phase pc := by
  unfold Phase at *
  rw [hdisk, hlog.1, hlog.2, hcur, hcon, hcom]
  exact h

variable {st : Store P}

omit [DecidableEq P] in
theorem Ok.setStore (h : Ok start size hsize s) (hdisk : st.disk = s.store.disk)
    (hcache : st.Caches s.view s.Changed) (hlocked : ∀ i, (st.buf i).lock.isSome → (st.buf i).valid)
    (hkept : ∀ i, s.Changed i → st.buf i = s.store.buf i) : Ok start size hsize { s with store := st } where
  hstart := h.hstart
  hlen := h.hlen
  counted := h.counted
  committing := h.committing
  fits := h.fits
  home := h.home
  users := ⟨hlocked, h.users.op, fun p i hi => by rw [hkept i ⟨p, hi⟩]; exact h.users.lock p i hi⟩
  numbered := ⟨h.numbered.active, h.numbered.current, h.numbered.group, h.numbered.apart⟩
  touched m hm := (h.touched m hm).imp_right fun ⟨i, hi, hd, hn⟩ =>
    ⟨i, hi, by rw [hkept i hi]; exact hd, by rw [hkept i hi]; exact hn⟩
  cache := by
    have hv : ({ s with store := st } : Journal P).view = s.view := by
      funext n
      simp only [view, hdisk]
      rfl
    rw [hv]
    exact hcache
  recoverable := by
    show Redo.Recoverable _ _ st.disk _
    rw [hdisk]
    exact h.recoverable
  phase := h.phase.congr hdisk ⟨rfl, rfl⟩ rfl rfl rfl

theorem Ok.bread (h : Ok start size hsize s) (hb : s.store.bread p n = .ok (i, st)) :
    Ok start size hsize { s with store := st } := by
  obtain ⟨hc, g, hv, -⟩ := h.cache.bread hb
  refine h.setStore g.disk hc (fun k hk => ?_) fun k hk => g.other k ?_
  · by_cases hki : k = i
    · rw [hki]
      exact hv
    · rw [g.other k hki] at hk ⊢
      exact h.users.locked k hk
  · rintro rfl
    exact h.cache.not_changed g.free hk

omit [Fintype P] [DecidableEq P] in
theorem Users.changed (h : Users s) (hl : (s.store.buf i).lock = some p) (hi : s.Changed i) : i ∈ s.unlogged p := by
  obtain ⟨q, hq⟩ := hi
  have := h.lock q i hq
  rw [hl] at this
  cases this
  exact hq

theorem Ok.brelse (h : Ok start size hsize s) (hu : i ∉ s.unlogged p)
    (hb : s.store.brelse p i = .ok st) : Ok start size hsize { s with store := st } := by
  have hl : (s.store.buf i).lock = some p := by
    by_contra hl
    simp [Store.brelse, hl] at hb
  have hch : ¬s.Changed i := fun hi => hu (h.users.changed hl hi)
  obtain ⟨u, hu', hc, hd, -, ho, hi⟩ := h.cache.brelse hl hch
  cases hu'.symm.trans hb
  refine h.setStore hd hc (fun k hk => ?_) fun k hk => ho k ?_
  · have hki : k ≠ i := by
      rintro rfl
      simp [hi] at hk
    rw [ho k hki] at hk ⊢
    exact h.users.locked k hk
  · rintro rfl
    exact hch hk

section

variable (h : Ok start size hsize s)
include h

omit [DecidableEq P] in
theorem Ok.not_committing (hp : (s.ops.passed p).isSome) : s.ops.log.committing = false ∧ s.committer = none := by
  have hc : s.ops.log.committing = false := by
    by_contra hc
    simp [(h.idle (by simpa using hc)).1 p] at hp
  refine ⟨hc, ?_⟩
  have := h.committing
  simpa [hc] using this

theorem Ok.beginOp {o : Ops P} (ho : s.ops.step (.beginOp p) = .ok o) : Ok start size hsize
      { s with ops := o, number := update s.number p s.nextop, nextop := s.nextop + 1 } := by
  have hcount := h.counted.step ho
  obtain ⟨-, -, -, rfl⟩ := Ops.step_beginOp_inv ho
  have hpass : ∀ q, (update s.ops.passed p (some []) q).isSome → q = p ∨ (s.ops.passed q).isSome := by
    intro q hq
    by_cases hqp : q = p
    · exact .inl hqp
    · rw [update_of_ne hqp] at hq
      exact .inr hq
  exact {
    hstart := h.hstart
    hlen := h.hlen
    counted := hcount
    committing := h.committing
    fits := h.fits
    home := h.home
    users := ⟨h.users.locked, fun q i hi => by
      show (update s.ops.passed p (some []) q).isSome
      by_cases hqp : q = p
      · simp [hqp]
      · rw [update_of_ne hqp]
        exact h.users.op q i hi, h.users.lock⟩
    numbered := ⟨fun q hq => by
        show update s.number p s.nextop q < s.nextop + 1
        rcases hpass q hq with rfl | hq
        · simp
        · by_cases hqp : q = p
          · simp [hqp]
          · rw [update_of_ne hqp]
            exact Nat.lt_succ_of_lt (h.numbered.active q hq),
      fun m hm => Nat.lt_succ_of_lt (h.numbered.current m hm),
      fun m hm => ⟨Nat.lt_succ_of_lt (h.numbered.group m hm).1, fun q hq => by
        show update s.number p s.nextop q ≠ m.op
        by_cases hqp : q = p
        · rw [hqp, update_self]
          exact (h.numbered.group m hm).1.ne'
        · rw [update_of_ne hqp]
          exact (h.numbered.group m hm).2 q ((hpass q hq).resolve_left hqp)⟩,
      h.numbered.apart⟩
    touched := h.touched
    cache := h.cache
    recoverable := h.recoverable
    phase := h.phase.congr rfl ⟨rfl, rfl⟩ rfl rfl rfl }

theorem Ok.modify {f : Block → Block} (hp : (s.ops.passed p).isSome)
    (hl : (s.store.buf i).lock = some p) (hhome : s.Home (s.store.buf i).blockno) : Ok start size hsize { s with
      store := s.store.setData i (f (s.store.buf i).data), unlogged := update s.unlogged p (i :: s.unlogged p),
      current := s.current ++ [{ op := s.number p, blockno := (s.store.buf i).blockno, change := f }] } := by
  obtain ⟨t, ht⟩ : ∃ t : Journal P, t = { s with
      store := s.store.setData i (f (s.store.buf i).data),
      unlogged := update s.unlogged p (i :: s.unlogged p),
      current := s.current ++ [{ op := s.number p, blockno := (s.store.buf i).blockno, change := f }] } := ⟨_, rfl⟩
  rw [← ht]
  have hv := h.users.locked i (by simp [hl])
  have hdev := (h.cache.buf i).locked (by simp [hl])
  have hdata : (s.store.buf i).data = s.contents (s.store.buf i).blockno := by
    rw [((h.cache.buf i).valid hv).2, view_home hhome]
  have hcon : t.contents = update s.contents (s.store.buf i).blockno (f (s.store.buf i).data) := by
    rw [hdata]
    subst ht
    simp only [contents, ← append_assoc, Mod.apply_concat]
  have hview : t.view = update s.view (s.store.buf i).blockno (f (s.store.buf i).data) := by
    funext n
    have hh : t.Home n ↔ s.Home n := by subst ht; exact Iff.rfl
    by_cases hn : n = (s.store.buf i).blockno
    · subst hn
      rw [view_home (hh.mpr hhome), hcon]
      simp
    · rw [update_of_ne hn]
      by_cases hn' : s.Home n
      · rw [view_home (hh.mpr hn'), view_home hn', hcon, update_of_ne hn]
      · rw [view_not_home (fun h' => hn' (hh.mp h')), view_not_home hn']
        subst ht
        rfl
  have hunl : ∀ q k, k ∈ t.unlogged q ↔ k ∈ s.unlogged q ∨ q = p ∧ k = i := by
    intro q k
    subst ht
    show k ∈ update s.unlogged p (i :: s.unlogged p) q ↔ _
    by_cases hq : q = p
    · subst hq
      simp [or_comm]
    · rw [update_of_ne hq]
      simp [hq]
  have hch : t.Changed = fun j => s.Changed j ∨ j = i := by
    funext j
    simp only [Changed, hunl, eq_iff_iff]
    constructor
    · rintro ⟨q, hq | ⟨-, hj⟩⟩
      · exact .inl ⟨q, hq⟩
      · exact .inr hj
    · rintro (⟨q, hq⟩ | hj)
      · exact ⟨q, .inl hq⟩
      · exact ⟨p, .inr ⟨rfl, hj⟩⟩
  -- Apart from the data, the buffers are as before.
  have hbuf : ∀ k, (t.store.buf k).lock = (s.store.buf k).lock ∧ (t.store.buf k).valid = (s.store.buf k).valid ∧
      (t.store.buf k).dev = (s.store.buf k).dev ∧ (t.store.buf k).blockno = (s.store.buf k).blockno := by
    intro k
    subst ht
    by_cases hk : k = i
    · subst hk
      simp [Store.setData]
    · simp [Store.setData, Store.setBuf_buf_of_ne hk]
  have hcur : t.current = s.current ++ [{ op := s.number p, blockno := (s.store.buf i).blockno, change := f }] := by
    rw [ht]
  have hcache : t.store.Caches t.view t.Changed := by
    rw [hview, hch]
    have := h.cache.setData (d := f (s.store.buf i).data) hl hv
    subst ht
    exact this
  have hcm := (h.not_committing hp).2
  subst ht
  exact {
    hstart := h.hstart
    hlen := h.hlen
    counted := h.counted
    committing := h.committing
    fits := h.fits
    home := h.home
    users := ⟨fun k hk => by rw [(hbuf k).1] at hk; rw [(hbuf k).2.1]; exact h.users.locked k hk,
      fun q k hk => by
        rcases (hunl q k).mp hk with hk | ⟨rfl, -⟩
        · exact h.users.op q k hk
        · exact hp,
      fun q k hk => by
        rw [(hbuf k).1]
        rcases (hunl q k).mp hk with hk | ⟨rfl, rfl⟩
        · exact h.users.lock q k hk
        · exact hl⟩
    numbered := ⟨h.numbered.active, fun m hm => by
        rcases mem_append.mp hm with hm | hm
        · exact h.numbered.current m hm
        · rw [mem_singleton.mp hm]
          exact h.numbered.active p hp,
      h.numbered.group, fun m hm m' hm' => by
        rcases mem_append.mp hm' with hm' | hm'
        · exact h.numbered.apart m hm m' hm'
        · rw [mem_singleton.mp hm']
          exact ((h.numbered.group m hm).2 p hp).symm⟩
    touched := fun m hm => by
      rcases mem_append.mp hm with hm | hm
      · refine (h.touched m hm).imp_right ?_
        rintro ⟨k, hk, hd, hn⟩
        refine ⟨k, ?_, (hbuf k).2.2.1.trans hd, (hbuf k).2.2.2.trans hn⟩
        rw [hch]
        exact .inl hk
      · refine .inr ⟨i, ?_, (hbuf i).2.2.1.trans hdev, ?_⟩
        · rw [hch]
          exact .inr rfl
        · rw [(hbuf i).2.2.2, mem_singleton.mp hm]
    cache := hcache
    recoverable := h.recoverable
    phase := by
      have := h.phase
      rw [hcm] at this
      show Phase _ (s.committer.map (·.2))
      rw [hcm]
      exact this }

theorem Ok.logWrite {o : Ops P} (hl : (s.store.buf i).lock = some p)
    (hhome : s.Home (s.store.buf i).blockno) (ho : s.ops.step (.logWrite p (s.store.buf i).blockno) = .ok o) :
    Ok start size hsize { s with
      ops := o, store := s.store.setBuf i { s.store.buf i with dirty := true },
      unlogged := update s.unlogged p ((s.unlogged p).filter (· ≠ i)) } := by
  have hcount := h.counted.step ho
  obtain ⟨bs, hp, hroom, rfl⟩ := Ops.step_logWrite_inv ho
  have hp' : (s.ops.passed p).isSome := by simp [hp]
  obtain ⟨hnc, hcm⟩ := h.not_committing hp'
  have hv := h.users.locked i (by simp [hl])
  have hpass : ∀ q, (update s.ops.passed p (some (bs.insert (s.store.buf i).blockno)) q).isSome ↔
      (s.ops.passed q).isSome := by
    intro q
    by_cases hq : q = p
    · simp [hq, hp]
    · rw [update_of_ne hq]
  have hlh : ∀ b, b ∈ (if (s.store.buf i).blockno ∈ s.ops.log.lh then s.ops.log.lh
      else s.ops.log.lh ++ [(s.store.buf i).blockno]) ↔ b ∈ s.ops.log.lh ∨ b = (s.store.buf i).blockno := by
    intro b
    split
    · next hb =>
      refine ⟨.inl, ?_⟩
      rintro (hb' | rfl)
      · exact hb'
      · exact hb
    · simp
  have hunl : ∀ q k, k ∈ update s.unlogged p ((s.unlogged p).filter (· ≠ i)) q ↔
      k ∈ s.unlogged q ∧ k ≠ i := by
    intro q k
    by_cases hq : q = p
    · subst hq
      simp
    · rw [update_of_ne hq]
      refine ⟨fun hk => ⟨hk, ?_⟩, And.left⟩
      rintro rfl
      have := h.users.lock q k hk
      rw [hl] at this
      cases this
      exact hq rfl
  have hbuf : ∀ k, ((s.store.setBuf i { s.store.buf i with dirty := true }).buf k).lock = (s.store.buf k).lock ∧
      ((s.store.setBuf i { s.store.buf i with dirty := true }).buf k).valid = (s.store.buf k).valid ∧
      ((s.store.setBuf i { s.store.buf i with dirty := true }).buf k).dev = (s.store.buf k).dev ∧
      ((s.store.setBuf i { s.store.buf i with dirty := true }).buf k).blockno = (s.store.buf k).blockno := by
    intro k
    by_cases hk : k = i
    · subst hk
      simp
    · simp [Store.setBuf_buf_of_ne hk]
  exact {
    hstart := h.hstart
    hlen := h.hlen
    counted := hcount
    committing := h.committing
    fits := by
      have := h.hlen
      show (if (s.store.buf i).blockno ∈ s.ops.log.lh then s.ops.log.lh
        else s.ops.log.lh ++ [(s.store.buf i).blockno]).length ≤ size - 1
      split
      · exact h.fits
      · rw [length_append, length_singleton]
        omega
    home := fun b hb => by
      rcases (hlh b).mp hb with hb | rfl
      · exact h.home b hb
      · exact hhome
    users := ⟨fun k hk => by rw [(hbuf k).1] at hk; rw [(hbuf k).2.1]; exact h.users.locked k hk,
      fun q k hk => (hpass q).mpr (h.users.op q k ((hunl q k).mp hk).1),
      fun q k hk => (hbuf k).1.trans (h.users.lock q k ((hunl q k).mp hk).1)⟩
    numbered := ⟨fun q hq => h.numbered.active q ((hpass q).mp hq), h.numbered.current,
      fun m hm => ⟨(h.numbered.group m hm).1, fun q hq => (h.numbered.group m hm).2 q ((hpass q).mp hq)⟩,
      h.numbered.apart⟩
    touched := fun m hm => by
      rcases h.touched m hm with hb | ⟨k, ⟨q, hk⟩, hd, hn⟩
      · exact .inl ((hlh _).mpr (.inl hb))
      · by_cases hki : k = i
        · subst hki
          exact .inl ((hlh _).mpr (.inr hn.symm))
        · exact .inr ⟨k, ⟨q, (hunl q k).mpr ⟨hk, hki⟩⟩, (hbuf k).2.2.1.trans hd, (hbuf k).2.2.2.trans hn⟩
    cache := by
      have hch : Changed { s with
          ops := { log := { s.ops.log with lh := if (s.store.buf i).blockno ∈ s.ops.log.lh then s.ops.log.lh
                      else s.ops.log.lh ++ [(s.store.buf i).blockno] },
                   passed := update s.ops.passed p (some (bs.insert (s.store.buf i).blockno)),
                   logged := (s.store.buf i).blockno :: s.ops.logged },
          store := s.store.setBuf i { s.store.buf i with dirty := true },
          unlogged := update s.unlogged p ((s.unlogged p).filter (· ≠ i)) } =
          fun j => s.Changed j ∧ j ≠ i := by
        funext j
        simp only [Changed, hunl, exists_and_right]
      rw [hch]
      exact h.cache.setDirty hl hv
    recoverable := h.recoverable
    phase := by
      have := h.phase
      show Phase _ (s.committer.map (·.2))
      rw [hcm] at this ⊢
      exact this }

theorem Ok.endOp {o : Ops P} (hu : s.unlogged p = []) (ho : s.ops.step (.endOp p) = .ok o) :
    Ok start size hsize { s with
      ops := o, committer := if o.log.committing then some (p, if o.log.lh.length > 0 then .writeLog 0 else .done)
        else none } := by
  have hcount := h.counted.step ho
  obtain ⟨bs, c, hp, hc, hz, rfl⟩ := Ops.step_endOp_inv ho
  obtain ⟨-, hcm⟩ := h.not_committing (p := p) (by simp [hp])
  have hhead : Store.headOf (s.store.disk s.start) = [] := by
    have := h.phase
    rw [hcm] at this
    exact this
  have hpass : ∀ q, (update s.ops.passed p none q).isSome → (s.ops.passed q).isSome := by
    intro q hq
    by_cases hqp : q = p
    · simp [hqp] at hq
    · rwa [update_of_ne hqp] at hq
  have husers : ∀ q k, k ∈ s.unlogged q → (update s.ops.passed p none q).isSome := by
    intro q k hk
    have hqp : q ≠ p := by
      rintro rfl
      simp [hu] at hk
    rw [update_of_ne hqp]
    exact h.users.op q k hk
  exact {
    hstart := h.hstart
    hlen := h.hlen
    counted := hcount
    committing := by
      show c = true ↔ _
      by_cases hct : c <;> simp [hct]
    fits := h.fits
    home := h.home
    users := ⟨h.users.locked, husers, h.users.lock⟩
    numbered := ⟨fun q hq => h.numbered.active q (hpass q hq), h.numbered.current,
      fun m hm => ⟨(h.numbered.group m hm).1, fun q hq => (h.numbered.group m hm).2 q (hpass q hq)⟩,
      h.numbered.apart⟩
    touched := h.touched
    cache := h.cache
    recoverable := h.recoverable
    phase := by
      show Phase _ (Option.map (·.2) (if c = true then some (p, _) else none))
      by_cases hct : c = true
      · rw [if_pos hct]
        by_cases hlen : s.ops.log.lh.length > 0
        · show Phase _ (some (if s.ops.log.lh.length > 0 then .writeLog 0 else .done))
          rw [if_pos hlen]
          exact ⟨hhead, hlen, fun j b hj => absurd hj (Nat.not_lt_zero j)⟩
        · -- Nothing is logged, so nothing has been changed.
          show Phase _ (some (if s.ops.log.lh.length > 0 then .writeLog 0 else .done))
          rw [if_neg hlen]
          refine ⟨hhead, eq_nil_iff_forall_not_mem.mpr fun m hm => ?_⟩
          have hnil : s.ops.log.lh = [] := length_eq_zero_iff.mp (by omega)
          rcases h.touched m hm with hb | ⟨k, ⟨q, hk⟩, -⟩
          · simp [hnil] at hb
          · have hq := husers q k hk
            obtain ⟨bs', hbs'⟩ := Option.isSome_iff_exists.mp hq
            exact hcount.none_of_idle (hz.mp hct) q bs' hbs'
      · rw [if_neg hct]
        exact hhead }

end

/-! ### Commit -/

omit [DecidableEq P] in
theorem Ok.is_committing (h : Ok start size hsize s) {pc : CommitPc} (hcm : s.committer = some (p, pc)) :
    s.ops.log.committing = true := h.committing.mpr (by simp [hcm])

section

variable (h : Ok start size hsize s)
include h

variable {st : Store P}

omit [DecidableEq P] in
theorem Ok.turn {a : Nat} {d : Block} {pc pc' : CommitPc} (hcm : s.committer = some (p, pc))
    (ht : s.store.Turned st a d) (hcache : st.Caches ({ s with store := st } : Journal P).view s.Changed)
    (hrec : Redo.Recoverable (Store.layout start size hsize) Store.headOf st.disk s.committed)
    (hphase : ({ s with store := st, committer := some (p, pc') } : Journal P).Phase (some pc')) :
    Ok start size hsize { s with store := st, committer := some (p, pc') } where
  hstart := h.hstart
  hlen := h.hlen
  counted := h.counted
  committing := by simp [h.is_committing hcm]
  fits := h.fits
  home := h.home
  users := by
    have hch := (h.idle (h.is_committing hcm)).2.1
    refine ⟨fun i hi => ?_, h.users.op, fun q i hi => absurd ⟨q, hi⟩ (hch i)⟩
    rw [ht.lock i] at hi
    rw [ht.other i hi]
    exact h.users.locked i hi
  numbered := ⟨h.numbered.active, h.numbered.current, h.numbered.group, h.numbered.apart⟩
  touched m hm := .inl ((h.idle (h.is_committing hcm)).2.2 m hm)
  cache := hcache
  recoverable := hrec
  phase := hphase

theorem Ok.writeLog {k : Nat} (hcm : s.committer = some (p, .writeLog k))
    (ht : s.store.writeLogTurn p s.start k (s.ops.log.lh.getD k 0) = .ok st) : Ok start size hsize { s with
      store := st, committer := some (p, if k + 1 < s.ops.log.lh.length then .writeLog (k + 1) else .writeHead) } := by
  obtain ⟨hturn, hcache⟩ := h.cache.writeLogTurn ht
  have hph := h.phase
  rw [hcm] at hph
  obtain ⟨hhead, hk, hdone⟩ := hph
  have hb : s.ops.log.lh[k]? = some (s.ops.log.lh.getD k 0) := by simp [hk]
  have hbhome := h.home _ (mem_of_getElem? hb)
  have hslot := h.slot_not_home hk
  rw [view_home hbhome] at hturn hcache
  have hcap : k < (Store.layout start size hsize).cap := lt_of_lt_of_le hk h.fits
  have hstart : s.start = start := h.hstart
  have hhead' : Store.headOf (st.disk s.start) = [] := by
    rw [hturn.disk, update_of_ne (by omega)]
    exact hhead
  -- The log blocks up to this one.
  have hdone' : ∀ j b, j < k + 1 → s.ops.log.lh[j]? = some b → st.disk (s.start + j + 1) = s.contents b := by
    intro j b hj hjb
    rw [hturn.disk]
    by_cases hjk : j = k
    · subst hjk
      rw [hb] at hjb
      cases hjb
      simp
    · rw [update_of_ne (by omega)]
      exact hdone j b (by omega) hjb
  refine h.turn hcm hturn ?_ ?_ ?_
  · rw [view_update_area (t := { s with store := st }) hslot (fun _ => Iff.rfl) rfl hturn.disk]
    exact hcache
  · rw [hturn.disk]
    have hslot : s.start + k + 1 = (Store.layout start size hsize).slot k := by rw [hstart]; rfl
    rw [hslot]
    exact h.recoverable.fill (by rw [hstart] at hhead; exact hhead) hcap
  · by_cases hk' : k + 1 < s.ops.log.lh.length
    · rw [if_pos hk']
      exact ⟨hhead', hk', hdone'⟩
    · rw [if_neg hk']
      refine ⟨hhead', Nat.zero_lt_of_lt hk, fun j b hjb => hdone' j b ?_ hjb⟩
      have : j < s.ops.log.lh.length := (List.getElem?_eq_some_iff.mp hjb).1
      omega

theorem Ok.writeHead (hcm : s.committer = some (p, .writeHead))
    (ht : s.store.writeHead p s.start s.ops.log.lh = .ok st) : Ok start size hsize { s with
      store := st, committer := some (p, .installTrans 0), groups := s.groups ++ [s.current], current := [] } := by
  obtain ⟨t, htdef⟩ : ∃ t : Journal P, t = { s with
      store := st, committer := some (p, .installTrans 0), groups := s.groups ++ [s.current], current := [] } :=
    ⟨_, rfl⟩
  rw [← htdef]
  obtain ⟨hturn, hcache⟩ := h.cache.writeHead ht
  have hph := h.phase
  rw [hcm] at hph
  obtain ⟨hhead, hpos, hdone⟩ := hph
  have hstart : s.start = start := h.hstart
  have hc := h.is_committing hcm
  obtain ⟨hnone, hch, -⟩ := h.idle hc
  have hcom : t.committed = s.contents := by
    subst htdef
    simp [committed, contents]
  have hcon : t.contents = s.contents := by
    subst htdef
    simp [contents]
  have hview : t.view = update s.view s.start (Store.withHead s.ops.log.lh (s.view s.start)) := by
    refine view_update_area h.start_not_home (fun _ => ?_) hcon ?_
    · subst htdef
      exact Iff.rfl
    · subst htdef
      exact hturn.disk
  have hrec : Redo.Recoverable (Store.layout start size hsize) Store.headOf st.disk t.committed := by
    rw [hcom, hturn.disk, hstart]
    refine h.recoverable.commit (by rw [hstart] at hhead; exact hhead) Store.headOf_withHead h.fits
      (fun b hb => h.home_iff.mp (h.home b hb)) (fun j b hj => ?_) fun b _ hb => h.contents_of_not_mem hc hb
    rw [← hdone j b hj, hstart]
    rfl
  have hgroups : t.groups.flatten = s.groups.flatten ++ s.current := by
    subst htdef
    simp
  subst htdef
  exact {
    hstart := h.hstart
    hlen := h.hlen
    counted := h.counted
    committing := by simp [hc]
    fits := h.fits
    home := h.home
    users := ⟨fun i hi => by
      rw [hturn.lock i] at hi
      rw [hturn.other i hi]
      exact h.users.locked i hi, h.users.op, fun q i hi => absurd ⟨q, hi⟩ (hch i)⟩
    numbered := ⟨h.numbered.active, by simp, fun m hm => by
      rw [hgroups] at hm
      refine ⟨?_, fun q hq => by simp [hnone q] at hq⟩
      rcases mem_append.mp hm with hm | hm
      · exact (h.numbered.group m hm).1
      · exact h.numbered.current m hm, by simp⟩
    touched := by simp
    cache := by
      rw [hview]
      exact hcache
    recoverable := hrec
    phase := by
      refine ⟨?_, rfl, hpos, fun j b hj => absurd hj (Nat.not_lt_zero j)⟩
      show Store.headOf (st.disk s.start) = s.ops.log.lh
      rw [hturn.disk]
      simp }

theorem Ok.installTrans {k : Nat} (hcm : s.committer = some (p, .installTrans k))
    (ht : s.store.installTurn p s.start k (s.ops.log.lh.getD k 0) = .ok st) : Ok start size hsize { s with
      store := st, committer := some (p, if k + 1 < s.ops.log.lh.length then .installTrans (k + 1) else .clear) } := by
  obtain ⟨hturn, hcache⟩ := h.cache.installTurn ht
  have hph := h.phase
  rw [hcm] at hph
  obtain ⟨hhead, hcur, hk, hdone⟩ := hph
  obtain ⟨b, hbdef⟩ : ∃ b, b = s.ops.log.lh.getD k 0 := ⟨_, rfl⟩
  rw [← hbdef] at hturn hcache
  have hb : s.ops.log.lh[k]? = some b := by simp [hk, hbdef]
  have hbhome := h.home _ (mem_of_getElem? hb)
  have hstart : s.start = start := h.hstart
  have hentry : (Redo.entries (Store.layout start size hsize) Store.headOf s.store.disk)[k]? = some b := by
    rw [show Redo.entries (Store.layout start size hsize) Store.headOf s.store.disk = s.ops.log.lh by
      rw [← hhead, hstart]; rfl]
    exact hb
  -- The log block has the committed contents of its home.
  have hsaved : s.view (s.start + k + 1) = s.committed b := by
    rw [view_not_home (h.slot_not_home hk), ← h.recoverable.saved k b hentry, hstart]
    rfl
  have hcc : s.contents = s.committed := by
    rw [contents_eq, hcur]
    rfl
  rw [hsaved] at hturn hcache
  have hne : s.start ≠ b := fun heq => h.start_not_home (heq ▸ hbhome)
  have hhead' : Store.headOf (st.disk s.start) = s.ops.log.lh := by
    rw [hturn.disk, update_of_ne hne]
    exact hhead
  have hdone' : ∀ j c, j < k + 1 → s.ops.log.lh[j]? = some c → st.disk c = s.committed c := by
    intro j c hj hjc
    rw [hturn.disk]
    by_cases hcb : c = b
    · subst hcb
      simp
    · rw [update_of_ne hcb]
      refine hdone j c ?_ hjc
      by_contra hjk
      have : j = k := by omega
      subst this
      rw [hb] at hjc
      cases hjc
      exact hcb rfl
  refine h.turn hcm hturn ?_ ?_ ?_
  · have hview : ({ s with store := st } : Journal P).view = update s.view b (s.committed b) := by
      funext n
      by_cases hnb : n = b
      · subst hnb
        rw [update_self, ← hcc]
        exact view_home hbhome
      · rw [update_of_ne hnb]
        by_cases hn : s.Home n
        · rw [view_home hn]
          exact view_home hn
        · rw [view_not_home hn]
          refine (view_not_home (s := { s with store := st }) hn).trans ?_
          show st.disk n = s.store.disk n
          rw [hturn.disk, update_of_ne hnb]
    rw [hview]
    exact hcache
  · have := h.recoverable.install hentry
    rw [h.recoverable.saved k b hentry] at this
    rw [hturn.disk]
    exact this
  · by_cases hk' : k + 1 < s.ops.log.lh.length
    · rw [if_pos hk']
      exact ⟨hhead', hcur, hk', hdone'⟩
    · rw [if_neg hk']
      refine ⟨hhead', hcur, fun c hc => ?_⟩
      obtain ⟨j, hjc⟩ := mem_iff_getElem?.mp hc
      have : j < s.ops.log.lh.length := (List.getElem?_eq_some_iff.mp hjc).1
      exact hdone' j c (by omega) hjc

theorem Ok.clear (hcm : s.committer = some (p, .clear)) (ht : s.store.writeHead p s.start [] = .ok st) :
    Ok start size hsize { s with store := st, committer := some (p, .done) } := by
  obtain ⟨hturn, hcache⟩ := h.cache.writeHead ht
  have hph := h.phase
  rw [hcm] at hph
  obtain ⟨hhead, hcur, hdone⟩ := hph
  have hstart : s.start = start := h.hstart
  refine h.turn hcm hturn ?_ ?_ ⟨?_, hcur⟩
  · rw [view_update_area (t := { s with store := st }) h.start_not_home (fun _ => Iff.rfl) rfl hturn.disk]
    exact hcache
  · rw [hturn.disk, hstart]
    refine (h.recoverable.clear (fun b hb => hdone b ?_) Store.headOf_withHead).1
    rw [← hhead, hstart]
    exact hb
  · show Store.headOf (st.disk s.start) = []
    rw [hturn.disk]
    simp

theorem Ok.endCommit {o : Ops P} (hcm : s.committer = some (p, .done))
    (ho : s.ops.step .endCommit = .ok o) : Ok start size hsize { s with ops := o, committer := none } := by
  have hcount := h.counted.step ho
  have hph := h.phase
  rw [hcm] at hph
  obtain ⟨hhead, hcur⟩ := hph
  obtain ⟨-, rfl⟩ := Ops.step_endCommit_inv ho
  exact {
    hstart := h.hstart
    hlen := h.hlen
    counted := hcount
    committing := by simp [Log.endCommit]
    fits := by simp [Log.endCommit]
    home := by simp [Log.endCommit]
    users := ⟨h.users.locked, h.users.op, h.users.lock⟩
    numbered := ⟨h.numbered.active, h.numbered.current, h.numbered.group, h.numbered.apart⟩
    touched := by simp [hcur]
    cache := h.cache
    recoverable := h.recoverable
    phase := hhead }

theorem Ok.commitStep {pc : CommitPc} (hcm : s.committer = some (p, pc))
    (ht : s.commitStep p pc = .ok t) : Ok start size hsize t := by
  cases pc with
  | writeLog k =>
    obtain ⟨st, hst, ht⟩ := bind_eq_ok.mp ht
    cases ht
    exact h.writeLog hcm hst
  | writeHead =>
    obtain ⟨st, hst, ht⟩ := bind_eq_ok.mp ht
    cases ht
    exact h.writeHead hcm hst
  | installTrans k =>
    obtain ⟨st, hst, ht⟩ := bind_eq_ok.mp ht
    cases ht
    exact h.installTrans hcm hst
  | clear =>
    obtain ⟨st, hst, ht⟩ := bind_eq_ok.mp ht
    cases ht
    exact h.clear hcm hst
  | done =>
    obtain ⟨o, ho, ht⟩ := bind_eq_ok.mp ht
    cases ht
    exact h.endCommit hcm ho

end

/-! ### Crashes -/

omit [DecidableEq P] in
theorem Ok.booted {base : Nat → Block} {number : P → Nat} {nextop : Nat}
    (groups : List (List Mod)) (hcache : st.Caches st.disk fun _ => False) (hcalm : st.Calm)
    (hhead : Store.headOf (st.disk start) = [])
    (hhome : ∀ n, (Store.layout start size hsize).home n → st.disk n = Mod.apply base groups.flatten n)
    (hrec : Redo.Recoverable (Store.layout start size hsize) Store.headOf st.disk (Mod.apply base groups.flatten))
    (hop : ∀ m ∈ groups.flatten, m.op < nextop) : Ok start size hsize {
      store := st, ops := { log := { start := start, size := size } }, number := number, nextop := nextop,
      base := base, groups := groups } := by
  obtain ⟨t, ht⟩ : ∃ t : Journal P, t = {
      store := st, ops := { log := { start := start, size := size } }, number := number, nextop := nextop,
      base := base, groups := groups } := ⟨_, rfl⟩
  have hview : t.view = st.disk := by
    funext n
    by_cases hn : t.Home n
    · rw [view_home hn]
      subst ht
      simp only [contents, append_nil]
      exact (hhome n hn).symm
    · rw [view_not_home hn, ht]
  have hch : t.Changed = fun _ => False := by
    funext i
    subst ht
    simp [Changed]
  rw [← ht]
  refine ⟨by rw [ht], by rw [ht], by rw [ht]; exact Ops.counted_init (l := { start, size }), by simp [ht], by simp [ht],
    by simp [ht], ?_, ?_, by simp [ht], ?_, ?_, ?_⟩
  · refine ⟨fun i hi => ?_, by simp [ht], by simp [ht]⟩
    rw [ht] at hi
    simp [(hcalm i).1] at hi
  · refine ⟨by simp [ht], by simp [ht], fun m hm => ⟨?_, by simp [ht]⟩, by simp [ht]⟩
    rw [ht] at hm ⊢
    exact hop m hm
  · rw [hview, hch, ht]
    exact hcache
  · rw [ht]
    exact hrec
  · rw [ht]
    exact hhead

theorem Ok.crash (h : Ok start size hsize s) {ks : List Nat} (hst : Store.reboot p s.start ks s.store.disk = .ok st) :
    Ok start size hsize { s with
      store := st, ops := { log := { start := s.ops.log.start, size := s.ops.log.size } }, committer := none,
      unlogged := fun _ => [], current := [] } := by
  have hstart : s.start = start := h.hstart
  obtain ⟨u, hu, hcache, hcalm, hhead, hhome, hrec⟩ := Store.reboot_ok p ks h.recoverable
  rw [hstart] at hst
  cases hu.symm.trans hst
  rw [h.hstart, h.hlen]
  exact Ok.booted s.groups hcache hcalm hhead hhome hrec fun m hm => (h.numbered.group m hm).1

theorem ok_init (h : (machine P start size).init s) : Ok start size hsize s := by
  obtain ⟨d, p, st, hd, hst, rfl⟩ := h
  have hhead : Store.headOf (d start) = [] := by simp [Store.headOf, hd]
  have hrec : Redo.Recoverable (Store.layout start size hsize) Store.headOf d d := by
    have he : Redo.entries (Store.layout start size hsize) Store.headOf d = [] := hhead
    exact ⟨by simp [he], by simp [he], by simp [he], fun _ _ _ => rfl⟩
  obtain ⟨u, hu, hr, hhead', hhome⟩ := Store.recoverFromLog_ok p hrec
  cases hu.symm.trans hst
  exact Ok.booted [] hr.cache hr.calm hhead' hhome hr.recoverable (by simp)

theorem Ok.step (h : Ok start size hsize s) {a : Act P} (ha : s.AtHome a) (hs : s.step a = .ok t) :
    Ok start size hsize t := by
  cases a with
  | beginOp p =>
    obtain ⟨o, ho, hs⟩ := bind_eq_ok.mp hs
    cases hs
    exact h.beginOp ho
  | bread p n =>
    obtain ⟨⟨i, st⟩, hst, hs⟩ := bind_eq_ok.mp hs
    cases hs
    exact h.bread hst
  | modify p i f =>
    simp only [Journal.step] at hs
    split_ifs at hs with hp
    cases hs
    exact h.modify hp.1 hp.2 ha
  | logWrite p i =>
    simp only [Journal.step] at hs
    split_ifs at hs with hl
    obtain ⟨o, ho, hs⟩ := bind_eq_ok.mp hs
    cases hs
    exact h.logWrite hl ha ho
  | brelse p i =>
    simp only [Journal.step] at hs
    split_ifs at hs with hu
    obtain ⟨st, hst, hs⟩ := bind_eq_ok.mp hs
    cases hs
    exact h.brelse hu hst
  | endOp p =>
    simp only [Journal.step] at hs
    split_ifs at hs with hu
    obtain ⟨o, ho, hs⟩ := bind_eq_ok.mp hs
    cases hs
    exact h.endOp (by simpa using hu) ho
  | commit =>
    simp only [Journal.step] at hs
    split at hs
    · cases hs
    · next p pc hcm => exact h.commitStep hcm hs
  | crash p ks =>
    obtain ⟨st, hst, hs⟩ := bind_eq_ok.mp hs
    cases hs
    exact h.crash hst

theorem reach_ok (h : (machine P start size).ReachWhere AtHome s) : Ok start size hsize s :=
  Machine.ReachWhere.invariant (I := Ok start size hsize) (fun _ => ok_init)
    (fun _ _ _ hok ha hs => hok.step ha hs) h

/-- If the machine stops here then the boot gets through, however often recovery is itself interrupted, and leaves every
    block outside the log area with its contents after the groups whose header has reached the disk, and an empty log;
    no operation has changes both in those groups and outside them. -/
theorem crash_atomic (start size : Nat) (hsize : 0 < size) (s : Journal P)
    (h : (machine P start size).ReachWhere AtHome s) (p : P) (ks : List Nat) :
    ∃ t, Store.reboot p start ks s.store.disk = .ok t ∧
      (∀ n, n < start ∨ start + size ≤ n → t.disk n = Mod.apply s.base s.groups.flatten n) ∧
      t.disk start 0 = 0 ∧ ∀ m ∈ s.groups.flatten, ∀ m' ∈ s.current, m.op ≠ m'.op := by
  have hok : Ok start size hsize s := reach_ok h
  obtain ⟨t, ht, -, -, hhead, hhome, -⟩ := Store.reboot_ok p ks hok.recoverable
  refine ⟨t, ht, hhome, ?_, hok.numbered.apart⟩
  have := congrArg List.length hhead
  simpa [Store.headOf] using this

def run (start size : Nat) (d : Nat → Block) (p : P) (as : List (Act P)) : Option (Journal P) := do
  let st ← (Store.recoverFromLog { disk := d } p start).toOption
  as.foldlM (fun s a => if s.AtHome a then (s.step a).toOption else none)
    { store := st, ops := { log := { start := start, size := size } }, base := d }

omit [Fintype P] in
theorem reach_run {d : Nat → Block} {as : List (Act P)} (hd : d start 0 = 0) (h : run start size d p as = some s) :
    (machine P start size).ReachWhere AtHome s := by
  obtain ⟨st, hst, h⟩ := Option.bind_eq_some_iff.mp h
  refine Machine.ReachWhere.foldlM ?_ (.init ⟨d, p, st, hd, toOption_eq_some.mp hst, rfl⟩) h
  intro s a t ht
  split_ifs at ht with ha
  exact ⟨ha, toOption_eq_some.mp ht⟩

/-- One operation writes 7 to block 100; its header reaches the disk, and then the machine stops. -/
def oneWrite : List (Act (Fin 1)) :=
  [.beginOp 0, .bread 0 100, .modify 0 ⟨1, one_lt_NBUF⟩ (fun d => update d 0 7), .logWrite 0 ⟨1, one_lt_NBUF⟩,
    .brelse 0 ⟨1, one_lt_NBUF⟩, .endOp 0, .commit, .commit]

/-- Block 100 is not installed yet; the boot does it, though its first two recoveries are interrupted. -/
theorem crash_atomic_oneWrite : ∃ (s : Journal (Fin 1)) (t : Store (Fin 1)),
    run 2 30 (fun _ _ => 0) 0 oneWrite = some s ∧ s.store.disk 100 0 = 0 ∧
    Store.reboot 0 2 [0, 1] s.store.disk = .ok t ∧ t.disk 100 0 = 7 ∧ t.disk 2 0 = 0 := by
  obtain ⟨s, hs, h⟩ := Option.exists_of_any (o := run 2 30 (fun _ _ => 0) (0 : Fin 1) oneWrite)
      (p := fun s => s.store.disk 100 0 = 0 ∧ Mod.apply s.base s.groups.flatten 100 0 = 7) (by decide +kernel)
  obtain ⟨t, ht, hhome, hhead, -⟩ := crash_atomic 2 30 (by decide) s (reach_run rfl hs) 0 [0, 1]
  exact ⟨s, t, hs, h.1, ht, by rw [hhome 100 (by decide)]; exact h.2, hhead⟩

end Journal
end Xv6
