import Xv6.Ide
import Xv6.Lib.Path
import Mathlib.Data.Fintype.Card

/-! The disk queue as a chain of buffers, and the invariant that ties it to the disk and to the processes in
    `iderw`. -/

namespace Xv6
open Function List

def IdeStage.inside : IdeStage → Option (Fin NBUF)
  | .out => none
  | .wants _ => none
  | .sleeps b => some b
  | .falls b => some b
  | .asleep b => some b
  | .woken b => some b

namespace Ide

variable {P : Type} {s t : Ide P} {p q : P} {b c z : Fin NBUF} {d : Buf P} {k : IdeCmd} {x : IdeStage} {i n : Nat}

def pending (s : Ide P) : List (P × Fin NBUF × IdeCmd) := s.asked.drop s.finished.length

/-- The queue is a chain of the buffers whose commands are pending, each with its caller inside. -/
structure Core (s : Ide P) : Prop where
  chain : PtrPath (fun o => o.bind s.qnext) s.idequeue (s.pending.map fun e => some e.2.1) none
  pend : ∀ i p b k, s.asked[i]? = some (p, b, k) → s.finished.length ≤ i →
    (s.stage p).inside = some b ∧ s.ticket p = i ∧ k = s.cmd b ∧ ¬s.Synced b
  inside : ∀ p b, (s.stage p).inside = some b → (s.buf b).lock = some p ∧ ∃ k, s.asked[s.ticket p]? = some (p, b, k)
  started : s.started = (s.asked.map (·.2)).take s.started.length
  finished : s.finished = s.started.take s.finished.length

/-- The disk is busy with the first pending command, unless `ideintr` is about to start it. -/
def DeviceOk (s : Ide P) : Prop :=
  match s.device with
  | .ready => s.started.length = s.finished.length ∧ (s.idequeue = none ∨ ∃ b, s.idelock = some (.intr b))
  | .busy k => s.started.length = s.finished.length + 1 ∧ (∃ p b, s.asked[s.finished.length]? = some (p, b, k)) ∧
    ∀ b, s.idelock ≠ some (.intr b)
  | .done k _ => s.started.length = s.finished.length + 1 ∧ (∃ p b, s.asked[s.finished.length]? = some (p, b, k)) ∧
    ∀ b, s.idelock ≠ some (.intr b)

structure Inv (s : Ide P) : Prop extends Core s where
  /-- A process whose command is finished finds its buffer synced; while it sleeps, its wakeup is to come. -/
  late : ∀ p b, (s.stage p).inside = some b → s.ticket p < s.finished.length →
    s.Synced b ∧ s.stage p ≠ .sleeps b ∧ (s.stage p = .asleep b ∨ s.stage p = .falls b → s.idelock = some (.intr b))
  wants : ∀ p b, s.stage p = .wants b → (s.buf b).lock = some p ∧ ¬s.Synced b
  proc : ∀ p, s.idelock = some (.proc p) ↔ ∃ b, s.stage p = .sleeps b
  plock : ∀ p, s.plock = some p ↔ ∃ b, s.stage p = .falls b
  device : s.DeviceOk

/-! ### The queue -/

theorem Core.finished_le (h : Core s) : s.finished.length ≤ s.started.length := by
  rw [h.finished]
  exact length_take_le' _ _

theorem Core.started_le (h : Core s) : s.started.length ≤ s.asked.length := by
  have := congrArg List.length h.started
  rw [length_take, length_map] at this
  omega

theorem mem_pending {e : P × Fin NBUF × IdeCmd} : e ∈ s.pending ↔ ∃ i, s.finished.length ≤ i ∧
    s.asked[i]? = some e := by
  rw [pending, mem_iff_getElem?]
  simp only [List.getElem?_drop]
  exact ⟨fun ⟨i, hi⟩ => ⟨_, Nat.le_add_right .., hi⟩, fun ⟨i, hi, he⟩ => ⟨i - s.finished.length, by
    rwa [Nat.add_sub_cancel' hi]⟩⟩

theorem Core.nodup (h : Core s) : (s.pending.map fun e => e.2.1).Nodup := by
  rw [nodup_iff_injective_get]
  rintro ⟨i, hi⟩ ⟨j, hj⟩ hij
  have key : ∀ i (hi : i < (s.pending.map fun e => e.2.1).length), ∃ p k, s.asked[s.finished.length + i]? =
      some (p, (s.pending.map fun e => e.2.1)[i], k) := by
    intro i hi
    rw [length_map] at hi
    refine ⟨(s.pending[i]).1, (s.pending[i]).2.2, ?_⟩
    rw [getElem_map, ← List.getElem?_drop, ← pending, List.getElem?_eq_getElem hi]
  obtain ⟨p, k, hp⟩ := key i hi
  obtain ⟨q, k', hq⟩ := key j hj
  simp only [get_eq_getElem] at hij
  rw [hij] at hp
  obtain ⟨h1, t1, -⟩ := h.pend _ _ _ _ hp (Nat.le_add_right ..)
  obtain ⟨h2, t2, -⟩ := h.pend _ _ _ _ hq (Nat.le_add_right ..)
  have hpq : p = q := Option.some.inj ((h.inside p _ h1).1.symm.trans (h.inside q _ h2).1)
  subst hpq
  simp only [Fin.mk.injEq]
  omega

theorem last_eq {qnext : Fin NBUF → Option (Fin NBUF)} {l : List (Fin NBUF)}
    (h : PtrPath (fun o => o.bind qnext) (some c) ((l ++ [z]).map some) none)
    (hn : l.length < n) : last qnext n c = some z := by
  induction l generalizing c n with
  | nil =>
    obtain _ | n := n
    · omega
    obtain ⟨rfl, hz⟩ : c = z ∧ qnext z = none := by
      obtain ⟨h1, h2⟩ := h
      exact ⟨Option.some.inj h1, h2⟩
    rw [last, hz]
  | cons a l ih =>
    obtain _ | n := n
    · omega
    obtain ⟨h1, h2⟩ := h
    obtain rfl := Option.some.inj h1
    rw [length_cons] at hn
    have hne : ∃ d, qnext c = some d := by
      have := h2.eq_headD
      cases l with
      | nil => exact ⟨z, this⟩
      | cons d l => exact ⟨d, this⟩
    obtain ⟨d, hd⟩ := hne
    have h2 : PtrPath (fun o => o.bind qnext) (qnext c) ((l ++ [z]).map some) none := h2
    rw [hd] at h2
    rw [last, hd]
    exact ih h2 (by omega)

theorem append_eq {l : List (Fin NBUF)} (h : PtrPath (fun o => o.bind s.qnext) s.idequeue (l.map some) none)
    (hl : l.Nodup) (hb : b ∉ l) : ∃ qnext, s.append b = some { s with qnext := qnext, idequeue := some (l.headD b) } ∧
      PtrPath (fun o => o.bind qnext) (some (l.headD b)) ((l ++ [b]).map some) none := by
  obtain ⟨q', hq'⟩ : ∃ q', q' = update s.qnext b none := ⟨_, rfl⟩
  have hqb : q' b = none := by rw [hq', update_self]
  have h' : PtrPath (fun o => o.bind q') s.idequeue (l.map some) none := h.congr fun o ho => by
    obtain ⟨c, hc, rfl⟩ := mem_map.mp ho
    have hne : c ≠ b := fun he => hb (he ▸ hc)
    simp only [Option.bind_some, hq', update_of_ne hne]
  rcases eq_nil_or_concat l with rfl | ⟨l, z, rfl⟩
  · have h0 : s.idequeue = none := h
    refine ⟨q', ?_, rfl, hqb⟩
    simp only [append, h0, hq']
    rfl
  · rw [concat_eq_append] at *
    have hhead : s.idequeue = some ((l ++ [z]).headD b) := by
      rw [h.eq_headD]
      cases l <;> rfl
    have hlen : l.length < NBUF := by
      have := List.Nodup.length_le_card hl
      rw [length_append, length_singleton, Fintype.card_fin] at this
      omega
    have hzl : z ∉ l := fun hz => (nodup_append.mp hl).2.2 z hz z (mem_singleton_self z) rfl
    have hbz : b ≠ z := fun he => hb (he ▸ mem_append_right _ (mem_singleton_self _))
    rw [hhead] at h'
    refine ⟨update q' z (some b), ?_, ?_⟩
    · simp only [append, hhead, ← hq', last_eq h' hlen]
      rw [← hhead]
      rfl
    · rw [map_append] at h' ⊢
      have hcut := PtrPath.append_cons_iff.mp h'
      rw [map_append, append_assoc]
      refine PtrPath.append_cons_iff.mpr ⟨hcut.1.congr fun o ho => ?_, ?_, ?_⟩
      · obtain ⟨c, hc, rfl⟩ := mem_map.mp ho
        have hne : c ≠ z := fun he => hzl (he ▸ hc)
        simp only [Option.bind_some, update_of_ne hne]
      · exact update_self ..
      · change update q' z (some b) b = none
        rw [update_of_ne hbz, hqb]

theorem Core.idequeue_none (h : Core s) : s.idequeue = none ↔ s.pending = [] := by
  have := h.chain.eq_headD
  cases hp : s.pending with
  | nil =>
    rw [hp] at this
    exact ⟨fun _ => rfl, fun _ => this⟩
  | cons e l =>
    rw [hp] at this
    rw [this]
    exact ⟨fun h => (by cases h), fun h => (by cases h)⟩

theorem Core.idequeue_some (h : Core s) (hb : s.idequeue = some b) :
    ∃ p k, s.asked[s.finished.length]? = some (p, b, k) ∧
      s.pending = (p, b, k) :: s.asked.drop (s.finished.length + 1) := by
  cases hp : s.pending with
  | nil =>
    rw [h.idequeue_none.mpr hp] at hb
    cases hb
  | cons e l =>
    have hhead := h.chain.eq_headD
    rw [hp, hb] at hhead
    obtain rfl := Option.some.inj hhead
    have h0 : s.pending[0]? = some e := by rw [hp]; rfl
    rw [pending, List.getElem?_drop, Nat.add_zero] at h0
    refine ⟨e.1, e.2.2, h0, ?_⟩
    rw [← hp, pending, drop_eq_getElem_cons (List.getElem?_eq_some_iff.mp h0).1, (List.getElem?_eq_some_iff.mp h0).2]

/-! ### The disk -/

theorem cmd_setBuf_ne (hc : c ≠ b) : (s.setBuf b d).cmd c = s.cmd c := by
  simp only [cmd, setBuf, update_of_ne hc]

theorem synced_setBuf_ne (hc : c ≠ b) : (s.setBuf b d).Synced c ↔ s.Synced c := by
  simp only [Synced, setBuf, update_of_ne hc]

theorem Inv.setBuf (h : Inv s) (hb : ∀ p, (s.stage p).inside ≠ some b ∧ s.stage p ≠ .wants b) : Inv (s.setBuf b d) where
  chain := h.chain
  pend i p c k hi hle := by
    obtain ⟨h1, h2, h3, h4⟩ := h.pend i p c k hi hle
    have hne : c ≠ b := fun he => (hb p).1 (he ▸ h1)
    exact ⟨h1, h2, by rw [cmd_setBuf_ne hne, h3], by rwa [synced_setBuf_ne hne]⟩
  inside p c hp := by
    have hne : c ≠ b := fun he => (hb p).1 (he ▸ hp)
    obtain ⟨h1, h2⟩ := h.inside p c hp
    exact ⟨by simpa only [Ide.setBuf, update_of_ne hne] using h1, h2⟩
  started := h.started
  finished := h.finished
  late p c hp hlt := by
    have hne : c ≠ b := fun he => (hb p).1 (he ▸ hp)
    rw [synced_setBuf_ne hne]
    exact h.late p c hp hlt
  wants p c hp := by
    have hne : c ≠ b := fun he => (hb p).2 (he ▸ hp)
    obtain ⟨h1, h2⟩ := h.wants p c hp
    exact ⟨by simpa only [Ide.setBuf, update_of_ne hne] using h1, by rwa [synced_setBuf_ne hne]⟩
  proc := h.proc
  plock := h.plock
  device := h.device

theorem Inv.idle_of_lock (h : Inv s) (hl : ∀ p, (s.buf b).lock = some p → s.stage p = .out) (p : P) :
    (s.stage p).inside ≠ some b ∧ s.stage p ≠ .wants b := by
  refine ⟨fun hp => ?_, fun hp => ?_⟩
  · rw [hl p (h.inside p b hp).1] at hp
    cases hp
  · rw [hl p (h.wants p b hp).1] at hp
    cases hp

theorem DeviceOk.ready_of_empty (h : s.DeviceOk) (hp : s.pending = []) :
    s.device = .ready ∧ s.started.length = s.finished.length := by
  have hno : ∀ e, s.asked[s.finished.length]? ≠ some e := fun e he => by
    have : e ∈ s.pending := mem_pending.mpr ⟨_, le_rfl, he⟩
    rw [hp] at this
    cases this
  unfold DeviceOk at h
  split at h
  · rename_i hd
    exact ⟨hd, h.1⟩
  · obtain ⟨-, ⟨p, b, he⟩, -⟩ := h
    exact absurd he (hno _)
  · obtain ⟨-, ⟨p, b, he⟩, -⟩ := h
    exact absurd he (hno _)

theorem DeviceOk.ready_of_intr (h : s.DeviceOk) (hl : s.idelock = some (.intr b)) :
    s.device = .ready ∧ s.started.length = s.finished.length := by
  unfold DeviceOk at h
  split at h
  · rename_i hd
    exact ⟨hd, h.1⟩
  · exact absurd hl (h.2.2 b)
  · exact absurd hl (h.2.2 b)

theorem idestart_eq (hd : s.device = .ready) : s.idestart b = if (s.buf b).blockno ≥ FSSIZE then none
      else some { s with device := .busy (s.cmd b), started := s.started ++ [(b, s.cmd b)] } := by
  rw [idestart, hd]

theorem idestart_some (hs : s.idestart b = some t) :
    t = { s with device := .busy (s.cmd b), started := s.started ++ [(b, s.cmd b)] } := by
  unfold idestart at hs
  split_ifs at hs
  split at hs
  · cases hs
  · exact (Option.some.inj hs).symm

theorem started_push {asked : List (P × Fin NBUF × IdeCmd)} {started : List (Fin NBUF × IdeCmd)}
    (h : started = (asked.map (·.2)).take started.length) (hk : asked[started.length]? = some (p, b, k)) :
    started ++ [(b, k)] = (asked.map (·.2)).take (started ++ [(b, k)]).length := by
  rw [length_append, length_singleton, take_add_one, ← h, List.getElem?_map, hk]
  rfl

theorem Core.not_pending (h : Core s) (hb : (s.buf b).lock = some p) (hp : (s.stage p).inside = none) :
    b ∉ s.pending.map fun e => e.2.1 := by
  rw [mem_map]
  rintro ⟨⟨q, c, k⟩, he, rfl⟩
  obtain ⟨i, hle, hi⟩ := mem_pending.mp he
  have hin := (h.pend i q c k hi hle).1
  have hqp : q = p := Option.some.inj ((h.inside q c hin).1.symm.trans hb)
  rw [hqp, hp] at hin
  cases hin

theorem Inv.active (h : Inv s) (hk : s.device = .busy k ∨ ∃ data, s.device = .done k data) :
    ∃ p b, s.asked[s.finished.length]? = some (p, b, k) ∧ s.idequeue = some b ∧ k = s.cmd b ∧
      s.started.length = s.finished.length + 1 := by
  have hdev := h.device
  unfold DeviceOk at hdev
  obtain ⟨hlen, p, b, hask⟩ : s.started.length = s.finished.length + 1 ∧
      ∃ p b, s.asked[s.finished.length]? = some (p, b, k) := by
    rcases hk with hk | ⟨data, hk⟩
    · rw [hk] at hdev
      exact ⟨hdev.1, hdev.2.1⟩
    · rw [hk] at hdev
      exact ⟨hdev.1, hdev.2.1⟩
  refine ⟨p, b, hask, ?_, (h.pend _ _ _ _ hask le_rfl).2.2.1, hlen⟩
  cases hq : s.idequeue with
  | none =>
    have : (p, b, k) ∈ s.pending := mem_pending.mpr ⟨_, le_rfl, hask⟩
    rw [h.idequeue_none.mp hq] at this
    cases this
  | some c =>
    obtain ⟨q, k', hk', -⟩ := h.idequeue_some hq
    rw [hask] at hk'
    cases hk'
    rfl

theorem Inv.ideintr (h : Inv s) {data : Block} (hd : s.device = .done k data) (hl : s.idelock = none) :
    Inv (s.ideintr k data) := by
  have hno : ∀ z, s.idelock ≠ some z := fun z hz => by rw [hl] at hz; cases hz
  obtain ⟨p, b, hk, hq, -, hlen⟩ := h.active (.inr ⟨data, hd⟩)
  obtain ⟨hp, htick, -, -⟩ := h.pend _ _ _ _ hk le_rfl
  have hlock := (h.inside p b hp).1
  -- nobody else is inside with `b`
  have hne : ∀ q c, (s.stage q).inside = some c → s.ticket q ≠ s.finished.length → c ≠ b := by
    rintro q c hqc htq rfl
    have hqp : q = p := Option.some.inj ((h.inside q c hqc).1.symm.trans hlock)
    exact htq (hqp ▸ htick)
  have hlen' : (s.finished ++ [(b, k)]).length = s.finished.length + 1 := length_append
  obtain ⟨t, ht⟩ : ∃ t, t = s.ideintr k data := ⟨_, rfl⟩
  obtain ⟨d, hdv, hdd, hdl, hbuf⟩ : ∃ d : Buf P, d.valid = true ∧ d.dirty = false ∧ d.lock = (s.buf b).lock ∧
      t = { s.setBuf b d with device := .ready, idequeue := s.qnext b, idelock := some (.intr b),
                              finished := s.finished ++ [(b, k)] } :=
    ⟨{ s.buf b with data := if (s.buf b).dirty then (s.buf b).data else data, valid := true, dirty := false }, rfl, rfl,
      rfl, by
      rw [ht, Ide.ideintr]
      simp only [hq]
      rfl⟩
  rw [← ht]
  have hpend : t.pending = s.asked.drop (s.finished.length + 1) := by
    rw [hbuf]
    exact congrArg (List.drop · s.asked) hlen'
  subst hbuf
  refine ⟨⟨?_, fun i q c k' hi hfi => ?_, fun q c hqc => ?_, h.started, ?_⟩, fun q c hqc hlt => ?_, fun q c hqc => ?_,
    fun q => ⟨fun hc => (by cases hc), fun hc => absurd ((h.proc q).mpr hc) (hno _)⟩, h.plock, ?_⟩
  · have hchain := h.chain
    obtain ⟨p', k', -, hpend'⟩ := h.idequeue_some hq
    rw [hpend', map_cons] at hchain
    rw [hpend]
    exact hchain.2
  · change (s.finished ++ [(b, k)]).length ≤ i at hfi
    obtain ⟨h1, h2, h3, h4⟩ := h.pend i q c k' hi (by omega)
    have hcb := hne q c h1 (by omega)
    refine ⟨h1, h2, h3.trans (cmd_setBuf_ne hcb).symm, fun hc => h4 ((synced_setBuf_ne hcb).mp hc)⟩
  · obtain ⟨h1, h2⟩ := h.inside q c hqc
    refine ⟨?_, h2⟩
    change (update s.buf b d c).lock = some q
    rw [update_apply]
    split_ifs with hcb
    · rw [hdl, ← hcb, h1]
    · exact h1
  · change s.finished ++ [(b, k)] = s.started.take (s.finished ++ [(b, k)]).length
    rw [hlen', take_add_one, ← h.finished, h.started, List.getElem?_take_of_lt (by omega), List.getElem?_map, hk]
    rfl
  · change s.ticket q < (s.finished ++ [(b, k)]).length at hlt
    rcases Nat.lt_or_ge (s.ticket q) s.finished.length with hlt' | hge
    · have hcb := hne q c hqc (by omega)
      obtain ⟨h1, h2, h3⟩ := h.late q c hqc hlt'
      exact ⟨(synced_setBuf_ne hcb).mpr h1, h2, fun ha => absurd (h3 ha) (hno _)⟩
    · -- the command finished is its own
      obtain ⟨-, k', hk'⟩ := h.inside q c hqc
      rw [show s.ticket q = s.finished.length by omega, hk] at hk'
      cases hk'
      refine ⟨?_, fun hc => absurd ((h.proc p).mpr ⟨b, hc⟩) (hno _), fun _ => rfl⟩
      change (update s.buf b d b).valid = true ∧ (update s.buf b d b).dirty = false
      rw [update_self]
      exact ⟨hdv, hdd⟩
  · change s.stage q = .wants c at hqc
    obtain ⟨h1, h2⟩ := h.wants q c hqc
    have hcb : c ≠ b := by
      rintro rfl
      have hqp : q = p := Option.some.inj (h1.symm.trans hlock)
      rw [← hqp, hqc] at hp
      cases hp
    refine ⟨?_, fun hc => h2 ((synced_setBuf_ne hcb).mp hc)⟩
    change (update s.buf b d c).lock = some q
    rwa [update_of_ne hcb]
  · exact ⟨hlen.trans hlen'.symm, .inr ⟨b, rfl⟩⟩

def woke (s : Ide P) (b : Fin NBUF) : Ide P :=
  { s with stage := fun p => if s.stage p = IdeStage.asleep b then .woken b else s.stage p, idelock := none }

theorem woke_stage (s : Ide P) (b : Fin NBUF) (q : P) :
    (s.woke b).stage q = if s.stage q = IdeStage.asleep b then .woken b else s.stage q := rfl

theorem woke_inside (s : Ide P) (b : Fin NBUF) (q : P) : ((s.woke b).stage q).inside = (s.stage q).inside := by
  rw [woke_stage]
  split_ifs with hq
  · rw [hq]
    rfl
  · rfl

theorem Inv.woke (h : Inv s) (hl : s.idelock = some (.intr b)) (hm : s.plock = none) (st : List (Fin NBUF × IdeCmd))
    (d : IdeDevice) (hst : st = (s.asked.map (·.2)).take st.length) (hfin : s.finished = st.take s.finished.length)
    (hd : DeviceOk { s.woke b with started := st, device := d }) :
    Inv { s.woke b with started := st, device := d } := by
  have hin := woke_inside s b
  have hstage := woke_stage s b
  refine ⟨⟨h.chain, fun i q c k hi hfi => ?_, fun q c hqc => h.inside q c ((hin q).symm.trans hqc), hst, hfin⟩,
    fun q c hqc hlt => ?_, fun q c hqc => ?_, fun q => ?_, fun q => ?_, hd⟩
  · obtain ⟨h1, h2⟩ := h.pend i q c k hi hfi
    exact ⟨(hin q).trans h1, h2⟩
  · obtain ⟨h1, h2, h3⟩ := h.late q c ((hin q).symm.trans hqc) hlt
    refine ⟨h1, fun hc => ?_, fun hc => ?_⟩
    · change (s.woke b).stage q = _ at hc
      rw [hstage] at hc
      split_ifs at hc
      exact h2 hc
    · change (s.woke b).stage q = _ ∨ (s.woke b).stage q = _ at hc
      rw [hstage] at hc
      split_ifs at hc with hq
      · rcases hc with hc | hc <;> cases hc
      · -- only the process of `b` could have been asleep
        have := h3 hc
        rw [hl] at this
        cases this
        rcases hc with hc | hc
        · exact absurd hc hq
        · have := (h.plock q).mpr ⟨_, hc⟩
          rw [hm] at this
          cases this
  · change (s.woke b).stage q = .wants c at hqc
    rw [hstage] at hqc
    split_ifs at hqc
    exact h.wants q c hqc
  · change none = _ ↔ ∃ c, (s.woke b).stage q = _
    rw [hstage]
    refine ⟨fun hc => (by cases hc), fun ⟨c, hc⟩ => ?_⟩
    split_ifs at hc
    have := (h.proc q).mpr ⟨c, hc⟩
    rw [hl] at this
    cases this
  · change s.plock = _ ↔ ∃ c, (s.woke b).stage q = _
    rw [hstage]
    refine (h.plock q).trans ⟨fun ⟨c, hc⟩ => ⟨c, by rw [if_neg (by rw [hc]; simp), hc]⟩, fun ⟨c, hc⟩ => ?_⟩
    split_ifs at hc
    exact ⟨c, hc⟩

theorem wakeup_eq (s : Ide P) (b : Fin NBUF) : s.wakeup b = match s.idequeue with
    | none => some (s.woke b)
    | some c => (s.woke b).idestart c := rfl

theorem Inv.wakeup (h : Inv s) (hl : s.idelock = some (.intr b)) (hm : s.plock = none) (hs : s.wakeup b = some t) :
    Inv t := by
  obtain ⟨hd, hlen⟩ := h.device.ready_of_intr hl
  rw [wakeup_eq] at hs
  cases hq : s.idequeue with
  | none =>
    rw [hq] at hs
    obtain rfl := Option.some.inj hs
    refine h.woke hl hm s.started s.device h.started h.finished ?_
    rw [hd]
    exact ⟨hlen, .inl hq⟩
  | some c =>
    rw [hq] at hs
    obtain rfl := idestart_some hs
    obtain ⟨p, k, hk, -⟩ := h.idequeue_some hq
    obtain rfl : k = s.cmd c := (h.pend _ _ _ _ hk le_rfl).2.2.1
    have hk' : s.asked[s.started.length]? = some (p, c, s.cmd c) := by rw [hlen, hk]
    refine h.woke hl hm _ _ (started_push h.started hk') ?_ ⟨?_, ⟨p, c, hk⟩, fun z hz => (by cases hz)⟩
    · change s.finished = (s.started ++ [(c, s.cmd c)]).take s.finished.length
      rw [take_append_of_le_length h.finished_le]
      exact h.finished
    · change (s.started ++ [(c, s.cmd c)]).length = s.finished.length + 1
      rw [length_append, hlen]
      rfl

/-! ### Steps of the processes -/

variable [DecidableEq P]

theorem Core.goto (h : Core s) (hx : x.inside = (s.stage p).inside) (l : Option (IdeHolder P)) (m : Option P) :
    Core { s.goto p x with idelock := l, plock := m } := by
  have hin : ∀ q, (update s.stage p x q).inside = (s.stage q).inside := by
    intro q
    rw [update_apply]
    split
    · rename_i hq
      rw [hq, hx]
    · rfl
  exact ⟨h.chain, fun i q b k hi hle => by
    obtain ⟨h1, h2⟩ := h.pend i q b k hi hle
    exact ⟨(hin q).trans h1, h2⟩, fun q b hq => h.inside q b ((hin q).symm.trans hq), h.started, h.finished⟩

theorem goto_stage (s : Ide P) (p : P) (x : IdeStage) (q : P) : (s.goto p x).stage q = if q = p then x else s.stage q :=
  update_apply ..

theorem DeviceOk.goto (h : s.DeviceOk) {l : Option (IdeHolder P)}
    (hl : ∀ b, l = some (.intr b) ↔ s.idelock = some (.intr b))
    (m : Option P) : DeviceOk { s.goto p x with idelock := l, plock := m } := by
  unfold DeviceOk at h ⊢
  change match s.device with
    | .ready => s.started.length = s.finished.length ∧ (s.idequeue = none ∨ ∃ b, l = some (.intr b))
    | .busy k => s.started.length = s.finished.length + 1 ∧ (∃ p b, s.asked[s.finished.length]? = some (p, b, k)) ∧
      ∀ b, l ≠ some (.intr b)
    | .done k _ => s.started.length = s.finished.length + 1 ∧ (∃ p b, s.asked[s.finished.length]? = some (p, b, k)) ∧
      ∀ b, l ≠ some (.intr b)
  simpa only [ne_eq, hl] using h

theorem Inv.goto (h : Inv s) (hx : x.inside = (s.stage p).inside) {l : Option (IdeHolder P)} {m : Option P}
    (hl : ∀ z, z ≠ IdeHolder.proc p → (l = some z ↔ s.idelock = some z))
    (hm : ∀ q, q ≠ p → (m = some q ↔ s.plock = some q))
    (hlate : ∀ b, x.inside = some b → s.ticket p < s.finished.length →
      s.Synced b ∧ x ≠ .sleeps b ∧ (x = .asleep b ∨ x = .falls b → l = some (.intr b)))
    (hwants : ∀ b, x = .wants b → (s.buf b).lock = some p ∧ ¬s.Synced b)
    (hlp : l = some (.proc p) ↔ ∃ b, x = .sleeps b) (hmp : m = some p ↔ ∃ b, x = .falls b) :
    Inv { s.goto p x with idelock := l, plock := m } := by
  have hst := goto_stage s p x
  have hintr : ∀ c, l = some (.intr c) ↔ s.idelock = some (.intr c) := fun c => hl _ (by simp)
  refine ⟨h.toCore.goto hx l m, fun q c hq hlt => ?_, fun q c hq => ?_, fun q => ?_, fun q => ?_, h.device.goto hintr m⟩
  · change ((s.goto p x).stage q).inside = some c at hq
    change s.Synced c ∧ (s.goto p x).stage q ≠ _ ∧ ((s.goto p x).stage q = _ ∨ (s.goto p x).stage q = _ → _)
    rw [hst] at hq ⊢
    split_ifs at hq ⊢ with hqp
    · exact hlate c hq (hqp ▸ hlt)
    · obtain ⟨h1, h2, h3⟩ := h.late q c hq hlt
      exact ⟨h1, h2, fun ha => (hintr c).mpr (h3 ha)⟩
  · change (s.goto p x).stage q = .wants c at hq
    rw [hst] at hq
    split_ifs at hq with hqp
    · exact hqp ▸ hwants c hq
    · exact h.wants q c hq
  · change l = _ ↔ ∃ c, (s.goto p x).stage q = _
    rw [hst]
    split_ifs with hqp
    · exact hqp ▸ hlp
    · exact (hl _ (by simpa using hqp)).trans (h.proc q)
  · change m = _ ↔ ∃ c, (s.goto p x).stage q = _
    rw [hst]
    split_ifs with hqp
    · exact hqp ▸ hmp
    · exact (hm q hqp).trans (h.plock q)

theorem Inv.iderw (h : Inv s) (hp : s.stage p = .out) (hs : s.iderw p b = some t) : Inv t := by
  unfold Ide.iderw at hs
  split_ifs at hs with h1 h2 h3
  obtain rfl := Option.some.inj hs
  rw [not_not] at h1
  refine h.goto (by rw [hp]; rfl) (fun _ _ => Iff.rfl) (fun _ _ => Iff.rfl) (fun _ hc => (by cases hc)) ?_ ?_ ?_
  · rintro c hc
    cases hc
    exact ⟨h1, h2⟩
  · rw [h.proc, hp]
    simp
  · rw [h.plock, hp]
    simp

theorem Inv.sleep (h : Inv s) (hp : s.stage p = .sleeps b) (hm : s.plock = none) :
    Inv { s.goto p (.falls b) with plock := some p, idelock := none } := by
  have hl : s.idelock = some (.proc p) := (h.proc p).mpr ⟨b, hp⟩
  refine h.goto (by rw [hp]; rfl) (fun z hz => ?_) (fun q hq => ?_) (fun c hc hlt => ?_) (by simp) (by simp) (by simp)
  · rw [hl]
    simpa using hz.symm
  · rw [hm]
    simpa using hq.symm
  · cases hc
    exact absurd hp (h.late p b (by rw [hp]; rfl) hlt).2.1

theorem Inv.doze (h : Inv s) (hp : s.stage p = .falls b) : Inv { s.goto p (.asleep b) with plock := none } := by
  have hm : s.plock = some p := (h.plock p).mpr ⟨b, hp⟩
  refine h.goto (by rw [hp]; rfl) (fun z _ => Iff.rfl) (fun q hq => ?_) (fun c hc hlt => ?_) (by simp) ?_ (by simp)
  · rw [hm]
    simpa using hq.symm
  · cases hc
    obtain ⟨h1, -, h3⟩ := h.late p b (by rw [hp]; rfl) hlt
    exact ⟨h1, by simp, fun _ => h3 (.inr hp)⟩
  · refine (h.proc p).trans ?_
    rw [hp]
    simp

theorem Inv.kill (h : Inv s) (hp : s.stage p = .asleep b) : Inv (s.goto p (.woken b)) := by
  refine h.goto (by rw [hp]; rfl) (fun z _ => Iff.rfl) (fun q _ => Iff.rfl) (fun c hc hlt => ?_) (by simp) ?_ ?_
  · cases hc
    exact ⟨(h.late p b (by rw [hp]; rfl) hlt).1, by simp, by simp⟩
  · rw [h.proc, hp]
    simp
  · rw [h.plock, hp]
    simp

theorem Inv.leave (h : Inv s) (hp : s.stage p = .woken b) (hb : s.Synced b) : Inv (s.goto p .out) := by
  have hst := goto_stage s p .out
  have hin : ∀ q c, ((s.goto p .out).stage q).inside = some c → q ≠ p ∧ (s.stage q).inside = some c := by
    intro q c hq
    rw [hst] at hq
    split_ifs at hq with hqp
    · cases hq
    · exact ⟨hqp, hq⟩
  have hstage : ∀ q, q ≠ p → (s.goto p .out).stage q = s.stage q := fun q hq => by rw [hst, if_neg hq]
  refine ⟨⟨h.chain, fun i q c k hi hle => ?_, fun q c hq => h.inside q c (hin q c hq).2, h.started, h.finished⟩,
    fun q c hq hlt => ?_, fun q c hq => ?_, fun q => ?_, fun q => ?_, h.device.goto (fun _ => Iff.rfl) s.plock⟩
  · obtain ⟨h1, h2, h3, h4⟩ := h.pend i q c k hi hle
    have hqp : q ≠ p := by
      rintro rfl
      rw [hp] at h1
      cases h1
      exact h4 hb
    exact ⟨by rwa [hstage q hqp], h2, h3, h4⟩
  · obtain ⟨hqp, hq⟩ := hin q c hq
    rw [hstage q hqp]
    exact h.late q c hq hlt
  · rw [hst] at hq
    split_ifs at hq with hqp
    exact h.wants q c hq
  · rw [hst]
    refine (h.proc q).trans ?_
    split_ifs with hqp
    · rw [hqp, hp]
      simp
    · exact Iff.rfl
  · rw [hst]
    refine (h.plock q).trans ?_
    split_ifs with hqp
    · rw [hqp, hp]
      simp
    · exact Iff.rfl

theorem Inv.resume (h : Inv s) (hp : s.stage p = .woken b) (hl : s.idelock = none) : Inv (s.test p b) := by
  unfold test
  split_ifs with hb
  · have := h.leave hp hb
    rwa [← hl]
  · refine h.goto (by rw [hp]; rfl) (fun z hz => ?_) (fun q _ => Iff.rfl) (fun c hc hlt => ?_) (by simp) (by simp) ?_
    · rw [hl]
      simpa using hz.symm
    · cases hc
      exact absurd (h.late p b (by rw [hp]; rfl) hlt).1 hb
    · refine (h.plock p).trans ?_
      rw [hp]
      simp

def appended (s : Ide P) (p : P) (b : Fin NBUF) (qnext : Fin NBUF → Option (Fin NBUF)) : Ide P :=
  { s with asked := s.asked ++ [(p, b, s.cmd b)], ticket := update s.ticket p s.asked.length, qnext := qnext,
           idequeue := some ((s.pending.map fun e => e.2.1).headD b), stage := update s.stage p (.sleeps b),
           idelock := some (.proc p) }

section

variable (h : Inv s) (hp : s.stage p = .wants b)
include h hp

theorem Inv.enter_eq :
    ∃ qnext, PtrPath (fun o => o.bind qnext) (some ((s.pending.map fun e => e.2.1).headD b))
        (((s.pending.map fun e => e.2.1) ++ [b]).map some) none ∧
      s.enter p b = if s.pending = [] then (s.appended p b qnext).idestart b else some (s.appended p b qnext) := by
  obtain ⟨hlock, hns⟩ := h.wants p b hp
  have hb := h.toCore.not_pending hlock (by rw [hp]; rfl)
  have hchain := h.chain
  rw [show (s.pending.map fun e => some e.2.1) = (s.pending.map fun e => e.2.1).map some by rw [map_map]; rfl] at hchain
  obtain ⟨qnext, happ, hpath⟩ := append_eq
    (s := { s with asked := s.asked ++ [(p, b, s.cmd b)], ticket := update s.ticket p s.asked.length })
    hchain h.toCore.nodup hb
  refine ⟨qnext, hpath, ?_⟩
  have hhead : (some ((s.pending.map fun e => e.2.1).headD b) = some b) ↔ s.pending = [] := by
    cases he : s.pending with
    | nil => simp
    | cons e l =>
      rw [he] at hb
      simpa using fun hc : e.2.1 = b => hb (by simp [hc])
  unfold enter
  simp only [happ, Option.bind_eq_bind, Option.bind_some]
  by_cases he : s.pending = []
  · have hd := (h.device.ready_of_empty he).1
    rw [if_pos he, if_pos (hhead.mpr he), idestart_eq, idestart_eq]
    · change (if (s.buf b).blockno ≥ FSSIZE then none else some _).bind _ = if (s.buf b).blockno ≥ FSSIZE then none
        else some _
      split_ifs with hblk
      · rfl
      · exact congrArg some (if_neg hns)
    · exact hd
    · exact hd
  · rw [if_neg he, if_neg (fun hc => he (hhead.mp hc))]
    exact congrArg some (if_neg hns)

theorem Inv.appended (hl : s.idelock = none) {qnext : Fin NBUF → Option (Fin NBUF)}
    (hq : PtrPath (fun o => o.bind qnext) (some ((s.pending.map fun e => e.2.1).headD b))
      (((s.pending.map fun e => e.2.1) ++ [b]).map some) none) (st : List (Fin NBUF × IdeCmd)) (d : IdeDevice)
    (hst : st = ((s.appended p b qnext).asked.map (·.2)).take st.length) (hfin : s.finished = st.take s.finished.length)
    (hd : DeviceOk { s.appended p b qnext with started := st, device := d }) :
    Inv { s.appended p b qnext with started := st, device := d } := by
  obtain ⟨hlock, hns⟩ := h.wants p b hp
  have hle : s.finished.length ≤ s.asked.length := h.finished_le.trans h.started_le
  have hstage : ∀ q, q ≠ p → update s.stage p (.sleeps b) q = s.stage q := fun q hqp => update_of_ne hqp ..
  have hticket : ∀ q, q ≠ p → update s.ticket p s.asked.length q = s.ticket q :=
    fun q hqp => update_of_ne hqp ..
  have hout : ∀ q c, (s.stage q).inside = some c → q ≠ p := by
    rintro q c hc rfl
    rw [hp] at hc
    cases hc
  have hno : ∀ z, s.idelock ≠ some z := fun z hz => by rw [hl] at hz; cases hz
  refine ⟨⟨?_, fun i q c k hi hfi => ?_, fun q c hqc => ?_, hst, hfin⟩, fun q c hqc hlt => ?_, fun q c hqc => ?_,
    fun q => ?_, fun q => ?_, hd⟩
  · have : pending { s.appended p b qnext with started := st, device := d } = s.pending ++ [(p, b, s.cmd b)] :=
      drop_append_of_le_length hle
    rw [this, map_append]
    rw [map_append, map_map] at hq
    exact hq
  · -- the last command asked for is that of `p`
    change (s.asked ++ [(p, b, s.cmd b)])[i]? = some (q, c, k) at hi
    change (update s.stage p (.sleeps b) q).inside = some c ∧ update s.ticket p s.asked.length q = i ∧
      k = s.cmd c ∧ ¬s.Synced c
    rcases Nat.lt_or_ge i s.asked.length with hlt | hge
    · rw [List.getElem?_append_left hlt] at hi
      obtain ⟨h1, h2⟩ := h.pend i q c k hi hfi
      rw [hstage q (hout q c h1), hticket q (hout q c h1)]
      exact ⟨h1, h2⟩
    · rw [List.getElem?_append_right hge, List.getElem?_singleton] at hi
      split_ifs at hi with h0
      cases hi
      rw [update_self, update_self]
      exact ⟨rfl, by omega, rfl, hns⟩
  · change (update s.stage p (.sleeps b) q).inside = some c at hqc
    change (s.buf c).lock = some q ∧ ∃ k, (s.asked ++ [(p, b, s.cmd b)])[update s.ticket p s.asked.length q]? = _
    by_cases hqp : q = p
    · subst hqp
      rw [update_self] at hqc ⊢
      cases hqc
      exact ⟨hlock, s.cmd b, by simp⟩
    · rw [hstage q hqp] at hqc
      rw [hticket q hqp]
      obtain ⟨h1, k, h2⟩ := h.inside q c hqc
      exact ⟨h1, k, by rw [List.getElem?_append_left (List.getElem?_eq_some_iff.mp h2).1, h2]⟩
  · change (update s.stage p (.sleeps b) q).inside = some c at hqc
    change update s.ticket p s.asked.length q < s.finished.length at hlt
    change s.Synced c ∧ update s.stage p (.sleeps b) q ≠ _ ∧
      (update s.stage p (.sleeps b) q = _ ∨ update s.stage p (.sleeps b) q = _ → _)
    by_cases hqp : q = p
    · subst hqp
      rw [update_self] at hlt
      omega
    · rw [hstage q hqp] at hqc ⊢
      rw [hticket q hqp] at hlt
      obtain ⟨h1, h2, h3⟩ := h.late q c hqc hlt
      exact ⟨h1, h2, fun ha => absurd (h3 ha) (hno _)⟩
  · change update s.stage p (.sleeps b) q = .wants c at hqc
    by_cases hqp : q = p
    · subst hqp
      rw [update_self] at hqc
      cases hqc
    · rw [hstage q hqp] at hqc
      exact h.wants q c hqc
  · change some (IdeHolder.proc p) = some (.proc q) ↔ ∃ c, update s.stage p (.sleeps b) q = _
    by_cases hqp : q = p
    · subst hqp
      rw [update_self]
      simp
    · rw [hstage q hqp]
      refine ⟨fun hc => ?_, fun hc => absurd ((h.proc q).mpr hc) (hno _)⟩
      cases hc
      exact absurd rfl hqp
  · change s.plock = some q ↔ ∃ c, update s.stage p (.sleeps b) q = _
    refine (h.plock q).trans ?_
    by_cases hqp : q = p
    · subst hqp
      rw [update_self, hp]
      simp
    · rw [hstage q hqp]

theorem Inv.enter (hl : s.idelock = none) (hs : s.enter p b = some t) : Inv t := by
  have hle : s.finished.length ≤ s.asked.length := h.finished_le.trans h.started_le
  obtain ⟨qnext, hq, he⟩ := h.enter_eq hp
  rw [he] at hs
  split_ifs at hs with hpend
  · obtain ⟨hd, hlen⟩ := h.device.ready_of_empty hpend
    have hall : s.asked.length = s.finished.length := by
      have := drop_eq_nil_iff.mp hpend
      omega
    rw [idestart_eq (show (s.appended p b qnext).device = .ready from hd)] at hs
    split_ifs at hs with hblk
    obtain rfl := Option.some.inj hs
    have hk : (s.asked ++ [(p, b, s.cmd b)])[s.started.length]? = some (p, b, s.cmd b) := by
      rw [hlen, ← hall]
      simp
    have hst : s.started = ((s.appended p b qnext).asked.map (·.2)).take s.started.length := by
      change s.started = ((s.asked ++ [(p, b, s.cmd b)]).map (·.2)).take s.started.length
      rw [map_append, take_append_of_le_length (by rw [length_map]; omega)]
      exact h.started
    refine h.appended hp hl hq _ _ (started_push hst hk) ?_ ⟨?_, ⟨p, b, ?_⟩, fun c hc => (by cases hc)⟩
    · change s.finished = (s.started ++ [(b, s.cmd b)]).take s.finished.length
      rw [take_append_of_le_length h.finished_le]
      exact h.finished
    · change (s.started ++ [(b, s.cmd b)]).length = s.finished.length + 1
      rw [length_append, hlen]
      rfl
    · change (s.asked ++ [(p, b, s.cmd b)])[s.finished.length]? = some (p, b, s.cmd b)
      rw [← hlen, hk]
  · obtain rfl := Option.some.inj hs
    have hlt : s.finished.length < s.asked.length := by
      by_contra hc
      exact hpend (drop_eq_nil_iff.mpr (by omega))
    refine h.appended hp hl hq s.started s.device ?_ h.finished ?_
    · change s.started = ((s.asked ++ [(p, b, s.cmd b)]).map (·.2)).take s.started.length
      rw [map_append, take_append_of_le_length (by rw [length_map]; exact h.started_le)]
      exact h.started
    · have hdev := h.device
      unfold DeviceOk at hdev ⊢
      change match s.device with
        | .ready => s.started.length = s.finished.length ∧ (_ = none ∨ ∃ c, some (IdeHolder.proc p) = some (.intr c))
        | .busy k => s.started.length = s.finished.length + 1 ∧
          (∃ q c, (s.asked ++ [(p, b, s.cmd b)])[s.finished.length]? = some (q, c, k)) ∧
          ∀ c, some (IdeHolder.proc p) ≠ some (.intr c)
        | .done k _ => s.started.length = s.finished.length + 1 ∧
          (∃ q c, (s.asked ++ [(p, b, s.cmd b)])[s.finished.length]? = some (q, c, k)) ∧
          ∀ c, some (IdeHolder.proc p) ≠ some (.intr c)
      rw [List.getElem?_append_left hlt]
      cases hd : s.device with
      | ready =>
        rw [hd] at hdev
        rcases hdev.2 with hc | ⟨c, hc⟩
        · exact absurd (h.idequeue_none.mp hc) hpend
        · rw [hl] at hc
          cases hc
      | busy k | done k data =>
        rw [hd] at hdev
        exact ⟨hdev.1, hdev.2.1, by simp⟩

end

end Ide
end Xv6
