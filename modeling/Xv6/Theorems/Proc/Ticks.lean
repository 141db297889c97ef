import Xv6.Theorems.Proc.Handoff
import Xv6.Theorems.Proc.Lottery

/-! The ticks of a process count its dispatches. A scheduler counts one in a step of its own, after the process has
    switched back; until then the lock keeps the slot from being reused. -/

namespace Xv6
open Function Ptable

def At.away : At → Option Slot
  | .resumed p | .run p | .enter p _ | .dying p | .sched p => some p
  | .idle | .draw | .start _ | .switchTo _ | .back _ | .count _ | .done => none

def At.due : At → Option Slot
  | .back p | .count p => some p
  | .idle | .draw | .start _ | .switchTo _ | .resumed _ | .run _ | .enter _ _ | .dying _ | .sched _ | .done => none

theorem At.locked_of_due {a : At} {p : Slot} (h : a.due = some p) : a.locked = true := by
  cases a <;> simp_all [At.due, At.locked]

/-- The slot has a process that has been made RUNNABLE. -/
def ProcState.Started (st : ProcState) : Prop := st ≠ .unused ∧ st ≠ .embryo

namespace Sched

variable {s t : Sched} {c d : Cpu} {p q np : Slot} {a : At}

structure Counts (s : Sched) : Prop where
  ticks : ∀ p, (s.table.proc p).state.Started → (∀ c, (s.pos c).due ≠ some p) →
    (s.table.proc p).ticks = int32 (s.returns p)
  due : ∀ c p, (s.pos c).due = some p → int32 ((s.table.proc p).ticks + 1) = int32 (s.returns p)
  home : ∀ p, (s.table.proc p).state.Started → (∀ c, (s.pos c).away ≠ some p) → s.dispatches p = s.returns p
  away : ∀ c p, (s.pos c).away = some p → s.dispatches p = s.returns p + 1
  embryo : ∀ p, (s.table.proc p).state = .embryo → s.dispatches p = 0 ∧ s.returns p = 0
  ready : ∀ p np, (s.table.proc p).thread = .forkReady np → (s.table.proc np).ticks = 0

theorem Inv.started (h : Inv s) (hp : (s.pos c).proc = some p ∨ (s.pos c).due = some p) :
    (s.table.proc p).state.Started := by
  have hf := h.fits c
  have hr := h.runs c p
  cases ha : s.pos c <;> simp_all [At.proc, At.due, At.runs, At.Fits, ProcState.Started]
  all_goals rcases hf with hf | hf | hf <;> simp [hf]

/-! ### The steps of a CPU -/

theorem At.proc_of_away {a : At} (h : a.away = some p) : a.proc = some p := by
  cases a <;> simp_all [At.away, At.proc]

variable {u v : Ptable} {b : At}

theorem Moves.away (h : Moves u c b a v) : a.away = some q ↔ b = .switchTo q ∨ b.away = some q ∧ b ≠ .sched q := by
  cases h <;> simp [At.away]

theorem Moves.due (h : Moves u c b a v) : a.due = some q ↔ b = .sched q ∨ b.due = some q ∧ b ≠ .count q := by
  cases h <;> simp [At.due]

structure Keeps (u v : Ptable) (b : At) (q : Slot) : Prop where
  started : (v.proc q).state.Started → (u.proc q).state.Started
  embryo : (v.proc q).state = .embryo → (u.proc q).state = .embryo
  ready : ∀ np, (v.proc q).thread = .forkReady np → (u.proc q).thread = .forkReady np
  ticks : (v.proc q).ticks = if b = .count q then int32 ((u.proc q).ticks + 1) else (u.proc q).ticks

theorem keeps_of_proc (h : v.proc q = u.proc q) (hb : b ≠ .count q) : Keeps u v b q :=
  ⟨fun hs => h ▸ hs, fun he => h ▸ he, fun _ hr => h ▸ hr, by rw [if_neg hb, h]⟩

theorem keeps_modify {u : Ptable} {f : Proc → Proc} (hst : (f (u.proc p)).state.Started → (u.proc p).state.Started)
    (hemb : (f (u.proc p)).state = .embryo → (u.proc p).state = .embryo)
    (hth : ∀ np, (f (u.proc p)).thread = .forkReady np → (u.proc p).thread = .forkReady np)
    (htk : (f (u.proc p)).ticks = (u.proc p).ticks) (hb : ∀ q, b ≠ .count q) : Keeps u (u.modify p f) b q := by
  by_cases hq : q = p
  · subst hq
    refine ⟨fun hs => ?_, fun he => ?_, fun np hr => ?_, ?_⟩
    · rw [modify_proc_self] at hs
      exact hst hs
    · rw [modify_proc_self] at he
      exact hemb he
    · rw [modify_proc_self] at hr
      exact hth np hr
    · rw [modify_proc_self, if_neg (hb q), htk]
  · exact keeps_of_proc (modify_proc_of_ne hq) (hb q)

theorem Keeps.trans {u v w : Ptable} (h₁ : Keeps u v b q) (h₂ : Keeps v w b q) (hb : b ≠ .count q) : Keeps u w b q where
  started h := h₁.started (h₂.started h)
  embryo h := h₁.embryo (h₂.embryo h)
  ready np h := h₁.ready np (h₂.ready np h)
  ticks := by
    have h1 := h₁.ticks
    have h2 := h₂.ticks
    rw [if_neg hb] at h1 h2 ⊢
    rw [h2, h1]

theorem keeps_passed {ch : Option Chan} (h : Ptable.Passed p slots (u.wakeup1 ch) v)
    (hb : b ≠ .count q) : Keeps u v b q := by
  have hst := h.state_wakeup1 q
  refine ⟨fun hs => ?_, fun he => ?_, fun np hr => ?_, ?_⟩
  · rcases hst with h1 | ⟨h1, -⟩
    · rwa [h1] at hs
    · simp [h1, ProcState.Started]
  · rcases hst with h1 | ⟨-, h1⟩
    · rwa [h1] at he
    · simp [h1] at he
  · rwa [h.field (·.thread) (fun _ _ _ => rfl), wakeup1_field (·.thread) fun _ _ => rfl] at hr
  · rw [if_neg hb, h.field (·.ticks) (fun _ _ _ => rfl), wakeup1_field (·.ticks) fun _ _ => rfl]

theorem Moves.keeps (h : Moves u c b a v)
    (hp : ∀ p, b.proc = some p ∨ b.due = some p → (u.proc p).state.Started) (q : Slot) : Keeps u v b q := by
  cases h with
  | draw | none | switch | call | switchBack | done => exact keeps_of_proc rfl (by simp)
  | start | clear => exact keeps_of_proc rfl (by simp)
  | running => exact keeps_modify (fun _ => hp _ (.inl rfl)) (by simp) (fun _ h => h) rfl (by simp)
  | resume hst htk hth =>
    refine keeps_modify (by rw [hst]; exact id) (by rw [hst]; exact id) (fun np h => ?_) (htk _) (by simp)
    rcases hth with hth | hth
    · rw [hth] at h
      cases h
    · rwa [hth] at h
  | again => exact keeps_modify id id (fun _ h => h) rfl (by simp)
  | @park p call f hst htk hth =>
    refine keeps_modify (fun _ => hp p (.inl rfl)) (fun h => ?_) (fun np h => ?_) (htk _) (by simp)
    · rcases hst (u.proc p) with h' | h' <;> simp [h'] at h
    · rcases hth (u.proc p) with hth | hth
      · rw [h] at hth
        cases hth
      · rwa [hth] at h
  | family hi => exact keeps_passed (passed_foldl hi) (by simp)
  | @reap p r hr =>
    have hfree : Keeps u (u.free r) (.enter p .wait) q :=
      keeps_modify (by simp [ProcState.Started]) (by simp) (fun _ h => h) rfl (by simp)
    exact hfree.trans (keeps_modify id id (by simp) rfl (by simp)) (by simp)
  | noChild => exact keeps_modify id id (by simp) rfl (by simp)
  | zombie => exact keeps_modify (fun _ => hp _ (.inl rfl)) (by simp) (fun _ h => h) rfl (by simp)
  | @count p =>
    have hst' := hp p (.inr rfl)
    by_cases hq : q = p
    · subst hq
      refine ⟨fun _ => hst', fun he => ?_, fun np hr => ?_, ?_⟩
      · rwa [modify_proc_self] at he
      · rwa [modify_proc_self] at hr
      · rw [modify_proc_self, if_pos rfl]
    · exact keeps_of_proc (modify_proc_of_ne hq) fun h => hq (by cases h; rfl)

theorem Counts.turned (h : Counts s) (hinv : Inv s) (ht : Turned s t c a) : Counts t := by
  have hpc : t.pos c = a := by rw [ht.pos, update_self]
  have hpd : ∀ d, d ≠ c → t.pos d = s.pos d := fun d hd => by rw [ht.pos, update_of_ne hd]
  have hk : ∀ q, Keeps s.table t.table (s.pos c) q := ht.moves.keeps fun p hp => hinv.started hp
  have hother := ht.others hinv
  have hdue : ∀ d q, d ≠ c → (s.pos d).due ≠ some q := fun d q hd h => by
    have := At.locked_of_due h
    simp [hother d hd] at this
  -- A process that another CPU runs is not the one that CPU `c` switches.
  have haway : ∀ d q, d ≠ c → (s.pos d).away = some q → s.pos c ≠ .switchTo q ∧ s.pos c ≠ .sched q := by
    intro d q hd hq
    have hrun : (s.pos d).runs = some q := by
      have := hother d hd
      cases hp : s.pos d <;> simp_all [At.locked, At.away, At.runs]
    refine ⟨fun hc => hd (hinv.unique d c q hrun (by rw [hc]; rfl)), fun hc => ?_⟩
    have hf := hinv.fits c
    rw [hc] at hf
    have hr := hinv.runs d q hrun
    rcases hf with hf | hf | hf <;> simp [hr] at hf
  refine ⟨fun p hp hnd => ?_, fun d p hp => ?_, fun p hp hna => ?_, fun d p hp => ?_, fun p hp => ?_, fun p np hp => ?_⟩
  · -- No tick is due now: it was counted in this step, or none was due before.
    rw [(hk p).ticks, ht.returns]
    have hac : a.due ≠ some p := hpc ▸ hnd c
    rw [Ne, ht.moves.due] at hac
    push Not at hac
    rw [if_neg hac.1]
    split
    · next hcount => simpa using h.due c p (by rw [hcount]; rfl)
    · next hcount =>
      refine h.ticks p ((hk p).started hp) fun d => ?_
      by_cases hd : d = c
      · subst hd
        exact fun hdp => hcount (hac.2 hdp)
      · exact hdue d p hd
  · by_cases hd : d = c
    · subst hd
      rw [hpc, ht.moves.due] at hp
      rw [(hk p).ticks, ht.returns]
      rcases hp with hp | ⟨hp, hne⟩
      · -- The process has just come back.
        rw [if_neg (by simp [hp]), if_pos hp,
          h.ticks p (hinv.started (c := d) (.inl (by rw [hp]; rfl))) fun d' => ?_]
        · rw [int32, int32, CInt.wrap_wrap_add]
          rfl
        · by_cases hd' : d' = d
          · rw [hd', hp]
            simp [At.due]
          · exact hdue d' p hd'
      · rw [if_neg hne, if_neg]
        · exact h.due d p hp
        · intro hs
          rw [hs] at hp
          cases hp
    · rw [hpd d hd] at hp
      exact absurd hp (hdue d p hd)
  · rw [ht.dispatches, ht.returns]
    have hac : a.away ≠ some p := hpc ▸ hna c
    rw [Ne, ht.moves.away] at hac
    push Not at hac
    rw [if_neg hac.1]
    split
    · next hs => exact h.away c p (by rw [hs]; rfl)
    · next hs =>
      refine h.home p ((hk p).started hp) fun d => ?_
      by_cases hd : d = c
      · subst hd
        exact fun hdp => hs (hac.2 hdp)
      · exact hpd d hd ▸ hna d
  · rw [ht.dispatches, ht.returns]
    by_cases hd : d = c
    · subst hd
      rw [hpc, ht.moves.away] at hp
      rcases hp with hp | ⟨hp, hne⟩
      · -- The scheduler switches to the process.
        rw [if_pos hp, if_neg (by simp [hp]),
          h.home p (hinv.started (c := d) (.inl (by rw [hp]; rfl))) fun d' hd' => ?_]
        by_cases hdd : d' = d
        · rw [hdd, hp] at hd'
          cases hd'
        · exact (haway d' p hdd hd').1 hp
      · rw [if_neg hne, if_neg]
        · exact h.away d p hp
        · intro hs
          rw [hs] at hp
          cases hp
    · rw [hpd d hd] at hp
      rw [if_neg (haway d p hd hp).1, if_neg (haway d p hd hp).2]
      exact h.away d p hp
  · have he := (hk p).embryo hp
    have hns : ∀ {x : At}, s.pos c = x → x.proc ≠ some p := by
      rintro x rfl hx
      exact (hinv.started (.inl hx)).2 he
    rw [ht.dispatches, ht.returns, if_neg fun hx => hns hx rfl, if_neg fun hx => hns hx rfl]
    exact h.embryo p he
  · have hr := (hk p).ready np hp
    have he := hinv.forks.embryo p np true (by rw [hr]; rfl)
    rw [(hk np).ticks, if_neg fun hx => (hinv.started (c := c) (.inr (by rw [hx]; rfl))).2 he]
    exact h.ready p np hr

/-! ### The steps of the table -/

/-- What a step of the table leaves of slot `q`: its counts are kept and it is not started; or it was not started, and
    starts with nothing to count. -/
def Recorded (s t : Sched) (q : Slot) : Prop :=
  ((t.table.proc q).ticks = (s.table.proc q).ticks ∧ t.dispatches q = s.dispatches q ∧ t.returns q = s.returns q ∧
    ((t.table.proc q).state.Started → (s.table.proc q).state.Started) ∧
    ((t.table.proc q).state = .embryo → (s.table.proc q).state = .embryo)) ∨
  ¬(s.table.proc q).state.Started ∧ t.dispatches q = 0 ∧ t.returns q = 0 ∧
    ((t.table.proc q).state.Started → (t.table.proc q).ticks = 0)

theorem Counts.recorded (h : Counts s) (hinv : Inv s) (hpos : t.pos = s.pos) (hr : ∀ q, Recorded s t q)
    (hready : ∀ p np, (t.table.proc p).thread = .forkReady np → (t.table.proc np).ticks = 0) : Counts t := by
  have hkeep : ∀ c p, (s.pos c).away = some p ∨ (s.pos c).due = some p →
    (t.table.proc p).ticks = (s.table.proc p).ticks ∧
      t.dispatches p = s.dispatches p ∧ t.returns p = s.returns p := by
    intro c p hp
    have hst := hinv.started (hp.imp At.proc_of_away id)
    rcases hr p with ⟨h1, h2, h3, -⟩ | ⟨h1, -⟩
    · exact ⟨h1, h2, h3⟩
    · exact absurd hst h1
  refine ⟨fun p hp hnd => ?_, fun c p hp => ?_, fun p hp hna => ?_, fun c p hp => ?_, fun p hp => ?_, hready⟩
  · rw [hpos] at hnd
    rcases hr p with ⟨h1, -, h3, h4, -⟩ | ⟨-, -, h3, h4⟩
    · rw [h1, h3]
      exact h.ticks p (h4 hp) hnd
    · rw [h3, h4 hp]
      rfl
  · rw [hpos] at hp
    obtain ⟨h1, -, h3⟩ := hkeep c p (.inr hp)
    rw [h1, h3]
    exact h.due c p hp
  · rw [hpos] at hna
    rcases hr p with ⟨-, h2, h3, h4, -⟩ | ⟨-, h2, h3, -⟩
    · rw [h2, h3]
      exact h.home p (h4 hp) hna
    · rw [h2, h3]
  · rw [hpos] at hp
    obtain ⟨-, h2, h3⟩ := hkeep c p (.inl hp)
    rw [h2, h3]
    exact h.away c p hp
  · rcases hr p with ⟨-, h2, h3, -, h5⟩ | ⟨-, h2, h3, -⟩
    · rw [h2, h3]
      exact h.embryo p (h5 hp)
    · exact ⟨h2, h3⟩

@[simp] theorem record_none {u : Ptable} : s.record u none = { s with table := u } := rfl

@[simp] theorem record_alloc {u : Ptable} {pid : Int} : s.record u (some (.alloc p pid)) =
    { s with table := u, dispatches := update s.dispatches p 0, returns := update s.returns p 0 } := rfl

theorem Counts.same (h : Counts s) (hinv : Inv s) {u : Ptable} (htk : ∀ q, (u.proc q).ticks = (s.table.proc q).ticks)
    (hst : ∀ q, (u.proc q).state = (s.table.proc q).state ∨ (u.proc q).state = .unused ∨
      (s.table.proc q).state = .sleeping ∧ (u.proc q).state = .runnable)
    (hth : ∀ p np, (u.proc p).thread = .forkReady np → (s.table.proc p).thread = .forkReady np) :
    Counts (s.record u none) := by
  refine h.recorded hinv rfl (fun q => .inl ⟨htk q, rfl, rfl, fun hs => ?_, fun he => ?_⟩) fun p np hp => ?_
  · rcases hst q with h1 | h1 | ⟨h1, -⟩
    · rwa [← h1]
    · simp [ProcState.Started, h1] at hs
    · simp [ProcState.Started, h1]
  · rcases hst q with h1 | h1 | ⟨-, h1⟩
    · rwa [← h1]
    · simp [h1] at he
    · simp [h1] at he
  · exact (htk np).trans (h.ready p np (hth p np hp))

theorem Counts.step_table (h : Counts s) (hinv : Inv s) {op : Ptable.Op} (hs : s.next (.table op) = some t) :
    Counts t := by
  simp only [next] at hs
  split at hs
  case isFalse => cases hs
  case isTrue hadm =>
    obtain ⟨⟨u, e⟩, hstep, rfl⟩ := Option.map_eq_some_iff.mp hs
    simp only at hstep ⊢
    have habandon : ∀ p np, Counts (s.record ((s.table.setState np .unused).setThread p .run) none) := by
      intro p np
      refine h.same hinv (fun q => ?_) (fun q => ?_) fun q r hq => ?_
      · rw [setThread_ticks, setState_ticks]
      · rw [setThread_state, setState_state]
        split
        · exact .inr (.inl rfl)
        · exact .inl rfl
      · rw [setThread_thread] at hq
        split_ifs at hq
        rwa [setState_thread] at hq
    cases op with
    | userinit =>
      obtain ⟨-, p, v, ha, rfl, rfl⟩ := step_userinit_inv hstep
      obtain ⟨hp, rfl⟩ := allocproc_some ha
      rw [record_alloc]
      refine h.recorded hinv rfl (fun q => ?_) fun q r hq => ?_
      · by_cases hq : q = p
        · subst hq
          exact .inr ⟨by simp [hp, ProcState.Started], by simp, by simp, by simp⟩
        · exact .inl (by simp [modify_proc, hq])
      · simp only [modify_proc, if_true] at hq ⊢
        split_ifs at hq
        split
        · rfl
        · exact h.ready q r hq
    | fork c =>
      obtain ⟨p, -, -, ⟨rfl, rfl⟩ | ⟨np, v, ha, rfl, rfl⟩⟩ := step_fork_inv hstep
      · exact h.same hinv (fun _ => rfl) (fun _ => .inl rfl) fun _ _ hq => hq
      · obtain ⟨hp, rfl⟩ := allocproc_some ha
        rw [record_alloc]
        refine h.recorded hinv rfl (fun q => ?_) fun q r hq => ?_
        · unfold Recorded
          simp only [setThread_state, setThread_ticks]
          by_cases hq : q = np
          · subst hq
            exact .inr ⟨by simp [hp, ProcState.Started], by simp, by simp, by simp [ProcState.Started]⟩
          · exact .inl (by simp [modify_proc, hq])
        · simp only [setThread_thread, setThread_ticks, modify_proc] at hq ⊢
          have hsame : (if r = np then ({ s.table.proc np with
              state := .embryo, pid := s.table.nextpid, thread := .forkret } : Proc) else s.table.proc r).ticks =
                (s.table.proc r).ticks := by
            split
            · next hr => rw [hr]
            · rfl
          split at hq
          · cases hq
          · split at hq
            · cases hq
            · rw [hsame]
              exact h.ready q r hq
    | forkStack c ok =>
      obtain ⟨rfl, p, np, -, -, ⟨-, rfl⟩ | ⟨-, rfl⟩⟩ := step_forkStack_inv hstep
      · refine h.same hinv (fun q => ?_) (fun q => .inl ?_) fun q r hq => ?_
        · rw [setThread_ticks]
        · rw [setThread_state]
        · rw [setThread_thread] at hq
          split_ifs at hq
          exact hq
      · exact habandon p np
    | forkCopy c ok =>
      obtain ⟨rfl, p, np, -, hth, ⟨-, rfl⟩ | ⟨-, rfl⟩⟩ := step_forkCopy_inv hstep
      · have hnp := hinv.forks.embryo p np false (by rw [hth]; rfl)
        refine h.recorded hinv rfl (fun q => ?_) fun q r hq => ?_
        · unfold Recorded
          simp only [record_none, setThread_state,
            setThread_ticks]
          by_cases hq : q = np
          · subst hq
            exact .inr ⟨by simp [hnp, ProcState.Started], (h.embryo q hnp).1, (h.embryo q hnp).2, by simp⟩
          · exact .inl (by simp [modify_proc, hq])
        · simp only [record_none, setThread_thread, setThread_ticks] at hq ⊢
          rw [modify_proc]
          split
          · rfl
          · next hr =>
            split at hq
            · cases hq
              exact absurd rfl hr
            · rw [modify_field (·.thread) rfl] at hq
              exact h.ready q r hq
      · exact habandon p np
    | forkRun c =>
      obtain ⟨rfl, p, np, -, hth, rfl⟩ := step_forkRun_inv hstep
      have hnp := hinv.forks.embryo p np true (by rw [hth]; rfl)
      have htk : ∀ q, (((s.table.setState np .runnable).setThread p .run).proc q).ticks = (s.table.proc q).ticks := by
        intro q
        rw [setThread_ticks, setState_ticks]
      refine h.recorded hinv rfl (fun q => ?_) fun q r hq => ?_
      · unfold Recorded
        simp only [record_none, htk, setThread_state, setState_state]
        by_cases hq : q = np
        · subst hq
          exact .inr ⟨by simp [hnp, ProcState.Started], (h.embryo q hnp).1, (h.embryo q hnp).2,
            fun _ => h.ready p q hth⟩
        · exact .inl (by simp [hq])
      · rw [record_none] at hq ⊢
        simp only [htk, setThread_thread] at hq ⊢
        split_ifs at hq
        rw [setState_thread] at hq
        exact h.ready q r hq
    | wakeup x =>
      obtain ⟨rfl, rfl⟩ := step_wakeup_inv hstep
      refine h.same hinv (fun q => wakeup1_field (·.ticks) fun _ _ => rfl) (fun q => ?_) fun q r hq => ?_
      · rw [wakeup1_proc]
        split
        · next hq => exact .inr (.inr ⟨hq.1, rfl⟩)
        · exact .inl rfl
      · rwa [wakeup1_field (·.thread) fun _ _ => rfl] at hq
    | kill pid =>
      obtain ⟨rfl, rfl⟩ := step_kill_inv hstep
      have hk := kill_proc s.table pid
      refine h.same hinv (fun q => ?_) (fun q => ?_) fun q r hq => ?_
      · rcases hk q with h1 | ⟨-, h1⟩ <;> rw [h1]
      · rcases hk q with h1 | ⟨-, h1⟩
        · exact .inl (by rw [h1])
        · rw [h1]
          dsimp only
          split
          · next hq => exact .inr (.inr ⟨hq, rfl⟩)
          · exact .inl rfl
      · rcases hk q with h1 | ⟨-, h1⟩ <;> rwa [h1] at hq
    | exit | wait | sleep | yield | settickets | scheduler => simp [admits] at hadm

theorem reach_counts (h : machine.Reach s) : Inv s ∧ Counts s := by
  refine Machine.Reach.invariant (I := fun s => machine.Reach s ∧ Counts s) ?_ ?_ h |>.imp reach_handoff id
  · rintro s rfl
    exact ⟨.init rfl, by simp [ProcState.Started], by simp [At.due], by simp, by simp [At.away], by simp, by simp⟩
  · rintro s l t ⟨hreach, hc⟩ hs
    have hinv := reach_handoff hreach
    refine ⟨hreach.step hs, ?_⟩
    cases l with
    | table op => exact hc.step_table hinv hs
    | call c call =>
      obtain ⟨p, ht⟩ := turned_call hs
      exact hc.turned hinv ht
    | turn c =>
      obtain ⟨a, ht⟩ := turned_turn hinv.outlives hs
      exact hc.turned hinv ht

/-- With `ptable.lock` free, for every process made RUNNABLE since its slot was allocated: `ticks` is, as a 32-bit
    `int`, the number of times that a scheduler has dispatched it and got control back; and all its dispatches have come
    back but the one by which it is RUNNING. -/
theorem ticks_count_dispatches (h : machine.Reach s) (hl : s.lock = none) (hp : (s.table.proc p).state.Started) :
    (s.table.proc p).ticks = int32 (s.returns p) ∧ (s.returns p < 2 ^ 31 → (s.table.proc p).ticks = s.returns p) ∧
      s.dispatches p = s.returns p + if (s.table.proc p).state = .running then 1 else 0 := by
  obtain ⟨hinv, hc⟩ := reach_counts h
  have hnl : ∀ c, (s.pos c).locked = false := fun c => hinv.not_locked (by simp [hl])
  have htk := hc.ticks p hp fun c hd => by
    have := At.locked_of_due hd
    simp [hnl c] at this
  refine ⟨htk, fun hlt => by rw [htk]; exact CInt.wrap_of_range (by omega) (by omega), ?_⟩
  split
  · next hrun =>
    obtain ⟨c, hr⟩ := hinv.running p hrun
    refine hc.away c p ?_
    have := hnl c
    cases hpos : s.pos c <;> simp_all [At.locked, At.runs, At.away]
  · next hrun =>
    refine hc.home p hp fun c ha => hrun (hinv.runs c p ?_)
    have := hnl c
    cases hpos : s.pos c <;> simp_all [At.locked, At.runs, At.away]

def childMigrates : List Label :=
  .table .userinit :: dispatch 0 ++
    [.table (.fork 0), .table (.forkStack 0 true), .table (.forkCopy 0 true), .table (.forkRun 0)] ++ dispatch 1 ++
    .call 1 .yield :: List.replicate 5 (.turn 1) ++ dispatch 2 ++ .call 2 .exit :: List.replicate 6 (.turn 2)

theorem ticks_count_dispatches_childMigrates : ∃ s, ({} : Sched).run childMigrates = some s ∧
    (s.table.proc 1).state = .zombie ∧ s.returns 1 = 2 ∧ s.dispatches 1 = 2 ∧ (s.table.proc 1).ticks = 2 := by
  obtain ⟨s, hs, hl, hz, hr⟩ := Option.exists_of_any (o := ({} : Sched).run childMigrates)
      (p := fun s => s.lock = none ∧ (s.table.proc 1).state = .zombie ∧ s.returns 1 = 2) (by decide +kernel)
  obtain ⟨-, htk, hd⟩ := ticks_count_dispatches (reach_run hs) hl (p := 1) (by simp [hz, ProcState.Started])
  refine ⟨s, hs, hz, hr, by simpa [hz, hr] using hd, ?_⟩
  rw [htk (by omega), hr]
  rfl

/-! ### After 2^31 dispatches -/

/-- Init is alone in the table, CPU 0 stands at `a` and the others are idle, after `n` returns. -/
structure Alone (a : At) (n : Nat) (s : Sched) : Prop where
  reach : machine.Reach s
  pos : ∀ d, s.pos d = if d = 0 then a else .idle
  other : ∀ q, q ≠ 0 → (s.table.proc q).state = .unused
  state : (s.table.proc 0).state = if a.runs = some 0 then .running else .runnable
  tickets : (s.table.proc 0).tickets = 10
  thread : (s.table.proc 0).thread = .run ∨ (s.table.proc 0).thread = .forkret
  returns : s.returns 0 = n

namespace Alone
variable {n : Nat}

theorem lock (h : Alone a n s) : s.lock = if a.locked then some 0 else none := by
  have hinv := reach_handoff h.reach
  split
  · next ha => exact (hinv.lock 0).mpr (by rw [h.pos, if_pos rfl, ha])
  · next ha =>
    cases hl : s.lock with
    | none => rfl
    | some d =>
      have hd := (hinv.lock d).mp hl
      rw [h.pos] at hd
      split at hd
      · exact absurd hd ha
      · cases hd

theorem next (h : Alone a n s) (b : At) {l : Label} (hs : s.next l = some t) {f : Proc → Proc}
    (hpos : t.pos = update s.pos 0 b) (htab : t.table.proc = (s.table.modify 0 f).proc)
    (hst : (f (s.table.proc 0)).state = if b.runs = some 0 then .running else .runnable)
    (htk : (f (s.table.proc 0)).tickets = (s.table.proc 0).tickets)
    (hth : (f (s.table.proc 0)).thread = (s.table.proc 0).thread ∨ (f (s.table.proc 0)).thread = .run)
    {m : Nat} (hr : t.returns 0 = m) : ∃ t, Alone b m t := by
  refine ⟨t, h.reach.step hs, fun d => ?_, fun q hq => ?_, ?_, ?_, ?_, hr⟩
  · rw [hpos, update_apply]
    split
    · rfl
    · next hd => rw [h.pos, if_neg hd]
  · rw [htab, modify_proc_of_ne hq]
    exact h.other q hq
  · rw [htab, modify_proc_self, hst]
  · rw [htab, modify_proc_self, htk, h.tickets]
  · rw [htab, modify_proc_self]
    rcases hth with hth | hth
    · rw [hth]
      exact h.thread
    · exact .inl hth

theorem pass (h : Alone a n s) (ha : a.runs ≠ some 0) : ∃ r, s.table.schedulerPass = .dispatch 0 r := by
  have hst := h.state
  rw [if_neg ha] at hst
  have hdrawn : s.table.drawn = fun p => if p = 0 then 10 else 0 := by
    funext p
    unfold Ptable.drawn
    by_cases hp : p = 0
    · rw [hp, if_pos hst, if_pos rfl, h.tickets]
    · rw [if_neg (by simp [h.other p hp]), if_neg hp]
  have hpos : 0 < s.table.totalTickets slots 0 := by
    rw [totalTickets_slots, Ptable.runnableTickets, hdrawn]
    decide
  obtain ⟨p, hp, hrun⟩ := schedulerPass_of_pos hpos
  have h0 : p = 0 := by
    by_contra hne
    simp [h.other p hne] at hrun
  exact ⟨_, h0 ▸ hp⟩

theorem pos_zero (h : Alone a n s) : s.pos 0 = a := by rw [h.pos, if_pos rfl]

theorem next_same (h : Alone a n s) (b : At) {l : Label} (hs : s.next l = some t) (hpos : t.pos = update s.pos 0 b)
    (htab : t.table.proc = s.table.proc) (hruns : b.runs = some 0 ↔ a.runs = some 0) {m : Nat} (hr : t.returns 0 = m) :
    ∃ t, Alone b m t := by
  refine h.next (f := id) b hs hpos ?_ ?_ rfl (.inl rfl) hr
  · rw [htab]
    simp [Ptable.modify]
  · simp only [id, h.state, hruns]

theorem dispatch (h : Alone .idle n s) : ∃ t, Alone (.run 0) n t := by
  obtain ⟨s, h⟩ := h.next_same .draw (l := .turn 0) (t := s.goto 0 .draw s.table)
    (by simp [Sched.next, turn, h.pos_zero, h.lock, At.locked]) rfl rfl (by simp [At.runs]) h.returns
  obtain ⟨r, hr⟩ := h.pass (by simp [At.runs])
  obtain ⟨s, h⟩ := h.next_same (.start 0) (l := .turn 0)
    (t := s.goto 0 (.start 0) { s.table.setCpu 0 (some 0) with rseed := r })
    (by simp [Sched.next, turn, h.pos_zero, hr]) rfl rfl (by simp [At.runs]) h.returns
  obtain ⟨s, h⟩ := h.next (.switchTo 0) (l := .turn 0) (t := s.goto 0 (.switchTo 0) (s.table.setState 0 .running))
    (by simp [Sched.next, turn, h.pos_zero]) rfl rfl (by simp [At.runs]) rfl (.inl rfl) h.returns
  obtain ⟨s, h⟩ := h.next_same (.resumed 0) (l := .turn 0)
    (t := { s.goto 0 (.resumed 0) s.table with dispatches := update s.dispatches 0 (s.dispatches 0 + 1) })
    (by simp [Sched.next, turn, h.pos_zero]) rfl rfl (by simp [At.runs]) h.returns
  rcases h.thread with hth | hth
  · exact h.next_same (.run 0) (l := .turn 0) (t := s.goto 0 (.run 0) s.table)
      (by simp [Sched.next, turn, h.pos_zero, hth]) rfl rfl (by simp [At.runs]) h.returns
  · have hst := h.state
    exact h.next (.run 0) (l := .turn 0) (t := s.goto 0 (.run 0) (s.table.setThread 0 .run))
      (by simp [Sched.next, turn, h.pos_zero, hth]) rfl rfl (by simpa [At.runs] using hst) rfl (.inr rfl) h.returns

theorem yield (h : Alone (.run 0) n s) : ∃ t, Alone .idle (n + 1) t := by
  obtain ⟨s, h⟩ := h.next_same (.enter 0 .yield) (l := .call 0 .yield) (t := s.goto 0 (.enter 0 .yield) s.table)
    (by simp [Sched.next, running, h.pos_zero, h.lock, At.locked]) rfl rfl (by simp [At.runs]) h.returns
  obtain ⟨s, h⟩ := h.next (.sched 0) (l := .turn 0) (t := s.goto 0 (.sched 0) (s.table.setState 0 .runnable))
    (by simp [Sched.next, turn, h.pos_zero]) rfl rfl (by simp [At.runs]) rfl (.inl rfl) h.returns
  obtain ⟨s, h⟩ := h.next_same (.back 0) (l := .turn 0) (m := n + 1)
    (t := { s.goto 0 (.back 0) s.table with returns := update s.returns 0 (s.returns 0 + 1) })
    (by simp [Sched.next, turn, h.pos_zero]) rfl rfl (by simp [At.runs]) (by simp [h.returns])
  obtain ⟨s, h⟩ := h.next_same (.count 0) (l := .turn 0) (t := s.goto 0 (.count 0) (s.table.setCpu 0 none))
    (by simp [Sched.next, turn, h.pos_zero]) rfl rfl (by simp [At.runs]) h.returns
  have hst := h.state
  obtain ⟨s, h⟩ := h.next .done (l := .turn 0)
    (t := s.goto 0 .done (s.table.modify 0 fun x => { x with ticks := int32 (x.ticks + 1) }))
    (by simp [Sched.next, turn, h.pos_zero]) rfl rfl (by simpa [At.runs] using hst) rfl (.inl rfl) h.returns
  exact h.next_same .idle (l := .turn 0) (t := s.goto 0 .idle s.table) (by simp [Sched.next, turn, h.pos_zero]) rfl rfl
    (by simp [At.runs]) h.returns

end Alone

theorem exists_alone (n : Nat) : ∃ s, Alone .idle n s := by
  induction n with
  | zero =>
    obtain ⟨s, hs, hpos, hother, hst, htk, hth, hr⟩ := Option.exists_of_any (o := ({} : Sched).run [.table .userinit])
        (p := fun s => (∀ d, s.pos d = if d = 0 then At.idle else .idle) ∧
          (∀ q, q ≠ 0 → (s.table.proc q).state = .unused) ∧ (s.table.proc 0).state = .runnable ∧
          (s.table.proc 0).tickets = 10 ∧ (s.table.proc 0).thread = .forkret ∧ s.returns 0 = 0) (by decide +kernel)
    exact ⟨s, reach_run hs, hpos, hother, by simpa [At.runs] using hst, htk, .inr hth, hr⟩
  | succ n ih =>
    obtain ⟨s, hs⟩ := ih
    obtain ⟨t, ht⟩ := hs.dispatch
    exact ht.yield

/-- At the 2^31st return of a process its `ticks` wrap around to -2^31. -/
theorem ticks_wrap : ∃ s p, machine.Reach s ∧ s.lock = none ∧ (s.table.proc p).state.Started ∧ s.returns p = 2 ^ 31 ∧
    (s.table.proc p).ticks = -2 ^ 31 := by
  obtain ⟨s, hs⟩ := exists_alone (2 ^ 31)
  obtain ⟨-, hc⟩ := reach_counts hs.reach
  have hst : (s.table.proc 0).state.Started := by
    rw [hs.state]
    simp [At.runs, ProcState.Started]
  refine ⟨s, 0, hs.reach, hs.lock, hst, hs.returns, ?_⟩
  rw [hc.ticks 0 hst fun c => by rw [hs.pos]; split <;> simp [At.due], hs.returns]
  decide +kernel

end Sched
end Xv6
