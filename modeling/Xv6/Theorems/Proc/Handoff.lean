import Xv6.Sched
import Xv6.Theorems.Proc.Kill

/-! Which process a CPU runs: what holds at each point of the code around a switch adds up to one CPU for each
    RUNNING process whenever the lock is free. -/

namespace Xv6
open Ptable Option Function

def At.proc : At → Option Slot
  | .start p | .switchTo p | .resumed p | .run p | .enter p _ | .dying p | .sched p | .back p => some p
  | .idle | .draw | .count _ | .done => none

def At.runs : At → Option Slot
  | .switchTo p | .resumed p | .run p | .enter p _ | .dying p => some p
  | .idle | .draw | .start _ | .sched _ | .back _ | .count _ | .done => none

def At.Fits (t : Ptable) : At → Prop
  | .start p => (t.proc p).state = .runnable
  | .sched p | .back p | .count p =>
    (t.proc p).state = .runnable ∨ (t.proc p).state = .sleeping ∨ (t.proc p).state = .zombie
  | .idle | .draw | .switchTo _ | .resumed _ | .run _ | .enter _ _ | .dying _ | .done => True

theorem At.fits_of_not_locked {a : At} {t : Ptable} (h : a.locked = false) : a.Fits t := by
  cases a <;> simp_all [At.locked, At.Fits]

theorem At.proc_cases {a : At} {p : Slot} (h : a.proc = some p) :
    a.runs = some p ∨ a.runs = none ∧ a.locked = true ∧ (a = .start p ∨ a = .sched p ∨ a = .back p) := by
  cases a <;> simp_all [At.proc, At.runs, At.locked]

structure Ptable.Forks (s : Ptable) : Prop where
  embryo : ∀ p np b, (s.proc p).thread.forking = some (np, b) → (s.proc np).state = .embryo
  unique : ∀ p q np b b', (s.proc p).thread.forking = some (np, b) → (s.proc q).thread.forking = some (np, b') → p = q

theorem Ptable.Forks.keep {s t : Ptable} (h : s.Forks)
    (hth : ∀ p np b, (t.proc p).thread.forking = some (np, b) → ∃ b', (s.proc p).thread.forking = some (np, b'))
    (hst : ∀ q, (s.proc q).state = .embryo → (∃ p b, (t.proc p).thread.forking = some (q, b)) →
      (t.proc q).state = .embryo) : t.Forks where
  embryo p np b hp := by
    obtain ⟨b', hp'⟩ := hth p np b hp
    exact hst np (h.embryo p np b' hp') ⟨p, b, hp⟩
  unique p q np b b' hp hq := by
    obtain ⟨b1, hp'⟩ := hth p np b hp
    obtain ⟨b2, hq'⟩ := hth q np b' hq
    exact h.unique p q np b1 b2 hp' hq'

namespace Ptable.Forks
variable {s t : Ptable} {p : Slot}

theorem of_proc (h : s.Forks) (ht : t.proc = s.proc) : t.Forks :=
  h.keep (fun _ _ b hp => ⟨b, ht ▸ hp⟩) fun _ hq _ => ht ▸ hq

theorem modify {f : Proc → Proc} (h : s.Forks) (hp : (s.proc p).state ≠ .embryo)
    (hth : (f (s.proc p)).thread.forking = none ∨ (f (s.proc p)).thread = (s.proc p).thread) :
    (s.modify p f).Forks := by
  refine h.keep (fun q np b hq => ?_) fun q hq _ => ?_
  · rw [modify_proc] at hq
    split at hq
    · next hqp =>
      rcases hth with hth | hth
      · rw [hth] at hq
        cases hq
      · rw [hth] at hq
        exact ⟨b, hqp ▸ hq⟩
    · exact ⟨b, hq⟩
  · rw [modify_proc_of_ne, hq]
    rintro rfl
    exact hp hq

theorem exitFamily (h : s.Forks) (hi : s.initproc ≠ some p) : (s.exitFamily p).Forks := by
  have hp2 : Passed p slots (s.wakeup1 ((s.proc p).parent.map .proc)) (s.exitFamily p) := passed_foldl hi
  refine h.keep (fun q np b hq => ⟨b, ?_⟩) fun q hq _ => ?_
  · rwa [hp2.field (·.thread.forking) (fun _ _ _ => rfl), wakeup1_field (·.thread.forking) fun _ _ => rfl] at hq
  · rcases hp2.state_wakeup1 q with h1 | ⟨h1, -⟩
    · rw [h1, hq]
    · simp [hq] at h1

theorem finish {np : Slot} {b : Bool} {st : ProcState} (h : s.Forks) (hp : (s.proc p).thread.forking = some (np, b)) :
    ((s.setState np st).setThread p .run).Forks := by
  have hth : ∀ q, (((s.setState np st).setThread p .run).proc q).thread = if q = p then .run
    else (s.proc q).thread := by
    intro q
    rw [setThread_thread]
    split
    · rfl
    · exact setState_thread
  refine h.keep (fun q r b' hq => ⟨b', ?_⟩) fun q hq ⟨r, b', hr⟩ => ?_
  · rw [hth] at hq
    split at hq
    · cases hq
    · exact hq
  · rw [hth] at hr
    split at hr
    · cases hr
    · next hrp =>
      rw [setThread_state, setState_state, if_neg, hq]
      rintro rfl
      exact hrp (h.unique r p q b' b hr hp)

theorem advance {np : Slot} {b b' : Bool} {f : Proc → Proc} {th : Thread} (h : s.Forks)
    (hp : (s.proc p).thread.forking = some (np, b)) (hth : th.forking = some (np, b'))
    (hf : ∀ x, (f x).state = x.state ∧ (f x).thread = x.thread) : ((s.modify np f).setThread p th).Forks := by
  refine h.keep (fun q r b₁ hq => ?_) fun q hq _ => ?_
  · rw [setThread_thread] at hq
    split at hq
    · next hqp =>
      rw [hth] at hq
      cases hq
      exact ⟨b, hqp ▸ hp⟩
    · rw [modify_field (·.thread) (hf _).2] at hq
      exact ⟨b₁, hq⟩
  · rw [setThread_state, modify_field (·.state) (hf _).1, hq]

theorem alloc {np : Slot} (h : s.Forks) (hnp : (s.proc np).state = .unused) :
    (({ s.modify np fun x => { x with state := .embryo, pid := s.nextpid, thread := .forkret } with
      nextpid := int32 (s.nextpid + 1) } : Ptable).setThread p (.forkStack np)).Forks := by
  obtain ⟨t, ht⟩ : ∃ t, (({ s.modify np fun x => { x with state := .embryo, pid := s.nextpid, thread := .forkret } with
      nextpid := int32 (s.nextpid + 1) } : Ptable).setThread p (.forkStack np)) = t := ⟨_, rfl⟩
  have hth : ∀ q, (t.proc q).thread = if q = p then .forkStack np else if q = np then .forkret
    else (s.proc q).thread := by
    intro q
    rw [← ht, setThread_thread]
    split
    · rfl
    · simp only [modify_proc]
      split <;> rfl
  have hst : ∀ q, (t.proc q).state = if q = np then .embryo else (s.proc q).state := by
    intro q
    rw [← ht, setThread_state]
    simp only [modify_proc]
    split <;> rfl
  have hold : ∀ q r b, q ≠ p → (t.proc q).thread.forking = some (r, b) → (s.proc q).thread.forking = some (r, b) ∧
    r ≠ np := by
    intro q r b hqp hq
    rw [hth, if_neg hqp] at hq
    split at hq
    · cases hq
    · refine ⟨hq, ?_⟩
      rintro rfl
      simp [h.embryo q r b hq] at hnp
  have hnew : ∀ r b, (t.proc p).thread.forking = some (r, b) → r = np := by
    intro r b hr
    rw [hth, if_pos rfl] at hr
    cases hr
    rfl
  rw [ht]
  constructor
  · intro q r b hq
    rw [hst]
    by_cases hqp : q = p
    · rw [if_pos (hnew r b (hqp ▸ hq))]
    · obtain ⟨hq', hr⟩ := hold q r b hqp hq
      rw [if_neg hr]
      exact h.embryo q r b hq'
  · intro q q' r b b' hq hq'
    by_cases hqp : q = p <;> by_cases hqp' : q' = p
    · rw [hqp, hqp']
    · exact absurd (hnew r b (hqp ▸ hq)) (hold q' r b' hqp' hq').2
    · exact absurd (hnew r b' (hqp' ▸ hq')) (hold q r b hqp hq).2
    · exact h.unique q q' r b b' (hold q r b hqp hq).1 (hold q' r b' hqp' hq').1

end Ptable.Forks

theorem exitFamily_cpu {s : Ptable} {p : Slot} (hi : s.initproc ≠ some p) : (s.exitFamily p).cpu = s.cpu := by
  have hp2 : Passed p slots (s.wakeup1 ((s.proc p).parent.map .proc)) (s.exitFamily p) := passed_foldl hi
  exact hp2.cpu

theorem exitFamily_running {s : Ptable} {p q : Slot} (hi : s.initproc ≠ some p) :
    ((s.exitFamily p).proc q).state = .running ↔ (s.proc q).state = .running := by
  have hp2 : Passed p slots (s.wakeup1 ((s.proc p).parent.map .proc)) (s.exitFamily p) := passed_foldl hi
  rcases hp2.state_wakeup1 q with h1 | ⟨h1, h2⟩
  · rw [h1]
  · simp [h1, h2]

namespace Sched

variable {s t : Sched} {c d : Cpu} {p q : Slot} {a : At}

/-! ### What a step of a CPU does -/

/-- The points of the code that follow each other on CPU `c`, and the table after the step. -/
inductive Moves (s : Ptable) (c : Cpu) : At → At → Ptable → Prop
  | draw : Moves s c .idle .draw s
  | none : Moves s c .draw .idle s
  | start {p : Slot} {r : Nat} (hp : (s.proc p).state = .runnable) :
      Moves s c .draw (.start p) { s.setCpu c (some p) with rseed := r }
  | running {p : Slot} : Moves s c (.start p) (.switchTo p) (s.setState p .running)
  | switch {p : Slot} : Moves s c (.switchTo p) (.resumed p) s
  | resume {p : Slot} {f : Proc → Proc} (hst : ∀ x, (f x).state = x.state) (htk : ∀ x, (f x).ticks = x.ticks)
      (hth : (f (s.proc p)).thread = .run ∨ (f (s.proc p)).thread = (s.proc p).thread) :
      Moves s c (.resumed p) (.run p) (s.modify p f)
  | again {p : Slot} : Moves s c (.resumed p) (.enter p .wait) (s.modify p fun x => { x with chan := none })
  | call {p : Slot} {call : Leave} (hi : call = .exit → s.initproc ≠ some p) : Moves s c (.run p) (.enter p call) s
  | park {p : Slot} {call : Leave} {f : Proc → Proc}
      (hst : ∀ x, (f x).state = .runnable ∨ (f x).state = .sleeping) (htk : ∀ x, (f x).ticks = x.ticks)
      (hth : ∀ x, (f x).thread.forking = none ∨ (f x).thread = x.thread) :
      Moves s c (.enter p call) (.sched p) (s.modify p f)
  | family {p : Slot} (hi : s.initproc ≠ some p) : Moves s c (.enter p .exit) (.dying p) (s.exitFamily p)
  | reap {p q : Slot} (hq : (s.proc q).state = .zombie) :
      Moves s c (.enter p .wait) (.run p) ((s.free q).setThread p .run)
  | noChild {p : Slot} : Moves s c (.enter p .wait) (.run p) (s.setThread p .run)
  | zombie {p : Slot} : Moves s c (.dying p) (.sched p) (s.setState p .zombie)
  | switchBack {p : Slot} : Moves s c (.sched p) (.back p) s
  | clear {p : Slot} : Moves s c (.back p) (.count p) (s.setCpu c none)
  | count {p : Slot} : Moves s c (.count p) .done (s.modify p fun x => { x with ticks := int32 (x.ticks + 1) })
  | done : Moves s c .done .idle s

structure Turned (s t : Sched) (c : Cpu) (a : At) : Prop where
  moves : Moves s.table c (s.pos c) a t.table
  pos : t.pos = update s.pos c a
  lock : t.lock = if a.locked then some c else none
  free : (s.pos c).locked = false → s.lock = none
  dispatches : ∀ q, t.dispatches q = s.dispatches q + if s.pos c = .switchTo q then 1 else 0
  returns : ∀ q, t.returns q = s.returns q + if s.pos c = .sched q then 1 else 0

theorem turned_goto {a' : At} (ha : s.pos c = a) {t : Ptable} (hm : Moves s.table c a a' t)
    (hfree : a.locked = false → s.lock = none) (hd : ∀ q, a ≠ .switchTo q) (hr : ∀ q, a ≠ .sched q) :
    Turned s (s.goto c a' t) c a' where
  moves := ha ▸ hm
  pos := rfl
  lock := rfl
  free := ha ▸ hfree
  dispatches q := by rw [ha, if_neg (hd q)]; rfl
  returns q := by rw [ha, if_neg (hr q)]; rfl

def Outlives (s : Sched) : Prop := ∀ c p, s.pos c = .enter p .exit → s.table.initproc ≠ some p

theorem turned_turn (ho : Outlives s) (h : s.turn c = some t) : ∃ a, Turned s t c a := by
  unfold turn at h
  split at h
  case h_1 hp =>
    split_ifs at h with hl
    cases h
    exact ⟨_, turned_goto hp .draw (fun _ => hl) (by simp) (by simp)⟩
  case h_2 hp =>
    split at h
    · cases h
      exact ⟨_, turned_goto hp .none (by simp [At.locked]) (by simp) (by simp)⟩
    · next p r hd =>
      cases h
      exact ⟨_, turned_goto hp (.start (schedulerPass_dispatch hd).1) (by simp [At.locked]) (by simp) (by simp)⟩
    · cases h
  case h_3 p hp =>
    cases h
    exact ⟨_, turned_goto hp .running (by simp [At.locked]) (by simp) (by simp)⟩
  case h_4 p hp =>
    cases h
    refine ⟨.resumed p, hp ▸ .switch, rfl, rfl, by simp [hp, At.locked], fun q => ?_, by simp [hp, goto]⟩
    by_cases hq : q = p
    · subst hq
      simp [hp]
    · have : p ≠ q := fun h => hq h.symm
      simp [hp, hq, this]
  case h_5 p hp =>
    have hm : ∀ {a' t'}, Moves s.table c (.resumed p) a' t' → Turned s (s.goto c a' t') c a' := fun hm =>
      turned_goto hp hm (by simp [At.locked]) (by simp) (by simp)
    split at h
    · cases h
      exact ⟨_, hm (.resume (fun _ => rfl) (fun _ => rfl) (.inl rfl))⟩
    · cases h
      exact ⟨_, hm (.resume (fun _ => rfl) (fun _ => rfl) (.inl rfl))⟩
    · cases h
      exact ⟨_, hm .again⟩
    all_goals
      cases h
      have := hm (.resume (f := id) (fun _ => rfl) (fun _ => rfl) (.inr rfl))
      rw [show s.table.modify p id = s.table by simp [Ptable.modify]] at this
      exact ⟨_, this⟩
  case h_6 => cases h
  case h_7 p hp =>
    cases h
    exact ⟨_, turned_goto hp (.park (fun _ => .inl rfl) (fun _ => rfl) fun _ => .inr rfl) (by simp [At.locked])
      (by simp) (by simp)⟩
  case h_8 p x hp =>
    cases h
    exact ⟨_, turned_goto hp (.park (fun _ => .inr rfl) (fun _ => rfl) fun _ => .inl rfl) (by simp [At.locked])
      (by simp) (by simp)⟩
  case h_9 p hp =>
    rw [← some.inj h]
    exact ⟨_, turned_goto hp (.family (ho c p hp)) (by simp [At.locked]) (by simp) (by simp)⟩
  case h_10 p hp =>
    have hm : ∀ {a' t'}, Moves s.table c (.enter p .wait) a' t' → Turned s (s.goto c a' t') c a' := fun hm =>
      turned_goto hp hm (by simp [At.locked]) (by simp) (by simp)
    cases h
    unfold waitTurn
    split
    · next q hq =>
      have hz := List.find?_some hq
      simp only [decide_eq_true_eq] at hz
      exact ⟨_, hm (.reap hz.2)⟩
    · split
      · exact ⟨_, hm .noChild⟩
      · exact ⟨_, hm (.park (fun _ => .inr rfl) (fun _ => rfl) fun _ => .inl rfl)⟩
  case h_11 p hp =>
    cases h
    exact ⟨_, turned_goto hp .zombie (by simp [At.locked]) (by simp) (by simp)⟩
  case h_12 p hp =>
    cases h
    refine ⟨.back p, hp ▸ .switchBack, rfl, rfl, by simp [hp, At.locked], by simp [hp, goto], fun q => ?_⟩
    by_cases hq : q = p
    · subst hq
      simp [hp]
    · have : p ≠ q := fun h => hq h.symm
      simp [hp, hq, this]
  case h_13 p hp =>
    cases h
    exact ⟨_, turned_goto hp .clear (by simp [At.locked]) (by simp) (by simp)⟩
  case h_14 p hp =>
    cases h
    exact ⟨_, turned_goto hp .count (by simp [At.locked]) (by simp) (by simp)⟩
  case h_15 hp =>
    cases h
    exact ⟨_, turned_goto hp .done (by simp [At.locked]) (by simp) (by simp)⟩

/-! ### The invariant -/

structure Inv (s : Sched) : Prop where
  lock : ∀ c, s.lock = some c ↔ (s.pos c).locked = true
  cpu : ∀ c, s.table.cpu c = (s.pos c).proc
  runs : ∀ c p, (s.pos c).runs = some p → (s.table.proc p).state = .running
  running : ∀ p, (s.table.proc p).state = .running → ∃ c, (s.pos c).runs = some p
  unique : ∀ c d p, (s.pos c).runs = some p → (s.pos d).runs = some p → c = d
  fits : ∀ c, (s.pos c).Fits s.table
  forks : s.table.Forks
  outlives : Outlives s

theorem Inv.not_locked (h : Inv s) (hd : s.lock ≠ some d) : (s.pos d).locked = false := by
  have := mt (h.lock d).mpr hd
  simpa using this

theorem Turned.others (ht : Turned s t c a) (h : Inv s) : ∀ d, d ≠ c → (s.pos d).locked = false := by
  intro d hd
  refine h.not_locked fun hl => ?_
  cases hcl : (s.pos c).locked with
  | true => exact hd (some.inj (hl.symm.trans ((h.lock c).mpr hcl)))
  | false => simp [ht.free hcl] at hl

theorem Inv.turned (h : Inv s) (ht : Turned s t c a)
    (hcpu : ∀ d, t.table.cpu d = if d = c then a.proc else s.table.cpu d)
    (hrun : ∀ q, (t.table.proc q).state = .running ↔
      a.runs = some q ∨ (s.table.proc q).state = .running ∧ (s.pos c).runs ≠ some q)
    (hnew : ∀ q, a.runs = some q → (s.pos c).runs = some q ∨ (s.table.proc q).state ≠ .running)
    (hfits : a.Fits t.table) (hforks : t.table.Forks) (hout : ∀ p, a = .enter p .exit → t.table.initproc ≠ some p) :
    Inv t := by
  have hpc : t.pos c = a := by rw [ht.pos, update_self]
  have hpd : ∀ d, d ≠ c → t.pos d = s.pos d := fun d hd => by rw [ht.pos, update_of_ne hd]
  have hother := ht.others h
  refine ⟨fun d => ?_, fun d => ?_, fun d p hp => ?_, fun p hp => ?_, fun d d' p hp hp' => ?_, fun d => ?_, hforks,
    fun d p hp => ?_⟩
  · by_cases hd : d = c
    · subst hd
      rw [hpc, ht.lock]
      cases a.locked <;> simp
    · rw [hpd d hd, hother d hd, ht.lock]
      have : c ≠ d := fun h => hd h.symm
      split <;> simp [this]
  · rw [hcpu]
    by_cases hd : d = c
    · rw [if_pos hd, hd, hpc]
    · rw [if_neg hd, hpd d hd, h.cpu]
  · rw [hrun]
    by_cases hd : d = c
    · subst hd
      exact .inl (hpc ▸ hp)
    · rw [hpd d hd] at hp
      exact .inr ⟨h.runs d p hp, fun hc => hd (h.unique d c p hp hc)⟩
  · rcases (hrun p).mp hp with ha | ⟨hs, hne⟩
    · exact ⟨c, hpc ▸ ha⟩
    · obtain ⟨d, hd⟩ := h.running p hs
      have hdc : d ≠ c := by
        rintro rfl
        exact hne hd
      exact ⟨d, by rw [hpd d hdc, hd]⟩
  · -- A process that CPU `c` comes to run was not run by another.
    have hclash : ∀ d', d' ≠ c → a.runs = some p → (s.pos d').runs ≠ some p := by
      intro d' hd' ha hp'
      rcases hnew p ha with hc | hns
      · exact hd' (h.unique d' c p hp' hc)
      · exact hns (h.runs d' p hp')
    by_cases hd : d = c <;> by_cases hd' : d' = c
    · rw [hd, hd']
    · rw [hd, hpc] at hp
      rw [hpd d' hd'] at hp'
      exact absurd hp' (hclash d' hd' hp)
    · rw [hd', hpc] at hp'
      rw [hpd d hd] at hp
      exact absurd hp (hclash d hd hp')
    · rw [hpd d hd] at hp
      rw [hpd d' hd'] at hp'
      exact h.unique d d' p hp hp'
  · by_cases hd : d = c
    · rw [hd, hpc]
      exact hfits
    · rw [hpd d hd]
      exact At.fits_of_not_locked (hother d hd)
  · by_cases hd : d = c
    · subst hd
      exact hout p (hpc ▸ hp)
    · have := hother d hd
      rw [hpd d hd] at hp
      simp [hp, At.locked] at this

variable {e : Option Ptable.Event}

variable {u : Ptable}

@[simp] theorem record_table : (s.record u e).table = u := by
  unfold record
  split <;> rfl

@[simp] theorem record_pos : (s.record u e).pos = s.pos := by
  unfold record
  split <;> rfl

@[simp] theorem record_lock : (s.record u e).lock = s.lock := by
  unfold record
  split <;> rfl

theorem Inv.recorded (h : Inv s) (hcpu : u.cpu = s.table.cpu) (hst : ∀ q, (u.proc q).state = (s.table.proc q).state ∨
      (s.lock = none ∨ (s.table.proc q).state = .embryo) ∧ (s.table.proc q).state ≠ .running ∧
      (u.proc q).state ≠ .running)
    (hforks : u.Forks) (hinit : s.lock = none ∨ u.initproc = s.table.initproc) : Inv (s.record u e) := by
  have hrun : ∀ q, (u.proc q).state = .running ↔ (s.table.proc q).state = .running := fun q => by
    rcases hst q with h1 | ⟨-, h1, h2⟩
    · rw [h1]
    · exact iff_of_false h2 h1
  refine ⟨fun c => ?_, fun c => ?_, fun c p hp => ?_, fun p hp => ?_, fun c d p hp hp' => ?_, fun c => ?_, ?_,
    fun c p hp => ?_⟩
  all_goals simp only [record_lock, record_pos, record_table] at *
  · exact h.lock c
  · rw [hcpu, h.cpu]
  · rw [hrun]
    exact h.runs c p hp
  · exact h.running p ((hrun p).mp hp)
  · exact h.unique c d p hp hp'
  · by_cases hl : s.lock = some c
    · -- The process of whoever holds the lock is no EMBRYO.
      have hkeep : ∀ p, (s.table.proc p).state ≠ .embryo → (u.proc p).state = (s.table.proc p).state := fun p hp => by
        rcases hst p with h1 | ⟨h1 | h1, -⟩
        · exact h1
        · simp [hl] at h1
        · exact absurd h1 hp
      have hf := h.fits c
      revert hf
      cases s.pos c <;> simp only [At.Fits, imp_self]
      · intro hf
        rwa [hkeep _ (by simp [hf])]
      all_goals
        intro hf
        rwa [hkeep _ (by rcases hf with h | h | h <;> simp [h])]
    · exact At.fits_of_not_locked (h.not_locked hl)
  · exact hforks
  · rcases hinit with hl | hi
    · have := (h.lock c).mpr (by rw [hp]; rfl)
      simp [hl] at this
    · rw [hi]
      exact h.outlives c p hp

theorem Inv.turned_calm (h : Inv s) (ht : Turned s t c a) (hproc : a.proc = (s.pos c).proc)
    (hruns : a.runs = (s.pos c).runs) (hcpu : t.table.cpu = s.table.cpu)
    (hrun : ∀ q, (t.table.proc q).state = .running ↔ (s.table.proc q).state = .running)
    (hfits : a.Fits t.table) (hforks : t.table.Forks) (hout : ∀ p, a = .enter p .exit → t.table.initproc ≠ some p) :
    Inv t := by
  refine h.turned ht (fun d => ?_) (fun q => ?_) (fun q hq => .inl (hruns ▸ hq)) hfits hforks hout
  · rw [hcpu]
    split
    · next hd => rw [hd, h.cpu, hproc]
    · rfl
  · rw [hrun, hruns]
    constructor
    · intro hq
      by_cases hc : (s.pos c).runs = some q
      · exact .inl hc
      · exact .inr ⟨hq, hc⟩
    · rintro (hc | ⟨hq, -⟩)
      · exact h.runs c q hc
      · exact hq

theorem Inv.turned_park (h : Inv s) (ht : Turned s t c a) {p : Slot} {f : Proc → Proc} (hproc : a.proc = (s.pos c).proc)
    (hp : (s.pos c).runs = some p) (ha : a.runs = none) (htab : t.table = s.table.modify p f)
    (hst : (f (s.table.proc p)).state ≠ .running)
    (hth : (f (s.table.proc p)).thread.forking = none ∨ (f (s.table.proc p)).thread = (s.table.proc p).thread)
    (hfits : a.Fits t.table) (hout : ∀ p, a ≠ .enter p .exit) : Inv t := by
  have hrunning := h.runs c p hp
  refine h.turned ht (fun d => ?_) (fun q => ?_) (by simp [ha]) hfits ?_ fun p hc => absurd hc (hout p)
  · rw [htab, modify_cpu]
    split
    · next hd => rw [hd, h.cpu, hproc]
    · rfl
  · rw [htab, modify_proc, ha, hp]
    by_cases hq : q = p
    · subst hq
      simp [hst]
    · have : p ≠ q := fun h => hq h.symm
      simp [hq, this]
  · rw [htab]
    exact h.forks.modify (by simp [hrunning]) hth

theorem Inv.step_turned (h : Inv s) (ht : Turned s t c a) : Inv t := by
  have hm := ht.moves
  generalize hb : s.pos c = b at hm
  generalize hu : t.table = u at hm
  cases hm with
  | draw | none | switch | done =>
    exact h.turned_calm ht (by rw [hb]; rfl) (by rw [hb]; rfl) (by rw [hu]) (by simp [hu]) trivial (hu ▸ h.forks)
      (by simp)
  | @call p call hi =>
    refine h.turned_calm ht (by rw [hb]; rfl) (by rw [hb]; rfl) (by rw [hu]) (by simp [hu]) trivial (hu ▸ h.forks) ?_
    intro q hq
    cases hq
    exact hu ▸ hi rfl
  | switchBack =>
    refine h.turned_calm ht (by rw [hb]; rfl) (by rw [hb]; rfl) (by rw [hu]) (by simp [hu]) ?_ (hu ▸ h.forks) (by simp)
    have := h.fits c
    rw [hb] at this
    exact hu ▸ this
  | @start p r hp =>
    refine h.turned ht (fun d => ?_) (fun q => ?_) (by simp [At.runs]) (hu ▸ hp) (hu ▸ h.forks.of_proc rfl) (by simp)
    · rw [hu]
      simp [Ptable.setCpu, update_apply, At.proc]
    · simp [hu, hb, At.runs]
  | @running p =>
    have hp : (s.table.proc p).state = .runnable := by
      have := h.fits c
      rwa [hb] at this
    refine h.turned ht (fun d => ?_) (fun q => ?_) (fun q hq => ?_) trivial ?_ (by simp)
    · rw [hu, setState_cpu]
      split
      · next hd => rw [hd, h.cpu, hb]; rfl
      · rfl
    · rw [hu, setState_state, hb]
      by_cases hq : q = p
      · simp [hq, At.runs]
      · have : p ≠ q := fun h => hq h.symm
        simp [hq, this, At.runs]
    · simp only [At.runs, some.injEq] at hq
      subst hq
      exact .inr (by simp [hp])
    · rw [hu]
      exact h.forks.modify (by simp [hp]) (.inr rfl)
  | @resume p f hst htk hth =>
    have hrun := h.runs c p (by rw [hb]; rfl)
    refine h.turned_calm ht (by rw [hb]; rfl) (by rw [hb]; rfl) (by rw [hu]; rfl) (fun q => ?_) trivial ?_ (by simp)
    · rw [hu, modify_field (·.state) (hst _)]
    · rw [hu]
      exact h.forks.modify (by simp [hrun]) (hth.imp (fun h => by rw [h]; rfl) id)
  | @again p =>
    have hrun := h.runs c p (by rw [hb]; rfl)
    refine h.turned_calm ht (by rw [hb]; rfl) (by rw [hb]; rfl) (by rw [hu]; rfl) (fun q => ?_) trivial ?_ (by simp)
    · rw [hu, modify_field (·.state) rfl]
    · rw [hu]
      exact h.forks.modify (by simp [hrun]) (.inr rfl)
  | @park p call f hst htk hth =>
    refine h.turned_park ht (by rw [hb]; rfl) (by rw [hb]; rfl) rfl hu ?_ (hth _) ?_ (by simp)
    · rcases hst (s.table.proc p) with h1 | h1 <;> simp [h1]
    · rw [hu]
      simp only [At.Fits, modify_proc_self]
      exact (hst _).imp id .inl
  | @family p hi =>
    refine h.turned_calm ht (by rw [hb]; rfl) (by rw [hb]; rfl) ?_ (fun q => ?_) trivial (hu ▸ h.forks.exitFamily hi)
      (by simp)
    · rw [hu]
      exact exitFamily_cpu hi
    · rw [hu]
      exact exitFamily_running hi
  | @reap p q hq =>
    have hrun := h.runs c p (by rw [hb]; rfl)
    refine h.turned_calm ht (by rw [hb]; rfl) (by rw [hb]; rfl) (by rw [hu]; rfl) (fun r => ?_) trivial ?_ (by simp)
    · rw [hu, setThread_state, free_proc]
      split
      · next hr => simp [hr, hq]
      · rfl
    · rw [hu]
      have hf : (s.table.free q).Forks := h.forks.modify (by simp [hq]) (.inr rfl)
      refine hf.modify ?_ (.inl rfl)
      rw [free_proc]
      split <;> simp [hrun]
  | @noChild p =>
    have hrun := h.runs c p (by rw [hb]; rfl)
    refine h.turned_calm ht (by rw [hb]; rfl) (by rw [hb]; rfl) (by rw [hu]; rfl) (fun r => ?_) trivial ?_ (by simp)
    · rw [hu, setThread_state]
    · rw [hu]
      exact h.forks.modify (by simp [hrun]) (.inl rfl)
  | @zombie p =>
    refine h.turned_park ht (by rw [hb]; rfl) (by rw [hb]; rfl) rfl hu (by simp) (.inr rfl) ?_ (by simp)
    rw [hu]
    simp [At.Fits, setState_state]
  | @clear p =>
    refine h.turned ht (fun d => ?_) (fun q => ?_) (by simp [At.runs]) ?_ (hu ▸ h.forks.of_proc rfl) (by simp)
    · rw [hu]
      simp [Ptable.setCpu, update_apply, At.proc]
    · simp [hu, hb, At.runs]
    · have := h.fits c
      rw [hb] at this
      exact hu ▸ this
  | @count p =>
    have hp := h.fits c
    rw [hb] at hp
    refine h.turned_calm ht (by rw [hb]; rfl) (by rw [hb]; rfl) (by rw [hu]; rfl) (fun r => ?_) trivial ?_ (by simp)
    · rw [hu, modify_field (·.state) rfl]
    · rw [hu]
      exact h.forks.modify (by rcases hp with h | h | h <;> simp [h]) (.inr rfl)

theorem turned_call {call : Leave} (h : s.next (.call c call) = some t) : ∃ p, Turned s t c (.enter p call) := by
  simp only [next, bind_eq_bind, bind_eq_some_iff] at h
  obtain ⟨p, hp, h⟩ := h
  split_ifs at h with hc
  obtain ⟨hl, -, hexit⟩ := hc
  cases h
  have hpos : s.pos c = .run p := by
    unfold running at hp
    split at hp
    · next q hq => rw [hq, some.inj hp]
    · cases hp
  exact ⟨p, turned_goto hpos (.call fun hcall hi => hexit ⟨hcall, hi⟩) (fun _ => hl) (by simp) (by simp)⟩

/-! ### The steps of the table -/

theorem Inv.abandoned (h : Inv s) {np : Slot} {b : Bool} (hp : (s.table.proc p).thread.forking = some (np, b)) :
    Inv (s.record ((s.table.setState np .unused).setThread p .run) e) := by
  have hnp := h.forks.embryo p np b hp
  refine h.recorded rfl (fun q => ?_) (h.forks.finish hp) (.inr rfl)
  rw [setThread_state, setState_state]
  split
  · next hq => exact .inr ⟨.inr (hq ▸ hnp), by simp [hq, hnp], by simp⟩
  · exact .inl rfl

theorem Inv.step_table (h : Inv s) {op : Ptable.Op} (hs : s.next (.table op) = some t) : Inv t := by
  simp only [next] at hs
  split at hs
  case isFalse => cases hs
  case isTrue hadm =>
    obtain ⟨⟨u, e⟩, hstep, rfl⟩ := map_eq_some_iff.mp hs
    simp only at hstep ⊢
    cases op with
    | userinit =>
      obtain ⟨hi, p, v, ha, -, rfl⟩ := step_userinit_inv hstep
      have hl : s.lock = none := by simpa [admits] using hadm
      obtain ⟨hp, rfl⟩ := allocproc_some ha
      refine h.recorded rfl (fun q => ?_) ?_ (.inl hl)
      · simp only [modify_proc, if_true]
        split
        · next hq => exact .inr ⟨.inl hl, by simp [hq, hp], by simp⟩
        · exact .inl rfl
      · refine h.forks.keep (fun q np b hq => ⟨b, ?_⟩) fun q hq _ => ?_
        · simp only [modify_proc, if_true] at hq
          split at hq
          · cases hq
          · exact hq
        · have : q ≠ p := by
            rintro rfl
            simp [hp] at hq
          simp [modify_proc, this, hq]
    | fork c =>
      obtain ⟨p, hc, hth, ⟨rfl, -⟩ | ⟨np, v, ha, -, rfl⟩⟩ := step_fork_inv hstep
      · exact h.recorded rfl (fun q => .inl rfl) h.forks (.inr rfl)
      · simp only [admits, Bool.decide_and, Bool.and_eq_true, decide_eq_true_eq, isNone_iff_eq_none] at hadm
        obtain ⟨hnp, rfl⟩ := allocproc_some ha
        refine h.recorded rfl (fun q => ?_) (h.forks.alloc hnp) (.inl hadm.1)
        rw [setThread_state]
        simp only [modify_proc]
        split
        · next hq => exact .inr ⟨.inl hadm.1, by simp [hq, hnp], by simp⟩
        · exact .inl rfl
    | forkStack c ok =>
      obtain ⟨-, p, np, hc, hth, ⟨-, rfl⟩ | ⟨-, rfl⟩⟩ := step_forkStack_inv hstep
      · refine h.recorded rfl (fun q => .inl ?_) ?_ (.inr rfl)
        · rw [setThread_state]
        · have hadv : ((s.table.modify np id).setThread p (.forkCopy np)).Forks :=
            h.forks.advance (by rw [hth]; rfl) rfl fun _ => ⟨rfl, rfl⟩
          rwa [show s.table.modify np id = s.table by simp [Ptable.modify]] at hadv
      · exact h.abandoned (by rw [hth]; rfl)
    | forkCopy c ok =>
      obtain ⟨-, p, np, hc, hth, ⟨-, rfl⟩ | ⟨-, rfl⟩⟩ := step_forkCopy_inv hstep
      · refine h.recorded rfl (fun q => .inl ?_) ?_ (.inr rfl)
        · rw [setThread_state, modify_field (·.state) rfl]
        · exact h.forks.advance (by rw [hth]; rfl) rfl fun _ => ⟨rfl, rfl⟩
      · exact h.abandoned (by rw [hth]; rfl)
    | forkRun c =>
      obtain ⟨-, p, np, hc, hth, rfl⟩ := step_forkRun_inv hstep
      have hnp := h.forks.embryo p np true (by rw [hth]; rfl)
      refine h.recorded rfl (fun q => ?_) (h.forks.finish (by rw [hth]; rfl)) (.inr rfl)
      rw [setThread_state, setState_state]
      split
      · next hq => exact .inr ⟨.inr (hq ▸ hnp), by simp [hq, hnp], by simp⟩
      · exact .inl rfl
    | wakeup x =>
      obtain ⟨-, rfl⟩ := step_wakeup_inv hstep
      have hl : s.lock = none := by simpa [admits] using hadm
      refine h.recorded rfl (fun q => ?_) (h.forks.keep (fun q np b hq => ⟨b, ?_⟩) fun q hq _ => ?_) (.inl hl)
      · rw [wakeup1_proc]
        split
        · next hq => exact .inr ⟨.inl hl, by simp [hq.1], by simp⟩
        · exact .inl rfl
      · rwa [wakeup1_field (·.thread.forking) fun _ _ => rfl] at hq
      · rw [wakeup1_proc, if_neg (by simp [hq]), hq]
    | kill pid =>
      obtain ⟨-, rfl⟩ := step_kill_inv hstep
      have hl : s.lock = none := by simpa [admits] using hadm
      have hk := kill_proc s.table pid
      refine h.recorded ?_ (fun q => ?_) (h.forks.keep (fun q np b hq => ⟨b, ?_⟩) fun q hq _ => ?_) (.inl hl)
      · unfold Ptable.kill
        split <;> rfl
      · rcases hk q with h1 | ⟨-, h1⟩
        · exact .inl (by rw [h1])
        · rw [h1]
          dsimp only
          split
          · next hq => exact .inr ⟨.inl hl, by simp [hq], by simp⟩
          · exact .inl rfl
      · rcases hk q with h1 | ⟨-, h1⟩ <;> rwa [h1] at hq
      · rcases hk q with h1 | ⟨-, h1⟩ <;> simp [h1, hq]
    | exit | wait | sleep | yield | settickets | scheduler => simp [admits] at hadm

theorem reach_handoff (h : machine.Reach s) : Inv s := by
  refine Machine.Reach.invariant ?_ ?_ h
  · rintro s rfl
    exact ⟨by simp [At.locked], by simp [At.proc], by simp [At.runs], by simp, by simp [At.runs], fun _ => trivial,
      ⟨by simp [Thread.forking], by simp [Thread.forking]⟩, by simp [Outlives]⟩
  · intro s l t hi hs
    cases l with
    | table op => exact hi.step_table hs
    | call c call =>
      obtain ⟨p, ht⟩ := turned_call hs
      exact hi.step_turned ht
    | turn c =>
      obtain ⟨a, ht⟩ := turned_turn hi.outlives hs
      exact hi.step_turned ht

/-! ### One CPU for each RUNNING process -/

theorem Inv.cpu_used (h : Inv s) (hc : s.table.cpu c = some q) : (s.table.proc q).state ≠ .unused := by
  rw [h.cpu] at hc
  rcases At.proc_cases hc with hr | ⟨-, -, ha⟩
  · simp [h.runs c q hr]
  · have hf := h.fits c
    rcases ha with ha | ha | ha
    · rw [ha] at hf
      have hf : (s.table.proc q).state = .runnable := hf
      simp [hf]
    all_goals
      rw [ha] at hf
      rcases hf with hf | hf | hf <;> simp [hf]

theorem Inv.embryo_only (h : Inv s) (hl : s.lock ≠ none) {op : Ptable.Op} (hs : s.next (.table op) = some t)
    (hq : (s.table.proc q).state ≠ .embryo) : (t.table.proc q).state = (s.table.proc q).state := by
  simp only [next] at hs
  split at hs
  case isFalse => cases hs
  case isTrue hadm =>
    obtain ⟨⟨u, e⟩, hstep, rfl⟩ := map_eq_some_iff.mp hs
    rw [record_table]
    have habandon : ∀ p np b, (s.table.proc p).thread.forking = some (np, b) →
        (((s.table.setState np .unused).setThread p .run).proc q).state = (s.table.proc q).state := by
      intro p np b hp
      rw [setThread_state, setState_state, if_neg]
      rintro rfl
      exact hq (h.forks.embryo p q b hp)
    cases op with
    | forkStack d ok =>
      obtain ⟨-, p, np, -, hth, ⟨-, rfl⟩ | ⟨-, rfl⟩⟩ := step_forkStack_inv hstep
      · rw [setThread_state]
      · exact habandon p np false (by rw [hth]; rfl)
    | forkCopy d ok =>
      obtain ⟨-, p, np, -, hth, ⟨-, rfl⟩ | ⟨-, rfl⟩⟩ := step_forkCopy_inv hstep
      · rw [setThread_state, modify_field (·.state) rfl]
      · exact habandon p np false (by rw [hth]; rfl)
    | _ => simp [admits, hl] at hadm

/-- While a CPU is between the `exit` of its process and `c->proc = 0`, no step frees the slot. -/
theorem Inv.not_freed (h : Inv s) (hc : s.table.cpu c = some q) (hz : (s.table.proc q).state = .zombie)
    {l : Label} (hs : s.next l = some t) : (t.table.proc q).state ≠ .unused := by
  rw [h.cpu] at hc
  rcases At.proc_cases hc with hr | ⟨-, hlk, ha⟩
  · simp [h.runs c q hr] at hz
  have hl : s.lock = some c := (h.lock c).mpr hlk
  cases l with
  | call d call =>
    obtain ⟨p, ht⟩ := turned_call hs
    have hm := ht.moves
    generalize hb : s.pos d = b at hm
    generalize t.table = u at hm ⊢
    cases hm with
    | call => simp [hz]
    | again => rw [modify_field (·.state) rfl]; simp [hz]
  | turn d =>
    obtain ⟨a, ht⟩ := turned_turn h.outlives hs
    by_cases hd : d = c
    · subst hd
      have hm := ht.moves
      generalize t.table = u at hm ⊢
      rcases ha with ha | ha | ha
      · have hf := h.fits d
        rw [ha] at hf
        have hf : (s.table.proc q).state = .runnable := hf
        simp [hf] at hz
      · rw [ha] at hm
        cases hm
        simp [hz]
      · rw [ha] at hm
        cases hm
        simp [hz]
    · have hnl : (s.pos d).locked = false := h.not_locked fun hd' => hd (some.inj (hd'.symm.trans hl))
      simp [ht.free hnl] at hl
  | table op =>
    rw [h.embryo_only (by simp [hl]) hs (by simp [hz]), hz]
    simp

/-- With `ptable.lock` free, a slot is RUNNING exactly if it is `c->proc` of exactly one CPU, and `c->proc` of a CPU is
    0 or RUNNING; and the slot that `wait` frees is `c->proc` of no CPU, before the step and after it. -/
theorem one_cpu_per_running (h : machine.Reach s) : (s.lock = none →
      (∀ p, (s.table.proc p).state = .running ↔ ∃! c, s.table.cpu c = some p) ∧
      ∀ c p, s.table.cpu c = some p → (s.table.proc p).state = .running) ∧
    ∀ l t q, s.next l = some t → (s.table.proc q).state = .zombie → (t.table.proc q).state = .unused →
      ∀ c, s.table.cpu c ≠ some q ∧ t.table.cpu c ≠ some q := by
  have hinv := reach_handoff h
  constructor
  · intro hl
    -- With the lock free `c->proc` is the process that the CPU runs.
    have hruns : ∀ c p, s.table.cpu c = some p ↔ (s.pos c).runs = some p := by
      intro c p
      rw [hinv.cpu]
      have hnl := hinv.not_locked (d := c) (by simp [hl])
      constructor
      · intro hc
        rcases At.proc_cases hc with hr | ⟨-, hlk, -⟩
        · exact hr
        · simp [hnl] at hlk
      · intro hr
        cases ha : s.pos c <;> simp_all [At.locked, At.runs, At.proc]
    refine ⟨fun p => ⟨fun hp => ?_, ?_⟩, fun c p hc => hinv.runs c p ((hruns c p).mp hc)⟩
    · obtain ⟨c, hc⟩ := hinv.running p hp
      exact ⟨c, (hruns c p).mpr hc, fun d hd => hinv.unique d c p ((hruns d p).mp hd) hc⟩
    · rintro ⟨c, hc, -⟩
      exact hinv.runs c p ((hruns c p).mp hc)
  · intro l t q hs hz hu c
    exact ⟨fun hc => hinv.not_freed hc hz hs hu, fun hc => (reach_handoff (h.step hs)).cpu_used hc hu⟩

theorem reach_run {ls : List Label} (h : ({} : Sched).run ls = some s) : machine.Reach s :=
  .foldlM (fun _ _ _ => id) (.init rfl) h

def dispatch (c : Cpu) : List Label := List.replicate 5 (.turn c)

/-- Init runs on CPU 0 and forks a child; the child runs on CPU 1 and exits; init calls `wait`. -/
def childExits : List Label :=
  .table .userinit :: dispatch 0 ++
    [.table (.fork 0), .table (.forkStack 0 true), .table (.forkCopy 0 true), .table (.forkRun 0)] ++ dispatch 1 ++
    .call 1 .exit :: List.replicate 6 (.turn 1) ++ [.call 0 .wait]

/-- The next turn of CPU 0 frees slot 1, which no CPU runs, and leaves init on exactly one CPU. -/
theorem one_cpu_per_running_childExits : ∃ s t, ({} : Sched).run childExits = some s ∧ s.next (.turn 0) = some t ∧
    (s.table.proc 1).state = .zombie ∧ (t.table.proc 1).state = .unused ∧ (∀ c, t.table.cpu c ≠ some 1) ∧
    ∃! c, t.table.cpu c = some 0 := by
  have hrun : ((({} : Sched).run childExits).bind fun s => (s.next (.turn 0)).map fun t => decide
      ((s.table.proc 1).state = .zombie ∧ (t.table.proc 1).state = .unused ∧ t.lock = none ∧
        (t.table.proc 0).state = .running)) = some true := by decide +kernel
  obtain ⟨s, hs, h⟩ := bind_eq_some_iff.mp hrun
  obtain ⟨t, ht, h⟩ := map_eq_some_iff.mp h
  obtain ⟨hz, hu, hl, h0⟩ := of_decide_eq_true h
  have hreach := reach_run hs
  exact ⟨s, t, hs, ht, hz, hu, fun c => ((one_cpu_per_running hreach).2 _ t 1 ht hz hu c).2,
    (((one_cpu_per_running (hreach.step ht)).1 hl).1 0).mp h0⟩

end Sched
end Xv6
