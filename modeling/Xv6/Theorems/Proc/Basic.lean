import Xv6.Proc

/-! What the operations of proc.c change in the process table, and what each step does. -/

namespace Xv6
open Option
namespace Ptable

variable {s t : Ptable} {p q : Slot} {c : Cpu} {f : Proc → Proc}

theorem mem_slots (p : Slot) : p ∈ slots := List.mem_finRange p

/-! ### Field updates -/

theorem modify_proc : (s.modify p f).proc q = if q = p then f (s.proc p) else s.proc q := by
  simp [modify, Function.update_apply]

@[simp] theorem modify_proc_self : (s.modify p f).proc p = f (s.proc p) := by simp [modify_proc]

theorem modify_proc_of_ne (h : q ≠ p) : (s.modify p f).proc q = s.proc q := by simp [modify_proc, h]

variable {o : Option Slot}

@[simp] theorem modify_initproc : (s.modify p f).initproc = s.initproc := rfl
@[simp] theorem modify_nextpid : (s.modify p f).nextpid = s.nextpid := rfl
@[simp] theorem modify_cpu : (s.modify p f).cpu = s.cpu := rfl
@[simp] theorem setCpu_proc : (s.setCpu c o).proc = s.proc := rfl
@[simp] theorem setCpu_initproc : (s.setCpu c o).initproc = s.initproc := rfl
@[simp] theorem setCpu_nextpid : (s.setCpu c o).nextpid = s.nextpid := rfl

variable {α : Type}

theorem modify_field (g : Proc → α) (h : g (f (s.proc p)) = g (s.proc p)) :
    g ((s.modify p f).proc q) = g (s.proc q) := by
  rw [modify_proc]
  split
  · next hq => rw [hq, h]
  · rfl

variable {st : ProcState}

theorem setState_proc :
    (s.setState p st).proc q = if q = p then { s.proc p with state := st } else s.proc q := modify_proc

theorem setState_state : ((s.setState p st).proc q).state = if q = p then st else (s.proc q).state := by
  rw [setState_proc]
  split <;> rfl

theorem setState_field (g : Proc → α) (h : ∀ x st, g { x with state := st } = g x) :
    g ((s.setState p st).proc q) = g (s.proc q) := modify_field g (h _ _)

theorem setState_pid : ((s.setState p st).proc q).pid = (s.proc q).pid := setState_field _ fun _ _ => rfl
theorem setState_ticks : ((s.setState p st).proc q).ticks = (s.proc q).ticks := setState_field _ fun _ _ => rfl
theorem setState_tickets : ((s.setState p st).proc q).tickets = (s.proc q).tickets := setState_field _ fun _ _ => rfl
theorem setState_thread : ((s.setState p st).proc q).thread = (s.proc q).thread := setState_field _ fun _ _ => rfl
theorem setState_killed : ((s.setState p st).proc q).killed = (s.proc q).killed := setState_field _ fun _ _ => rfl

variable {th : Thread}

theorem setThread_thread : ((s.setThread p th).proc q).thread = if q = p then th else (s.proc q).thread := by
  rw [setThread, modify_proc]
  split <;> rfl

theorem setThread_field (g : Proc → α) (h : ∀ x th, g { x with thread := th } = g x) :
    g ((s.setThread p th).proc q) = g (s.proc q) := modify_field g (h _ _)

theorem setThread_state : ((s.setThread p th).proc q).state = (s.proc q).state := setThread_field _ fun _ _ => rfl
theorem setThread_pid : ((s.setThread p th).proc q).pid = (s.proc q).pid := setThread_field _ fun _ _ => rfl
theorem setThread_ticks : ((s.setThread p th).proc q).ticks = (s.proc q).ticks := setThread_field _ fun _ _ => rfl
theorem setThread_tickets : ((s.setThread p th).proc q).tickets = (s.proc q).tickets := setThread_field _ fun _ _ => rfl
theorem setThread_killed : ((s.setThread p th).proc q).killed = (s.proc q).killed := setThread_field _ fun _ _ => rfl

@[simp] theorem setState_initproc : (s.setState p st).initproc = s.initproc := rfl
@[simp] theorem setState_nextpid : (s.setState p st).nextpid = s.nextpid := rfl
@[simp] theorem setState_cpu : (s.setState p st).cpu = s.cpu := rfl
@[simp] theorem setThread_initproc : (s.setThread p th).initproc = s.initproc := rfl
@[simp] theorem setThread_nextpid : (s.setThread p th).nextpid = s.nextpid := rfl
@[simp] theorem setThread_cpu : (s.setThread p th).cpu = s.cpu := rfl

theorem free_proc : (s.free q).proc p =
    if p = q then { s.proc q with pid := 0, parent := none, killed := false, state := .unused }
    else s.proc p := modify_proc

theorem backToScheduler_proc : (s.backToScheduler c p).proc q =
    if q = p then { s.proc p with ticks := int32 ((s.proc p).ticks + 1) } else s.proc q := by
  rw [backToScheduler, modify_proc]
  rfl

@[simp] theorem backToScheduler_initproc : (s.backToScheduler c p).initproc = s.initproc := rfl
@[simp] theorem backToScheduler_nextpid : (s.backToScheduler c p).nextpid = s.nextpid := rfl

theorem backToScheduler_cpu {d : Cpu} : (s.backToScheduler c p).cpu d = if d = c then none else s.cpu d := by
  simp [backToScheduler, setCpu, Function.update_apply]

theorem backToScheduler_field (g : Proc → α) (h : ∀ x n, g { x with ticks := n } = g x) :
    g ((s.backToScheduler c p).proc q) = g (s.proc q) := by
  rw [backToScheduler_proc]
  split
  · next hq => rw [hq, h]
  · rfl

variable {ch : Option Chan}

theorem wakeup1_proc : (s.wakeup1 ch).proc q =
    if (s.proc q).state = .sleeping ∧ (s.proc q).chan = ch then { s.proc q with state := .runnable }
    else s.proc q := rfl

@[simp] theorem wakeup1_initproc : (s.wakeup1 ch).initproc = s.initproc := rfl
@[simp] theorem wakeup1_nextpid : (s.wakeup1 ch).nextpid = s.nextpid := rfl
@[simp] theorem wakeup1_cpu : (s.wakeup1 ch).cpu = s.cpu := rfl

theorem wakeup1_field (g : Proc → α) (h : ∀ x st, g { x with state := st } = g x) :
    g ((s.wakeup1 ch).proc q) = g (s.proc q) := by
  rw [wakeup1_proc]
  split
  · rw [h]
  · rfl

theorem wakeup1_not_sleeping (hq : ((s.wakeup1 ch).proc q).state = .sleeping) :
    (s.proc q).state = .sleeping ∧ (s.proc q).chan ≠ ch := by
  rw [wakeup1_proc] at hq
  split_ifs at hq with h
  exact ⟨hq, fun hc => h ⟨hq, hc⟩⟩

theorem sleepOn_proc {ch : Chan} : (s.sleepOn c p ch th).proc q = if q = p then { s.proc p with
      chan := some ch, state := .sleeping, thread := th, ticks := int32 ((s.proc p).ticks + 1) } else s.proc q := by
  rw [sleepOn, backToScheduler_proc, modify_proc_self, modify_proc]
  split <;> rfl

/-! ### The slots that the loops find -/

theorem findPid_some {pid : Int} (h : s.findPid pid = some p) : (s.proc p).pid = pid := by
  simpa using List.find?_some h

theorem kill_proc (s : Ptable) (pid : Int) (q : Slot) : (s.kill pid).proc q = s.proc q ∨
    (s.proc q).pid = pid ∧ (s.kill pid).proc q =
      { s.proc q with killed := true, state := if (s.proc q).state = .sleeping then .runnable
      else (s.proc q).state } := by
  unfold kill
  split
  · exact .inl rfl
  · next p hp =>
    rw [modify_proc]
    split
    · next hqp =>
      subst hqp
      exact .inr ⟨findPid_some hp, rfl⟩
    · exact .inl rfl

theorem allocproc_some (h : s.allocproc = some (p, t)) : (s.proc p).state = .unused ∧
    t = { s.modify p fun x => { x with state := .embryo, pid := s.nextpid, thread := .forkret } with
      nextpid := int32 (s.nextpid + 1) } := by
  unfold allocproc at h
  split at h
  · cases h
  · next p' hp =>
    cases h
    exact ⟨by simpa using List.find?_some hp, rfl⟩

theorem current_some (h : s.current c th = some p) : s.cpu c = some p ∧ (s.proc p).thread = th := by
  simpa [current, filter_eq_some_iff] using h

/-! ### The children that exit passes to init -/

structure Passed (p : Slot) (l : List Slot) (s t : Ptable) : Prop where
  initproc : t.initproc = s.initproc
  nextpid : t.nextpid = s.nextpid
  cpu : t.cpu = s.cpu
  field : ∀ {α : Type} (g : Proc → α), (∀ x st o, g { x with state := st, parent := o } = g x) →
    ∀ q, g (t.proc q) = g (s.proc q)
  parent : ∀ q, (t.proc q).parent =
    if q ∈ l ∧ (s.proc q).parent = some p then s.initproc else (s.proc q).parent
  state : ∀ q, (t.proc q).state = (s.proc q).state ∨
    (s.proc q).state = .sleeping ∧ (t.proc q).state = .runnable
  woken : (∃ q ∈ l, (s.proc q).parent = some p ∧ (s.proc q).state = .zombie) →
    ∀ q, (t.proc q).state = .sleeping → (s.proc q).chan ≠ s.initproc.map .proc

theorem Passed.refl (p : Slot) (s : Ptable) : Passed p [] s s where
  initproc := rfl
  nextpid := rfl
  cpu := rfl
  field _ _ _ := rfl
  parent q := by simp
  state q := .inl rfl
  woken h := by simp at h

theorem Passed.state_wakeup1 {l : List Slot} (h : Passed p l (s.wakeup1 ch) t) (q : Slot) :
    (t.proc q).state = (s.proc q).state ∨ (s.proc q).state = .sleeping ∧ (t.proc q).state = .runnable := by
  have h1 : ((s.wakeup1 ch).proc q).state = (s.proc q).state ∨
      (s.proc q).state = .sleeping ∧ ((s.wakeup1 ch).proc q).state = .runnable := by
    rw [wakeup1_proc]
    split
    · next hq => exact .inr ⟨hq.1, rfl⟩
    · exact .inl rfl
  rcases h1 with h1 | ⟨h1, h1'⟩ <;> rcases h.state q with h3 | ⟨h3, h3'⟩
  · exact .inl (h3.trans h1)
  · exact .inr ⟨h1 ▸ h3, h3'⟩
  · exact .inr ⟨h1, h3.trans h1'⟩
  · exact .inr ⟨h1, h3'⟩

theorem passed_cons {l : List Slot} (hinit : s.initproc ≠ some p) (h : Passed p l (passChild p s q) t) :
    Passed p (q :: l) s t := by
  by_cases hpar : (s.proc q).parent = some p
  · -- The child `q` goes to init, which is woken if `q` is a ZOMBIE.
    let s1 := s.modify q fun x => { x with parent := s.initproc }
    have hz : (s1.proc q).state = (s.proc q).state := by simp [s1]
    have hs : passChild p s q =
        if (s.proc q).state = .zombie then s1.wakeup1 (s.initproc.map .proc) else s1 := by
      simp only [passChild, hpar, if_true]
      rw [show ((s.modify q fun x => { x with parent := s.initproc }).proc q).state = (s.proc q).state from hz]
      rfl
    have hp1 : ∀ r, ((passChild p s q).proc r).parent = if r = q then s.initproc else (s.proc r).parent := by
      intro r
      have : ((passChild p s q).proc r).parent = (s1.proc r).parent := by
        rw [hs]
        split
        · exact wakeup1_field (·.parent) fun _ _ => rfl
        · rfl
      rw [this, modify_proc]
      split <;> rfl
    have hst1 : ∀ r, ((passChild p s q).proc r).state = (s.proc r).state ∨
        (s.proc r).state = .sleeping ∧ ((passChild p s q).proc r).state = .runnable := by
      intro r
      have h1 : (s1.proc r).state = (s.proc r).state := modify_field (·.state) rfl
      rw [hs]
      split
      · rw [wakeup1_proc]
        split
        · next hr => exact .inr ⟨h1 ▸ hr.1, rfl⟩
        · exact .inl h1
      · exact .inl h1
    have hf1 : ∀ {α : Type} (g : Proc → α), (∀ x st o, g { x with state := st, parent := o } = g x) →
        ∀ r, g ((passChild p s q).proc r) = g (s.proc r) := by
      intro α g hg r
      have h1 : g (s1.proc r) = g (s.proc r) := modify_field g (hg _ _ _)
      rw [hs]
      split
      · rw [wakeup1_field g fun x st => hg x st x.parent, h1]
      · exact h1
    have hi1 : (passChild p s q).initproc = s.initproc := by rw [hs]; split <;> rfl
    exact {
      initproc := h.initproc.trans hi1
      nextpid := h.nextpid.trans (by rw [hs]; split <;> rfl)
      cpu := h.cpu.trans (by rw [hs]; split <;> rfl)
      field := fun g hg r => (h.field g hg r).trans (hf1 g hg r)
      parent := fun r => by
        rw [h.parent r, hp1 r, hi1]
        by_cases hrq : r = q
        · subst hrq
          simp [hinit, hpar]
        · simp [hrq]
      state := fun r => by
        rcases h.state r with h2 | ⟨h2, h3⟩ <;> rcases hst1 r with h1 | ⟨h1, h1'⟩
        · exact .inl (h2.trans h1)
        · exact .inr ⟨h1, h2.trans h1'⟩
        · exact .inr ⟨h1 ▸ h2, h3⟩
        · exact .inr ⟨h1, h3⟩
      woken := by
        rintro ⟨r, hr, hrp, hrz⟩ x hx
        -- A SLEEPING slot after the loop was SLEEPING after this turn.
        have hx1 : ((passChild p s q).proc x).state = .sleeping := by
          rcases h.state x with h2 | ⟨h2, -⟩
          · rw [← h2, hx]
          · exact h2
        rcases List.mem_cons.mp hr with rfl | hr
        · rw [hs, if_pos hrz] at hx1
          have := (wakeup1_not_sleeping hx1).2
          rwa [modify_field (·.chan) rfl] at this
        · by_cases hrq : r = q
          · subst hrq
            rw [hs, if_pos hrz] at hx1
            have := (wakeup1_not_sleeping hx1).2
            rwa [modify_field (·.chan) rfl] at this
          · have hrz1 : ((passChild p s q).proc r).state = .zombie := by
              rcases hst1 r with h1 | ⟨h1, -⟩
              · rw [h1, hrz]
              · simp [hrz] at h1
            have := h.woken ⟨r, hr, by rw [hp1, if_neg hrq, hrp], hrz1⟩ x hx
            rwa [hf1 (·.chan) (fun _ _ _ => rfl), hi1] at this }
  · have hs : passChild p s q = s := by simp [passChild, hpar]
    rw [hs] at h
    exact {
      initproc := h.initproc
      nextpid := h.nextpid
      cpu := h.cpu
      field := h.field
      parent := fun r => by
        rw [h.parent r]
        by_cases hrq : r = q
        · subst hrq
          simp [hpar]
        · simp [hrq]
      state := h.state
      woken := by
        rintro ⟨r, hr, hrp, hrz⟩ x hx
        rcases List.mem_cons.mp hr with rfl | hr
        · exact absurd hrp hpar
        · exact h.woken ⟨r, hr, hrp, hrz⟩ x hx }

theorem passed_foldl {l : List Slot} (hinit : s.initproc ≠ some p) : Passed p l s (l.foldl (passChild p) s) := by
  induction l generalizing s with
  | nil => exact Passed.refl p s
  | cons q l ih =>
    refine passed_cons hinit (ih ?_)
    have : (passChild p s q).initproc = s.initproc := by
      simp only [passChild]
      split
      · split <;> rfl
      · rfl
    rwa [this]

/-! ### What each step does -/

section Inversion
variable {e : Option Event}

theorem step_userinit_inv (h : s.step .userinit = some (t, e)) :
    s.initproc = none ∧ ∃ p u, s.allocproc = some (p, u) ∧ e = some (.alloc p s.nextpid) ∧
      t = { u.modify p fun x => { x with ticks := 0, tickets := 10, state := .runnable } with
        initproc := some p } := by
  simp only [step] at h
  split_ifs at h with hi
  cases ha : s.allocproc with
  | none => simp [ha] at h
  | some pu =>
    simp only [ha, bind_eq_bind, bind_some, some.injEq, Prod.mk.injEq] at h
    exact ⟨by simpa using hi, pu.1, pu.2, rfl, h.2.symm, h.1.symm⟩

theorem step_fork_inv (h : s.step (.fork c) = some (t, e)) :
    ∃ p, s.cpu c = some p ∧ (s.proc p).thread = .run ∧ (t = s ∧ e = none ∨
      ∃ np u, s.allocproc = some (np, u) ∧ e = some (.alloc np s.nextpid) ∧ t = u.setThread p (.forkStack np)) := by
  simp only [step, bind_eq_bind, bind_eq_some_iff] at h
  obtain ⟨p, hp, h⟩ := h
  obtain ⟨hc, hth⟩ := current_some hp
  refine ⟨p, hc, hth, ?_⟩
  cases ha : s.allocproc with
  | none =>
    simp only [ha, some.injEq, Prod.mk.injEq] at h
    exact .inl ⟨h.1.symm, h.2.symm⟩
  | some pu =>
    simp only [ha, some.injEq, Prod.mk.injEq] at h
    exact .inr ⟨pu.1, pu.2, rfl, h.2.symm, h.1.symm⟩

theorem fork_part_inv {ok : Bool} {x y : Ptable} (h : (if ok then some (x, none) else some (y, none)) = some (t, e)) :
    e = none ∧ (ok = true ∧ t = x ∨ ok = false ∧ t = y) := by
  cases ok
  all_goals
    cases h
    simp

theorem step_forkStack_inv {ok : Bool} (h : s.step (.forkStack c ok) = some (t, e)) :
    e = none ∧ ∃ p np, s.cpu c = some p ∧ (s.proc p).thread = .forkStack np ∧
      (ok = true ∧ t = s.setThread p (.forkCopy np) ∨ ok = false ∧ t = (s.setState np .unused).setThread p .run) := by
  simp only [step, bind_eq_bind, bind_eq_some_iff] at h
  obtain ⟨p, hp, h⟩ := h
  split at h
  · next np hth =>
    obtain ⟨he, h⟩ := fork_part_inv h
    exact ⟨he, p, np, hp, hth, h⟩
  · cases h

theorem step_forkCopy_inv {ok : Bool} (h : s.step (.forkCopy c ok) = some (t, e)) :
    e = none ∧ ∃ p np, s.cpu c = some p ∧ (s.proc p).thread = .forkCopy np ∧
      (ok = true ∧ t = (s.modify np fun x => { x with
            parent := some p, ticks := 0,
            tickets := if 10 < (s.proc p).tickets then (s.proc p).tickets else 10 }).setThread p (.forkReady np) ∨
        ok = false ∧ t = (s.setState np .unused).setThread p .run) := by
  simp only [step, bind_eq_bind, bind_eq_some_iff] at h
  obtain ⟨p, hp, h⟩ := h
  split at h
  · next np hth =>
    obtain ⟨he, h⟩ := fork_part_inv h
    exact ⟨he, p, np, hp, hth, h⟩
  · cases h

theorem step_forkRun_inv (h : s.step (.forkRun c) = some (t, e)) :
    e = none ∧ ∃ p np, s.cpu c = some p ∧ (s.proc p).thread = .forkReady np ∧
      t = (s.setState np .runnable).setThread p .run := by
  simp only [step, bind_eq_bind, bind_eq_some_iff] at h
  obtain ⟨p, hp, h⟩ := h
  split at h
  · next np hth =>
    simp only [some.injEq, Prod.mk.injEq] at h
    exact ⟨h.2.symm, p, np, hp, hth, h.1.symm⟩
  · cases h

theorem step_exit_inv (h : s.step (.exit c) = some (t, e)) :
    ∃ p, s.cpu c = some p ∧ (s.proc p).thread = .run ∧ s.initproc ≠ some p ∧ t = s.exitLocked c p ∧
      e = some (.exited p (s.proc p).pid) := by
  simp only [step, bind_eq_bind, bind_eq_some_iff] at h
  obtain ⟨p, hp, h⟩ := h
  obtain ⟨hc, hth⟩ := current_some hp
  split_ifs at h with hi
  simp only [some.injEq, Prod.mk.injEq] at h
  exact ⟨p, hc, hth, hi, h.1.symm, h.2.symm⟩

theorem step_wait_inv (h : s.step (.wait c) = some (t, e)) :
    ∃ p, s.cpu c = some p ∧ (s.proc p).thread = .run ∧ s.waitLoop c p = (t, e) := by
  simp only [step, bind_eq_bind, bind_eq_some_iff, some.injEq] at h
  obtain ⟨p, hp, h⟩ := h
  obtain ⟨hc, hth⟩ := current_some hp
  exact ⟨p, hc, hth, h⟩

theorem step_sleep_inv {a : Nat} (h : s.step (.sleep c a) = some (t, e)) :
    e = none ∧ ∃ p, s.cpu c = some p ∧ (s.proc p).thread = .run ∧ t = s.sleepOn c p (.addr a) .sleep := by
  simp only [step, bind_eq_bind, bind_eq_some_iff, some.injEq, Prod.mk.injEq] at h
  obtain ⟨p, hp, h1, h2⟩ := h
  obtain ⟨hc, hth⟩ := current_some hp
  exact ⟨h2.symm, p, hc, hth, h1.symm⟩

theorem step_wakeup_inv {a : Nat} (h : s.step (.wakeup a) = some (t, e)) :
    e = none ∧ t = s.wakeup1 (some (.addr a)) := by
  simp only [step, some.injEq, Prod.mk.injEq] at h
  exact ⟨h.2.symm, h.1.symm⟩

theorem step_kill_inv {pid : Int} (h : s.step (.kill pid) = some (t, e)) : e = none ∧ t = s.kill pid := by
  simp only [step, some.injEq, Prod.mk.injEq] at h
  exact ⟨h.2.symm, h.1.symm⟩

theorem step_yield_inv (h : s.step (.yield c) = some (t, e)) :
    e = none ∧ ∃ p, s.cpu c = some p ∧ t = (s.setState p .runnable).backToScheduler c p := by
  simp only [step, bind_eq_bind, bind_eq_some_iff, some.injEq, Prod.mk.injEq] at h
  obtain ⟨p, hp, h1, h2⟩ := h
  exact ⟨h2.symm, p, hp, h1.symm⟩

theorem step_settickets_inv {n : Int} (h : s.step (.settickets c n) = some (t, e)) :
    e = none ∧ (t = s ∨ ∃ p, 10 ≤ int32 n ∧ t = s.modify p fun x => { x with tickets := int32 n }) := by
  simp only [step, bind_eq_bind, bind_eq_some_iff] at h
  obtain ⟨p, -, h⟩ := h
  split at h
  · simp only [some.injEq, Prod.mk.injEq] at h
    exact ⟨h.2.symm, .inl h.1.symm⟩
  · next hn =>
    simp only [some.injEq, Prod.mk.injEq] at h
    refine ⟨h.2.symm, ?_⟩
    rw [← h.1, setTicket]
    split
    · exact .inl rfl
    · next q _ => exact .inr ⟨q, by omega, rfl⟩

theorem pickWinner_some {winner : Int} {l : List Slot} {n : Int} (h : s.pickWinner winner l n = some p) :
    (s.proc p).state = .runnable := by
  induction l generalizing n with
  | nil => cases h
  | cons q l ih =>
    simp only [pickWinner] at h
    split at h
    · exact ih h
    · next hq =>
      split at h
      · cases h
        simpa using hq
      · exact ih h

theorem schedulerPass_dispatch {r : Nat} (h : s.schedulerPass = .dispatch p r) :
    (s.proc p).state = .runnable ∧ 0 < s.totalTickets slots 0 := by
  simp only [schedulerPass] at h
  split_ifs at h with ht
  split at h
  · next q hq =>
    cases h
    exact ⟨pickWinner_some hq, by omega⟩
  · cases h

def dispatched (s : Ptable) (c : Cpu) (p : Slot) (r : Nat) : Ptable :=
  { (s.setCpu c (some p)).setState p .running with rseed := r }

theorem step_scheduler_inv (h : s.step (.scheduler c) = some (t, e)) : s.cpu c = none ∧ (t = s ∧ e = none ∨
      ∃ p r, (s.proc p).state = .runnable ∧ resume (s.dispatched c p r) c p = (t, e)) := by
  simp only [step] at h
  split_ifs at h with hc
  refine ⟨by simpa using hc, ?_⟩
  split at h
  · simp only [some.injEq, Prod.mk.injEq] at h
    exact .inl ⟨h.1.symm, h.2.symm⟩
  · next p r hp =>
    simp only [some.injEq] at h
    exact .inr ⟨p, r, (schedulerPass_dispatch hp).1, h⟩
  · cases h

end Inversion
end Ptable
end Xv6
