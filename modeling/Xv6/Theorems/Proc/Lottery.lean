import Xv6.Theorems.Proc.Trace

/-! The lottery of `scheduler`: what one pass does with the RUNNABLE processes, and when it dispatches. -/

namespace Xv6
open List Option
namespace Ptable

variable {s t : Ptable} {p q np : Slot} {c : Cpu} {e : Option Event}

/-! ### One pass -/

def drawn (s : Ptable) (p : Slot) : Int := if (s.proc p).state = .runnable then (s.proc p).tickets else 0

def runnableTickets (s : Ptable) : Int := (slots.map s.drawn).sum

theorem totalTickets_eq {l : List Slot} {n : Int} : s.totalTickets l (int32 n) = int32 (n + (l.map s.drawn).sum) := by
  induction l generalizing n with
  | nil => simp [totalTickets]
  | cons p l ih =>
    by_cases hp : (s.proc p).state = .runnable
    · have hadd : int32 (int32 n + (s.proc p).tickets) = int32 (n + (s.proc p).tickets) :=
        CInt.wrap_wrap_add 32 _ _
      simp only [totalTickets, hp, ne_eq, not_true_eq_false, if_false, hadd]
      rw [ih]
      simp [drawn, hp, add_assoc]
    · simp only [totalTickets, hp, ne_eq, not_false_eq_true, if_true]
      rw [ih]
      simp [drawn, hp]

theorem totalTickets_slots : s.totalTickets slots 0 = int32 s.runnableTickets := by
  have h := totalTickets_eq (s := s) (l := slots) (n := 0)
  rwa [zero_add, int32, CInt.wrap_zero] at h

/-- The second loop adds up the same sum, so it meets a winner below the total before the table ends. -/
theorem pickWinner_isSome {winner n : Int} {l : List Slot} (hn : n ≤ winner) (hw : winner < s.totalTickets l n) :
    ∃ p, s.pickWinner winner l n = some p := by
  induction l generalizing n with
  | nil =>
    simp only [totalTickets] at hw
    omega
  | cons p l ih =>
    by_cases hp : (s.proc p).state = .runnable
    · simp only [totalTickets, pickWinner, hp, ne_eq, not_true_eq_false, if_false] at hw ⊢
      split
      · exact ⟨p, rfl⟩
      · exact ih (by omega) hw
    · simp only [totalTickets, pickWinner, hp, ne_eq, not_false_eq_true, if_true] at hw ⊢
      exact ih hn hw

theorem schedulerPass_of_pos (h : 0 < s.totalTickets slots 0) :
    ∃ p, s.schedulerPass = .dispatch p (random s.rseed) ∧ (s.proc p).state = .runnable := by
  have h0 : 0 ≤ (random s.rseed : Int) % s.totalTickets slots 0 := Int.emod_nonneg _ (by omega)
  have h1 := Int.emod_lt_of_pos (random s.rseed : Int) h
  obtain ⟨p, hp⟩ := pickWinner_isSome h0 h1
  refine ⟨p, ?_, pickWinner_some hp⟩
  simp only [schedulerPass, if_neg (not_le.mpr h), hp]

def Dispatches (s : Ptable) : Prop := ∃ p r, s.schedulerPass = .dispatch p r ∧ (s.proc p).state = .runnable

theorem dispatches_iff : s.Dispatches ↔ 0 < s.runnableTickets % 2 ^ 32 ∧ s.runnableTickets % 2 ^ 32 < 2 ^ 31 := by
  have hpos : 0 < s.totalTickets slots 0 ↔
      0 < s.runnableTickets % 2 ^ 32 ∧ s.runnableTickets % 2 ^ 32 < 2 ^ 31 := by
    rw [totalTickets_slots, int32]
    exact CInt.wrap_pos_iff
  rw [← hpos]
  constructor
  · rintro ⟨p, r, hd, -⟩
    exact (schedulerPass_dispatch hd).2
  · intro h
    obtain ⟨p, hd, hp⟩ := schedulerPass_of_pos h
    exact ⟨p, _, hd, hp⟩

/-! ### The tickets of a run -/

/-- Every slot holds at most `m` tickets, and every process at least the 10 it starts with. -/
structure Tickets (m : Int) (s : Ptable) : Prop where
  high : ∀ p, (s.proc p).tickets ≤ m
  low : ∀ p, (s.proc p).state.Alive → 10 ≤ (s.proc p).tickets
  ready : ∀ p np, (s.proc p).thread = .forkReady np → 10 ≤ (s.proc np).tickets

/-- The tickets are as before, no process is born, no `fork` comes to its last section, and only a process that is
    alive can get a tick. -/
structure Steady (s t : Ptable) : Prop where
  tickets : ∀ p, (t.proc p).tickets = (s.proc p).tickets
  alive : ∀ p, (t.proc p).state.Alive → (s.proc p).state.Alive
  ready : ∀ p np, (t.proc p).thread = .forkReady np → (s.proc p).thread = .forkReady np
  ticks : ∀ p, ¬(s.proc p).state.Alive → (t.proc p).ticks = (s.proc p).ticks

namespace Steady

theorem refl (s : Ptable) : Steady s s := ⟨fun _ => rfl, fun _ h => h, fun _ _ h => h, fun _ _ => rfl⟩

theorem trans {u : Ptable} (h₁ : Steady s t) (h₂ : Steady t u) : Steady s u where
  tickets p := (h₂.tickets p).trans (h₁.tickets p)
  alive p hp := h₁.alive p (h₂.alive p hp)
  ready p np hp := h₁.ready p np (h₂.ready p np hp)
  ticks p hp := (h₂.ticks p fun ht => hp (h₁.alive p ht)).trans (h₁.ticks p hp)

theorem modify {f : Proc → Proc} (ht : (f (s.proc p)).tickets = (s.proc p).tickets)
    (ha : (f (s.proc p)).state.Alive → (s.proc p).state.Alive)
    (hr : ∀ np, (f (s.proc p)).thread = .forkReady np → (s.proc p).thread = .forkReady np)
    (hk : ¬(s.proc p).state.Alive → (f (s.proc p)).ticks = (s.proc p).ticks) : Steady s (s.modify p f) where
  tickets q := modify_field (·.tickets) ht
  alive q hq := by
    rw [modify_proc] at hq
    split at hq
    · next h =>
      subst h
      exact ha hq
    · exact hq
  ready q np hq := by
    rw [modify_proc] at hq
    split at hq
    · next h =>
      subst h
      exact hr np hq
    · exact hq
  ticks q hq := by
    rw [modify_proc]
    split
    · next h =>
      subst h
      exact hk hq
    · rfl

theorem of_proc (hp : t.proc = s.proc) : Steady s t := by
  constructor <;> simp [hp]

theorem setThread {th : Thread} (hth : ∀ np, th ≠ .forkReady np) : Steady s (s.setThread p th) :=
  modify rfl id (fun np h => absurd h (hth np)) fun _ => rfl

theorem setState {st : ProcState} (hst : st.Alive → (s.proc p).state.Alive) : Steady s (s.setState p st) :=
  modify rfl hst (fun _ => id) fun _ => rfl

theorem allocproc (h : s.allocproc = some (np, t)) : Steady s t := by
  obtain ⟨-, rfl⟩ := allocproc_some h
  have h1 : Steady s (s.modify np fun x => { x with state := .embryo, pid := s.nextpid, thread := .forkret }) :=
    modify rfl (by simp [ProcState.Alive]) (by simp) fun _ => rfl
  exact h1.trans (of_proc rfl)

theorem wakeup1 {ch : Option Chan} : Steady s (s.wakeup1 ch) where
  tickets p := wakeup1_field (·.tickets) fun _ _ => rfl
  alive p := (Quiet.wakeup1.alive_iff (p := p)).mp
  ready p np h := by rwa [wakeup1_field (·.thread) fun _ _ => rfl] at h
  ticks p _ := wakeup1_field (·.ticks) fun _ _ => rfl

theorem kill {pid : Int} : Steady s (s.kill pid) := by
  refine ⟨fun q => ?_, fun q => (Quiet.kill.alive_iff (p := q)).mp, fun q np hq => ?_, fun q _ => ?_⟩
  all_goals rcases kill_proc s pid q with h | ⟨-, h⟩
  all_goals first | rw [h] | rwa [h] at hq

theorem dispatched {r : Nat} (hp : (s.proc p).state = .runnable) : Steady s (s.dispatched c p r) := by
  have h1 : Steady s (s.setCpu c (some p)) := of_proc rfl
  have h2 : Steady s ((s.setCpu c (some p)).setState p .running) :=
    h1.trans (setState fun _ => .inr (.inl hp))
  exact h2.trans (of_proc rfl)

section

variable (hp : (s.proc p).state.Alive)
include hp

theorem backToScheduler : Steady s (s.backToScheduler c p) :=
  (of_proc rfl : Steady s (s.setCpu c none)).trans (modify rfl id (fun _ => id) fun h => absurd hp h)

theorem sleepOn {ch : Chan} {th : Thread} (hth : ∀ np, th ≠ .forkReady np) : Steady s (s.sleepOn c p ch th) := by
  have h1 : Steady s (s.modify p fun x => { x with chan := some ch, state := .sleeping, thread := th }) :=
    modify rfl (fun _ => hp) (fun np h => absurd h (hth np)) fun _ => rfl
  exact h1.trans (backToScheduler (by simp [ProcState.Alive]))

theorem exitLocked (hni : s.initproc ≠ some p) : Steady s (s.exitLocked c p) := by
  have h := exited_exitLocked (c := c) hni
  have hpass : Passed p slots (s.wakeup1 ((s.proc p).parent.map .proc)) (s.exitFamily p) := passed_foldl hni
  refine ⟨fun q => h.field (·.tickets) (fun _ _ _ _ => rfl) q, fun q hq => ?_, fun q np hq => ?_, fun q hq => ?_⟩
  · by_cases hqp : q = p
    · exact hqp ▸ hp
    · rcases h.state q hqp with h1 | ⟨h1, -⟩
      · rwa [h1] at hq
      · exact .inl h1
  · rwa [h.field (·.thread) fun _ _ _ _ => rfl] at hq
  · have hqp : q ≠ p := by
      rintro rfl
      exact hq hp
    rw [Ptable.exitLocked, backToScheduler_proc, if_neg hqp, setState_ticks, hpass.field (·.ticks) (fun _ _ _ => rfl),
      wakeup1_field (·.ticks) fun _ _ => rfl]

theorem waitLoop (h : s.waitLoop c p = (t, e)) : Steady s t := by
  rcases waitLoop_cases h with ⟨q, -, -, -, rfl⟩ | ⟨-, rfl | ⟨rfl, -⟩⟩
  · have h1 : Steady s (s.free q) := modify rfl (by simp [ProcState.Alive]) (fun _ => id) fun _ => rfl
    exact h1.trans (setThread (by simp))
  · exact setThread (by simp)
  · exact sleepOn hp (by simp)

theorem resume (h : resume s c p = (t, e)) : Steady s t := by
  unfold Ptable.resume at h
  split at h
  · cases h
    exact setThread (by simp)
  · cases h
    exact modify rfl id (by simp) fun _ => rfl
  · have hm : Steady s (s.modify p fun x => { x with chan := none }) := modify rfl id (fun _ => id) fun _ => rfl
    exact hm.trans (waitLoop (by simpa using hp) h)
  all_goals
    cases h
    exact refl s

end

end Steady

/-- The steps that give tickets or start a process. -/
inductive Grants (s : Ptable) : Op → Ptable → Prop
  | userinit {p : Slot} {u : Ptable} (hi : s.initproc = none) (ha : s.allocproc = some (p, u)) :
      Grants s .userinit { u.modify p fun x => { x with ticks := 0, tickets := 10, state := .runnable } with
        initproc := some p }
  | copy {c : Cpu} {p np : Slot} (hc : s.cpu c = some p) (hth : (s.proc p).thread = .forkCopy np) :
      Grants s (.forkCopy c true) ((s.modify np fun x => { x with
        parent := some p, ticks := 0,
        tickets := if 10 < (s.proc p).tickets then (s.proc p).tickets else 10 }).setThread p (.forkReady np))
  | born {c : Cpu} {p np : Slot} (hc : s.cpu c = some p) (hth : (s.proc p).thread = .forkReady np) :
      Grants s (.forkRun c) ((s.setState np .runnable).setThread p .run)
  | set {c : Cpu} {n : Int} {p q : Slot} (hc : s.cpu c = some p) (hth : (s.proc p).thread = .run) (hn : 10 ≤ int32 n)
      (hq : s.findPid (s.proc p).pid = some q) :
      Grants s (.settickets c n) (s.modify q fun x => { x with tickets := int32 n })

theorem step_grants (hinv : Inv s) (hs : s.step op = some (t, e)) : Steady s t ∨ Grants s op t := by
  cases op with
  | userinit =>
    obtain ⟨hi, p, u, ha, -, rfl⟩ := step_userinit_inv hs
    exact .inr (.userinit hi ha)
  | fork c =>
    obtain ⟨p, -, -, ⟨rfl, -⟩ | ⟨np, u, ha, -, rfl⟩⟩ := step_fork_inv hs
    · exact .inl (.refl _)
    · exact .inl ((Steady.allocproc ha).trans (.setThread (by simp)))
  | forkStack c ok =>
    obtain ⟨-, p, np, -, -, ⟨-, rfl⟩ | ⟨-, rfl⟩⟩ := step_forkStack_inv hs
    · exact .inl (.setThread (by simp))
    · exact .inl ((Steady.setState (by simp [ProcState.Alive])).trans (.setThread (by simp)))
  | forkCopy c ok =>
    obtain ⟨-, p, np, hc, hth, ⟨rfl, rfl⟩ | ⟨-, rfl⟩⟩ := step_forkCopy_inv hs
    · exact .inr (.copy hc hth)
    · exact .inl ((Steady.setState (by simp [ProcState.Alive])).trans (.setThread (by simp)))
  | forkRun c =>
    obtain ⟨-, p, np, hc, hth, rfl⟩ := step_forkRun_inv hs
    exact .inr (.born hc hth)
  | exit c =>
    obtain ⟨p, hc, -, hni, rfl, -⟩ := step_exit_inv hs
    exact .inl (.exitLocked (hinv.cpus.alive hc) hni)
  | wait c =>
    obtain ⟨p, hc, -, hw⟩ := step_wait_inv hs
    exact .inl (.waitLoop (hinv.cpus.alive hc) hw)
  | sleep c a =>
    obtain ⟨-, p, hc, -, rfl⟩ := step_sleep_inv hs
    exact .inl (.sleepOn (hinv.cpus.alive hc) (by simp))
  | wakeup a =>
    obtain ⟨-, rfl⟩ := step_wakeup_inv hs
    exact .inl (.wakeup1)
  | kill pid =>
    obtain ⟨-, rfl⟩ := step_kill_inv hs
    exact .inl (.kill)
  | yield c =>
    obtain ⟨-, p, hc, rfl⟩ := step_yield_inv hs
    exact .inl ((Steady.setState fun _ => hinv.cpus.alive hc).trans
      (.backToScheduler (by simp [setState_state, ProcState.Alive])))
  | settickets c n =>
    simp only [step, bind_eq_bind, bind_eq_some_iff] at hs
    obtain ⟨p, hp, hs⟩ := hs
    obtain ⟨hc, hth⟩ := current_some hp
    split at hs
    · cases hs
      exact .inl (.refl _)
    · next hn =>
      cases hs
      unfold setTicket
      split
      · exact .inl (.refl _)
      · next q hq => exact .inr (.set hc hth (by omega) hq)
  | scheduler c =>
    obtain ⟨-, ⟨rfl, -⟩ | ⟨p, r, hp, hr⟩⟩ := step_scheduler_inv hs
    · exact .inl (.refl _)
    · have hal : ((s.dispatched c p r).proc p).state.Alive := (Quiet.dispatched hp).alive p (.inr (.inl hp))
      exact .inl ((Steady.dispatched hp).trans (.resume hal hr))

variable {m : Int}

theorem Tickets.keep (h : Tickets m s) (hst : Steady s t) : Tickets m t where
  high p := hst.tickets p ▸ h.high p
  low p hp := hst.tickets p ▸ h.low p (hst.alive p hp)
  ready p np hp := hst.tickets np ▸ h.ready p np (hst.ready p np hp)

theorem Tickets.give (h : Tickets m s)
    (ht : ∀ q, (t.proc q).tickets = (s.proc q).tickets ∨ 10 ≤ (t.proc q).tickets ∧ (t.proc q).tickets ≤ m)
    (ha : ∀ q, (t.proc q).state.Alive → (s.proc q).state.Alive ∨ 10 ≤ (t.proc q).tickets)
    (hr : ∀ q np, (t.proc q).thread = .forkReady np →
      (s.proc q).thread = .forkReady np ∨ 10 ≤ (t.proc np).tickets) : Tickets m t where
  high q := by
    rcases ht q with h1 | ⟨-, h1⟩
    · exact h1 ▸ h.high q
    · exact h1
  low q hq := by
    rcases ha q hq with h1 | h1
    · rcases ht q with h2 | ⟨h2, -⟩
      · exact h2 ▸ h.low q h1
      · exact h2
    · exact h1
  ready q np hq := by
    rcases hr q np hq with h1 | h1
    · rcases ht np with h2 | ⟨h2, -⟩
      · exact h2 ▸ h.ready q np h1
      · exact h2
    · exact h1

def AsksAtMost (m : Int) : Op → Prop
  | .settickets _ n => int32 n ≤ m
  | _ => True

theorem Tickets.step (h : Tickets m s) (hinv : Inv s) (hm : 10 ≤ m) (hop : AsksAtMost m op)
    (hs : s.step op = some (t, e)) : Tickets m t := by
  rcases step_grants hinv hs with hst | hg
  · exact h.keep hst
  cases hg with
  | @userinit p u hi ha =>
    obtain ⟨-, rfl⟩ := allocproc_some ha
    refine h.give (fun q => ?_) (fun q hq => ?_) fun q np hq => ?_
    all_goals
      simp only [modify_proc, if_true] at *
      split at * <;> simp_all
  | @copy c p np hc hth =>
    -- The child gets its parent's tickets, but at least 10.
    have hgive : 10 ≤ (if 10 < (s.proc p).tickets then (s.proc p).tickets else 10) ∧
        (if 10 < (s.proc p).tickets then (s.proc p).tickets else 10) ≤ m := by
      have := h.high p
      split <;> omega
    refine h.give (fun q => ?_) (fun q hq => ?_) fun q r hq => ?_
    · rw [setThread_tickets, modify_proc]
      split
      · exact .inr hgive
      · exact .inl rfl
    · rw [setThread_state, modify_field (·.state) rfl] at hq
      exact .inl hq
    · rw [setThread_thread] at hq
      split at hq
      · cases hq
        rw [setThread_tickets, modify_proc_self]
        exact .inr hgive.1
      · rw [modify_field (·.thread) rfl] at hq
        exact .inl hq
  | @born c p np hc hth =>
    have htick : ∀ q, (((s.setState np .runnable).setThread p .run).proc q).tickets = (s.proc q).tickets := fun q => by
      rw [setThread_tickets, setState_tickets]
    refine h.give (fun q => .inl (htick q)) (fun q hq => ?_) fun q r hq => ?_
    · rw [setThread_state, setState_state] at hq
      split at hq
      · next hqn =>
        rw [htick, hqn]
        exact .inr (h.ready p np hth)
      · exact .inl hq
    · rw [setThread_thread] at hq
      split_ifs at hq
      rw [setState_thread] at hq
      exact .inl hq
  | set hc hth hn hq =>
    refine h.give (fun q => ?_) (fun q hq => .inl ?_) fun q r hq => .inl ?_
    · rw [modify_proc]
      split
      · exact .inr ⟨hn, hop⟩
      · exact .inl rfl
    · rwa [modify_field (·.state) rfl] at hq
    · rwa [modify_field (·.thread) rfl] at hq

theorem reach_tickets {w : Traced} (hm : 10 ≤ m)
    (h : machine.ReachWhere (fun _ op => AsksAtMost m op) w) : Inv w.table ∧ Tickets m w.table := by
  refine Machine.ReachWhere.invariant (I := fun w : Traced => Inv w.table ∧ Tickets m w.table) ?_ ?_ h
  · rintro w rfl
    exact ⟨Inv.boot, fun p => by simp; omega, fun p hp => by simp [ProcState.Alive] at hp, by simp⟩
  · rintro w op w' ⟨hinv, ht⟩ hop hstep
    obtain ⟨e, hs, -⟩ := Traced.step_inv hstep
    exact ⟨hinv.step hs, ht.step hinv hm hop hs⟩

/-! ### When a pass dispatches -/

theorem sum_drawn_le (h : Tickets m s) (hm : 0 ≤ m) (l : List Slot) :
    0 ≤ (l.map s.drawn).sum ∧ (l.map s.drawn).sum ≤ l.length * m := by
  induction l with
  | nil => simp
  | cons p l ih =>
    have hp : 0 ≤ s.drawn p ∧ s.drawn p ≤ m := by
      unfold drawn
      split
      · next hr => exact ⟨by have := h.low p (.inr (.inl hr)); omega, h.high p⟩
      · exact ⟨le_rfl, hm⟩
    simp only [map_cons, sum_cons, length_cons]
    push_cast
    rw [add_mul]
    omega

theorem runnableTickets_pos (h : Tickets m s) (hm : 0 ≤ m) (hp : (s.proc p).state = .runnable) :
    0 < s.runnableTickets := by
  obtain ⟨a, b, hab⟩ := append_of_mem (mem_slots p)
  have ha := (sum_drawn_le h hm a).1
  have hb := (sum_drawn_le h hm b).1
  have hdp : 10 ≤ s.drawn p := by
    rw [drawn, if_pos hp]
    exact h.low p (.inr (.inl hp))
  rw [runnableTickets, hab]
  simp only [map_append, sum_append, map_cons, sum_cons]
  omega

/-- The most tickets that 64 processes can hold each without a sum beyond an `int`. -/
def fairShare : Int := (2 ^ 31 - 1) / NPROC

theorem dispatches_of_tickets (h : Tickets fairShare s) (hp : (s.proc p).state = .runnable) : s.Dispatches := by
  have hm : (0 : Int) ≤ fairShare := by decide
  have hlt : s.runnableTickets < 2 ^ 31 := by
    have h1 := (sum_drawn_le h hm slots).2
    have h2 : ((slots.length : Nat) : Int) * fairShare < 2 ^ 31 := by
      simp only [slots, length_finRange]
      decide
    exact lt_of_le_of_lt h1 h2
  have hpos := runnableTickets_pos h hm hp
  rw [dispatches_iff]
  omega

/-- A pass over a reachable table with a RUNNABLE slot dispatches a RUNNABLE process exactly when the sum
    of the RUNNABLE slots' tickets, taken modulo 2^32, is positive and below 2^31; and so it always does
    in a run in which no `sys_settickets` asks for more than 2^31/NPROC tickets. -/
theorem scheduler_dispatches (w : Traced) (hw : ∃ p, (w.table.proc p).state = .runnable) :
    (machine.Reach w → (w.table.Dispatches ↔
      0 < w.table.runnableTickets % 2 ^ 32 ∧ w.table.runnableTickets % 2 ^ 32 < 2 ^ 31)) ∧
    (machine.ReachWhere (fun _ op => AsksAtMost fairShare op) w → w.table.Dispatches) := by
  obtain ⟨p, hp⟩ := hw
  refine ⟨fun _ => dispatches_iff, fun hr => ?_⟩
  exact dispatches_of_tickets (reach_tickets (by decide) hr).2 hp

def greedyRun : List Op :=
  [.userinit, .scheduler 0, .settickets 0 (2 ^ 31 - 1), .fork 0, .forkStack 0 true, .forkCopy 0 true, .forkRun 0,
    .yield 0]

/-- Init and its child are RUNNABLE, each with 2^31 - 1 tickets, and the pass finds nobody to run. -/
theorem greedyRun_idle : ∃ w, machine.Reach w ∧ (w.table.proc 0).state = .runnable ∧
    (w.table.proc 1).state = .runnable ∧ w.table.schedulerPass = .idle ∧ ¬w.table.Dispatches := by
  obtain ⟨w, hw, h0, h1, ht⟩ := Option.exists_of_any (o := ({} : Traced).run greedyRun)
      (p := fun w => (w.table.proc 0).state = .runnable ∧ (w.table.proc 1).state = .runnable ∧
        w.table.totalTickets slots 0 = -2) (by decide +kernel)
  have hidle : w.table.schedulerPass = .idle := by simp [schedulerPass, ht]
  refine ⟨w, reach_run hw, h0, h1, hidle, ?_⟩
  rintro ⟨p, r, hd, -⟩
  simp [hidle] at hd

def unequalRun : List Op :=
  [.userinit, .scheduler 0, .fork 0, .forkStack 0 true, .forkCopy 0 true, .forkRun 0, .settickets 0 50, .yield 0]

theorem scheduler_dispatches_unequalRun : ∃ w, ({} : Traced).run unequalRun = some w ∧
    (w.table.proc 0).tickets = 50 ∧ (w.table.proc 1).state = .runnable ∧ (w.table.proc 1).tickets = 10 ∧
    w.table.Dispatches ∧ 0 < w.table.runnableTickets % 2 ^ 32 := by
  obtain ⟨w, hw, h0, ht0, h1, ht1⟩ := Option.exists_of_any (o := ({} : Traced).run unequalRun)
      (p := fun w => (w.table.proc 0).state = .runnable ∧ (w.table.proc 0).tickets = 50 ∧
        (w.table.proc 1).state = .runnable ∧ (w.table.proc 1).tickets = 10) (by decide +kernel)
  have hasks : ∀ op ∈ unequalRun, AsksAtMost fairShare op := by
    simp only [unequalRun, forall_mem_cons, AsksAtMost, not_mem_nil, false_implies, implies_true]
    decide
  have hreach : machine.ReachWhere (fun _ op => AsksAtMost fairShare op) w :=
    .foldlM_mem (fun op hop _ _ hs => ⟨hasks op hop, hs⟩) (.init rfl) hw
  obtain ⟨hiff, hbounded⟩ := scheduler_dispatches w ⟨0, h0⟩
  exact ⟨w, hw, ht0, h1, ht1, hbounded hreach, ((hiff hreach.reach).mp (hbounded hreach)).1⟩

end Ptable
end Xv6
