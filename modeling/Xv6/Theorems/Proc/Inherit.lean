import Xv6.Theorems.Proc.Kill
import Xv6.Theorems.Proc.Lottery

/-! What `fork` hands to a child, which slots a pid names, and what `settickets` can change. Slots are reused
    without being cleared, and a failed `fork` leaves its pid behind. -/

namespace Xv6
open Option
namespace Ptable

variable {s t : Ptable} {p q np : Slot} {c : Cpu} {e : Option Event} {op : Op}

/-! ### What a step does to the pids -/

def PidKept (s t : Ptable) (q : Slot) : Prop := (t.proc q).pid = (s.proc q).pid ∨ (t.proc q).pid = 0

theorem Records.pid (h : Records s t e) (q : Slot) :
    PidKept s t q ∨ e = some (.alloc q s.nextpid) ∧ (t.proc q).pid = s.nextpid := by
  cases h with
  | none _ hr => exact .inl (.inl (hr q).2.2)
  | alloc p _ _ hpid _ hr =>
    by_cases hq : q = p
    · subst hq
      exact .inr ⟨rfl, hpid⟩
    · exact .inl (.inl (hr q hq).2.2)
  | exited p _ _ hpid _ hr =>
    by_cases hq : q = p
    · subst hq
      exact .inl (.inl hpid)
    · exact .inl (.inl (hr q hq).2.2)
  | waited _ p _ _ _ hpid _ hr =>
    by_cases hq : q = p
    · subst hq
      exact .inl (.inr hpid)
    · exact .inl (.inl (hr q hq).2.2)

/-- The pids of the slots, UNUSED ones included, are pids handed out, each to one slot, or 0. -/
structure Stamped (w : Traced) : Prop where
  handed : ∀ p, (w.table.proc p).pid = 0 ∨ ∃ j < allocs w.trace, (w.table.proc p).pid = nthPid j
  inj : ∀ p q, (w.table.proc p).pid ≠ 0 → (w.table.proc p).pid = (w.table.proc q).pid → p = q

theorem Stamped.step {w w' : Traced} (h : Stamped w) (hn : w.table.nextpid = nthPid (allocs w.trace))
    (hr : Records w.table w'.table e) (ht : w'.trace = w.trace ++ e.toList) (hb : allocs w'.trace ≤ 2 ^ 32) :
    Stamped w' := by
  have hal : allocs w'.trace = allocs w.trace + allocs e.toList := by rw [ht, allocs_append]
  -- A slot that keeps a pid other than 0 was handed it earlier; a new pid differs from all of these.
  have hcase : ∀ q, (w'.table.proc q).pid ≠ 0 →
      (w'.table.proc q).pid = (w.table.proc q).pid ∧ (∃ j < allocs w.trace, (w'.table.proc q).pid = nthPid j) ∨
        e = some (.alloc q (nthPid (allocs w.trace))) ∧ (w'.table.proc q).pid = nthPid (allocs w.trace) := by
    intro q hq
    rcases hr.pid q with (hk | hk) | ⟨he, hp⟩
    · refine .inl ⟨hk, ?_⟩
      rw [hk]
      exact (h.handed q).resolve_left (hk ▸ hq)
    · exact absurd hk hq
    · rw [hn] at he hp
      exact .inr ⟨he, hp⟩
  have hone : ∀ q x, e = some (.alloc q x) → allocs w'.trace = allocs w.trace + 1 := by
    rintro q x rfl
    rw [hal]
    rfl
  constructor
  · intro q
    by_cases hq : (w'.table.proc q).pid = 0
    · exact .inl hq
    · rcases hcase q hq with ⟨-, j, hj, hpj⟩ | ⟨he, hp⟩
      · exact .inr ⟨j, by omega, hpj⟩
      · exact .inr ⟨_, by rw [hone q _ he]; omega, hp⟩
  · intro p q hp hpq
    have hq : (w'.table.proc q).pid ≠ 0 := hpq ▸ hp
    rcases hcase p hp with ⟨hkp, j, hj, hpj⟩ | ⟨hep, hpp⟩ <;> rcases hcase q hq with ⟨hkq, i, hi, hqi⟩ | ⟨heq, hqq⟩
    · exact h.inj p q (hkp ▸ hp) (by rw [← hkp, ← hkq, hpq])
    · have hb' := hone q _ heq
      exact absurd (hpj.symm.trans (hpq.trans hqq)) (nthPid_inj (by omega) hj)
    · have hb' := hone p _ hep
      exact absurd (hqi.symm.trans (hpq.symm.trans hpp)) (nthPid_inj (by omega) hi)
    · rw [hep] at heq
      cases heq
      rfl

/-! ### The invariant of a run -/

/-- A ZOMBIE has at least 10 tickets, and the slot of a `fork` in its last section has no tick. -/
structure Accounts (s : Ptable) : Prop where
  zombie : ∀ p, (s.proc p).state = .zombie → 10 ≤ (s.proc p).tickets
  ticks : ∀ p np, (s.proc p).thread = .forkReady np → (s.proc np).ticks = 0

/-- The slot of a `fork` in its last section has its parent's tickets. -/
def Inherits (s : Ptable) : Prop := ∀ p np, (s.proc p).thread = .forkReady np → (s.proc np).tickets = (s.proc p).tickets

theorem Records.zombie (h : Records s t e) (hz : (t.proc q).state = .zombie) :
    (s.proc q).state = .zombie ∨ (s.proc q).state = .running := by
  cases h with
  | none _ hr => exact .inl ((hr q).1.mp hz)
  | alloc p _ ht _ _ hr =>
    by_cases hq : q = p
    · exact absurd (hq ▸ hz) ht
    · exact .inl ((hr q hq).1.mp hz)
  | exited p hs _ _ _ hr =>
    by_cases hq : q = p
    · exact .inr (hq ▸ hs)
    · exact .inl ((hr q hq).1.mp hz)
  | waited r p _ _ ht _ _ hr =>
    by_cases hq : q = p
    · rw [hq, ht] at hz
      cases hz
    · exact .inl ((hr q hq).1.mp hz)

theorem Grants.tickets (h : Grants s op t) (q : Slot) :
    (t.proc q).tickets = (s.proc q).tickets ∨ 10 ≤ (t.proc q).tickets := by
  cases h with
  | userinit hi ha =>
    obtain ⟨-, rfl⟩ := allocproc_some ha
    simp only [modify_proc, if_true]
    split
    · exact .inr le_rfl
    · exact .inl rfl
  | copy hc hth =>
    rw [setThread_tickets, modify_proc]
    split
    · refine .inr ?_
      dsimp only
      split <;> omega
    · exact .inl rfl
  | born hc hth =>
    rw [setThread_tickets, setState_tickets]
    exact .inl rfl
  | set hc hth hn hq =>
    rw [modify_proc]
    split
    · exact .inr hn
    · exact .inl rfl

theorem Grants.ready (h : Grants s op t) (hinv : Inv s) {p np : Slot} (hr : (t.proc p).thread = .forkReady np) :
    (s.proc p).thread = .forkReady np ∧ (t.proc np).ticks = (s.proc np).ticks ∨
      (s.proc p).thread = .forkCopy np ∧ (t.proc np).ticks = 0 ∧ (s.proc p).state = .running ∧
        (t.proc p).tickets = (s.proc p).tickets ∧
        (t.proc np).tickets = if 10 < (s.proc p).tickets then (s.proc p).tickets else 10 := by
  cases h with
  | @userinit p' u hi ha =>
    -- At boot nobody is in `fork`.
    obtain ⟨-, rfl⟩ := allocproc_some ha
    simp only [modify_proc, if_true] at hr
    split_ifs at hr
    have hal := (hinv.tree.forker p np true (by rw [hr]; rfl)).1
    simp [hinv.tree.boot hi p, ProcState.Alive] at hal
  | @copy c p' np' hc hth =>
    have hfork := hinv.tree.forker p' np' false (by rw [hth]; rfl)
    rw [setThread_thread] at hr
    rw [setThread_ticks, modify_proc]
    split at hr
    · next hp =>
      cases hr
      subst hp
      refine .inr ⟨hth, by simp, hinv.cpus.running c p hc, ?_, ?_⟩
      · rw [setThread_tickets, modify_proc_of_ne]
        rintro rfl
        simp [hfork.2.1, ProcState.Alive] at hfork
      · rw [setThread_tickets, modify_proc_self]
    · next hp =>
      rw [modify_field (·.thread) rfl] at hr
      refine .inl ⟨hr, ?_⟩
      rw [if_neg]
      rintro rfl
      exact hp (hinv.tree.unique p p' np true false (by rw [hr]; rfl) (by rw [hth]; rfl))
  | born hc hth =>
    rw [setThread_thread] at hr
    split_ifs at hr
    rw [setState_thread] at hr
    rw [setThread_ticks, setState_ticks]
    exact .inl ⟨hr, rfl⟩
  | set hc hth hn hq =>
    rw [modify_field (·.thread) rfl] at hr
    exact .inl ⟨hr, modify_field (·.ticks) rfl⟩

theorem Accounts.step (h : Accounts s) (hinv : Inv s) (hlow : ∀ p, (s.proc p).state.Alive → 10 ≤ (s.proc p).tickets)
    (hs : s.step op = some (t, e)) : Accounts t := by
  have hz : ∀ q, (t.proc q).state = .zombie → 10 ≤ (s.proc q).tickets := by
    intro q hq
    rcases (records_step hinv hs).zombie hq with h1 | h1
    · exact h.zombie q h1
    · exact hlow q (.inr (.inr h1))
  rcases step_grants hinv hs with hst | hg
  · refine ⟨fun q hq => hst.tickets q ▸ hz q hq, fun p np hr => ?_⟩
    have hr' := hst.ready p np hr
    have hemb := (hinv.tree.forker p np true (by rw [hr']; rfl)).2.1
    rw [hst.ticks np (by simp [hemb, ProcState.Alive])]
    exact h.ticks p np hr'
  · refine ⟨fun q hq => ?_, fun p np hr => ?_⟩
    · rcases hg.tickets q with h1 | h1
      · exact h1 ▸ hz q hq
      · exact h1
    · rcases hg.ready hinv hr with ⟨hr', h0⟩ | ⟨-, h0, -⟩
      · exact h0.trans (h.ticks p np hr')
      · exact h0

theorem findPid_self (hpid : (s.proc p).pid ≠ 0)
    (hinj : ∀ p q, (s.proc p).pid ≠ 0 → (s.proc p).pid = (s.proc q).pid → p = q)
    (h : s.findPid (s.proc p).pid = some q) : q = p :=
  (hinj p q hpid (findPid_some h).symm).symm

theorem Inherits.step (h : Inherits s) (hinv : Inv s) (hlow : ∀ p, (s.proc p).state.Alive → 10 ≤ (s.proc p).tickets)
    (hpid : ∀ p, (s.proc p).state = .running → (s.proc p).pid ≠ 0)
    (hinj : ∀ p q, (s.proc p).pid ≠ 0 → (s.proc p).pid = (s.proc q).pid → p = q)
    (hs : s.step op = some (t, e)) : Inherits t := by
  intro p np hr
  rcases step_grants hinv hs with hst | hg
  · rw [hst.tickets, hst.tickets]
    exact h p np (hst.ready p np hr)
  · rcases hg.ready hinv hr with ⟨hr', -⟩ | ⟨-, -, hrun, hp, hnp⟩
    · -- Neither the slot nor its parent is given tickets now.
      have hfork := hinv.tree.forker p np true (by rw [hr']; rfl)
      have hsame : ∀ q, q = p ∨ q = np → (t.proc q).tickets = (s.proc q).tickets := by
        intro q hq
        cases hg with
        | userinit hi ha =>
          have := hinv.tree.boot hi np
          simp [this] at hfork
        | @copy c p' np' hc hth =>
          have hne : np ≠ np' := by
            rintro rfl
            have hpp := hinv.tree.unique p p' np true false (by rw [hr']; rfl) (by rw [hth]; rfl)
            rw [← hpp, hr'] at hth
            cases hth
          rw [setThread_tickets, modify_proc_of_ne]
          rcases hq with rfl | rfl
          · rintro rfl
            have := (hinv.tree.forker p' q false (by rw [hth]; rfl)).2.1
            simp [this, ProcState.Alive] at hfork
          · exact hne
        | born hc hth =>
          rw [setThread_tickets, setState_tickets]
        | @set c n p' q' hc hth hn hfind =>
          have hq' := findPid_self (hpid p' (hinv.cpus.running c p' hc)) hinj hfind
          rw [modify_proc_of_ne]
          rcases hq with rfl | rfl
          · rintro rfl
            rw [hq', hth] at hr'
            cases hr'
          · rintro rfl
            rw [hq', hinv.cpus.running c p' hc] at hfork
            simp at hfork
      rw [hsame np (.inr rfl), hsame p (.inl rfl)]
      exact h p np hr'
    · rw [hp, hnp]
      have := hlow p (.inr (.inr hrun))
      split <;> omega

structure Books (w : Traced) : Prop where
  tickets : Tickets (2 ^ 31 - 1) w.table
  accounts : Accounts w.table
  stamped : allocs w.trace < 2 ^ 31 - 1 → Stamped w
  inherits : allocs w.trace < 2 ^ 31 - 1 → Inherits w.table

theorem Pids.ne_zero {w : Traced} (h : Pids w) (hb : allocs w.trace < 2 ^ 31 - 1)
    (hp : (w.table.proc p).state = .running) : (w.table.proc p).pid ≠ 0 := by
  obtain ⟨j, hj, hpj⟩ := h.used p (by simp [hp])
  rw [hpj, nthPid, int32, CInt.wrap_of_range (by omega) (by omega)]
  omega

theorem asksAtMost_int (op : Op) : AsksAtMost (2 ^ 31 - 1) op := by
  cases op with
  | settickets c n =>
    have := Int.bmod_lt (x := n) (m := 2 ^ 32) (by norm_num)
    simp only [AsksAtMost, int32, CInt.wrap]
    omega
  | _ => trivial

theorem reach_books {w : Traced} (h : machine.Reach w) : Books w := by
  refine (Machine.Reach.invariant (I := fun w => machine.Reach w ∧ Books w) ?_ ?_ h).2
  · rintro w rfl
    refine ⟨.init rfl, ⟨?_, ⟨by simp, by simp⟩, fun _ => ⟨by simp, by simp⟩, fun _ => by simp [Inherits]⟩⟩
    exact ⟨by simp, by simp [ProcState.Alive], by simp⟩
  · rintro w op w' ⟨hreach, hb⟩ hstep
    obtain ⟨e, hs, ht⟩ := Traced.step_inv hstep
    obtain ⟨hinv, -, hpids⟩ := reach_inv hreach
    have hle : allocs w.trace ≤ allocs w'.trace := by
      rw [ht, allocs_append]
      omega
    refine ⟨hreach.step hstep, hb.tickets.step hinv (by omega) (asksAtMost_int op) hs,
      hb.accounts.step hinv hb.tickets.low hs, fun hlt => ?_, fun hlt => ?_⟩
    · exact (hb.stamped (by omega)).step (hpids (by omega)).next (records_step hinv hs) ht (by omega)
    · exact (hb.inherits (by omega)).step hinv hb.tickets.low (fun p => (hpids (by omega)).ne_zero (by omega))
        (hb.stamped (by omega)).inj hs

/-- A process that is SLEEPING, RUNNABLE, RUNNING or a ZOMBIE has at least 10 tickets, and a process starts without
    ticks. While fewer than 2^31 - 1 pids have been handed out, it also starts with its parent's tickets, no two slots
    have the same pid other than 0, and `settickets` changes no other slot's tickets than its caller's. -/
theorem tickets_inherited {w : Traced} (h : machine.Reach w) :
    (∀ p, (w.table.proc p).state.Alive ∨ (w.table.proc p).state = .zombie → 10 ≤ (w.table.proc p).tickets) ∧
    (∀ op w' np, w.step op = some w' → (w.table.proc np).state = .embryo → (w'.table.proc np).state.Alive →
      (w'.table.proc np).state = .runnable ∧ (w'.table.proc np).ticks = 0 ∧ ∃ p, (w'.table.proc np).parent = some p ∧
        (allocs w.trace < 2 ^ 31 - 1 → (w'.table.proc np).tickets = (w'.table.proc p).tickets)) ∧
    (allocs w.trace < 2 ^ 31 - 1 →
    (∀ p q, (w.table.proc p).pid ≠ 0 → (w.table.proc p).pid = (w.table.proc q).pid → p = q) ∧
      ∀ c p n w', w.table.cpu c = some p → w.step (.settickets c n) = some w' →
        (w'.table.proc p).tickets = (if int32 n < 10 then (w.table.proc p).tickets else int32 n) ∧
        ∀ q, q ≠ p → (w'.table.proc q).tickets = (w.table.proc q).tickets) := by
  obtain ⟨hinv, -, hpids⟩ := reach_inv h
  have hbooks := reach_books h
  refine ⟨fun p hp => hp.elim (hbooks.tickets.low p) (hbooks.accounts.zombie p),
    fun op w' np hstep hemb hal => ?_, fun hb => ?_⟩
  · obtain ⟨e, hs, -⟩ := Traced.step_inv hstep
    have hdead : ¬(w.table.proc np).state.Alive := by simp [hemb, ProcState.Alive]
    rcases step_grants hinv hs with hst | hg
    · exact absurd (hst.alive np hal) hdead
    generalize w'.table = t at hg hal ⊢
    cases hg with
    | userinit hi ha =>
      have := hinv.tree.boot hi np
      simp [this] at hemb
    | copy hc hth =>
      rw [setThread_state, modify_field (·.state) rfl] at hal
      exact absurd hal hdead
    | @born c p np' hc hth =>
      rw [setThread_state, setState_state] at hal ⊢
      split at hal
      · next hnp =>
        subst hnp
        have hfork := hinv.tree.forker p np true (by rw [hth]; rfl)
        refine ⟨by simp, ?_, p, ?_, fun hb => ?_⟩
        · rw [setThread_ticks, setState_ticks]
          exact hbooks.accounts.ticks p np hth
        · rw [setThread_field (·.parent) fun _ _ => rfl, setState_field (·.parent) fun _ _ => rfl]
          simpa using hfork.2.2
        · simp only [setThread_tickets, setState_tickets]
          exact hbooks.inherits hb p np hth
      · exact absurd hal hdead
    | set hc hth hn hq =>
      rw [modify_field (·.state) rfl] at hal
      exact absurd hal hdead
  · have hst := hbooks.stamped hb
    refine ⟨hst.inj, fun c p n w' hc hstep => ?_⟩
    obtain ⟨e, hs, -⟩ := Traced.step_inv hstep
    have hp0 := (hpids (by omega)).ne_zero hb (hinv.cpus.running c p hc)
    simp only [step, bind_eq_bind, bind_eq_some_iff] at hs
    obtain ⟨p', hp', hs⟩ := hs
    cases hc.symm.trans (current_some hp').1
    split at hs
    · next hn =>
      obtain ⟨h1, -⟩ := Prod.mk.inj (Option.some.inj hs)
      exact ⟨by rw [← h1, if_pos hn], fun q _ => by rw [← h1]⟩
    · next hn =>
      obtain ⟨h1, -⟩ := Prod.mk.inj (Option.some.inj hs)
      have hfind : w.table.findPid (w.table.proc p).pid = some p := by
        cases hf : w.table.findPid (w.table.proc p).pid with
        | none => simpa using List.find?_eq_none.mp hf p (mem_slots p)
        | some q => rw [findPid_self hp0 hst.inj hf]
      rw [← h1, if_neg hn, setTicket, hfind]
      exact ⟨by simp, fun q hq => by rw [modify_proc_of_ne hq]⟩

def forkWith25 : List Op :=
  [.userinit, .scheduler 0, .settickets 0 25, .fork 0, .forkStack 0 true, .forkCopy 0 true]

theorem tickets_inherited_forkWith25 : ∃ w w', ({} : Traced).run forkWith25 = some w ∧
    w.step (.forkRun 0) = some w' ∧ (w'.table.proc 1).state = .runnable ∧ (w'.table.proc 1).tickets = 25 ∧
    (w'.table.proc 1).ticks = 0 := by
  have hrun : ((({} : Traced).run forkWith25).bind fun w => (w.step (.forkRun 0)).map fun w' => decide
      ((w.table.proc 1).state = .embryo ∧ allocs w.trace = 2 ∧ (w'.table.proc 1).state = .runnable ∧
        (w'.table.proc 1).parent = some 0 ∧ (w'.table.proc 0).tickets = 25)) = some true := by decide +kernel
  obtain ⟨w, hw, h⟩ := bind_eq_some_iff.mp hrun
  obtain ⟨w', hw', h⟩ := map_eq_some_iff.mp h
  obtain ⟨hemb, hall, hst, hpar, htick⟩ := of_decide_eq_true h
  obtain ⟨-, hborn, -⟩ := tickets_inherited (reach_run hw)
  obtain ⟨-, h0, p, hp, hin⟩ := hborn (.forkRun 0) w' 1 hw' hemb (.inr (.inl hst))
  cases hpar.symm.trans hp
  exact ⟨w, w', hw, hw', hst, by rw [hin (by omega), htick], h0⟩

/-! ### After the pids have wrapped around -/

/-- Init, with 10 tickets, after forks of it have failed, the last with the pid that slot 1 still has. -/
def failedForks (rseed : Nat) (nextpid pid : Int) (thread : Thread) : Ptable where
  proc p := if p = 0 then { state := .running, pid := 1, tickets := 10 } else if p = 1 then { pid, thread } else {}
  initproc := some 0
  nextpid
  rseed
  cpu c := if c = 0 then some 0 else none

def after (s : Ptable) (ops : List Op) : Option Ptable := ops.foldlM (fun (t : Ptable) op => (t.step op).map (·.1)) s

theorem reach_after {w : Traced} (hw : machine.Reach w) {ops : List Op} (h : w.table.after ops = some t) :
    ∃ w', machine.Reach w' ∧ w'.table = t := by
  unfold after at h
  induction ops generalizing w with
  | nil =>
    cases h
    exact ⟨w, hw, rfl⟩
  | cons op ops ih =>
    rw [List.foldlM_cons, bind_eq_bind, bind_eq_some_iff] at h
    obtain ⟨u, hu, h⟩ := h
    obtain ⟨⟨u', e⟩, hstep, rfl⟩ := map_eq_some_iff.mp hu
    exact ih (w := ⟨u', w.trace ++ e.toList⟩) (hw.step (a := op) (by simp [machine, Traced.step, hstep])) h

theorem fork_fails {u : Ptable} (hc : s.cpu c = some p) (hth : (s.proc p).thread = .run)
    (ha : s.allocproc = some (np, u)) : s.after [.fork c, .forkStack c false] =
      some (((u.setThread p (.forkStack np)).setState np .unused).setThread p .run) := by
  have hcur : s.current c .run = some p := by simp [current, hc, hth]
  have hu : u.cpu = s.cpu := by rw [(allocproc_some ha).2]; rfl
  have hthread : ((u.setThread p (.forkStack np)).proc p).thread = .forkStack np := by rw [setThread_thread, if_pos rfl]
  simp [after, step, hcur, ha, hu, hc, hthread]

theorem failedForks_fork (r : Nat) (k x : Int) (th : Thread) :
    (failedForks r k x th).after [.fork 0, .forkStack 0 false] = some (failedForks r (int32 (k + 1)) k .forkret) := by
  have hfind : slots.find? (fun p => ((failedForks r k x th).proc p).state = .unused) = some 1 := by
    have hfun : (fun p => decide (((failedForks r k x th).proc p).state = .unused)) = fun p : Slot =>
      decide (p ≠ 0) := by
      funext p
      simp only [failedForks]
      split
      · next h => simp [h]
      · next h => split <;> simp [h]
    rw [hfun]
    decide
  obtain ⟨u, hu⟩ : ∃ u, (failedForks r k x th).allocproc = some (1, u) := by
    unfold allocproc
    rw [hfind]
    exact ⟨_, rfl⟩
  rw [fork_fails (p := 0) (by simp [failedForks]) (by simp [failedForks]) hu]
  obtain ⟨-, rfl⟩ := allocproc_some hu
  refine congrArg some (Ptable.ext (funext fun p => ?_) rfl rfl rfl rfl)
  simp only [setThread, setState, modify_proc, failedForks]
  by_cases h0 : p = 0
  · subst h0
    rfl
  · by_cases h1 : p = 1
    · subst h1
      rfl
    · simp only [h0, h1, if_false]

theorem reach_failedForks (n : Nat) : ∃ w nextpid pid, machine.Reach w ∧ nextpid = int32 (n + 3) ∧ pid = int32 (n + 2) ∧
    w.table = failedForks (random 1898888478) nextpid pid .forkret := by
  induction n with
  | zero =>
    obtain ⟨w, hw, hproc, hinit, hnext, hseed, hcpu⟩ := Option.exists_of_any
        (o := ({} : Traced).run [.userinit, .scheduler 0, .fork 0, .forkStack 0 false])
        (p := fun w => (∀ p, w.table.proc p = (failedForks 0 3 2 .forkret).proc p) ∧ w.table.initproc = some 0 ∧
          w.table.nextpid = 3 ∧ w.table.rseed = random 1898888478 ∧
          ∀ c, w.table.cpu c = if c = 0 then some 0 else none) (by decide +kernel)
    exact ⟨w, 3, 2, reach_run hw, by decide, by decide, Ptable.ext (funext hproc) hinit hnext hseed (funext hcpu)⟩
  | succ n ih =>
    obtain ⟨w, k, x, hw, hk, -, ht⟩ := ih
    obtain ⟨w', hw', ht'⟩ := reach_after hw (ht ▸ failedForks_fork _ k x _)
    refine ⟨w', int32 (k + 1), k, hw', ?_, ?_, ht'⟩
    · rw [hk, int32, int32, CInt.wrap_wrap_add, int32]
      congr 1
    · rw [hk]
      congr 1

def askMeanwhile : List Op :=
  forkCall 0 ++ [.scheduler 1, .fork 0, .forkStack 0 true, .forkCopy 0 true, .settickets 1 20]

/-- After 2^32 - 1 failed forks init's child gets its own pid 1. While init is between copying its 10 tickets to a
    second child and making that child RUNNABLE, the first child asks for 20 tickets, and `settickets` gives
    them to init. -/
theorem pid_reused_tickets_differ : ∃ w w', machine.Reach w ∧ w.step (.forkRun 0) = some w' ∧
    (w.table.proc 2).state = .embryo ∧ (w'.table.proc 2).state = .runnable ∧ (w'.table.proc 2).parent = some 0 ∧
    (w'.table.proc 2).tickets = 10 ∧ (w'.table.proc 0).tickets = 20 := by
  obtain ⟨w, k, x, hw, hk, hx, ht⟩ := reach_failedForks (2 ^ 32 - 2)
  have hk1 : k = 1 := hk.trans (by decide +kernel)
  have hx0 : x = 0 := hx.trans (by decide +kernel)
  subst hk1 hx0
  have hrun : ((failedForks (random 1898888478) 1 0 .forkret).after askMeanwhile).bind (fun t =>
      (t.step (.forkRun 0)).map fun x => decide ((t.proc 2).state = .embryo ∧ (x.1.proc 2).state = .runnable ∧
        (x.1.proc 2).parent = some 0 ∧ (x.1.proc 2).tickets = 10 ∧ (x.1.proc 0).tickets = 20)) = some true := by
    decide +kernel
  obtain ⟨t, hops, h⟩ := bind_eq_some_iff.mp hrun
  obtain ⟨⟨t', e⟩, hstep, h⟩ := map_eq_some_iff.mp h
  obtain ⟨w1, hw1, rfl⟩ := reach_after hw (ht ▸ hops)
  exact ⟨w1, ⟨t', w1.trace ++ e.toList⟩, hw1, by simp [Traced.step, hstep], of_decide_eq_true h⟩

end Ptable
end Xv6
