import Xv6.Theorems.Proc.Trace

/-! What `kill` does to slots that hold no process, and the `killed` field with which a new process starts. -/

namespace Xv6
open Option

def ProcState.Vacant (st : ProcState) : Prop := st = .unused ∨ st = .embryo

namespace Ptable

variable {s t u : Ptable} {p q np : Slot} {c : Cpu} {e : Option Event}

def SameVacant (s t : Ptable) : Prop :=
  ∀ q, (t.proc q).state.Vacant →
    (t.proc q).state = .unused ∧ (t.proc q).pid = 0 ∧ (t.proc q).killed = false ∨
      (t.proc q).state = (s.proc q).state ∧ (t.proc q).pid = (s.proc q).pid ∧ (t.proc q).killed = (s.proc q).killed

namespace SameVacant

theorem refl (s : Ptable) : SameVacant s s := fun _ _ => .inr ⟨rfl, rfl, rfl⟩

theorem trans (h₁ : SameVacant s t) (h₂ : SameVacant t u) : SameVacant s u := by
  intro q hq
  rcases h₂ q hq with h | ⟨hst, hpid, hk⟩
  · exact .inl h
  · rcases h₁ q (hst ▸ hq) with ⟨h1, h2, h3⟩ | ⟨h1, h2, h3⟩
    · exact .inl ⟨hst.trans h1, hpid.trans h2, hk.trans h3⟩
    · exact .inr ⟨hst.trans h1, hpid.trans h2, hk.trans h3⟩

theorem of_proc (h : t.proc = s.proc) : SameVacant s t := fun q _ => by simp [h]

theorem modify {f : Proc → Proc} (h : (f (s.proc p)).state.Vacant →
      (f (s.proc p)).state = .unused ∧ (f (s.proc p)).pid = 0 ∧ (f (s.proc p)).killed = false ∨
        (f (s.proc p)).state = (s.proc p).state ∧ (f (s.proc p)).pid = (s.proc p).pid ∧
          (f (s.proc p)).killed = (s.proc p).killed) : SameVacant s (s.modify p f) := by
  intro q hq
  rw [modify_proc] at hq ⊢
  split
  · next hqp =>
    subst hqp
    exact h (by simpa using hq)
  · exact .inr ⟨rfl, rfl, rfl⟩

theorem setThread {th : Thread} : SameVacant s (s.setThread p th) := modify fun _ => .inr ⟨rfl, rfl, rfl⟩

theorem setState {st : ProcState} (h : ¬st.Vacant) : SameVacant s (s.setState p st) := modify fun hst => absurd hst h

theorem backToScheduler : SameVacant s (s.backToScheduler c p) :=
  (of_proc rfl : SameVacant s (s.setCpu c none)).trans (modify fun _ => .inr ⟨rfl, rfl, rfl⟩)

theorem wakeup1 {ch : Option Chan} : SameVacant s (s.wakeup1 ch) := by
  intro q hq
  rw [wakeup1_proc] at hq ⊢
  split
  · next h => simp [h, ProcState.Vacant] at hq
  · exact .inr ⟨rfl, rfl, rfl⟩

theorem sleepOn {ch : Chan} {th : Thread} : SameVacant s (s.sleepOn c p ch th) :=
  (modify fun h => by simp [ProcState.Vacant] at h).trans backToScheduler

theorem waitLoop (h : s.waitLoop c p = (t, e)) : SameVacant s t := by
  rcases waitLoop_cases h with ⟨q, -, -, -, rfl⟩ | ⟨-, rfl | ⟨rfl, -⟩⟩
  · exact (modify fun _ => .inl ⟨rfl, rfl, rfl⟩ : SameVacant s (s.free q)).trans setThread
  · exact setThread
  · exact sleepOn

theorem resume (h : resume s c p = (t, e)) : SameVacant s t := by
  unfold Ptable.resume at h
  split at h
  · cases h
    exact setThread
  · cases h
    exact modify fun _ => .inr ⟨rfl, rfl, rfl⟩
  · exact (modify fun _ => .inr ⟨rfl, rfl, rfl⟩).trans (waitLoop h)
  all_goals
    cases h
    exact refl s

theorem dispatched {r : Nat} : SameVacant s (s.dispatched c p r) :=
  ((of_proc rfl : SameVacant s (s.setCpu c (some p))).trans (setState (by simp [ProcState.Vacant]))).trans (of_proc rfl)

theorem exited (h : Exited c p s t) : SameVacant s t := by
  intro q hq
  refine .inr ⟨?_, h.field (·.pid) (fun _ _ _ _ => rfl) q, h.field (·.killed) (fun _ _ _ _ => rfl) q⟩
  by_cases hqp : q = p
  · subst hqp
    simp [h.zombie, ProcState.Vacant] at hq
  · rcases h.state q hqp with h1 | ⟨-, h1⟩
    · exact h1
    · simp [h1, ProcState.Vacant] at hq

end SameVacant

/-- No `kill` is for pid 0, and no `fork` fails after it has taken a slot. -/
def Op.Careful : Op → Prop
  | .kill pid => pid ≠ 0
  | .forkStack _ ok | .forkCopy _ ok => ok = true
  | _ => True

instance : DecidablePred Op.Careful := fun op => by
  cases op <;> unfold Op.Careful <;> infer_instance

/-- What a step other than `kill` does to the vacant slots: it takes one for a new process, gives one back, or
    leaves them as they were. -/
theorem step_vacant {op : Op} (hk : ∀ pid, op ≠ .kill pid) (hs : s.step op = some (t, e)) : SameVacant s t ∨
      (∃ p, (s.proc p).state = .unused ∧ (t.proc p).state ≠ .unused ∧ (t.proc p).killed = (s.proc p).killed ∧
        ∀ q ≠ p, (t.proc q).state = (s.proc q).state ∧ (t.proc q).pid = (s.proc q).pid ∧
          (t.proc q).killed = (s.proc q).killed) ∨
      ¬op.Careful ∧ ∃ p np, (s.proc p).thread.forking = some (np, false) ∧
      t = (s.setState np .unused).setThread p .run := by
  cases op with
  | userinit =>
    obtain ⟨-, p, u, ha, -, rfl⟩ := step_userinit_inv hs
    obtain ⟨hp, rfl⟩ := allocproc_some ha
    refine .inr (.inl ⟨p, hp, ?_, ?_, fun q hq => ?_⟩)
    · simp
    · simp
    · simp [modify_proc, hq]
  | fork c =>
    obtain ⟨p, -, -, ⟨rfl, -⟩ | ⟨np, u, ha, -, rfl⟩⟩ := step_fork_inv hs
    · exact .inl (.refl _)
    · obtain ⟨hp, rfl⟩ := allocproc_some ha
      refine .inr (.inl ⟨np, hp, ?_, ?_, fun q hq => ?_⟩)
      all_goals simp only [setThread_state, setThread_killed,
        setThread_pid]
      · simp
      · simp
      · simp [modify_proc, hq]
  | forkStack c ok =>
    obtain ⟨-, p, np, -, hth, ⟨-, rfl⟩ | ⟨rfl, rfl⟩⟩ := step_forkStack_inv hs
    · exact .inl .setThread
    · exact .inr (.inr ⟨by rintro ⟨⟩, p, np, by simp [hth, Thread.forking], rfl⟩)
  | forkCopy c ok =>
    obtain ⟨-, p, np, -, hth, ⟨-, rfl⟩ | ⟨rfl, rfl⟩⟩ := step_forkCopy_inv hs
    · exact .inl ((SameVacant.modify fun _ => .inr ⟨rfl, rfl, rfl⟩).trans .setThread)
    · exact .inr (.inr ⟨by rintro ⟨⟩, p, np, by simp [hth, Thread.forking], rfl⟩)
  | forkRun c =>
    obtain ⟨-, p, np, -, -, rfl⟩ := step_forkRun_inv hs
    exact .inl ((SameVacant.setState (by simp [ProcState.Vacant])).trans .setThread)
  | exit c =>
    obtain ⟨p, -, -, hni, rfl, -⟩ := step_exit_inv hs
    exact .inl (.exited (exited_exitLocked hni))
  | wait c =>
    obtain ⟨p, -, -, hw⟩ := step_wait_inv hs
    exact .inl (.waitLoop hw)
  | sleep c a =>
    obtain ⟨-, p, -, -, rfl⟩ := step_sleep_inv hs
    exact .inl .sleepOn
  | wakeup a =>
    obtain ⟨-, rfl⟩ := step_wakeup_inv hs
    exact .inl (.wakeup1)
  | kill pid => exact absurd rfl (hk pid)
  | yield c =>
    obtain ⟨-, p, -, rfl⟩ := step_yield_inv hs
    exact .inl ((SameVacant.setState (by simp [ProcState.Vacant])).trans .backToScheduler)
  | settickets c n =>
    obtain ⟨-, rfl | ⟨p, -, rfl⟩⟩ := step_settickets_inv hs
    · exact .inl (.refl _)
    · exact .inl (.modify fun _ => .inr ⟨rfl, rfl, rfl⟩)
  | scheduler c =>
    obtain ⟨-, ⟨rfl, -⟩ | ⟨p, r, -, hr⟩⟩ := step_scheduler_inv hs
    · exact .inl (.refl _)
    · exact .inl (SameVacant.dispatched.trans (.resume hr))

/-! ### Runs -/

/-- The slots without a process are not marked as killed. -/
def Unkilled (s : Ptable) : Prop := ∀ q, (s.proc q).state.Vacant → (s.proc q).killed = false

/-- The UNUSED slots are as at boot and as `wait` leaves them. -/
def Cleared (s : Ptable) : Prop := ∀ q, (s.proc q).state = .unused → (s.proc q).pid = 0 ∧ (s.proc q).killed = false

/-- A `kill` is not for a pid that a slot without a process carries. -/
def Spares (s : Ptable) : Op → Prop
  | .kill pid => ∀ q, (s.proc q).pid = pid → ¬(s.proc q).state.Vacant
  | _ => True

theorem Unkilled.step {op : Op} (h : Unkilled s) (hinv : Inv s) (hop : Spares s op) (hs : s.step op = some (t, e)) :
    Unkilled t := by
  by_cases hk : ∃ pid, op = .kill pid
  · obtain ⟨pid, rfl⟩ := hk
    obtain ⟨-, rfl⟩ := step_kill_inv hs
    intro q hq
    rcases kill_proc s pid q with h1 | ⟨hpid, h1⟩
    · rw [h1] at hq ⊢
      exact h q hq
    · -- The slot is not vacant, and the step leaves it so.
      rw [h1] at hq
      refine absurd hq ?_
      split
      · simp [ProcState.Vacant]
      · exact hop q hpid
  · rcases step_vacant (fun pid hp => hk ⟨pid, hp⟩) hs with h1 | ⟨p, hp, -, hkp, hrest⟩ | ⟨-, p, np, hf, rfl⟩
    · intro q hq
      rcases h1 q hq with ⟨-, -, h2⟩ | ⟨h2, -, h3⟩
      · exact h2
      · exact h3.trans (h q (h2 ▸ hq))
    · intro q hq
      by_cases hqp : q = p
      · rw [hqp, hkp]
        exact h p (.inl hp)
      · obtain ⟨h2, -, h3⟩ := hrest q hqp
        exact h3.trans (h q (h2 ▸ hq))
    · intro q hq
      rw [setThread_killed, setState_killed]
      rw [setThread_state, setState_state] at hq
      split at hq
      · next hqp =>
        subst hqp
        exact h q (.inr (hinv.tree.forker p q false hf).2.1)
      · exact h q hq

theorem Cleared.step {op : Op} (h : Cleared s) (hop : op.Careful) (hs : s.step op = some (t, e)) : Cleared t := by
  by_cases hk : ∃ pid, op = .kill pid
  · obtain ⟨pid, rfl⟩ := hk
    obtain ⟨-, rfl⟩ := step_kill_inv hs
    intro q hq
    rcases kill_proc s pid q with h1 | ⟨hpid, h1⟩
    · rw [h1] at hq ⊢
      exact h q hq
    · -- An UNUSED slot has pid 0, which nobody kills.
      rw [h1] at hq
      simp only at hq
      split_ifs at hq
      exact absurd (hpid ▸ (h q hq).1) hop
  · rcases step_vacant (fun pid hp => hk ⟨pid, hp⟩) hs with h1 | ⟨p, -, hp, -, hrest⟩ | ⟨hf, -⟩
    · intro q hq
      rcases h1 q (.inl hq) with ⟨-, h2⟩ | ⟨h2, h3, h4⟩
      · exact h2
      · rw [h3, h4]
        exact h q (h2 ▸ hq)
    · intro q hq
      have hqp : q ≠ p := fun hqp => hp (hqp ▸ hq)
      obtain ⟨h2, h3, h4⟩ := hrest q hqp
      rw [h3, h4]
      exact h q (h2 ▸ hq)
    · exact absurd hop hf

theorem reach_unkilled {w : Traced} (h : machine.ReachWhere (fun w op => Spares w.table op) w) :
    Inv w.table ∧ Unkilled w.table := by
  refine h.invariant (I := fun w : Traced => Inv w.table ∧ Unkilled w.table) ?_ ?_
  · rintro w rfl
    exact ⟨Inv.boot, fun q _ => rfl⟩
  · rintro w op w' ⟨hinv, hu⟩ hop hstep
    obtain ⟨e, hs, -⟩ := Traced.step_inv hstep
    exact ⟨hinv.step hs, hu.step hinv hop hs⟩

theorem reach_cleared {w : Traced} (h : machine.ReachWhere (fun _ op => op.Careful) w) : Cleared w.table := by
  refine h.invariant (I := fun w : Traced => Cleared w.table) ?_ ?_
  · rintro w rfl
    exact fun q _ => ⟨rfl, rfl⟩
  · rintro w op w' hc hop hstep
    obtain ⟨e, hs, -⟩ := Traced.step_inv hstep
    exact hc.step hop hs

/-! ### fork from beginning to end -/

def forkCall (c : Cpu) : List Op := [.fork c, .forkStack c true, .forkCopy c true, .forkRun c]

theorem forkStack_true (hc : s.cpu c = some p) (hth : (s.proc p).thread = .forkStack np) :
    s.step (.forkStack c true) = some (s.setThread p (.forkCopy np), none) := by
  simp [step, hc, hth]

theorem forkCopy_true (hc : s.cpu c = some p) (hth : (s.proc p).thread = .forkCopy np) :
    ∃ f : Proc → Proc, (∀ x, (f x).killed = x.killed) ∧
      s.step (.forkCopy c true) = some ((s.modify np f).setThread p (.forkReady np), none) := by
  refine ⟨fun x => { x with
    parent := some p, ticks := 0, tickets := if 10 < (s.proc p).tickets then (s.proc p).tickets else 10 },
    fun _ => rfl, ?_⟩
  simp only [step, hc, hth, bind_eq_bind, bind_some, if_true]

theorem forkCall_killed {w w' : Traced} (ha : w.table.allocproc = some (np, u)) (h : w.run (forkCall c) = some w') :
    (w'.table.proc np).state = .runnable ∧ (w'.table.proc np).killed = (w.table.proc np).killed := by
  simp only [Traced.run, forkCall, List.foldlM_cons, List.foldlM_nil, bind_eq_bind, bind_eq_some_iff] at h
  obtain ⟨w1, h1, w2, h2, w3, h3, w4, h4, h5⟩ := h
  cases h5
  obtain ⟨e1, h1, -⟩ := Traced.step_inv h1
  obtain ⟨e2, h2, -⟩ := Traced.step_inv h2
  obtain ⟨e3, h3, -⟩ := Traced.step_inv h3
  obtain ⟨e4, h4, -⟩ := Traced.step_inv h4
  simp only [step, ha, bind_eq_bind, bind_eq_some_iff, Option.some.injEq, Prod.mk.injEq] at h1
  obtain ⟨p, hp, h1, -⟩ := h1
  have hcpu : w1.table.cpu c = some p := by
    rw [← h1, (allocproc_some ha).2]
    exact (current_some hp).1
  -- The forking process goes from turn to turn on the same CPU.
  have hth1 : (w1.table.proc p).thread = .forkStack np := by rw [← h1, setThread_thread, if_pos rfl]
  rw [forkStack_true hcpu hth1] at h2
  obtain ⟨h2, -⟩ := Prod.mk.inj (Option.some.inj h2)
  have hth2 : (w2.table.proc p).thread = .forkCopy np := by rw [← h2, setThread_thread, if_pos rfl]
  obtain ⟨f, hf, hcopy⟩ := forkCopy_true (by rw [← h2]; exact hcpu) hth2
  rw [hcopy] at h3
  obtain ⟨h3, -⟩ := Prod.mk.inj (Option.some.inj h3)
  have hcpu3 : w3.table.cpu c = some p := by rw [← h3, ← h2]; exact hcpu
  have hth3 : (w3.table.proc p).thread = .forkReady np := by rw [← h3, setThread_thread, if_pos rfl]
  obtain ⟨-, p', np', hcpu', hth', h4⟩ := step_forkRun_inv h4
  cases hcpu3.symm.trans hcpu'
  cases hth3.symm.trans hth'
  constructor
  · rw [h4, setThread_state, setState_state, if_pos rfl]
  · calc (w'.table.proc np).killed = (w3.table.proc np).killed := by
          rw [h4, setThread_killed, setState_killed]
      _ = (w2.table.proc np).killed := by
          rw [← h3, setThread_killed, modify_proc_self, hf]
      _ = (w1.table.proc np).killed := by rw [← h2, setThread_killed]
      _ = (w.table.proc np).killed := by
          rw [← h1, setThread_killed, (allocproc_some ha).2]
          simp

/-- A process that `fork` now makes starts with `killed` clear. -/
def Traced.StartsClean (w : Traced) : Prop :=
  ∀ c np u w', w.table.allocproc = some (np, u) → w.run (forkCall c) = some w' →
    (w'.table.proc np).state = .runnable ∧ (w'.table.proc np).killed = false

theorem startsClean {w : Traced} (h : ∀ q, (w.table.proc q).state = .unused → (w.table.proc q).killed = false) :
    w.StartsClean := by
  intro c np u w' ha hr
  obtain ⟨h1, h2⟩ := forkCall_killed ha hr
  exact ⟨h1, h2.trans (h np (allocproc_some ha).1)⟩

/-- Whatever comes between the sections of `fork`, the last one starts the child in a slot that was EMBRYO. -/
theorem forkRun_killed {w w' : Traced} (hinv : Inv w.table) (hu : Unkilled w.table) (hc : w.table.cpu c = some p)
    (hth : (w.table.proc p).thread = .forkReady np) (hs : w.step (.forkRun c) = some w') :
    (w'.table.proc np).state = .runnable ∧ (w'.table.proc np).killed = false := by
  obtain ⟨e, hs, -⟩ := Traced.step_inv hs
  obtain ⟨-, p', np', hc', hth', ht⟩ := step_forkRun_inv hs
  cases hc.symm.trans hc'
  cases hth.symm.trans hth'
  have hnp : (w.table.proc np).state = .embryo := (hinv.tree.forker p np true (by rw [hth]; rfl)).2.1
  rw [ht, setThread_state, setThread_killed,
    setState_killed, setState_state, if_pos rfl]
  exact ⟨rfl, hu np (.inr hnp)⟩

theorem killResult_eq_zero {pid : Int} (h : s.killResult pid = 0) : ∃ p, (s.proc p).pid = pid := by
  unfold killResult at h
  split at h
  · cases h
  · next p hp => exact ⟨p, findPid_some hp⟩

/-- In a run whose calls of `kill` are all for pids that no UNUSED or EMBRYO slot carries, such a `kill` that returns 0
    has found a process, and every process that `fork` makes starts with `killed` clear. In a run without a `kill` of
    pid 0 and without a `fork` that fails, a `kill` of any other pid finds a process too, and a `fork` whose sections
    follow one another starts its child with `killed` clear. -/
theorem kill_finds_process (w : Traced) : (machine.ReachWhere (fun w op => Spares w.table op) w → w.StartsClean ∧
      (∀ c p np w', w.table.cpu c = some p → (w.table.proc p).thread = .forkReady np → w.step (.forkRun c) = some w' →
        (w'.table.proc np).state = .runnable ∧ (w'.table.proc np).killed = false) ∧
      ∀ pid, Spares w.table (.kill pid) → w.table.killResult pid = 0 →
        ∃ p, (w.table.proc p).pid = pid ∧ (w.table.proc p).state ≠ .unused) ∧
    (machine.ReachWhere (fun _ op => op.Careful) w → w.StartsClean ∧ ∀ pid, pid ≠ 0 → w.table.killResult pid = 0 →
        ∃ p, (w.table.proc p).pid = pid ∧ (w.table.proc p).state ≠ .unused) := by
  refine ⟨fun h => ⟨?_, fun c p np w' hc hth hs => ?_, fun pid hpid hr => ?_⟩, fun h => ⟨?_, fun pid hpid hr => ?_⟩⟩
  · exact startsClean fun q hq => (reach_unkilled h).2 q (.inl hq)
  · exact forkRun_killed (reach_unkilled h).1 (reach_unkilled h).2 hc hth hs
  · obtain ⟨p, hp⟩ := killResult_eq_zero hr
    exact ⟨p, hp, fun hu => hpid p hp (.inl hu)⟩
  · exact startsClean fun q hq => (reach_cleared h q hq).2
  · obtain ⟨p, hp⟩ := killResult_eq_zero hr
    exact ⟨p, hp, fun hu => hpid (hp ▸ (reach_cleared h p hu).1)⟩

def killRun : List Op := [.userinit, .scheduler 0] ++ forkCall 0 ++ [.kill 1]

theorem kill_finds_process_killRun : ∃ w, machine.Reach w ∧ w.table.killResult 2 = 0 ∧
    (∃ p, (w.table.proc p).pid = 2 ∧ (w.table.proc p).state ≠ .unused) ∧ w.StartsClean := by
  have h : (killRun.foldlM (fun (w : Traced) (op : Op) => if op.Careful then w.step op else none) {}).map
      (fun w : Traced => w.table.killResult 2) = some 0 := by decide +kernel
  obtain ⟨w, hw, h2⟩ := map_eq_some_iff.mp h
  have hr : machine.ReachWhere (fun _ op => op.Careful) w := by
    refine .foldlM (fun w op w' hop => ?_) (.init rfl) hw
    split_ifs at hop with hc
    exact ⟨hc, hop⟩
  obtain ⟨-, h⟩ := kill_finds_process w
  obtain ⟨hclean, hlive⟩ := h hr
  exact ⟨w, hr.reach, h2, hlive 2 (by decide) h2, hclean⟩

/-- Init calls `kill(0)`. The first UNUSED slot has pid 0, so `kill` returns 0 and marks that slot as killed, and
    the next child of init starts as killed. -/
theorem kill_zero_marks_unused : ∃ w w', ({} : Traced).run [.userinit, .scheduler 0] = some w ∧
    w.table.killResult 0 = 0 ∧ (∀ p, (w.table.proc p).pid = 0 → (w.table.proc p).state = .unused) ∧
    w.run (.kill 0 :: forkCall 0) = some w' ∧ (w'.table.proc 1).state = .runnable ∧
    (w'.table.proc 1).killed = true := by
  have h : (({} : Traced).run [.userinit, .scheduler 0]).bind (fun w => (w.run (.kill 0 :: forkCall 0)).map fun w' =>
      (w.table.killResult 0, decide (∀ p, (w.table.proc p).pid = 0 → (w.table.proc p).state = .unused),
        (w'.table.proc 1).state, (w'.table.proc 1).killed)) = some (0, true, .runnable, true) := by decide +kernel
  obtain ⟨w, hw, h⟩ := bind_eq_some_iff.mp h
  obtain ⟨w', hw', h⟩ := map_eq_some_iff.mp h
  simp only [Prod.mk.injEq, decide_eq_true_eq] at h
  exact ⟨w, w', hw, h.1, h.2.1, hw', h.2.2⟩

end Ptable
end Xv6
