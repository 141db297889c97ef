import Xv6.Theorems.Proc.Tree

/-! The protocol of `exit` and `wait`. -/

namespace Xv6
namespace Ptable

variable {s t : Ptable} {p q np : Slot} {c d : Cpu} {e : Option Event}

/-! ### The processes on the CPUs -/

structure Cpus (s : Ptable) : Prop where
  running : ∀ c p, s.cpu c = some p → (s.proc p).state = .running
  unique : ∀ c d p, s.cpu c = some p → s.cpu d = some p → c = d

theorem Cpus.alive (h : Cpus s) (hc : s.cpu c = some p) : (s.proc p).state.Alive :=
  .inr (.inr (h.running c p hc))

theorem Cpus.keep (h : Cpus s) (hc : t.cpu = s.cpu)
    (hr : ∀ q, (s.proc q).state = .running → (t.proc q).state = .running) : Cpus t where
  running c p hp := hr p (h.running c p (hc ▸ hp))
  unique c d p hp hq := h.unique c d p (hc ▸ hp) (hc ▸ hq)

theorem Cpus.leave (h : Cpus s) (hp : s.cpu c = some p) (hc : ∀ d, t.cpu d = if d = c then none else s.cpu d)
    (hr : ∀ q, q ≠ p → (s.proc q).state = .running → (t.proc q).state = .running) : Cpus t where
  running d q hq := by
    rw [hc] at hq
    split_ifs at hq with hdc
    refine hr q ?_ (h.running d q hq)
    rintro rfl
    exact hdc (h.unique d c q hq hp)
  unique d d' q hq hq' := by
    rw [hc] at hq hq'
    split_ifs at hq
    split at hq'
    · cases hq'
    · exact h.unique d d' q hq hq'

theorem Cpus.enter (h : Cpus s) (hp : (s.proc p).state ≠ .running)
    (hc : ∀ d, t.cpu d = if d = c then some p else s.cpu d) (ht : (t.proc p).state = .running)
    (hr : ∀ q, (s.proc q).state = .running → (t.proc q).state = .running) : Cpus t where
  running d q hq := by
    rw [hc] at hq
    split at hq
    · cases hq
      exact ht
    · exact hr q (h.running d q hq)
  unique d d' q hq hq' := by
    have hold : ∀ d, s.cpu d ≠ some p := fun d hd => hp (h.running d p hd)
    rw [hc] at hq hq'
    split at hq <;> split at hq'
    · next h1 h2 => rw [h1, h2]
    · cases hq
      exact absurd hq' (hold d')
    · cases hq'
      exact absurd hq (hold d)
    · exact h.unique d d' q hq hq'

/-! ### The processes asleep in wait -/

/-- A process asleep on a process's address is asleep on its own, and has no ZOMBIE child. -/
def Waits (s : Ptable) : Prop :=
  ∀ p q, (s.proc p).state = .sleeping → (s.proc p).chan = some (.proc q) →
    q = p ∧ ∀ r, (s.proc r).parent = some p → (s.proc r).state ≠ .zombie

theorem Waits.keep (h : Waits s) (hsleep : ∀ p q, (t.proc p).state = .sleeping → (t.proc p).chan = some (.proc q) →
      (s.proc p).state = .sleeping ∧ (s.proc p).chan = some (.proc q))
    (hzom : ∀ r, (t.proc r).state = .zombie → (s.proc r).state = .zombie ∧
      (t.proc r).parent = (s.proc r).parent) : Waits t := by
  intro p q hp hq
  obtain ⟨h1, h2⟩ := hsleep p q hp hq
  obtain ⟨rfl, hno⟩ := h p q h1 h2
  refine ⟨rfl, fun r hr hz => ?_⟩
  obtain ⟨hz', hpar⟩ := hzom r hz
  exact hno r (hpar ▸ hr) hz'

structure Inv (s : Ptable) : Prop where
  tree : Tree s
  cpus : Cpus s
  waits : Waits s

theorem Inv.boot : Inv {} where
  tree := {
    boot := fun _ _ => rfl
    init := by simp
    parent := by simp [ProcState.Alive]
    root := by simp
    self := by simp
    unused := fun _ _ => rfl
    forker := by simp [Thread.forking]
    embryo := by simp
    unique := by simp [Thread.forking] }
  cpus := ⟨by simp, by simp⟩
  waits := by simp [Waits]

/-! ### The steps that free or fill slots -/

theorem wakeup1_running {ch : Option Chan} (hq : (s.proc q).state = .running) :
    ((s.wakeup1 ch).proc q).state = .running := by
  rw [wakeup1_proc, if_neg (by simp [hq]), hq]

theorem waitLoop_cases (h : s.waitLoop c p = (t, e)) : (∃ q, (s.proc q).parent = some p ∧ (s.proc q).state = .zombie ∧
      e = some (.waited p q (s.proc q).parent (s.proc q).pid) ∧ t = (s.free q).setThread p .run) ∨
    e = none ∧ (t = s.setThread p .run ∨
      t = s.sleepOn c p (.proc p) .wait ∧ ∀ r, (s.proc r).parent = some p → (s.proc r).state ≠ .zombie) := by
  unfold waitLoop at h
  split at h
  · next q hq =>
    have hq := List.find?_some hq
    simp only [decide_eq_true_eq] at hq
    simp only [Prod.mk.injEq] at h
    exact .inl ⟨q, hq.1, hq.2, h.2.symm, h.1.symm⟩
  · next hnone =>
    simp only [List.find?_eq_none, decide_eq_true_eq, not_and] at hnone
    split at h
    · simp only [Prod.mk.injEq] at h
      exact .inr ⟨h.2.symm, .inl h.1.symm⟩
    · simp only [Prod.mk.injEq] at h
      exact .inr ⟨h.2.symm, .inr ⟨h.1.symm, fun r hr => hnone r (mem_slots r) hr⟩⟩

theorem Inv.sleepOn (h : Inv s) {ch : Chan} {th : Thread} (hc : s.cpu c = some p) (hth : th.forking = none)
    (hf : (s.proc p).thread.forking = none)
    (hch : ∀ q, ch = .proc q → q = p ∧ ∀ r, (s.proc r).parent = some p → (s.proc r).state ≠ .zombie) :
    Inv (s.sleepOn c p ch th) where
  tree := h.tree.quiet (Quiet.sleepOn (h.cpus.alive hc) hth hf)
  cpus := h.cpus.leave hc (fun _ => backToScheduler_cpu) fun q hq hr => by rw [sleepOn_proc, if_neg hq, hr]
  waits := by
    intro r q hr hq
    rw [sleepOn_proc] at hr hq
    -- The ZOMBIEs and their parents are those of `s`.
    have hz : ∀ x, ((s.sleepOn c p ch th).proc x).state = .zombie →
        (s.proc x).state = .zombie ∧ ((s.sleepOn c p ch th).proc x).parent = (s.proc x).parent := by
      intro x hx
      rw [sleepOn_proc] at hx ⊢
      split_ifs at hx with hxp
      rw [if_neg hxp]; exact ⟨hx, rfl⟩
    split at hr
    · next hrp =>
      subst hrp
      rw [if_pos rfl] at hq
      cases hq
      obtain ⟨rfl, hno⟩ := hch q rfl
      refine ⟨rfl, fun x hx hxz => ?_⟩
      obtain ⟨h1, h2⟩ := hz x hxz
      exact hno x (h2 ▸ hx) h1
    · next hrp =>
      rw [if_neg hrp] at hq
      obtain ⟨rfl, hno⟩ := h.waits r q hr hq
      refine ⟨rfl, fun x hx hxz => ?_⟩
      obtain ⟨h1, h2⟩ := hz x hxz
      exact hno x (h2 ▸ hx) h1

theorem Inv.modify_running (h : Inv s) {f : Proc → Proc} (hp : (s.proc p).state = .running)
    (hst : (f (s.proc p)).state = .running) (hpar : (f (s.proc p)).parent = (s.proc p).parent)
    (hf : (f (s.proc p)).thread.forking = (s.proc p).thread.forking) : Inv (s.modify p f) where
  tree := h.tree.quiet (Quiet.modify hpar hf (.inl (hst.trans hp.symm)))
  cpus := h.cpus.keep rfl fun q hq => by
    rw [modify_field (·.state) (hst.trans hp.symm), hq]
  waits := h.waits.keep
    (fun r q hr hq => by
      rw [modify_proc] at hr hq
      split at hr
      · simp [hst] at hr
      · next hrp => rw [if_neg hrp] at hq; exact ⟨hr, hq⟩)
    fun r hr => by
      rw [modify_field (·.state) (hst.trans hp.symm)] at hr
      exact ⟨hr, modify_field (·.parent) hpar⟩

theorem Inv.waitLoop (h : Inv s) (hc : s.cpu c = some p) (hf : (s.proc p).thread.forking = none)
    (hw : s.waitLoop c p = (t, e)) : Inv t := by
  have hrun := h.cpus.running c p hc
  rcases waitLoop_cases hw with ⟨q, hpar, hz, -, rfl⟩ | ⟨-, rfl | ⟨rfl, hno⟩⟩
  · have hst : ∀ r, (((s.free q).setThread p .run).proc r).state =
        if r = q then .unused else (s.proc r).state := by
      intro r
      rw [setThread_state, free_proc]
      split <;> rfl
    have hpar' : ∀ r, (((s.free q).setThread p .run).proc r).parent =
        if r = q then none else (s.proc r).parent := by
      intro r
      rw [setThread_field (·.parent) fun _ _ => rfl, free_proc]
      split <;> rfl
    refine ⟨h.tree.reap hz rfl hst hpar' fun r => ?_, h.cpus.keep rfl fun r hr => ?_,
      h.waits.keep (fun r x hr hx => ?_) fun r hr => ?_⟩
    · rw [setThread_thread]
      split
      · next hrp =>
        rw [hrp, hf]
        rfl
      · exact modify_field (·.thread.forking) rfl
    · rw [hst, if_neg, hr]
      rintro rfl
      simp [hz] at hr
    · rw [hst] at hr
      split_ifs at hr
      refine ⟨hr, ?_⟩
      rwa [setThread_field (·.chan) fun _ _ => rfl, free, modify_field (·.chan) rfl] at hx
    · rw [hst] at hr
      split_ifs at hr with hrq
      exact ⟨hr, by rw [hpar', if_neg hrq]⟩
  · exact h.modify_running hrun hrun rfl hf.symm
  · exact h.sleepOn hc rfl hf fun x hx => by
      cases hx
      exact ⟨rfl, hno⟩

/-- What `exit` of the process `p` on CPU `c` does. -/
structure Exited (c : Cpu) (p : Slot) (s t : Ptable) : Prop where
  initproc : t.initproc = s.initproc
  nextpid : t.nextpid = s.nextpid
  cpu : ∀ d, t.cpu d = if d = c then none else s.cpu d
  zombie : (t.proc p).state = .zombie
  state : ∀ q, q ≠ p → (t.proc q).state = (s.proc q).state ∨
    (s.proc q).state = .sleeping ∧ (t.proc q).state = .runnable
  field : ∀ {α : Type} (g : Proc → α), (∀ x st o n, g { x with state := st, parent := o, ticks := n } = g x) →
    ∀ q, g (t.proc q) = g (s.proc q)
  parent : ∀ q, (t.proc q).parent = if (s.proc q).parent = some p then s.initproc else (s.proc q).parent
  /-- Whoever still sleeps is not the parent in its `wait`. -/
  woken : ∀ q, q ≠ p → (t.proc q).state = .sleeping → (s.proc q).chan ≠ (s.proc p).parent.map .proc
  /-- Nor is it init in its `wait` when `p` leaves it a ZOMBIE. -/
  wokenInit : (∃ r, (s.proc r).parent = some p ∧ (s.proc r).state = .zombie) →
    ∀ q, q ≠ p → (t.proc q).state = .sleeping → (s.proc q).chan ≠ s.initproc.map .proc

theorem exited_exitLocked (hni : s.initproc ≠ some p) : Exited c p s (s.exitLocked c p) := by
  obtain ⟨s1, hs1⟩ : ∃ s1, s.wakeup1 ((s.proc p).parent.map .proc) = s1 := ⟨_, rfl⟩
  have hw : Quiet s s1 := hs1 ▸ Quiet.wakeup1
  have hw1 : ∀ {α : Type} (g : Proc → α), (∀ x st, g { x with state := st } = g x) →
      ∀ q, g (s1.proc q) = g (s.proc q) := fun g hg q => hs1 ▸ wakeup1_field g hg
  obtain ⟨s2, hs2⟩ : ∃ s2, s.exitFamily p = s2 := ⟨_, rfl⟩
  have h2 : Passed p slots s1 s2 := by
    rw [← hs2, exitFamily, hs1]
    exact passed_foldl (by rw [hw.initproc]; exact hni)
  have hex : s.exitLocked c p = (s2.setState p .zombie).backToScheduler c p := by rw [exitLocked, hs2]
  have hst : ∀ q, ((s.exitLocked c p).proc q).state = if q = p then .zombie else (s2.proc q).state := by
    intro q
    rw [hex, backToScheduler_field (·.state) fun _ _ => rfl, setState_state]
  -- Whoever sleeps in the end slept throughout.
  have hsl : ∀ q, q ≠ p → ((s.exitLocked c p).proc q).state = .sleeping →
      (s2.proc q).state = .sleeping ∧ (s1.proc q).state = .sleeping := by
    intro q hqp hq
    rw [hst, if_neg hqp] at hq
    refine ⟨hq, ?_⟩
    rcases h2.state q with h3 | ⟨-, h3⟩
    · rw [← h3, hq]
    · simp [h3] at hq
  refine ⟨?_, ?_, ?_, by simp [hst], ?_, ?_, ?_, ?_, ?_⟩
  · rw [hex]
    exact h2.initproc.trans hw.initproc
  · rw [hex, backToScheduler_nextpid, setState_nextpid, h2.nextpid, ← hs1]
    rfl
  · intro d
    rw [hex, backToScheduler_cpu, setState_cpu, h2.cpu, ← hs1]
    rfl
  · intro q hqp
    rw [hst, if_neg hqp]
    exact (hs1.symm ▸ h2 : Passed p slots (s.wakeup1 _) s2).state_wakeup1 q
  · intro α g hg q
    rw [hex, backToScheduler_field g fun x n => hg x x.state x.parent n,
      setState_field g fun x st => hg x st x.parent x.ticks, h2.field g (fun x st o => hg x st o x.ticks) q,
      hw1 g (fun x st => hg x st x.parent x.ticks) q]
  · intro q
    rw [hex, backToScheduler_field (·.parent) fun _ _ => rfl, setState_field (·.parent) fun _ _ => rfl,
      h2.parent q, hw.parent q, hw.initproc]
    simp [mem_slots]
  · intro q hqp hq
    exact (wakeup1_not_sleeping (hs1 ▸ (hsl q hqp hq).2)).2
  · rintro ⟨r, hr, hz⟩ q hqp hq
    have hz1 : (s1.proc r).state = .zombie := (hw.state_iff (by simp [ProcState.Alive])).mpr hz
    have := h2.woken ⟨r, mem_slots r, by rw [hw.parent r, hr], hz1⟩ q (hsl q hqp hq).1
    rwa [hw1 (·.chan) (fun _ _ => rfl), hw.initproc] at this

/-- `exit` wakes its parent before it becomes a ZOMBIE, and init before it takes over a ZOMBIE. -/
theorem Inv.exited (h : Inv s) (hc : s.cpu c = some p) (hf : (s.proc p).thread.forking = none)
    (hni : s.initproc ≠ some p) (hx : Exited c p s t) : Inv t := by
  have hp := h.cpus.alive hc
  refine ⟨h.tree.exit hp hf hni hx.initproc hx.zombie ?_ ?_ hx.parent
    (hx.field (·.thread.forking) fun _ _ _ _ => rfl), h.cpus.leave hc hx.cpu ?_, ?_⟩
  · intro q hqp ha
    rcases hx.state q hqp with hq | ⟨-, hq⟩
    · rw [hq]; exact ha
    · rw [hq]; exact .inr (.inl rfl)
  · intro q hqp ha
    rcases hx.state q hqp with hq | ⟨hq, -⟩
    · exact hq
    · exact absurd (.inl hq) ha
  · intro q hqp hr
    rcases hx.state q hqp with hq | ⟨hq, -⟩
    · rw [hq, hr]
    · simp [hr] at hq
  · intro r q hr hq
    have hrp : r ≠ p := by
      rintro rfl
      simp [hx.zombie] at hr
    have hr0 : (s.proc r).state = .sleeping := by
      rcases hx.state r hrp with h3 | ⟨h3, -⟩
      · rw [← h3, hr]
      · exact h3
    rw [hx.field (·.chan) fun _ _ _ _ => rfl] at hq
    obtain ⟨rfl, hno⟩ := h.waits r q hr0 hq
    refine ⟨rfl, fun x hxq hxz => ?_⟩
    rw [hx.parent] at hxq
    -- The ZOMBIE child would be `p` itself, or a child that `p` left to init, or an old one.
    by_cases hxp : x = p
    · subst hxp
      rw [if_neg (h.tree.self x)] at hxq
      exact hx.woken q hrp hr (by rw [hq, hxq]; rfl)
    · have hxz0 : (s.proc x).state = .zombie := by
        rcases hx.state x hxp with h3 | ⟨-, h3⟩
        · rw [← h3, hxz]
        · simp [h3] at hxz
      split at hxq
      · next hold => exact hx.wokenInit ⟨x, hold, hxz0⟩ q hrp hr (by rw [hq, hxq]; rfl)
      · exact hno x hxq hxz0

theorem Inv.keep (h : Inv s) (hq : Quiet s t) (hc : t.cpu = s.cpu)
    (hr : ∀ q, (s.proc q).state = .running → (t.proc q).state = .running)
    (hs : ∀ q, (t.proc q).state = .sleeping → (s.proc q).state = .sleeping ∧ (t.proc q).chan = (s.proc q).chan) :
    Inv t where
  tree := h.tree.quiet hq
  cpus := h.cpus.keep hc hr
  waits := h.waits.keep
    (fun p q hp hch => by
      obtain ⟨h1, h2⟩ := hs p hp
      exact ⟨h1, h2 ▸ hch⟩)
    fun r hz => ⟨(hq.state_iff (by simp [ProcState.Alive])).mp hz, hq.parent r⟩

theorem Inv.of_tree (h : Inv s) (np : Slot) (st : ProcState) (htree : Tree t) (hc : t.cpu = s.cpu)
    (hnp : (s.proc np).state = .unused ∨ (s.proc np).state = .embryo) (hst0 : st ≠ .sleeping ∧ st ≠ .zombie)
    (hst : ∀ q, (t.proc q).state = if q = np then st else (s.proc q).state)
    (hchan : ∀ q, (t.proc q).chan = (s.proc q).chan)
    (hpar : ∀ q, q ≠ np → (t.proc q).parent = (s.proc q).parent) : Inv t where
  tree := htree
  cpus := h.cpus.keep hc fun q hq => by
    rw [hst, if_neg, hq]
    rintro rfl
    simp [hq] at hnp
  waits := h.waits.keep
    (fun p q hp hch => by
      rw [hst] at hp
      split at hp
      · exact absurd hp hst0.1
      · exact ⟨hp, hchan p ▸ hch⟩)
    fun r hz => by
      rw [hst] at hz
      split at hz
      · exact absurd hz hst0.2
      · next hr => exact ⟨hz, hpar r hr⟩

theorem Inv.abandon (h : Inv s) (hc : s.cpu c = some p) (hf : (s.proc p).thread.forking = some (np, false)) :
    Inv ((s.setState np .unused).setThread p .run) := by
  obtain ⟨-, hnp, -⟩ := h.tree.forker p np false hf
  have hne : np ≠ p := by
    rintro rfl
    simp [h.cpus.running c np hc] at hnp
  refine h.of_tree np .unused (h.tree.abandon (p := p) hf rfl ?_ ?_ ?_) rfl
    (.inr hnp) (by simp) ?_ ?_ ?_
  all_goals
    intro q
    simp only [setThread, setState, modify_proc]
    split <;> split <;> simp_all [Thread.forking]

theorem Inv.dispatched (h : Inv s) {r : Nat} (hp : (s.proc p).state = .runnable) : Inv (s.dispatched c p r) := by
  have hst : ∀ q, ((s.dispatched c p r).proc q).state = if q = p then .running else (s.proc q).state :=
    fun q => setState_state
  have hq : Quiet s (s.dispatched c p r) := Quiet.dispatched hp
  refine ⟨h.tree.quiet hq, h.cpus.enter (c := c) (p := p) (by simp [hp]) ?_ (by simp [hst]) ?_, h.waits.keep ?_ ?_⟩
  · intro d
    simp [Ptable.dispatched, setState, Ptable.modify, setCpu, Function.update_apply]
  · intro q hq'
    rw [hst]
    split
    · rfl
    · exact hq'
  · intro q x hq' hx
    rw [hst] at hq'
    split at hq'
    · cases hq'
    · refine ⟨hq', ?_⟩
      rwa [show ((s.dispatched c p r).proc q).chan = (s.proc q).chan from
        setState_field (s := s.setCpu c (some p)) (·.chan) fun _ _ => rfl] at hx
  · intro x hx
    exact ⟨(hq.state_iff (by simp [ProcState.Alive])).mp hx, hq.parent x⟩

theorem Inv.resume (h : Inv s) (hc : s.cpu c = some p) (hr : resume s c p = (t, e)) : Inv t := by
  have hrun := h.cpus.running c p hc
  unfold Ptable.resume at hr
  split at hr
  · next hth =>
    cases hr
    exact h.modify_running hrun hrun rfl (by simp [hth, Thread.forking])
  · next hth =>
    cases hr
    exact h.modify_running hrun hrun rfl (by simp [hth, Thread.forking])
  · next hth =>
    have hm : Inv (s.modify p fun x => { x with chan := none }) := h.modify_running hrun hrun rfl rfl
    exact hm.waitLoop hc (by simp [hth, Thread.forking]) hr
  all_goals
    cases hr
    exact h

theorem wakeup1_sleeping {ch : Option Chan} (hq : ((s.wakeup1 ch).proc q).state = .sleeping) :
    (s.proc q).state = .sleeping ∧ ((s.wakeup1 ch).proc q).chan = (s.proc q).chan :=
  ⟨(wakeup1_not_sleeping hq).1, wakeup1_field (·.chan) fun _ _ => rfl⟩

theorem Inv.step (h : Inv s) {op : Op} (hs : s.step op = some (t, e)) : Inv t := by
  cases op with
  | userinit =>
    obtain ⟨hi, p, u, ha, -, rfl⟩ := step_userinit_inv hs
    obtain ⟨hun, rfl⟩ := allocproc_some ha
    have hempty := h.tree.boot hi
    refine h.of_tree p .runnable (h.tree.userinit (p := p) hi rfl ?_ ?_ ?_) rfl (.inl hun)
      (by simp) ?_ ?_ ?_
    all_goals
      intro q
      simp only [modify_proc, if_true]
      split <;> simp_all [Thread.forking]
  | fork c =>
    obtain ⟨p, hc, hth, ⟨rfl, -⟩ | ⟨np, u, ha, -, rfl⟩⟩ := step_fork_inv hs
    · exact h
    · obtain ⟨hun, rfl⟩ := allocproc_some ha
      have hne : np ≠ p := by
        rintro rfl
        simp [h.cpus.running c np hc] at hun
      refine h.of_tree np .embryo
        (h.tree.alloc (p := p) (h.cpus.alive hc) (by simp [hth, Thread.forking]) hun rfl ?_ ?_ ?_) rfl
        (.inl hun) (by simp) ?_ ?_ ?_
      all_goals
        intro q
        simp only [setThread, modify_proc]
        split <;> split <;> simp_all [Thread.forking]
  | forkStack c ok =>
    obtain ⟨-, p, np, hc, hth, ⟨-, rfl⟩ | ⟨-, rfl⟩⟩ := step_forkStack_inv hs
    · have hrun := h.cpus.running c p hc
      exact h.modify_running hrun hrun rfl (by simp [hth, Thread.forking])
    · have hf : (s.proc p).thread.forking = some (np, false) := by simp [hth, Thread.forking]
      exact h.abandon hc hf
  | forkCopy c ok =>
    obtain ⟨-, p, np, hc, hth, ⟨-, rfl⟩ | ⟨-, rfl⟩⟩ := step_forkCopy_inv hs
    all_goals
      have hf : (s.proc p).thread.forking = some (np, false) := by simp [hth, Thread.forking]
      obtain ⟨-, hnp, -⟩ := h.tree.forker p np false hf
    · have hne : np ≠ p := by
        rintro rfl
        simp [h.cpus.running c np hc] at hnp
      refine h.of_tree np .embryo (h.tree.adopt (p := p) hf rfl ?_ ?_ ?_) rfl
        (.inr hnp) (by simp) ?_ ?_ ?_
      all_goals
        intro q
        simp only [setThread, modify_proc]
        split <;> split <;> simp_all [Thread.forking]
    · exact h.abandon hc hf
  | forkRun c =>
    obtain ⟨-, p, np, hc, hth, rfl⟩ := step_forkRun_inv hs
    have hf : (s.proc p).thread.forking = some (np, true) := by simp [hth, Thread.forking]
    obtain ⟨-, hnp, -⟩ := h.tree.forker p np true hf
    have hne : np ≠ p := by
      rintro rfl
      simp [h.cpus.running c np hc] at hnp
    refine h.of_tree np .runnable (h.tree.born (p := p) hf rfl ?_ ?_ ?_) rfl
      (.inr hnp) (by simp) ?_ ?_ ?_
    all_goals
      intro q
      simp only [setThread, setState, modify_proc]
      split <;> split <;> simp_all [Thread.forking]
  | exit c =>
    obtain ⟨p, hc, hth, hni, rfl, -⟩ := step_exit_inv hs
    exact h.exited hc (by simp [hth, Thread.forking]) hni (exited_exitLocked hni)
  | wait c =>
    obtain ⟨p, hc, hth, hw⟩ := step_wait_inv hs
    exact h.waitLoop hc (by simp [hth, Thread.forking]) hw
  | sleep c a =>
    obtain ⟨-, p, hc, hth, rfl⟩ := step_sleep_inv hs
    exact h.sleepOn hc rfl (by simp [hth, Thread.forking]) (by simp)
  | wakeup a =>
    obtain ⟨-, rfl⟩ := step_wakeup_inv hs
    exact h.keep Quiet.wakeup1 rfl (fun q => wakeup1_running) fun q => wakeup1_sleeping
  | kill pid =>
    obtain ⟨-, rfl⟩ := step_kill_inv hs
    refine h.keep Quiet.kill ?_ (fun q hq => ?_) fun q hq => ?_
    · unfold Ptable.kill
      split <;> rfl
    · rcases kill_proc s pid q with h | ⟨-, h⟩ <;> simp [h, hq]
    · rcases kill_proc s pid q with h | ⟨-, h⟩
      · exact ⟨by rwa [h] at hq, by rw [h]⟩
      · rw [h] at hq
        dsimp only at hq
        split_ifs at hq
        · exact absurd ‹_› ‹_›
  | yield c =>
    obtain ⟨-, p, hc, rfl⟩ := step_yield_inv hs
    have hrun := h.cpus.running c p hc
    have hm : Quiet s (s.setState p .runnable) :=
      Quiet.modify rfl rfl (.inr ⟨h.cpus.alive hc, .inr (.inl rfl)⟩)
    have hst : ∀ q, (((s.setState p .runnable).backToScheduler c p).proc q).state =
        if q = p then .runnable else (s.proc q).state := fun q => by
      rw [backToScheduler_field (·.state) fun _ _ => rfl, setState_state]
    have hq := hm.trans (Quiet.backToScheduler (c := c) (p := p))
    refine ⟨h.tree.quiet hq, h.cpus.leave hc (fun d => backToScheduler_cpu) fun q hqp hr => ?_,
      h.waits.keep (fun q x hq' hx => ?_) fun r hz => ?_⟩
    · rw [hst, if_neg hqp, hr]
    · rw [hst] at hq'
      split at hq'
      · cases hq'
      · refine ⟨hq', ?_⟩
        rwa [backToScheduler_field (·.chan) fun _ _ => rfl, setState_field (·.chan) fun _ _ => rfl] at hx
    · exact ⟨(hq.state_iff (by simp [ProcState.Alive])).mp hz, hq.parent r⟩
  | settickets c n =>
    obtain ⟨-, rfl | ⟨p, -, rfl⟩⟩ := step_settickets_inv hs
    · exact h
    · refine h.keep (Quiet.modify rfl rfl (.inl rfl)) rfl (fun q hq => ?_) fun q hq => ?_
      · rw [modify_field (·.state) rfl, hq]
      · rw [modify_field (·.state) rfl] at hq
        exact ⟨hq, modify_field (·.chan) rfl⟩
  | scheduler c =>
    obtain ⟨-, ⟨rfl, -⟩ | ⟨p, r, hp, hr⟩⟩ := step_scheduler_inv hs
    · exact h
    · refine (h.dispatched hp).resume ?_ hr
      simp [Ptable.dispatched, setState, Ptable.modify, setCpu]

end Ptable
end Xv6
