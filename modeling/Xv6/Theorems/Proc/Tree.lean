import Xv6.Theorems.Proc.Basic

/-! The family tree of the process table: which slots are alive, who is whose parent, and which EMBRYO slots a
    running `fork` owns. -/

namespace Xv6

def ProcState.Alive (st : ProcState) : Prop := st = .sleeping ∨ st = .runnable ∨ st = .running

def Thread.forking : Thread → Option (Slot × Bool)
  | .forkStack np | .forkCopy np => some (np, false)
  | .forkReady np => some (np, true)
  | .run | .forkret | .sleep | .wait => none

namespace Ptable

structure Tree (s : Ptable) : Prop where
  boot : s.initproc = none → ∀ p, (s.proc p).state = .unused
  init : ∀ i, s.initproc = some i → (s.proc i).state.Alive
  parent : ∀ p, (s.proc p).state.Alive ∨ (s.proc p).state = .zombie → s.initproc ≠ some p →
    ∃ q, (s.proc p).parent = some q ∧ (s.proc q).state.Alive
  root : ∀ i, s.initproc = some i → (s.proc i).parent = none
  self : ∀ p, (s.proc p).parent ≠ some p
  unused : ∀ p, (s.proc p).state = .unused → (s.proc p).parent = none
  forker : ∀ p np b, (s.proc p).thread.forking = some (np, b) → (s.proc p).state.Alive ∧
    (s.proc np).state = .embryo ∧ (s.proc np).parent = if b then some p else none
  embryo : ∀ np, (s.proc np).state = .embryo → ∃ p b, (s.proc p).thread.forking = some (np, b)
  unique : ∀ p q np b b', (s.proc p).thread.forking = some (np, b) →
    (s.proc q).thread.forking = some (np, b') → p = q

variable {s t : Ptable} {p q np : Slot} {c : Cpu}

theorem Tree.init_isSome (h : Tree s) (hp : (s.proc p).state ≠ .unused) : ∃ i, s.initproc = some i := by
  cases hi : s.initproc with
  | none => exact absurd (h.boot hi p) hp
  | some i => exact ⟨i, rfl⟩

/-! ### Steps that keep the tree -/

structure Quiet (s t : Ptable) : Prop where
  initproc : t.initproc = s.initproc
  parent : ∀ p, (t.proc p).parent = (s.proc p).parent
  forking : ∀ p, (t.proc p).thread.forking = (s.proc p).thread.forking
  alive : ∀ p, (s.proc p).state.Alive → (t.proc p).state.Alive
  kept : ∀ p, ¬(s.proc p).state.Alive → (t.proc p).state = (s.proc p).state

namespace Quiet

theorem refl (s : Ptable) : Quiet s s := ⟨rfl, fun _ => rfl, fun _ => rfl, fun _ h => h, fun _ _ => rfl⟩

theorem alive_iff (h : Quiet s t) : (t.proc p).state.Alive ↔ (s.proc p).state.Alive := by
  refine ⟨fun ht => ?_, h.alive p⟩
  by_contra hs
  rw [h.kept p hs] at ht
  exact hs ht

theorem state_iff (h : Quiet s t) {st : ProcState} (hst : ¬st.Alive) : (t.proc p).state = st ↔
    (s.proc p).state = st := by
  constructor
  · rintro rfl
    exact (h.kept p fun hs => hst (h.alive p hs)).symm
  · rintro rfl
    exact h.kept p hst

theorem trans {u : Ptable} (h₁ : Quiet s t) (h₂ : Quiet t u) : Quiet s u where
  initproc := h₂.initproc.trans h₁.initproc
  parent p := (h₂.parent p).trans (h₁.parent p)
  forking p := (h₂.forking p).trans (h₁.forking p)
  alive p hp := h₂.alive p (h₁.alive p hp)
  kept p hp := by
    have ht : ¬(t.proc p).state.Alive := fun ht => hp (h₁.alive_iff.mp ht)
    rw [h₂.kept p ht, h₁.kept p hp]

theorem modify {f : Proc → Proc} (hpar : (f (s.proc p)).parent = (s.proc p).parent)
    (hfork : (f (s.proc p)).thread.forking = (s.proc p).thread.forking)
    (hst : (f (s.proc p)).state = (s.proc p).state ∨ (s.proc p).state.Alive ∧ (f (s.proc p)).state.Alive) :
    Quiet s (s.modify p f) where
  initproc := rfl
  parent _ := modify_field (·.parent) hpar
  forking _ := modify_field (·.thread.forking) hfork
  alive q hq := by
    rw [modify_proc]
    split
    · next h =>
      subst h
      rcases hst with hst | ⟨-, hst⟩
      · rw [hst]; exact hq
      · exact hst
    · exact hq
  kept q hq := by
    rw [modify_proc]
    split
    · next h =>
      subst h
      rcases hst with hst | ⟨hst, -⟩
      · exact hst
      · exact absurd hst hq
    · rfl

theorem of_proc (hi : t.initproc = s.initproc) (hp : t.proc = s.proc) : Quiet s t :=
  ⟨hi, fun _ => by rw [hp], fun _ => by rw [hp], fun _ h => by rw [hp]; exact h, fun _ _ => by rw [hp]⟩

theorem backToScheduler : Quiet s (s.backToScheduler c p) :=
  (of_proc rfl rfl : Quiet s (s.setCpu c none)).trans (modify rfl rfl (.inl rfl))

theorem wakeup1 {ch : Option Chan} : Quiet s (s.wakeup1 ch) where
  initproc := rfl
  parent _ := wakeup1_field (·.parent) fun _ _ => rfl
  forking _ := wakeup1_field (·.thread.forking) fun _ _ => rfl
  alive q hq := by
    rw [wakeup1_proc]
    split
    · exact .inr (.inl rfl)
    · exact hq
  kept q hq := by
    rw [wakeup1_proc]
    split
    · next h => exact absurd (.inl h.1) hq
    · rfl

theorem sleepOn {ch : Chan} {th : Thread} (hp : (s.proc p).state.Alive) (hth : th.forking = none)
    (hf : (s.proc p).thread.forking = none) : Quiet s (s.sleepOn c p ch th) := by
  have hm : Quiet s (s.modify p fun x => { x with chan := some ch, state := .sleeping, thread := th }) :=
    modify rfl (hth.trans hf.symm) (.inr ⟨hp, .inl rfl⟩)
  exact hm.trans backToScheduler

theorem kill {pid : Int} : Quiet s (s.kill pid) := by
  unfold Ptable.kill
  split
  · exact refl s
  · next p _ =>
    refine modify rfl rfl ?_
    by_cases hp : (s.proc p).state = .sleeping
    · exact .inr ⟨.inl hp, by simp [hp, ProcState.Alive]⟩
    · exact .inl (by simp [hp])

theorem dispatched {r : Nat} (hp : (s.proc p).state = .runnable) : Quiet s (s.dispatched c p r) := by
  have h1 : Quiet s (s.setCpu c (some p)) := of_proc rfl rfl
  have h2 : Quiet (s.setCpu c (some p)) ((s.setCpu c (some p)).setState p .running) :=
    modify rfl rfl (.inr ⟨.inr (.inl hp), .inr (.inr rfl)⟩)
  exact (h1.trans h2).trans (of_proc rfl rfl)

end Quiet

theorem Tree.quiet (h : Tree s) (hq : Quiet s t) : Tree t where
  boot hi p := (hq.state_iff (by simp [ProcState.Alive])).mpr (h.boot (hq.initproc ▸ hi) p)
  init i hi := hq.alive i (h.init i (hq.initproc ▸ hi))
  parent p hp hi := by
    rw [hq.alive_iff, hq.state_iff (by simp [ProcState.Alive])] at hp
    obtain ⟨r, hr, ha⟩ := h.parent p hp (hq.initproc ▸ hi)
    exact ⟨r, (hq.parent p).trans hr, hq.alive r ha⟩
  root i hi := (hq.parent i).trans (h.root i (hq.initproc ▸ hi))
  self p hp := h.self p (hq.parent p ▸ hp)
  unused p hp := (hq.parent p).trans (h.unused p ((hq.state_iff (by simp [ProcState.Alive])).mp hp))
  forker p np b hp := by
    obtain ⟨h1, h2, h3⟩ := h.forker p np b (hq.forking p ▸ hp)
    exact ⟨hq.alive p h1, (hq.state_iff (by simp [ProcState.Alive])).mpr h2, (hq.parent np).trans h3⟩
  embryo np hnp := by
    obtain ⟨p, b, hp⟩ := h.embryo np ((hq.state_iff (by simp [ProcState.Alive])).mp hnp)
    exact ⟨p, b, (hq.forking p).trans hp⟩
  unique p q np b b' hp hq' := h.unique p q np b b' (hq.forking p ▸ hp) (hq.forking q ▸ hq')

/-! ### Steps that change it

Each is given by the states, parents and forks of the two tables, slot by slot. -/

structure Rebuilds (s t : Ptable) (p np : Slot) : Prop where
  initproc : t.initproc = s.initproc
  dead : ¬(s.proc np).state.Alive
  state : ∀ q, q ≠ np → (t.proc q).state = (s.proc q).state
  parent : ∀ q, q ≠ np → (t.proc q).parent = (s.proc q).parent
  forking : ∀ q, q ≠ p → (t.proc q).thread.forking = (s.proc q).thread.forking
  before : ∀ n b, (s.proc p).thread.forking = some (n, b) → n = np
  owner : ∀ q b, (s.proc q).thread.forking = some (np, b) → q = p

theorem Rebuilds.alive (hr : Rebuilds s t p np) (hq : (s.proc q).state.Alive) : (t.proc q).state.Alive := by
  rw [hr.state q]
  · exact hq
  · rintro rfl
    exact hr.dead hq

section

variable (h : Tree s)
include h

theorem Tree.rebuild (hr : Rebuilds s t p np) (hused : (s.proc q).state ≠ .unused)
    (hparent : (t.proc np).state.Alive ∨ (t.proc np).state = .zombie →
      ∃ q, (t.proc np).parent = some q ∧ (s.proc q).state.Alive) (hself : (t.proc np).parent ≠ some np)
    (hunused : (t.proc np).state = .unused → (t.proc np).parent = none)
    (hforker : ∀ n b, (t.proc p).thread.forking = some (n, b) → n = np ∧ (s.proc p).state.Alive ∧
      (t.proc np).state = .embryo ∧ (t.proc np).parent = if b then some p else none)
    (hembryo : (t.proc np).state = .embryo → ∃ b, (t.proc p).thread.forking = some (np, b)) : Tree t := by
  have hinit : ∀ i, t.initproc = some i → s.initproc = some i ∧ i ≠ np := by
    intro i hi
    rw [hr.initproc] at hi
    exact ⟨hi, fun hin => hr.dead (hin ▸ h.init i hi)⟩
  -- A fork of another slot is an old one, and not by `p`.
  have hold : ∀ q n b, q ≠ p → (t.proc q).thread.forking = some (n, b) →
      (s.proc q).thread.forking = some (n, b) ∧ n ≠ np := by
    intro q n b hqp hq
    rw [hr.forking q hqp] at hq
    refine ⟨hq, ?_⟩
    rintro rfl
    exact hqp (hr.owner q b hq)
  refine ⟨?_, ?_, ?_, ?_, ?_, ?_, ?_, ?_, ?_⟩
  · intro hi
    obtain ⟨i, hi'⟩ := h.init_isSome hused
    simp [hr.initproc, hi'] at hi
  · intro i hi
    exact hr.alive (h.init i (hinit i hi).1)
  · intro q hq hqi
    by_cases hqn : q = np
    · subst hqn
      obtain ⟨r, hpar, ha⟩ := hparent hq
      exact ⟨r, hpar, hr.alive ha⟩
    · rw [hr.state q hqn] at hq
      obtain ⟨r, hpar, ha⟩ := h.parent q hq (hr.initproc ▸ hqi)
      exact ⟨r, (hr.parent q hqn).trans hpar, hr.alive ha⟩
  · intro i hi
    obtain ⟨hi, hin⟩ := hinit i hi
    exact (hr.parent i hin).trans (h.root i hi)
  · intro q
    by_cases hqn : q = np
    · exact hqn ▸ hself
    · rw [hr.parent q hqn]
      exact h.self q
  · intro q hq
    by_cases hqn : q = np
    · subst hqn
      exact hunused hq
    · rw [hr.state q hqn] at hq
      exact (hr.parent q hqn).trans (h.unused q hq)
  · intro q n b hq
    by_cases hqp : q = p
    · subst hqp
      obtain ⟨rfl, ha, hst, hpar⟩ := hforker n b hq
      exact ⟨hr.alive ha, hst, hpar⟩
    · obtain ⟨hq, hnn⟩ := hold q n b hqp hq
      obtain ⟨ha, hst, hpar⟩ := h.forker q n b hq
      exact ⟨hr.alive ha, (hr.state n hnn).trans hst, (hr.parent n hnn).trans hpar⟩
  · intro n hn
    by_cases hnn : n = np
    · subst hnn
      exact ⟨p, hembryo hn⟩
    · rw [hr.state n hnn] at hn
      obtain ⟨q, b, hq⟩ := h.embryo n hn
      refine ⟨q, b, (hr.forking q ?_).trans hq⟩
      rintro rfl
      exact hnn (hr.before n b hq)
  · intro q r n b b' hq hr'
    by_cases hqp : q = p <;> by_cases hrp : r = p
    · rw [hqp, hrp]
    · exact absurd (hforker n b (hqp ▸ hq)).1 (hold r n b' hrp hr').2
    · exact absurd (hforker n b' (hrp ▸ hr')).1 (hold q n b hqp hq).2
    · exact h.unique q r n b b' (hold q n b hqp hq).1 (hold r n b' hrp hr').1

theorem Tree.alloc (hp : (s.proc p).state.Alive) (hf : (s.proc p).thread.forking = none)
    (hnp : (s.proc np).state = .unused) (hi : t.initproc = s.initproc)
    (hst : ∀ q, (t.proc q).state = if q = np then .embryo else (s.proc q).state)
    (hpar : ∀ q, (t.proc q).parent = (s.proc q).parent) (hfork : ∀ q, (t.proc q).thread.forking =
      if q = p then some (np, false) else if q = np then none else (s.proc q).thread.forking) : Tree t := by
  have hdead : ¬(s.proc np).state.Alive := by simp [hnp, ProcState.Alive]
  have hnone : (t.proc np).parent = none := (hpar np).trans (h.unused np hnp)
  have hr : Rebuilds s t p np := by
    refine ⟨hi, hdead, fun q hq => by rw [hst, if_neg hq], fun q _ => hpar q, ?_, by simp [hf], ?_⟩
    · intro q hqp
      rw [hfork, if_neg hqp]
      split
      · next hqn =>
        cases hq : (s.proc q).thread.forking with
        | none => rfl
        | some nb => exact absurd (h.forker q nb.1 nb.2 hq).1 (hqn ▸ hdead)
      · rfl
    · -- An older fork cannot own `np`, which was UNUSED.
      intro q b hq
      have := (h.forker q np b hq).2.1
      simp [hnp] at this
  refine h.rebuild hr (q := p) ?_ (by simp [hst, ProcState.Alive]) (by simp [hnone]) (fun _ => hnone) ?_ ?_
  · intro hu
    simp [hu, ProcState.Alive] at hp
  · intro n b hb
    rw [hfork, if_pos rfl] at hb
    cases hb
    exact ⟨rfl, hp, by simp [hst], by simp [hnone]⟩
  · exact fun _ => ⟨false, by rw [hfork, if_pos rfl]⟩

theorem Tree.rebuilds_fork {b : Bool} (hf : (s.proc p).thread.forking = some (np, b))
    (hi : t.initproc = s.initproc) (hst : ∀ q, q ≠ np → (t.proc q).state = (s.proc q).state)
    (hpar : ∀ q, q ≠ np → (t.proc q).parent = (s.proc q).parent)
    (hfork : ∀ q, q ≠ p → (t.proc q).thread.forking = (s.proc q).thread.forking) : Rebuilds s t p np := by
  refine ⟨hi, ?_, hst, hpar, hfork, ?_, fun q b' hq => h.unique q p np b' b hq hf⟩
  · simp [(h.forker p np b hf).2.1, ProcState.Alive]
  · intro n b' hn
    rw [hf] at hn
    cases hn
    rfl

theorem Tree.abandon (hf : (s.proc p).thread.forking = some (np, false)) (hi : t.initproc = s.initproc)
    (hst : ∀ q, (t.proc q).state = if q = np then .unused else (s.proc q).state)
    (hpar : ∀ q, (t.proc q).parent = (s.proc q).parent)
    (hfork : ∀ q, (t.proc q).thread.forking = if q = p then none else (s.proc q).thread.forking) : Tree t := by
  obtain ⟨-, hnp, hpn⟩ := h.forker p np false hf
  have hr := h.rebuilds_fork hf hi (fun q hq => by rw [hst, if_neg hq]) (fun q _ => hpar q)
    fun q hq => by rw [hfork, if_neg hq]
  have hnone : (t.proc np).parent = none := by simpa [hpar] using hpn
  exact h.rebuild hr (q := np) (by simp [hnp]) (by simp [hst, ProcState.Alive]) (by simp [hnone])
    (fun _ => hnone) (by simp [hfork]) (by simp [hst])

theorem Tree.adopt (hf : (s.proc p).thread.forking = some (np, false))
    (hi : t.initproc = s.initproc) (hst : ∀ q, (t.proc q).state = (s.proc q).state)
    (hpar : ∀ q, (t.proc q).parent = if q = np then some p else (s.proc q).parent)
    (hfork : ∀ q, (t.proc q).thread.forking =
      if q = p then some (np, true) else (s.proc q).thread.forking) : Tree t := by
  obtain ⟨hp, hnp, -⟩ := h.forker p np false hf
  have hr := h.rebuilds_fork hf hi (fun q _ => hst q) (fun q hq => by rw [hpar, if_neg hq])
    fun q hq => by rw [hfork, if_neg hq]
  have hemb : (t.proc np).state = .embryo := (hst np).trans hnp
  refine h.rebuild hr (q := np) (by simp [hnp]) (by simp [hemb, ProcState.Alive]) ?_ (by simp [hemb]) ?_ ?_
  · rw [hpar, if_pos rfl]
    rintro ⟨⟩
    exact hr.dead hp
  · intro n b hb
    rw [hfork, if_pos rfl] at hb
    cases hb
    exact ⟨rfl, hp, hemb, by simp [hpar]⟩
  · exact fun _ => ⟨true, by rw [hfork, if_pos rfl]⟩

theorem Tree.born (hf : (s.proc p).thread.forking = some (np, true)) (hi : t.initproc = s.initproc)
    (hst : ∀ q, (t.proc q).state = if q = np then .runnable else (s.proc q).state)
    (hpar : ∀ q, (t.proc q).parent = (s.proc q).parent)
    (hfork : ∀ q, (t.proc q).thread.forking = if q = p then none else (s.proc q).thread.forking) : Tree t := by
  obtain ⟨hp, hnp, hpn⟩ := h.forker p np true hf
  have hr := h.rebuilds_fork hf hi (fun q hq => by rw [hst, if_neg hq]) (fun q _ => hpar q)
    fun q hq => by rw [hfork, if_neg hq]
  have hchild : (t.proc np).parent = some p := by simpa [hpar] using hpn
  refine h.rebuild hr (q := np) (by simp [hnp]) (fun _ => ⟨p, hchild, hp⟩) ?_ (by simp [hst])
    (by simp [hfork]) (by simp [hst])
  rw [hpar]
  exact h.self np

theorem Tree.exit (hp : (s.proc p).state.Alive) (hf : (s.proc p).thread.forking = none)
    (hni : s.initproc ≠ some p) (hi : t.initproc = s.initproc) (hzom : (t.proc p).state = .zombie)
    (halive : ∀ q, q ≠ p → (s.proc q).state.Alive → (t.proc q).state.Alive)
    (hkept : ∀ q, q ≠ p → ¬(s.proc q).state.Alive → (t.proc q).state = (s.proc q).state)
    (hpar : ∀ q, (t.proc q).parent = if (s.proc q).parent = some p then s.initproc else (s.proc q).parent)
    (hfork : ∀ q, (t.proc q).thread.forking = (s.proc q).thread.forking) : Tree t := by
  obtain ⟨i, hsi⟩ := h.init_isSome (p := p) fun h0 => by simp [h0, ProcState.Alive] at hp
  have hip : i ≠ p := by
    rintro rfl
    exact hni hsi
  have hback : ∀ q, q ≠ p → (t.proc q).state.Alive → (s.proc q).state.Alive := by
    intro q hq ht
    by_contra hs
    rw [hkept q hq hs] at ht
    exact hs ht
  have hstate : ∀ q st, q ≠ p → ¬st.Alive → (t.proc q).state = st → (s.proc q).state = st := by
    rintro q st hq hst rfl
    exact (hkept q hq fun hs => hst (halive q hq hs)).symm
  have hnp : ∀ q st, ¬st.Alive → st ≠ .zombie → (t.proc q).state = st → q ≠ p := by
    rintro q st - hz ht rfl
    exact hz (ht.symm.trans hzom)
  refine ⟨?_, ?_, ?_, ?_, ?_, ?_, ?_, ?_, ?_⟩
  · intro hi'
    simp [hi, hsi] at hi'
  · intro j hj
    rw [hi, hsi] at hj
    cases hj
    exact halive i hip (h.init i hsi)
  · intro q hq hqi
    -- The parent before the exit, and init in its place if it was `p`.
    have hs : (s.proc q).state.Alive ∨ (s.proc q).state = .zombie := by
      by_cases hqp : q = p
      · exact .inl (hqp ▸ hp)
      · rcases hq with hq | hq
        · exact .inl (hback q hqp hq)
        · exact .inr (hstate q _ hqp (by simp [ProcState.Alive]) hq)
    obtain ⟨r, hr, ha⟩ := h.parent q hs (hi ▸ hqi)
    rw [hpar, hr]
    by_cases hrp : r = p
    · rw [if_pos (by rw [hrp]), hsi]
      exact ⟨i, rfl, halive i hip (h.init i hsi)⟩
    · rw [if_neg (by simpa using hrp)]
      exact ⟨r, rfl, halive r hrp ha⟩
  · intro j hj
    rw [hpar, h.root j (hi ▸ hj)]
    simp
  · intro q hq
    rw [hpar] at hq
    split at hq
    · next hqp => simp [h.root q hq] at hqp
    · exact h.self q hq
  · intro q hq
    have hqp := hnp q _ (by simp [ProcState.Alive]) (by simp) hq
    rw [hpar, h.unused q (hstate q _ hqp (by simp [ProcState.Alive]) hq)]
    simp
  · intro q n b hq
    rw [hfork] at hq
    obtain ⟨h1, h2, h3⟩ := h.forker q n b hq
    have hqp : q ≠ p := by
      rintro rfl
      simp [hf] at hq
    have hnp' : n ≠ p := by
      rintro rfl
      simp [h2, ProcState.Alive] at hp
    refine ⟨halive q hqp h1, ?_, ?_⟩
    · rw [hkept n hnp' (by simp [h2, ProcState.Alive]), h2]
    · rw [hpar, h3]
      cases b <;> simp [hqp]
  · intro n hn
    have hnp' := hnp n _ (by simp [ProcState.Alive]) (by simp) hn
    obtain ⟨q, b, hq⟩ := h.embryo n (hstate n _ hnp' (by simp [ProcState.Alive]) hn)
    exact ⟨q, b, (hfork q).trans hq⟩
  · intro q r n b b' hq hr
    exact h.unique q r n b b' (hfork q ▸ hq) (hfork r ▸ hr)

theorem Tree.reap (hq : (s.proc q).state = .zombie) (hi : t.initproc = s.initproc)
    (hst : ∀ r, (t.proc r).state = if r = q then .unused else (s.proc r).state)
    (hpar : ∀ r, (t.proc r).parent = if r = q then none else (s.proc r).parent)
    (hfork : ∀ r, (t.proc r).thread.forking = (s.proc r).thread.forking) : Tree t := by
  have hdead : ¬(s.proc q).state.Alive := by simp [hq, ProcState.Alive]
  -- A ZOMBIE neither forks nor is being built.
  have hforker : ∀ n b, (s.proc q).thread.forking ≠ some (n, b) := fun n b hn =>
    hdead (h.forker q n b hn).1
  have hr : Rebuilds s t q q := by
    refine ⟨hi, hdead, fun r hr => by rw [hst, if_neg hr], fun r hr => by rw [hpar, if_neg hr],
      fun r _ => hfork r, fun n b hn => absurd hn (hforker n b), ?_⟩
    intro r b hb
    have := (h.forker r q b hb).2.1
    simp [hq] at this
  exact h.rebuild hr (q := q) (by simp [hq]) (by simp [hst, ProcState.Alive]) (by simp [hpar])
    (fun _ => by simp [hpar]) (fun n b hn => absurd (hfork q ▸ hn) (hforker n b)) (by simp [hst])

theorem Tree.userinit (hs : s.initproc = none) (hi : t.initproc = some p)
    (hst : ∀ q, (t.proc q).state = if q = p then .runnable else (s.proc q).state)
    (hpar : ∀ q, (t.proc q).parent = (s.proc q).parent)
    (hfork : ∀ q, (t.proc q).thread.forking = if q = p then none else (s.proc q).thread.forking) : Tree t := by
  have hempty := h.boot hs
  have hother : ∀ q, q ≠ p → (t.proc q).state = .unused := fun q hq => by rw [hst, if_neg hq, hempty q]
  have hnofork : ∀ q, (t.proc q).thread.forking = none := by
    intro q
    rw [hfork]
    split
    · rfl
    · cases hq : (s.proc q).thread.forking with
      | none => rfl
      | some nb =>
        have := (h.forker q nb.1 nb.2 hq).1
        simp [hempty q, ProcState.Alive] at this
  refine ⟨by simp [hi], ?_, ?_, ?_, ?_, ?_, ?_, ?_, ?_⟩
  · intro i hi'
    rw [hi] at hi'
    cases hi'
    rw [hst, if_pos rfl]
    exact .inr (.inl rfl)
  · intro q hq hqi
    have hqp : q ≠ p := by
      rintro rfl
      exact hqi hi
    rw [hother q hqp] at hq
    simp [ProcState.Alive] at hq
  · intro i _
    rw [hpar]
    exact h.unused i (hempty i)
  · intro q
    rw [hpar]
    exact h.self q
  · intro q _
    rw [hpar]
    exact h.unused q (hempty q)
  · intro q n b hq
    simp [hnofork q] at hq
  · intro n hn
    by_cases hnp : n = p
    · rw [hst, if_pos hnp] at hn
      cases hn
    · simp [hother n hnp] at hn
  · intro q r n b b' hq
    simp [hnofork q] at hq

end

end Ptable
end Xv6
