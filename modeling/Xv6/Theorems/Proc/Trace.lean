import Xv6.Theorems.Proc.ExitWait

/-! The history of the process table: what each slot goes through between `allocproc` and `wait`, and which pids
    `wait` returns. -/

namespace Xv6
open List Option
namespace Ptable

def Event.slot : Event → Slot
  | .alloc p _ | .exited p _ | .waited _ p _ _ => p

variable {s t : Ptable} {p q np : Slot} {c : Cpu} {e : Option Event}

/-! ### What a step records -/

def SameSlot (s t : Ptable) (r : Slot) : Prop :=
  ((t.proc r).state = .zombie ↔ (s.proc r).state = .zombie) ∧
    ((t.proc r).state ≠ .unused → (s.proc r).state ≠ .unused) ∧ (t.proc r).pid = (s.proc r).pid

theorem SameSlot.of_field {r : Slot} (hst : (t.proc r).state = (s.proc r).state)
    (hpid : (t.proc r).pid = (s.proc r).pid) : SameSlot s t r := by
  simp [SameSlot, hst, hpid]

theorem SameSlot.used {r : Slot} (h : SameSlot s t r) (hu : (t.proc r).state ≠ .unused) :
    (s.proc r).state ≠ .unused ∧ (t.proc r).pid = (s.proc r).pid := ⟨h.2.1 hu, h.2.2⟩

theorem SameSlot.trans {u : Ptable} {r : Slot} (h₁ : SameSlot s t r) (h₂ : SameSlot t u r) : SameSlot s u r :=
  ⟨h₂.1.trans h₁.1, fun hu => h₁.2.1 (h₂.2.1 hu), h₂.2.2.trans h₁.2.2⟩

theorem SameSlot.of_quiet {r : Slot} (h : Quiet s t) (hpid : (t.proc r).pid = (s.proc r).pid) : SameSlot s t r :=
  ⟨h.state_iff (by simp [ProcState.Alive]), fun hu hs => hu ((h.state_iff (by simp [ProcState.Alive])).mpr hs), hpid⟩

inductive Records (s t : Ptable) : Option Event → Prop
  | none (hn : t.nextpid = s.nextpid) (hr : ∀ r, SameSlot s t r) : Records s t none
  | alloc (p : Slot) (hs : (s.proc p).state = .unused) (ht : (t.proc p).state ≠ .zombie)
      (hpid : (t.proc p).pid = s.nextpid) (hn : t.nextpid = int32 (s.nextpid + 1))
      (hr : ∀ r, r ≠ p → SameSlot s t r) : Records s t (some (.alloc p s.nextpid))
  | exited (p : Slot) (hs : (s.proc p).state = .running) (ht : (t.proc p).state = .zombie)
      (hpid : (t.proc p).pid = (s.proc p).pid) (hn : t.nextpid = s.nextpid)
      (hr : ∀ r, r ≠ p → SameSlot s t r) : Records s t (some (.exited p (s.proc p).pid))
  | waited (q p : Slot) (hpar : (s.proc p).parent = some q) (hs : (s.proc p).state = .zombie)
      (ht : (t.proc p).state = .unused) (hpid : (t.proc p).pid = 0) (hn : t.nextpid = s.nextpid)
      (hr : ∀ r, r ≠ p → SameSlot s t r) :
      Records s t (some (.waited q p (s.proc p).parent (s.proc p).pid))

theorem Records.pre {u : Ptable} (h : Records t u e) (hn : t.nextpid = s.nextpid) (hq : Quiet s t)
    (hpid : ∀ r, (t.proc r).pid = (s.proc r).pid)
    (hne : ∀ p pid, e ≠ some (.alloc p pid) ∧ e ≠ some (.exited p pid)) : Records s u e := by
  have hss : ∀ r, SameSlot s t r := fun r => SameSlot.of_quiet hq (hpid r)
  cases h with
  | none hn' hr => exact .none (hn'.trans hn) fun r => (hss r).trans (hr r)
  | alloc p => exact absurd rfl (hne p t.nextpid).1
  | exited p => exact absurd rfl (hne p (t.proc p).pid).2
  | waited q p hpar hs ht h0 hn' hr =>
    rw [hpid p, hq.parent p]
    exact .waited q p (hq.parent p ▸ hpar) ((hss p).1.mp hs) ht h0 (hn'.trans hn) fun r hrp => (hss r).trans (hr r hrp)

theorem records_sleepOn {ch : Chan} {th : Thread} (hp : (s.proc p).state = .running) :
    Records s (s.sleepOn c p ch th) none := by
  refine .none rfl fun r => ?_
  rw [SameSlot, sleepOn_proc]
  split
  · next hr =>
    subst hr
    simp [hp]
  · simp

theorem records_setThread {th : Thread} : Records s (s.setThread p th) none :=
  .none rfl fun _ => .of_field setThread_state setThread_pid

theorem records_abandon (hnp : (s.proc np).state = .embryo) :
    Records s ((s.setState np .unused).setThread p .run) none := by
  refine .none rfl fun r => ?_
  rw [SameSlot, setThread_state, setThread_pid,
    setState_pid, setState_state]
  split
  · next hr =>
    subst hr
    simp [hnp]
  · simp

theorem records_waitLoop (hp : (s.proc p).state = .running) (h : s.waitLoop c p = (t, e)) : Records s t e := by
  rcases waitLoop_cases h with ⟨q, hpar, hz, rfl, rfl⟩ | ⟨rfl, rfl | ⟨rfl, -⟩⟩
  · refine .waited p q hpar hz ?_ ?_ rfl fun r hrq => ?_
    · rw [setThread_state, free_proc, if_pos rfl]
    · rw [setThread_pid, free_proc, if_pos rfl]
    · refine .of_field ?_ ?_
      · rw [setThread_state, free_proc, if_neg hrq]
      · rw [setThread_pid, free_proc, if_neg hrq]
  · exact records_setThread
  · exact records_sleepOn hp

theorem records_resume (hp : (s.proc p).state = .running) (h : resume s c p = (t, e)) : Records s t e := by
  unfold resume at h
  split at h
  · cases h
    exact records_setThread
  · cases h
    exact .none rfl fun _ => .of_field (modify_field (·.state) rfl) (modify_field (·.pid) rfl)
  · have hw := records_waitLoop (s := s.modify p fun x => { x with chan := none }) (by simpa using hp) h
    refine hw.pre rfl (Quiet.modify rfl rfl (.inl rfl)) (fun r => modify_field (·.pid) rfl) fun r pid => ?_
    rcases waitLoop_cases h with ⟨x, -, -, rfl, -⟩ | ⟨rfl, -⟩ <;> simp
  all_goals
    cases h
    exact .none rfl fun _ => .of_field rfl rfl

theorem waitLoop_event {p' : Slot} {pid : Int} (h : s.waitLoop c p = (t, e)) :
    e ≠ some (.alloc p' pid) ∧ e ≠ some (.exited p' pid) := by
  rcases waitLoop_cases h with ⟨x, -, -, rfl, -⟩ | ⟨rfl, -⟩ <;> simp

theorem resume_event {p' : Slot} {pid : Int} (h : resume s c p = (t, e)) :
    e ≠ some (.alloc p' pid) ∧ e ≠ some (.exited p' pid) := by
  unfold resume at h
  split at h
  case h_3 => exact waitLoop_event h
  all_goals
    cases h
    simp

theorem records_step (h : Inv s) {op : Op} (hs : s.step op = some (t, e)) : Records s t e := by
  cases op with
  | userinit =>
    obtain ⟨hi, p, u, ha, rfl, rfl⟩ := step_userinit_inv hs
    obtain ⟨hun, rfl⟩ := allocproc_some ha
    refine .alloc p hun (by simp) (by simp) rfl fun r hr => .of_field ?_ ?_
    all_goals simp [modify_proc, hr]
  | fork c =>
    obtain ⟨p, hc, -, ⟨rfl, rfl⟩ | ⟨np, u, ha, rfl, rfl⟩⟩ := step_fork_inv hs
    · exact .none rfl fun _ => .of_field rfl rfl
    · obtain ⟨hun, rfl⟩ := allocproc_some ha
      refine .alloc np hun ?_ ?_ rfl fun r hr => .of_field ?_ ?_
      · rw [setThread_state]
        simp
      · rw [setThread_pid]
        simp
      · rw [setThread_state]
        simp [modify_proc, hr]
      · rw [setThread_pid]
        simp [modify_proc, hr]
  | forkStack c ok =>
    obtain ⟨rfl, p, np, hc, hth, ⟨-, rfl⟩ | ⟨-, rfl⟩⟩ := step_forkStack_inv hs
    · exact records_setThread
    · exact records_abandon (h.tree.forker p np false (by simp [hth, Thread.forking])).2.1
  | forkCopy c ok =>
    obtain ⟨rfl, p, np, hc, hth, ⟨-, rfl⟩ | ⟨-, rfl⟩⟩ := step_forkCopy_inv hs
    · refine .none rfl fun r => .of_field ?_ ?_
      · rw [setThread_state, modify_field (·.state) rfl]
      · rw [setThread_pid, modify_field (·.pid) rfl]
    · exact records_abandon (h.tree.forker p np false (by simp [hth, Thread.forking])).2.1
  | forkRun c =>
    obtain ⟨rfl, p, np, hc, hth, rfl⟩ := step_forkRun_inv hs
    have hnp := (h.tree.forker p np true (by simp [hth, Thread.forking])).2.1
    refine .none rfl fun r => ?_
    rw [SameSlot, setThread_state, setThread_pid,
      setState_pid, setState_state]
    split
    · next hr =>
      subst hr
      simp [hnp]
    · simp
  | exit c =>
    obtain ⟨p, hc, -, hni, rfl, rfl⟩ := step_exit_inv hs
    have hx : Exited c p s (s.exitLocked c p) := exited_exitLocked hni
    refine .exited p (h.cpus.running c p hc) hx.zombie (hx.field (·.pid) (fun _ _ _ _ => rfl) p) hx.nextpid ?_
    intro r hr
    rw [SameSlot, hx.field (·.pid) fun _ _ _ _ => rfl]
    rcases hx.state r hr with h1 | ⟨h1, h2⟩
    · simp [h1]
    · simp [h1, h2]
  | wait c =>
    obtain ⟨p, hc, -, hw⟩ := step_wait_inv hs
    exact records_waitLoop (h.cpus.running c p hc) hw
  | sleep c a =>
    obtain ⟨rfl, p, hc, -, rfl⟩ := step_sleep_inv hs
    exact records_sleepOn (h.cpus.running c p hc)
  | wakeup a =>
    obtain ⟨rfl, rfl⟩ := step_wakeup_inv hs
    exact .none rfl fun r => .of_quiet Quiet.wakeup1 (wakeup1_field (·.pid) fun _ _ => rfl)
  | kill pid =>
    obtain ⟨rfl, rfl⟩ := step_kill_inv hs
    refine .none ?_ fun r => .of_quiet Quiet.kill ?_
    · unfold kill
      split <;> rfl
    · rcases kill_proc s pid r with h | ⟨-, h⟩ <;> rw [h]
  | yield c =>
    obtain ⟨rfl, p, hc, rfl⟩ := step_yield_inv hs
    have hm : Quiet s (s.setState p .runnable) :=
      Quiet.modify rfl rfl (.inr ⟨h.cpus.alive hc, .inr (.inl rfl)⟩)
    refine .none rfl fun r => .of_quiet (hm.trans Quiet.backToScheduler) ?_
    rw [backToScheduler_field (·.pid) fun _ _ => rfl, setState_pid]
  | settickets c n =>
    obtain ⟨rfl, rfl | ⟨p, -, rfl⟩⟩ := step_settickets_inv hs
    · exact .none rfl fun _ => .of_field rfl rfl
    · exact .none rfl fun _ => .of_field (modify_field (·.state) rfl) (modify_field (·.pid) rfl)
  | scheduler c =>
    obtain ⟨-, ⟨rfl, rfl⟩ | ⟨p, r, hp, hr⟩⟩ := step_scheduler_inv hs
    · exact .none rfl fun _ => .of_field rfl rfl
    · have hst : ((s.dispatched c p r).proc p).state = .running := by
        simp [dispatched, setState_state]
      refine (records_resume hst hr).pre rfl (Quiet.dispatched hp) (fun x => ?_) fun _ _ => resume_event hr
      exact setState_field (s := s.setCpu c (some p)) (·.pid) fun _ _ => rfl

/-! ### The life of a slot -/

section Life
variable {tr : List Event} {w w' : Traced} {x : Event}

def lastOf (p : Slot) (tr : List Event) : Option Event := (tr.filter fun x => x.slot = p).getLast?

theorem lastOf_concat : lastOf p (tr ++ [x]) = if x.slot = p then some x else lastOf p tr := by
  by_cases h : x.slot = p <;> simp [lastOf, filter_append, h]

theorem lastOf_eq_some (h : lastOf p tr = some x) : x.slot = p ∧ ∃ a b, tr = a ++ x :: b ∧ ∀ y ∈ b, y.slot ≠ p := by
  induction tr using List.reverseRecOn with
  | nil => simp [lastOf] at h
  | append_singleton l y ih =>
    rw [lastOf_concat] at h
    split at h
    · next hy =>
      cases h
      exact ⟨hy, l, [], rfl, by simp⟩
    · next hy =>
      obtain ⟨hx, a, b, rfl, hb⟩ := ih h
      refine ⟨hx, a, b ++ [y], by simp, fun z hz => ?_⟩
      rcases mem_append.mp hz with hz | hz
      · exact hb z hz
      · rw [mem_singleton.mp hz]
        exact hy

theorem lastOf_cons {a b : List Event} (hx : x.slot = p) (hb : ∀ y ∈ b, y.slot ≠ p) :
    lastOf p (a ++ x :: b) = some x := by
  have : b.filter (fun y => y.slot = p) = [] := by
    rw [filter_eq_nil_iff]
    intro y hy
    simpa using hb y hy
  simp [lastOf, filter_append, hx, this]

theorem concat_eq_append_cons {a b : List Event} {y : Event} (h : tr ++ [x] = a ++ y :: b) :
    (b = [] ∧ a = tr ∧ y = x) ∨ ∃ b', b = b' ++ [x] ∧ tr = a ++ y :: b' := by
  rcases eq_nil_or_concat b with rfl | ⟨b', z, rfl⟩
  · obtain ⟨h1, h2⟩ := append_inj' h rfl
    cases h2
    exact .inl ⟨rfl, h1.symm, rfl⟩
  · rw [concat_eq_append] at h ⊢
    rw [← cons_append, ← append_assoc] at h
    obtain ⟨h1, h2⟩ := append_inj' h rfl
    cases h2
    exact .inr ⟨b', rfl, h1⟩

/-- A slot is a ZOMBIE from its exit to the `wait` of the parent that returns its pid. -/
structure Life (w : Traced) : Prop where
  zombie : ∀ p, (w.table.proc p).state = .zombie → lastOf p w.trace = some (.exited p (w.table.proc p).pid)
  other : ∀ p pid, (w.table.proc p).state ≠ .zombie → lastOf p w.trace ≠ some (.exited p pid)
  afterExit : ∀ a b p pid, w.trace = a ++ .exited p pid :: b → (∃ x ∈ b, x.slot = p) →
    ∃ b₁ b₂ q, b = b₁ ++ .waited q p (some q) pid :: b₂ ∧ ∀ x ∈ b₁, x.slot ≠ p
  beforeWait : ∀ a b q p par pid, w.trace = a ++ .waited q p par pid :: b →
    par = some q ∧ ∃ a₁ a₂, a = a₁ ++ .exited p pid :: a₂ ∧ ∀ x ∈ a₂, x.slot ≠ p

theorem Life.concat (h : Life w) (ht : w'.trace = w.trace ++ [x]) (hz : ∀ p, (w'.table.proc p).state = .zombie →
      lastOf p w'.trace = some (.exited p (w'.table.proc p).pid))
    (ho : ∀ p pid, (w'.table.proc p).state ≠ .zombie → lastOf p w'.trace ≠ some (.exited p pid))
    (hexit : ∀ p pid, lastOf p w.trace = some (.exited p pid) → x.slot = p → ∃ q, x = .waited q p (some q) pid)
    (hwait : ∀ q p par pid, x = .waited q p par pid → par = some q ∧ lastOf p w.trace = some (.exited p pid)) :
    Life w' where
  zombie := hz
  other := ho
  afterExit a b p pid hab hb := by
    rw [ht] at hab
    rcases concat_eq_append_cons hab with ⟨rfl, -, -⟩ | ⟨b', rfl, hw⟩
    · simp at hb
    · by_cases hb' : ∃ y ∈ b', y.slot = p
      · obtain ⟨b₁, b₂, q, rfl, hno⟩ := h.afterExit a b' p pid hw hb'
        exact ⟨b₁, b₂ ++ [x], q, by simp, hno⟩
      · have hno : ∀ y ∈ b', y.slot ≠ p := fun y hy hyp => hb' ⟨y, hy, hyp⟩
        have hx : x.slot = p := by
          obtain ⟨y, hy, hyp⟩ := hb
          rcases mem_append.mp hy with hy | hy
          · exact absurd hyp (hno y hy)
          · rw [← mem_singleton.mp hy]
            exact hyp
        obtain ⟨q, rfl⟩ := hexit p pid (by rw [hw]; exact lastOf_cons rfl hno) hx
        exact ⟨b', [], q, rfl, hno⟩
  beforeWait a b q p par pid hab := by
    rw [ht] at hab
    rcases concat_eq_append_cons hab with ⟨rfl, rfl, hx⟩ | ⟨b', rfl, hw⟩
    · obtain ⟨hpar, hlast⟩ := hwait q p par pid hx.symm
      obtain ⟨-, a₁, a₂, ha, hno⟩ := lastOf_eq_some hlast
      exact ⟨hpar, a₁, a₂, ha, hno⟩
    · exact h.beforeWait a b' q p par pid hw

theorem Life.step (h : Life w) (hr : Records w.table w'.table e) (ht : w'.trace = w.trace ++ e.toList) : Life w' := by
  -- The ZOMBIEs other than in the event's slot are those of before, with the same pid.
  have hsame : ∀ r, SameSlot w.table w'.table r → (w'.table.proc r).state = .zombie →
      lastOf r w.trace = some (.exited r (w'.table.proc r).pid) := by
    intro r hs hz
    rw [hs.2.2]
    exact h.zombie r (hs.1.mp hz)
  cases hr with
  | none hn hr =>
    simp only [toList_none, append_nil] at ht
    refine ⟨fun p hp => ?_, fun p pid hp => ?_, ?_, ?_⟩
    · rw [ht]
      exact hsame p (hr p) hp
    · rw [ht]
      exact h.other p pid fun hz => hp ((hr p).1.mpr hz)
    · rw [ht]
      exact h.afterExit
    · rw [ht]
      exact h.beforeWait
  | alloc p hs htp hpid hn hr =>
    simp only [toList_some] at ht
    have hlast : ∀ r pid, lastOf r w.trace = some (.exited r pid) → r ≠ p := by
      rintro r pid hl rfl
      exact h.other r pid (by simp [hs]) hl
    refine h.concat ht (fun r hz => ?_) (fun r pid hz => ?_) (fun r pid hl hx => ?_) (by simp)
    · have hrp : r ≠ p := by
        rintro rfl
        exact htp hz
      rw [ht, lastOf_concat, if_neg (by simpa [Event.slot] using hrp.symm)]
      exact hsame r (hr r hrp) hz
    · rw [ht, lastOf_concat]
      split
      · simp
      · next hne =>
        have hrp : r ≠ p := by simpa [Event.slot, eq_comm] using hne
        exact h.other r pid fun hz' => hz ((hr r hrp).1.mpr hz')
    · exact absurd (by simpa [Event.slot] using hx.symm) (hlast r pid hl)
  | exited p hs htp hpid hn hr =>
    simp only [toList_some] at ht
    refine h.concat ht (fun r hz => ?_) (fun r pid hz => ?_) (fun r pid hl hx => ?_) (by simp)
    · rw [ht, lastOf_concat]
      split
      · next hrp =>
        have hrp : p = r := by simpa [Event.slot] using hrp
        subst hrp
        rw [hpid]
      · next hrp =>
        have hrp : r ≠ p := by simpa [Event.slot, eq_comm] using hrp
        exact hsame r (hr r hrp) hz
    · have hrp : r ≠ p := by
        rintro rfl
        exact hz htp
      rw [ht, lastOf_concat, if_neg (by simpa [Event.slot] using hrp.symm)]
      exact h.other r pid fun hz' => hz ((hr r hrp).1.mpr hz')
    · have hrp : p = r := by simpa [Event.slot] using hx
      subst hrp
      exact absurd hl (h.other p pid (by simp [hs]))
  | waited q p hpar hs htp hpid hn hr =>
    simp only [toList_some] at ht
    refine h.concat ht (fun r hz => ?_) (fun r pid hz => ?_) (fun r pid hl hx => ?_) fun q' p' par pid hx => ?_
    · have hrp : r ≠ p := by
        rintro rfl
        simp [htp] at hz
      rw [ht, lastOf_concat, if_neg (by simpa [Event.slot] using hrp.symm)]
      exact hsame r (hr r hrp) hz
    · rw [ht, lastOf_concat]
      split
      · simp
      · next hne =>
        have hrp : r ≠ p := by simpa [Event.slot, eq_comm] using hne
        exact h.other r pid fun hz' => hz ((hr r hrp).1.mpr hz')
    · have hrp : p = r := by simpa [Event.slot] using hx
      subst hrp
      rw [h.zombie p hs] at hl
      cases hl
      exact ⟨q, by rw [hpar]⟩
    · cases hx
      exact ⟨hpar, h.zombie p hs⟩

end Life

/-! ### The pids that wait returns -/

section Pids
variable {tr : List Event} {w w' : Traced}

def allocs (tr : List Event) : Nat := tr.countP fun | .alloc _ _ => true | _ => false

def waitedPids (tr : List Event) : List Int := tr.filterMap fun | .waited _ _ _ pid => some pid | _ => none

def nthPid (j : Nat) : Int := int32 (j + 1)

theorem nthPid_inj {i j : Nat} (hj : j < 2 ^ 32) (hij : i < j) : nthPid i ≠ nthPid j := by
  have hlt : ((j : Int) + 1) - (i + 1) < 2 ^ 32 := by omega
  unfold nthPid int32
  exact CInt.wrap_inj (by omega) hlt

/-- Until the pids wrap around, the pids in use and the pids returned are all distinct. -/
structure Pids (w : Traced) : Prop where
  next : w.table.nextpid = nthPid (allocs w.trace)
  used : ∀ p, (w.table.proc p).state ≠ .unused → ∃ j < allocs w.trace, (w.table.proc p).pid = nthPid j
  inj : ∀ p q, (w.table.proc p).state ≠ .unused → (w.table.proc q).state ≠ .unused →
    (w.table.proc p).pid = (w.table.proc q).pid → p = q
  waited : ∀ x ∈ waitedPids w.trace, ∃ j < allocs w.trace, x = nthPid j
  fresh : ∀ p, (w.table.proc p).state ≠ .unused → (w.table.proc p).pid ∉ waitedPids w.trace
  nodup : (waitedPids w.trace).Nodup

theorem Pids.keep (h : Pids w) (hn : w'.table.nextpid = w.table.nextpid) (ha : allocs w'.trace = allocs w.trace)
    (hw : waitedPids w'.trace = waitedPids w.trace)
    (hs : ∀ r, (w'.table.proc r).state ≠ .unused → (w.table.proc r).state ≠ .unused ∧
      (w'.table.proc r).pid = (w.table.proc r).pid) : Pids w' where
  next := by rw [hn, ha, h.next]
  used p hp := by
    obtain ⟨h1, h2⟩ := hs p hp
    rw [h2, ha]
    exact h.used p h1
  inj p q hp hq hpq := by
    obtain ⟨h1, h2⟩ := hs p hp
    obtain ⟨h3, h4⟩ := hs q hq
    exact h.inj p q h1 h3 (by rw [← h2, ← h4, hpq])
  waited x hx := by
    rw [ha]
    exact h.waited x (hw ▸ hx)
  fresh p hp := by
    obtain ⟨h1, h2⟩ := hs p hp
    rw [h2, hw]
    exact h.fresh p h1
  nodup := by rw [hw]; exact h.nodup

theorem Pids.step (h : Pids w) (hr : Records w.table w'.table e) (ht : w'.trace = w.trace ++ e.toList)
    (hb : allocs w'.trace ≤ 2 ^ 32) : Pids w' := by
  cases hr with
  | none hn hr =>
    simp only [toList_none, append_nil] at ht
    exact h.keep hn (by rw [ht]) (by rw [ht]) fun r => (hr r).used
  | exited p hs htp hpid hn hr =>
    refine h.keep hn (by rw [ht]; simp [allocs]) (by rw [ht]; simp [waitedPids]) fun r hu => ?_
    by_cases hrp : r = p
    · subst hrp
      exact ⟨by simp [hs], hpid⟩
    · exact (hr r hrp).used hu
  | alloc p hs htp hpid hn hr =>
    have ha : allocs w'.trace = allocs w.trace + 1 := by rw [ht]; simp [allocs]
    have hw : waitedPids w'.trace = waitedPids w.trace := by rw [ht]; simp [waitedPids]
    rw [h.next] at hpid hn
    -- The new pid differs from all earlier ones.
    have hnew : ∀ j < allocs w.trace, nthPid j ≠ nthPid (allocs w.trace) := fun j hj => nthPid_inj (by omega) hj
    refine ⟨?_, fun r hu => ?_, ?_, fun x hx => ?_, fun r hu => ?_, by rw [hw]; exact h.nodup⟩
    · rw [hn, ha]
      unfold nthPid int32
      rw [CInt.wrap_wrap_add]
      push_cast
      rfl
    · rw [ha]
      by_cases hrp : r = p
      · exact ⟨_, Nat.lt_succ_self _, by rw [hrp, hpid]⟩
      · obtain ⟨h1, h2⟩ := (hr r hrp).used hu
        obtain ⟨j, hj, hpj⟩ := h.used r h1
        exact ⟨j, by omega, by rw [h2, hpj]⟩
    · -- Among the old slots the pids were distinct, and none has the new one.
      have hold : ∀ r, r ≠ p → (w'.table.proc r).state ≠ .unused →
          (w'.table.proc r).pid ≠ (w'.table.proc p).pid := by
        intro r hrp hu heq
        obtain ⟨h1, h2⟩ := (hr r hrp).used hu
        obtain ⟨j, hj, hpj⟩ := h.used r h1
        rw [h2, hpj, hpid] at heq
        exact hnew j hj heq
      intro r r' hu hu' heq
      by_cases hrp : r = p <;> by_cases hrp' : r' = p
      · rw [hrp, hrp']
      · exact absurd (hrp ▸ heq).symm (hold r' hrp' hu')
      · exact absurd (hrp' ▸ heq) (hold r hrp hu)
      · obtain ⟨h1, h2⟩ := (hr r hrp).used hu
        obtain ⟨h3, h4⟩ := (hr r' hrp').used hu'
        exact h.inj r r' h1 h3 (by rw [← h2, ← h4, heq])
    · rw [hw] at hx
      obtain ⟨j, hj, hxj⟩ := h.waited x hx
      exact ⟨j, by omega, hxj⟩
    · rw [hw]
      by_cases hrp : r = p
      · intro hx
        rw [hrp, hpid] at hx
        obtain ⟨j, hj, hxj⟩ := h.waited _ hx
        exact hnew j hj hxj.symm
      · obtain ⟨h1, h2⟩ := (hr r hrp).used hu
        rw [h2]
        exact h.fresh r h1
  | waited q p hpar hs htp hpid hn hr =>
    have ha : allocs w'.trace = allocs w.trace := by rw [ht]; simp [allocs]
    have hw : waitedPids w'.trace = waitedPids w.trace ++ [(w.table.proc p).pid] := by rw [ht]; simp [waitedPids]
    have hsu : (w.table.proc p).state ≠ .unused := by simp [hs]
    have hrp : ∀ r, (w'.table.proc r).state ≠ .unused → r ≠ p := by
      rintro r hu rfl
      exact hu htp
    refine ⟨by rw [hn, ha, h.next], fun r hu => ?_, fun r r' hu hu' heq => ?_, fun x hx => ?_, fun r hu => ?_, ?_⟩
    · obtain ⟨h1, h2⟩ := (hr r (hrp r hu)).used hu
      rw [h2, ha]
      exact h.used r h1
    · obtain ⟨h1, h2⟩ := (hr r (hrp r hu)).used hu
      obtain ⟨h3, h4⟩ := (hr r' (hrp r' hu')).used hu'
      exact h.inj r r' h1 h3 (by rw [← h2, ← h4, heq])
    · rw [hw] at hx
      rw [ha]
      rcases mem_append.mp hx with hx | hx
      · exact h.waited x hx
      · rw [mem_singleton.mp hx]
        exact h.used p hsu
    · obtain ⟨h1, h2⟩ := (hr r (hrp r hu)).used hu
      rw [hw, h2]
      intro hx
      rcases mem_append.mp hx with hx | hx
      · exact h.fresh r h1 hx
      · exact hrp r hu (h.inj r p h1 hsu (mem_singleton.mp hx))
    · rw [hw, nodup_append]
      refine ⟨h.nodup, by simp, fun x hx y hy => ?_⟩
      rw [mem_singleton.mp hy]
      rintro rfl
      exact h.fresh p hsu hx

theorem allocs_append {x : List Event} : allocs (tr ++ x) = allocs tr + allocs x := by
  simp [allocs]

end Pids

/-! ### The protocol -/

theorem Traced.step_inv {w w' : Traced} {op : Op} (h : w.step op = some w') :
    ∃ e, w.table.step op = some (w'.table, e) ∧ w'.trace = w.trace ++ e.toList := by
  obtain ⟨⟨t, e⟩, hs, rfl⟩ := map_eq_some_iff.mp h
  exact ⟨e, hs, rfl⟩

theorem reach_run {w : Traced} {ops : List Op} (h : ({} : Traced).run ops = some w) : machine.Reach w :=
  .foldlM (fun _ _ _ => id) (.init rfl) h

theorem reach_inv {w : Traced} (h : machine.Reach w) : Inv w.table ∧ Life w ∧ (allocs w.trace ≤ 2 ^ 32 → Pids w) := by
  refine Machine.Reach.invariant (I := fun w => Inv w.table ∧ Life w ∧ (allocs w.trace ≤ 2 ^ 32 → Pids w))
    ?_ ?_ h
  · rintro w rfl
    refine ⟨Inv.boot, ⟨by simp, by simp [lastOf], by simp, by simp⟩, fun _ => ?_⟩
    exact ⟨by decide, by simp, by simp, by simp [waitedPids], by simp, by simp [waitedPids]⟩
  · rintro w op w' ⟨hinv, hlife, hpids⟩ hstep
    obtain ⟨e, hs, ht⟩ := Traced.step_inv hstep
    have hr := records_step hinv hs
    refine ⟨hinv.step hs, hlife.step hr ht, fun hb => (hpids ?_).step hr ht hb⟩
    rw [ht, allocs_append] at hb
    omega

/-- In every reachable state a process other than init that is SLEEPING, RUNNABLE, RUNNING or a ZOMBIE has a parent that
    is SLEEPING, RUNNABLE or RUNNING, and nobody sleeps in `wait` with a ZOMBIE child. The first that happens to a slot
    after its process exits is a `wait` by its parent that returns its pid, and each `wait` that returns a pid is
    preceded by that exit; and until 2^32 pids have been handed out no pid is returned twice. -/
theorem exit_wait_protocol {w : Traced} (h : machine.Reach w) :
    (∀ p, (w.table.proc p).state.Alive ∨ (w.table.proc p).state = .zombie → w.table.initproc ≠ some p →
      ∃ q, (w.table.proc p).parent = some q ∧ (w.table.proc q).state.Alive) ∧
    (∀ p, (w.table.proc p).state = .sleeping → (w.table.proc p).chan = some (.proc p) →
      ∀ r, (w.table.proc r).parent = some p → (w.table.proc r).state ≠ .zombie) ∧
    (∀ before after p pid, w.trace = before ++ .exited p pid :: after → (∃ x ∈ after, x.slot = p) →
      ∃ between rest q, after = between ++ .waited q p (some q) pid :: rest ∧ ∀ x ∈ between, x.slot ≠ p) ∧
    (∀ before after q p parent pid, w.trace = before ++ .waited q p parent pid :: after →
      parent = some q ∧ ∃ old between, before = old ++ .exited p pid :: between ∧ ∀ x ∈ between, x.slot ≠ p) ∧
    (allocs w.trace ≤ 2 ^ 32 → (waitedPids w.trace).Nodup) := by
  obtain ⟨hinv, hlife, hpids⟩ := reach_inv h
  exact ⟨hinv.tree.parent, fun p hp hc => (hinv.waits p p hp hc).2, hlife.afterExit, hlife.beforeWait,
    fun hb => (hpids hb).nodup⟩

def oneChild : List Op :=
  [.userinit, .scheduler 0, .fork 0, .forkStack 0 true, .forkCopy 0 true, .forkRun 0, .wait 0, .scheduler 0, .exit 0,
    .scheduler 0]

theorem exit_wait_protocol_oneChild : ∃ w, ({} : Traced).run oneChild = some w ∧
    w.trace = [.alloc 0 1, .alloc 1 2, .exited 1 2, .waited 0 1 (some 0) 2] ∧
    (∀ p, (w.table.proc p).state.Alive ∨ (w.table.proc p).state = .zombie → w.table.initproc ≠ some p →
      ∃ q, (w.table.proc p).parent = some q ∧ (w.table.proc q).state.Alive) ∧ (waitedPids w.trace).Nodup := by
  have htr : (({} : Traced).run oneChild).map (·.trace) =
      some [.alloc 0 1, .alloc 1 2, .exited 1 2, .waited 0 1 (some 0) 2] := by decide +kernel
  obtain ⟨w, hw, htr⟩ := map_eq_some_iff.mp htr
  obtain ⟨h1, -, -, -, h5⟩ := exit_wait_protocol (reach_run hw)
  exact ⟨w, hw, htr, h1, h5 (by rw [htr]; decide)⟩

end Ptable
end Xv6
