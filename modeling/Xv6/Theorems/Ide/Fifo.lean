import Xv6.Theorems.Ide.Queue

/-! Runs of the disk queue: commands are started one at a time, each once, in the order of the appends; a caller
    returns when its own is finished. -/

namespace Xv6
open Function Option
namespace Ide

variable {P : Type} [DecidableEq P] {s t : Ide P} {p : P} {b : Fin NBUF} {k : IdeCmd}

theorem Inv.next (h : Inv s) {l : Label P} (hs : s.next l = some t) : Inv t := by
  cases l with
  | acquire p b =>
    simp only [Ide.next, ite_none_right_eq_some, some.injEq] at hs
    obtain ⟨⟨-, hl⟩, rfl⟩ := hs
    exact h.setBuf (h.idle_of_lock fun q hq => (by rw [hl] at hq; cases hq))
  | release p b =>
    simp only [Ide.next, ite_none_right_eq_some, some.injEq] at hs
    obtain ⟨⟨hp, hl⟩, rfl⟩ := hs
    exact h.setBuf (h.idle_of_lock fun q hq => some.inj (hl.symm.trans hq) ▸ hp)
  | change p b dirty data =>
    simp only [Ide.next, ite_none_right_eq_some, some.injEq] at hs
    obtain ⟨⟨hp, hl⟩, rfl⟩ := hs
    exact h.setBuf (h.idle_of_lock fun q hq => some.inj (hl.symm.trans hq) ▸ hp)
  | recycle b dev blockno =>
    simp only [Ide.next, ite_none_right_eq_some, some.injEq] at hs
    obtain ⟨hl, rfl⟩ := hs
    exact h.setBuf (h.idle_of_lock fun q hq => (by rw [hl] at hq; cases hq))
  | iderw p b =>
    simp only [Ide.next, ite_none_right_eq_some] at hs
    exact h.iderw hs.1 hs.2
  | enter p =>
    simp only [Ide.next] at hs
    split at hs
    · exact h.enter ‹_› ‹_› hs
    · cases hs
  | sleep p =>
    simp only [Ide.next] at hs
    split at hs
    · cases hs
      exact h.sleep ‹_› ‹_›
    · cases hs
  | doze p =>
    simp only [Ide.next] at hs
    split at hs
    · cases hs
      exact h.doze ‹_›
    · cases hs
  | kill p =>
    simp only [Ide.next] at hs
    split at hs
    · cases hs
      exact h.kill ‹_›
    · cases hs
  | resume p =>
    simp only [Ide.next] at hs
    split at hs
    · cases hs
      exact h.resume ‹_› ‹_›
    · cases hs
  | complete =>
    simp only [Ide.next] at hs
    split at hs
    · rename_i k hd
      cases hs
      have hdev := h.device
      unfold DeviceOk at hdev
      rw [hd] at hdev
      exact ⟨⟨h.chain, h.pend, h.inside, h.started, h.finished⟩, h.late, h.wants, h.proc, h.plock, hdev⟩
    · cases hs
  | ideintr =>
    simp only [Ide.next] at hs
    split at hs
    · cases hs
      exact h.ideintr ‹_› ‹_›
    · cases hs
  | wakeup =>
    simp only [Ide.next] at hs
    split at hs
    · exact h.wakeup ‹_› ‹_› hs
    · cases hs

theorem reach_inv (h : (machine P).Reach s) : Inv s := by
  refine Machine.Reach.invariant ?_ (fun _ _ _ h hs => h.next hs) h
  rintro _ ⟨disk, havedisk1, buf, rfl⟩
  exact ⟨⟨rfl, by simp, fun p b hp => (by cases hp), rfl, rfl⟩, fun p b hp => (by cases hp),
    fun p b hp => (by cases hp), by simp, by simp, rfl, .inl rfl⟩

/-- Data that the disk has for `ideintr` is what the block now holds, and what a write has sent. -/
def Landed (s : Ide P) : Prop :=
  ∀ k data, s.device = .done k data → data = s.disk (k.drive, k.blockno) ∧ ∀ d, k.payload = some d → data = d

omit [DecidableEq P] in
theorem Landed.of_eq (h : s.Landed) (hd : t.device = s.device) (hk : t.disk = s.disk) : t.Landed := by
  unfold Landed
  rw [hd, hk]
  exact h

omit [DecidableEq P] in
theorem Landed.idestart (hs : s.idestart b = some t) : t.Landed := by
  rw [idestart_some hs]
  exact fun k data hd => (by cases hd)

theorem Landed.next (h : s.Landed) (hi : Inv s) {l : Label P} (hs : s.next l = some t) : t.Landed := by
  cases l with
  | acquire p b | release p b | change p b dirty data | recycle b dev blockno =>
    simp only [Ide.next, ite_none_right_eq_some, some.injEq] at hs
    obtain ⟨-, rfl⟩ := hs
    exact h.of_eq rfl rfl
  | iderw p b =>
    simp only [Ide.next, ite_none_right_eq_some, Ide.iderw] at hs
    replace hs := hs.2
    split_ifs at hs
    cases hs
    exact h.of_eq rfl rfl
  | enter p =>
    simp only [Ide.next] at hs
    split at hs
    · obtain ⟨qnext, -, he⟩ := hi.enter_eq ‹_›
      rw [he] at hs
      split_ifs at hs
      · exact Landed.idestart hs
      · cases hs
        exact h.of_eq rfl rfl
    · cases hs
  | sleep p | doze p | kill p =>
    simp only [Ide.next] at hs
    split at hs
    · cases hs
      exact h.of_eq rfl rfl
    · cases hs
  | resume p =>
    simp only [Ide.next, test] at hs
    split at hs
    · split_ifs at hs
      · cases hs
        exact h.of_eq rfl rfl
      · cases hs
        exact h.of_eq rfl rfl
    · cases hs
  | complete =>
    simp only [Ide.next] at hs
    split at hs
    · rename_i k _
      cases hs
      intro k' data hd
      cases hd
      refine ⟨rfl, fun d hd => ?_⟩
      simp only [hd, update_self]
    · cases hs
  | ideintr =>
    simp only [Ide.next, Ide.ideintr] at hs
    split at hs
    · cases hs
      split <;> exact fun k data hd => (by cases hd)
    · cases hs
  | wakeup =>
    simp only [Ide.next, wakeup_eq] at hs
    split at hs
    · split at hs
      · cases hs
        exact h.of_eq rfl rfl
      · exact Landed.idestart hs
    · cases hs

theorem reach_landed (h : (machine P).Reach s) : s.Landed := by
  refine (Machine.Reach.invariant (I := fun s => Inv s ∧ s.Landed) ?_
    (fun _ _ _ h hs => ⟨h.1.next hs, h.2.next h.1 hs⟩) h).2
  rintro _ ⟨disk, havedisk1, buf, rfl⟩
  exact ⟨reach_inv (.init ⟨disk, havedisk1, buf, rfl⟩), fun k data hd => (by cases hd)⟩

theorem Inv.leaves (h : Inv s) {l : Label P} (hs : s.next l = some t) (hp : s.stage p ≠ .out) (ht : t.stage p = .out) :
    ∃ b, s.stage p = .woken b ∧ s.Synced b ∧ t.buf = s.buf := by
  have hgoto : ∀ q x, x ≠ .out → (s.goto q x).stage p ≠ .out := by
    intro q x hx hc
    rw [goto_stage] at hc
    split_ifs at hc
    · exact hx hc
    · exact hp hc
  cases l with
  | acquire q b | release q b | change q b dirty data | recycle b dev blockno =>
    simp only [Ide.next, ite_none_right_eq_some, some.injEq] at hs
    obtain ⟨-, rfl⟩ := hs
    exact absurd ht hp
  | iderw q b =>
    simp only [Ide.next, ite_none_right_eq_some, Ide.iderw] at hs
    replace hs := hs.2
    split_ifs at hs
    cases hs
    exact absurd ht (hgoto q (.wants b) (by simp))
  | enter q =>
    simp only [Ide.next] at hs
    split at hs
    · rename_i b _ _
      obtain ⟨qnext, -, he⟩ := h.enter_eq ‹_›
      have hst : t.stage = (s.goto q (.sleeps b)).stage := by
        rw [he] at hs
        split_ifs at hs
        · rw [idestart_some hs]
          rfl
        · cases hs
          rfl
      rw [hst] at ht
      exact absurd ht (hgoto q _ (by simp))
    · cases hs
  | sleep q | doze q | kill q =>
    simp only [Ide.next] at hs
    split at hs
    · cases hs
      exact absurd ht (hgoto q _ (by simp))
    · cases hs
  | resume q =>
    simp only [Ide.next, test] at hs
    split at hs
    · rename_i b hb _
      split_ifs at hs with hsync
      · cases hs
        change (s.goto q .out).stage p = .out at ht
        rw [goto_stage] at ht
        split_ifs at ht with hpq
        · exact ⟨b, hpq ▸ hb, hsync, rfl⟩
        · exact absurd ht hp
      · cases hs
        exact absurd ht (hgoto q (.sleeps b) (by simp))
    · cases hs
  | complete =>
    simp only [Ide.next] at hs
    split at hs
    · cases hs
      exact absurd ht hp
    · cases hs
  | ideintr =>
    simp only [Ide.next, Ide.ideintr] at hs
    split at hs
    · cases hs
      split at ht <;> exact absurd ht hp
    · cases hs
  | wakeup =>
    simp only [Ide.next, wakeup_eq] at hs
    have hst : ∀ c, (s.woke c).stage p ≠ .out := by
      intro c hc
      rw [woke_stage] at hc
      split_ifs at hc
      exact hp hc
    split at hs
    · rename_i c _ _
      split at hs
      · cases hs
        exact absurd ht (hst c)
      · rw [idestart_some hs] at ht
        exact absurd ht (hst c)
    · cases hs

/-- What the queue promises in a state. -/
structure Fifo (s : Ide P) : Prop where
  /-- At most one command is started and not finished. -/
  one : s.finished.length ≤ s.started.length ∧ s.started.length ≤ s.finished.length + 1
  /-- The commands started are those asked for, in that order, each once. -/
  order : s.started = (s.asked.map (·.2)).take s.started.length
  /-- And so are those finished. -/
  done : s.finished = s.started.take s.finished.length
  /-- The disk works on the first buffer in the queue, with the block number and the data that the buffer has. -/
  active : ∀ k, (s.device = .busy k ∨ ∃ data, s.device = .done k data) →
    ∃ b, s.idequeue = some b ∧ k = s.cmd b ∧ s.started[s.finished.length]? = some (b, k)
  /-- It has work while any command is pending, except within `ideintr`. -/
  works : s.finished.length < s.asked.length → (∀ b, s.idelock ≠ some (.intr b)) → s.device ≠ .ready
  /-- A process waits for a command of its own. -/
  own : ∀ p b, (s.stage p).inside = some b → ∃ k, s.asked[s.ticket p]? = some (p, b, k)
  /-- It does not sleep once that is finished, except until `ideintr` has called `wakeup`. -/
  asleep : ∀ p b, s.stage p = .asleep b → s.ticket p < s.finished.length → s.idelock = some (.intr b)

/-- What the steps from a state do. -/
structure Serves (s : Ide P) : Prop where
  /-- The interrupt finishes the first command of the queue: its buffer holds what the disk has, and what it held if it
      was dirty. -/
  ideintr : ∀ t, s.next .ideintr = some t → ∃ b, s.idequeue = some b ∧ t.finished = s.finished ++ [(b, s.cmd b)] ∧
    t.Synced b ∧ (t.buf b).data = s.disk ((s.buf b).dev % 2, (s.buf b).blockno) ∧
    ((s.buf b).dirty = true → (t.buf b).data = (s.buf b).data) ∧ ∀ c, c ≠ b → t.buf c = s.buf c
  /-- A process returns from `iderw` when its own command is finished, with the buffer valid and not dirty. -/
  returns : ∀ l t p, s.next l = some t → s.stage p ≠ .out → t.stage p = .out →
    ∃ b k, (s.stage p).inside = some b ∧ s.asked[s.ticket p]? = some (p, b, k) ∧ s.ticket p < s.finished.length ∧
    t.Synced b
  /-- No step waits for a busy disk, and the loop over the queue ends. -/
  enter : ∀ p b, s.stage p = .wants b → s.idelock = none → (s.buf b).blockno < FSSIZE → ∃ t, s.next (.enter p) = some t
  wakeup : ∀ b, s.idelock = some (.intr b) → s.plock = none → (∀ c, s.idequeue = some c → (s.buf c).blockno < FSSIZE) →
    ∃ t, s.next .wakeup = some t ∧ ∀ p, t.stage p ≠ .asleep b

omit [DecidableEq P] in
theorem Inv.fifo (h : Inv s) : Fifo s where
  one := by
    refine ⟨h.finished_le, ?_⟩
    have hdev := h.device
    unfold DeviceOk at hdev
    split at hdev <;> omega
  order := h.started
  done := h.finished
  active k hk := by
    obtain ⟨p, b, hask, hq, hcmd, hlen⟩ := h.active hk
    refine ⟨b, hq, hcmd, ?_⟩
    rw [h.started, List.getElem?_take_of_lt (by omega), List.getElem?_map, hask]
    rfl
  works hlt hno hd := by
    have hdev := h.device
    unfold DeviceOk at hdev
    rw [hd] at hdev
    rcases hdev.2 with hq | ⟨b, hb⟩
    · have := List.drop_eq_nil_iff.mp (h.idequeue_none.mp hq)
      omega
    · exact hno b hb
  own p b hp := (h.inside p b hp).2
  asleep p b hp hlt := (h.late p b (by rw [hp]; rfl) hlt).2.2 (.inl hp)

theorem Inv.serves (h : Inv s) (hl : s.Landed) : Serves s where
  ideintr t hs := by
    simp only [Ide.next] at hs
    split at hs
    · rename_i k data hd _
      obtain ⟨p, b, -, hq, hcmd, -⟩ := h.active (.inr ⟨data, hd⟩)
      obtain ⟨hdata, hsent⟩ := hl k data hd
      simp only [Ide.ideintr, hq] at hs
      cases hs
      rw [hcmd] at hdata hsent
      refine ⟨b, hq, by rw [hcmd], ?_⟩
      change ((update s.buf b _ b).valid = true ∧ (update s.buf b _ b).dirty = false) ∧
        (update s.buf b _ b).data = _ ∧ (_ → (update s.buf b _ b).data = _) ∧ _
      rw [update_self]
      refine ⟨⟨rfl, rfl⟩, ?_, fun hdirty => if_pos hdirty, fun c hc => update_of_ne hc ..⟩
      split_ifs with hdirty
      · rw [← hsent _ (show (s.cmd b).payload = some (s.buf b).data from if_pos hdirty), hdata]
        rfl
      · exact hdata
    · cases hs
  returns l t p hs hp ht := by
    obtain ⟨b, hb, hsync, hbuf⟩ := h.leaves hs hp ht
    have hin : (s.stage p).inside = some b := by rw [hb]; rfl
    obtain ⟨-, k, hk⟩ := h.inside p b hin
    refine ⟨b, k, hin, hk, ?_, ?_⟩
    · by_contra hc
      exact (h.pend _ _ _ _ hk (by omega)).2.2.2 hsync
    · unfold Synced
      rw [hbuf]
      exact hsync
  enter p b hp hl hblk := by
    obtain ⟨qnext, -, he⟩ := h.enter_eq hp
    simp only [Ide.next, hp, hl, he]
    split_ifs with hpend
    · rw [idestart_eq (show (s.appended p b qnext).device = .ready from (h.device.ready_of_empty hpend).1)]
      exact ⟨_, if_neg (Nat.not_le.mpr hblk)⟩
    · exact ⟨_, rfl⟩
  wakeup b hb hm hblk := by
    have hst : ∀ p, (s.woke b).stage p ≠ .asleep b := by
      intro p
      rw [woke_stage]
      split_ifs with hc
      · simp
      · exact hc
    simp only [Ide.next, hb, hm, wakeup_eq]
    split
    · exact ⟨_, rfl, hst⟩
    · rename_i c hq
      rw [idestart_eq (show (s.woke b).device = .ready from (h.device.ready_of_intr hb).1)]
      exact ⟨_, if_neg (Nat.not_le.mpr (hblk c hq)), hst⟩

/-- In every run of processes in `iderw` and a disk that raises one interrupt for each command. -/
theorem disk_queue (h : (machine P).Reach s) : Fifo s ∧ Serves s :=
  ⟨(reach_inv h).fifo, (reach_inv h).serves (reach_landed h)⟩

/-- Two processes ask for one block each; the first has its block, the second sleeps and the disk works for it. -/
theorem disk_queue_two : ∃ s : Ide Bool, (machine Bool).Reach s ∧ s.stage false = .out ∧
    s.stage true = .asleep ⟨1, by decide⟩ ∧
    s.asked.length = 2 ∧ s.finished.length = 1 ∧ s.finished = s.started.take 1 ∧ s.device ≠ .ready := by
  let a : Fin NBUF := ⟨0, by decide⟩
  let b : Fin NBUF := ⟨1, by decide⟩
  let run : List (Label Bool) :=
    [.recycle b 0 5, .acquire false a, .acquire true b, .iderw false a, .iderw true b, .enter false, .sleep false,
      .doze false, .enter true, .sleep true, .doze true, .complete, .ideintr, .wakeup, .resume false]
  obtain ⟨s, hs, hout, hasleep, hask, hfin, hl⟩ := exists_of_any
      (o := run.foldlM Ide.next { disk := fun _ _ => 0, havedisk1 := false })
      (p := fun s => s.stage false = .out ∧ s.stage true = .asleep b ∧ s.asked.length = 2 ∧ s.finished.length = 1 ∧
        s.idelock = none) (by decide)
  have hr : (machine Bool).Reach s := .foldlM (fun _ _ _ => id) (.init ⟨_, _, _, rfl⟩) hs
  have hq := (disk_queue hr).1
  refine ⟨s, hr, hout, hasleep, hask, hfin, hfin ▸ hq.done, hq.works (by omega) fun c hc => ?_⟩
  rw [hl] at hc
  cases hc

end Ide
end Xv6
