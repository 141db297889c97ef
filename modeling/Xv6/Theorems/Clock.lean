import Mathlib.Tactic.Common
import Xv6.Clock

/-! `sys_sleep` returns 0 when the ticks it was called for have passed, and nobody sleeps on after the last of them. -/

namespace Xv6
open Option

@[simp] def SleepThread.hasTickslock : SleepThread → Bool
  | .test | .sleep | .handing | .leave _ => true
  | _ => false

@[simp] def SleepThread.hasPtable : SleepThread → Bool
  | .handing | .falling => true
  | _ => false

namespace Clock

variable {P : Type} [DecidableEq P] {s t : Clock P} {p : P} {x : Sleeper}

structure Ok (s : Clock P) (p : P) (x : Sleeper) : Prop where
  since : x.ticks0 = BitVec.ofNat 32 x.since ∧ x.since ≤ s.count
  tickslock : x.thread.hasTickslock = true → s.tickslock = some (some p)
  ptable : x.thread.hasPtable = true → s.ptable = some p
  asleep : x.sleeping = true → x.thread = .asleep
  covered : x.sleeping = true ∨ x.thread = .sleep ∨ x.thread.hasPtable = true →
    s.ticks - x.ticks0 < x.n ∨ s.timer = .wake
  elapsed : x.thread = .leave true ∨ x.thread = .returned true → x.n.toNat ≤ s.count - x.since
  killed : x.thread = .leave false ∨ x.thread = .returned false → x.killed = true

omit [DecidableEq P] in
theorem Ok.awake (h : Ok s p x) (hne : x.thread ≠ .asleep) : x.sleeping = false :=
  Bool.eq_false_iff.mpr (mt h.asleep hne)

structure Inv (s : Clock P) : Prop where
  ticks : s.ticks = BitVec.ofNat 32 s.count
  timer : s.timer ≠ .idle → s.tickslock = some none
  ok : ∀ p, Ok s p (s.proc p)

theorem Inv.process {l : Option (Option P)} {m : Option P} (h : Inv s)
    (hl : l = s.tickslock ∨ s.tickslock = none ∨ s.tickslock = some (some p))
    (hm : m = s.ptable ∨ s.ptable = none ∨ s.ptable = some p) (hx : Ok { s with tickslock := l, ptable := m } p x) :
    Inv { s with proc := Function.update s.proc p x, tickslock := l, ptable := m } := by
  refine ⟨h.ticks, fun ht => ?_, fun q => ?_⟩
  · have hlock := h.timer ht
    rcases hl with rfl | hl | hl
    · exact hlock
    · simp [hl] at hlock
    · simp [hl] at hlock
  · dsimp only
    by_cases hq : q = p
    · subst hq
      rw [Function.update_self]
      exact { hx with }
    · rw [Function.update_of_ne hq]
      refine { h.ok q with tickslock := fun hth => ?_, ptable := fun hth => ?_ }
      · have := (h.ok q).tickslock hth
        grind
      · have := (h.ok q).ptable hth
        grind

theorem toNat_elapsed {a b : Nat} (h : a ≤ b) : (BitVec.ofNat 32 b - BitVec.ofNat 32 a).toNat ≤ b - a := by
  rw [BitVec.toNat_sub, BitVec.toNat_ofNat, BitVec.toNat_ofNat]
  omega

theorem Inv.goto {b : SleepThread} {l : Option (Option P)} {m : Option P} (h : Inv s)
    (hl : l = s.tickslock ∨ s.tickslock = none ∨ s.tickslock = some (some p))
    (hm : m = s.ptable ∨ s.ptable = none ∨ s.ptable = some p) (hlock : b.hasTickslock = true → l = some (some p))
    (hptable : b.hasPtable = true → m = some p) (hawake : (s.proc p).sleeping = false)
    (hcovered : b = .sleep ∨ b.hasPtable = true → s.ticks - (s.proc p).ticks0 < (s.proc p).n ∨ s.timer = .wake)
    (helapsed : b = .leave true ∨ b = .returned true → (s.proc p).n.toNat ≤ s.count - (s.proc p).since)
    (hkilled : b = .leave false ∨ b = .returned false → (s.proc p).killed = true) :
    Inv { s.goto p b with tickslock := l, ptable := m } :=
  h.process hl hm ⟨(h.ok p).since, hlock, hptable, by simp [hawake], by simpa [hawake] using hcovered, helapsed,
    hkilled⟩

theorem Inv.turn (h : Inv s) (hs : s.turn p = some t) : Inv t := by
  have hp := h.ok p
  have hawake := hp.awake
  unfold Clock.turn at hs
  cases hth : (s.proc p).thread with
  | idle => simp [hth] at hs
  | returned ok => simp [hth] at hs
  | test =>
    simp only [hth, some.injEq] at hs
    subst hs
    have hlock := hp.tickslock (by simp [hth])
    refine h.goto (.inl rfl) (.inl rfl) (fun _ => hlock) ?_ (hawake (by simp [hth])) ?_ ?_ ?_
    all_goals split_ifs with hleft hkill
    all_goals simp
    · exact .inl hleft
    · rw [h.ticks, hp.since.1, BitVec.not_lt] at hleft
      exact Nat.le_trans hleft (toNat_elapsed hp.since.2)
    · exact hkill
  | sleep =>
    simp only [hth] at hs
    split_ifs at hs with hfree
    cases hs
    exact h.goto (.inl rfl) (.inr (.inl hfree)) (fun _ => hp.tickslock (by simp [hth])) (fun _ => rfl)
      (hawake (by simp [hth])) (fun _ => hp.covered (by simp [hth])) (by simp) (by simp)
  | handing =>
    simp only [hth, some.injEq] at hs
    subst hs
    exact h.goto (.inr (.inr (hp.tickslock (by simp [hth])))) (.inl rfl) (by simp) (fun _ => hp.ptable (by simp [hth]))
      (hawake (by simp [hth])) (fun _ => hp.covered (by simp [hth])) (by simp) (by simp)
  | falling =>
    simp only [hth, some.injEq] at hs
    subst hs
    exact h.process (.inl rfl) (.inr (.inr (hp.ptable (by simp [hth])))) ⟨hp.since, by simp, by simp, fun _ => rfl,
      fun _ => hp.covered (by simp [hth]), by simp, by simp⟩
  | asleep =>
    simp only [hth] at hs
    split_ifs at hs with hfree
    cases hs
    exact h.goto (.inl rfl) (.inl rfl) (by simp) (by simp) hfree.1 (by simp) (by simp) (by simp)
  | woken =>
    simp only [hth] at hs
    split_ifs at hs with hfree
    cases hs
    exact h.goto (.inr (.inl hfree)) (.inl rfl) (fun _ => rfl) (by simp) (hawake (by simp [hth])) (by simp) (by simp)
      (by simp)
  | leave ok =>
    simp only [hth, some.injEq] at hs
    subst hs
    exact h.goto (.inr (.inr (hp.tickslock (by simp [hth])))) (.inl rfl) (by simp) (by simp) (hawake (by simp [hth]))
      (by simp) (fun hb => hp.elapsed (by simpa [hth] using hb)) fun hb => hp.killed (by simpa [hth] using hb)

omit [DecidableEq P] in
theorem Inv.timerTurn (h : Inv s) (hs : s.timerTurn = some t) : Inv t := by
  unfold Clock.timerTurn at hs
  cases hth : s.timer with
  | idle =>
    simp only [hth] at hs
    split_ifs at hs with hfree
    cases hs
    refine ⟨?_, fun _ => rfl, fun p => ?_⟩
    · rw [h.ticks]
      exact (BitVec.ofNat_add ..).symm
    · have hp := h.ok p
      exact { hp with
        since := ⟨hp.since.1, Nat.le_succ_of_le hp.since.2⟩
        tickslock := fun hx => by simp [hp.tickslock hx] at hfree
        covered := fun _ => .inr rfl
        elapsed := fun hx => Nat.le_trans (hp.elapsed hx) (Nat.sub_le_sub_right (Nat.le_succ _) _) }
  | wake =>
    simp only [hth] at hs
    split_ifs at hs with hfree
    cases hs
    have hlock := h.timer (by simp [hth])
    refine ⟨h.ticks, fun _ => hlock, fun p => ?_⟩
    have hp := h.ok p
    refine { hp with asleep := by simp, covered := ?_ }
    -- nobody is about to sleep: the interrupt has `tickslock`, and `ptable.lock` is free
    rintro (hx | hx | hx)
    · cases hx
    · have := hp.tickslock (by simp_all)
      simp [hlock] at this
    · simp [hp.ptable hx] at hfree
  | leave =>
    simp only [hth, some.injEq] at hs
    subst hs
    have hlock := h.timer (by simp [hth])
    refine ⟨h.ticks, by simp, fun p => { h.ok p with tickslock := fun hx => ?_, covered := fun hx => ?_ }⟩
    · have := (h.ok p).tickslock hx
      simp [hlock] at this
    · simpa [hth] using (h.ok p).covered hx

theorem Inv.next {l : Label P} (h : Inv s) (hs : s.next l = some t) : Inv t := by
  cases l with
  | sleep p n =>
    simp only [Clock.next] at hs
    split at hs
    case h_3 => cases hs
    all_goals
      next hth =>
      split_ifs at hs with hfree
      cases hs
      have hawake := (h.ok p).awake (by simp [hth])
      exact h.process (.inr (.inl hfree)) (.inl rfl)
        ⟨⟨h.ticks, Nat.le_refl _⟩, fun _ => rfl, by simp, by simp [hawake], by simp [hawake], by simp, by simp⟩
  | kill p =>
    simp only [Clock.next] at hs
    split_ifs at hs with hfree
    cases hs
    exact h.process (.inl rfl) (.inl rfl) { h.ok p with
      asleep := by simp
      covered := fun hx => (h.ok p).covered (.inr (by simpa using hx))
      killed := fun _ => rfl }
  | step p => exact h.turn hs
  | timer => exact h.timerTurn hs

theorem reach_inv (h : (machine P).Reach s) : Inv s := by
  refine h.invariant ?_ fun _ _ _ h hs => h.next hs
  rintro _ rfl
  exact ⟨rfl, by simp, fun p => by constructor <;> simp⟩

/-- Once its argument is fetched, `sys_sleep` returns 0 only when at least `n` ticks, with `n` taken as an unsigned
    number, have come since the call, and -1 only to a process that was killed; and a process that is SLEEPING has time
    left, unless the timer interrupt is just about to wake it. -/
theorem sleep_ticks (h : (machine P).Reach s) (p : P) :
    ((s.proc p).thread = .returned true → (s.proc p).n.toNat ≤ s.count - (s.proc p).since) ∧
      ((s.proc p).thread = .returned false → (s.proc p).killed = true) ∧
      ((s.proc p).sleeping = true → s.ticks - (s.proc p).ticks0 < (s.proc p).n ∨ s.timer = .wake) := by
  have hp := (reach_inv h).ok p
  exact ⟨fun hx => hp.elapsed (.inr hx), fun hx => hp.killed (.inr hx), fun hx => hp.covered (.inl hx)⟩

/-- A process sleeps for one tick. -/
theorem sleep_ticks_one : ∃ s : Clock Unit, (machine Unit).Reach s ∧ (s.proc ()).thread = .returned true ∧ s.count = 1 ∧
    (s.proc ()).n.toNat ≤ s.count - (s.proc ()).since := by
  let calls : List (Label Unit) :=
    [.sleep () 1, .step (), .step (), .step (), .step (), .timer, .timer, .timer, .step (),
    .step (), .step (), .step ()]
  have hrun : (calls.foldlM Clock.next {}).map (fun s => ((s.proc ()).thread, s.count)) = some (.returned true, 1) :=
    rfl
  obtain ⟨s, hs, he⟩ := map_eq_some_iff.mp hrun
  obtain ⟨hth, hcount⟩ := Prod.mk.inj he
  have hr : (machine Unit).Reach s := .foldlM (fun _ _ _ => id) (.init rfl) hs
  exact ⟨s, hr, hth, hcount, (sleep_ticks hr ()).1 hth⟩

end Clock
end Xv6
