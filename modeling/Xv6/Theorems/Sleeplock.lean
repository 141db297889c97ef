import Xv6.Lib.Mutex
import Xv6.Sleeplock

/-! Sleep-locks: one holder at a time, and no process left asleep on a free lock, except between `lk->locked = 0`
    and the `wakeup` after it, while `lk->lk` is taken. -/

namespace Xv6
open Function Option

def LockThread.hasLk : LockThread → Bool
  | .test | .sleep | .handing | .take | .taken | .give | .wake | .leave => true
  | .idle | .falling | .asleep | .woken | .hold => false

def LockThread.hasPtable : LockThread → Bool
  | .handing | .falling => true
  | _ => false

def LockThread.owns : LockThread → Bool
  | .taken | .hold | .give => true
  | _ => false

def LockThread.sees : LockThread → Option Bool
  | .sleep | .handing => some true
  | .take => some false
  | _ => none

namespace Sleeplock

variable {P : Type} [DecidableEq P] {s t : Sleeplock P} {p q : P}

structure Inv (s : Sleeplock P) : Prop where
  lk : Mutex s.lk fun p => (s.proc p).thread.hasLk
  ptable : Mutex s.ptable fun p => (s.proc p).thread.hasPtable
  owner : ∀ p, (s.proc p).thread.owns = true ↔ s.locked = true ∧ s.pid = some p
  pid : s.locked = true → s.pid ≠ none
  sees : ∀ p b, (s.proc p).thread.sees = some b → s.locked = b
  asleep : ∀ p, (s.proc p).sleeping = true → (s.proc p).thread = .asleep
  covered : ∀ p, (s.proc p).sleeping = true ∨ (s.proc p).thread = .falling →
    s.locked = true ∨ ∃ q, (s.proc q).thread = .wake

omit [DecidableEq P] in
theorem hasLk_of_sees {th : LockThread} {b : Bool} (h : th.sees = some b) : th.hasLk = true := by
  cases th <;> simp_all [LockThread.sees, LockThread.hasLk]

variable {b : LockThread}

theorem Inv.move (h : Inv s) (hth : ∀ q, (t.proc q).thread = if q = p then b else (s.proc q).thread)
    (hlk : t.lk = if b.hasLk = (s.proc p).thread.hasLk then s.lk else if b.hasLk then some p else none)
    (hlkfree : b.hasLk = true → (s.proc p).thread.hasLk = true ∨ s.lk = none) (hpt : t.ptable =
      if b.hasPtable = (s.proc p).thread.hasPtable then s.ptable else if b.hasPtable then some p else none)
    (hptfree : b.hasPtable = true → (s.proc p).thread.hasPtable = true ∨ s.ptable = none)
    (hown : b.owns = true ↔ t.locked = true ∧ t.pid = some p)
    (hown' : ∀ q, q ≠ p → (t.locked = true ∧ t.pid = some q ↔ s.locked = true ∧ s.pid = some q))
    (hpid : t.locked = true → t.pid ≠ none) (hsees : ∀ c, b.sees = some c → t.locked = c)
    (hsees' : t.locked = s.locked ∨ (s.proc p).thread.hasLk = true)
    (hasleep : ∀ q, (t.proc q).sleeping = true → q ≠ p ∧ (s.proc q).sleeping = true ∨ q = p ∧ b = .asleep)
    (hcov : ∀ q, (t.proc q).sleeping = true ∨ (t.proc q).thread = .falling →
      t.locked = true ∨ ∃ r, (t.proc r).thread = .wake) : Inv t := by
  have hself : (t.proc p).thread = b := by rw [hth, if_pos rfl]
  have hne : ∀ q, q ≠ p → (t.proc q).thread = (s.proc q).thread := fun q hq => by rw [hth, if_neg hq]
  refine ⟨h.lk.step p (fun q hq => by rw [hne q hq]) (by simpa [hself] using hlkfree) (by rw [hself, hlk]),
    h.ptable.step p (fun q hq => by rw [hne q hq]) (by simpa [hself] using hptfree) (by rw [hself, hpt]),
    fun q => ?_, hpid, fun q c hq => ?_, fun q hq => ?_, hcov⟩
  · by_cases hq : q = p
    · rw [hq, hself, hown]
    · rw [hne q hq, hown' q hq, h.owner q]
  · by_cases hqp : q = p
    · rw [hqp, hself] at hq
      exact hsees c hq
    · rw [hne q hqp] at hq
      rcases hsees' with hl | hl
      · rw [hl]
        exact h.sees q c hq
      · exact absurd (h.lk.unique (hasLk_of_sees hq) hl) hqp
  · rcases hasleep q hq with ⟨hqp, hs⟩ | ⟨rfl, hb⟩
    · rw [hne q hqp]
      exact h.asleep q hs
    · rw [hself, hb]

theorem Inv.covered_keep (h : Inv s) (hth : ∀ q, (t.proc q).thread = if q = p then b else (s.proc q).thread)
    (hl : s.locked = true → t.locked = true) (hp : (s.proc p).thread ≠ .wake)
    (hsl : ∀ q, (t.proc q).sleeping = true → (s.proc q).sleeping = true ∨ (s.proc q).thread = .falling)
    (hb : b = .falling → s.locked = true) :
    ∀ q, (t.proc q).sleeping = true ∨ (t.proc q).thread = .falling → t.locked = true ∨
    ∃ r, (t.proc r).thread = .wake := by
  intro q hq
  have hs : s.locked = true ∨ ∃ r, (s.proc r).thread = .wake := by
    rcases hq with hq | hq
    · exact h.covered q (hsl q hq)
    · rw [hth] at hq
      split at hq
      · exact .inl (hb hq)
      · exact h.covered q (.inr hq)
  refine hs.imp hl fun ⟨r, hr⟩ => ⟨r, ?_⟩
  rw [hth, if_neg, hr]
  rintro rfl
  exact hp hr

theorem goto_thread : ((s.goto p b).proc q).thread = if q = p then b else (s.proc q).thread := by
  simp only [goto, modify, update_apply]
  split <;> rfl

theorem goto_sleeping : ((s.goto p b).proc q).sleeping = (s.proc q).sleeping := by
  simp only [goto, modify, update_apply]
  split
  · next h => rw [h]
  · rfl

section

variable (h : Inv s)
include h

theorem Inv.goto {a b : LockThread} {l m : Option P} (ha : (s.proc p).thread = a)
    (hlk : l = if b.hasLk = a.hasLk then s.lk else if b.hasLk then some p else none)
    (hlkfree : b.hasLk = true → a.hasLk = true ∨ s.lk = none)
    (hpt : m = if b.hasPtable = a.hasPtable then s.ptable else if b.hasPtable then some p else none)
    (hptfree : b.hasPtable = true → a.hasPtable = true ∨ s.ptable = none) (hown : b.owns = a.owns)
    (hsees : ∀ c, b.sees = some c → s.locked = c) (hsl : a = .asleep → (s.proc p).sleeping = false)
    (hwake : a ≠ .wake) (hfall : b = .falling → s.locked = true) : Inv { s.goto p b with lk := l, ptable := m } := by
  subst ha
  have hth : ∀ q, ((s.goto p b).proc q).thread = if q = p then b else (s.proc q).thread := fun q => goto_thread
  refine h.move (b := b) hth hlk hlkfree hpt hptfree ?_ (fun q _ => Iff.rfl) h.pid hsees (.inl rfl)
    (fun q hq => .inl ⟨?_, goto_sleeping.symm.trans hq⟩)
    (h.covered_keep (b := b) hth id hwake (fun q hq => .inl (goto_sleeping.symm.trans hq)) hfall)
  · rw [hown]
    exact h.owner p
  · rintro rfl
    have hq : (s.proc q).sleeping = true := goto_sleeping.symm.trans hq
    simp [hsl (h.asleep q hq)] at hq

theorem Inv.acquire {a b : LockThread} (hs : s.acquire p b = some t) (ha : (s.proc p).thread = a)
    (hlk : a.hasLk = false ∧ b.hasLk = true)
    (hpt : a.hasPtable = false ∧ b.hasPtable = false) (hown : b.owns = a.owns) (hsees : b.sees = none)
    (hne : a ≠ .asleep ∧ a ≠ .wake ∧ b ≠ .falling) : Inv t := by
  unfold Sleeplock.acquire at hs
  split_ifs at hs with hl
  cases hs
  exact h.goto ha (by simp [hlk]) (fun _ => .inr hl) (by simp [hpt, Sleeplock.goto, modify]) (by simp [hpt]) hown
    (by simp [hsees]) (fun h => absurd h hne.1) hne.2.1 fun h => absurd h hne.2.2

theorem Inv.fall (ha : (s.proc p).thread = .falling) :
    Inv { s.modify p fun x => { x with thread := .asleep, sleeping := true } with ptable := none } := by
  set t := { s.modify p fun x => { x with thread := .asleep, sleeping := true } with ptable := none } with ht
  have hth : ∀ q, (t.proc q).thread = if q = p then .asleep else (s.proc q).thread := by
    intro q
    simp only [ht, modify, update_apply]
    split <;> rfl
  have hsl : ∀ q, (t.proc q).sleeping = true → q ≠ p ∧ (s.proc q).sleeping = true ∨ q = p := by
    intro q hq
    by_cases hqp : q = p
    · exact .inr hqp
    · exact .inl ⟨hqp, by simpa [ht, modify, update_apply, hqp] using hq⟩
  refine h.move hth (by rw [ha]; rfl) (by simp [LockThread.hasLk]) (by rw [ha]; rfl) (by simp [LockThread.hasPtable])
    ?_ (fun q _ => Iff.rfl) h.pid (by simp [LockThread.sees]) (.inl rfl) (fun q hq => (hsl q hq).imp id (by simp))
    (h.covered_keep hth id (by simp [ha]) (fun q hq => ?_) (by simp))
  · have := h.owner p
    rwa [ha] at this
  · rcases hsl q hq with ⟨-, hq⟩ | rfl
    · exact .inl hq
    · exact .inr ha

theorem Inv.write {a b : LockThread} {l : Bool} {o : Option P} (ha : (s.proc p).thread = a)
    (hlk : a.hasLk = true ∧ b.hasLk = true) (hpt : a.hasPtable = false ∧ b.hasPtable = false)
    (hown : b.owns = true ↔ l = true ∧ o = some p)
    (hown' : ∀ q, q ≠ p → ¬(s.locked = true ∧ s.pid = some q) ∧ ¬(l = true ∧ o = some q))
    (hpid : l = true → o ≠ none) (hsees : b.sees = none) (hasleep : a ≠ .asleep) (hcov : l = true ∨ b = .wake) :
    Inv { s.goto p b with locked := l, pid := o } := by
  have hth : ∀ q, ((s.goto p b).proc q).thread = if q = p then b else (s.proc q).thread := fun q => goto_thread
  refine h.move (b := b) hth (by rw [ha, if_pos (hlk.2.trans hlk.1.symm)]; rfl) (fun _ => .inl (by rw [ha, hlk.1]))
    (by rw [ha, if_pos (hpt.2.trans hpt.1.symm)]; rfl) (by simp [hpt]) hown
    (fun q hq => iff_of_false (hown' q hq).2 (hown' q hq).1) hpid (by simp [hsees])
    (.inr (by rw [ha, hlk.1])) (fun q hq => .inl ⟨?_, goto_sleeping.symm.trans hq⟩)
    fun q _ => hcov.imp id fun hb => ⟨p, ?_⟩
  · rintro rfl
    exact hasleep (ha ▸ h.asleep q (goto_sleeping.symm.trans hq))
  · exact (hth p).trans (by rw [if_pos rfl, hb])

attribute [local simp] LockThread.hasLk LockThread.hasPtable

/-- `wakeup(lk)`: nobody sleeps any more, and nobody is between `release(lk)` and SLEEPING, since that is inside
    `ptable.lock`. -/
theorem Inv.wakeup (ha : (s.proc p).thread = .wake) (hfree : s.ptable = none) :
    Inv (s.wakeup1.goto p .leave) := by
  have hth : ∀ q, ((s.wakeup1.goto p .leave).proc q).thread = if q = p then .leave else (s.proc q).thread :=
    fun q => goto_thread
  have hsl : ∀ q, ((s.wakeup1.goto p .leave).proc q).sleeping = false := fun q => goto_sleeping
  refine h.move hth (by rw [ha]; rfl) (fun _ => .inl (by rw [ha]; rfl)) (by rw [ha]; rfl) (by simp) ?_
    (fun q _ => Iff.rfl) h.pid (by simp [LockThread.sees]) (.inl rfl)
    (fun q hq => by simp [hsl q] at hq) (fun q hq => ?_)
  · have := h.owner p
    rwa [ha] at this
  · rcases hq with hq | hq
    · simp [hsl q] at hq
    · rw [hth] at hq
      split_ifs at hq
      have := h.ptable.outside_of_free hfree q
      simp [hq] at this

theorem Inv.kill : Inv (s.modify p fun x => { x with killed := true, sleeping := false }) := by
  set t := s.modify p fun x => { x with killed := true, sleeping := false } with ht
  have hth : ∀ q, (t.proc q).thread = (s.proc q).thread := by
    intro q
    simp only [ht, modify, update_apply]
    split
    · next hq => rw [hq]
    · rfl
  have hsl : ∀ q, (t.proc q).sleeping = true → (s.proc q).sleeping = true := by
    intro q
    simp only [ht, modify, update_apply]
    split <;> simp
  refine ⟨fun q => by simp only [hth]; exact h.lk q, fun q => by simp only [hth]; exact h.ptable q,
    fun q => by rw [hth]; exact h.owner q, h.pid, fun q b hq => h.sees q b (hth q ▸ hq), fun q hq => by
      rw [hth]; exact h.asleep q (hsl q hq), fun q hq => ?_⟩
  simp only [hth]
  exact h.covered q (hq.imp (hsl q) fun hq => hth q ▸ hq)

theorem Inv.turn (hs : s.turn p = some t) : Inv t := by
  unfold Sleeplock.turn at hs
  split at hs
  case h_1 | h_2 => cases hs
  case h_3 ha =>
    cases hs
    by_cases hl : s.locked = true
    · rw [if_pos hl]
      exact h.goto ha rfl (by simp) rfl (by simp) rfl
        (by simp [LockThread.sees, hl]) (by simp) (by simp) (by simp)
    · rw [if_neg hl]
      exact h.goto ha rfl (by simp) rfl (by simp) rfl
        (by simpa [LockThread.sees] using hl) (by simp) (by simp) (by simp)
  case h_4 ha =>
    split_ifs at hs with hfree
    cases hs
    have hl : s.locked = true := h.sees p true (by rw [ha]; rfl)
    exact h.goto ha rfl (by simp) rfl (fun _ => .inr hfree) rfl
      (by simp [LockThread.sees, hl]) (by simp) (by simp) (by simp)
  case h_5 ha =>
    cases hs
    have hl : s.locked = true := h.sees p true (by rw [ha]; rfl)
    exact h.goto ha rfl (by simp) rfl (by simp) rfl
      (by simp [LockThread.sees]) (by simp) (by simp) (fun _ => hl)
  case h_6 ha =>
    cases hs
    exact h.fall ha
  case h_7 ha =>
    split_ifs at hs with hsl
    cases hs
    exact h.goto ha rfl (by simp) rfl (by simp) rfl
      (by simp [LockThread.sees]) (fun _ => hsl.1) (by simp) (by simp)
  case h_8 ha => exact h.acquire hs ha ⟨rfl, rfl⟩ ⟨rfl, rfl⟩ rfl rfl (by decide)
  case h_9 ha =>
    cases hs
    have hl : s.locked = false := h.sees p false (by rw [ha]; rfl)
    exact h.write ha ⟨rfl, rfl⟩ ⟨rfl, rfl⟩ (by simp [LockThread.owns]) (fun q hq => by simp [hl, hq.symm]) (by simp) rfl
      (by simp) (.inl rfl)
  case h_10 ha =>
    cases hs
    exact h.goto ha rfl (by simp) rfl (by simp) rfl
      (by simp [LockThread.sees]) (by simp) (by simp) (by simp)
  case h_11 ha =>
    cases hs
    have hpid : s.pid = some p := ((h.owner p).mp (by rw [ha]; rfl)).2
    exact h.write ha ⟨rfl, rfl⟩ ⟨rfl, rfl⟩ (by simp [LockThread.owns]) (fun q hq => by simp [hpid, hq.symm])
      (by simp) rfl (by simp) (.inr rfl)
  case h_12 ha =>
    split_ifs at hs with hfree
    cases hs
    exact h.wakeup ha hfree
  case h_13 ha =>
    cases hs
    exact h.goto ha rfl (by simp) rfl (by simp) rfl
      (by simp [LockThread.sees]) (by simp) (by simp) (by simp)

theorem Inv.next {l : Label P} (hs : s.next l = some t) : Inv t := by
  cases l with
  | acquiresleep p =>
    simp only [Sleeplock.next, ite_none_right_eq_some] at hs
    exact h.acquire hs.2 hs.1 ⟨rfl, rfl⟩ ⟨rfl, rfl⟩ rfl rfl (by decide)
  | releasesleep p =>
    simp only [Sleeplock.next, ite_none_right_eq_some] at hs
    exact h.acquire hs.2 hs.1 ⟨rfl, rfl⟩ ⟨rfl, rfl⟩ rfl rfl (by decide)
  | kill p =>
    simp only [Sleeplock.next, ite_none_right_eq_some, some.injEq] at hs
    exact hs.2 ▸ h.kill
  | step p => exact h.turn hs

end

theorem reach_inv (h : (machine P).Reach s) : Inv s := by
  refine Machine.Reach.invariant ?_ (fun _ _ _ h hs => h.next hs) h
  rintro _ rfl
  constructor <;> simp [Mutex, LockThread.hasLk, LockThread.hasPtable, LockThread.owns, LockThread.sees]

/-- Between two calls, `holdingsleep` tells a process whether it is the one whose `acquiresleep` has returned; there
    is at most one such process, and nobody sleeps on a free lock once both spinlocks are free. -/
theorem acquiresleep_correct (h : (machine P).Reach s) :
    (∀ p q, (s.proc p).thread = .hold → (s.proc q).thread = .hold → p = q) ∧
      (∀ p, (s.proc p).thread = .hold → s.holdingsleep p) ∧
      (s.lk = none → s.ptable = none → ∀ p, (s.proc p).sleeping = true → s.locked = true) := by
  have hinv := reach_inv h
  have hholds : ∀ p, (s.proc p).thread = .hold → s.holdingsleep p := fun p hp => (hinv.owner p).mp (by rw [hp]; rfl)
  refine ⟨fun p q hp hq => ?_, hholds, fun hl _ p hp => ?_⟩
  · exact some.inj ((hholds p hp).2.symm.trans (hholds q hq).2)
  · rcases hinv.covered p (.inl hp) with hlocked | ⟨q, hq⟩
    · exact hlocked
    · have := hinv.lk.outside_of_free hl q
      simp [hq, LockThread.hasLk] at this

/-- Process `false` holds the lock and process `true` sleeps on it, with both spinlocks free. -/
theorem acquiresleep_correct_waiting : ∃ s : Sleeplock Bool, (machine Bool).Reach s ∧ s.lk = none ∧ s.ptable = none ∧
    (s.proc false).thread = .hold ∧ (s.proc true).sleeping = true ∧ s.holdingsleep false ∧ s.locked = true := by
  let calls : List (Label Bool) :=
    [.acquiresleep false, .step false, .step false, .step false, .acquiresleep true, .step true, .step true, .step true,
      .step true]
  obtain ⟨s, hs, hlk, hpt, hhold, hsleep⟩ := exists_of_any (o := calls.foldlM Sleeplock.next {})
      (p := fun s => s.lk = none ∧ s.ptable = none ∧ (s.proc false).thread = .hold ∧
        (s.proc true).sleeping = true) (by decide)
  have hr : (machine Bool).Reach s := .foldlM (fun _ _ _ => id) (.init rfl) hs
  have hcorrect := acquiresleep_correct hr
  exact ⟨s, hr, hlk, hpt, hhold, hsleep, hcorrect.2.1 false hhold, hcorrect.2.2 hlk hpt true hsleep⟩

/-- The two spinlocks of the code do not deadlock: when nobody can go on, whoever is in the code sleeps, and there is a
    process that has the sleep-lock and can release it. -/
theorem acquiresleep_no_deadlock (h : (machine P).Reach s) (hstuck : ∀ p, s.turn p = none) (p : P) :
    (s.proc p).thread = .idle ∨ (s.proc p).thread = .hold ∨ (s.proc p).sleeping = true ∧
    ∃ q, (s.proc q).thread = .hold := by
  have hinv := reach_inv h
  unfold Sleeplock.turn at hstuck
  -- whoever has `ptable.lock` can go on, and then whoever has `lk->lk`
  have hpt : s.ptable = none := hinv.ptable.free_of_outside fun q => by
    have hnone := hstuck q
    cases hth : (s.proc q).thread <;> simp_all [LockThread.hasPtable]
  have hlk : s.lk = none := hinv.lk.free_of_outside fun q => by
    have hnone := hstuck q
    cases hth : (s.proc q).thread <;> simp_all [LockThread.hasLk]
  have hout := hinv.lk.outside_of_free hlk
  have hnone := hstuck p
  cases hth : (s.proc p).thread <;> simp only [hth] at hnone
  case idle => exact .inl rfl
  case hold => exact .inr (.inl rfl)
  case asleep =>
    have hsleep : (s.proc p).sleeping = true := by simpa [hpt] using hnone
    refine .inr (.inr ⟨hsleep, ?_⟩)
    rcases hinv.covered p (.inl hsleep) with hlocked | ⟨q, hq⟩
    · obtain ⟨q, hq⟩ := ne_none_iff_exists'.mp (hinv.pid hlocked)
      have howns := (hinv.owner q).mpr ⟨hlocked, hq⟩
      have hq := hout q
      refine ⟨q, ?_⟩
      cases hth : (s.proc q).thread <;> simp_all [LockThread.owns, LockThread.hasLk]
    · simpa [hq, LockThread.hasLk] using hout q
  all_goals simp_all [Sleeplock.acquire]

theorem acquiresleep_no_deadlock_waiting : ∃ s : Sleeplock Bool, (machine Bool).Reach s ∧
    (s.proc true).sleeping = true ∧ ∃ q, (s.proc q).thread = .hold := by
  let calls : List (Label Bool) :=
    [.acquiresleep false, .step false, .step false, .step false, .acquiresleep true, .step true, .step true, .step true,
      .step true]
  obtain ⟨s, hs, hth, hnone⟩ := exists_of_any (o := calls.foldlM Sleeplock.next {})
      (p := fun s => (s.proc true).thread = .asleep ∧ ∀ p, (s.turn p).isNone) (by decide)
  have hr : (machine Bool).Reach s := .foldlM (fun _ _ _ => id) (.init rfl) hs
  rcases acquiresleep_no_deadlock hr (fun p => isNone_iff_eq_none.mp (hnone p)) true with h | h | h
  · simp [hth] at h
  · simp [hth] at h
  · exact ⟨s, hr, h⟩

end Sleeplock
end Xv6
