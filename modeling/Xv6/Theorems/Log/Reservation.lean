import Mathlib.Algebra.BigOperators.Ring.Finset
import Mathlib.Algebra.Order.BigOperators.Group.Finset
import Xv6.Lib.Count
import Xv6.Lib.Fail
import Xv6.Log

/-! Whether the log has room for what `begin_op` admits. One of the LOGSIZE blocks of the log area holds the header,
    and `log_write` makes its check before it looks for a block number that is there already. -/

namespace Xv6
open Function List

namespace Ops

variable {P : Type} [DecidableEq P]

def Within (k : Nat) (s : Ops P) : Act P → Prop
  | .logWrite p b => ∀ bs ∈ s.passed p, (bs.insert b).length ≤ k
  | .beginOp _ | .endOp _ | .endCommit => True

instance {k : Nat} {s : Ops P} : DecidablePred (s.Within k)
  | .logWrite p b => inferInstanceAs (Decidable (∀ bs ∈ s.passed p, (bs.insert b).length ≤ k))
  | .beginOp _ | .endOp _ | .endCommit => inferInstanceAs (Decidable True)

def runWithin (k : Nat) (l : Log) (as : List (Act P)) : Option (Ops P) :=
  as.foldlM (fun s a => if s.Within k a then (s.step a).toOption else none)
    { log := { start := l.start, size := l.size } }

end Ops

/-! ### What the steps do -/

namespace Log

variable {l l' : Log} {b : Nat}

theorem beginOp_ok (h : l.beginOp = .ok l') : l.committing = false ∧
    l.lh.length + (l.outstanding + 1) * MAXOPBLOCKS ≤ LOGSIZE ∧
    l' = { l with outstanding := l.outstanding + 1 } := by
  unfold beginOp at h
  split at h
  · cases h
  · split at h
    · cases h
    · next hc hn =>
      cases h
      exact ⟨by simpa using hc, by omega, rfl⟩

theorem endOp_ok {c : Bool} (h : l.endOp = .ok (l', c)) : l.committing = false ∧
    l' = { l with outstanding := l.outstanding - 1, committing := c } ∧ (c = true ↔ l.outstanding - 1 = 0) := by
  unfold endOp at h
  simp only at h
  split at h
  · cases h
  · next hc =>
    have hc : l.committing = false := by simpa using hc
    split at h
    · next ho =>
      cases h
      exact ⟨hc, rfl, by simp [ho]⟩
    · next ho =>
      cases h
      exact ⟨hc, by rw [← hc], by simp [ho]⟩

theorem logWrite_ok (h : l.logWrite b = .ok l') : l.lh.length < LOGSIZE ∧ l.lh.length < l.size - 1 ∧
    1 ≤ l.outstanding ∧ l' = { l with lh := if b ∈ l.lh then l.lh else l.lh ++ [b] } := by
  unfold logWrite at h
  split at h
  · cases h
  · next hn =>
    split at h
    · cases h
    · next ho =>
      refine ⟨by omega, by omega, by omega, ?_⟩
      split at h <;> cases h <;> simp_all

theorem logWrite_tooBig : l.logWrite b = .error (.panic "too big a transaction") ↔
    LOGSIZE ≤ l.lh.length ∨ l.size - 1 ≤ l.lh.length := by
  unfold logWrite
  split
  · next h => simpa using h
  · next h =>
    have h' : ¬(LOGSIZE ≤ l.lh.length ∨ l.size - 1 ≤ l.lh.length) := h
    refine iff_of_false ?_ h'
    split
    · simp
    · split <;> simp

end Log

namespace Ops

variable {P : Type} [DecidableEq P] {s t : Ops P} {p : P} {b : Nat}

theorem step_beginOp_inv (h : s.step (.beginOp p) = .ok t) : s.passed p = none ∧ s.log.committing = false ∧
    s.log.lh.length + (s.log.outstanding + 1) * MAXOPBLOCKS ≤ LOGSIZE ∧
    t = { s with
      log := { s.log with outstanding := s.log.outstanding + 1 },
      passed := update s.passed p (some []) } := by
  simp only [step] at h
  split at h
  · cases h
  · next hp =>
    obtain ⟨l, hl, h⟩ := Except.bind_eq_ok.mp h
    obtain ⟨hc, hn, rfl⟩ := Log.beginOp_ok hl
    cases h
    exact ⟨hp, hc, hn, rfl⟩

theorem step_logWrite_inv (h : s.step (.logWrite p b) = .ok t) : ∃ bs, s.passed p = some bs ∧
    s.log.lh.length < s.log.size - 1 ∧
    t = { log := { s.log with lh := if b ∈ s.log.lh then s.log.lh else s.log.lh ++ [b] },
          passed := update s.passed p (some (bs.insert b)), logged := b :: s.logged } := by
  simp only [step] at h
  split at h
  · cases h
  · next bs hp =>
    obtain ⟨l, hl, h⟩ := Except.bind_eq_ok.mp h
    obtain ⟨-, hn, -, rfl⟩ := Log.logWrite_ok hl
    cases h
    exact ⟨bs, hp, hn, rfl⟩

theorem step_endOp_inv (h : s.step (.endOp p) = .ok t) : ∃ bs c, s.passed p = some bs ∧
    s.log.committing = false ∧ (c = true ↔ s.log.outstanding - 1 = 0) ∧
    t = { s with
      log := { s.log with outstanding := s.log.outstanding - 1, committing := c },
      passed := update s.passed p none } := by
  simp only [step] at h
  split at h
  · cases h
  · next bs hp =>
    obtain ⟨⟨l, c⟩, hl, h⟩ := Except.bind_eq_ok.mp h
    obtain ⟨hc, rfl, hz⟩ := Log.endOp_ok hl
    cases h
    exact ⟨bs, c, hp, hc, hz, rfl⟩

theorem step_endCommit_inv (h : s.step .endCommit = .ok t) :
    s.log.committing = true ∧ t = { s with log := s.log.endCommit, logged := [] } := by
  simp only [step] at h
  split_ifs at h with hc
  cases h
  exact ⟨hc, rfl⟩

theorem size_step {a : Act P} (hs : s.step a = .ok t) : t.log.size = s.log.size := by
  cases a with
  | beginOp p => obtain ⟨-, -, -, rfl⟩ := step_beginOp_inv hs; rfl
  | logWrite p b => obtain ⟨bs, -, -, rfl⟩ := step_logWrite_inv hs; rfl
  | endOp p => obtain ⟨bs, c, -, -, -, rfl⟩ := step_endOp_inv hs; rfl
  | endCommit => obtain ⟨-, rfl⟩ := step_endCommit_inv hs; rfl

variable {bs : List Nat}

theorem step_logWrite_tooBig (hp : s.passed p = some bs) :
    s.step (.logWrite p b) = .error (.panic "too big a transaction") ↔
      LOGSIZE ≤ s.log.lh.length ∨ s.log.size - 1 ≤ s.log.lh.length := by
  rw [← Log.logWrite_tooBig (b := b)]
  simp only [step, hp]
  cases s.log.logWrite b with
  | error e => simp [bind, Except.bind]
  | ok l => simp [bind, Except.bind]

theorem reach_runWithin {k : Nat} {l : Log} {as : List (Act P)} (h : runWithin k l as = some s) :
    (machine P l).ReachWhere (Within k) s := by
  refine Machine.ReachWhere.foldlM ?_ (.init rfl) h
  intro s a t ht
  split_ifs at ht with hw
  exact ⟨hw, Except.toOption_eq_some.mp ht⟩

/-! ### The header counts the distinct blocks -/

def active : Option (List Nat) → Nat
  | none => 0
  | some _ => 1

@[simp] theorem active_none : active none = 0 := rfl
@[simp] theorem active_some : active (some bs) = 1 := rfl

section Counted
variable {P : Type} [Fintype P] {s : Ops P}

structure Counted (s : Ops P) : Prop where
  outstanding : s.log.outstanding = ∑ p, active (s.passed p)
  nodup : s.log.lh.Nodup
  mem : ∀ b, b ∈ s.log.lh ↔ b ∈ s.logged
  idle : s.log.committing = false → s.log.outstanding = 0 → s.log.lh = []
  committing : s.log.committing = true → s.log.outstanding = 0

theorem Counted.length (h : Counted s) : s.log.lh.length = s.logged.toFinset.card := by
  have : s.logged.toFinset = s.log.lh.toFinset := by
    ext b
    simp [h.mem b]
  rw [this, toFinset_card_of_nodup h.nodup]

theorem Counted.none_of_idle (h : Counted s) (ho : s.log.outstanding = 0) (p : P) (bs : List Nat) :
    s.passed p ≠ some bs := by
  intro hp
  have h1 : active (s.passed p) ≤ ∑ q, active (s.passed q) :=
    Finset.single_le_sum (f := fun q => active (s.passed q)) (fun _ _ => Nat.zero_le _) (Finset.mem_univ p)
  rw [← h.outstanding, ho, hp] at h1
  simp at h1

theorem counted_init {l : Log} : Counted ({ log := { start := l.start, size := l.size } } : Ops P) :=
  ⟨by simp, by simp, by simp, by simp, by simp⟩

end Counted

theorem passed_update_cases {q : P} {x : Option (List Nat)}
    (h : update s.passed p x q = some bs) : q = p ∧ x = some bs ∨ s.passed q = some bs := by
  by_cases hq : q = p
  · subst hq
    rw [update_self] at h
    exact .inl ⟨rfl, h⟩
  · rw [update_of_ne hq] at h
    exact .inr h

variable [Fintype P]

theorem sum_passed (g : Option (List Nat) → Nat) (x : Option (List Nat)) :
    (∑ q, g (update s.passed p x q)) + g (s.passed p) = (∑ q, g (s.passed q)) + g x :=
  sum_update_add g s.passed p x

theorem Counted.step (h : Counted s) {a : Act P} (hs : s.step a = .ok t) : Counted t := by
  cases a with
  | beginOp p =>
    obtain ⟨hp, hc, -, rfl⟩ := step_beginOp_inv hs
    have hsum := sum_passed (s := s) (p := p) active (some [])
    refine ⟨?_, h.nodup, h.mem, by simp, by simp [hc]⟩
    have := h.outstanding
    simp only [hp, active_none, active_some] at hsum ⊢
    omega
  | logWrite p b =>
    obtain ⟨bs, hp, -, rfl⟩ := step_logWrite_inv hs
    have hsum := sum_passed (s := s) (p := p) active (some (bs.insert b))
    have hout : s.log.outstanding = ∑ q, active (update s.passed p (some (bs.insert b)) q) := by
      have := h.outstanding
      simp only [hp, active_some] at hsum
      omega
    refine ⟨hout, ?_, fun x => ?_, fun hc ho => ?_, h.committing⟩
    · show (if b ∈ s.log.lh then s.log.lh else s.log.lh ++ [b]).Nodup
      split
      · exact h.nodup
      · next hb => exact nodup_append.mpr ⟨h.nodup, by simp, fun x hx y hy hxy => hb (by simp_all)⟩
    · show x ∈ (if b ∈ s.log.lh then s.log.lh else s.log.lh ++ [b]) ↔ x ∈ b :: s.logged
      split
      · next hb =>
        rw [h.mem x, mem_cons, or_iff_right_of_imp]
        rintro rfl
        exact (h.mem x).mp hb
      · rw [mem_append, mem_singleton, h.mem x, mem_cons, or_comm]
    · -- The operation that writes is under way.
      exact absurd hp (h.none_of_idle ho p bs)
  | endOp p =>
    obtain ⟨bs, c, hp, hc, hz, rfl⟩ := step_endOp_inv hs
    have hsum := sum_passed (s := s) (p := p) active none
    refine ⟨?_, h.nodup, h.mem, fun hc' ho => ?_, fun hc' => hz.mp hc'⟩
    · have := h.outstanding
      simp only [hp, active_none, active_some] at hsum ⊢
      omega
    · have : c = true := hz.mpr ho
      simp [this] at hc'
  | endCommit =>
    obtain ⟨hc, rfl⟩ := step_endCommit_inv hs
    exact ⟨h.outstanding, by simp [Log.endCommit], by simp [Log.endCommit], by simp [Log.endCommit],
      by simp [Log.endCommit]⟩

/-! ### Operations that keep below the reservation -/

def credit : Option (List Nat) → Nat
  | none => 0
  | some bs => MAXOPBLOCKS - 1 - bs.length

@[simp] theorem credit_none : credit none = 0 := rfl
@[simp] theorem credit_some : credit (some bs) = MAXOPBLOCKS - 1 - bs.length := rfl

structure Roomy (s : Ops P) : Prop where
  counted : Counted s
  few : ∀ p bs, s.passed p = some bs → bs.length ≤ MAXOPBLOCKS - 1
  sub : ∀ p bs, s.passed p = some bs → ∀ b ∈ bs, b ∈ s.log.lh
  room : s.log.lh.length + ∑ p, credit (s.passed p) ≤ LOGSIZE - 2

omit [DecidableEq P] in
theorem sum_credit_le (h : Counted s) : ∑ p, credit (s.passed p) ≤ s.log.outstanding * (MAXOPBLOCKS - 1) := by
  rw [h.outstanding, Finset.sum_mul]
  refine Finset.sum_le_sum fun p _ => ?_
  cases s.passed p <;> simp

theorem Roomy.step (h : Roomy s) {a : Act P} (ha : s.Within (MAXOPBLOCKS - 1) a) (hs : s.step a = .ok t) : Roomy t := by
  have hcount := h.counted.step hs
  have hroom := h.room
  cases a with
  | beginOp p =>
    obtain ⟨hp, hc, hn, rfl⟩ := step_beginOp_inv hs
    refine ⟨hcount, fun q bs hq => ?_, fun q bs hq => ?_, ?_⟩
    · rcases passed_update_cases hq with ⟨-, hx⟩ | hq
      · cases hx
        simp
      · exact h.few q bs hq
    · rcases passed_update_cases hq with ⟨-, hx⟩ | hq
      · cases hx
        simp
      · exact h.sub q bs hq
    · have hsum := sum_passed (s := s) (p := p) credit (some [])
      have hle := sum_credit_le h.counted
      have hidle := h.counted.idle hc
      simp only [hp, credit_none, credit_some, length_nil] at hsum ⊢
      rcases Nat.eq_zero_or_pos s.log.outstanding with h0 | h0
      · -- Nobody else is active, so the header is empty.
        rw [h0] at hle
        simp only [hidle h0, length_nil, MAXOPBLOCKS, LOGSIZE] at *
        omega
      · -- Each of the two or more operations leaves one block of its reservation.
        simp only [MAXOPBLOCKS, LOGSIZE] at *
        omega
  | logWrite p b =>
    obtain ⟨bs, hp, -, rfl⟩ := step_logWrite_inv hs
    have hfew := ha bs hp
    have hlh : ∀ x, x ∈ s.log.lh ∨ x = b → x ∈ (if b ∈ s.log.lh then s.log.lh else s.log.lh ++ [b]) := by
      intro x hx
      split
      · next hb =>
        rcases hx with hx | rfl
        · exact hx
        · exact hb
      · simpa using hx
    refine ⟨hcount, fun q bs' hq => ?_, fun q bs' hq x hx => ?_, ?_⟩
    · rcases passed_update_cases hq with ⟨-, hx⟩ | hq
      · cases hx
        exact hfew
      · exact h.few q bs' hq
    · rcases passed_update_cases hq with ⟨-, hx'⟩ | hq
      · cases hx'
        rcases mem_insert_iff.mp hx with rfl | hx
        · exact hlh x (.inr rfl)
        · exact hlh x (.inl (h.sub p bs hp x hx))
      · exact hlh x (.inl (h.sub q bs' hq x hx))
    · have hsum := sum_passed (s := s) (p := p) credit (some (bs.insert b))
      simp only [hp, credit_some] at hsum ⊢
      by_cases hb : b ∈ bs
      · -- The operation has passed `b` before.
        have hblh := h.sub p bs hp b hb
        simp only [hblh, if_true, insert_of_mem hb] at hsum ⊢
        omega
      · have hlen : (bs.insert b).length = bs.length + 1 := by simp [insert_of_not_mem hb]
        have hlt : (if b ∈ s.log.lh then s.log.lh else s.log.lh ++ [b]).length ≤ s.log.lh.length + 1 := by
          split <;> simp
        rw [hlen] at hsum hfew
        omega
  | endOp p =>
    obtain ⟨bs, c, hp, -, -, rfl⟩ := step_endOp_inv hs
    refine ⟨hcount, fun q bs' hq => ?_, fun q bs' hq => ?_, ?_⟩
    · rcases passed_update_cases hq with ⟨-, hx⟩ | hq
      · cases hx
      · exact h.few q bs' hq
    · rcases passed_update_cases hq with ⟨-, hx⟩ | hq
      · cases hx
      · exact h.sub q bs' hq
    · have hsum := sum_passed (s := s) (p := p) credit none
      simp only [hp, credit_none, credit_some] at hsum ⊢
      omega
  | endCommit =>
    obtain ⟨hc, rfl⟩ := step_endCommit_inv hs
    -- No operation is under way.
    have hnone := h.counted.none_of_idle (h.counted.committing hc)
    refine ⟨hcount, h.few, fun q bs hq => absurd hq (hnone q bs), ?_⟩
    simp only [Log.endCommit, length_nil]
    omega

/-! ### When log_write panics -/

theorem reach_counted (h : (machine P mkfsLog).Reach s) : Counted s ∧ s.log.size = LOGSIZE := by
  refine Machine.Reach.invariant (I := fun s : Ops P => Counted s ∧ s.log.size = LOGSIZE) ?_ ?_ h
  · rintro s rfl
    exact ⟨counted_init, rfl⟩
  · rintro s a t ⟨hc, hsz⟩ hs
    exact ⟨hc.step hs, (size_step hs).trans hsz⟩

theorem reach_roomy (h : (machine P mkfsLog).ReachWhere (Within (MAXOPBLOCKS - 1)) s) : Roomy s := by
  refine Machine.ReachWhere.invariant (I := Roomy) ?_ ?_ h
  · rintro s rfl
    exact ⟨counted_init, by simp, by simp, by simp⟩
  · intro s a t hr ha hs
    exact hr.step ha hs

/-- On the log that mkfs lays out, the `log_write` of an operation under way panics for lack of room
    exactly when 29 or more distinct block numbers have been logged since the last commit. Operations
    that pass at most MAXOPBLOCKS - 1 distinct block numbers each never bring it there. -/
theorem log_write_room (s : Ops P) (p : P) (b : Nat) :
    ((machine P mkfsLog).Reach s → (s.passed p).isSome →
      (s.step (.logWrite p b) = .error (.panic "too big a transaction") ↔ 29 ≤ s.logged.toFinset.card)) ∧
    ((machine P mkfsLog).ReachWhere (Within (MAXOPBLOCKS - 1)) s →
      s.step (.logWrite p b) ≠ .error (.panic "too big a transaction")) := by
  constructor
  · intro hs hp
    obtain ⟨bs, hp⟩ := Option.isSome_iff_exists.mp hp
    obtain ⟨hc, hsz⟩ := reach_counted hs
    rw [step_logWrite_tooBig hp, hsz, ← hc.length]
    simp only [LOGSIZE, MAXOPBLOCKS]
    omega
  · intro hs hpanic
    have hroom := (reach_roomy hs).room
    obtain ⟨-, hsz⟩ := reach_counted hs.reach
    cases hp : s.passed p with
    | none => simp [step, hp] at hpanic
    | some bs =>
      rw [step_logWrite_tooBig hp, hsz] at hpanic
      simp only [LOGSIZE, MAXOPBLOCKS] at hpanic hroom
      omega

def threeFullOps : List (Act (Fin 3)) :=
  [.beginOp 0, .beginOp 1, .beginOp 2] ++ (List.range 29).map fun i => .logWrite (Fin.ofNat 3 i) (100 + i)

/-- The tenth block of the third operation finds no room, though each operation keeps within
    MAXOPBLOCKS distinct blocks. -/
theorem threeFullOps_panics : ∃ s : Ops (Fin 3), (machine (Fin 3) mkfsLog).ReachWhere (Within MAXOPBLOCKS) s ∧
    s.Within MAXOPBLOCKS (.logWrite 2 129) ∧
    s.step (.logWrite 2 129) = .error (.panic "too big a transaction") := by
  obtain ⟨s, hs, hn, hp, hw⟩ := Option.exists_of_any (o := runWithin MAXOPBLOCKS mkfsLog threeFullOps)
      (p := fun s => s.log.lh.length = 29 ∧ (s.passed 2).map List.length = some 9 ∧
        s.Within MAXOPBLOCKS (.logWrite 2 129)) (by decide +kernel)
  obtain ⟨bs, hbs, -⟩ := Option.map_eq_some_iff.mp hp
  have hr := reach_runWithin hs
  refine ⟨s, hr, hw, (step_logWrite_tooBig hbs).mpr (.inr ?_)⟩
  rw [hn, (reach_counted hr.reach).2]
  decide

/-- Two blocks of two operations leave room, and the bound of 9 holds for both. -/
theorem log_write_room_twoOps : ∃ s : Ops (Fin 2),
    runWithin (MAXOPBLOCKS - 1) mkfsLog [.beginOp 0, .beginOp 1, .logWrite 0 100, .logWrite 1 101] = some s ∧
    s.step (.logWrite 1 100) ≠ .error (.panic "too big a transaction") ∧ ¬29 ≤ s.logged.toFinset.card := by
  have h : (runWithin (MAXOPBLOCKS - 1) mkfsLog
      [.beginOp (0 : Fin 2), .beginOp 1, .logWrite 0 100, .logWrite 1 101]).map (fun s =>
        s.passed 1) = some (some [101]) := by
    decide +kernel
  obtain ⟨s, hs, h⟩ := Option.map_eq_some_iff.mp h
  have hr := reach_runWithin hs
  obtain ⟨hiff, hmodest⟩ := log_write_room s 1 100
  have hno := hmodest hr
  exact ⟨s, hs, hno, fun hfull => hno ((hiff hr.reach (by simp [h])).mpr hfull)⟩

end Ops
end Xv6
