import Xv6.Theorems.Log.Reservation

/-! The group commit protocol: who can be active during a commit, which commit an operation is part of, and
    who sleeps in `begin_op`. -/

namespace Xv6
open Except

def Log.Waits (l : Log) : Prop := l.committing = true ∨ LOGSIZE < l.lh.length + (l.outstanding + 1) * MAXOPBLOCKS

theorem Log.beginOp_error {l : Log} {e : Stop} (h : l.beginOp = .error e) : l.Waits := by
  unfold beginOp at h
  split at h
  · next hc => exact .inl hc
  · split at h
    · next hn => exact .inr hn
    · cases h

theorem Log.endOp_panic {l : Log} : l.endOp = .error (.panic "log.committing") ↔ l.committing = true := by
  unfold endOp
  simp only
  split
  · next hc => simp [hc]
  · next hc =>
    split
    all_goals simp [hc]

namespace GroupCommit

variable {P : Type} {s t : GroupCommit P} {p q : P} {x : OpState}

theorem wakeup_op : s.wakeup.op q = if s.op q = .asleep then .woken else s.op q := rfl

theorem wakeup_other : s.wakeup.op q = s.op q ∨ s.op q = .asleep ∧ s.wakeup.op q = .woken := by
  rw [wakeup_op]
  split
  · next h => exact .inr ⟨h, rfl⟩
  · exact .inl rfl

theorem wakeup_not_asleep : s.wakeup.op q ≠ .asleep := by
  rw [wakeup_op]
  split
  · nofun
  · assumption

section

variable [Fintype P]

def active : OpState → Nat
  | .active _ _ => 1
  | _ => 0

def commits : OpState → Nat
  | .commit | .clear | .finish => 1
  | _ => 0

structure Inv (s : GroupCommit P) : Prop where
  outstanding : s.log.outstanding = ∑ p, active (s.op p)
  committing : s.log.committing.toNat = ∑ p, commits (s.op p)
  quiet : s.log.committing = true → s.log.outstanding = 0
  current : ∀ p g bs, s.op p = .active g bs → g = s.committed.length ∧ bs ⊆ s.log.lh
  ended : ∀ x ∈ s.ended, (∃ h, s.committed[x.1]? = some h ∧ x.2 ⊆ h) ∨ x.1 = s.committed.length ∧ x.2 ⊆ s.log.lh
  cleared : ∀ p, s.op p = .clear → ∀ x ∈ s.ended, x.1 < s.committed.length
  asleep : ∀ p, s.op p = .asleep → s.log.Waits

theorem Inv.commits_of (h : Inv s) (hp : commits (s.op p) = 1) : s.log.committing = true := by
  have h1 : commits (s.op p) ≤ ∑ q, commits (s.op q) :=
    Finset.single_le_sum (f := fun q => commits (s.op q)) (fun _ _ => Nat.zero_le _) (Finset.mem_univ p)
  rw [← h.committing, hp] at h1
  cases hc : s.log.committing
  · simp [hc] at h1
  · rfl

theorem Inv.not_active (h : Inv s) (ho : s.log.outstanding = 0) (p : P) (g : Nat) (bs : List Nat) :
    s.op p ≠ .active g bs := by
  intro hp
  have h1 : active (s.op p) ≤ ∑ q, active (s.op q) :=
    Finset.single_le_sum (f := fun q => active (s.op q)) (fun _ _ => Nat.zero_le _) (Finset.mem_univ p)
  rw [← h.outstanding, ho, hp] at h1
  cases h1

end

variable [DecidableEq P]

/-! ### What the steps do -/

theorem setOp_op : (s.setOp p x).op q = if q = p then x else s.op q := by
  unfold setOp
  split
  · next h => simp [h]
  · next h => simp [h]

theorem beginTurn_cases (s : GroupCommit P) (p : P) :
    s.log.committing = false ∧ s.beginTurn p = { s.setOp p (.active s.committed.length []) with
        log := { s.log with outstanding := s.log.outstanding + 1 } } ∨ s.log.Waits ∧
        s.beginTurn p = s.setOp p .asleep := by
  unfold beginTurn
  cases hb : s.log.beginOp with
  | ok l =>
    obtain ⟨hc, -, rfl⟩ := Log.beginOp_ok hb
    exact .inl ⟨hc, rfl⟩
  | error e => exact .inr ⟨Log.beginOp_error hb, rfl⟩

theorem step_beginOp_inv (h : s.step (.beginOp p) = .ok t) : (s.op p = .idle ∨ s.op p = .woken) ∧
    t = s.beginTurn p := by
  simp only [step] at h
  split at h
  · next hp => exact ⟨.inl hp, (ok.inj h).symm⟩
  · next hp => exact ⟨.inr hp, (ok.inj h).symm⟩
  · cases h

theorem step_logWrite_inv {b : Nat} (h : s.step (.logWrite p b) = .ok t) : ∃ g bs l, s.op p = .active g bs ∧
    s.log.logWrite b = .ok l ∧ t = { s.setOp p (.active g (b :: bs)) with log := l } := by
  simp only [step] at h
  split at h
  · next g bs hp =>
    obtain ⟨l, hl, h⟩ := bind_eq_ok.mp h
    exact ⟨g, bs, l, hp, hl, (ok.inj h).symm⟩
  · cases h

theorem step_endOp_inv (h : s.step (.endOp p) = .ok t) : ∃ g bs c, s.op p = .active g bs ∧ s.log.committing = false ∧
    (c = true ↔ s.log.outstanding - 1 = 0) ∧ t = (let u := { s with
          log := { s.log with outstanding := s.log.outstanding - 1, committing := c }, ended := (g, bs) :: s.ended }
      if c then u.setOp p .commit else u.wakeup.setOp p .idle) := by
  simp only [step] at h
  split at h
  · next g bs hp =>
    obtain ⟨⟨l, c⟩, hl, h⟩ := bind_eq_ok.mp h
    obtain ⟨hc, rfl, hz⟩ := Log.endOp_ok hl
    exact ⟨g, bs, c, hp, hc, hz, (ok.inj h).symm⟩
  · cases h

theorem step_commit_inv (h : s.step (.commit p) = .ok t) :
    s.op p = .commit ∧ t = { s.setOp p .clear with committed := s.committed ++ [s.log.lh] } ∨
    s.op p = .clear ∧ t = { s.setOp p .finish with log := { s.log with lh := [] } } ∨
    s.op p = .finish ∧ t = { s.wakeup.setOp p .idle with log := { s.log with committing := false } } := by
  simp only [step] at h
  split at h
  · next hp => exact .inl ⟨hp, (ok.inj h).symm⟩
  · next hp => exact .inr (.inl ⟨hp, (ok.inj h).symm⟩)
  · next hp => exact .inr (.inr ⟨hp, (ok.inj h).symm⟩)
  · cases h

/-! ### The invariant -/

variable [Fintype P]

theorem sum_step (g : OpState → Nat) (hg : g .woken = g .asleep) (hp : t.op p = x)
    (hq : ∀ q ≠ p, t.op q = s.op q ∨ s.op q = .asleep ∧ t.op q = .woken) :
    (∑ q, g (t.op q)) + g (s.op p) = (∑ q, g (s.op q)) + g x := by
  have h1 := sum_update_add g s.op p x
  have h2 : ∑ q, g (Function.update s.op p x q) = ∑ q, g (t.op q) := by
    refine Finset.sum_congr rfl fun q _ => ?_
    by_cases hqp : q = p
    · rw [hqp, Function.update_self, hp]
    · rw [Function.update_of_ne hqp]
      rcases hq q hqp with h | ⟨h, h'⟩
      · rw [h]
      · rw [h, h', hg]
  rwa [h2] at h1

theorem Inv.move (h : Inv s) (hp : t.op p = x) (hq : ∀ q ≠ p, t.op q = s.op q ∨ s.op q = .asleep ∧ t.op q = .woken)
    (hout : t.log.outstanding + active (s.op p) = s.log.outstanding + active x)
    (hcom : t.log.committing.toNat + commits (s.op p) = s.log.committing.toNat + commits x)
    (hquiet : t.log.committing = true → t.log.outstanding = 0)
    (hx : ∀ g bs, x = .active g bs → g = t.committed.length ∧ bs ⊆ t.log.lh)
    (hcur : ∀ q g bs, q ≠ p → s.op q = .active g bs → t.committed.length = s.committed.length ∧ s.log.lh ⊆ t.log.lh)
    (hend : ∀ y ∈ t.ended, (∃ h, t.committed[y.1]? = some h ∧ y.2 ⊆ h) ∨ y.1 = t.committed.length ∧ y.2 ⊆ t.log.lh)
    (hclear : ∀ q, t.op q = .clear → ∀ y ∈ t.ended, y.1 < t.committed.length)
    (hsleep : ∀ q, t.op q = .asleep → t.log.Waits) : Inv t where
  outstanding := by
    have h1 := sum_step active rfl hp hq
    have h2 := h.outstanding
    omega
  committing := by
    have h1 := sum_step commits rfl hp hq
    have h2 := h.committing
    omega
  quiet := hquiet
  current q g bs hqa := by
    by_cases hqp : q = p
    · rw [hqp, hp] at hqa
      exact hx g bs hqa
    · rcases hq q hqp with h1 | ⟨-, h1⟩
      · rw [h1] at hqa
        obtain ⟨h2, h3⟩ := h.current q g bs hqa
        obtain ⟨h4, h5⟩ := hcur q g bs hqp hqa
        exact ⟨h2.trans h4.symm, fun b hb => h5 (h3 hb)⟩
      · rw [h1] at hqa
        cases hqa
  ended := hend
  cleared := hclear
  asleep := hsleep

omit [Fintype P] in
theorem setOp_other (hq : q ≠ p) : (s.setOp p x).op q = s.op q := by rw [setOp_op, if_neg hq]

omit [Fintype P] in
theorem setOp_self : (s.setOp p x).op p = x := by rw [setOp_op, if_pos rfl]

omit [Fintype P] in
theorem of_setOp {y : OpState} (h : (s.setOp p x).op q = y) (hx : x ≠ y) : s.op q = y := by
  rw [setOp_op] at h
  split at h
  · exact absurd h hx
  · exact h

theorem Inv.beginTurn (h : Inv s) (hp : s.op p = .idle ∨ s.op p = .woken) : Inv (s.beginTurn p) := by
  have hact : active (s.op p) = 0 := by rcases hp with hp | hp <;> rw [hp] <;> rfl
  have hcom : commits (s.op p) = 0 := by rcases hp with hp | hp <;> rw [hp] <;> rfl
  rcases beginTurn_cases s p with ⟨hc, ht⟩ | ⟨hw, ht⟩
  · rw [ht]
    refine h.move setOp_self (fun q hq => .inl (setOp_other hq)) ?_ ?_ ?_ ?_ (fun _ _ _ _ _ => ⟨rfl, fun _ => id⟩)
      h.ended (fun q hq => h.cleared q (of_setOp hq nofun)) fun q hq => ?_
    · rw [hact]; rfl
    · rw [hcom]; rfl
    · intro hc'
      simp [hc] at hc'
    · intro g bs hx
      cases hx
      exact ⟨rfl, List.nil_subset _⟩
    · refine (h.asleep q (of_setOp hq nofun)).imp id fun hl => lt_of_lt_of_le hl ?_
      exact Nat.add_le_add_left (Nat.mul_le_mul_right _ (Nat.le_succ _)) _
  · rw [ht]
    refine h.move setOp_self (fun q hq => .inl (setOp_other hq)) ?_ ?_ h.quiet nofun
      (fun _ _ _ _ _ => ⟨rfl, fun _ => id⟩) h.ended (fun q hq => h.cleared q (of_setOp hq nofun)) fun q hq => hw
    · rw [hact]; rfl
    · rw [hcom]; rfl

theorem Inv.logWrite (h : Inv s) {g b : Nat} {bs : List Nat} {l : Log} (hp : s.op p = .active g bs)
    (hl : s.log.logWrite b = .ok l) : Inv { s.setOp p (.active g (b :: bs)) with log := l } := by
  obtain ⟨-, -, -, rfl⟩ := Log.logWrite_ok hl
  have hsub : s.log.lh ⊆ if b ∈ s.log.lh then s.log.lh else s.log.lh ++ [b] := by
    split
    · exact fun _ => id
    · exact List.subset_append_left _ _
  have hb : b ∈ if b ∈ s.log.lh then s.log.lh else s.log.lh ++ [b] := by
    split
    · assumption
    · simp
  refine h.move setOp_self (fun q hq => .inl (setOp_other hq)) (by rw [hp]; rfl) (by rw [hp]; rfl) h.quiet ?_
    (fun _ _ _ _ _ => ⟨rfl, hsub⟩) (fun y hy => ?_) (fun q hq => h.cleared q (of_setOp hq nofun)) fun q hq => ?_
  · intro g' bs' hx
    cases hx
    obtain ⟨h1, h2⟩ := h.current p g bs hp
    exact ⟨h1, List.cons_subset.mpr ⟨hb, fun c hc => hsub (h2 hc)⟩⟩
  · exact (h.ended y hy).imp_right fun ⟨h1, h2⟩ => ⟨h1, fun c hc => hsub (h2 hc)⟩
  · refine (h.asleep q (of_setOp hq nofun)).imp id fun hw => lt_of_lt_of_le hw ?_
    have hlen : s.log.lh.length ≤ (if b ∈ s.log.lh then s.log.lh else s.log.lh ++ [b]).length := by
      split <;> simp
    simp only
    omega

theorem Inv.endOp (h : Inv s) {g : Nat} {bs : List Nat} {c : Bool} (hp : s.op p = .active g bs)
    (hc : s.log.committing = false) (hz : c = true ↔ s.log.outstanding - 1 = 0) {u : GroupCommit P} (hu : u = { s with
      log := { s.log with outstanding := s.log.outstanding - 1, committing := c }, ended := (g, bs) :: s.ended }) :
    Inv (if c then u.setOp p .commit else u.wakeup.setOp p .idle) := by
  have hpos : 1 ≤ s.log.outstanding := Nat.one_le_iff_ne_zero.mpr fun ho => h.not_active ho p g bs hp
  have hend : ∀ y ∈ u.ended, (∃ h, u.committed[y.1]? = some h ∧ y.2 ⊆ h) ∨ y.1 = u.committed.length ∧
    y.2 ⊆ u.log.lh := by
    subst hu
    intro y hy
    rcases List.mem_cons.mp hy with rfl | hy
    · exact .inr (h.current p g bs hp)
    · exact h.ended y hy
  -- Nobody commits while an operation is under way.
  have hnot : ∀ q, s.op q ≠ .clear := fun q hq => by
    have := h.commits_of (p := q) (by rw [hq]; rfl)
    simp [hc] at this
  cases c with
  | true =>
    have ho := hz.mp rfl
    subst hu
    refine h.move setOp_self (fun q hq => .inl (setOp_other hq)) ?_ ?_ (fun _ => ho) nofun
      (fun _ _ _ _ _ => ⟨rfl, fun _ => id⟩) hend (fun q hq => absurd (of_setOp hq nofun) (hnot q)) fun q hq => .inl rfl
    · rw [hp]
      change s.log.outstanding - 1 + 1 = s.log.outstanding
      omega
    · rw [hp, hc]
      rfl
  | false =>
    subst hu
    refine h.move setOp_self (fun q hq => ?_) ?_ ?_ nofun nofun (fun _ _ _ _ _ => ⟨rfl, fun _ => id⟩) hend
      (fun q hq => ?_) fun q hq => absurd (of_setOp hq nofun) wakeup_not_asleep
    · simp only [if_neg Bool.false_ne_true]
      rw [setOp_other hq]
      exact wakeup_other
    · rw [hp]
      change s.log.outstanding - 1 + 1 = s.log.outstanding
      omega
    · rw [hp, hc]
      rfl
    · rcases wakeup_other (s := s) (q := q) with h1 | ⟨-, h1⟩
      · exact absurd (h1.symm.trans (of_setOp hq nofun)) (hnot q)
      · exact absurd (h1.symm.trans (of_setOp hq nofun)) nofun

theorem Inv.commit (h : Inv s) (hp : s.op p = .commit) :
    Inv { s.setOp p .clear with committed := s.committed ++ [s.log.lh] } := by
  have hc := h.commits_of (p := p) (by rw [hp]; rfl)
  have hend : ∀ y ∈ s.ended, ∃ h, (s.committed ++ [s.log.lh])[y.1]? = some h ∧ y.2 ⊆ h := fun y hy => by
    rcases h.ended y hy with ⟨c, h1, h2⟩ | ⟨h1, h2⟩
    · exact ⟨c, by rw [List.getElem?_append_left (List.getElem?_eq_some_iff.mp h1).1, h1], h2⟩
    · exact ⟨s.log.lh, by rw [h1]; simp, h2⟩
  refine h.move setOp_self (fun q hq => .inl (setOp_other hq)) (by rw [hp]; rfl) (by rw [hp]; rfl) h.quiet nofun
    (fun q g bs _ hq => absurd hq (h.not_active (h.quiet hc) q g bs)) (fun y hy => .inl (hend y hy))
    (fun q _ y hy => ?_) fun q hq => h.asleep q (of_setOp hq nofun)
  obtain ⟨c, h1, -⟩ := hend y hy
  exact (List.getElem?_eq_some_iff.mp h1).1

theorem Inv.clear (h : Inv s) (hp : s.op p = .clear) :
    Inv { s.setOp p .finish with log := { s.log with lh := [] } } := by
  have hc := h.commits_of (p := p) (by rw [hp]; rfl)
  refine h.move setOp_self (fun q hq => .inl (setOp_other hq)) (by rw [hp]; rfl) (by rw [hp]; rfl) h.quiet nofun
    (fun q g bs _ hq => absurd hq (h.not_active (h.quiet hc) q g bs)) (fun y hy => .inl ?_)
    (fun q hq => h.cleared q (of_setOp hq nofun)) fun q hq => .inl hc
  refine (h.ended y hy).resolve_right fun ⟨h1, _⟩ => ?_
  exact absurd (h.cleared p hp y hy) (by omega)

theorem Inv.finish (h : Inv s) (hp : s.op p = .finish) :
    Inv { s.wakeup.setOp p .idle with log := { s.log with committing := false } } := by
  have hc := h.commits_of (p := p) (by rw [hp]; rfl)
  refine h.move setOp_self (fun q hq => ?_) (by rw [hp]; rfl) ?_ nofun nofun (fun _ _ _ _ _ => ⟨rfl, fun _ => id⟩)
    h.ended (fun q hq => h.cleared q ?_) fun q hq => absurd (of_setOp hq nofun) wakeup_not_asleep
  · simp only
    rw [setOp_other hq]
    exact wakeup_other
  · rw [hp, hc]
    rfl
  · rcases wakeup_other (s := s) (q := q) with h1 | ⟨-, h1⟩
    · exact h1.symm.trans (of_setOp hq nofun)
    · exact absurd (h1.symm.trans (of_setOp hq nofun)) nofun

theorem Inv.step (h : Inv s) {a : Act P} (hs : s.step a = .ok t) : Inv t := by
  cases a with
  | beginOp p =>
    obtain ⟨hp, rfl⟩ := step_beginOp_inv hs
    exact h.beginTurn hp
  | logWrite p b =>
    obtain ⟨g, bs, l, hp, hl, rfl⟩ := step_logWrite_inv hs
    exact h.logWrite hp hl
  | endOp p =>
    obtain ⟨g, bs, c, hp, hc, hz, rfl⟩ := step_endOp_inv hs
    exact h.endOp hp hc hz rfl
  | commit p =>
    rcases step_commit_inv hs with ⟨hp, rfl⟩ | ⟨hp, rfl⟩ | ⟨hp, rfl⟩
    · exact h.commit hp
    · exact h.clear hp
    · exact h.finish hp

theorem reach_inv {l : Log} (h : (machine P l).Reach s) : Inv s := by
  refine h.invariant (I := Inv) ?_ fun s a t hi hs => hi.step hs
  rintro s rfl
  exact ⟨by simp [active], by simp [commits], nofun, nofun, nofun, nofun, nofun⟩

/-- While a commit is under way no operation is, and `end_op` does not find one under way; the blocks of an operation
    that has ended are all in the header of the commit that followed, or will be in that of the next one, as those of an
    operation under way; and nobody sleeps in `begin_op` without need. -/
theorem group_commit {l : Log} (h : (machine P l).Reach s) :
    (s.log.committing = true → s.log.outstanding = 0 ∧ ∀ p g bs, s.op p ≠ .active g bs) ∧
    (∀ p, s.step (.endOp p) ≠ .error (.panic "log.committing")) ∧ (∀ g bs, (g, bs) ∈ s.ended →
      (∃ lh, s.committed[g]? = some lh ∧ bs ⊆ lh) ∨ g = s.committed.length ∧ bs ⊆ s.log.lh) ∧
    (∀ p g bs, s.op p = .active g bs → g = s.committed.length ∧ bs ⊆ s.log.lh) ∧ ∀ p, s.op p = .asleep →
      ¬(s.log.committing = false ∧ s.log.lh.length + (s.log.outstanding + 1) * MAXOPBLOCKS ≤ LOGSIZE) := by
  have hi := reach_inv h
  refine ⟨fun hc => ⟨hi.quiet hc, hi.not_active (hi.quiet hc)⟩, fun p he => ?_, fun g bs hx => hi.ended (g, bs) hx,
    hi.current, fun p hp hno => ?_⟩
  · simp only [GroupCommit.step] at he
    split at he
    · next g bs hp =>
      rcases bind_eq_error.mp he with he | ⟨r, -, he⟩
      · exact hi.not_active (hi.quiet (Log.endOp_panic.mp he)) p g bs hp
      · cases he
    · cases he
  · rcases hi.asleep p hp with hw | hw
    · simp [hno.1] at hw
    · omega

/-- Process 0 logs a block while process 1 begins and ends an operation; process 1 is back in `begin_op` while process 0
    commits, and is woken. -/
def groupRun : List (Act (Fin 2)) :=
  [.beginOp 0, .logWrite 0 100, .beginOp 1, .logWrite 1 101, .endOp 1, .endOp 0, .beginOp 1, .commit 0, .commit 0,
    .commit 0]

theorem group_commit_groupRun : ∃ s : GroupCommit (Fin 2), (machine (Fin 2) mkfsLog).Reach s ∧ s.op 1 = .woken ∧
    s.ended = [(0, [100]), (0, [101])] ∧ s.committed = [[100, 101]] ∧ ∃ lh, s.committed[0]? = some lh ∧ [101] ⊆ lh := by
  obtain ⟨s, hs, h⟩ := Option.exists_of_any
      (o := groupRun.foldlM
        (fun (s : GroupCommit (Fin 2)) a =>
        (s.step a).toOption) { log := { start := mkfsLog.start, size := mkfsLog.size } })
      (p := fun s : GroupCommit (Fin 2) => s.op 1 = .woken ∧ s.ended = [(0, [100]), (0, [101])] ∧
        s.committed = [[100, 101]]) (by decide +kernel)
  have hr : (machine (Fin 2) mkfsLog).Reach s := .foldlM (fun _ _ _ => toOption_eq_some.mp) (.init rfl) hs
  obtain ⟨-, -, hend, -⟩ := group_commit hr
  refine ⟨s, hr, h.1, h.2.1, h.2.2, (hend 0 [101] (by simp [h.2.1])).resolve_right fun h0 => ?_⟩
  simp [h.2.2] at h0

end GroupCommit
end Xv6
