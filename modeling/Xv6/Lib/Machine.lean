/-! Transition systems with labelled steps: the states that runs reach, and the rule that carries an
    invariant along every run. A run can be restricted to steps that meet a condition on the state
    before the step and on its label. -/

universe u v

/-- Evaluation finds what a computation ends in and what holds of it. -/
theorem Option.exists_of_any {α : Type u} {o : Option α} {p : α → Prop} [DecidablePred p]
    (h : o.any (fun a => decide (p a)) = true) : ∃ a, o = some a ∧ p a := by
  cases o with
  | none => cases h
  | some a => exact ⟨a, rfl, of_decide_eq_true h⟩

structure Machine (σ : Type u) (ι : Type v) where
  init : σ → Prop
  step : σ → ι → σ → Prop

namespace Machine

variable {σ : Type u} {ι : Type v}

inductive ReachWhere (m : Machine σ ι) (C : σ → ι → Prop) : σ → Prop
  | init {s : σ} (h : m.init s) : ReachWhere m C s
  | step {s t : σ} {a : ι} (hr : ReachWhere m C s) (hc : C s a) (hs : m.step s a t) : ReachWhere m C t

def Reach (m : Machine σ ι) : σ → Prop := m.ReachWhere fun _ _ => True

variable {m : Machine σ ι} {C D : σ → ι → Prop} {s t : σ}

/-- What holds initially and is kept by each step that meets `C` holds in every state of such a run. -/
theorem ReachWhere.invariant {I : σ → Prop} (hinit : ∀ s, m.init s → I s)
    (hstep : ∀ s a t, I s → C s a → m.step s a t → I t) (h : m.ReachWhere C s) : I s := by
  induction h with
  | init h => exact hinit _ h
  | step _ hc hs ih => exact hstep _ _ _ ih hc hs

theorem ReachWhere.mono (hCD : ∀ s a, C s a → D s a) (h : m.ReachWhere C s) : m.ReachWhere D s := by
  induction h with
  | init h => exact .init h
  | step _ hc hs ih => exact .step ih (hCD _ _ hc) hs

theorem ReachWhere.reach (h : m.ReachWhere C s) : m.Reach s := h.mono fun _ _ _ => trivial

theorem Reach.init (h : m.init s) : m.Reach s := ReachWhere.init h

theorem Reach.step {a : ι} (hr : m.Reach s) (hs : m.step s a t) : m.Reach t := ReachWhere.step hr trivial hs

theorem Reach.invariant {I : σ → Prop} (hinit : ∀ s, m.init s → I s)
    (hstep : ∀ s a t, I s → m.step s a t → I t) (h : m.Reach s) : I s :=
  ReachWhere.invariant hinit (fun s a t hi _ hs => hstep s a t hi hs) h

/-- A run computed step by step is a run of the machine. -/
theorem ReachWhere.foldlM_mem {f : σ → ι → Option σ} {as : List ι}
    (hf : ∀ a ∈ as, ∀ s t, f s a = some t → C s a ∧ m.step s a t) (hr : m.ReachWhere C s) (h : as.foldlM f s = some t) :
    m.ReachWhere C t := by
  induction as generalizing s with
  | nil =>
    cases h
    exact hr
  | cons a as ih =>
    rw [List.foldlM_cons, Option.bind_eq_bind, Option.bind_eq_some_iff] at h
    obtain ⟨u, hu, h⟩ := h
    obtain ⟨hc, hs⟩ := hf a List.mem_cons_self s u hu
    exact ih (fun b hb => hf b (List.mem_cons_of_mem a hb)) (.step hr hc hs) h

theorem ReachWhere.foldlM {f : σ → ι → Option σ} (hf : ∀ s a t, f s a = some t → C s a ∧ m.step s a t)
    {as : List ι} (hr : m.ReachWhere C s) (h : as.foldlM f s = some t) : m.ReachWhere C t :=
  foldlM_mem (fun a _ s t => hf s a t) hr h

theorem Reach.foldlM {f : σ → ι → Option σ} (hf : ∀ s a t, f s a = some t → m.step s a t) {as : List ι}
    (hr : m.Reach s) (h : as.foldlM f s = some t) : m.Reach t :=
  ReachWhere.foldlM (fun s a t h => ⟨trivial, hf s a t h⟩) hr h

end Machine
