import Xv6.Lib.Machine
import Mathlib.Tactic.Common

/-! Programs as trees of atomic actions on a shared state. A program is run alone, or interleaved with
    the programs of other processes; one rely-guarantee proof serves both. -/

/-- A program: it returns, or does one atomic action, which may fail, and goes on with its result. -/
inductive Prog (σ ε α : Type) : Type 1
  | ret (a : α) : Prog σ ε α
  | act {β : Type} (f : σ → Except ε (β × σ)) (k : β → Prog σ ε α) : Prog σ ε α

namespace Prog

variable {σ ε α β : Type}

def bind : Prog σ ε α → (α → Prog σ ε β) → Prog σ ε β
  | ret a, g => g a
  | act f k, g => act f fun b => (k b).bind g

instance : Monad (Prog σ ε) where
  pure := ret
  bind := bind

def op (f : σ → Except ε (β × σ)) : Prog σ ε β := act f ret

structure Action (σ ε : Type) : Type 1 where
  {β : Type}
  run : σ → Except ε (β × σ)

def head : Prog σ ε α → Option (Action σ ε)
  | ret _ => none
  | act f _ => some ⟨f⟩

def run : Prog σ ε α → σ → Except ε (α × σ)
  | ret a, s => .ok (a, s)
  | act f k, s =>
    match f s with
    | .ok (b, t) => (k b).run t
    | .error e => .error e

theorem run_op (f : σ → Except ε (β × σ)) (s : σ) : (op f).run s = f s := by
  simp only [op, run]
  cases f s <;> rfl

theorem run_bind (x : Prog σ ε α) (g : α → Prog σ ε β) (s : σ) :
    (x >>= g).run s = x.run s >>= fun r => (g r.1).run r.2 := by
  change (x.bind g).run s = _
  induction x generalizing s with
  | ret a => rfl
  | act f k ih =>
    simp only [bind, run]
    cases f s with
    | error e => rfl
    | ok r => exact ih r.1 r.2

theorem bind_assoc {γ : Type} (x : Prog σ ε α) (f : α → Prog σ ε β) (g : β → Prog σ ε γ) :
    x >>= f >>= g = x >>= fun a => f a >>= g := by
  change (x.bind f).bind g = x.bind fun a => (f a).bind g
  induction x with
  | ret a => rfl
  | act h k ih => simp only [bind, ih]

/-- Run alone from a state that meets `A`, the program ends as `Q` says or fails as `E` says. -/
def Ends (x : Prog σ ε α) (A : σ → Prop) (Q : α → σ → Prop) (E : ε → Prop) : Prop :=
  ∀ s, A s → (∀ a t, x.run s = .ok (a, t) → Q a t) ∧ ∀ e, x.run s = .error e → E e

namespace Ends

variable {A B : σ → Prop} {Q R : α → σ → Prop} {E : ε → Prop} {x : Prog σ ε α}

theorem pre (h : x.Ends B Q E) (hAB : ∀ s, A s → B s) : x.Ends A Q E := fun s hs => h s (hAB s hs)

theorem post (h : x.Ends A R E) (hRQ : ∀ a s, R a s → Q a s) : x.Ends A Q E :=
  fun s hs => ⟨fun a t hr => hRQ a t ((h s hs).1 a t hr), (h s hs).2⟩

theorem each (h : ∀ u, A u → x.Ends (· = u) Q E) : x.Ends A Q E := fun s hs => h s hs s rfl

theorem given {c : Prop} (hc : ∀ s, A s → c) (h : c → x.Ends A Q E) : x.Ends A Q E := fun s hs => h (hc s hs) s hs

theorem of_exists {ι : Type} {A : ι → σ → Prop} (h : ∀ i, x.Ends (A i) Q E) : x.Ends (fun s => ∃ i, A i s) Q E :=
  fun s ⟨i, hs⟩ => h i s hs

theorem pure {a : α} (h : ∀ s, A s → Q a s) : (Pure.pure a : Prog σ ε α).Ends A Q E := by
  refine fun s hs => ⟨fun b t hr => ?_, fun e hr => nomatch hr⟩
  cases hr
  exact h s hs

theorem op {f : σ → Except ε (α × σ)} (hok : ∀ s a t, A s → f s = .ok (a, t) → Q a t)
    (herr : ∀ s e, A s → f s = .error e → E e) : (Prog.op f).Ends A Q E := by
  refine fun s hs => ⟨fun a t hr => ?_, fun e hr => ?_⟩
  · rw [run_op] at hr
    exact hok s a t hs hr
  · rw [run_op] at hr
    exact herr s e hs hr

theorem bind {g : α → Prog σ ε β} {Q : β → σ → Prop} (hx : x.Ends A R E) (hg : ∀ a, (g a).Ends (R a) Q E) :
    (x >>= g).Ends A Q E := by
  intro s hs
  rw [run_bind]
  cases hf : x.run s with
  | error e =>
    refine ⟨nofun, fun e' hr => ?_⟩
    cases hr
    exact (hx s hs).2 e hf
  | ok r => exact hg r.1 r.2 ((hx s hs).1 r.1 r.2 hf)

theorem returns {s : σ} (h : x.Ends A Q fun _ => False) (hs : A s) : ∃ r t, x.run s = .ok (r, t) ∧ Q r t := by
  obtain ⟨hok, herr⟩ := h s hs
  cases hr : x.run s with
  | error e => exact (herr e hr).elim
  | ok r => exact ⟨r.1, r.2, rfl, hok r.1 r.2 hr⟩

end Ends

end Prog

/-- What every action has to respect. Process `p` relies on what the others do; `assume` restricts the runs to some
    states, and `side` the next action of each process. -/
structure Discipline (P σ ε : Type) where
  inv : σ → Prop
  assume : σ → Prop
  side : P → Prog.Action σ ε → σ → Prop
  rely : P → σ → σ → Prop
  guar : P → σ → σ → Prop
  err : P → σ → ε → Prop

namespace Discipline

variable {P σ ε α β : Type} {D : Discipline P σ ε} {p : P}

def Stable (D : Discipline P σ ε) (p : P) (A : σ → Prop) : Prop :=
  ∀ s t, D.inv s → D.inv t → D.rely p s t → A s → A t

/-- The run meets the side condition of the next action of the program. -/
def Ready (D : Discipline P σ ε) (p : P) (x : Prog σ ε α) (s : σ) : Prop := ∀ a, x.head = some a → D.side p a s

/-- The actions of the other processes keep `A` while process `p` is about to run the program. -/
def StableFor (D : Discipline P σ ε) (p : P) (x : Prog σ ε α) (A : σ → Prop) : Prop :=
  ∀ s t, D.inv s → D.inv t → D.rely p s t → D.Ready p x s → A s → A t

/-- Process `p` runs the program from `A`: each action keeps the discipline whatever the others do before
    it, and the program returns with `Q`. -/
def Safe (D : Discipline P σ ε) (p : P) : Prog σ ε α → (σ → Prop) → (α → σ → Prop) → Prop
  | .ret a, A, Q => ∀ s, D.inv s → A s → Q a s
  | .act f k, A, Q => ∀ s, D.inv s → A s →
    match f s with
    | .ok (b, t) => D.side p ⟨f⟩ s → D.assume t →
      D.inv t ∧ D.guar p s t ∧ ∃ B, D.StableFor p (k b) B ∧ B t ∧ Safe D p (k b) B Q
    | .error e => D.err p s e

variable {A : σ → Prop}

theorem Stable.for (h : D.Stable p A) (x : Prog σ ε α) : D.StableFor p x A :=
  fun s t hi hi' hr _ => h s t hi hi' hr

variable {x : Prog σ ε α}

theorem Ready.of_bind {g : α → Prog σ ε β} {s : σ} (h : D.Ready p (x.bind g) s) : D.Ready p x s := by
  cases x with
  | ret a => exact fun _ ha => nomatch ha
  | act f k => exact h

theorem StableFor.bind (h : D.StableFor p x A) (g : α → Prog σ ε β) : D.StableFor p (x.bind g) A :=
  fun s t hi hi' hr hs => h s t hi hi' hr hs.of_bind

/-! ### Rules -/

variable {Q : α → σ → Prop}

theorem Safe.pre {A B : σ → Prop} (h : D.Safe p x B Q) (hAB : ∀ s, D.inv s → A s → B s) : D.Safe p x A Q := by
  cases x with
  | ret a => exact fun s hi hA => h s hi (hAB s hi hA)
  | act f k => exact fun s hi hA => h s hi (hAB s hi hA)

theorem Safe.post {Q R : α → σ → Prop} (h : D.Safe p x A Q) (hQR : ∀ a s, D.inv s → Q a s → R a s) :
    D.Safe p x A R := by
  induction x generalizing A with
  | ret a => exact fun s hi hA => hQR a s hi (h s hi hA)
  | act f k ih =>
    intro s hi hA
    have h' := h s hi hA
    cases hf : f s with
    | error e => simpa only [hf] using h'
    | ok r =>
      simp only [hf] at h' ⊢
      intro hs ha
      obtain ⟨hi', hg, B, hst, hB, hk⟩ := h' hs ha
      exact ⟨hi', hg, B, hst, hB, ih r.1 hk⟩

theorem Safe.given {c : Prop} (hc : ∀ s, D.inv s → A s → c) (h : c → D.Safe p x A Q) : D.Safe p x A Q := by
  cases x with
  | ret a => exact fun s hi hA => h (hc s hi hA) s hi hA
  | act f k => exact fun s hi hA => h (hc s hi hA) s hi hA

theorem Safe.pure {a : α} (h : ∀ s, D.inv s → A s → Q a s) :
    D.Safe p (Pure.pure a : Prog σ ε α) A Q := h

theorem Safe.bind {g : α → Prog σ ε β} {R : α → σ → Prop} {Q : β → σ → Prop}
    (hx : D.Safe p x A R) (hg : ∀ a, D.Safe p (g a) (R a) Q) : D.Safe p (x >>= g) A Q := by
  change D.Safe p (x.bind g) A Q
  induction x generalizing A with
  | ret a => exact (hg a).pre hx
  | act f k ih =>
    intro s hi hA
    have h' := hx s hi hA
    cases hf : f s with
    | error e => simpa only [hf] using h'
    | ok r =>
      simp only [hf] at h' ⊢
      intro hs ha
      obtain ⟨hi', hgu, B, hst, hB, hk⟩ := h' hs ha
      exact ⟨hi', hgu, B, hst.bind g, hB, ih r.1 hk⟩

/-- The rule of one action: what it leaves behind has to be stable. -/
theorem Safe.op {f : σ → Except ε (β × σ)} {Q : β → σ → Prop} (hst : ∀ b, D.Stable p (Q b))
    (hok : ∀ s b t, D.inv s → A s → f s = .ok (b, t) → D.assume t → D.inv t ∧ D.guar p s t ∧ Q b t)
    (herr : ∀ s e, D.inv s → A s → f s = .error e → D.err p s e) : D.Safe p (Prog.op f) A Q := by
  intro s hi hA
  cases hf : f s with
  | error e => exact herr s e hi hA hf
  | ok r =>
    intro _ ha
    obtain ⟨hi', hg, hQ⟩ := hok s r.1 r.2 hi hA hf ha
    exact ⟨hi', hg, Q r.1, (hst r.1).for _, hQ, fun t _ h => h⟩

/-- The rule of one action that is followed by another: what it leaves behind has to be stable as long as the
    side condition of that one holds. -/
theorem Safe.opBind {f : σ → Except ε (β × σ)} {g : β → Prog σ ε α} {R : β → σ → Prop}
    (hst : ∀ b, D.StableFor p (g b) (R b))
    (hok : ∀ s b t, D.inv s → A s → f s = .ok (b, t) → D.side p ⟨f⟩ s → D.assume t → D.inv t ∧ D.guar p s t ∧ R b t)
    (herr : ∀ s e, D.inv s → A s → f s = .error e → D.err p s e) (hg : ∀ b, D.Safe p (g b) (R b) Q) :
    D.Safe p (Prog.op f >>= g) A Q := by
  intro s hi hA
  cases hf : f s with
  | error e => exact herr s e hi hA hf
  | ok r =>
    intro hs ha
    obtain ⟨hi', hgu, hR⟩ := hok s r.1 r.2 hi hA hf hs ha
    exact ⟨hi', hgu, R r.1, hst r.1, hR, hg r.1⟩

theorem Stable.and {A B : σ → Prop} (hA : D.Stable p A) (hB : D.Stable p B) : D.Stable p fun s => A s ∧ B s :=
  fun s t hi hi' hr h => ⟨hA s t hi hi' hr h.1, hB s t hi hi' hr h.2⟩

theorem Stable.const (A : Prop) : D.Stable p fun _ => A := fun _ _ _ _ _ h => h

theorem Stable.exists {ι : Type} {A : ι → σ → Prop} (h : ∀ i, D.Stable p (A i)) : D.Stable p fun s => ∃ i, A i s :=
  fun s t hi hi' hr ⟨i, hA⟩ => ⟨i, h i s t hi hi' hr hA⟩

/-! ### Programs run alone -/

/-- A program that keeps the discipline, run alone, returns with its postcondition, and what every one of its
    actions keeps is kept. -/
theorem Safe.run_ok {s t : σ} {a : α} (h : D.Safe p x A Q)
    (hside : ∀ f s, D.side p f s) (hD : ∀ s, D.assume s) (hi : D.inv s) (hA : A s) (hr : x.run s = .ok (a, t)) :
    D.inv t ∧ Q a t ∧ ∀ B : σ → Prop, (∀ s t, D.inv s → D.inv t → D.guar p s t → B s → B t) → B s → B t := by
  induction x generalizing A s with
  | ret b =>
    simp only [Prog.run, Except.ok.injEq, Prod.mk.injEq] at hr
    obtain ⟨rfl, rfl⟩ := hr
    exact ⟨hi, h _ hi hA, fun _ _ hB => hB⟩
  | act f k ih =>
    have h' := h s hi hA
    simp only [Prog.run] at hr
    cases hf : f s with
    | error e => simp [hf] at hr
    | ok r =>
      simp only [hf] at h' hr
      obtain ⟨hi', hg, B, hst, hB, hk⟩ := h' (hside _ _) (hD _)
      obtain ⟨h1, h2, h3⟩ := ih r.1 hk hi' hB hr
      exact ⟨h1, h2, fun C hC hs => h3 C hC (hC s r.2 hi hi' hg hs)⟩

/-- A program that keeps the discipline, run alone, fails only as the discipline allows. -/
theorem Safe.run_error {s : σ} {e : ε} (h : D.Safe p x A Q)
    (hside : ∀ f s, D.side p f s) (hD : ∀ s, D.assume s) (hi : D.inv s) (hA : A s) (hr : x.run s = .error e) :
    ∃ t, D.inv t ∧ D.err p t e := by
  induction x generalizing A s with
  | ret b => cases hr
  | act f k ih =>
    have h' := h s hi hA
    simp only [Prog.run] at hr
    cases hf : f s with
    | error e' =>
      simp only [hf, Except.error.injEq] at h' hr
      exact ⟨s, hi, hr ▸ h'⟩
    | ok r =>
      simp only [hf] at h' hr
      obtain ⟨hi', -, B, -, hB, hk⟩ := h' (hside _ _) (hD _)
      exact ih r.1 hk hi' hB hr

end Discipline

/-! ### Programs interleaved -/

/-- The shared state, and what is left of the program each process is running. -/
structure Pool (P σ ε ρ : Type) : Type 1 where
  state : σ
  prog : P → Option (Prog σ ε ρ)

namespace Pool

inductive Label (P C : Type)
  | start (p : P) (c : C)
  | step (p : P)

variable {P C σ ε ρ : Type} [DecidableEq P]

/-- One step of the pool. A process whose action fails stays where it is. -/
def next (code : P → C → Prog σ ε ρ) (may : P → σ → Bool) (w : Pool P σ ε ρ) :
    Label P C → Option (Pool P σ ε ρ)
  | .start p c =>
    match w.prog p with
    | none => if may p w.state then some { w with prog := Function.update w.prog p (some (code p c)) } else none
    | some _ => none
  | .step p =>
    match w.prog p with
    | none => none
    | some (.ret _) => some { w with prog := Function.update w.prog p none }
    | some (.act f k) =>
      match f w.state with
      | .ok (b, t) => some ⟨t, Function.update w.prog p (some (k b))⟩
      | .error _ => none

variable {code : P → C → Prog σ ε ρ} {may : P → σ → Bool}

theorem next_op {w w' : Pool P σ ε ρ} {p : P} {β : Type}
    {f : σ → Except ε (β × σ)} {g : β → Prog σ ε ρ} (hp : w.prog p = some (Prog.op f >>= g))
    (hn : w.next code may (.step p) = some w') :
    ∃ b t, f w.state = .ok (b, t) ∧ w' = ⟨t, Function.update w.prog p (some (g b))⟩ := by
  have hp : w.prog p = some (.act f g) := hp
  simp only [next, hp] at hn
  split at hn
  · next b t hf =>
    cases hn
    exact ⟨b, t, hf, rfl⟩
  · cases hn

theorem next_ret {w w' : Pool P σ ε ρ} {p : P} {v : ρ}
    (hp : w.prog p = some (pure v)) (hn : w.next code may (.step p) = some w') :
    w' = { w with prog := Function.update w.prog p none } := by
  have hp : w.prog p = some (.ret v) := hp
  simp only [next, hp, Option.some.injEq] at hn
  exact hn.symm

def machine (code : P → C → Prog σ ε ρ) (may : P → σ → Bool) (init : σ → Prop) :
    Machine (Pool P σ ε ρ) (Label P C) where
  init w := init w.state ∧ ∀ p, w.prog p = none
  step w l w' := w.next code may l = some w'

/-- The failure of the next action of process `p`: what keeps it where it is. -/
def stuck (w : Pool P σ ε ρ) (p : P) : Option ε :=
  match w.prog p with
  | some (.act f _) =>
    match f w.state with
    | .ok _ => none
    | .error e => some e
  | _ => none

variable {w : Pool P σ ε ρ}

omit [DecidableEq P] in
theorem stuck_op {p : P} {β : Type} {f : σ → Except ε (β × σ)} {g : β → Prog σ ε ρ}
    (hp : w.prog p = some (Prog.op f >>= g)) :
    w.stuck p = match f w.state with | .ok _ => none | .error e => some e := by
  have hp : w.prog p = some (.act f g) := hp
  rw [stuck, hp]

theorem next_of_not_stuck {p : P}
    (hp : w.prog p ≠ none) (hs : w.stuck p = none) : ∃ w', w.next code may (.step p) = some w' := by
  cases hx : w.prog p with
  | none => exact absurd hx hp
  | some x =>
    cases x with
    | ret v => exact ⟨{ w with prog := Function.update w.prog p none }, by simp only [next, hx]⟩
    | act f k =>
      rw [stuck, hx] at hs
      simp only [next, hx]
      cases hf : f w.state with
      | ok r => exact ⟨_, rfl⟩
      | error e => simp [hf] at hs

/-- Every process is somewhere inside a program that keeps the discipline, or idle. -/
structure Good (D : Discipline P σ ε) (idle : P → σ → Prop) (w : Pool P σ ε ρ) : Prop where
  inv : D.inv w.state
  atRest : ∀ p, w.prog p = none → idle p w.state
  safe : ∀ p x, w.prog p = some x → ∃ A, D.StableFor p x A ∧ A w.state ∧ D.Safe p x A fun _ => idle p

/-- The run meets the side conditions of the next actions of all processes. -/
def Ready (D : Discipline P σ ε) (w : Pool P σ ε ρ) : Prop := ∀ p x, w.prog p = some x → D.Ready p x w.state

variable {D : Discipline P σ ε} {idle ready : P → σ → Prop} {code : P → C → Prog σ ε ρ} {may : P → σ → Bool}

/-- What a process has to know to start a call, and what its calls keep. -/
structure Keeps (D : Discipline P σ ε) (code : P → C → Prog σ ε ρ) (may : P → σ → Bool) (idle ready : P → σ → Prop) :
    Prop where
  rely : ∀ p q s t, q ≠ p → D.guar q s t → D.rely p s t
  idle_stable : ∀ p, D.Stable p (idle p)
  ready_stable : ∀ p, D.Stable p (ready p)
  start : ∀ p s, D.inv s → idle p s → may p s = true → ready p s
  code : ∀ p c, D.Safe p (code p c) (ready p) fun _ => idle p

/-- A step keeps the discipline: each process goes on as it was, and the state is the same or was changed as one
    process may change it. -/
theorem Good.next (hk : Keeps D code may idle ready) {w w' : Pool P σ ε ρ} {l : Label P C} (hw : w.Good D idle)
    (hr : w.Ready D) (h : w.next code may l = some w') (ha : D.assume w'.state) :
    w'.Good D idle ∧ (w'.state = w.state ∨ ∃ p, D.guar p w.state w'.state) := by
  cases l with
  | start p c =>
    simp only [Pool.next] at h
    split at h
    case h_2 => cases h
    case h_1 hp =>
      split at h
      case isFalse => cases h
      case isTrue hmay =>
        cases h
        refine ⟨⟨hw.inv, fun q hq => ?_, fun q x hx => ?_⟩, .inl rfl⟩
        · by_cases hqp : q = p
          · subst hqp; simp at hq
          · exact hw.atRest q (by simpa [hqp] using hq)
        · by_cases hqp : q = p
          · subst hqp
            simp only [Function.update_self, Option.some.injEq] at hx
            subst hx
            exact ⟨ready q, (hk.ready_stable q).for _, hk.start q _ hw.inv (hw.atRest q hp) hmay, hk.code q c⟩
          · exact hw.safe q x (by simpa [hqp] using hx)
  | step p =>
    simp only [Pool.next] at h
    split at h
    case h_1 => cases h
    case h_2 hp =>
      cases h
      obtain ⟨A, -, hA, hs⟩ := hw.safe p _ hp
      refine ⟨⟨hw.inv, fun q hq => ?_, fun q x hx => ?_⟩, .inl rfl⟩
      · by_cases hqp : q = p
        · subst hqp; exact hs _ hw.inv hA
        · exact hw.atRest q (by simpa [hqp] using hq)
      · by_cases hqp : q = p
        · subst hqp; simp at hx
        · exact hw.safe q x (by simpa [hqp] using hx)
    case h_3 f k hp =>
      obtain ⟨A, -, hA, hs⟩ := hw.safe p _ hp
      have hstep := hs _ hw.inv hA
      split at h
      case h_2 => cases h
      case h_1 b t hf =>
        cases h
        simp only [hf] at hstep
        obtain ⟨hi, hg, B, hst, hB, hrest⟩ := hstep (hr p _ hp _ rfl) ha
        refine ⟨⟨hi, fun q hq => ?_, fun q x hx => ?_⟩, .inr ⟨p, hg⟩⟩
        · by_cases hqp : q = p
          · subst hqp; simp at hq
          · exact hk.idle_stable q _ t hw.inv hi (hk.rely q p _ t (Ne.symm hqp) hg)
              (hw.atRest q (by simpa [hqp] using hq))
        · by_cases hqp : q = p
          · subst hqp
            simp only [Function.update_self, Option.some.injEq] at hx
            subst hx
            exact ⟨B, hst, hB, hrest⟩
          · have hq : w.prog q = some x := by simpa [hqp] using hx
            obtain ⟨A', hst', hA', hs'⟩ := hw.safe q x hq
            exact ⟨A', hst', hst' _ t hw.inv hi (hk.rely q p _ t (Ne.symm hqp) hg) (hr q x hq) hA', hs'⟩

omit [DecidableEq P] in
theorem Good.stuck {p : P} {e : ε} (hw : w.Good D idle) (h : w.stuck p = some e) : D.err p w.state e := by
  unfold Pool.stuck at h
  split at h
  case h_2 => cases h
  case h_1 f k hp =>
    obtain ⟨A, -, hA, hs⟩ := hw.safe p _ hp
    have hstep := hs _ hw.inv hA
    split at h
    case h_1 => cases h
    case h_2 e' hf =>
      simp only [hf] at hstep
      cases h
      exact hstep

theorem reach_good {init : σ → Prop} {K : Pool P σ ε ρ → Label P C → Prop} (hk : Keeps D code may idle ready)
    (hinit : ∀ s, init s → D.inv s ∧ ∀ p, idle p s)
    (hK : ∀ w l w', K w l → w.next code may l = some w' → w.Ready D ∧ D.assume w'.state)
    (h : (machine code may init).ReachWhere K w) : w.Good D idle := by
  refine h.invariant (fun w hw => ?_) fun s a t hg hc hs => (hg.next hk (hK s a t hc hs).1 hs (hK s a t hc hs).2).1
  obtain ⟨hi, hid⟩ := hinit _ hw.1
  exact ⟨hi, fun p _ => hid p, fun p x hx => by rw [hw.2 p] at hx; cases hx⟩

end Pool
