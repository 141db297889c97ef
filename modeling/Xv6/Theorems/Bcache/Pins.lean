import Xv6.Theorems.Bcache.Transparent

/-! The buffers that only the log keeps in the cache: a dirty buffer that nobody is writing is for a block that the
    log header lists and `install_trans` has still to write. -/

namespace Xv6
open Function List Option
namespace Bcache

def Stmt.cur (n : Option Nat) : Stmt → Option Nat
  | .bread .dbuf b => some b
  | .brelse .dbuf => none
  | .bread .lbuf _ | .brelse .lbuf | .memmove .. | .setHead _ | .bwrite .. | .clear | .endOp => n

def Stmt.installs (n : Option Nat) : Stmt → List Nat
  | .bwrite .dbuf .installTrans => n.toList
  | _ => []

/-- The blocks that will be installed before the header is cleared; `n` is the block that `dbuf` is for. -/
def owed : Option Nat → List Stmt → List Nat
  | _, [] => []
  | _, .clear :: _ => []
  | n, x :: rest => x.installs n ++ owed (x.cur n) rest

theorem owed_cons {x : Stmt} (hx : x ≠ .clear) (n : Option Nat) (rest : List Stmt) :
    owed n (x :: rest) = x.installs n ++ owed (x.cur n) rest := by
  cases x <;> first | rfl | exact absurd rfl hx

theorem owed_writeLog (start : Nat) (lh : List Nat) (n : Option Nat) (tail : Nat) (rest : List Stmt) :
    ∃ n', owed n (writeLog start lh tail ++ rest) = owed n' rest := by
  induction lh generalizing n tail with
  | nil => exact ⟨n, rfl⟩
  | cons b bs ih =>
    obtain ⟨n', h⟩ := ih none (tail + 1)
    exact ⟨n', h⟩

theorem mem_owed_installTrans (start : Nat) {lh : List Nat} {b : Nat} (hb : b ∈ lh) (n : Option Nat) (tail : Nat)
    (rest : List Stmt) : b ∈ owed n (installTrans start lh tail ++ rest) := by
  induction lh generalizing n tail with
  | nil => cases hb
  | cons c cs ih =>
    change b ∈ [c] ++ owed none (installTrans start cs (tail + 1) ++ rest)
    rcases mem_cons.mp hb with rfl | hb
    · exact mem_append_left _ (mem_singleton_self b)
    · exact mem_append_right _ (ih hb none (tail + 1))

theorem mem_owed_commit {l : Log} {b : Nat} (hb : b ∈ l.lh) (n : Option Nat) : b ∈ owed n (commit l ++ [.endOp]) := by
  have hpos : l.lh.length > 0 := length_pos_of_mem hb
  rw [commit, if_pos hpos]
  simp only [append_assoc]
  obtain ⟨n', h⟩ := owed_writeLog l.start l.lh n 0
    (writeHead l.start ++ (installTrans l.start l.lh 0 ++ ([.clear] ++ (writeHead l.start ++ [.endOp]))))
  rw [h]
  exact mem_owed_installTrans l.start hb n' 0 _

theorem commit_last (l : Log) : ∀ x ∈ commit l, x ≠ .endOp := by
  have hlog : ∀ lh n, ∀ x ∈ writeLog l.start lh n, x ≠ .endOp := by
    intro lh
    induction lh with
    | nil => simp [writeLog]
    | cons b bs ih =>
      intro n
      simpa [writeLog] using ih (n + 1)
  have hinst : ∀ lh n, ∀ x ∈ installTrans l.start lh n, x ≠ .endOp := by
    intro lh
    induction lh with
    | nil => simp [installTrans]
    | cons b bs ih =>
      intro n
      simpa [installTrans] using ih (n + 1)
  unfold commit
  split
  · have hhead : ∀ x ∈ writeHead l.start, x ≠ .endOp := by simp [writeHead]
    simp only [forall_mem_append]
    exact ⟨⟨⟨⟨hlog _ _, hhead⟩, hinst _ _⟩, by simp⟩, hhead⟩
  · simp

variable {P : Type} {d : Nat × Nat → Block} {start size : Nat} {s t : Bcache P} {i j : Fin NBUF} {p q : P}
  {k : Nat × Nat} {b : Buf P} {c : Client}

theorem Stage.on_writes {x : Stage} : x.on j = .writes ↔ ∃ w, x = .writes j w := by
  cases x with
  | writes i w => simp [Stage.on]
  | idle => simp [Stage.on]
  | waits k i | got k i | reads k i | drops i =>
    simp only [Stage.on]
    split_ifs <;> simp

def Pinned (s : Bcache P) (i : Fin NBUF) : Prop := (s.buf i).dirty = true ∧ ∀ q, s.role i q ≠ .writes

def cur (s : Bcache P) (p : P) : Option Nat := ((s.client p).var .dbuf).map fun i => (s.buf i).blockno

def Covered (s : Bcache P) (p : P) : Prop := ∀ i, s.Pinned i → (s.buf i).blockno ∈ owed (s.cur p) (s.client p).todo

def AtRoot (s : Bcache P) : Prop := ∀ i, (s.buf i).Requested → (s.buf i).dev = ROOTDEV

structure Pins (s : Bcache P) : Prop where
  root : s.AtRoot
  logged : ∀ i, s.Pinned i → (s.buf i).blockno ∈ s.log.lh
  covered : ∀ p, .clear ∈ (s.client p).todo → s.Covered p
  busy : ∀ p, (s.client p).todo ≠ [] → s.log.committing = true
  quiet : s.log.committing = true → s.log.outstanding = 0
  one : ∀ p q, (s.client p).todo ≠ [] → (s.client q).todo ≠ [] → p = q
  last : ∀ p l r, (s.client p).todo = l ++ .endOp :: r → r = []

structure Effect (s t : Bcache P) (p : P) : Prop where
  client : ∀ {q}, q ≠ p → t.client q = s.client q
  still : ∀ {i q}, q ≠ p → (s.buf i).lock = some q → Still s t i
  pinned : ∀ {i}, t.Pinned i → s.Pinned i ∧ (t.buf i).blockno = (s.buf i).blockno
  root : s.AtRoot → t.AtRoot
  log : t.log = s.log

theorem Covered.step (h : s.Covered p) (hp : ∀ {i}, t.Pinned i → s.Pinned i ∧ (t.buf i).blockno = (s.buf i).blockno)
    (ho : ∀ n ∈ owed (s.cur p) (s.client p).todo, n ∈ owed (t.cur p) (t.client p).todo) : t.Covered p := fun i hi => by
  obtain ⟨h1, h2⟩ := hp hi
  rw [h2]
  exact ho _ (h i h1)

theorem cur_eq (hv : (t.client p).var .dbuf = (s.client p).var .dbuf)
    (hb : ∀ i, (s.client p).var .dbuf = some i → (t.buf i).blockno = (s.buf i).blockno) : t.cur p = s.cur p := by
  unfold cur
  rw [hv]
  cases h : (s.client p).var .dbuf with
  | none => rfl
  | some i =>
    rw [map_some, map_some, hb i h]

theorem Still.blockno (h : Still s t i) (hl : (s.buf i).lock = some p) : (t.buf i).blockno = (s.buf i).blockno :=
  congrArg Prod.snd (h.key hl)

theorem Effect.trans {u : Bcache P} (e : Effect s t p) (f : Effect t u p) : Effect s u p where
  client hq := (f.client hq).trans (e.client hq)
  still {i q} hq hl := by
    have h1 := e.still hq hl
    have h2 := f.still hq (h1.lock hl)
    exact ⟨h2.1.trans h1.1, fun _ => (h2.key (h1.lock hl)).trans (h1.key hl)⟩
  pinned hi := by
    obtain ⟨h1, h2⟩ := f.pinned hi
    obtain ⟨h3, h4⟩ := e.pinned h1
    exact ⟨h3, h2.trans h4⟩
  root h := f.root (e.root h)
  log := f.log.trans e.log

theorem Covered.pop (h : s.Covered p) (e : Effect s t p) {x : Stmt} (hx : x ≠ .clear)
    (htodo : (s.client p).todo = x :: (t.client p).todo) (hpay : x.installs (s.cur p) = [])
    (hcur : t.cur p = x.cur (s.cur p)) : t.Covered p := by
  refine h.step e.pinned ?_
  rw [htodo, owed_cons hx, hpay, hcur]
  exact fun _ h => h

theorem Covered.same (h : s.Covered p) (e : Effect s t p) (htodo : (t.client p).todo = (s.client p).todo)
    (hcur : t.cur p = s.cur p) : t.Covered p := by
  refine h.step e.pinned ?_
  rw [htodo, hcur]
  exact fun _ h => h

theorem Pins.of_quiet (hroot : t.AtRoot) (hlogged : ∀ i, t.Pinned i → (t.buf i).blockno ∈ t.log.lh)
    (htodo : ∀ q, (t.client q).todo = []) (hquiet : t.log.committing = true → t.log.outstanding = 0) : Pins t where
  root := hroot
  logged := hlogged
  covered q hq := by
    rw [htodo] at hq
    cases hq
  busy q hq := absurd (htodo q) hq
  quiet := hquiet
  one q r hq := absurd (htodo q) hq
  last q l r hq := by
    rw [htodo] at hq
    cases l <;> cases hq

theorem Pins.todo_nil (h : Pins s) (hc : s.log.committing = false) (q : P) : (s.client q).todo = [] := by
  by_contra hq
  have := h.busy q hq
  rw [hc] at this
  cases this

theorem pins_init {havedisk1 : Bool} {l : Log} (hl : l.committing = false) :
    Pins ({ disk := d, havedisk1 := havedisk1, log := l } : Bcache P) := by
  refine .of_quiet (fun i hi => ?_) (fun i hi => (by cases hi.1)) (fun _ => rfl) fun hc => ?_
  · rcases hi with hi | hi
    · exact absurd rfl hi
    · cases hi
  · rw [hl] at hc
    cases hc

section Moves

variable [Fintype P]

theorem Pins.effect (h : Pins s) (hw : Writers True d start size s) (e : Effect s t p)
    (htodo : (t.client p).todo = (s.client p).todo ∨ ∃ x, (s.client p).todo = x :: (t.client p).todo)
    (hcov : .clear ∈ (t.client p).todo → t.Covered p) : Pins t := by
  have hne : ∀ q, (t.client q).todo ≠ [] → (s.client q).todo ≠ [] := by
    intro q hq
    by_cases hqp : q = p
    · subst hqp
      rcases htodo with ht | ⟨x, ht⟩
      · exact ht ▸ hq
      · rw [ht]
        exact cons_ne_nil _ _
    · rwa [e.client hqp] at hq
  refine ⟨e.root h.root, fun i hi => ?_, fun q hq => ?_, fun q hq => ?_, ?_,
    fun q r hq hr => h.one q r (hne q hq) (hne r hr), fun q l r hq => ?_⟩
  · obtain ⟨h1, h2⟩ := e.pinned hi
    rw [h2, e.log]
    exact h.logged i h1
  · by_cases hqp : q = p
    · exact hqp ▸ hcov (hqp ▸ hq)
    · have hcl := e.client hqp
      rw [hcl] at hq
      have hcur : t.cur q = s.cur q := by
        refine cur_eq (by rw [hcl]) fun i hi => ?_
        have hl := (hw.client q).held (ne_nil_of_mem hq) hi
        exact (e.still hqp hl).blockno hl
      refine (h.covered q hq).step e.pinned ?_
      rw [hcur, hcl]
      exact fun _ h => h
  · rw [e.log]
    exact h.busy q (hne q hq)
  · rw [e.log]
    exact h.quiet
  · by_cases hqp : q = p
    · subst hqp
      rcases htodo with ht | ⟨x, ht⟩
      · exact h.last q l r (ht ▸ hq)
      · exact h.last q (x :: l) r (by rw [ht, hq]; rfl)
    · rw [e.client hqp] at hq
      exact h.last q l r hq

theorem Pins.unique (h : Pins s) (hi : Inv d s) (hj : (s.buf j).Requested) (hr : (s.buf i).Requested)
    (hb : (s.buf j).blockno = (s.buf i).blockno) : j = i :=
  hi.inj hj hr (Prod.ext ((h.root j hj).trans (h.root i hr).symm) hb)

theorem Pins.same (h : Pins s) (hw : Writers True d start size s) (e : Effect s t p)
    (htodo : (t.client p).todo = (s.client p).todo) (hvar : (t.client p).var = (s.client p).var)
    (hstill : ∀ {i}, (s.buf i).lock = some p → Still s t i) : Pins t := by
  refine h.effect hw e (.inl htodo) fun hc => ?_
  rw [htodo] at hc
  refine (h.covered p hc).same e htodo (cur_eq (by rw [hvar]) fun i hi => ?_)
  have hl := (hw.client p).held (ne_nil_of_mem hc) hi
  exact (hstill hl).blockno hl

theorem Pins.pop (h : Pins s) (hw : Writers True d start size s) (e : Effect s t p) {x : Stmt} (hx : x ≠ .clear)
    (htodo : (s.client p).todo = x :: (t.client p).todo) (hpay : x.installs (s.cur p) = [])
    (hcur : t.cur p = x.cur (s.cur p)) : Pins t := by
  refine h.effect hw e (.inr ⟨x, htodo⟩) fun hc => (h.covered p ?_).pop e hx htodo hpay hcur
  rw [htodo]
  exact mem_cons_of_mem _ hc

end Moves

/-! ### The steps -/

variable [DecidableEq P]

theorem Effect.of (hbuf : t.buf = update s.buf i b) (hclient : t.client = update s.client p c)
    (hstill : ∀ {j q}, q ≠ p → (s.buf j).lock = some q → Still s t j)
    (hdirty : b.dirty = true → ((s.buf i).dirty = true ∧ b.blockno = (s.buf i).blockno) ∨ c.stage.on i = .writes)
    (hwrites : ∀ j, (t.buf j).dirty = true → (s.client p).stage.on j = .writes → c.stage.on j = .writes)
    (hroot : s.AtRoot → b.Requested → b.dev = ROOTDEV) (hlog : t.log = s.log) : Effect s t p where
  client hq := by rw [hclient, update_of_ne hq]
  still := hstill
  pinned {j} hj := by
    obtain ⟨hd, hno⟩ := hj
    have hrole : ∀ q, s.role j q ≠ .writes := by
      intro q hq
      refine hno q ?_
      unfold role at hq ⊢
      rw [hclient]
      by_cases hqp : q = p
      · subst hqp
        rw [update_self]
        exact hwrites j hd hq
      · rw [update_of_ne hqp]
        exact hq
    by_cases hji : j = i
    · subst hji
      have hnp : c.stage.on j ≠ .writes := by
        have := hno p
        unfold role at this
        rwa [hclient, update_self] at this
      rw [hbuf, update_self] at hd ⊢
      obtain ⟨h1, h2⟩ := (hdirty hd).resolve_right hnp
      exact ⟨⟨h1, hrole⟩, h2⟩
    · rw [hbuf, update_of_ne hji] at hd ⊢
      exact ⟨⟨hd, hrole⟩, rfl⟩
  root h j hj := by
    by_cases hji : j = i
    · subst hji
      rw [hbuf, update_self] at hj ⊢
      exact hroot h hj
    · rw [hbuf, update_of_ne hji] at hj ⊢
      exact h j hj
  log := hlog

theorem Effect.goto (hbuf : t.buf = s.buf) (hclient : t.client = update s.client p c)
    (hwrites : ∀ j, (s.buf j).dirty = true → (s.client p).stage.on j = .writes → c.stage.on j = .writes)
    (hlog : t.log = s.log) : Effect s t p := by
  have i : Fin NBUF := ⟨0, by decide⟩
  refine .of (i := i) (b := s.buf i) (by rw [hbuf, update_eq_self]) hclient (fun _ _ => Still.of_eq hbuf)
    (fun hd => .inl ⟨hd, rfl⟩) (fun j hj => hwrites j (hbuf ▸ hj)) (fun h => h i) hlog

theorem Effect.set (hst : c.stage = (s.client p).stage) : Effect s (s.setClient p c) p :=
  .goto rfl rfl (fun j _ hj => by rwa [hst]) rfl

theorem modify_effect {f : Block → Block} (ht : s.modify p i f = some t) : Effect s t p := by
  obtain ⟨-, rfl⟩ := modify_inv ht
  exact .of rfl (update_eq_self ..).symm (fun _ _ => .of_buf rfl rfl fun _ => rfl) (fun hd => .inl ⟨hd, rfl⟩)
    (fun _ _ hj => hj) (fun h => h i) rfl

theorem bwrite_effect {w : Caller} (hst : (s.client p).stage = .idle) (ht : s.bwrite p i w = some t) :
    Effect s t p := by
  obtain ⟨-, x, rfl, -⟩ := bwrite_inv ht
  refine .of rfl rfl (fun _ _ => .of_buf rfl rfl fun _ => rfl) (fun _ => .inr ?_) (fun j _ hj => ?_) (fun h => h i) rfl
  · simp [Stage.on]
  · rw [hst] at hj
    cases hj

theorem brelse_effect (hst : (s.client p).stage = .idle) (ht : s.brelse p i = some t) : Effect s t p := by
  obtain ⟨hl, -, rfl⟩ := brelse_inv ht
  refine .of rfl rfl (fun hq hj => .of_ne rfl ?_) (fun hd => .inl ⟨hd, rfl⟩) (fun j _ hj => ?_) (fun h => h i) rfl
  · rintro rfl
    exact hq (Option.some.inj (hj.symm.trans hl))
  · rw [hst] at hj
    cases hj

theorem drop_effect (hst : (s.client p).stage = .drops i) : Effect s (s.drop p i) p := by
  rw [drop_eq]
  refine .of rfl rfl (fun _ _ => .of_buf rfl rfl fun _ => rfl) (fun hd => .inl ⟨hd, rfl⟩) (fun j _ hj => ?_)
    (fun h hr => ?_) rfl
  · obtain ⟨w, hj⟩ := Stage.on_writes.mp hj
    rw [hst] at hj
    cases hj
  · refine h i ?_
    rcases hr with hr | hr
    · exact .inl fun h0 => hr (by dsimp only; omega)
    · exact .inr hr

theorem Pins.logWrite (h : Pins s) (ht : s.logWrite p i = some t) : Pins t := by
  obtain ⟨-, l, hlog, ht⟩ := logWrite_inv ht
  obtain ⟨-, -, hout, hl⟩ := Log.logWrite_ok hlog
  have hbuf : t.buf = update s.buf i { s.buf i with dirty := true } := by rw [ht]; rfl
  have hclient : t.client = s.client := by rw [ht]; rfl
  replace hl := (congrArg Bcache.log ht).trans hl
  have hc : s.log.committing = false := by
    by_contra hc
    have := h.quiet (by simpa using hc)
    omega
  have hsub : ∀ n ∈ s.log.lh, n ∈ t.log.lh := by
    intro n hn
    rw [hl]
    dsimp only
    split_ifs
    · exact hn
    · exact mem_append_left _ hn
  refine .of_quiet (fun j hj => ?_) (fun j hj => ?_) (fun q => ?_) ?_
  · by_cases hji : j = i
    · subst hji
      rw [hbuf, update_self] at hj ⊢
      exact h.root j hj
    · rw [hbuf, update_of_ne hji] at hj ⊢
      exact h.root j hj
  · by_cases hji : j = i
    · subst hji
      rw [hbuf, update_self, hl]
      dsimp only
      split_ifs with hmem
      · exact hmem
      · exact mem_append_right _ (mem_singleton_self _)
    · obtain ⟨hd, hno⟩ := hj
      unfold role at hno
      rw [hclient] at hno
      rw [hbuf, update_of_ne hji] at hd ⊢
      exact hsub _ (h.logged j ⟨hd, hno⟩)
  · rw [hclient]
    exact h.todo_nil hc q
  · rw [hl]
    exact h.quiet

theorem Pins.endOp (h : Pins s) {l : Log} {doCommit : Bool} (hl : s.log.endOp = .ok (l, doCommit)) {todo : List Stmt}
    (htodo : todo = if doCommit then commit l ++ [.endOp] else []) :
    Pins { s.setClient p { s.client p with inOp := false, todo := todo, var := fun _ => none } with log := l } := by
  obtain ⟨hc, hl, hdo⟩ := Log.endOp_ok hl
  have hnil := h.todo_nil hc
  have e : Effect s (s.setClient p { s.client p with inOp := false, todo := todo, var := fun _ => none }) p := .set rfl
  have hcl : (s.setClient p { s.client p with inOp := false, todo := todo, var := fun _ => none }).client p =
      { s.client p with inOp := false, todo := todo, var := fun _ => none } := by simp [setClient]
  generalize s.setClient p { s.client p with inOp := false, todo := todo, var := fun _ => none } = u at e hcl ⊢
  have hlh : l.lh = s.log.lh := by rw [hl]
  have hother : ∀ q, (u.client q).todo ≠ [] → q = p := by
    intro q hq
    by_contra hqp
    rw [e.client hqp] at hq
    exact hq (hnil q)
  have hlogged : ∀ i, u.Pinned i → (u.buf i).blockno ∈ l.lh := by
    intro i hi
    obtain ⟨h1, h2⟩ := e.pinned hi
    rw [h2, hlh]
    exact h.logged i h1
  refine ⟨e.root h.root, hlogged, fun q hq i hi => ?_, fun q hq => ?_, fun hcm => ?_, fun q r hq hr => ?_,
    fun q a r hq => ?_⟩
  · obtain rfl := hother q (ne_nil_of_mem hq)
    change (u.buf i).blockno ∈ owed (u.cur q) (u.client q).todo
    change .clear ∈ (u.client q).todo at hq
    rw [hcl] at hq ⊢
    simp only [htodo] at hq ⊢
    split_ifs at hq ⊢
    · exact mem_owed_commit (hlogged i hi) _
    · cases hq
  · obtain rfl := hother q hq
    change (u.client q).todo ≠ [] at hq
    rw [hcl] at hq
    simp only [htodo] at hq
    split_ifs at hq with hd
    · rw [hl]
      exact hd
    · exact absurd rfl hq
  · change l.committing = true at hcm
    change l.outstanding = 0
    rw [hl] at hcm ⊢
    exact hdo.mp hcm
  · rw [hother q hq, hother r hr]
  · change (u.client q).todo = a ++ .endOp :: r at hq
    obtain rfl := hother q (by rw [hq]; simp)
    rw [hcl] at hq
    simp only [htodo] at hq
    split_ifs at hq
    · rcases append_eq_append_iff.mp hq with ⟨b, -, hb⟩ | ⟨b, hb, hr⟩
      · cases b with
        | nil => exact (List.cons.inj hb).2.symm
        | cons y b => simp at hb
      · cases b with
        | nil => exact (List.cons.inj hr).2
        | cons y b =>
          rw [(List.cons.inj hr).1.symm] at hb
          exact absurd rfl (commit_last l .endOp (by rw [hb]; simp))
    · cases a <;> cases hq

variable [Fintype P]

theorem bget_effect (hi : Inv d s) (hst : (s.client p).stage = .idle) (hk : k.1 = ROOTDEV) (ht : s.bget p k = some t) :
    Effect s t p := by
  have hstill := bget_still hi ht
  have hwrites : ∀ {c : Client} j, (t.buf j).dirty = true → (s.client p).stage.on j = .writes →
    c.stage.on j = .writes := by
    intro c j _ hj
    rw [hst] at hj
    cases hj
  obtain ⟨i, b, g, rfl, ⟨hf, rfl, -⟩ | ⟨-, -, rfl, -⟩⟩ := bget_inv ht
  · have hkey : s.key i = k := by simpa using find?_some hf
    exact .of rfl rfl (fun _ _ => hstill _) (fun hd => .inl ⟨hd, rfl⟩) hwrites
      (fun _ _ => (congrArg Prod.fst hkey).trans hk) rfl
  · exact .of rfl rfl (fun _ _ => hstill _) (fun hd => (by cases hd)) hwrites (fun _ _ => hk) rfl

theorem ideintr_effect (hi : Inv d s) (ht : s.ideintr = some t) : t = s ∨
    ∃ p, Effect s t p ∧ t.client = s.client ∧ ∀ j, Still s t j := by
  obtain ⟨-, rfl⟩ | ⟨i, rest, x, hq, rfl, -⟩ := ideintr_inv ht
  · exact .inl rfl
  · have hok := hi.ok i
    obtain ⟨p, hp⟩ := hok.active (by simp [hq])
    have hreq : (s.buf i).Requested := hok.requested_of_lock (hok.owner (.inr hp))
    exact .inr ⟨p, .of rfl (update_eq_self ..).symm (fun _ _ => .of_buf rfl rfl fun _ => rfl) (fun hd => (by cases hd))
      (fun _ _ hj => hj) (fun h _ => h i hreq) rfl, rfl, fun _ => .of_buf rfl rfl fun _ => rfl⟩

section

variable (h : Pins s) (hw : Writers True d start size s)
include h hw

theorem Pins.bget (hst : (s.client p).stage = .idle) (hk : k.1 = ROOTDEV) (ht : s.bget p k = some t) : Pins t := by
  have hstill := bget_still hw.inv ht
  have e := bget_effect hw.inv hst hk ht
  obtain ⟨i, b, g, rfl, -⟩ := bget_inv ht
  refine h.same hw e ?_ ?_ fun _ => hstill _
  all_goals simp [Bcache.goto, setClient, setBuf]

theorem Pins.breadReturns
    (hst : (s.client p).stage = .got k i ∨ (s.client p).stage = .reads k i) : Pins (s.breadReturns p k i) := by
  have hasks : (s.client p).stage.Asks k i := by
    unfold Stage.Asks
    tauto
  have hclient : (s.breadReturns p k i).client p = (s.client p).returned i := by
    simp [Bcache.breadReturns, record, setClient]
  have e : Effect s (s.breadReturns p k i) p := .goto rfl rfl (fun j _ hj => by
    obtain ⟨w, hj⟩ := Stage.on_writes.mp hj
    rcases hst with hst | hst <;> rw [hst] at hj <;> cases hj) rfl
  cases htodo : (s.client p).todo with
  | nil =>
    refine h.same hw e ?_ ?_ fun _ => Still.of_eq rfl
    all_goals simp [hclient, Client.returned, htodo]
  | cons y rest =>
    cases y with
    | bread x n =>
      have hret : (s.breadReturns p k i).client p =
          { s.client p with stage := .idle, todo := rest, var := update (s.client p).var x (some i) } := by
        rw [hclient, Client.returned, htodo]
      have hkey : s.key i = (ROOTDEV, n) := (hw.inv.asks hasks).trans ((hw.client p).asks hasks htodo)
      have hrest : (s.client p).todo = .bread x n :: ((s.breadReturns p k i).client p).todo := by rw [hret, htodo]
      refine h.effect hw e (.inr ⟨_, hrest⟩) fun hc => ?_
      refine (h.covered p ?_).pop e (by simp) hrest rfl ?_
      · rw [hrest]
        exact mem_cons_of_mem _ hc
      · unfold cur
        rw [hret]
        cases x with
        | lbuf => rfl
        | dbuf =>
          change Option.map _ (update (s.client p).var Var.dbuf (some i) Var.dbuf) = some n
          rw [update_self]
          exact congrArg (fun k => some k.2) hkey
    | memmove | setHead | bwrite | brelse | clear | endOp =>
      refine h.same hw e ?_ ?_ fun _ => Still.of_eq rfl
      all_goals simp [hclient, Client.returned, htodo]

variable {rest : List Stmt}

theorem Pins.modify {x : Stmt} (hx : x ≠ .clear)
    (htodo : (s.client p).todo = x :: rest) (hpay : x.installs (s.cur p) = []) (hcur : x.cur (s.cur p) = s.cur p)
    {f : Block → Block} (ht : (s.setClient p { s.client p with todo := rest }).modify p i f = some t) : Pins t := by
  have e : Effect s t p := (Effect.set (c := { s.client p with todo := rest }) rfl).trans (modify_effect ht)
  obtain ⟨-, ht⟩ := modify_inv ht
  have hstill (j : Fin NBUF) : Still s t j := by
    rw [ht]
    exact .of_buf rfl rfl fun _ => rfl
  have hc : t.client p = { s.client p with todo := rest } := by rw [ht]; simp [setClient, setBuf]
  refine h.pop hw e hx (by rw [hc, htodo]) hpay ?_
  rw [hcur]
  refine cur_eq (by rw [hc]) fun j hj => ?_
  have hl := (hw.client p).held (by rw [htodo]; simp) hj
  exact (hstill j).blockno hl

theorem Pins.bwrite (hst : (s.client p).stage = .idle) {x : Var} {w : Caller}
    (htodo : (s.client p).todo = .bwrite x w :: rest) (hx : (s.client p).var x = some i)
    (ht : (s.setClient p { s.client p with todo := rest }).bwrite p i w = some t) : Pins t := by
  have e : Effect s t p :=
    (Effect.set (c := { s.client p with todo := rest }) rfl).trans (bwrite_effect (by simpa [setClient] using hst) ht)
  obtain ⟨-, z, ht, -⟩ := bwrite_inv ht
  have hstill (j : Fin NBUF) : Still s t j := by
    rw [ht]
    exact .of_buf rfl rfl fun _ => rfl
  have hc : t.client p = { s.client p with todo := rest, stage := .writes i w } := by rw [ht]; simp [setClient]
  have hheld : ∀ {y j}, (s.client p).var y = some j → (s.buf j).lock = some p :=
    fun hj => (hw.client p).held (by rw [htodo]; simp) hj
  have hcur : t.cur p = s.cur p := cur_eq (by rw [hc]) fun j hj => (hstill j).blockno (hheld hj)
  refine h.effect hw e (.inr ⟨.bwrite x w, by rw [hc, htodo]⟩) fun hclear => ?_
  have hcov := h.covered p (by rw [htodo]; rw [hc] at hclear; exact mem_cons_of_mem _ hclear)
  intro j hj
  obtain ⟨hpin, hno⟩ := e.pinned hj
  have hmem := hcov j hpin
  rw [htodo, owed_cons (by simp), mem_append] at hmem
  rw [hno, hcur, hc]
  refine hmem.resolve_left fun hpay => ?_
  -- the buffer being written is the only one for its block
  have hblk : (s.buf j).blockno = (s.buf i).blockno := by
    cases x with
    | lbuf => cases hpay
    | dbuf =>
      cases w with
      | installTrans =>
        have hcur : s.cur p = some (s.buf i).blockno := by
          unfold cur
          rw [hx]
          rfl
        rw [hcur] at hpay
        exact mem_singleton.mp hpay
      | writeLog | writeHead | other => cases hpay
  have hij : j = i :=
    h.unique hw.inv (.inr ((hw.inv.ok j).dirty hpin.1)) ((hw.inv.ok i).requested_of_lock (hheld hx)) hblk
  refine hj.2 p ?_
  unfold role
  rw [hc, hij]
  simp [Stage.on]

theorem Pins.brelse (hst : (s.client p).stage = .idle) {x : Var} (htodo : (s.client p).todo = .brelse x :: rest)
    (hx : (s.client p).var x = some i)
    (ht : (s.setClient p { s.client p with todo := rest, var := update (s.client p).var x none }).brelse p i = some t) :
    Pins t := by
  have e : Effect s t p :=
    (Effect.set (c := { s.client p with todo := rest, var := update (s.client p).var x none }) rfl).trans
      (brelse_effect (by simpa [setClient] using hst) ht)
  obtain ⟨-, -, ht⟩ := brelse_inv ht
  have hc : t.client p =
      { s.client p with todo := rest, var := update (s.client p).var x none, stage := .drops i } := by
    rw [ht]
    simp [Bcache.goto, setClient, record, setBuf]
  have hne : (s.client p).todo ≠ [] := by simp [htodo]
  refine h.pop hw e (x := .brelse x) (by simp) (by rw [hc, htodo]) rfl ?_
  cases x with
  | dbuf =>
    unfold cur
    rw [hc]
    rfl
  | lbuf =>
    refine cur_eq (by rw [hc]; rfl) fun j hj => ?_
    have hji : j ≠ i := fun hji => (hw.client p).apart hne hx (hji ▸ hj)
    have hstill : Still s t j := by
      rw [ht]
      exact .of_ne rfl hji
    exact hstill.blockno ((hw.client p).held hne hj)

theorem Pins.exec (hst : (s.client p).stage = .idle) {x : Stmt}
    (htodo : (s.client p).todo = x :: rest) (ht : s.exec p x rest = some t) : Pins t := by
  have e : Effect s (s.setClient p { s.client p with todo := rest }) p := .set rfl
  have hc : (s.setClient p { s.client p with todo := rest }).client p = { s.client p with todo := rest } := by
    simp [setClient]
  unfold Bcache.exec at ht
  cases x with
  | bread x b => exact h.bget hw hst rfl ht
  | memmove x y =>
    simp only [bind_eq_bind, bind_eq_some_iff] at ht
    obtain ⟨i, -, j, -, ht⟩ := ht
    exact h.modify hw (by simp) htodo rfl rfl ht
  | setHead x =>
    obtain ⟨i, -, ht⟩ := bind_eq_some_iff.mp ht
    exact h.modify hw (by simp) htodo rfl rfl ht
  | bwrite x w =>
    obtain ⟨i, hx, ht⟩ := bind_eq_some_iff.mp ht
    exact h.bwrite hw hst htodo hx ht
  | brelse x =>
    obtain ⟨i, hx, ht⟩ := bind_eq_some_iff.mp ht
    exact h.brelse hw hst htodo hx ht
  | clear =>
    cases ht
    -- all is installed
    have hnone : ∀ i, ¬s.Pinned i := fun i hi => by
      have := h.covered p (by rw [htodo]; exact mem_cons_self ..) i hi
      rw [htodo] at this
      cases this
    have ht := h.effect hw e (.inr ⟨.clear, by rw [hc, htodo]⟩) fun _ i hi => absurd (e.pinned hi).1 (hnone i)
    exact ⟨ht.root, fun i hi => absurd (e.pinned hi).1 (hnone i), fun q _ i hi => absurd (e.pinned hi).1 (hnone i),
      ht.busy, ht.quiet, ht.one, ht.last⟩
  | endOp =>
    cases ht
    obtain rfl : rest = [] := h.last p [] rest htodo
    refine .of_quiet (e.root h.root) (fun i hi => ?_) (fun q => ?_) fun hc => (by cases hc)
    · obtain ⟨h1, h2⟩ := e.pinned hi
      exact h2 ▸ h.logged i h1
    · change ((s.setClient p { s.client p with todo := [] }).client q).todo = []
      by_cases hqp : q = p
      · rw [hqp, hc]
      · rw [e.client hqp]
        by_contra hq
        exact hqp (h.one q p hq (by rw [htodo]; simp))

theorem Pins.turn (ht : s.turn p = some t) : Pins t := by
  have hnot : ∀ {j x}, (s.client p).stage = x → (∀ w, x ≠ .writes j w) → (s.client p).stage.on j ≠ .writes := by
    intro j x hst hx hj
    obtain ⟨w, hj⟩ := Stage.on_writes.mp hj
    exact hx w (hst ▸ hj)
  unfold Bcache.turn at ht
  cases hst : (s.client p).stage with
  | idle =>
    simp only [hst] at ht
    split at ht
    · cases ht
    · rename_i htodo
      exact h.exec hw hst htodo ht
  | waits k i =>
    simp only [hst] at ht
    split_ifs at ht with hl
    cases ht
    have hstill : ∀ {j q}, (s.buf j).lock = some q →
        Still s ((s.setBuf i { s.buf i with lock := some p }).goto p (.got k i)) j := by
      refine fun {j q} hj => .of_ne rfl ?_
      rintro rfl
      simp [hl] at hj
    refine h.same hw
      (.of rfl rfl (fun _ hj => hstill hj) (fun hd => .inl ⟨hd, rfl⟩) (fun j _ hj => ?_)
      (fun h => h i) rfl) ?_ ?_ hstill
    · exact absurd hj (hnot hst (by simp))
    all_goals simp [Bcache.goto, setClient, setBuf]
  | got k i =>
    simp only [hst] at ht
    split_ifs at ht
    · cases ht
      exact h.breadReturns hw (.inl hst)
    · obtain ⟨-, x, rfl, -⟩ := iderw_inv ht
      refine h.same hw (.goto rfl rfl (fun j _ hj => absurd hj (hnot hst (by simp))) rfl) ?_ ?_ fun _ => Still.of_eq rfl
      all_goals simp [Bcache.goto, setClient]
  | reads k i =>
    simp only [hst] at ht
    split_ifs at ht
    cases ht
    exact h.breadReturns hw (.inr hst)
  | writes i w =>
    simp only [hst] at ht
    split_ifs at ht with hsync
    cases ht
    refine h.same hw (.goto rfl rfl (fun j hd hj => ?_) rfl) ?_ ?_ fun _ => Still.of_eq rfl
    · -- the write is done
      obtain ⟨w', hj⟩ := Stage.on_writes.mp hj
      rw [hst] at hj
      cases hj
      exact absurd hd hsync.2
    all_goals simp [Bcache.goto, setClient, record]
  | drops i =>
    simp only [hst] at ht
    cases ht
    have e := drop_effect hst
    rw [drop_eq] at e ⊢
    refine h.same hw e ?_ ?_ fun _ => .of_buf rfl rfl fun _ => rfl
    all_goals simp [Bcache.goto, setClient, setBuf]

theorem Pins.call (hst : (s.client p).stage = .idle)
    (htodo : (s.client p).todo = []) {x : Call} (hx : ∀ k, x = .bread k → k.1 = ROOTDEV) (ht : s.call p x = some t) :
    Pins t := by
  unfold Bcache.call at ht
  cases x with
  | beginOp =>
    dsimp only at ht
    split at ht
    · rename_i l _ hl
      cases ht
      obtain ⟨hc, -, rfl⟩ := Log.beginOp_ok hl
      have e : Effect s (s.setClient p { s.client p with inOp := true }) p := .set rfl
      refine .of_quiet (e.root h.root) (fun i hi => ?_) (fun q => ?_) fun hcm => ?_
      · obtain ⟨h1, h2⟩ := e.pinned hi
        exact h2 ▸ h.logged i h1
      · have hq := h.todo_nil hc q
        by_cases hqp : q = p
        · subst hqp
          simpa [setClient] using hq
        · simpa [setClient, hqp] using hq
      · rw [hc] at hcm
        cases hcm
    · cases ht
  | bread k => exact h.bget hw hst (hx k rfl) ht
  | modify i f =>
    have e := modify_effect ht
    obtain ⟨-, rfl⟩ := modify_inv ht
    exact h.same hw e rfl rfl fun _ => .of_buf rfl rfl fun _ => rfl
  | logWrite i => exact h.logWrite ht
  | bwrite i =>
    have e := bwrite_effect hst ht
    obtain ⟨-, x, rfl, -⟩ := bwrite_inv ht
    refine h.same hw e ?_ ?_ fun _ => .of_buf rfl rfl fun _ => rfl
    all_goals simp
  | brelse i =>
    have hsame : (t.client p).todo = (s.client p).todo := by
      rw [(brelse_inv ht).2.2]
      simp [Bcache.goto, setClient, record, setBuf]
    refine h.effect hw (brelse_effect hst ht) (.inl hsame) fun hc => ?_
    rw [hsame, htodo] at hc
    cases hc
  | endOp =>
    dsimp only at ht
    split at ht
    · rename_i l doCommit _ hl
      cases ht
      exact h.endOp hl rfl
    · cases ht

theorem Pins.next {l : Label P} (hl : ∀ p k, l = .call p (.bread k) → k.1 = ROOTDEV) (ht : s.next l = some t) :
    Pins t := by
  cases l with
  | call p x =>
    simp only [Bcache.next] at ht
    split_ifs at ht with hidle
    exact h.call hw hidle.1 (by simpa using hidle.2) (fun k hk => hl p k (by rw [hk])) ht
  | step p => exact h.turn hw ht
  | ideintr =>
    rcases ideintr_effect hw.inv ht with rfl | ⟨p, e, hclient, hstill⟩
    · exact h
    · exact h.same hw e (by rw [hclient]) (by rw [hclient]) fun _ => hstill _

end

end Bcache
end Xv6
