import Xv6.Theorems.Bcache.Steps
import Xv6.Theorems.Log.Reservation

/-! Who writes a block. A block that `log_write` has marked stays in the cache until `install_trans`, or a process
    on its own, has written it, so the cache behaves as the plain disk under it. -/

namespace Xv6
open Function List Option
namespace Bcache

def LogArea (start size : Nat) (k : Nat × Nat) : Prop := k.1 = ROOTDEV ∧ start ≤ k.2 ∧ k.2 < start + size

/-- Who may write block `k`; `own` says that processes call `bwrite` on their own. -/
def Caller.May (own : Prop) (area : Nat × Nat → Prop) (k : Nat × Nat) : Caller → Prop
  | .installTrans => True
  | .other => own
  | .writeLog | .writeHead => area k

def Stmt.Fits (area : Nat × Nat → Prop) : Stmt → Prop
  | .bread .lbuf b => area (ROOTDEV, b)
  | .bwrite .lbuf w => w ≠ .other
  | .bwrite .dbuf w => w = .installTrans
  | .bread .dbuf _ | .memmove .. | .setHead _ | .brelse _ | .clear | .endOp => True

theorem loops_fit {start size : Nat} {lh : List Nat} {n : Nat} (h : n + lh.length < size) :
    (∀ x ∈ writeLog start lh n, x.Fits (LogArea start size)) ∧
    ∀ x ∈ installTrans start lh n, x.Fits (LogArea start size) := by
  induction lh generalizing n with
  | nil => simp [writeLog, installTrans]
  | cons b bs ih =>
    rw [length_cons] at h
    obtain ⟨hlog, hinst⟩ := ih (n := n + 1) (by omega)
    have hb : LogArea start size (ROOTDEV, start + n + 1) := ⟨rfl, by dsimp only; omega, by dsimp only; omega⟩
    simp only [writeLog, installTrans, cons_append, nil_append, forall_mem_cons]
    exact ⟨⟨hb, trivial, trivial, nofun, trivial, trivial, hlog⟩, hb, trivial, trivial, rfl, trivial, trivial, hinst⟩

theorem commit_fits {l : Log} (h : l.lh.length < l.size ∨ l.lh = []) :
    ∀ x ∈ commit l ++ [.endOp], x.Fits (LogArea l.start l.size) := by
  have hend : ∀ x ∈ [Stmt.endOp], x.Fits (LogArea l.start l.size) := by simp [Stmt.Fits]
  unfold commit
  split
  · have hlt : l.lh.length < l.size := h.resolve_right fun hnil => by simp_all
    have hhead : ∀ x ∈ writeHead l.start, x.Fits (LogArea l.start l.size) := by
      simp only [writeHead, forall_mem_cons]
      exact ⟨⟨rfl, le_rfl, by dsimp only; omega⟩, trivial, nofun, trivial, by simp⟩
    have hclear : ∀ x ∈ [Stmt.clear], x.Fits (LogArea l.start l.size) := by simp [Stmt.Fits]
    simp only [forall_mem_append]
    exact ⟨⟨⟨⟨⟨(loops_fit (by omega)).1, hhead⟩, (loops_fit (by omega)).2⟩, hclear⟩, hhead⟩, hend⟩
  · exact hend

variable {P : Type}

/-- A process in `commit`: the buffers it has read and not released are its own, and those of `lbuf` are for the log. -/
structure ClientOk (own : Prop) (area : Nat × Nat → Prop) (s : Bcache P) (p : P) : Prop where
  fits : ∀ x ∈ (s.client p).todo, x.Fits area
  asks : ∀ {k i x b rest}, (s.client p).stage.Asks k i → (s.client p).todo = .bread x b :: rest → k = (ROOTDEV, b)
  held : ∀ {x i}, (s.client p).todo ≠ [] → (s.client p).var x = some i → (s.buf i).lock = some p
  log : ∀ {i}, (s.client p).todo ≠ [] → (s.client p).var .lbuf = some i → area (s.key i)
  apart : ∀ {i}, (s.client p).todo ≠ [] → (s.client p).var .lbuf = some i → (s.client p).var .dbuf ≠ some i
  fresh : ∀ {k i x}, (s.client p).todo ≠ [] → (s.client p).stage = .got k i ∨ (s.client p).stage = .reads k i →
    (s.client p).var x ≠ some i
  writes : ∀ {i w}, (s.client p).stage = .writes i w → w.May own area (s.key i)

def Still (s t : Bcache P) (i : Fin NBUF) : Prop :=
  (t.buf i).lock = (s.buf i).lock ∧ ((s.buf i).lock.isSome → t.key i = s.key i)

namespace Still

variable {s t : Bcache P} {i j : Fin NBUF} {b : Buf P} {p : P}

theorem of_ne (h : t.buf = update s.buf i b) (hj : j ≠ i) : Still s t j := by
  unfold Still key
  rw [h, update_of_ne hj]
  exact ⟨rfl, fun _ => rfl⟩

theorem of_buf (h : t.buf = update s.buf i b) (hl : b.lock = (s.buf i).lock)
    (hk : (s.buf i).lock.isSome → (b.dev, b.blockno) = s.key i) : Still s t j := by
  by_cases hj : j = i
  · subst hj
    unfold Still key
    rw [h, update_self]
    exact ⟨hl, hk⟩
  · exact of_ne h hj

theorem of_eq (h : t.buf = s.buf) : Still s t j := by
  unfold Still key
  rw [h]
  exact ⟨rfl, fun _ => rfl⟩

theorem lock (h : Still s t i) (hl : (s.buf i).lock = some p) : (t.buf i).lock = some p := h.1.trans hl

theorem key (h : Still s t i) (hl : (s.buf i).lock = some p) : t.key i = s.key i := h.2 (by simp [hl])

end Still

section Writers

variable {own : Prop} {d : Nat × Nat → Block} {area : Nat × Nat → Prop} {s t : Bcache P} {i : Fin NBUF} {p q : P}
  {k : Nat × Nat}

theorem ClientOk.move (h : ClientOk own area s p) (hstill : ∀ {i}, (s.buf i).lock = some p → Still s t i)
    (htodo : (t.client p).todo = (s.client p).todo ∨ ∃ x, (s.client p).todo = x :: (t.client p).todo)
    (hvar : (t.client p).var = (s.client p).var)
    (hasks : ∀ {k i x b rest}, (t.client p).stage.Asks k i → (t.client p).todo = .bread x b :: rest → k = (ROOTDEV, b))
    (hfresh : ∀ {k i x}, (t.client p).todo ≠ [] → (t.client p).stage = .got k i ∨ (t.client p).stage = .reads k i →
      (s.client p).var x ≠ some i)
    (hwrites : ∀ {i w}, (t.client p).stage = .writes i w → w.May own area (t.key i)) :
    ClientOk own area t p := by
  have hne : (t.client p).todo ≠ [] → (s.client p).todo ≠ [] := by
    rcases htodo with ht | ⟨x, ht⟩
    · exact fun hne => ht ▸ hne
    · simp [ht]
  have hmem : ∀ x ∈ (t.client p).todo, x ∈ (s.client p).todo := by
    rcases htodo with ht | ⟨x, ht⟩
    · exact fun x hx => ht ▸ hx
    · exact fun y hy => ht ▸ mem_cons_of_mem _ hy
  exact {
    fits := fun x hx => h.fits x (hmem x hx)
    asks := hasks
    held := fun ht hv => by
      have hl := h.held (hne ht) (hvar ▸ hv)
      exact (hstill hl).lock hl
    log := fun ht hv => by
      have hl := h.held (hne ht) (hvar ▸ hv)
      rw [(hstill hl).key hl]
      exact h.log (hne ht) (hvar ▸ hv)
    apart := fun ht hv => hvar ▸ h.apart (hne ht) (hvar ▸ hv)
    fresh := fun ht hst => hvar ▸ hfresh ht hst
    writes := hwrites }

theorem ClientOk.rest (h : ClientOk own area s p) (hstill : ∀ {i}, (s.buf i).lock = some p → Still s t i)
    (htodo : (t.client p).todo = (s.client p).todo ∨ ∃ x, (s.client p).todo = x :: (t.client p).todo)
    (hvar : (t.client p).var = (s.client p).var) (hst : (t.client p).stage = .idle) : ClientOk own area t p :=
  h.move hstill htodo hvar (fun ha => by simp [hst, Stage.Asks] at ha) (fun _ ha => by simp [hst] at ha)
    (fun ha => by simp [hst] at ha)

theorem ClientOk.keep [Fintype P] (h : ClientOk own area s q) (hi : Inv d s) (hclient : t.client q = s.client q)
    (hstill : ∀ {i}, (s.buf i).lock = some q → Still s t i) : ClientOk own area t q := by
  refine h.move hstill (.inl (by rw [hclient])) (by rw [hclient]) ?_ ?_ ?_
  · rw [hclient]
    exact h.asks
  · rw [hclient]
    exact h.fresh
  · rw [hclient]
    intro i w hst
    have hl : (s.buf i).lock = some q := (hi.ok i).owner (by simp [role, hst, Stage.on])
    rw [(hstill hl).key hl]
    exact h.writes hst

structure Move (s t : Bcache P) (p : P) : Prop where
  client : ∀ {q}, q ≠ p → t.client q = s.client q
  still : ∀ {i q}, q ≠ p → (s.buf i).lock = some q → Still s t i
  hist : ∀ {q k w}, .wrote q k w ∈ t.hist → .wrote q k w ∈ s.hist

variable [DecidableEq P]

theorem Move.of {c : Client} (hclient : t.client = update s.client p c)
    (hstill : ∀ {i q}, q ≠ p → (s.buf i).lock = some q → Still s t i)
    (hhist : t.hist = s.hist ∨ ∃ e : Event P, t.hist = e :: s.hist ∧ ∀ q k w, e ≠ .wrote q k w) : Move s t p where
  client hq := by rw [hclient, update_of_ne hq]
  still := hstill
  hist := by
    intro q k w hw
    rcases hhist with hh | ⟨e, hh, he⟩
    · exact hh ▸ hw
    · rw [hh] at hw
      exact (mem_cons.mp hw).resolve_left (Ne.symm (he q k w))

theorem ClientOk.bwrite (h : ClientOk own area s p) {w : Caller} (hw : w.May own area (s.key i))
    (ht : s.bwrite p i w = some t) : Move s t p ∧ ClientOk own area t p ∧ t.log = s.log := by
  obtain ⟨hl, x, ht, -⟩ := bwrite_inv ht
  have hstill (j : Fin NBUF) : Still s t j := by
    rw [ht]
    exact .of_buf rfl rfl fun _ => rfl
  subst ht
  refine ⟨.of rfl (fun _ _ => hstill _) (.inr ⟨_, rfl, by simp⟩), h.move (fun _ => hstill _) ?_ ?_ ?_ ?_ ?_, rfl⟩
  all_goals simp only [update_self]
  · exact .inl trivial
  · simp [Stage.Asks]
  · simp
  · intro j w' hst
    cases hst
    rw [(hstill i).key hl]
    exact hw

theorem ClientOk.brelse (h : ClientOk own area s p)
    (hfree : ∀ {x}, (s.client p).todo ≠ [] → (s.client p).var x ≠ some i)
    (ht : s.brelse p i = some t) : Move s t p ∧ ClientOk own area t p ∧ t.log = s.log := by
  obtain ⟨hl, -, ht⟩ := brelse_inv ht
  have hstill {j : Fin NBUF} (hj : j ≠ i) : Still s t j := by
    rw [ht]
    exact .of_ne rfl hj
  subst ht
  have hother : ∀ {j q}, q ≠ p → (s.buf j).lock = some q → j ≠ i := by
    rintro j q hq hj rfl
    exact hq (some.inj (hj.symm.trans hl))
  have hvar : ∀ {x j}, (s.client p).todo ≠ [] → (s.client p).var x = some j → j ≠ i := by
    rintro x j hne hj rfl
    exact hfree hne hj
  refine ⟨.of rfl (fun hq hj => hstill (hother hq hj)) (.inr ⟨_, rfl, by simp⟩), ?_, rfl⟩
  constructor
  all_goals simp only [Bcache.goto, setClient, record, setBuf, update_self]
  · exact h.fits
  · simp [Stage.Asks]
  · intro x j ht hj
    exact (hstill (hvar ht hj)).lock (h.held ht hj)
  · intro j ht hj
    exact (hstill (hvar ht hj)).key (h.held ht hj) ▸ h.log ht hj
  · exact h.apart
  · simp
  · simp

variable [Fintype P]

theorem bget_still (h : Inv d s) (ht : s.bget p k = some t) (j : Fin NBUF) : Still s t j := by
  obtain ⟨i, b, g, rfl, ⟨-, rfl, rfl⟩ | ⟨-, hfree, rfl, -⟩⟩ := bget_inv ht
  · exact .of_buf rfl rfl fun _ => rfl
  · exact .of_buf rfl rfl fun hl => by simp [((h.ok i).idle hfree.1).1] at hl

theorem ClientOk.bget (h : ClientOk own area s p) (hi : Inv d s)
    (hk : ∀ {x b rest}, (s.client p).todo = .bread x b :: rest → k = (ROOTDEV, b)) (ht : s.bget p k = some t) :
    Move s t p ∧ ClientOk own area t p ∧ t.log = s.log := by
  have hstill := bget_still hi ht
  obtain ⟨i, b, g, rfl, hb⟩ := bget_inv ht
  refine ⟨.of rfl (fun _ _ => hstill _) ?_, ?_, rfl⟩
  · rcases hb with ⟨-, -, hg⟩ | ⟨-, -, -, hg⟩
    · exact .inl hg
    · rw [hg]
      split_ifs
      · exact .inr ⟨_, rfl, by simp⟩
      · exact .inl rfl
  · refine h.move (fun _ => hstill _) ?_ ?_ ?_ ?_ ?_
    all_goals simp only [Bcache.goto, setClient, setBuf, update_self]
    · exact .inl trivial
    · rintro k' j x b rest (hst | hst | hst) htodo
      · cases hst
        exact hk htodo
      all_goals cases hst
    · simp
    · simp

theorem ClientOk.modify (h : ClientOk own area s p) (hi : Inv d s) {f : Block → Block} (ht : s.modify p i f = some t) :
    Move s t p ∧ ClientOk own area t p ∧ t.log = s.log := by
  obtain ⟨-, rfl⟩ := modify_inv ht
  exact ⟨.of (update_eq_self ..).symm (fun _ _ => .of_buf rfl rfl fun _ => rfl) (.inl rfl),
    h.keep hi rfl fun _ => .of_buf rfl rfl fun _ => rfl, rfl⟩

theorem ClientOk.breadReturns (h : ClientOk own area s p) (hi : Inv d s)
    (hst : (s.client p).stage = .got k i ∨ (s.client p).stage = .reads k i) :
    ClientOk own area (s.breadReturns p k i) p := by
  have hasks : (s.client p).stage.Asks k i := by
    unfold Stage.Asks
    tauto
  have hl : (s.buf i).lock = some p := (hi.ok i).owner (by rcases hst with hst | hst <;> simp [role, hst, Stage.on])
  have hclient : (s.breadReturns p k i).client p = (s.client p).returned i := by
    simp [Bcache.breadReturns, record, setClient]
  unfold Client.returned at hclient
  cases htodo : (s.client p).todo with
  | nil =>
    rw [htodo] at hclient
    exact h.rest (fun _ => Still.of_eq rfl) (by simp [hclient, htodo]) (by simp [hclient]) (by simp [hclient])
  | cons y rest =>
    rw [htodo] at hclient
    cases y with
    | bread x b =>
      have hne : (s.client p).todo ≠ [] := by simp [htodo]
      have hkey : s.key i = (ROOTDEV, b) := (hi.asks hasks).trans (h.asks hasks htodo)
      have hfits := h.fits
      rw [htodo, forall_mem_cons] at hfits
      constructor
      all_goals simp only [hclient]
      · exact hfits.2
      · simp [Stage.Asks]
      · intro y j _ hj
        by_cases hyx : y = x
        · subst hyx
          rw [update_self] at hj
          exact some.inj hj ▸ hl
        · rw [update_of_ne hyx] at hj
          exact h.held hne hj
      · intro j _ hj
        cases x with
        | lbuf =>
          rw [update_self] at hj
          cases hj
          exact hkey ▸ hfits.1
        | dbuf =>
          rw [update_of_ne (by simp)] at hj
          exact h.log hne hj
      · intro j _ hj
        cases x with
        | lbuf =>
          rw [update_self] at hj
          cases hj
          rw [update_of_ne (by simp)]
          exact h.fresh hne hst
        | dbuf =>
          rw [update_of_ne (by simp)] at hj
          rw [update_self]
          rintro hji
          exact h.fresh hne hst (hj.trans hji.symm)
      · simp
      · simp
    | memmove | setHead | bwrite | brelse | clear | endOp =>
      exact h.rest (fun _ => Still.of_eq rfl) (by simp [hclient, htodo]) (by simp [hclient]) (by simp [hclient])

structure Writers (own : Prop) (d : Nat × Nat → Block) (start size : Nat) (s : Bcache P) : Prop where
  inv : Inv d s
  client : ∀ p, ClientOk own (LogArea start size) s p
  hist : ∀ {q k w}, .wrote q k w ∈ s.hist → w.May own (LogArea start size) k
  layout : s.log.start = start ∧ s.log.size = size
  room : s.log.lh.length < size ∨ s.log.lh = []

namespace Writers

variable {start size : Nat}

section

variable (h : Writers own d start size s)
include h

theorem step_of (hi : Inv d t) (hm : Move s t p)
    (hp : ClientOk own (LogArea start size) t p) (hlog : t.log = s.log) : Writers own d start size t where
  inv := hi
  client q := by
    by_cases hq : q = p
    · exact hq ▸ hp
    · exact (h.client q).keep h.inv (hm.client hq) (hm.still hq)
  hist hw := h.hist (hm.hist hw)
  layout := hlog ▸ h.layout
  room := hlog ▸ h.room

theorem set {c : Client} {l : Log} (hst : c.stage = (s.client p).stage)
    (hc : ClientOk own (LogArea start size) (s.setClient p c) p) (hlayout : l.start = start ∧ l.size = size)
    (hroom : l.lh.length < size ∨ l.lh = []) : Writers own d start size { s.setClient p c with log := l } where
  inv := h.inv.frame hst
  client q := by
    by_cases hq : q = p
    · subst hq
      exact hc.keep (h.inv.frame (l := s.log) hst) rfl fun _ => Still.of_eq rfl
    · exact (h.client q).keep h.inv (by simp [setClient, hq]) fun _ => Still.of_eq rfl
  hist := h.hist
  layout := hlayout
  room := hroom

variable {rest : List Stmt}

theorem pop (hst : (s.client p).stage = .idle) {x : Stmt} (htodo : (s.client p).todo = x :: rest) :
    ClientOk own (LogArea start size) (s.setClient p { s.client p with todo := rest }) p :=
  (h.client p).rest (fun _ => Still.of_eq rfl) (.inr ⟨x, by simpa [setClient] using htodo⟩) (by simp [setClient])
    (by simpa [setClient] using hst)

theorem popVar (hst : (s.client p).stage = .idle) {x : Var} (htodo : (s.client p).todo = .brelse x :: rest) :
    ClientOk own (LogArea start size)
      (s.setClient p { s.client p with todo := rest, var := update (s.client p).var x none }) p := by
  have hne : (s.client p).todo ≠ [] := by simp [htodo]
  have hfits := (h.client p).fits
  rw [htodo, forall_mem_cons] at hfits
  have hvar : ∀ {y j}, update (s.client p).var x none y = some j → (s.client p).var y = some j := by
    intro y j hj
    by_cases hyx : y = x
    · simp [hyx] at hj
    · rwa [update_of_ne hyx] at hj
  constructor
  all_goals simp only [setClient, update_self]
  · exact hfits.2
  · simp [hst, Stage.Asks]
  · exact fun _ hj => (h.client p).held hne (hvar hj)
  · exact fun _ hj => (h.client p).log hne (hvar hj)
  · exact fun _ hj hj' => (h.client p).apart hne (hvar hj) (hvar hj')
  · simp [hst]
  · simp [hst]

theorem exec (hst : (s.client p).stage = .idle) {x : Stmt}
    (htodo : (s.client p).todo = x :: rest) (ht : s.exec p x rest = some t) : Writers own d start size t := by
  have hi := h.inv.exec hst ht
  have hpop := h.set (c := { s.client p with todo := rest }) (l := s.log) rfl (h.pop hst htodo) h.layout h.room
  have hne : (s.client p).todo ≠ [] := by simp [htodo]
  have hfits := (h.client p).fits
  rw [htodo, forall_mem_cons] at hfits
  unfold Bcache.exec at ht
  cases x with
  | bread x b =>
    obtain ⟨hm, hc, hlog⟩ := (h.client p).bget h.inv (fun ht => by simp_all) ht
    exact h.step_of hi hm hc hlog
  | memmove x y =>
    simp only [bind_eq_bind, bind_eq_some_iff] at ht
    obtain ⟨i, -, j, -, ht⟩ := ht
    obtain ⟨hm, hc, hlog⟩ := (hpop.client p).modify hpop.inv ht
    exact hpop.step_of hi hm hc hlog
  | setHead x =>
    obtain ⟨i, -, ht⟩ := bind_eq_some_iff.mp ht
    obtain ⟨hm, hc, hlog⟩ := (hpop.client p).modify hpop.inv ht
    exact hpop.step_of hi hm hc hlog
  | bwrite x w =>
    obtain ⟨i, hx, ht⟩ := bind_eq_some_iff.mp ht
    have harea : w.May own (LogArea start size) (s.key i) := by
      cases x with
      | lbuf =>
        have hne' : w ≠ .other := hfits.1
        cases w with
        | installTrans => trivial
        | other => exact absurd rfl hne'
        | writeLog | writeHead => exact (h.client p).log hne hx
      | dbuf =>
        -- `dbuf` is written by `install_trans` only.
        have hw : w = .installTrans := hfits.1
        rw [hw]
        trivial
    obtain ⟨hm, hc, hlog⟩ := (hpop.client p).bwrite harea ht
    exact hpop.step_of hi hm hc hlog
  | brelse x =>
    obtain ⟨i, hx, ht⟩ := bind_eq_some_iff.mp ht
    have hpop := h.set (c := { s.client p with todo := rest, var := update (s.client p).var x none })
      (l := s.log) rfl (h.popVar hst htodo) h.layout h.room
    have hother : ∀ {y}, update (s.client p).var x none y ≠ some i := by
      intro y hy
      have hyx : y ≠ x := by
        rintro rfl
        simp at hy
      rw [update_of_ne hyx] at hy
      cases x <;> cases y
      · exact hyx rfl
      · exact (h.client p).apart hne hx hy
      · exact (h.client p).apart hne hy hx
      · exact hyx rfl
    obtain ⟨hm, hc, hlog⟩ := (hpop.client p).brelse (fun _ hy => hother (by simpa [setClient] using hy)) ht
    exact hpop.step_of hi hm hc hlog
  | clear =>
    cases ht
    exact h.set rfl (h.pop hst htodo) h.layout (.inr rfl)
  | endOp =>
    cases ht
    exact h.set rfl (h.pop hst htodo) h.layout h.room

theorem turn (ht : s.turn p = some t) : Writers own d start size t := by
  have hi := h.inv.step ht
  have hp := h.client p
  unfold Bcache.turn at ht
  cases hst : (s.client p).stage with
  | idle =>
    simp only [hst] at ht
    split at ht
    · cases ht
    · rename_i htodo
      exact h.exec hst htodo ht
  | waits k i =>
    simp only [hst] at ht
    split_ifs at ht with hl
    cases ht
    have hstill : ∀ {j q}, (s.buf j).lock = some q →
        Still s ((s.setBuf i { s.buf i with lock := some p }).goto p (.got k i)) j := by
      refine fun {j q} hj => .of_ne rfl ?_
      rintro rfl
      simp [hl] at hj
    refine h.step_of hi (.of rfl (fun _ => hstill) (.inl rfl)) (hp.move hstill ?_ ?_ ?_ ?_ ?_) rfl
    all_goals simp only [goto, setClient, setBuf, update_self]
    · exact .inl trivial
    · intro k' j x b rest ha
      obtain ⟨rfl, rfl⟩ : k = k' ∧ i = j := by simpa [Stage.Asks] using ha
      exact hp.asks (.inl hst)
    · intro k' j x hne ha hv
      obtain ⟨rfl, rfl⟩ : k = k' ∧ i = j := by simpa using ha
      simpa [hl] using hp.held hne hv
    · simp
  | got k i =>
    simp only [hst] at ht
    split at ht
    · cases ht
      exact h.step_of hi (.of rfl (fun _ _ => Still.of_eq rfl) (.inr ⟨_, rfl, by simp⟩))
        (hp.breadReturns h.inv (.inl hst)) rfl
    · obtain ⟨-, x, rfl, -⟩ := iderw_inv ht
      refine h.step_of hi (.of rfl (fun _ _ => Still.of_eq rfl) (.inl rfl))
        (hp.move (fun _ => Still.of_eq rfl) ?_ ?_ ?_ ?_ ?_)
        rfl
      all_goals simp only [goto, setClient, update_self]
      · exact .inl trivial
      · intro k' j x b rest ha
        obtain ⟨rfl, rfl⟩ : k = k' ∧ i = j := by simpa [Stage.Asks] using ha
        exact hp.asks (.inr (.inl hst))
      · intro k' j x hne ha
        obtain ⟨rfl, rfl⟩ : k = k' ∧ i = j := by simpa using ha
        exact hp.fresh hne (.inl hst)
      · simp
  | reads k i =>
    simp only [hst] at ht
    split_ifs at ht
    cases ht
    exact h.step_of hi (.of rfl (fun _ _ => Still.of_eq rfl) (.inr ⟨_, rfl, by simp⟩))
      (hp.breadReturns h.inv (.inr hst)) rfl
  | writes i w =>
    simp only [hst] at ht
    split_ifs at ht
    cases ht
    have hc : ClientOk own (LogArea start size) ((s.goto p .idle).record (.wrote p (s.key i) w)) p :=
      hp.rest (fun _ => Still.of_eq rfl) (.inl (by simp [goto, setClient, record]))
        (by simp [goto, setClient, record]) (by simp [goto, setClient, record])
    refine ⟨hi, fun q => ?_, fun {q k w'} hw => ?_, h.layout, h.room⟩
    · by_cases hq : q = p
      · exact hq ▸ hc
      · exact (h.client q).keep h.inv (by simp [goto, setClient, record, hq]) fun _ => Still.of_eq rfl
    · rcases mem_cons.mp hw with hw | hw
      · cases hw
        exact hp.writes hst
      · exact h.hist hw
  | drops i =>
    simp only [hst] at ht
    cases ht
    rw [drop_eq] at hi ⊢
    refine h.step_of hi (.of rfl (fun _ _ => .of_buf rfl rfl fun _ => rfl) (.inl rfl))
      (hp.rest (fun _ => .of_buf rfl rfl fun _ => rfl) ?_ ?_ ?_) rfl
    all_goals simp [goto, setClient, setBuf]

theorem call (hst : (s.client p).stage = .idle) (htodo : (s.client p).todo = []) {x : Call}
    (hown : ∀ i, x = .bwrite i → own) (ht : s.call p x = some t) : Writers own d start size t := by
  have hi := h.inv.call hst ht
  have hp := h.client p
  unfold Bcache.call at ht
  cases x with
  | beginOp =>
    dsimp only at ht
    split at ht
    · rename_i l _ hl
      cases ht
      obtain ⟨-, -, rfl⟩ := Log.beginOp_ok hl
      exact h.set rfl (hp.rest (fun _ => Still.of_eq rfl) (by simp [setClient]) (by simp [setClient])
        (by simpa [setClient] using hst)) h.layout h.room
    · cases ht
  | bread k =>
    obtain ⟨hm, hc, hlog⟩ := hp.bget h.inv (fun ht => by simp [htodo] at ht) ht
    exact h.step_of hi hm hc hlog
  | modify i f =>
    obtain ⟨hm, hc, hlog⟩ := hp.modify h.inv ht
    exact h.step_of hi hm hc hlog
  | logWrite i =>
    obtain ⟨-, l, hlog, rfl⟩ := logWrite_inv ht
    obtain ⟨-, hroom, -, rfl⟩ := Log.logWrite_ok hlog
    refine ⟨hi, fun q => (h.client q).keep h.inv rfl fun _ => .of_buf rfl rfl fun _ => rfl,
      fun hw => h.hist ((mem_cons.mp hw).resolve_left (by simp)), h.layout, ?_⟩
    rw [h.layout.2] at hroom
    dsimp only
    split
    · exact .inl (by omega)
    · exact .inl (by rw [length_append, length_singleton]; omega)
  | bwrite i =>
    obtain ⟨hm, hc, hlog⟩ := hp.bwrite (w := .other) (hown i rfl) ht
    exact h.step_of hi hm hc hlog
  | brelse i =>
    obtain ⟨hm, hc, hlog⟩ := hp.brelse (fun hne => absurd htodo hne) ht
    exact h.step_of hi hm hc hlog
  | endOp =>
    dsimp only at ht
    split at ht
    · rename_i l doCommit _ hl
      cases ht
      obtain ⟨-, rfl, -⟩ := Log.endOp_ok hl
      refine h.set rfl ?_ h.layout h.room
      constructor
      all_goals simp only [setClient, update_self]
      · split
        · have := commit_fits (l := { s.log with outstanding := s.log.outstanding - 1, committing := doCommit })
            (by simpa [h.layout.2] using h.room)
          simpa [h.layout.1, h.layout.2] using this
        · simp
      all_goals simp [hst, Stage.Asks]
    · cases ht

theorem next {l : Label P} (hown : ∀ p i, l = .call p (.bwrite i) → own) (ht : s.next l = some t) :
    Writers own d start size t := by
  cases l with
  | call p x =>
    simp only [Bcache.next] at ht
    split_ifs at ht with hidle
    exact h.call hidle.1 (by simpa using hidle.2) (fun i hx => hown p i (by rw [hx])) ht
  | step p => exact h.turn ht
  | ideintr =>
    have hi := h.inv.ideintr ht
    obtain ⟨-, rfl⟩ | ⟨i, rest, x, -, rfl, -⟩ := ideintr_inv ht
    · exact h
    · exact ⟨hi, fun q => (h.client q).keep h.inv rfl fun _ => .of_buf rfl rfl fun _ => rfl, h.hist, h.layout, h.room⟩

end

omit [DecidableEq P] in
theorem init {havedisk1 : Bool} :
    Writers own d start size
    ({ disk := d, havedisk1 := havedisk1, log := { start := start, size := size } } : Bcache P) where
  inv := inv_init
  client p := by constructor <;> simp [Stage.Asks]
  hist hw := by simp at hw
  layout := ⟨rfl, rfl⟩
  room := .inr rfl

end Writers

theorem reach_writers (own : Prop) {start size : Nat} {C : Bcache P → Label P → Prop}
    (hC : ∀ s l, C s l → ∀ p i, l = .call p (.bwrite i) → own) (h : (machine P d start size).ReachWhere C s) :
    Writers own d start size s := by
  refine h.invariant (fun s hs => ?_) fun s l _ hi hc ht => hi.next (hC s l hc) ht
  obtain ⟨_, rfl⟩ := hs
  exact .init

end Writers

/-! ### The history -/

variable {d : Nat × Nat → Block} {s : Bcache P} {p : P} {k : Nat × Nat} {c : Block} {h h₁ h₂ : List (Event P)}

theorem Good.tail {e : Event P} (hg : Good d (e :: h)) : Good d h := by
  cases e
  case bread => exact hg.2
  case recycle => exact hg.2
  all_goals exact hg

theorem Good.suffix (hg : Good d (h₁ ++ h₂)) : Good d h₂ := by
  induction h₁ with
  | nil => exact hg
  | cons e h₁ ih => exact ih hg.tail

/-- Between a `log_write` and the time when the block is not marked any more, it was written. -/
theorem wrote_of_not_logged (hn : ¬Logged (h₁ ++ .logWrite p k c :: h₂) k) : ∃ q w, .wrote q k w ∈ h₁ := by
  induction h₁ with
  | nil => exact absurd (.inl rfl) hn
  | cons e h₁ ih =>
    rw [cons_append] at hn
    by_cases hw : ∃ q w, e = .wrote q k w
    · obtain ⟨q, w, rfl⟩ := hw
      exact ⟨q, w, mem_cons_self⟩
    · obtain ⟨q, w, hw⟩ := ih fun hl => hn (by cases e <;> simp_all [Logged])
      exact ⟨q, w, mem_cons_of_mem _ hw⟩

variable [Fintype P] [DecidableEq P]

/-- In any interleaving of the calls, with a commit going on or not: each `bread` returns what the last `log_write` or
    `bwrite` of the block left there, or what the disk had; a block in use has one buffer, and one process has it; and a
    buffer that `log_write` has marked is not recycled before `install_trans` has written it, but for blocks of the log
    and those that a process passes to `bwrite` itself. -/
theorem bcache_transparent {start size : Nat} (hr : (machine P d start size).Reach s) :
    (∀ h₁ h₂ p k c, s.hist = h₁ ++ .bread p k c :: h₂ → c = lastLeft d h₂ k) ∧
    (∀ i j, (s.buf i).Requested → (s.buf j).Requested → s.key i = s.key j → i = j) ∧
    (∀ p q k, Holds s.hist p k → Holds s.hist q k → p = q) ∧
    (∀ h₁ h₂ h₃ p k c, s.hist = h₁ ++ .recycle k :: h₂ ++ .logWrite p k c :: h₃ →
      ∃ q w, .wrote q k w ∈ h₂ ∧ (w = .installTrans ∨ w = .other ∨ LogArea start size k)) ∧
    ((machine P d start size).ReachWhere (fun _ l => ∀ p i, l ≠ .call p (.bwrite i)) s →
      ∀ h₁ h₂ h₃ p k c, s.hist = h₁ ++ .recycle k :: h₂ ++ .logWrite p k c :: h₃ →
        ∃ q w, .wrote q k w ∈ h₂ ∧ (w = .installTrans ∨ LogArea start size k)) := by
  have hw := reach_writers True (fun _ _ _ _ _ _ => trivial) hr
  have hi := hw.inv
  have hwrote : ∀ h₁ h₂ h₃ p k c, s.hist = h₁ ++ .recycle k :: h₂ ++ .logWrite p k c :: h₃ →
      ∃ q w, .wrote q k w ∈ h₂ ∧ .wrote q k w ∈ s.hist := by
    intro h₁ h₂ h₃ p k c hh
    have hgood := hi.good
    rw [hh, append_assoc] at hgood
    obtain ⟨q, w, hmem⟩ := wrote_of_not_logged hgood.suffix.1
    exact ⟨q, w, hmem, by rw [hh]; simp [hmem]⟩
  refine ⟨fun h₁ h₂ p k c hh => ?_, fun i j => hi.inj, fun p q k hp hq => ?_, fun h₁ h₂ h₃ p k c hh => ?_,
    fun hr h₁ h₂ h₃ p k c hh => ?_⟩
  · exact (hh ▸ hi.good).suffix.1
  · obtain ⟨i, hik, hp⟩ := hi.holder hp
    obtain ⟨j, hjk, hq⟩ := hi.holder hq
    have hij := hi.inj ((hi.ok i).requested_of_lock hp) ((hi.ok j).requested_of_lock hq) (hik.trans hjk.symm)
    rw [hij] at hp
    exact some.inj (hp.symm.trans hq)
  · obtain ⟨q, w, hmem, hhist⟩ := hwrote h₁ h₂ h₃ p k c hh
    refine ⟨q, w, hmem, ?_⟩
    have hmay := hw.hist hhist
    cases w with
    | installTrans => exact .inl rfl
    | other => exact .inr (.inl rfl)
    | writeLog | writeHead => exact .inr (.inr hmay)
  · obtain ⟨q, w, hmem, hhist⟩ := hwrote h₁ h₂ h₃ p k c hh
    refine ⟨q, w, hmem, ?_⟩
    have hmay := (reach_writers False (fun _ _ hl p i => hl p i) hr).hist hhist
    cases w with
    | installTrans => exact .inl rfl
    | other => exact hmay.elim
    | writeLog | writeHead => exact .inr hmay

def readOnce (n i : Nat) (hi : i < NBUF) : List (Label (Fin 2)) :=
  [.call 1 (.bread (ROOTDEV, n)), .step 1, .step 1, .ideintr, .step 1, .call 1 (.brelse ⟨i, hi⟩), .step 1]

/-- Process 0 changes block 50 and commits while process 1 waits for the buffer; then process 1 reads other blocks until
    the buffer is recycled, and block 50 again. -/
def rereadRun : List (Label (Fin 2)) :=
  let i : Fin NBUF := ⟨0, NBUF_pos⟩
  [.call 0 .beginOp, .call 0 (.bread (ROOTDEV, 50)), .step 0, .step 0, .ideintr, .step 0,
    .call 0 (.modify i fun _ _ => 7), .call 0 (.logWrite i), .call 1 (.bread (ROOTDEV, 50)), .call 0 (.brelse i),
    .step 0,
    .call 0 .endOp] ++ (List.replicate 46 [.step 0, .ideintr]).flatten ++ [.step 1, .step 1, .call 1 (.brelse i),
      .step 1] ++
  ((List.range 27).map fun n => readOnce (100 + n) ((n + 3) % NBUF) (Nat.mod_lt _ NBUF_pos)).flatten ++
  readOnce 200 1 one_lt_NBUF ++ readOnce 201 2 two_lt_NBUF ++ readOnce 202 0 NBUF_pos ++
  [.call 1 (.bread (ROOTDEV, 50)), .step 1, .step 1, .ideintr, .step 1]

def rereads : List (Event (Fin 2)) → Bool
  | .bread p k c :: _ => p = 1 ∧ k = (ROOTDEV, 50) ∧ c 0 = 7
  | _ => false

theorem bcache_transparent_rereadRun : ∃ s h c, (machine (Fin 2) (fun k _ => k.2) 2 LOGSIZE).Reach s ∧
    s.hist = .bread 1 (ROOTDEV, 50) c :: h ∧ c 0 = 7 ∧ c = lastLeft (fun k _ => k.2) h (ROOTDEV, 50) := by
  have hrun : ((rereadRun.foldlM next
      { disk := fun k _ => k.2, havedisk1 := true, log := { start := 2, size := LOGSIZE } }).map
      fun s => rereads s.hist) = some true := by decide +kernel
  obtain ⟨s, hs, hlast⟩ := map_eq_some_iff.mp hrun
  have hreach : (machine (Fin 2) (fun k _ => k.2) 2 LOGSIZE).Reach s :=
    .foldlM (fun _ _ _ => id) (.init ⟨true, rfl⟩) hs
  unfold rereads at hlast
  split at hlast
  · rename_i p k c h hh
    obtain ⟨rfl, rfl, hc⟩ := of_decide_eq_true hlast
    exact ⟨s, h, c, hreach, hh, hc, (bcache_transparent hreach).1 [] h 1 _ c hh⟩
  · cases hlast

end Bcache
end Xv6
