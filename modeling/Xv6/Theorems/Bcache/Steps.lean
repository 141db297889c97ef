import Xv6.Theorems.Bcache.Buffer

/-! The buffer cache over whole runs: one buffer in use for a block, not recycled while somebody refers to it or its
    data is not on the disk. -/

namespace Xv6
open Function List Option
namespace Bcache

variable {P : Type} {d : Nat × Nat → Block} {s t : Bcache P} {i j : Fin NBUF} {p : P} {k : Nat × Nat} {b : Buf P}
  {ch : Bool} {c : Client}

def Stage.Asks (x : Stage) (k : Nat × Nat) (i : Fin NBUF) : Prop := x = .waits k i ∨ x = .got k i ∨ x = .reads k i

def role (s : Bcache P) (i : Fin NBUF) (p : P) : Role := (s.client p).stage.on i

theorem key_of_buf (h : t.buf j = s.buf j) : t.key j = s.key j := by
  unfold key
  rw [h]

def Event.block : Event P → Nat × Nat
  | .bread _ k _ | .logWrite _ k _ | .bwrite _ k _ | .wrote _ k _ | .brelse _ k | .recycle k => k

theorem lastLeft_cons {e : Event P} {h : List (Event P)} (hk : k ≠ e.block) :
    lastLeft d (e :: h) k = lastLeft d h k := by
  cases e <;> simp_all [lastLeft, Event.block, eq_comm]

theorem logged_cons {e : Event P} {h : List (Event P)} (hk : k ≠ e.block) : Logged (e :: h) k ↔ Logged h k := by
  cases e <;> simp_all [Logged, Event.block, eq_comm]

theorem role_idle (hp : (s.client p).stage = .idle) (i : Fin NBUF) : s.role i p = .none := by
  unfold role
  rw [hp]
  rfl

/-! ### What the functions do -/

theorem idestart_inv (ht : s.idestart i = some t) :
    t = { s with sent := if (s.buf i).dirty then some (s.buf i).data else none } := by
  unfold idestart at ht
  split at ht
  · cases ht
  · exact (some.inj ht).symm

theorem ideintr_inv (ht : s.ideintr = some t) : s.idequeue = [] ∧ t = s ∨ ∃ i rest x, s.idequeue = i :: rest ∧
    t = { s.setBuf i { s.buf i with
        data := if (s.buf i).dirty then (s.buf i).data else s.transferred i (s.key i), valid := true,
        dirty := false } with
      disk := s.transferred i, idequeue := rest, sent := x } ∧
    ∀ j, rest.head? = some j → x = if (t.buf j).dirty then some (t.buf j).data else none := by
  unfold Bcache.ideintr at ht
  split at ht
  · next hq => exact .inl ⟨hq, (some.inj ht).symm⟩
  · next i rest hq =>
    dsimp only at ht
    split at ht
    · exact .inr ⟨i, [], none, hq, (some.inj ht).symm, by simp⟩
    · next j tail =>
      refine .inr ⟨i, j :: tail, _, hq, idestart_inv ht, ?_⟩
      rw [idestart_inv ht]
      rintro _ ⟨⟩
      rfl

section Effects

variable [DecidableEq P]

theorem iderw_inv (ht : s.iderw p i = some t) : (s.buf i).lock = some p ∧
    ∃ x, t = { s with idequeue := s.idequeue ++ [i], sent := x } ∧
      (i ∉ s.idequeue → x = if s.idequeue = [] then if (s.buf i).dirty then some (s.buf i).data else none
      else s.sent) := by
  unfold iderw at ht
  dsimp only at ht
  split_ifs at ht with hl _ _ hhead
  · refine ⟨not_not.mp hl, _, idestart_inv ht, fun hq => ?_⟩
    cases hs : s.idequeue with
    | nil => rw [if_pos rfl]
    | cons j rest => simp_all
  · refine ⟨not_not.mp hl, s.sent, (some.inj ht).symm, fun hq => ?_⟩
    cases hs : s.idequeue with
    | nil => simp [hs] at hhead
    | cons j rest => simp

theorem modify_inv {f : Block → Block} (ht : s.modify p i f = some t) : (s.buf i).lock = some p ∧
    t = { s.setBuf i { s.buf i with data := f (s.buf i).data } with changed := update s.changed i true } := by
  unfold Bcache.modify at ht
  split_ifs at ht with hl
  exact ⟨not_not.mp hl, (some.inj ht).symm⟩

theorem logWrite_inv (ht : s.logWrite p i = some t) : (s.buf i).lock = some p ∧
    ∃ l, s.log.logWrite (s.buf i).blockno = .ok l ∧
      t = { (s.setBuf i { s.buf i with dirty := true }).record (.logWrite p (s.key i) (s.buf i).data) with
        log := l, changed := update s.changed i false } := by
  unfold Bcache.logWrite at ht
  split_ifs at ht with hl
  split at ht
  · cases ht
  · next l hlog => exact ⟨not_not.mp hl, l, hlog, (some.inj ht).symm⟩

theorem bwrite_inv {w : Caller} (ht : s.bwrite p i w = some t) : (s.buf i).lock = some p ∧
    ∃ x, t = { (s.setBuf i { s.buf i with dirty := true }).record (.bwrite p (s.key i) (s.buf i).data) with
        changed := update s.changed i false, client := update s.client p { s.client p with stage := .writes i w },
        idequeue := s.idequeue ++ [i], sent := x } ∧
      (i ∉ s.idequeue → x = if s.idequeue = [] then some (s.buf i).data else s.sent) := by
  unfold Bcache.bwrite at ht
  split_ifs at ht with hl
  obtain ⟨-, x, rfl, hx⟩ := iderw_inv ht
  exact ⟨not_not.mp hl, x, rfl, fun hq => by simpa [goto, setClient, record, setBuf] using hx hq⟩

theorem brelse_inv (ht : s.brelse p i = some t) : (s.buf i).lock = some p ∧ s.changed i = false ∧
    t = ((s.setBuf i { s.buf i with lock := none }).record (.brelse p (s.key i))).goto p (.drops i) := by
  unfold Bcache.brelse at ht
  split_ifs at ht with hl
  rw [not_or, not_not] at hl
  exact ⟨hl.1, by simpa using hl.2, (some.inj ht).symm⟩

theorem drop_eq : s.drop p i = { (s.setBuf i { s.buf i with refcnt := (s.buf i).refcnt - 1 }).goto p .idle with
    mru := if (s.buf i).refcnt - 1 = 0 then i :: s.mru.erase i else s.mru } := by
  unfold Bcache.drop
  dsimp only
  split_ifs <;> rfl

theorem bget_inv (ht : s.bget p k = some t) : ∃ i b h, t = { (s.setBuf i b).goto p (.waits k i) with hist := h } ∧
    (s.mru.find? (fun i => s.key i = k) = some i ∧ b = { s.buf i with refcnt := (s.buf i).refcnt + 1 } ∧ h = s.hist ∨
      (∀ j ∈ s.mru, s.key j ≠ k) ∧ ((s.buf i).refcnt = 0 ∧ (s.buf i).dirty = false) ∧
        b = { s.buf i with dev := k.1, blockno := k.2, valid := false, dirty := false, refcnt := 1 } ∧
        h = if (s.buf i).valid then .recycle (s.key i) :: s.hist else s.hist) := by
  unfold Bcache.bget at ht
  split at ht
  · next i hf => exact ⟨i, _, _, (some.inj ht).symm, .inl ⟨hf, rfl, rfl⟩⟩
  · next hnone =>
    split at ht
    · next i hf =>
      refine ⟨i, _, _, ?_, .inr ⟨by simpa using find?_eq_none.mp hnone, by simpa using find?_some hf, rfl, rfl⟩⟩
      rw [← some.inj ht]
      dsimp only
      split <;> rfl
    · cases ht

structure Turn (s t : Bcache P) (i : Fin NBUF) (p : P) (b : Buf P) (ch : Bool) (c : Client) : Prop where
  buf : t.buf = update s.buf i b
  changed : t.changed = update s.changed i ch
  client : t.client = update s.client p c
  hist : t.hist = s.hist ∨ ∃ e : Event P, e.block = s.key i ∧ t.hist = e :: s.hist
  mru : t.mru = s.mru ∨ t.mru = i :: s.mru.erase i
  key : (b.dev, b.blockno) = s.key i
  stage : ∀ {j}, j ≠ i → c.stage.on j = s.role j p
  asks : ∀ {k j}, c.stage.Asks k j → s.key j = k

theorem Turn.buf_self (m : Turn s t i p b ch c) : t.buf i = b := by rw [m.buf, update_self]

theorem Turn.buf_ne (m : Turn s t i p b ch c) (hj : j ≠ i) : t.buf j = s.buf j := by
  rw [m.buf, update_of_ne hj]

theorem Turn.key_self (m : Turn s t i p b ch c) : t.key i = s.key i := by
  rw [← m.key]
  unfold Bcache.key
  rw [m.buf_self]

theorem Turn.role_self (m : Turn s t i p b ch c) : t.role i = update (s.role i) p (c.stage.on i) := by
  funext q
  unfold role
  rw [m.client]
  exact apply_update (fun _ (c : Client) => c.stage.on i) s.client p c q

/-- `bget` gives buffer `i` to process `p` for block `k`: it is for that block already, or it is unused. -/
structure HandOut (s t : Bcache P) (i : Fin NBUF) (p : P) (k : Nat × Nat) (b : Buf P) : Prop where
  buf : t.buf = update s.buf i b
  client : t.client = update s.client p { s.client p with stage := .waits k i }
  rest : t.disk = s.disk ∧ t.mru = s.mru ∧ t.idequeue = s.idequeue ∧ t.sent = s.sent ∧ t.changed = s.changed
  hist : t.hist = s.hist ∨ ∃ k', t.hist = .recycle k' :: s.hist
  idle : (s.client p).stage = .idle
  key : (b.dev, b.blockno) = k
  requested : b.Requested
  lock : b.lock = (s.buf i).lock
  data : i ∈ s.idequeue → b.dirty = (s.buf i).dirty ∧ b.data = (s.buf i).data
  unused : s.key i = k ∨ (s.buf i).refcnt = 0 ∧ (s.buf i).dirty = false
  alone : ∀ {j}, j ≠ i → (s.buf j).Requested → s.key j ≠ k
  first : s.mru.Pairwise fun j j' => j' = i → s.key j ≠ k

namespace HandOut

section

variable (m : HandOut s t i p k b)
include m

theorem buf_self : t.buf i = b := by rw [m.buf, update_self]

theorem buf_ne (hj : j ≠ i) : t.buf j = s.buf j := by rw [m.buf, update_of_ne hj]

theorem key_self : t.key i = k := by
  rw [← m.key]
  unfold Bcache.key
  rw [m.buf_self]

theorem key_ne (hj : j ≠ i) : t.key j = s.key j := key_of_buf (m.buf_ne hj)

theorem same_hist : lastLeft d t.hist = lastLeft d s.hist ∧ Logged t.hist = Logged s.hist ∧
    Holds t.hist = Holds s.hist := by
  rcases m.hist with hh | ⟨k', hh⟩ <;> rw [hh] <;> exact ⟨rfl, rfl, rfl⟩

theorem role_eq (j : Fin NBUF) : t.role j = update (s.role j) p ((Stage.waits k i).on j) := by
  funext q
  unfold role
  rw [m.client]
  exact apply_update (fun _ (c : Client) => c.stage.on j) s.client p _ q

end

end HandOut

end Effects

/-! ### The invariant -/

variable [Fintype P]

def Ok (d : Nat × Nat → Block) (s : Bcache P) (i : Fin NBUF) : Prop :=
  BufOk (s.buf i) (s.changed i) (i ∈ s.idequeue) (s.role i) (lastLeft d s.hist (s.key i)) (s.disk (s.key i))
    (Logged s.hist (s.key i))

/-- Each `bread` has returned what was left in the block, and no buffer was recycled before its block was installed. -/
def Good (d : Nat × Nat → Block) : List (Event P) → Prop
  | [] => True
  | .bread _ k c :: h => c = lastLeft d h k ∧ Good d h
  | .recycle k :: h => ¬Logged h k ∧ Good d h
  | .logWrite .. :: h | .bwrite .. :: h | .wrote .. :: h | .brelse .. :: h => Good d h

structure Inv (d : Nat × Nat → Block) (s : Bcache P) : Prop where
  ok : ∀ i, s.Ok d i
  fresh : ∀ {i}, ¬(s.buf i).Requested → s.key i = (0, 0)
  inj : ∀ {i j}, (s.buf i).Requested → (s.buf j).Requested → s.key i = s.key j → i = j
  uncached : ∀ {k}, (∀ i, (s.buf i).Requested → s.key i ≠ k) →
    s.disk k = lastLeft d s.hist k ∧ ¬Logged s.hist k
  mem : ∀ i, i ∈ s.mru
  distinct : s.mru.Nodup
  /-- Block 0 of device 0 is looked up in its own buffer, since the buffers that were never used come after it. -/
  order : s.mru.Pairwise fun i j => ¬(s.buf i).Requested → (s.buf j).Requested → s.key j ≠ (0, 0)
  asks : ∀ {p k i}, (s.client p).stage.Asks k i → s.key i = k
  nodup : s.idequeue.Nodup
  sent : ∀ {i}, s.idequeue.head? = some i → s.sent = if (s.buf i).dirty then some (s.buf i).data else none
  good : Good d s.hist
  holder : ∀ {p k}, Holds s.hist p k → ∃ i, s.key i = k ∧ (s.buf i).lock = some p

structure Moved (d : Nat × Nat → Block) (s t : Bcache P) (i : Fin NBUF) : Prop where
  before : (s.buf i).Requested
  after : (t.buf i).Requested
  ok : t.Ok d i
  key : t.key i = s.key i
  buf : ∀ {j}, j ≠ i → t.buf j = s.buf j
  changed : ∀ {j}, j ≠ i → t.changed j = s.changed j
  role : ∀ {j}, j ≠ i → ∀ q, t.role j q = s.role j q
  queue : ∀ {j}, j ≠ i → (j ∈ t.idequeue ↔ j ∈ s.idequeue)
  left : ∀ {k}, k ≠ s.key i → lastLeft d t.hist k = lastLeft d s.hist k ∧ t.disk k = s.disk k ∧
    (Logged t.hist k → Logged s.hist k)
  mru : t.mru = s.mru ∨ t.mru = i :: s.mru.erase i
  asks : ∀ {p k j}, (t.client p).stage.Asks k j → s.key j = k

theorem Moved.keys (m : Moved d s t i) (j : Fin NBUF) : t.key j = s.key j := by
  by_cases hj : j = i
  · rw [hj, m.key]
  · exact key_of_buf (m.buf hj)

theorem Moved.requested_iff (m : Moved d s t i) (j : Fin NBUF) : (t.buf j).Requested ↔ (s.buf j).Requested := by
  by_cases hj : j = i
  · subst hj
    exact iff_of_true m.after m.before
  · rw [m.buf hj]

theorem Inv.moved (h : Inv d s) (m : Moved d s t i) (nodup : t.idequeue.Nodup)
    (sent : ∀ {i}, t.idequeue.head? = some i → t.sent = if (t.buf i).dirty then some (t.buf i).data else none)
    (good : Good d t.hist) (holder : ∀ {p k}, Holds t.hist p k → ∃ i, t.key i = k ∧ (t.buf i).lock = some p) :
    Inv d t where
  ok j := by
    by_cases hj : j = i
    · exact hj ▸ m.ok
    have hok := h.ok j
    unfold Ok at hok ⊢
    rw [m.buf hj, m.changed hj, m.keys j]
    exact hok.congr (m.queue hj) (m.role hj) fun hr => m.left fun hk => hj (h.inj hr m.before hk)
  fresh := by
    intro j hj
    rw [m.keys j]
    exact h.fresh (mt (m.requested_iff j).mpr hj)
  inj := by
    intro a b ha hb hk
    rw [m.keys, m.keys] at hk
    exact h.inj ((m.requested_iff a).mp ha) ((m.requested_iff b).mp hb) hk
  uncached := by
    intro k hk
    have hs : ∀ j, (s.buf j).Requested → s.key j ≠ k := fun j hj => m.keys j ▸ hk j ((m.requested_iff j).mpr hj)
    obtain ⟨hleft, hdisk, hlog⟩ := m.left (hs i m.before).symm
    rw [hleft, hdisk]
    exact ⟨(h.uncached hs).1, mt hlog (h.uncached hs).2⟩
  mem j := by
    rcases m.mru with hm | hm <;> rw [hm]
    · exact h.mem j
    · by_cases hj : j = i
      · rw [hj]
        exact mem_cons_self
      · exact mem_cons_of_mem _ ((mem_erase_of_ne hj).mpr (h.mem j))
  distinct := by
    rcases m.mru with hm | hm <;> rw [hm]
    · exact h.distinct
    · exact nodup_cons.mpr ⟨h.distinct.not_mem_erase, h.distinct.erase i⟩
  order := by
    have hs : s.mru.Pairwise fun a b => ¬(t.buf a).Requested → (t.buf b).Requested → t.key b ≠ (0, 0) := by
      simp only [m.requested_iff, m.keys]
      exact h.order
    rcases m.mru with hm | hm <;> rw [hm]
    · exact hs
    · exact pairwise_cons.mpr ⟨fun b _ hi => absurd m.after hi, hs.sublist erase_sublist⟩
  asks hq := (m.keys _).trans (m.asks hq)
  nodup := nodup
  sent := sent
  good := good
  holder := holder

/-! ### The steps -/

theorem Inv.not_queued (h : Inv d s) (hp : s.role i p ≠ .reads ∧ s.role i p ≠ .writes) (hl : (s.buf i).lock = some p) :
    i ∉ s.idequeue := by
  intro hq
  obtain ⟨q, hq⟩ := (h.ok i).active hq
  have hown := (h.ok i).owner (p := q) (by tauto)
  rw [hl] at hown
  obtain rfl := some.inj hown
  rcases hq with hq | hq
  · exact hp.1 hq
  · exact hp.2 hq

variable [DecidableEq P]

section

variable (h : Inv d s)
include h

theorem Turn.moved (m : Turn s t i p b ch c) (hs : (s.buf i).Requested) (ht : b.Requested)
    (hqueue : ∀ {j}, j ≠ i → (j ∈ t.idequeue ↔ j ∈ s.idequeue)) (hdisk : ∀ {k}, k ≠ s.key i → t.disk k = s.disk k)
    (hok : BufOk b ch (i ∈ t.idequeue) (update (s.role i) p (c.stage.on i)) (lastLeft d t.hist (s.key i))
      (t.disk (s.key i)) (Logged t.hist (s.key i))) : Moved d s t i where
  before := hs
  after := m.buf_self.symm ▸ ht
  ok := by
    unfold Ok
    rw [m.buf_self, m.key_self, m.role_self, m.changed, update_self]
    exact hok
  key := m.key_self
  buf := m.buf_ne
  changed hj := by rw [m.changed, update_of_ne hj]
  role := by
    intro j hj q
    unfold role
    rw [m.client]
    by_cases hq : q = p
    · subst hq
      rw [update_self]
      exact m.stage hj
    · rw [update_of_ne hq]
  queue := hqueue
  left := by
    intro k hk
    rcases m.hist with hh | ⟨e, he, hh⟩ <;> rw [hh]
    · exact ⟨rfl, hdisk hk, id⟩
    · exact ⟨lastLeft_cons (he ▸ hk), hdisk hk, (logged_cons (he ▸ hk)).mp⟩
  mru := m.mru
  asks := by
    intro q k j hq
    rw [m.client] at hq
    by_cases hqp : q = p
    · subst hqp
      rw [update_self] at hq
      exact m.asks hq
    · rw [update_of_ne hqp] at hq
      exact h.asks hq

theorem Inv.turn (m : Turn s t i p b ch c) (hs : (s.buf i).Requested) (ht : b.Requested)
    (hdisk : t.disk = s.disk) (hqueue : t.idequeue = s.idequeue) (hsent : t.sent = s.sent)
    (hdata : i ∈ s.idequeue → b.dirty = (s.buf i).dirty ∧ b.data = (s.buf i).data)
    (hok : BufOk b ch (i ∈ s.idequeue) (update (s.role i) p (c.stage.on i)) (lastLeft d t.hist (s.key i))
      (s.disk (s.key i)) (Logged t.hist (s.key i)))
    (good : Good d t.hist) (holder : ∀ {p k}, Holds t.hist p k → ∃ i, t.key i = k ∧ (t.buf i).lock = some p) :
    Inv d t := by
  refine h.moved (m.moved h hs ht (fun _ => by rw [hqueue]) (fun _ => by rw [hdisk]) (by rwa [hqueue, hdisk]))
    (hqueue ▸ h.nodup) (fun {j} hj => ?_) good holder
  rw [hqueue] at hj
  rw [hsent, h.sent hj]
  by_cases hji : j = i
  · subst hji
    obtain ⟨h1, h2⟩ := hdata (mem_of_mem_head? hj)
    rw [m.buf_self, h1, h2]
  · rw [m.buf_ne hji]

theorem Inv.holder_keep (m : Turn s t i p b ch c) (hlock : ∀ q, (s.buf i).lock = some q → b.lock = some q)
    {q : P} (hq : Holds s.hist q k) : ∃ j, t.key j = k ∧ (t.buf j).lock = some q := by
  obtain ⟨j, hj, hl⟩ := h.holder hq
  refine ⟨j, ?_, ?_⟩
  · by_cases hji : j = i
    · rw [hji, m.key_self, ← hji, hj]
    · rw [key_of_buf (m.buf_ne hji), hj]
  · by_cases hji : j = i
    · subst hji
      rw [m.buf_self]
      exact hlock q hl
    · rw [m.buf_ne hji]
      exact hl

theorem Inv.lock (hst : (s.client p).stage = .waits k i) (hl : (s.buf i).lock = none) :
    Inv d ((s.setBuf i { s.buf i with lock := some p }).goto p (.got k i)) := by
  have hrole : s.role i p = .waits := by simp [role, hst, Stage.on]
  have hok := (h.ok i).lock hrole hl
  have hs : (s.buf i).Requested := (h.ok i).requested_of_refs (by rw [hrole]; rfl)
  have m : Turn s ((s.setBuf i { s.buf i with lock := some p }).goto p (.got k i)) i p
      { s.buf i with lock := some p } (s.changed i) { s.client p with stage := .got k i } := {
    buf := rfl
    changed := (update_eq_self ..).symm
    client := rfl
    hist := .inl rfl
    mru := .inl rfl
    key := rfl
    stage := fun hj => by simp [role, hst, Stage.on, hj.symm]
    asks := fun ha => by
      obtain ⟨rfl, rfl⟩ : k = _ ∧ i = _ := by simpa [Stage.Asks] using ha
      exact h.asks (p := p) (.inl hst) }
  refine h.turn m hs hs rfl rfl rfl (fun _ => ⟨rfl, rfl⟩) ?_ h.good (h.holder_keep m (by simp [hl]))
  rw [show Stage.on _ i = Role.got by simp [Stage.on]]
  exact hok

theorem Inv.breadReturns
    (hst : (s.client p).stage = .got k i ∨ (s.client p).stage = .reads k i ∧ (s.buf i).dirty = false)
    (hv : (s.buf i).valid = true) : Inv d (s.breadReturns p k i) := by
  have hkey : s.key i = k := h.asks (p := p) (by rcases hst with hst | hst <;> simp [Stage.Asks, hst])
  have hrole : s.role i p = .got ∨ s.role i p = .reads ∧ (s.buf i).dirty = false := by
    unfold role
    rcases hst with hst | ⟨hst, hd⟩
    · simp [hst, Stage.on]
    · simp [hst, hd, Stage.on]
  have hidle : ((s.client p).returned i).stage = .idle := by
    unfold Client.returned
    split <;> rfl
  have hl : (s.buf i).lock = some p := (h.ok i).owner (by tauto)
  have hch : s.changed i = false := by
    rcases hrole with hr | ⟨hr, -⟩
    · exact (h.ok i).got hr
    · exact ((h.ok i).reads hr).1
  have m : Turn s (s.breadReturns p k i) i p (s.buf i) (s.changed i) ((s.client p).returned i) := {
    buf := (update_eq_self ..).symm
    changed := (update_eq_self ..).symm
    client := rfl
    hist := .inr ⟨.bread p k _, hkey.symm, rfl⟩
    mru := .inl rfl
    key := rfl
    stage := fun hj => by
      rw [hidle]
      rcases hst with hst | ⟨hst, -⟩ <;> simp [role, hst, Stage.on, hj.symm]
    asks := fun ha => by simp [hidle, Stage.Asks] at ha }
  have hs := (h.ok i).requested_of_lock hl
  refine h.turn m hs hs rfl rfl rfl (fun _ => ⟨rfl, rfl⟩) ?_ ⟨?_, h.good⟩ ?_
  · rw [hidle]
    exact (h.ok i).ret hrole hv
  · rw [← hkey]
    exact (h.ok i).data hv hch
  · rintro q k' (⟨rfl, rfl⟩ | hq)
    · exact ⟨i, m.key_self.trans hkey, m.buf_self ▸ hl⟩
    · exact h.holder_keep m (fun _ => id) hq

theorem Inv.modify (hst : (s.client p).stage = .idle) {f : Block → Block} (ht : s.modify p i f = some t) : Inv d t := by
  obtain ⟨hl, rfl⟩ := modify_inv ht
  have hrole := role_idle hst i
  have hs := (h.ok i).requested_of_lock hl
  have m : Turn s { s.setBuf i { s.buf i with data := f (s.buf i).data } with
      changed := update s.changed i true } i p { s.buf i with data := f (s.buf i).data } true (s.client p) := {
    buf := rfl
    changed := rfl
    client := (update_eq_self ..).symm
    hist := .inl rfl
    mru := .inl rfl
    key := rfl
    stage := fun _ => rfl
    asks := h.asks }
  refine h.turn m hs hs rfl rfl rfl (fun hq => absurd hq (h.not_queued (by simp [hrole]) hl)) ?_ h.good
    (h.holder_keep m fun _ => id)
  rw [show update (s.role i) p ((s.client p).stage.on i) = s.role i from update_eq_self ..]
  exact (h.ok i).modify hrole hl _

theorem Inv.logWrite (hst : (s.client p).stage = .idle) (ht : s.logWrite p i = some t) : Inv d t := by
  obtain ⟨hl, l, -, rfl⟩ := logWrite_inv ht
  have hrole := role_idle hst i
  have hs := (h.ok i).requested_of_lock hl
  have m : Turn s { (s.setBuf i { s.buf i with dirty := true }).record (.logWrite p (s.key i) (s.buf i).data) with
      log := l, changed := update s.changed i false } i p { s.buf i with dirty := true } false
      (s.client p) := {
    buf := rfl
    changed := rfl
    client := (update_eq_self ..).symm
    hist := .inr ⟨_, rfl, rfl⟩
    mru := .inl rfl
    key := rfl
    stage := fun _ => rfl
    asks := h.asks }
  refine h.turn m hs hs rfl rfl rfl (fun hq => absurd hq (h.not_queued (by simp [hrole]) hl)) ?_ h.good
    (h.holder_keep m fun _ => id)
  rw [show update (s.role i) p ((s.client p).stage.on i) = s.role i from update_eq_self ..]
  simp only [record, setBuf, lastLeft, Logged, if_true, true_or]
  exact (h.ok i).logWrite hrole hl

theorem Inv.wrote {w : Caller} (hst : (s.client p).stage = .writes i w) (hd : (s.buf i).dirty = false) :
    Inv d ((s.goto p .idle).record (.wrote p (s.key i) w)) := by
  have hrole : s.role i p = .writes := by simp [role, hst, Stage.on]
  have hs := (h.ok i).requested_of_lock ((h.ok i).owner (p := p) (by simp [hrole]))
  have m : Turn s ((s.goto p .idle).record (.wrote p (s.key i) w)) i p (s.buf i) (s.changed i)
      { s.client p with stage := .idle } := {
    buf := (update_eq_self ..).symm
    changed := (update_eq_self ..).symm
    client := rfl
    hist := .inr ⟨_, rfl, rfl⟩
    mru := .inl rfl
    key := rfl
    stage := fun hj => by simp [role, hst, Stage.on, hj.symm]
    asks := fun ha => by simp [Stage.Asks] at ha }
  refine h.turn m hs hs rfl rfl rfl (fun _ => ⟨rfl, rfl⟩) ?_ h.good (h.holder_keep m fun _ => id)
  simp only [record, goto, setClient, lastLeft, Logged, ne_eq, not_true_eq_false, false_and]
  exact (h.ok i).wrote hrole hd

theorem Inv.brelse (hst : (s.client p).stage = .idle) (ht : s.brelse p i = some t) : Inv d t := by
  obtain ⟨hl, hch, rfl⟩ := brelse_inv ht
  have hrole := role_idle hst i
  have hs := (h.ok i).requested_of_lock hl
  have m : Turn s (((s.setBuf i { s.buf i with lock := none }).record (.brelse p (s.key i))).goto p (.drops i)) i p
      { s.buf i with lock := none } (s.changed i) { s.client p with stage := .drops i } := {
    buf := rfl
    changed := (update_eq_self ..).symm
    client := rfl
    hist := .inr ⟨_, rfl, rfl⟩
    mru := .inl rfl
    key := rfl
    stage := fun hj => by simp [role, hst, Stage.on, hj.symm]
    asks := fun ha => by simp [Stage.Asks] at ha }
  refine h.turn m hs hs rfl rfl rfl (fun _ => ⟨rfl, rfl⟩) ?_ h.good ?_
  · rw [show Stage.on _ i = Role.drops by simp [Stage.on]]
    exact (h.ok i).unlock hrole hl hch
  · -- The buffer that is released was held by `p` alone.
    rintro q k' ⟨hne, hq⟩
    obtain ⟨j, hj, hlj⟩ := h.holder hq
    have hji : j ≠ i := by
      rintro rfl
      rw [hl] at hlj
      exact hne ⟨some.inj hlj, hj⟩
    exact ⟨j, (key_of_buf (m.buf_ne hji)).trans hj, m.buf_ne hji ▸ hlj⟩

theorem Inv.drop (hst : (s.client p).stage = .drops i) : Inv d (s.drop p i) := by
  have hrole : s.role i p = .drops := by simp [role, hst, Stage.on]
  have hv := (h.ok i).drops hrole
  rw [drop_eq]
  have m : Turn s { (s.setBuf i { s.buf i with refcnt := (s.buf i).refcnt - 1 }).goto p .idle with
      mru := if (s.buf i).refcnt - 1 = 0 then i :: s.mru.erase i else s.mru } i p
      { s.buf i with refcnt := (s.buf i).refcnt - 1 } (s.changed i) { s.client p with stage := .idle } := {
    buf := rfl
    changed := (update_eq_self ..).symm
    client := rfl
    hist := .inl rfl
    mru := by split_ifs <;> simp
    key := rfl
    stage := fun hj => by simp [role, hst, Stage.on, hj.symm]
    asks := fun ha => by simp [Stage.Asks] at ha }
  exact h.turn m (.inr hv) (.inr hv) rfl rfl rfl (fun _ => ⟨rfl, rfl⟩) ((h.ok i).drop hrole) h.good
    (h.holder_keep m fun _ => id)

theorem Inv.enqueue (m : Turn s t i p b ch c) (hs : (s.buf i).Requested) (ht : b.Requested)
    (hdisk : t.disk = s.disk) (hq : i ∉ s.idequeue) (hqueue : t.idequeue = s.idequeue ++ [i])
    (hsent : t.sent = if s.idequeue = [] then if b.dirty then some b.data else none else s.sent)
    (hok : BufOk b ch True (update (s.role i) p (c.stage.on i)) (lastLeft d t.hist (s.key i))
      (s.disk (s.key i)) (Logged t.hist (s.key i)))
    (good : Good d t.hist) (holder : ∀ {p k}, Holds t.hist p k → ∃ i, t.key i = k ∧ (t.buf i).lock = some p) :
    Inv d t := by
  have hmem : (i ∈ t.idequeue) = True := by simp [hqueue]
  refine h.moved (m.moved h hs ht (fun hj => by simp [hqueue, hj]) (fun _ => by rw [hdisk]) (by rwa [hmem, hdisk]))
    (by simpa [hqueue, nodup_append] using ⟨h.nodup, fun a ha (hai : a = i) => hq (hai ▸ ha)⟩)
    (fun {j} hj => ?_) good holder
  rw [hqueue] at hj
  cases hidle : s.idequeue with
  | nil =>
    rw [hidle] at hj
    obtain rfl : i = j := by simpa using hj
    rw [hsent, hidle, if_pos rfl, m.buf_self]
  | cons a rest =>
    rw [hidle] at hj
    obtain rfl : a = j := by simpa using hj
    have hne : a ≠ i := fun hai => hq (by simp [hidle, hai])
    rw [hsent, hidle, if_neg (by simp), m.buf_ne hne]
    exact h.sent (by simp [hidle])

theorem Inv.startRead (hst : (s.client p).stage = .got k i) (hv : (s.buf i).valid = false)
    (ht : (s.goto p (.reads k i)).iderw p i = some t) : Inv d t := by
  have hrole : s.role i p = .got := by simp [role, hst, Stage.on]
  have hl : (s.buf i).lock = some p := (h.ok i).owner (by simp [hrole])
  have hq := h.not_queued (by simp [hrole]) hl
  have hs := (h.ok i).requested_of_lock hl
  obtain ⟨-, x, rfl, hx⟩ := iderw_inv ht
  have m : Turn s { s.goto p (.reads k i) with idequeue := s.idequeue ++ [i], sent := x } i p (s.buf i)
    (s.changed i) { s.client p with stage := .reads k i } := {
    buf := (update_eq_self ..).symm
    changed := (update_eq_self ..).symm
    client := rfl
    hist := .inl rfl
    mru := .inl rfl
    key := rfl
    stage := fun hj => by simp [role, hst, Stage.on, hj.symm]
    asks := fun ha => by
      obtain ⟨rfl, rfl⟩ : k = _ ∧ i = _ := by simpa [Stage.Asks] using ha
      exact h.asks (p := p) (.inr (.inl hst)) }
  refine h.enqueue m hs hs rfl hq rfl (hx hq) ?_ h.good (h.holder_keep m fun _ => id)
  rw [show Stage.on _ i = Role.reads by simp [Stage.on]]
  exact (h.ok i).startRead hrole hv

theorem Inv.bwrite {w : Caller} (hst : (s.client p).stage = .idle) (ht : s.bwrite p i w = some t) : Inv d t := by
  obtain ⟨hl, x, rfl, hx⟩ := bwrite_inv ht
  have hrole := role_idle hst i
  have hq := h.not_queued (by simp [hrole]) hl
  have hs := (h.ok i).requested_of_lock hl
  have m : Turn s { (s.setBuf i { s.buf i with dirty := true }).record (.bwrite p (s.key i) (s.buf i).data) with
      changed := update s.changed i false, client := update s.client p { s.client p with stage := .writes i w },
      idequeue := s.idequeue ++ [i], sent := x } i p { s.buf i with dirty := true } false
      { s.client p with stage := .writes i w } := {
    buf := rfl
    changed := rfl
    client := rfl
    hist := .inr ⟨_, rfl, rfl⟩
    mru := .inl rfl
    key := rfl
    stage := fun hj => by simp [role, hst, Stage.on, hj.symm]
    asks := fun ha => by simp [Stage.Asks] at ha }
  refine h.enqueue m hs hs rfl hq rfl (hx hq) ?_ h.good (h.holder_keep m fun _ => id)
  rw [show Stage.on _ i = Role.writes by simp [Stage.on]]
  simp only [record, setBuf, lastLeft, if_true]
  exact (h.ok i).bwrite hrole hl

theorem Inv.ideintr (ht : s.ideintr = some t) : Inv d t := by
  obtain ⟨-, rfl⟩ | ⟨i, rest, x, hqueue, ht, hx⟩ := ideintr_inv ht
  · exact h
  have hq : i ∈ s.idequeue := by simp [hqueue]
  have hnodup := h.nodup
  rw [hqueue, nodup_cons] at hnodup
  obtain ⟨p, hp⟩ := (h.ok i).active hq
  have hs := (h.ok i).requested_of_lock ((h.ok i).owner (p := p) (by tauto))
  -- The block and the buffer have the same contents now.
  generalize hc : (if (s.buf i).dirty then (s.buf i).data else s.disk (s.key i)) = c
  have hdisk : s.transferred i = update s.disk (s.key i) c := by
    unfold transferred
    rw [h.sent (i := i) (by simp [hqueue]), ← hc]
    cases (s.buf i).dirty <;> simp
  have hdata : (if (s.buf i).dirty then (s.buf i).data else update s.disk (s.key i) c (s.key i)) = c := by
    rw [update_self, ← hc]
    split <;> rfl
  rw [hdisk, hdata] at ht
  have m : Turn s t i p { s.buf i with data := c, valid := true, dirty := false } (s.changed i) (s.client p) := by
    rw [ht]
    exact {
      buf := rfl
      changed := (update_eq_self ..).symm
      client := (update_eq_self ..).symm
      hist := .inl rfl
      mru := .inl rfl
      key := rfl
      stage := fun _ => rfl
      asks := h.asks }
  have hhist : t.hist = s.hist := by rw [ht]; rfl
  have hrest : t.idequeue = rest := by rw [ht]
  refine h.moved (m.moved h hs (.inr rfl) (fun hj => by simp [hrest, hqueue, hj])
    (fun hk => by rw [ht]; exact update_of_ne hk ..) ?_) (hrest ▸ hnodup.2) (fun {j} hj => ?_) (hhist ▸ h.good) ?_
  · have hok := (h.ok i).intr hq
    rw [hc] at hok
    rw [hrest, hhist, ht, show update (s.role i) p ((s.client p).stage.on i) = s.role i from update_eq_self ..]
    simp only [update_self, hnodup.1]
    exact hok
  · rw [hrest] at hj
    rw [← hx j hj, ht]
  · rw [hhist]
    exact h.holder_keep m fun _ => id

theorem HandOut.key_of_asks (m : HandOut s t i p k b) (hr : ∃ q, s.role i q ≠ .none) : s.key i = k := by
  rcases m.unused with hk | ⟨h0, -⟩
  · exact hk
  · obtain ⟨q, hq⟩ := hr
    exact absurd (((h.ok i).idle h0).2.1 q) hq

theorem HandOut.synced (m : HandOut s t i p k b) (hr : (s.buf i).Requested) (hk : s.key i ≠ k) :
    s.disk (s.key i) = lastLeft d s.hist (s.key i) ∧ ¬Logged s.hist (s.key i) := by
  obtain ⟨h0, hd⟩ := m.unused.resolve_left hk
  have hrole := ((h.ok i).idle h0).2.1
  refine ⟨((h.ok i).synced hr).resolve_right (by simp [hd]), fun hlog => ?_⟩
  rcases (h.ok i).pinned hr hlog with hd' | ⟨q, hq⟩
  · simp [hd] at hd'
  · simp [hrole q] at hq

theorem Inv.handOut (m : HandOut s t i p k b)
    (hok : BufOk b (s.changed i) (i ∈ s.idequeue) (update (s.role i) p .waits) (lastLeft d s.hist k) (s.disk k)
      (Logged s.hist k)) (good : Good d t.hist) : Inv d t := by
  obtain ⟨hdisk, hmru, hqueue, hsent, hchanged⟩ := m.rest
  obtain ⟨hleft, hlogged, hholds⟩ := m.same_hist (d := d)
  have hreq : ∀ {j}, j ≠ i → ((t.buf j).Requested ↔ (s.buf j).Requested) := fun hj => by rw [m.buf_ne hj]
  constructor
  case ok =>
    intro j
    unfold Ok
    rw [hleft, hlogged, hdisk, hqueue, hchanged, m.role_eq]
    by_cases hj : j = i
    · subst hj
      rw [m.buf_self, m.key_self]
      simpa [Stage.on] using hok
    · rw [m.buf_ne hj, m.key_ne hj]
      refine (h.ok j).congr Iff.rfl (fun q => ?_) fun _ => ⟨rfl, rfl, id⟩
      rw [show (Stage.waits k i).on j = s.role j p by simp [role, m.idle, Stage.on, Ne.symm hj],
        update_eq_self]
  case fresh =>
    intro j hj
    have hji : j ≠ i := by
      rintro rfl
      exact hj (m.buf_self.symm ▸ m.requested)
    rw [m.key_ne hji]
    exact h.fresh (mt (hreq hji).mpr hj)
  case inj =>
    intro a a' ha ha' hk
    by_cases hai : a = i <;> by_cases hai' : a' = i
    · rw [hai, hai']
    · rw [hai, m.key_self, m.key_ne hai'] at hk
      exact absurd hk.symm (m.alone hai' ((hreq hai').mp ha'))
    · rw [hai', m.key_self, m.key_ne hai] at hk
      exact absurd hk (m.alone hai ((hreq hai).mp ha))
    · rw [m.key_ne hai, m.key_ne hai'] at hk
      exact h.inj ((hreq hai).mp ha) ((hreq hai').mp ha') hk
  case uncached =>
    intro k' hk'
    rw [hdisk, hleft, hlogged]
    have hne : k ≠ k' := m.key_self ▸ hk' i (m.buf_self.symm ▸ m.requested)
    by_cases hi : (s.buf i).Requested ∧ s.key i = k'
    · obtain ⟨hr, rfl⟩ := hi
      exact m.synced h hr (Ne.symm hne)
    · refine h.uncached fun j hj => ?_
      by_cases hji : j = i
      · subst hji
        exact fun hk => hi ⟨hj, hk⟩
      · exact m.key_ne hji ▸ hk' j ((hreq hji).mpr hj)
  case mem => exact fun j => hmru ▸ h.mem j
  case distinct => exact hmru ▸ h.distinct
  case order =>
    rw [hmru]
    refine (h.order.and m.first).imp fun {a a'} hpair ha ha' => ?_
    have hai : a ≠ i := by
      rintro rfl
      exact ha (m.buf_self.symm ▸ m.requested)
    have ha := mt (hreq hai).mpr ha
    by_cases hai' : a' = i
    · rw [hai', m.key_self, ← h.fresh ha]
      exact Ne.symm (hpair.2 hai')
    · rw [m.key_ne hai']
      exact hpair.1 ha ((hreq hai').mp ha')
  case asks =>
    intro q k' j hq
    have hkeys : ∀ {q}, (s.client q).stage.Asks k' j → t.key j = k' := by
      intro q hq
      by_cases hji : j = i
      · subst hji
        have hr : s.role j q ≠ .none := by
          unfold role
          rcases hq with hq | hq | hq <;> simp [hq, Stage.on]
        rw [m.key_self, ← m.key_of_asks h ⟨q, hr⟩, h.asks hq]
      · rw [m.key_ne hji, h.asks hq]
    rw [m.client] at hq
    by_cases hqp : q = p
    · subst hqp
      rw [update_self] at hq
      obtain ⟨rfl, rfl⟩ : k = k' ∧ i = j := by simpa [Stage.Asks] using hq
      exact m.key_self
    · rw [update_of_ne hqp] at hq
      exact hkeys hq
  case nodup => exact hqueue ▸ h.nodup
  case sent =>
    intro j hj
    rw [hqueue] at hj
    rw [hsent, h.sent hj]
    by_cases hji : j = i
    · subst hji
      obtain ⟨h1, h2⟩ := m.data (mem_of_mem_head? hj)
      rw [m.buf_self, h1, h2]
    · rw [m.buf_ne hji]
  case good => exact good
  case holder =>
    intro q k' hq
    rw [hholds] at hq
    obtain ⟨j, hj, hl⟩ := h.holder hq
    refine ⟨j, ?_, ?_⟩
    · by_cases hji : j = i
      · subst hji
        rcases m.unused with hk | ⟨h0, -⟩
        · rw [m.key_self, ← hk, hj]
        · simp [((h.ok j).idle h0).1] at hl
      · rw [m.key_ne hji, hj]
    · by_cases hji : j = i
      · subst hji
        rw [m.buf_self, m.lock, hl]
      · rw [m.buf_ne hji, hl]

end

omit [DecidableEq P] in
theorem Inv.find (h : Inv d s) (hf : s.mru.find? (fun i => s.key i = k) = some i) :
    s.key i = k ∧ (∀ {j}, j ≠ i → (s.buf j).Requested → s.key j ≠ k) ∧ s.mru.Pairwise fun j j' => j' = i →
    s.key j ≠ k := by
  obtain ⟨hk, l, l', hm, hfirst⟩ := List.find?_eq_some_iff_append.mp hf
  have hk : s.key i = k := by simpa using hk
  have hfirst : ∀ a ∈ l, s.key a ≠ k := fun a ha => by simpa using hfirst a ha
  have hnd := h.distinct
  rw [hm] at hnd
  refine ⟨hk, fun {j} hji hj hjk => ?_, ?_⟩
  · -- `j` comes after `i`, so that `i` is in use too.
    have hmem := h.mem j
    rw [hm] at hmem
    have hjl' : j ∈ l' := by
      rcases mem_append.mp hmem with hjl | hjl
      · exact absurd hjk (hfirst j hjl)
      · exact (mem_cons.mp hjl).resolve_left hji
    have horder := h.order
    rw [hm] at horder
    have hij := (pairwise_cons.mp (pairwise_append.mp horder).2.1).1 j hjl'
    by_cases hi : (s.buf i).Requested
    · exact hji (h.inj hj hi (hjk.trans hk.symm))
    · exact hij hi hj (hjk.trans (hk.symm.trans (h.fresh hi)))
  · rw [hm]
    obtain ⟨-, hnd', hdis⟩ := nodup_append.mp hnd
    rw [nodup_cons] at hnd'
    refine pairwise_append.mpr ⟨?_, pairwise_cons.mpr ⟨?_, ?_⟩, ?_⟩
    · exact List.Pairwise.imp_of_mem (fun ha _ _ _ => hfirst _ ha) (pairwise_of_forall fun _ _ => trivial)
    · rintro a ha rfl
      exact absurd ha hnd'.1
    · exact List.Pairwise.imp_of_mem (fun _ ha _ hai => absurd (hai ▸ ha) hnd'.1)
        (pairwise_of_forall fun _ _ => trivial)
    · exact fun a ha _ _ _ => hfirst a ha

theorem Inv.bget (h : Inv d s) (hst : (s.client p).stage = .idle) (ht : s.bget p k = some t) : Inv d t := by
  obtain ⟨i, b, g, rfl, ⟨hf, rfl, rfl⟩ | ⟨hnone, hfree, rfl, hg⟩⟩ := bget_inv ht
  · obtain ⟨hk, halone, hfirst⟩ := h.find hf
    refine h.handOut (i := i) (p := p) (k := k) (b := { s.buf i with refcnt := (s.buf i).refcnt + 1 }) {
      buf := rfl
      client := rfl
      rest := ⟨rfl, rfl, rfl, rfl, rfl⟩
      hist := .inl rfl
      idle := hst
      key := hk
      requested := .inl (Nat.succ_ne_zero _)
      lock := rfl
      data := fun _ => ⟨rfl, rfl⟩
      unused := .inl hk
      alone := halone
      first := hfirst } ?_ h.good
    rw [← hk]
    refine (h.ok i).take (role_idle hst i) fun hi => h.uncached fun j hj => ?_
    rw [hk]
    exact halone (fun hji => hi (hji ▸ hj)) hj
  · have hnone : ∀ j, s.key j ≠ k := fun j => hnone j (h.mem j)
    have hunc := h.uncached (k := k) fun j _ => hnone j
    have m : HandOut s { (s.setBuf i { s.buf i with
        dev := k.1, blockno := k.2, valid := false, dirty := false, refcnt := 1 }).goto p (.waits k i)
          with hist := g } i p k
        { s.buf i with dev := k.1, blockno := k.2, valid := false, dirty := false, refcnt := 1 } := {
      buf := rfl
      client := rfl
      rest := ⟨rfl, rfl, rfl, rfl, rfl⟩
      hist := by rw [hg]; split_ifs <;> simp
      idle := hst
      key := rfl
      requested := .inl Nat.one_ne_zero
      lock := rfl
      data := fun hq => absurd hq ((h.ok i).idle hfree.1).2.2.1
      unused := .inr hfree
      alone := fun _ _ => hnone _
      first := pairwise_of_forall fun j _ _ => hnone j }
    refine h.handOut m ((h.ok i).recycle hfree.1 hunc.1 hunc.2) ?_
    rw [hg]
    split_ifs with hv
    · exact ⟨(m.synced h (.inr hv) (hnone i)).2, h.good⟩
    · exact h.good

theorem Inv.frame (h : Inv d s) {l : Log} (hc : c.stage = (s.client p).stage) :
    Inv d { s.setClient p c with log := l } := by
  have hstage : ∀ q, (update s.client p c q).stage = (s.client q).stage := by
    intro q
    by_cases hq : q = p
    · subst hq
      rw [update_self, hc]
    · rw [update_of_ne hq]
  exact {
    ok := fun i => (h.ok i).congr Iff.rfl (fun q => congrArg (·.on i) (hstage q)) fun _ => ⟨rfl, rfl, id⟩
    fresh := h.fresh
    inj := h.inj
    uncached := h.uncached
    mem := h.mem
    distinct := h.distinct
    order := h.order
    asks := fun {q k j} ha => h.asks (p := q) (hstage q ▸ ha)
    nodup := h.nodup
    sent := h.sent
    good := h.good
    holder := h.holder }

theorem Inv.exec (h : Inv d s) (hst : (s.client p).stage = .idle) {x : Stmt} {rest : List Stmt}
    (ht : s.exec p x rest = some t) : Inv d t := by
  have hframe : ∀ {c : Client}, c.stage = .idle → Inv d (s.setClient p c) ∧
    ((s.setClient p c).client p).stage = .idle :=
    fun {c} hc => ⟨h.frame (l := s.log) (hc.trans hst.symm), by simpa [setClient] using hc⟩
  unfold Bcache.exec at ht
  cases x with
  | bread x b => exact h.bget hst ht
  | memmove x y =>
    simp only [bind_eq_bind, bind_eq_some_iff] at ht
    obtain ⟨i, -, j, -, ht⟩ := ht
    obtain ⟨hi, hidle⟩ := hframe (c := { s.client p with todo := rest }) hst
    exact hi.modify hidle ht
  | setHead x =>
    obtain ⟨i, -, ht⟩ := bind_eq_some_iff.mp ht
    obtain ⟨hi, hidle⟩ := hframe (c := { s.client p with todo := rest }) hst
    exact hi.modify hidle ht
  | bwrite x w =>
    obtain ⟨i, -, ht⟩ := bind_eq_some_iff.mp ht
    obtain ⟨hi, hidle⟩ := hframe (c := { s.client p with todo := rest }) hst
    exact hi.bwrite hidle ht
  | brelse x =>
    obtain ⟨i, -, ht⟩ := bind_eq_some_iff.mp ht
    obtain ⟨hi, hidle⟩ := hframe (c := { s.client p with
      todo := rest, var := update (s.client p).var x none }) hst
    exact hi.brelse hidle ht
  | clear | endOp =>
    cases ht
    exact h.frame rfl

theorem Inv.step (h : Inv d s) (ht : s.turn p = some t) : Inv d t := by
  unfold Bcache.turn at ht
  cases hst : (s.client p).stage with
  | idle =>
    simp only [hst] at ht
    split at ht
    · cases ht
    · exact h.exec hst ht
  | waits k i =>
    simp only [hst] at ht
    split_ifs at ht with hl
    exact some.inj ht ▸ h.lock hst hl
  | got k i =>
    simp only [hst] at ht
    split at ht
    · rename_i hv
      exact some.inj ht ▸ h.breadReturns (.inl hst) hv
    · rename_i hv
      exact h.startRead hst (by simpa using hv) ht
  | reads k i =>
    simp only [hst] at ht
    split_ifs at ht with hv
    exact some.inj ht ▸ h.breadReturns (.inr ⟨hst, by simpa using hv.2⟩) hv.1
  | writes i w =>
    simp only [hst] at ht
    split_ifs at ht with hv
    exact some.inj ht ▸ h.wrote hst (by simpa using hv.2)
  | drops i =>
    simp only [hst] at ht
    exact some.inj ht ▸ h.drop hst

theorem Inv.call (h : Inv d s) (hst : (s.client p).stage = .idle) {x : Call} (ht : s.call p x = some t) : Inv d t := by
  unfold Bcache.call at ht
  cases x with
  | beginOp | endOp =>
    dsimp only at ht
    split at ht
    · exact some.inj ht ▸ h.frame rfl
    · cases ht
  | bread k => exact h.bget hst ht
  | modify i f => exact h.modify hst ht
  | logWrite i => exact h.logWrite hst ht
  | bwrite i => exact h.bwrite hst ht
  | brelse i => exact h.brelse hst ht

omit [DecidableEq P] in
theorem inv_init {havedisk1 : Bool} {l : Log} : Inv d ({ disk := d, havedisk1 := havedisk1, log := l } : Bcache P) := by
  have hnone : ¬({} : Buf P).Requested := by simp [Buf.Requested]
  exact {
    ok := fun i => by
      constructor
      case refs => simp [role, Stage.on, Role.refs]
      all_goals simp [role, Stage.on, hnone]
    fresh := fun _ => rfl
    inj := fun h => absurd h hnone
    uncached := fun _ => ⟨rfl, id⟩
    mem := fun i => by simp
    distinct := by simpa using nodup_finRange NBUF
    order := pairwise_of_forall fun _ _ _ h => absurd h hnone
    asks := fun h => by simp [Stage.Asks] at h
    nodup := nodup_nil
    sent := fun h => by simp at h
    good := trivial
    holder := fun h => h.elim }

end Bcache
end Xv6
