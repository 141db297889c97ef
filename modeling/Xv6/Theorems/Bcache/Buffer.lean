import Mathlib.Algebra.Order.BigOperators.Group.Finset
import Xv6.Bcache
import Xv6.Lib.Count

/-! What the history of the calls says about the blocks, and one buffer of the cache: who refers to it and holds its
    lock, and how its data stand to the disk. -/

namespace Xv6
open Function Option

variable {P : Type}

/-- `bget` has handed out the buffer for the block it is for now: it is referenced, or its data has been read. -/
def Buf.Requested (b : Buf P) : Prop := b.refcnt ≠ 0 ∨ b.valid = true

namespace Bcache

/-- What the last call of `log_write` or `bwrite` left in block `k`, over the contents of the disk at the start. -/
def lastLeft (d : Nat × Nat → Block) : List (Event P) → Nat × Nat → Block
  | [], k => d k
  | .logWrite _ k' c :: h, k => if k' = k then c else lastLeft d h k
  | .bwrite _ k' c :: h, k => if k' = k then c else lastLeft d h k
  | .bread .. :: h, k | .wrote .. :: h, k | .brelse .. :: h, k | .recycle _ :: h, k => lastLeft d h k

/-- The last `log_write` of block `k` has not been followed by a `bwrite`. -/
def Logged : List (Event P) → Nat × Nat → Prop
  | [], _ => False
  | .logWrite _ k' _ :: h, k => k' = k ∨ Logged h k
  | .wrote _ k' _ :: h, k => k' ≠ k ∧ Logged h k
  | .bread .. :: h, k | .bwrite .. :: h, k | .brelse .. :: h, k | .recycle _ :: h, k => Logged h k

/-- `bread` has returned the buffer of block `k` to `p`, which has not released it since. -/
def Holds : List (Event P) → P → Nat × Nat → Prop
  | [], _, _ => False
  | .bread q k' _ :: h, p, k => (q = p ∧ k' = k) ∨ Holds h p k
  | .brelse q k' :: h, p, k => ¬(q = p ∧ k' = k) ∧ Holds h p k
  | .logWrite .. :: h, p, k | .bwrite .. :: h, p, k | .wrote .. :: h, p, k | .recycle _ :: h, p, k => Holds h p k

inductive Role
  | none
  | waits
  | got
  | reads
  | writes
  | drops
  deriving DecidableEq

def Role.refs : Role → Nat
  | .waits | .drops => 1
  | .none | .got | .reads | .writes => 0

def Stage.on : Stage → Fin NBUF → Role
  | .idle, _ => .none
  | .waits _ j, i => if j = i then .waits else .none
  | .got _ j, i => if j = i then .got else .none
  | .reads _ j, i => if j = i then .reads else .none
  | .writes j _, i => if j = i then .writes else .none
  | .drops j, i => if j = i then .drops else .none

variable [Fintype P]

/-- A buffer in use by processes with these roles. `changed` says that its holder has changed it, `queued` that it is
    in the disk queue; `left` and `disk` are what was left in its block and what the disk has there, and `logged` says
    that the block is still to be installed. -/
structure BufOk (b : Buf P) (changed : Bool) (queued : Prop) (role : P → Role) (left disk : Block) (logged : Prop) :
    Prop where
  refs : b.refcnt = (if b.lock.isSome then 1 else 0) + ∑ p, (role p).refs
  owner : ∀ {p}, role p = .got ∨ role p = .reads ∨ role p = .writes → b.lock = some p
  held : ∀ {p}, b.lock = some p → b.valid = true ∨ role p = .got ∨ role p = .reads
  got : ∀ {p}, role p = .got → changed = false
  reads : ∀ {p}, role p = .reads → changed = false ∧ b.dirty = false ∧ (queued ↔ b.valid = false)
  writes : ∀ {p}, role p = .writes → b.valid = true ∧ changed = false ∧ (queued ↔ b.dirty = true)
  drops : ∀ {p}, role p = .drops → b.valid = true
  active : queued → ∃ p, role p = .reads ∨ role p = .writes
  dirty : b.dirty = true → b.valid = true
  unsaved : changed = true → b.lock.isSome = true ∧ b.valid = true
  data : b.valid = true → changed = false → b.data = left
  synced : b.Requested → disk = left ∨ b.dirty = true
  pinned : b.Requested → logged → b.dirty = true ∨ ∃ p, role p = .writes

namespace BufOk

variable {b : Buf P} {changed : Bool} {queued : Prop} {role : P → Role} {left disk : Block} {logged : Prop} {p : P}

section

variable (h : BufOk b changed queued role left disk logged)
include h

theorem requested_of_lock (hl : b.lock = some p) : b.Requested := by
  have := h.refs
  simp only [hl, isSome_some, if_true] at this
  exact .inl (by omega)

theorem requested_of_refs (hp : (role p).refs = 1) : b.Requested := by
  have := h.refs
  have := Finset.single_le_sum (fun q _ => Nat.zero_le (role q).refs) (Finset.mem_univ p)
  exact .inl (by omega)

theorem idle (h0 : b.refcnt = 0) : b.lock = none ∧ (∀ q, role q = .none) ∧ ¬queued ∧ changed = false := by
  have hrefs := h.refs
  have hlock : b.lock = none := by
    cases hl : b.lock with
    | none => rfl
    | some q =>
      simp only [hl, h0, isSome_some, if_true] at hrefs
      omega
  have hrole : ∀ q, role q = .none := by
    intro q
    have hq := Finset.single_le_sum (fun q _ => Nat.zero_le (role q).refs) (Finset.mem_univ q)
    have hown := h.owner (p := q)
    rw [hlock] at hown
    cases hr : role q with
    | none => rfl
    | waits | drops =>
      rw [hr] at hq
      change 1 ≤ _ at hq
      omega
    | got | reads | writes => simp [hr] at hown
  refine ⟨hlock, hrole, fun hq => ?_, ?_⟩
  · obtain ⟨q, hq⟩ := h.active hq
    simp [hrole q] at hq
  · cases hc : changed with
    | false => rfl
    | true => simpa [hlock] using (h.unsaved hc).1

theorem congr {left' disk' : Block} {logged' queued' : Prop} {role' : P → Role} (hq : queued' ↔ queued)
    (hrole : ∀ q, role' q = role q) (hsame : b.Requested → left' = left ∧ disk' = disk ∧ (logged' → logged)) :
    BufOk b changed queued' role' left' disk' logged' := by
  obtain rfl : role' = role := funext hrole
  obtain rfl : queued' = queued := propext hq
  exact { h with
    data := fun hv hc => (h.data hv hc).trans (hsame (.inr hv)).1.symm
    synced := fun hr => by
      rw [(hsame hr).1, (hsame hr).2.1]
      exact h.synced hr
    pinned := fun hr hl => h.pinned hr ((hsame hr).2.2 hl) }

theorem modify (hp : role p = .none) (hl : b.lock = some p)
    (c : Block) : BufOk { b with data := c } true queued role left disk logged := by
  constructor
  case refs => exact h.refs
  all_goals grind [BufOk, Buf.Requested]

theorem logWrite (hp : role p = .none) (hl : b.lock = some p) :
    BufOk { b with dirty := true } false queued role b.data disk True := by
  constructor
  case refs => exact h.refs
  all_goals grind [BufOk, Buf.Requested]

theorem intr (hq : queued) :
    BufOk { b with data := if b.dirty then b.data else disk, valid := true, dirty := false } changed False role left
      (if b.dirty then b.data else disk) logged := by
  constructor
  case refs => exact h.refs
  all_goals grind [BufOk, Buf.Requested]

end

variable [DecidableEq P]

section

variable (h : BufOk b changed queued role left disk logged)
include h

theorem refs_update {r : Role} {n : Nat} {l : Option P} (hn : (role p).refs ≤ b.refcnt →
    n + (role p).refs + (if b.lock.isSome then 1 else 0) = b.refcnt + r.refs + if l.isSome then 1 else 0) :
    n = (if l.isSome then 1 else 0) + ∑ q, (update role p r q).refs := by
  have hsum := sum_update_add Role.refs role p r
  have hle := Finset.single_le_sum (fun q _ => Nat.zero_le (role q).refs) (Finset.mem_univ p)
  have := h.refs
  have := hn (by omega)
  omega

theorem take (hp : role p = .none) (hnew : ¬b.Requested → disk = left ∧ ¬logged) :
    BufOk { b with refcnt := b.refcnt + 1 } changed queued (update role p .waits) left disk logged := by
  constructor
  case refs => exact h.refs_update fun _ => by simp [hp, Role.refs]
  all_goals try simp only [update_apply]
  all_goals grind [BufOk, Buf.Requested]

theorem recycle (h0 : b.refcnt = 0) {k : Nat × Nat}
    {left' disk' : Block} {logged' : Prop} (hsync : disk' = left') (hlog : ¬logged') :
    BufOk { b with dev := k.1, blockno := k.2, valid := false, dirty := false, refcnt := 1 } changed queued
      (update role p .waits) left' disk' logged' := by
  obtain ⟨hlock, hrole, hq, hc⟩ := h.idle h0
  constructor
  case refs => exact h.refs_update fun _ => by simp [hrole p, h0, Role.refs]
  all_goals try simp only [update_apply]
  all_goals grind [BufOk, Buf.Requested]

theorem lock (hp : role p = .waits) (hl : b.lock = none) :
    BufOk { b with lock := some p } changed queued (update role p .got) left disk logged := by
  constructor
  case refs => exact h.refs_update fun _ => by simp [hp, hl, Role.refs]
  all_goals try simp only [update_apply]
  all_goals grind [BufOk, Buf.Requested]

theorem ret (hp : role p = .got ∨ role p = .reads ∧ b.dirty = false) (hv : b.valid = true) :
    BufOk b changed queued (update role p .none) left disk logged := by
  constructor
  case refs => exact h.refs_update fun _ => by rcases hp with hp | hp <;> simp [hp, Role.refs]
  all_goals try simp only [update_apply]
  all_goals grind [BufOk, Buf.Requested]

theorem startRead (hp : role p = .got) (hv : b.valid = false) :
    BufOk b changed True (update role p .reads) left disk logged := by
  constructor
  case refs => exact h.refs_update fun _ => by simp [hp, Role.refs]
  all_goals try simp only [update_apply]
  all_goals grind [BufOk, Buf.Requested]

theorem bwrite (hp : role p = .none) (hl : b.lock = some p) :
    BufOk { b with dirty := true } false True (update role p .writes) b.data disk logged := by
  constructor
  case refs => exact h.refs_update fun _ => by simp [hp, Role.refs]
  all_goals try simp only [update_apply]
  all_goals grind [BufOk, Buf.Requested]

theorem wrote (hp : role p = .writes) (hd : b.dirty = false) :
    BufOk b changed queued (update role p .none) left disk False := by
  constructor
  case refs => exact h.refs_update fun _ => by simp [hp, Role.refs]
  all_goals try simp only [update_apply]
  all_goals grind [BufOk, Buf.Requested]

theorem unlock (hp : role p = .none) (hl : b.lock = some p) (hc : changed = false) :
    BufOk { b with lock := none } changed queued (update role p .drops) left disk logged := by
  constructor
  case refs => exact h.refs_update fun _ => by simp [hp, hl, Role.refs]
  all_goals try simp only [update_apply]
  all_goals grind [BufOk, Buf.Requested]

theorem drop (hp : role p = .drops) :
    BufOk { b with refcnt := b.refcnt - 1 } changed queued (update role p .none) left disk logged := by
  constructor
  case refs =>
    refine h.refs_update fun hle => ?_
    simp only [hp, Role.refs] at hle ⊢
    omega
  all_goals try simp only [update_apply]
  all_goals grind [BufOk, Buf.Requested]

end

end BufOk

end Bcache
end Xv6
