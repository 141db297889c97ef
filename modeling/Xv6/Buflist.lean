import Mathlib.Data.List.FinRange
import Xv6.Lib.LinkRing
import Xv6.Lib.Machine
import Xv6.Param

/-! The list of buffers of bio.c by its pointers. An operation is what `bget` and `brelse` do under `bcache.lock`. A
    caller of `brelse` that does not hold the buffer gets no further than the panic before it. -/

namespace Xv6

/-- The fields of `struct buf` besides its links, its lock and its data. -/
structure BufHdr where
  dev : UInt32 := 0
  blockno : UInt32 := 0
  valid : Bool := false
  dirty : Bool := false
  refcnt : UInt32 := 0

structure Buflist where
  /-- The `prev` and `next` of `bcache.head` and of the buffers. -/
  links : LinkRing (Fin NBUF)
  buf : Fin NBUF → BufHdr := fun _ => {}
  /-- How often a buffer has been released to `refcnt` 0, and which of these releases was the last of each buffer (0 for
      none). Read by nothing. -/
  releases : Nat := 0
  released : Fin NBUF → Nat := fun _ => 0

/-- The links as `binit` leaves them. -/
def binit (r : LinkRing (Fin NBUF)) : LinkRing (Fin NBUF) := (List.finRange NBUF).foldl LinkRing.pushFront r.clear

namespace Buflist

def setBuf (s : Buflist) (b : Fin NBUF) (h : BufHdr) : Buflist := { s with buf := Function.update s.buf b h }

def Cached (s : Buflist) (dev blockno : UInt32) (b : Fin NBUF) : Prop :=
  (s.buf b).dev = dev ∧ (s.buf b).blockno = blockno

def Unused (s : Buflist) (b : Fin NBUF) : Prop := (s.buf b).refcnt = 0 ∧ (s.buf b).dirty = false

instance (s : Buflist) (dev blockno : UInt32) (b : Fin NBUF) : Decidable (s.Cached dev blockno b) :=
  inferInstanceAs (Decidable (_ ∧ _))

instance (s : Buflist) (b : Fin NBUF) : Decidable (s.Unused b) := inferInstanceAs (Decidable (_ ∧ _))

/-- `bget`: `none` if a loop takes more than so many turns. -/
def bget (s : Buflist) (turns : Nat) (dev blockno : UInt32) : Option (Except Stop (Fin NBUF × Buflist)) := do
  match ← LinkRing.search s.links.next (fun b => s.Cached dev blockno b) turns (s.links.next none) with
  | some b => some (.ok (b, s.setBuf b { s.buf b with refcnt := (s.buf b).refcnt + 1 }))
  | none =>
    -- Not cached; recycle an unused buffer.
    match ← LinkRing.search s.links.prev (fun b => s.Unused b) turns (s.links.prev none) with
    | some b => some (.ok (b, s.setBuf b ⟨dev, blockno, false, false, 1⟩))
    | none => some (.error (.panic "bget: no buffers"))

def brelse (s : Buflist) (b : Fin NBUF) : Buflist :=
  let s := s.setBuf b { s.buf b with refcnt := (s.buf b).refcnt - 1 }
  if (s.buf b).refcnt = 0 then
    { s with
      links := (s.links.unlink b).pushFront b
      releases := s.releases + 1
      released := Function.update s.released b (s.releases + 1) }
  else s

inductive Op where
  | bget (dev blockno : UInt32)
  | brelse (b : Fin NBUF)
  /-- The flags are changed by others: log.c and ide.c. -/
  | flags (b : Fin NBUF) (valid dirty : Bool)

inductive Step : Buflist → Op → Buflist → Prop
  | bget {s t : Buflist} {turns : Nat} {dev blockno : UInt32} {b : Fin NBUF}
      (h : s.bget turns dev blockno = some (.ok (b, t))) :
    Step s (.bget dev blockno) t
  | brelse {s : Buflist} {b : Fin NBUF} : Step s (.brelse b) (s.brelse b)
  | flags {s : Buflist} {b : Fin NBUF} {valid dirty : Bool} :
    Step s (.flags b valid dirty) (s.setBuf b { s.buf b with valid := valid, dirty := dirty })

/-- Any operations after `binit`, whatever the links were before it. -/
def machine : Machine Buflist Op where
  init s := ∃ r, s = { links := binit r }
  step := Step

end Buflist
end Xv6
