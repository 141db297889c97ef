import Mathlib.Data.Fintype.Basic
import Xv6.Lib.Machine
import Xv6.Lib.RingBuf
import Xv6.Param

/-! Pipes (pipe.c) and the processes that share one. The pipe's lock is part of the state: a process that
    holds it does one turn of a loop, one `wakeup` or one `sleep` a step, so that a `kill`, which takes only
    `ptable.lock`, can come in between. -/

namespace Xv6

def PIPESIZE : Nat := 512

instance : NeZero PIPESIZE := ⟨by decide⟩

/-- `struct pipe` without its lock. -/
structure Pipe extends RingBuf UInt8 32 PIPESIZE where
  readopen : Bool := true
  writeopen : Bool := true

def Pipe.shut (p : Pipe) (writable : Bool) : Pipe :=
  if writable then { p with writeopen := false } else { p with readopen := false }

/-- The channels of a pipe's sleepers, `&p->nread` and `&p->nwrite`. -/
inductive PipeChan
  | nread
  | nwrite
  deriving DecidableEq

inductive PipeThread
  | idle
  /-- In `pipewrite` with the lock, at the head of the loop; the bytes not yet stored. -/
  | write (left : List UInt8)
  /-- In `pipewrite` with the lock, before `sleep(&p->nwrite, &p->lock)`. -/
  | writeFull (left : List UInt8)
  /-- In the `sleep` of `pipewrite`. -/
  | writeSleep (left : List UInt8)
  /-- In `piperead` with the lock, at the head of its first loop; the number of bytes to read. -/
  | read (n : Nat)
  /-- In `piperead` with the lock, before `sleep(&p->nread, &p->lock)`. -/
  | readEmpty (n : Nat)
  /-- In the `sleep` of `piperead`. -/
  | readSleep (n : Nat)
  /-- In the second loop of `piperead`. -/
  | copy (n : Nat)
  /-- In `pipeclose`, before it has the lock. -/
  | close (writable : Bool)
  /-- In `pipeclose` with the lock, before its `wakeup`. -/
  | closing (writable : Bool)
  /-- With the lock, before its release. -/
  | leave
  deriving DecidableEq

structure PipeProc where
  thread : PipeThread := .idle
  chan : Option PipeChan := none
  killed : Bool := false
  /-- The process has a descriptor for the read end. -/
  reader : Bool := false
  /-- The process has a descriptor for the write end. -/
  writer : Bool := false

def PipeProc.hasEnd (x : PipeProc) (writable : Bool) : Bool := if writable then x.writer else x.reader

def PipeProc.dropEnd (x : PipeProc) (writable : Bool) : PipeProc :=
  if writable then { x with writer := false } else { x with reader := false }

/-- A pipe, the processes that share it, and the bytes stored and taken so far. -/
structure PipeUse (P : Type) where
  pipe : Pipe
  lock : Option P
  proc : P → PipeProc
  stored : List UInt8
  taken : List UInt8

namespace PipeUse

inductive Label (P : Type)
  | write (p : P) (addr : List UInt8)
  | read (p : P) (n : Int)
  /-- Process `p` closes its descriptor for an end of the pipe. -/
  | close (p : P) (writable : Bool)
  /-- Process `p` forks `q`, which had no descriptor and inherits those of `p`. -/
  | fork (p q : P)
  | kill (p : P)
  | step (p : P)

variable {P : Type} [DecidableEq P]

def modify (s : PipeUse P) (p : P) (f : PipeProc → PipeProc) : PipeUse P :=
  { s with proc := Function.update s.proc p (f (s.proc p)) }

def goto (s : PipeUse P) (p : P) (t : PipeThread) : PipeUse P := s.modify p fun x => { x with thread := t }

def wakeup (s : PipeUse P) (ch : PipeChan) : PipeUse P :=
  { s with proc := fun p => if (s.proc p).chan = some ch then { s.proc p with chan := none } else s.proc p }

/-- `sleep` up to `sched`: the process gives up the lock and sleeps in one step. -/
def sleep (s : PipeUse P) (p : P) (ch : PipeChan) (t : PipeThread) : PipeUse P :=
  { s.modify p fun x => { x with thread := t, chan := some ch } with lock := none }

def acquire (s : PipeUse P) (p : P) (t : PipeThread) : Option (PipeUse P) :=
  if s.lock = none then some { s.goto p t with lock := some p } else none

def leave (s : PipeUse P) (p : P) : PipeUse P := { s.goto p .idle with lock := none }

def turn (s : PipeUse P) (p : P) : Option (PipeUse P) :=
  match (s.proc p).thread with
  | .idle => none
  | .write [] => some ((s.wakeup .nread).goto p .leave)
  | .write (b :: bs) =>
    if s.pipe.Full then
      if s.pipe.readopen = false ∨ (s.proc p).killed then some (s.leave p)
      else some ((s.wakeup .nread).goto p (.writeFull (b :: bs)))
    else some { s.goto p (.write bs) with
      pipe := { s.pipe with toRingBuf := s.pipe.push b }, stored := s.stored ++ [b] }
  | .writeFull bs => some (s.sleep p .nwrite (.writeSleep bs))
  | .writeSleep bs => if (s.proc p).chan = none then s.acquire p (.write bs) else none
  | .read n =>
    if s.pipe.Empty ∧ s.pipe.writeopen then
      if (s.proc p).killed then some (s.leave p) else some (s.goto p (.readEmpty n))
    else some (s.goto p (.copy n))
  | .readEmpty n => some (s.sleep p .nread (.readSleep n))
  | .readSleep n => if (s.proc p).chan = none then s.acquire p (.read n) else none
  | .copy 0 => some ((s.wakeup .nwrite).goto p .leave)
  | .copy (n + 1) =>
    if s.pipe.Empty then some ((s.wakeup .nwrite).goto p .leave)
    else some { s.goto p (.copy n) with
      pipe := { s.pipe with toRingBuf := s.pipe.pop }, taken := s.taken ++ [s.pipe.front] }
  | .close writable => (s.acquire p (.closing writable)).map fun s => { s with pipe := s.pipe.shut writable }
  | .closing writable => some ((s.wakeup (if writable then .nread else .nwrite)).goto p .leave)
  | .leave => some (s.leave p)

variable [Fintype P]

def next (s : PipeUse P) : Label P → Option (PipeUse P)
  | .write p addr => if (s.proc p).thread = .idle ∧ (s.proc p).writer then s.acquire p (.write addr) else none
  | .read p n => if (s.proc p).thread = .idle ∧ (s.proc p).reader then s.acquire p (.read n.toNat) else none
  | .close p writable =>
    if (s.proc p).thread = .idle ∧ (s.proc p).hasEnd writable then
      let s := s.modify p (·.dropEnd writable)
      -- `fileclose` calls `pipeclose` when the last descriptor is gone.
      if ∃ q, (s.proc q).hasEnd writable then some s else some (s.goto p (.close writable))
    else none
  | .fork p q =>
    if (s.proc p).thread = .idle ∧ (s.proc q).thread = .idle ∧ ¬(s.proc q).reader ∧ ¬(s.proc q).writer then
      some (s.modify q fun x => { x with reader := (s.proc p).reader, writer := (s.proc p).writer })
    else none
  | .kill p => some (s.modify p fun x => { x with killed := true, chan := none })
  | .step p => s.turn p

/-- A pipe as `pipealloc` leaves it, in any page, with any processes that have descriptors for it. -/
structure Fresh (s : PipeUse P) : Prop where
  nread : s.pipe.nread = 0
  nwrite : s.pipe.nwrite = 0
  readopen : s.pipe.readopen = true
  writeopen : s.pipe.writeopen = true
  lock : s.lock = none
  idle : ∀ p, (s.proc p).thread = .idle
  awake : ∀ p, (s.proc p).chan = none
  stored : s.stored = []
  taken : s.taken = []

def machine (P : Type) [DecidableEq P] [Fintype P] : Machine (PipeUse P) (Label P) where
  init := Fresh
  step s l t := s.next l = some t

end PipeUse
end Xv6
