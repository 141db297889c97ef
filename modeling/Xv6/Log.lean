import Mathlib.Data.Fintype.Basic
import Xv6.Lib.Machine
import Xv6.Param

/-! The in-memory log of log.c: the admission of operations by `begin_op`, the block numbers that
    `log_write` collects, and the decision of `end_op` to commit. -/

namespace Xv6

/-- `struct log` without its lock and device; `lh` lists `lh.block[0]` to `lh.block[lh.n - 1]`. -/
structure Log where
  start : Nat
  size : Nat
  outstanding : Nat := 0
  committing : Bool := false
  lh : List Nat := []
  deriving DecidableEq

/-- The log area as mkfs lays it out: `nlog = LOGSIZE` blocks from block 2 on. -/
def mkfsLog : Log := { start := 2, size := LOGSIZE }

namespace Log

def beginOp (l : Log) : Except Stop Log :=
  if l.committing then .error .blocked
  else if l.lh.length + (l.outstanding + 1) * MAXOPBLOCKS > LOGSIZE then .error .blocked
  else .ok { l with outstanding := l.outstanding + 1 }

/-- `end_op` up to its first release of the lock, with `do_commit`. -/
def endOp (l : Log) : Except Stop (Log × Bool) :=
  let l := { l with outstanding := l.outstanding - 1 }
  if l.committing then .error (.panic "log.committing")
  else if l.outstanding = 0 then .ok ({ l with committing := true }, true)
  else .ok (l, false)

/-- `log_write` as one locked section. The source makes its two checks before it acquires `log.lock`, so that two CPUs
    can both pass them when one place is left. -/
def logWrite (l : Log) (b : Nat) : Except Stop Log :=
  if l.lh.length ≥ LOGSIZE ∨ l.lh.length ≥ l.size - 1 then .error (.panic "too big a transaction")
  else if l.outstanding < 1 then .error (.panic "log_write outside of trans")
  -- A block number that is there already is absorbed.
  else if b ∈ l.lh then .ok l
  else .ok { l with lh := l.lh ++ [b] }

/-- The locked section that ends `end_op`, after `commit` has emptied the header. -/
def endCommit (l : Log) : Log := { l with committing := false, lh := [] }

end Log

/-- The log with the operations under way, each by one of the processes `P`. -/
structure Ops (P : Type) where
  log : Log
  /-- The distinct block numbers that the process's operation has passed to `log_write`. -/
  passed : P → Option (List Nat) := fun _ => none
  /-- The block numbers passed to `log_write` since the last commit. -/
  logged : List Nat := []

namespace Ops

variable {P : Type} [DecidableEq P]

inductive Act (P : Type)
  | beginOp (p : P)
  | logWrite (p : P) (b : Nat)
  | endOp (p : P)
  | endCommit

def step (s : Ops P) : Act P → Except Stop (Ops P)
  | .beginOp p =>
    match s.passed p with
    | some _ => .error .blocked
    | none => do
      let l ← s.log.beginOp
      .ok { s with log := l, passed := Function.update s.passed p (some []) }
  | .logWrite p b =>
    match s.passed p with
    | none => .error .blocked
    | some bs => do
      let l ← s.log.logWrite b
      .ok { log := l, passed := Function.update s.passed p (some (bs.insert b)), logged := b :: s.logged }
  | .endOp p =>
    match s.passed p with
    | none => .error .blocked
    | some _ => do
      let (l, _) ← s.log.endOp
      .ok { s with log := l, passed := Function.update s.passed p none }
  | .endCommit =>
    if s.log.committing then .ok { s with log := s.log.endCommit, logged := [] } else .error .blocked

def machine (P : Type) [DecidableEq P] (l : Log) : Machine (Ops P) (Act P) where
  init s := s = { log := { start := l.start, size := l.size } }
  step s a t := s.step a = .ok t

end Ops

inductive OpState
  | idle
  /-- SLEEPING on `&log` in `begin_op`. -/
  | asleep
  /-- In `begin_op`, woken, before it has the lock again. -/
  | woken
  /-- Between `begin_op` and `end_op`: the number of commits before it, and the blocks passed to `log_write`. -/
  | active (group : Nat) (blocks : List Nat)
  /-- In `commit`, before the header is on disk. -/
  | commit
  /-- In `commit`, before `log.lh.n = 0`. -/
  | clear
  /-- In `end_op`, after `commit`. -/
  | finish
  deriving DecidableEq

/-- The log, the processes that use it, the headers committed so far, and the operations that have ended, each
    with the number of commits before it and the blocks it passed to `log_write`. -/
structure GroupCommit (P : Type) where
  log : Log
  op : P → OpState := fun _ => .idle
  committed : List (List Nat) := []
  ended : List (Nat × List Nat) := []

namespace GroupCommit

inductive Act (P : Type)
  /-- `begin_op` takes the lock, or takes it again after `sleep`. -/
  | beginOp (p : P)
  | logWrite (p : P) (b : Nat)
  /-- `end_op` up to its first release of the lock. -/
  | endOp (p : P)
  /-- The next part of the commit that `p` does in `end_op`. -/
  | commit (p : P)

variable {P : Type} [DecidableEq P]

def setOp (s : GroupCommit P) (p : P) (x : OpState) : GroupCommit P := { s with op := Function.update s.op p x }

def wakeup (s : GroupCommit P) : GroupCommit P :=
  { s with op := fun q => if s.op q = .asleep then .woken else s.op q }

def beginTurn (s : GroupCommit P) (p : P) : GroupCommit P :=
  match s.log.beginOp with
  | .ok l => { s.setOp p (.active s.committed.length []) with log := l }
  | .error _ => s.setOp p .asleep

def step (s : GroupCommit P) : Act P → Except Stop (GroupCommit P)
  | .beginOp p =>
    match s.op p with
    | .idle | .woken => .ok (s.beginTurn p)
    | _ => .error .blocked
  | .logWrite p b =>
    match s.op p with
    | .active g bs => do
      let l ← s.log.logWrite b
      .ok { s.setOp p (.active g (b :: bs)) with log := l }
    | _ => .error .blocked
  | .endOp p =>
    match s.op p with
    | .active g bs => do
      let (l, doCommit) ← s.log.endOp
      let s := { s with log := l, ended := (g, bs) :: s.ended }
      .ok (if doCommit then s.setOp p .commit else s.wakeup.setOp p .idle)
    | _ => .error .blocked
  | .commit p =>
    match s.op p with
    | .commit => .ok { s.setOp p .clear with committed := s.committed ++ [s.log.lh] }
    | .clear => .ok { s.setOp p .finish with log := { s.log with lh := [] } }
    | .finish => .ok { s.wakeup.setOp p .idle with log := { s.log with committing := false } }
    | _ => .error .blocked

def machine (P : Type) [DecidableEq P] (l : Log) : Machine (GroupCommit P) (Act P) where
  init s := s = { log := { start := l.start, size := l.size } }
  step s a t := s.step a = .ok t

end GroupCommit
end Xv6
