import Mathlib.Logic.Function.Basic
import Xv6.Lib.Machine

/-! A sleep-lock (sleeplock.c) and the processes that contend for it, with its spinlock `lk->lk` and `ptable.lock`
    as parts of the state. `sleep` takes `ptable.lock` before it releases `lk->lk`, and the process is SLEEPING
    only a step later; `wakeup` and `kill` are single sections under `ptable.lock`. -/

namespace Xv6

inductive LockThread
  | idle
  /-- In `acquiresleep` with `lk->lk`, at the head of the loop. -/
  | test
  /-- In `sleep`, before it takes `ptable.lock`. -/
  | sleep
  /-- In `sleep` with both locks, before `release(lk)`. -/
  | handing
  /-- In `sleep` with `ptable.lock`, before `p->state = SLEEPING`. -/
  | falling
  /-- In `sched`, and SLEEPING or woken. -/
  | asleep
  /-- In `sleep`, before it takes `lk->lk` again. -/
  | woken
  /-- In `acquiresleep` with `lk->lk`, before `lk->locked = 1`. -/
  | take
  /-- In `acquiresleep`, before `release(&lk->lk)`. -/
  | taken
  /-- `acquiresleep` has returned. -/
  | hold
  /-- In `releasesleep` with `lk->lk`, before `lk->locked = 0`. -/
  | give
  /-- In `releasesleep`, before `wakeup(lk)`. -/
  | wake
  /-- In `releasesleep`, before `release(&lk->lk)`. -/
  | leave
  deriving DecidableEq

structure LockProc where
  thread : LockThread := .idle
  /-- The process is SLEEPING with `p->chan = lk`. -/
  sleeping : Bool := false
  killed : Bool := false

structure Sleeplock (P : Type) where
  locked : Bool := false
  /-- The process whose pid is in `lk->pid`. -/
  pid : Option P := none
  /-- The holder of `lk->lk`. -/
  lk : Option P := none
  /-- The holder of `ptable.lock`. -/
  ptable : Option P := none
  proc : P → LockProc := fun _ => {}

namespace Sleeplock

inductive Label (P : Type)
  /-- Process `p` calls `acquiresleep`. -/
  | acquiresleep (p : P)
  /-- Process `p`, which holds the lock, calls `releasesleep`. -/
  | releasesleep (p : P)
  /-- `kill`, by whomever, of process `p`. -/
  | kill (p : P)
  | step (p : P)

variable {P : Type} [DecidableEq P]

def modify (s : Sleeplock P) (p : P) (f : LockProc → LockProc) : Sleeplock P :=
  { s with proc := Function.update s.proc p (f (s.proc p)) }

def goto (s : Sleeplock P) (p : P) (t : LockThread) : Sleeplock P := s.modify p fun x => { x with thread := t }

def acquire (s : Sleeplock P) (p : P) (t : LockThread) : Option (Sleeplock P) :=
  if s.lk = none then some { s.goto p t with lk := some p } else none

def wakeup1 (s : Sleeplock P) : Sleeplock P := { s with proc := fun p => { s.proc p with sleeping := false } }

def turn (s : Sleeplock P) (p : P) : Option (Sleeplock P) :=
  match (s.proc p).thread with
  | .idle | .hold => none
  | .test => some (s.goto p (if s.locked then .sleep else .take))
  | .sleep => if s.ptable = none then some { s.goto p .handing with ptable := some p } else none
  | .handing => some { s.goto p .falling with lk := none }
  -- `sched`; the scheduler releases `ptable.lock`.
  | .falling => some { s.modify p fun x => { x with thread := .asleep, sleeping := true } with ptable := none }
  | .asleep => if (s.proc p).sleeping = false ∧ s.ptable = none then some (s.goto p .woken) else none
  | .woken => s.acquire p .test
  | .take => some { s.goto p .taken with locked := true, pid := some p }
  | .taken => some { s.goto p .hold with lk := none }
  | .give => some { s.goto p .wake with locked := false, pid := none }
  | .wake => if s.ptable = none then some (s.wakeup1.goto p .leave) else none
  | .leave => some { s.goto p .idle with lk := none }

def next (s : Sleeplock P) : Label P → Option (Sleeplock P)
  | .acquiresleep p => if (s.proc p).thread = .idle then s.acquire p .test else none
  | .releasesleep p => if (s.proc p).thread = .hold then s.acquire p .give else none
  | .kill p =>
    if s.ptable = none then some (s.modify p fun x => { x with killed := true, sleeping := false }) else none
  | .step p => s.turn p

def holdingsleep (s : Sleeplock P) (p : P) : Prop := s.locked = true ∧ s.pid = some p

def machine (P : Type) [DecidableEq P] : Machine (Sleeplock P) (Label P) where
  init s := s = {}
  step s l t := s.next l = some t

end Sleeplock
end Xv6
