import Mathlib.Logic.Function.Basic
import Xv6.Lib.Machine

/-! `sys_sleep` (sysproc.c) and the timer interrupt of CPU 0 (trap.c), with `tickslock` and `ptable.lock` as parts of
    the state. -/

namespace Xv6

inductive SleepThread
  | idle
  /-- With `tickslock`, at the head of the loop. -/
  | test
  /-- In `sleep`, before it takes `ptable.lock`. -/
  | sleep
  /-- In `sleep` with both locks, before `release(lk)`. -/
  | handing
  /-- In `sleep` with `ptable.lock`, before `p->state = SLEEPING`. -/
  | falling
  /-- In `sched`, and SLEEPING or woken. -/
  | asleep
  /-- In `sleep`, before it takes `tickslock` again. -/
  | woken
  /-- Before `release(&tickslock)` and the return of 0, or else of -1. -/
  | leave (ok : Bool)
  | returned (ok : Bool)

inductive TimerThread
  | idle
  /-- Before `wakeup(&ticks)`. -/
  | wake
  /-- Before `release(&tickslock)`. -/
  | leave

structure Sleeper where
  thread : SleepThread := .idle
  n : BitVec 32 := 0
  ticks0 : BitVec 32 := 0
  /-- The process is SLEEPING with `p->chan = &ticks`. -/
  sleeping : Bool := false
  killed : Bool := false
  /-- `count` when the call began. -/
  since : Nat := 0

structure Clock (P : Type) where
  ticks : BitVec 32 := 0
  /-- The holder of `tickslock`, a process or the interrupt. -/
  tickslock : Option (Option P) := none
  /-- The holder of `ptable.lock`. -/
  ptable : Option P := none
  timer : TimerThread := .idle
  proc : P → Sleeper := fun _ => {}
  /-- The number of ticks, which nothing reads. -/
  count : Nat := 0

namespace Clock

inductive Label (P : Type)
  /-- Process `p` calls `sys_sleep`, and `argint` has fetched `n`. -/
  | sleep (p : P) (n : BitVec 32)
  | kill (p : P)
  | step (p : P)
  | timer

variable {P : Type} [DecidableEq P]

def modify (s : Clock P) (p : P) (f : Sleeper → Sleeper) : Clock P :=
  { s with proc := Function.update s.proc p (f (s.proc p)) }

def goto (s : Clock P) (p : P) (t : SleepThread) : Clock P := s.modify p fun x => { x with thread := t }

def turn (s : Clock P) (p : P) : Option (Clock P) :=
  let x := s.proc p
  match x.thread with
  | .idle | .returned _ => none
  | .test =>
    some (s.goto p (if s.ticks - x.ticks0 < x.n then if x.killed then .leave false else .sleep else .leave true))
  | .sleep => if s.ptable = none then some { s.goto p .handing with ptable := some p } else none
  | .handing => some { s.goto p .falling with tickslock := none }
  -- `sched`; the scheduler releases `ptable.lock`.
  | .falling => some { s.modify p fun x => { x with thread := .asleep, sleeping := true } with ptable := none }
  | .asleep => if x.sleeping = false ∧ s.ptable = none then some (s.goto p .woken) else none
  | .woken => if s.tickslock = none then some { s.goto p .test with tickslock := some (some p) } else none
  | .leave ok => some { s.goto p (.returned ok) with tickslock := none }

/-- The next turn of the interrupt; `wakeup` is a single section under `ptable.lock`. -/
def timerTurn (s : Clock P) : Option (Clock P) :=
  match s.timer with
  | .idle =>
    if s.tickslock = none then
      some { s with tickslock := some none, ticks := s.ticks + 1, count := s.count + 1, timer := .wake }
    else none
  | .wake =>
    if s.ptable = none then some { s with proc := fun p => { s.proc p with sleeping := false }, timer := .leave }
    else none
  | .leave => some { s with tickslock := none, timer := .idle }

def next (s : Clock P) : Label P → Option (Clock P)
  | .sleep p n =>
    match (s.proc p).thread with
    | .idle | .returned _ =>
      if s.tickslock = none then
        some { s.modify p fun x => { x with thread := .test, n, ticks0 := s.ticks, since := s.count } with
          tickslock := some (some p) }
      else none
    | _ => none
  | .kill p =>
    if s.ptable = none then some (s.modify p fun x => { x with killed := true, sleeping := false }) else none
  | .step p => s.turn p
  | .timer => s.timerTurn

def machine (P : Type) [DecidableEq P] : Machine (Clock P) (Label P) where
  init s := s = {}
  step s l t := s.next l = some t

end Clock
end Xv6
