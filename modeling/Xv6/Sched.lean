import Xv6.Proc

/-! The context switches of proc.c at the grain of single assignments. `ptable.lock` is part of the state: a
    scheduler takes it and the process it switches to releases it, and the other way round. Each CPU stands at
    a point of the code, in the thread of its scheduler or of a process. A section under the lock that switches
    to nobody (`wakeup`, `kill`, the sections of `fork`) is one step, which finds the lock free; what `fork`
    does without the lock comes at any time. -/

namespace Xv6

/-- The calls of a process that can end in `sched`. -/
inductive Leave
  | yield
  /-- `sleep` on an address other than a process's. -/
  | sleep (a : Nat)
  | exit
  | wait
  deriving DecidableEq

inductive At
  /-- In `scheduler`, before it takes the lock. -/
  | idle
  /-- In `scheduler` with the lock, before the lottery. -/
  | draw
  /-- After `c->proc = p`. -/
  | start (p : Slot)
  /-- After `p->state = RUNNING`, before `swtch(&(c->scheduler), p->context)`. -/
  | switchTo (p : Slot)
  /-- In the thread of `p` with the lock, where its context was saved. -/
  | resumed (p : Slot)
  /-- In the thread of `p` without the lock. -/
  | run (p : Slot)
  /-- The process `p` has taken the lock for one of the calls. -/
  | enter (p : Slot) (call : Leave)
  /-- In `exit`, before `curproc->state = ZOMBIE`. -/
  | dying (p : Slot)
  /-- In `sched`, before `swtch(&p->context, mycpu()->scheduler)`. -/
  | sched (p : Slot)
  /-- In `scheduler` again, before `c->proc = 0`. -/
  | back (p : Slot)
  /-- Before `p->ticks++`. -/
  | count (p : Slot)
  /-- Before the release of the lock. -/
  | done
  deriving DecidableEq

def At.locked : At → Bool
  | .idle | .run _ => false
  | _ => true

@[ext]
structure Sched where
  table : Ptable := {}
  lock : Option Cpu := none
  pos : Cpu → At := fun _ => .idle
  /-- How often a scheduler has switched to the process of a slot, since the slot was allocated. -/
  dispatches : Slot → Nat := fun _ => 0
  /-- How often a scheduler has got control back from it. -/
  returns : Slot → Nat := fun _ => 0

namespace Sched

/-- CPU `c`, which has the lock or takes it now, goes on to `a` with the table `t`. -/
def goto (s : Sched) (c : Cpu) (a : At) (t : Ptable) : Sched :=
  { s with table := t, lock := if a.locked then some c else none, pos := Function.update s.pos c a }

def waitTurn (s : Sched) (c : Cpu) (p : Slot) : Sched :=
  match slots.find? fun q => (s.table.proc q).parent = some p ∧ (s.table.proc q).state = .zombie with
  | some q => s.goto c (.run p) ((s.table.free q).setThread p .run)
  | none =>
    if ¬(slots.any fun q => (s.table.proc q).parent = some p) ∨ (s.table.proc p).killed then
      s.goto c (.run p) (s.table.setThread p .run)
    else s.goto c (.sched p) (s.table.modify p fun x =>
      { x with chan := some (.proc p), state := .sleeping, thread := .wait })

/-- The next assignment, switch or taking or release of the lock by CPU `c`. -/
def turn (s : Sched) (c : Cpu) : Option Sched :=
  match s.pos c with
  | .idle => if s.lock = none then some (s.goto c .draw s.table) else none
  | .draw =>
    match s.table.schedulerPass with
    | .idle => some (s.goto c .idle s.table)
    | .dispatch p r => some (s.goto c (.start p) { s.table.setCpu c (some p) with rseed := r })
    | .overrun => none
  | .start p => some (s.goto c (.switchTo p) (s.table.setState p .running))
  | .switchTo p => some { s.goto c (.resumed p) s.table with
      dispatches := Function.update s.dispatches p (s.dispatches p + 1) }
  | .resumed p =>
    match (s.table.proc p).thread with
    | .forkret => some (s.goto c (.run p) (s.table.setThread p .run))
    | .sleep => some (s.goto c (.run p) (s.table.modify p fun x => { x with chan := none, thread := .run }))
    | .wait => some (s.goto c (.enter p .wait) (s.table.modify p fun x => { x with chan := none }))
    -- Preempted in `yield`.
    | .run | .forkStack _ | .forkCopy _ | .forkReady _ => some (s.goto c (.run p) s.table)
  | .run _ => none
  | .enter p .yield => some (s.goto c (.sched p) (s.table.setState p .runnable))
  | .enter p (.sleep a) => some (s.goto c (.sched p) (s.table.modify p fun x =>
      { x with chan := some (.addr a), state := .sleeping, thread := .sleep }))
  | .enter p .exit => some (s.goto c (.dying p) (s.table.exitFamily p))
  | .enter p .wait => some (s.waitTurn c p)
  | .dying p => some (s.goto c (.sched p) (s.table.setState p .zombie))
  | .sched p => some { s.goto c (.back p) s.table with
      returns := Function.update s.returns p (s.returns p + 1) }
  | .back p => some (s.goto c (.count p) (s.table.setCpu c none))
  | .count p => some (s.goto c .done (s.table.modify p fun x => { x with ticks := int32 (x.ticks + 1) }))
  | .done => some (s.goto c .idle s.table)

/-- The process that CPU `c` runs outside the lock. -/
def running (s : Sched) (c : Cpu) : Option Slot :=
  match s.pos c with
  | .run p => some p
  | _ => none

/-- The steps of the table that switch to nobody, and when they can come: with the lock free, on a CPU that runs a
    process, or, for what `fork` does without the lock, only the latter. -/
def admits (s : Sched) : Ptable.Op → Bool
  | .userinit | .wakeup _ | .kill _ => s.lock.isNone
  | .fork c | .forkRun c => s.lock.isNone ∧ (s.running c).isSome
  | .forkStack c _ | .forkCopy c _ => (s.running c).isSome
  | .exit _ | .wait _ | .sleep _ _ | .yield _ | .settickets _ _ | .scheduler _ => false

/-- The counts start again with the process that gets the slot. -/
def record (s : Sched) (t : Ptable) : Option Ptable.Event → Sched
  | some (.alloc p _) =>
    { s with table := t, dispatches := Function.update s.dispatches p 0, returns := Function.update s.returns p 0 }
  | some (.exited _ _) | some (.waited _ _ _ _) | none => { s with table := t }

inductive Label
  | table (op : Ptable.Op)
  /-- The process on CPU `c` takes the lock for a call. -/
  | call (c : Cpu) (call : Leave)
  | turn (c : Cpu)

def next (s : Sched) : Label → Option Sched
  | .table op => if s.admits op then (s.table.step op).map fun (t, e) => s.record t e else none
  | .call c call => do
    let p ← s.running c
    -- A clock interrupt can find the process in `fork`; the other calls come from elsewhere.
    if s.lock = none ∧ (call = .yield ∨ (s.table.proc p).thread = .run) ∧
        -- panic("init exiting")
        ¬(call = .exit ∧ s.table.initproc = some p) then
      some (s.goto c (.enter p call) s.table)
    else none
  | .turn c => s.turn c

def run (s : Sched) (ls : List Label) : Option Sched := ls.foldlM next s

def machine : Machine Sched Label where
  init s := s = {}
  step s l t := s.next l = some t

end Sched
end Xv6
