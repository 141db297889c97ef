import Xv6.Lib.CInt
import Xv6.Lib.Machine
import Xv6.Param

/-! The process table of proc.c. Each section that holds `ptable.lock` is one step; so is each group of
    assignments that `allocproc` and `fork` make without the lock. `swtch` hands the lock from a process
    to the scheduler and back, so a step that gives up the CPU ends in `scheduler()`, and a step that
    dispatches a process runs on into that process until it releases the lock. -/

namespace Xv6

abbrev Slot := Fin NPROC
abbrev Cpu := Fin NCPU

def slots : List Slot := List.finRange NPROC

def int32 (x : Int) : Int := CInt.wrap 32 x

inductive ProcState
  | unused
  | embryo
  | sleeping
  | runnable
  | running
  | zombie
  deriving DecidableEq, Repr

/-- Wait channels: a process slot's address, on which only `wait` sleeps, or any other address. -/
inductive Chan
  | proc (p : Slot)
  | addr (a : Nat)
  deriving DecidableEq

inductive Thread
  /-- Outside the functions below, holding no lock: in user code or elsewhere in the kernel. -/
  | run
  /-- A new process, whose context starts in `forkret`. -/
  | forkret
  /-- In `fork`, before the kernel stack of the new slot is allocated. -/
  | forkStack (np : Slot)
  /-- In `fork`, before `copyuvm`. -/
  | forkCopy (np : Slot)
  /-- In `fork`, before the new process becomes RUNNABLE. -/
  | forkReady (np : Slot)
  /-- In `sleep`, called from anywhere but `wait`. -/
  | sleep
  /-- In the `sleep` of `wait`. -/
  | wait
  deriving DecidableEq

structure Proc where
  state : ProcState := .unused
  pid : Int := 0
  parent : Option Slot := none
  chan : Option Chan := none
  killed : Bool := false
  tickets : Int := 0
  ticks : Int := 0
  thread : Thread := .run
  deriving DecidableEq

@[ext]
structure Ptable where
  proc : Slot → Proc := fun _ => {}
  initproc : Option Slot := none
  nextpid : Int := 1
  rseed : Nat := 1898888478
  cpu : Cpu → Option Slot := fun _ => none

namespace Ptable

def modify (s : Ptable) (p : Slot) (f : Proc → Proc) : Ptable :=
  { s with proc := Function.update s.proc p (f (s.proc p)) }

def setState (s : Ptable) (p : Slot) (st : ProcState) : Ptable := s.modify p fun x => { x with state := st }

def setThread (s : Ptable) (p : Slot) (th : Thread) : Ptable := s.modify p fun x => { x with thread := th }

def setCpu (s : Ptable) (c : Cpu) (p : Option Slot) : Ptable :=
  { s with cpu := Function.update s.cpu c p }

/-- What `wait` and `kill` tell their caller, and what the table's history records. -/
inductive Event
  /-- `allocproc` takes slot `p` and gives it `pid`. -/
  | alloc (p : Slot) (pid : Int)
  /-- The process in slot `p` becomes a ZOMBIE. -/
  | exited (p : Slot) (pid : Int)
  /-- `wait`, called by `q`, frees slot `p`, whose parent field is `parent`, and returns `pid`. -/
  | waited (q p : Slot) (parent : Option Slot) (pid : Int)
  deriving DecidableEq

/-! ### random and scheduler -/

def RAND_MAX : Nat := 2 ^ 31 - 1

def random (rseed : Nat) : Nat := (rseed * 1103515245 + 12345) % 2 ^ 32 &&& RAND_MAX

/-- The first loop of `scheduler`: the tickets of the RUNNABLE slots, summed in an `int`. -/
def totalTickets (s : Ptable) : List Slot → Int → Int
  | [], total => total
  | p :: ps, total =>
    if (s.proc p).state ≠ .runnable then totalTickets s ps total
    else totalTickets s ps (int32 (total + (s.proc p).tickets))

/-- The second loop: the first RUNNABLE slot at which the running `int` sum exceeds `winner`; `none`
    when the loop runs past the table. -/
def pickWinner (s : Ptable) (winner : Int) : List Slot → Int → Option Slot
  | [], _ => none
  | p :: ps, counter =>
    if (s.proc p).state ≠ .runnable then pickWinner s winner ps counter
    else
      let counter := int32 (counter + (s.proc p).tickets)
      if counter > winner then some p else pickWinner s winner ps counter

inductive Pass
  /-- The branch `totalTickets <= 0`: release the lock and start over. -/
  | idle
  /-- The winner found, and the state of `random` after the draw. -/
  | dispatch (p : Slot) (rseed : Nat)
  /-- The winner's loop left the table. -/
  | overrun

def schedulerPass (s : Ptable) : Pass :=
  let total := s.totalTickets slots 0
  if total ≤ 0 then .idle
  else
    let r := random s.rseed
    match s.pickWinner ((r : Int) % total) slots 0 with
    | some p => .dispatch p r
    | none => .overrun

def backToScheduler (s : Ptable) (c : Cpu) (p : Slot) : Ptable :=
  (s.setCpu c none).modify p fun x => { x with ticks := int32 (x.ticks + 1) }

/-! ### sleep and wakeup -/

def wakeup1 (s : Ptable) (ch : Option Chan) : Ptable :=
  { s with proc := fun p =>
      if (s.proc p).state = .sleeping ∧ (s.proc p).chan = ch then { s.proc p with state := .runnable }
      else s.proc p }

/-- `sleep` up to `sched`, then the scheduler of CPU `c`. -/
def sleepOn (s : Ptable) (c : Cpu) (p : Slot) (ch : Chan) (t : Thread) : Ptable :=
  (s.modify p fun x => { x with chan := some ch, state := .sleeping, thread := t }).backToScheduler c p

/-! ### fork, exit and wait -/

/-- `allocproc` up to the release of the lock: the first UNUSED slot becomes EMBRYO. -/
def allocproc (s : Ptable) : Option (Slot × Ptable) :=
  match slots.find? fun p => (s.proc p).state = .unused with
  | none => none
  | some p =>
    some (p, { s.modify p fun x => { x with state := .embryo, pid := s.nextpid, thread := .forkret } with
      nextpid := int32 (s.nextpid + 1) })

/-- One turn of the loop by which `exit` passes the children of `p` to init. -/
def passChild (p : Slot) (s : Ptable) (q : Slot) : Ptable :=
  if (s.proc q).parent = some p then
    let s := s.modify q fun x => { x with parent := s.initproc }
    if (s.proc q).state = .zombie then s.wakeup1 (s.initproc.map .proc) else s
  else s

/-- The locked part of `exit` before the process becomes a ZOMBIE: the parent might be sleeping in
    `wait`, and the abandoned children go to init. -/
def exitFamily (s : Ptable) (p : Slot) : Ptable :=
  slots.foldl (passChild p) (s.wakeup1 ((s.proc p).parent.map .proc))

/-- The locked part of `exit`, then the scheduler of CPU `c`. -/
def exitLocked (s : Ptable) (c : Cpu) (p : Slot) : Ptable :=
  ((s.exitFamily p).setState p .zombie).backToScheduler c p

/-- The slot of a ZOMBIE as `wait` leaves it. -/
def free (s : Ptable) (q : Slot) : Ptable :=
  s.modify q fun x => { x with pid := 0, parent := none, killed := false, state := .unused }

/-- `wait` from the top of its loop, with the lock held: free a ZOMBIE child and return its pid, or
    return -1, or sleep. -/
def waitLoop (s : Ptable) (c : Cpu) (p : Slot) : Ptable × Option Event :=
  match slots.find? fun q => (s.proc q).parent = some p ∧ (s.proc q).state = .zombie with
  | some q =>
    let e := Event.waited p q (s.proc q).parent (s.proc q).pid
    ((s.free q).setThread p .run, some e)
  | none =>
    if ¬(slots.any fun q => (s.proc q).parent = some p) ∨ (s.proc p).killed then
      (s.setThread p .run, none)
    else (s.sleepOn c p (.proc p) .wait, none)

/-- The process dispatched on `c` goes on where its context was saved, until it releases the lock. -/
def resume (s : Ptable) (c : Cpu) (p : Slot) : Ptable × Option Event :=
  match (s.proc p).thread with
  | .forkret => (s.setThread p .run, none)
  | .sleep => (s.modify p fun x => { x with chan := none, thread := .run }, none)
  | .wait => (s.modify p fun x => { x with chan := none }).waitLoop c p
  -- Preempted in `yield`: it goes on where the clock interrupt found it.
  | .run | .forkStack _ | .forkCopy _ | .forkReady _ => (s, none)

/-- The first slot with the given pid, as the loops of `kill` and `setTicket` find it. -/
def findPid (s : Ptable) (pid : Int) : Option Slot := slots.find? fun p => (s.proc p).pid = pid

def kill (s : Ptable) (pid : Int) : Ptable :=
  match s.findPid pid with
  | none => s
  | some p => s.modify p fun x =>
    { x with killed := true, state := if x.state = .sleeping then .runnable else x.state }

def killResult (s : Ptable) (pid : Int) : Int :=
  match s.findPid pid with
  | none => -1
  | some _ => 0

def setTicket (s : Ptable) (pid tickets : Int) : Ptable :=
  match s.findPid pid with
  | none => s
  | some p => s.modify p fun x => { x with tickets := tickets }

/-- The steps; `c` is the CPU that runs the calling process. -/
inductive Op
  | userinit
  | fork (c : Cpu)
  /-- The allocation of the kernel stack, which may fail. -/
  | forkStack (c : Cpu) (ok : Bool)
  /-- `copyuvm`, which may fail, and the copying of the process state. -/
  | forkCopy (c : Cpu) (ok : Bool)
  | forkRun (c : Cpu)
  | exit (c : Cpu)
  | wait (c : Cpu)
  /-- `sleep` on an address other than a process's. -/
  | sleep (c : Cpu) (a : Nat)
  | wakeup (a : Nat)
  | kill (pid : Int)
  | yield (c : Cpu)
  /-- `sys_settickets` with argument `n`. -/
  | settickets (c : Cpu) (n : Int)
  /-- One pass of `scheduler` on the idle CPU `c`. -/
  | scheduler (c : Cpu)

/-- The process that CPU `c` runs, when its thread is at `t`. -/
def current (s : Ptable) (c : Cpu) (t : Thread) : Option Slot :=
  (s.cpu c).filter fun p => (s.proc p).thread = t

/-- One step with what it records; `none` where the step cannot be taken or panics. -/
def step (s : Ptable) : Op → Option (Ptable × Option Event)
  | .userinit =>
    if s.initproc.isSome then none
    else do
      let (p, t) ← s.allocproc
      some ({ t.modify p fun x => { x with ticks := 0, tickets := 10, state := .runnable } with
        initproc := some p }, some (.alloc p s.nextpid))
  | .fork c => do
    let p ← s.current c .run
    match s.allocproc with
    | none => some (s, none)
    | some (np, t) => some (t.setThread p (.forkStack np), some (.alloc np s.nextpid))
  | .forkStack c ok => do
    let p ← s.cpu c
    match (s.proc p).thread with
    | .forkStack np =>
      if ok then some (s.setThread p (.forkCopy np), none)
      else some ((s.setState np .unused).setThread p .run, none)
    | _ => none
  | .forkCopy c ok => do
    let p ← s.cpu c
    match (s.proc p).thread with
    | .forkCopy np =>
      if ok then
        let tickets := if 10 < (s.proc p).tickets then (s.proc p).tickets else 10
        let s := s.modify np fun x => { x with parent := some p, ticks := 0, tickets := tickets }
        some (s.setThread p (.forkReady np), none)
      else some ((s.setState np .unused).setThread p .run, none)
    | _ => none
  | .forkRun c => do
    let p ← s.cpu c
    match (s.proc p).thread with
    | .forkReady np =>
      some ((s.setState np .runnable).setThread p .run, none)
    | _ => none
  | .exit c => do
    let p ← s.current c .run
    -- panic("init exiting")
    if s.initproc = some p then none
    else some (s.exitLocked c p, some (.exited p (s.proc p).pid))
  | .wait c => do
    let p ← s.current c .run
    some (s.waitLoop c p)
  | .sleep c a => do
    let p ← s.current c .run
    some (s.sleepOn c p (.addr a) .sleep, none)
  | .wakeup a => some (s.wakeup1 (some (.addr a)), none)
  | .kill pid => some (s.kill pid, none)
  | .yield c => do
    let p ← s.cpu c
    some ((s.setState p .runnable).backToScheduler c p, none)
  | .settickets c n => do
    let p ← s.current c .run
    let n := int32 n
    if n < 10 then some (s, none) else some (s.setTicket (s.proc p).pid n, none)
  | .scheduler c =>
    if (s.cpu c).isSome then none
    else match s.schedulerPass with
      | .idle => some (s, none)
      | .dispatch p r => some (resume { (s.setCpu c (some p)).setState p .running with rseed := r } c p)
      | .overrun => none

/-- The table with the history of its events, oldest first. -/
structure Traced where
  table : Ptable := {}
  trace : List Event := []

def Traced.step (w : Traced) (op : Op) : Option Traced :=
  (w.table.step op).map fun (t, e) => { table := t, trace := w.trace ++ e.toList }

def Traced.run (w : Traced) (ops : List Op) : Option Traced := ops.foldlM Traced.step w

def machine : Machine Traced Op where
  init w := w = {}
  step w op w' := w.step op = some w'

end Ptable
end Xv6
