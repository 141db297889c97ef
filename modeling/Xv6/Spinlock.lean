import Mathlib.Data.Fintype.Basic
import Xv6.Lib.Machine

/-! Interrupts, spinlocks and context switches: `pushcli` and `popcli` with the functions that call them (spinlock.c),
    and `sched` and `scheduler` (proc.c), for any CPUs `C`, processes `T` and locks `L`. The code of a thread is a
    list of instructions. Between two of them other CPUs run and, with the interrupts on, an interrupt can come, whose
    handler runs in the same thread. A step on the way to a panic is not taken. The scheduler may resume any process
    that no CPU runs. -/

namespace Xv6

inductive Instr (T L : Type)
  | sti
  /-- In two steps: eflags = readeflags(); then cli() and the rest, with the interrupts off. -/
  | pushcli
  | popcli
  /-- `holding` looks at the lock. The caller panics if it finds other than wanted. -/
  | holds (l : L) (wanted : Option Bool)
  /-- `acquire` finds the lock free and takes it for its CPU. -/
  | lock (l : L)
  | unlock (l : L)
  /-- The end of `sched`, in two steps: its checks, intena = mycpu()->intena and swtch(&p->context, mycpu()->scheduler);
      then, when the process is resumed, mycpu()->intena = intena. -/
  | swtch
  /-- The choice of the next process by `scheduler`. -/
  | pick
  /-- swtch(&(c->scheduler), p->context) -/
  | resume (t : T)
  deriving DecidableEq

namespace Instr

variable {T L : Type}

def holding (l : L) (wanted : Option Bool) : List (Instr T L) := [pushcli, holds l wanted, popcli]

/-- Also `switchuvm`, as far as the flags go. -/
def myproc : List (Instr T L) := [pushcli, popcli]

def acquire (l : L) : List (Instr T L) := pushcli :: holding l (some false) ++ [lock l]

def release (l : L) : List (Instr T L) := holding l (some true) ++ [unlock l, popcli]

/-- `ptable` is the lock of the process table. -/
def sched (ptable : L) : List (Instr T L) := myproc ++ holding ptable (some true) ++ [swtch]

/-- The loop of `scheduler` up to its choice, -/
def scheduler (ptable : L) : List (Instr T L) := sti :: acquire ptable ++ [pick]

/-- and from there. -/
def picked (ptable : L) : Option T → List (Instr T L)
  | none => release ptable
  | some t => myproc ++ resume t :: release ptable

end Instr

/-- What a thread of the kernel has on its stack. -/
structure Kthread (T L : Type) where
  /-- The rest of the function it is in. -/
  todo : List (Instr T L) := []
  /-- The variable of `pushcli`, once it is set. -/
  eflags : Option Bool := none
  /-- The variable of `sched`, until it is put back. -/
  intena : Option Bool := none
  /-- The code that interrupts have found, with its `eflags`, the last one first. -/
  below : List (List (Instr T L) × Option Bool) := []
  /-- History: how many calls of `pushcli` it has not undone. -/
  depth : Nat := 0
  /-- History: the interrupt flag at the entry of each outermost `pushcli` that has not been undone, the last one
      first. -/
  entries : List Bool := []

/-- A new process is in `forkret`, with the lock that the scheduler took when interrupts were on. -/
def Kthread.forkret {T L : Type} (ptable : L) : Kthread T L :=
  { todo := Instr.release ptable, depth := 1, entries := [true] }

structure CpuFlags where
  ncli : Int := 0
  intena : Bool := false
  iflag : Bool := false

structure Cli (C T L : Type) where
  cpu : C → CpuFlags
  /-- The process whose thread the CPU runs, or none if that is its scheduler's. -/
  on : C → Option T
  /-- lk->cpu of a lock that is held. -/
  lock : L → Option C
  thread : C ⊕ T → Kthread T L

namespace Cli

variable {C T L : Type}

def who (s : Cli C T L) (c : C) : C ⊕ T :=
  match s.on c with
  | none => .inl c
  | some t => .inr t

variable [DecidableEq C] [DecidableEq L]

/-- The instructions other than the switches, for a thread whose code goes on with `rest`. -/
def exec (lock : L → Option C) (c : C) (f : CpuFlags) (th : Kthread T L) (rest : List (Instr T L)) :
    Instr T L → Option (CpuFlags × Kthread T L × (L → Option C))
  | .sti => some ({ f with iflag := true }, { th with todo := rest }, lock)
  | .pushcli =>
    match th.eflags with
    | none => some (f, { th with
        eflags := some f.iflag, entries := if th.depth = 0 then f.iflag :: th.entries else th.entries }, lock)
    | some eflags =>
      some ({ ncli := f.ncli + 1, intena := if f.ncli = 0 then eflags else f.intena, iflag := false },
        { th with todo := rest, eflags := none, depth := th.depth + 1 }, lock)
  | .popcli =>
    -- panic("popcli - interruptible"); the panic for a negative count is left out, to be shown out of reach.
    if f.iflag then none
    else some ({ f with ncli := f.ncli - 1, iflag := if f.ncli - 1 = 0 ∧ f.intena then true else f.iflag },
      { th with todo := rest, depth := th.depth - 1, entries := if th.depth = 1 then th.entries.tail else th.entries },
      lock)
  | .holds l wanted => if wanted = some (decide (lock l ≠ some c)) then none
    else some (f, { th with todo := rest }, lock)
  | .lock l => if lock l = none then some (f, { th with todo := rest }, Function.update lock l (some c)) else none
  | .unlock l => some (f, { th with todo := rest }, Function.update lock l none)
  | .swtch => th.intena.map fun intena => ({ f with intena := intena }, { th with todo := rest, intena := none }, lock)
  | .pick | .resume _ => none

variable [DecidableEq T]

def setThread (s : Cli C T L) (c : C) (th : Kthread T L) : Cli C T L :=
  { s with thread := Function.update s.thread (s.who c) th }

variable [Fintype C] (ptable : L)

def parked (s : Cli C T L) (t : T) : Bool := ∀ c, s.on c ≠ some t

/-- The next instruction of the thread that CPU `c` runs. At the end of its loop the scheduler starts again. -/
def turn (s : Cli C T L) (c : C) : Option (Cli C T L) :=
  let th := s.thread (s.who c)
  let f := s.cpu c
  match th.todo with
  | [] =>
    if s.on c = none ∧ th.below = [] then some (s.setThread c { th with todo := Instr.scheduler ptable }) else none
  | i :: rest =>
    match i, s.on c, th.intena with
    | .swtch, none, _ => none
    | .swtch, some _, none =>
      -- panic("sched locks"), panic("sched interruptible")
      if f.ncli = 1 ∧ f.iflag = false then
        some { s.setThread c { th with intena := some f.intena } with on := Function.update s.on c none }
      else none
    | .resume t, none, _ =>
      if s.parked t then some { s.setThread c { th with todo := rest } with on := Function.update s.on c (some t) }
      else none
    | i, _, _ => (exec s.lock c f th rest i).map fun (f, th, lock) =>
        { s.setThread c th with cpu := Function.update s.cpu c f, lock := lock }

inductive Call (L : Type)
  | acquire (l : L)
  | release (l : L)
  | holding (l : L)
  | myproc
  | sched

def Call.code : Call L → List (Instr T L)
  | .acquire l => Instr.acquire l
  | .release l => Instr.release l
  | .holding l => Instr.holding l none
  | .myproc => Instr.myproc
  | .sched => Instr.sched ptable

def Call.gives : Call L → Bool
  | .release _ => true
  | .acquire _ | .holding _ | .myproc | .sched => false

inductive Label (C T L : Type)
  | turn (c : C)
  | pick (c : C) (t : Option T)
  | call (c : C) (call : Call L)
  | interrupt (c : C)
  /-- The return from the handler, which has undone its calls of `pushcli`. -/
  | iret (c : C)
  | alloc (t : T)

def next (s : Cli C T L) : Label C T L → Option (Cli C T L)
  | .turn c => s.turn ptable c
  | .pick c t =>
    let th := s.thread (s.who c)
    if th.todo = [.pick] then some (s.setThread c { th with todo := Instr.picked ptable t }) else none
  | .call c call =>
    let th := s.thread (s.who c)
    -- Not the scheduler itself; and a lock is given back by a thread that has taken one.
    if th.todo = [] ∧ ¬(s.on c = none ∧ th.below = []) ∧ (call.gives → 0 < th.depth) then
      some (s.setThread c { th with todo := call.code ptable })
    else none
  | .interrupt c =>
    let th := s.thread (s.who c)
    if (s.cpu c).iflag then
      some { s.setThread c { th with todo := [], eflags := none, below := (th.todo, th.eflags) :: th.below } with
        cpu := Function.update s.cpu c { s.cpu c with iflag := false } }
    else none
  | .iret c =>
    let th := s.thread (s.who c)
    match th.todo, th.depth, th.below with
    | [], 0, (todo, eflags) :: below =>
      some { s.setThread c { th with todo := todo, eflags := eflags, below := below } with
        cpu := Function.update s.cpu c { s.cpu c with iflag := true } }
    | _, _, _ => none
  | .alloc t =>
    if s.parked t then some { s with thread := Function.update s.thread (.inr t) (.forkret ptable) } else none

/-- From the start of the schedulers on, with any flags. -/
def machine : Machine (Cli C T L) (Label C T L) where
  init s := (∀ c, (s.cpu c).ncli = 0) ∧ (∀ c, s.on c = none) ∧ (∀ l, s.lock l = none) ∧
    (∀ c, s.thread (.inl c) = {}) ∧ ∀ t, s.thread (.inr t) = .forkret ptable
  step s l t := s.next ptable l = some t

end Cli
end Xv6
