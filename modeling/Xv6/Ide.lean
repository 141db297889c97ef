import Xv6.Bio
import Xv6.Lib.Machine

/-! The disk queue (ide.c): `iderw` and `ideintr` between taking and releasing idelock, with `sleep` and `wakeup` in
    the parts between which other processes run, and the disk, which does one command at a time and then raises an
    interrupt. A step that panics is not taken. -/

namespace Xv6

/-- A command as `idestart` sends it to the disk: a write has its data with it. -/
structure IdeCmd where
  drive : Nat
  blockno : Nat
  payload : Option Block

inductive IdeDevice
  | ready
  | busy (c : IdeCmd)
  /-- The command is done, its interrupt not yet handled; the data that the disk has read. -/
  | done (c : IdeCmd) (data : Block)

inductive IdeStage
  | out
  /-- Before `acquire(&idelock)`. -/
  | wants (b : Fin NBUF)
  /-- With idelock, at the call of `sleep(b, &idelock)`. -/
  | sleeps (b : Fin NBUF)
  /-- In `sleep`, with ptable.lock instead of idelock, not yet SLEEPING. -/
  | falls (b : Fin NBUF)
  /-- SLEEPING on `b`. -/
  | asleep (b : Fin NBUF)
  /-- RUNNABLE again, before `sleep` has idelock back. -/
  | woken (b : Fin NBUF)
  deriving DecidableEq

inductive IdeHolder (P : Type)
  | proc (p : P)
  /-- `ideintr`, before its `wakeup(b)`. -/
  | intr (b : Fin NBUF)
  deriving DecidableEq

/-- The disk, the buffers and the processes. The last four fields are not in the code: the commands that callers have
    asked for by appending a buffer, those started and those finished, oldest first, and the place of each caller's own
    command in the first list. -/
structure Ide (P : Type) where
  disk : Nat × Nat → Block
  device : IdeDevice := .ready
  havedisk1 : Bool
  buf : Fin NBUF → Buf P := fun _ => {}
  qnext : Fin NBUF → Option (Fin NBUF) := fun _ => none
  idequeue : Option (Fin NBUF) := none
  idelock : Option (IdeHolder P) := none
  /-- Which of the processes has ptable.lock. -/
  plock : Option P := none
  stage : P → IdeStage := fun _ => .out
  asked : List (P × Fin NBUF × IdeCmd) := []
  started : List (Fin NBUF × IdeCmd) := []
  finished : List (Fin NBUF × IdeCmd) := []
  ticket : P → Nat := fun _ => 0

namespace Ide

inductive Label (P : Type)
  /-- `p` gets the sleep-lock of `b`. -/
  | acquire (p : P) (b : Fin NBUF)
  | release (p : P) (b : Fin NBUF)
  /-- The holder changes the data, and marks the buffer dirty or not. -/
  | change (p : P) (b : Fin NBUF) (dirty : Bool) (data : Block)
  /-- `bget` takes a buffer that nobody has locked for another block. -/
  | recycle (b : Fin NBUF) (dev blockno : Nat)
  /-- The call, up to `acquire(&idelock)`. -/
  | iderw (p : P) (b : Fin NBUF)
  /-- From `acquire(&idelock)` to the first test of the loop. -/
  | enter (p : P)
  /-- `sleep` takes ptable.lock and releases idelock. -/
  | sleep (p : P)
  /-- `sleep` makes the process SLEEPING; the scheduler releases ptable.lock. -/
  | doze (p : P)
  /-- `kill` wakes the process. -/
  | kill (p : P)
  /-- `sleep` takes idelock again and returns to the test of the loop. -/
  | resume (p : P)
  /-- The disk finishes its command and raises an interrupt. -/
  | complete
  /-- `ideintr` up to its `wakeup`. -/
  | ideintr
  | wakeup

variable {P : Type} [DecidableEq P]

def setBuf (s : Ide P) (i : Fin NBUF) (b : Buf P) : Ide P := { s with buf := Function.update s.buf i b }

def goto (s : Ide P) (p : P) (x : IdeStage) : Ide P := { s with stage := Function.update s.stage p x }

def cmd (s : Ide P) (b : Fin NBUF) : IdeCmd where
  drive := (s.buf b).dev % 2
  blockno := (s.buf b).blockno
  payload := if (s.buf b).dirty then some (s.buf b).data else none

/-- `(b->flags & (B_VALID|B_DIRTY)) == B_VALID` -/
def Synced (s : Ide P) (b : Fin NBUF) : Prop := (s.buf b).valid = true ∧ (s.buf b).dirty = false

instance (s : Ide P) (b : Fin NBUF) : Decidable (s.Synced b) := inferInstanceAs (Decidable (_ ∧ _))

/-- While the disk is busy `idewait` waits. -/
def idestart (s : Ide P) (b : Fin NBUF) : Option (Ide P) :=
  if (s.buf b).blockno ≥ FSSIZE then none
  else
    match s.device with
    | .busy _ => none
    | _ => some { s with device := .busy (s.cmd b), started := s.started ++ [(b, s.cmd b)] }

/-- The last buffer of the queue from `b` on, if it is found in so many steps. -/
def last (qnext : Fin NBUF → Option (Fin NBUF)) : Nat → Fin NBUF → Option (Fin NBUF)
  | 0, _ => none
  | n + 1, b =>
    match qnext b with
    | none => some b
    | some c => last qnext n c

def append (s : Ide P) (b : Fin NBUF) : Option (Ide P) :=
  let qnext := Function.update s.qnext b none
  match s.idequeue with
  | none => some { s with qnext := qnext, idequeue := some b }
  | some c => do
    let z ← last qnext NBUF c
    some { s with qnext := Function.update qnext z (some b) }

/-- The test of the loop, with idelock. -/
def test (s : Ide P) (p : P) (b : Fin NBUF) : Ide P :=
  if s.Synced b then { s.goto p .out with idelock := none }
  else { s.goto p (.sleeps b) with idelock := some (.proc p) }

/-- The part of `iderw` before `acquire(&idelock)`. -/
def iderw (s : Ide P) (p : P) (b : Fin NBUF) : Option (Ide P) :=
  if (s.buf b).lock ≠ some p then none
  else if s.Synced b then none
  else if (s.buf b).dev ≠ 0 ∧ ¬s.havedisk1 then none
  else some (s.goto p (.wants b))

def enter (s : Ide P) (p : P) (b : Fin NBUF) : Option (Ide P) := do
  let s := { s with asked := s.asked ++ [(p, b, s.cmd b)], ticket := Function.update s.ticket p s.asked.length }
  let s ← s.append b
  -- Start disk if necessary.
  let s ← if s.idequeue = some b then s.idestart b else some s
  some (s.test p b)

def ideintr (s : Ide P) (c : IdeCmd) (data : Block) : Ide P :=
  let s := { s with device := .ready }
  match s.idequeue with
  | none => s
  | some b =>
    let d := s.buf b
    let data := if d.dirty then d.data else data
    { s.setBuf b { d with data := data, valid := true, dirty := false } with
      idequeue := s.qnext b, idelock := some (.intr b), finished := s.finished ++ [(b, c)] }

def wakeup (s : Ide P) (b : Fin NBUF) : Option (Ide P) :=
  let s := { s with stage := fun p => if s.stage p = IdeStage.asleep b then .woken b else s.stage p, idelock := none }
  match s.idequeue with
  | none => some s
  | some c => s.idestart c

def next (s : Ide P) : Label P → Option (Ide P)
  | .acquire p b =>
    if s.stage p = .out ∧ (s.buf b).lock = none then some (s.setBuf b { s.buf b with lock := some p }) else none
  | .release p b =>
    if s.stage p = .out ∧ (s.buf b).lock = some p then some (s.setBuf b { s.buf b with lock := none }) else none
  | .change p b dirty data =>
    if s.stage p = .out ∧ (s.buf b).lock = some p then some (s.setBuf b { s.buf b with dirty := dirty, data := data })
    else none
  | .recycle b dev blockno =>
    if (s.buf b).lock = none then
      some (s.setBuf b { s.buf b with dev := dev, blockno := blockno, valid := false, dirty := false })
    else none
  | .iderw p b => if s.stage p = .out then s.iderw p b else none
  | .enter p =>
    match s.stage p, s.idelock with
    | .wants b, none => s.enter p b
    | _, _ => none
  | .sleep p =>
    match s.stage p, s.plock with
    | .sleeps b, none => some { s.goto p (.falls b) with plock := some p, idelock := none }
    | _, _ => none
  | .doze p =>
    match s.stage p with
    | .falls b => some { s.goto p (.asleep b) with plock := none }
    | _ => none
  | .kill p =>
    match s.stage p, s.plock with
    | .asleep b, none => some (s.goto p (.woken b))
    | _, _ => none
  | .resume p =>
    match s.stage p, s.idelock with
    | .woken b, none => some (s.test p b)
    | _, _ => none
  | .complete =>
    match s.device with
    | .busy c =>
      let place := (c.drive, c.blockno)
      let disk := match c.payload with
        | some d => Function.update s.disk place d
        | none => s.disk
      some { s with disk := disk, device := .done c (disk place) }
    | _ => none
  | .ideintr =>
    match s.device, s.idelock with
    | .done c data, none => some (s.ideintr c data)
    | _, _ => none
  | .wakeup =>
    match s.idelock, s.plock with
    | some (.intr b), none => s.wakeup b
    | _, _ => none

/-- Any buffers and any contents of the disk, nothing in the queue and nobody in `iderw`. -/
def machine (P : Type) [DecidableEq P] : Machine (Ide P) (Label P) where
  init s := ∃ disk havedisk1 buf, s = { disk := disk, havedisk1 := havedisk1, buf := buf }
  step s l t := s.next l = some t

end Ide
end Xv6
