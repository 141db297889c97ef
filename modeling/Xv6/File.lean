import Xv6.Lib.Fail
import Xv6.Sysfile

/-! The descriptor layer by itself: open files (file.c), the descriptors of processes (sysfile.c, proc.c) and the
    ends of pipes (pipe.c), with every call run to its end. The inodes that files refer to and the bytes in a
    pipe are left to the models of the file system and of pipes. -/

namespace Xv6

inductive FileType
  | none
  | pipe
  | inode
  deriving DecidableEq

/-- `struct file` without its inode and offset. -/
structure OpenFile where
  type : FileType := .none
  ref : Nat := 0
  readable : Bool := false
  writable : Bool := false
  /-- Which of the pipes made so far. -/
  pipe : Nat := 0

structure PipeEnds where
  readopen : Bool := true
  writeopen : Bool := true
  kfreed : Nat := 0

def PipeEnds.shut (x : PipeEnds) (writable : Bool) : PipeEnds :=
  if writable then { x with writeopen := false } else { x with readopen := false }

/-- What a slot of the process table is to the descriptor layer. -/
inductive Life
  | unused
  | live
  | zombie
  deriving DecidableEq

structure FdProc where
  life : Life := .unused
  ofile : Fin NOFILE → Option (Fin NFILE) := fun _ => none

structure Files (P : Type) where
  ftable : Fin NFILE → OpenFile := fun _ => {}
  proc : P → FdProc
  pipe : Nat → PipeEnds := fun _ => {}
  npipe : Nat := 0

namespace Files

variable {P : Type} [DecidableEq P]

def setFile (s : Files P) (f : Fin NFILE) (e : OpenFile) : Files P :=
  { s with ftable := Function.update s.ftable f e }

def setFd (s : Files P) (p : P) (fd : Fin NOFILE) (o : Option (Fin NFILE)) : Files P :=
  { s with proc := Function.update s.proc p { s.proc p with ofile := Function.update (s.proc p).ofile fd o } }

def setLife (s : Files P) (p : P) (l : Life) : Files P :=
  { s with proc := Function.update s.proc p { s.proc p with life := l } }

/-! ### file.c and pipe.c -/

def filealloc (s : Files P) : Option (Fin NFILE × Files P) :=
  match (List.finRange NFILE).find? fun f => (s.ftable f).ref = 0 with
  | none => none
  | some f => some (f, s.setFile f { s.ftable f with ref := 1 })

def filedup (s : Files P) (f : Fin NFILE) : Except Stop (Files P) :=
  if (s.ftable f).ref < 1 then .error (.panic "filedup")
  else .ok (s.setFile f { s.ftable f with ref := (s.ftable f).ref + 1 })

def pipeclose (s : Files P) (k : Nat) (writable : Bool) : Files P :=
  let x := (s.pipe k).shut writable
  let x := if x.readopen = false ∧ x.writeopen = false then { x with kfreed := x.kfreed + 1 } else x
  { s with pipe := Function.update s.pipe k x }

def fileclose (s : Files P) (f : Fin NFILE) : Except Stop (Files P) :=
  let ff := s.ftable f
  if ff.ref < 1 then .error (.panic "fileclose")
  else if ff.ref - 1 > 0 then .ok (s.setFile f { ff with ref := ff.ref - 1 })
  else
    let s := s.setFile f { ff with ref := 0, type := .none }
    if ff.type = .pipe then .ok (s.pipeclose ff.pipe ff.writable) else .ok s

/-- The files `*f0` and `*f1` of a new pipe; `mem` says whether `kalloc` finds a page. -/
def pipealloc (s : Files P) (mem : Bool) : Except Stop (Option (Fin NFILE × Fin NFILE) × Files P) :=
  match s.filealloc with
  | none => .ok (none, s)
  | some (f0, s) =>
    match s.filealloc with
    | none => do
      let s ← s.fileclose f0
      .ok (none, s)
    | some (f1, s) =>
      if mem then
        let s := s.setFile f0 { s.ftable f0 with type := .pipe, readable := true, writable := false, pipe := s.npipe }
        let s := s.setFile f1 { s.ftable f1 with type := .pipe, readable := false, writable := true, pipe := s.npipe }
        .ok (some (f0, f1), { s with pipe := Function.update s.pipe s.npipe {}, npipe := s.npipe + 1 })
      else do
        let s ← s.fileclose f0
        let s ← s.fileclose f1
        .ok (none, s)

/-! ### sysfile.c and proc.c -/

/-- The descriptor and the file that a system call's argument stands for. -/
def argfd (s : Files P) (p : P) (fd : Int) : Option (Fin NOFILE × Fin NFILE) :=
  if h : 0 ≤ fd ∧ fd < NOFILE then ((s.proc p).ofile ⟨fd.toNat, by omega⟩).map (⟨fd.toNat, by omega⟩, ·) else none

def fdalloc (s : Files P) (p : P) (f : Fin NFILE) : Option (Fin NOFILE × Files P) :=
  match (List.finRange NOFILE).find? fun fd => (s.proc p).ofile fd = none with
  | none => none
  | some fd => some (fd, s.setFd p fd (some f))

def sysDup (s : Files P) (p : P) (fd : Int) : Except Stop (Option (Fin NOFILE) × Files P) :=
  match s.argfd p fd with
  | none => .ok (none, s)
  | some (_, f) =>
    match s.fdalloc p f with
    | none => .ok (none, s)
    | some (fd, s) => do
      let s ← s.filedup f
      .ok (some fd, s)

def sysClose (s : Files P) (p : P) (fd : Int) : Except Stop (Bool × Files P) :=
  match s.argfd p fd with
  | none => .ok (false, s)
  | some (fd, f) => do
    let s ← (s.setFd p fd none).fileclose f
    .ok (true, s)

/-- `sys_open`; `found` says whether there is an inode that may be opened in this mode. -/
def sysOpen (s : Files P) (p : P) (found : Bool) (omode : Nat) : Except Stop (Option (Fin NOFILE) × Files P) :=
  if found = false then .ok (none, s)
  else match s.filealloc with
    | none => .ok (none, s)
    | some (f, s) =>
      match s.fdalloc p f with
      | none => do
        let s ← s.fileclose f
        .ok (none, s)
      | some (fd, s) => .ok (some fd, s.setFile f { s.ftable f with
          type := .inode
          readable := omode &&& O_WRONLY = 0
          writable := omode &&& O_WRONLY ≠ 0 ∨ omode &&& O_RDWR ≠ 0 })

def sysPipe (s : Files P) (p : P) (mem : Bool) : Except Stop (Option (Fin NOFILE × Fin NOFILE) × Files P) := do
  match ← s.pipealloc mem with
  | (none, s) => .ok (none, s)
  | (some (rf, wf), s) =>
    match s.fdalloc p rf with
    | none => do
      let s ← s.fileclose rf
      let s ← s.fileclose wf
      .ok (none, s)
    | some (fd0, s) =>
      match s.fdalloc p wf with
      | none => do
        let s ← (s.setFd p fd0 none).fileclose rf
        let s ← s.fileclose wf
        .ok (none, s)
      | some (fd1, s) => .ok (some (fd0, fd1), s)

/-- The turn of the loop of `fork` for descriptor `i`. -/
def forkFile (p np : P) (s : Files P) (i : Fin NOFILE) : Except Stop (Files P) :=
  match (s.proc p).ofile i with
  | none => .ok s
  | some f => do
    let s ← s.filedup f
    .ok (s.setFd np i (some f))

/-- `fork` into the slot `np`; `ok` says whether there is memory for the new process. -/
def fork (s : Files P) (p np : P) (ok : Bool) : Except Stop (Files P) :=
  if (s.proc np).life ≠ .unused then .error .blocked
  else if ok = false then .ok s
  else do
    let s ← (List.finRange NOFILE).foldlM (forkFile p np) s
    .ok (s.setLife np .live)

/-- The turn of the loop of `exit` for descriptor `fd`. -/
def exitFile (p : P) (s : Files P) (fd : Fin NOFILE) : Except Stop (Files P) :=
  match (s.proc p).ofile fd with
  | none => .ok s
  | some f => do
    let s ← s.fileclose f
    .ok (s.setFd p fd none)

def exit (s : Files P) (p : P) : Except Stop (Files P) := do
  let s ← (List.finRange NOFILE).foldlM (exitFile p) s
  .ok (s.setLife p .zombie)

inductive Call (P : Type)
  | open (found : Bool) (omode : Nat)
  | pipe (mem : Bool)
  | dup (fd : Int)
  | close (fd : Int)
  /-- `fork` when `allocproc` finds no slot leaves everything as it is. -/
  | fork (np : P) (ok : Bool)
  | exit
  /-- `wait` frees the slot of a ZOMBIE child. -/
  | wait (q : P)

def call (s : Files P) (p : P) (c : Call P) : Except Stop (Files P) :=
  if (s.proc p).life ≠ .live then .error .blocked
  else match c with
    | .open found omode => (s.sysOpen p found omode).map (·.2)
    | .pipe mem => (s.sysPipe p mem).map (·.2)
    | .dup fd => (s.sysDup p fd).map (·.2)
    | .close fd => (s.sysClose p fd).map (·.2)
    | .fork np ok => s.fork p np ok
    | .exit => s.exit p
    | .wait q => if (s.proc q).life = .zombie then .ok (s.setLife q .unused) else .ok s

def machine (P : Type) [DecidableEq P] : Machine (Files P) (P × Call P) where
  init s := (∀ f, (s.ftable f).ref = 0 ∧ (s.ftable f).type = .none) ∧ (∀ p fd, (s.proc p).ofile fd = none) ∧ s.npipe = 0
  step s l t := s.call l.1 l.2 = .ok t

end Files
end Xv6
