import Xv6.Fs
import Xv6.Lib.CInt
import Xv6.Lib.Prog

/-! The state of the running file system: the disk, the inode cache, the open files of the system and of
    each process, and the actions on it. An action is one section that a lock makes atomic: the part of
    fs.c or file.c between acquiring and releasing icache.lock, ftable.lock or an inode's sleep-lock, or
    what the holder of an inode's sleep-lock does to that inode in one call. -/

namespace Xv6

structure Inode (P : Type) where
  inum : Nat
  ref : Nat
  lock : Option P
  valid : Bool
  d : Dinode

inductive FdType
  | none
  | inode
  deriving DecidableEq, Repr

structure File where
  type : FdType
  ref : Nat
  readable : Bool
  writable : Bool
  ip : Fin NINODE
  off : Nat

/-- What a process has of the file system. `put` is not in the code: `cwd` has been handed to `iput`, and its
    pointer is overwritten only when `iput` returns. -/
structure ProcFs where
  ofile : Fin NOFILE → Option (Fin NFILE)
  cwd : Option (Fin NINODE)
  put : Bool

/-- The current directory for which the process still has a reference. -/
def ProcFs.dir (e : ProcFs) : Option (Fin NINODE) := if e.put then none else e.cwd

/-- The shared state. The last three fields are not in the code: `held p` lists the references to cache
    entries that the call process `p` is running has taken and neither dropped nor handed over to an open
    file or a current directory, and `born` counts the allocations of inodes. -/
structure Fs (P : Type) where
  disk : Disk
  icache : Fin NINODE → Inode P
  ftable : Fin NFILE → File
  proc : P → ProcFs
  held : P → List (Fin NINODE)
  born : Nat → Nat
  clock : Nat

namespace Fs

variable {P : Type} [DecidableEq P]

def setInode (s : Fs P) (i : Fin NINODE) (e : Inode P) : Fs P := { s with icache := Function.update s.icache i e }

def setFile (s : Fs P) (f : Fin NFILE) (e : File) : Fs P := { s with ftable := Function.update s.ftable f e }

def setHeld (s : Fs P) (p : P) (l : List (Fin NINODE)) : Fs P := { s with held := Function.update s.held p l }

def setProc (s : Fs P) (p : P) (e : ProcFs) : Fs P := { s with proc := Function.update s.proc p e }

/-- The in-memory copy of entry `i` and the disk, as a function on both has left them. -/
def setCopy (s : Fs P) (i : Fin NINODE) (ip : Dinode) (d : Disk) : Fs P :=
  { s.setInode i { s.icache i with d := ip } with disk := d }

/-- Every inode in the cache is in the inode area. -/
def InArea (sb : Superblock) (s : Fs P) : Prop := ∀ i, 0 < (s.icache i).ref → IBLOCK (s.icache i).inum sb < sb.bmapstart

instance (sb : Superblock) (s : Fs P) : Decidable (s.InArea sb) := inferInstanceAs (Decidable (∀ _, _ → _))

/-- The operations below take every number to have a dinode of its own, as those in the inode area have. Of the others
    those in the cache are read from their blocks. -/
def dinodeOf (sb : Superblock) (s : Fs P) (x : Nat) : Dinode :=
  if IBLOCK x sb < sb.bmapstart then s.disk.dinode x
  else if ∃ i, 0 < (s.icache i).ref ∧ (s.icache i).inum = x then s.disk.dinodeAt sb x
  else s.disk.dinode x

def byBlock (sb : Superblock) (s : Fs P) : Fs P := { s with disk := { s.disk with dinode := s.dinodeOf sb } }

/-- The entries that process `p` can come to write: those its call holds, and those of its open files. -/
def entries (p : P) (s : Fs P) : List (Fin NINODE) :=
  s.held p ++ (List.finRange NOFILE).filterMap fun fd => ((s.proc p).ofile fd).map fun f => (s.ftable f).ip

/-! ### The inode cache -/

def iget (s : Fs P) (p : P) (inum : Nat) : Except Halt (Fin NINODE × Fs P) :=
  match (List.finRange NINODE).find? fun i => 0 < (s.icache i).ref ∧ (s.icache i).inum = inum with
  | some i => .ok (i, (s.setInode i { s.icache i with ref := (s.icache i).ref + 1 }).setHeld p (i :: s.held p))
  | none =>
    match (List.finRange NINODE).find? fun i => (s.icache i).ref = 0 with
    | some i =>
      .ok (i, (s.setInode i { s.icache i with inum, ref := 1, valid := false }).setHeld p (i :: s.held p))
    | none => .error (.panic "iget: no inodes")

def idup (s : Fs P) (p : P) (i : Fin NINODE) : Except Halt (Unit × Fs P) :=
  .ok ((), (s.setInode i { s.icache i with ref := (s.icache i).ref + 1 }).setHeld p (i :: s.held p))

def ilock (s : Fs P) (p : P) (i : Fin NINODE) : Except Halt (Unit × Fs P) :=
  let e := s.icache i
  if e.ref < 1 then .error (.panic "ilock")
  else if e.lock.isSome then .error (.wait .ilock i)
  else if e.valid then .ok ((), s.setInode i { e with lock := some p })
  else if (s.disk.dinode e.inum).type = .free then .error (.panic "ilock: no type")
  else .ok ((), s.setInode i { e with lock := some p, valid := true, d := s.disk.dinode e.inum })

def iunlock (s : Fs P) (p : P) (i : Fin NINODE) : Except Halt (Unit × Fs P) :=
  let e := s.icache i
  if e.lock ≠ some p ∨ e.ref < 1 then .error (.panic "iunlock")
  else .ok ((), s.setInode i { e with lock := none })

/-- The section of `iput` under the inode's sleep-lock: an inode with no links and no other references is
    truncated and freed. -/
def iputTest (s : Fs P) (i : Fin NINODE) : Except Halt (Unit × Fs P) :=
  let e := s.icache i
  if e.lock.isSome then .error (.wait .iput i)
  else if e.valid ∧ e.d.nlink = 0 ∧ e.ref = 1 then do
    let (ip, d) ← s.disk.itrunc e.d
    let ip := { ip with type := .free }
    .ok ((), { s.setInode i { e with d := ip, valid := false } with disk := d.iupdate e.inum ip })
  else .ok ((), s)

/-- The section of `iput` under icache.lock that drops the reference. -/
def iputDrop (s : Fs P) (p : P) (i : Fin NINODE) : Except Halt (Unit × Fs P) :=
  .ok ((), (s.setInode i { s.icache i with ref := (s.icache i).ref - 1 }).setHeld p ((s.held p).erase i))

/-- The turn of `ialloc` for inode `inum`: is it free, then it is marked allocated. -/
def iallocTry (s : Fs P) (type : InodeType) (inum : Nat) : Except Halt (Bool × Fs P) :=
  if (s.disk.dinode inum).type = .free then
    .ok (true, {
      s with
      disk := s.disk.iupdate inum { type, major := 0, minor := 0, nlink := 0, size := 0, addrs := fun _ => 0 }
      born := Function.update s.born inum s.clock
      clock := s.clock + 1 })
  else .ok (false, s)

/-! ### The holder of an inode's lock -/

/-- The holder changes the in-memory copy and calls `iupdate`. -/
def update (s : Fs P) (i : Fin NINODE) (g : Dinode → Dinode) : Except Halt (Unit × Fs P) :=
  .ok ((), s.setCopy i (g (s.icache i).d) (s.disk.iupdate (s.icache i).inum (g (s.icache i).d)))

def readi (sb : Superblock) (s : Fs P) (i : Fin NINODE) (off n : Nat) :
    Except Halt (Option (List UInt8) × Fs P) := do
  let (r, ip, d) ← s.disk.readi sb (s.icache i).d off n
  .ok (r, s.setCopy i ip d)

def writei (sb : Superblock) (s : Fs P) (i : Fin NINODE) (off : Nat) (src : List UInt8) :
    Except Halt (Option Nat × Fs P) := do
  let (r, ip, d) ← s.disk.writei sb (s.icache i).inum (s.icache i).d off src
  .ok (r, s.setCopy i ip d)

/-- The loop over the directory `i`. -/
def dirScan (sb : Superblock) (s : Fs P) (i : Fin NINODE) (msg : String) (stop : List UInt8 → Bool) (off : Nat) :
    Except Halt ((Nat × Option (List UInt8)) × Fs P) := do
  let (r, ip, d) ← s.disk.dirScan sb msg stop ((s.icache i).d.size / DIRENT + 1) (s.icache i).d off
  .ok (r, s.setCopy i ip d)

def dirlookup (sb : Superblock) (s : Fs P) (p : P) (i : Fin NINODE) (name : List UInt8) :
    Except Halt (Option (Fin NINODE × Nat) × Fs P) :=
  if (s.icache i).d.type ≠ .dir then .error (.panic "dirlookup not DIR")
  else do
    let ((off, de), s) ← s.dirScan sb i "dirlookup read" (fun de => direntInum de ≠ 0 ∧ nameEq name (direntName de)) 0
    match de with
    | none => .ok (none, s)
    | some de => do
      let (j, s) ← s.iget p (direntInum de)
      .ok (some (j, off), s)

/-- The part of `dirlink` after the name was not found: the entry goes to the first empty place. -/
def dirwrite (sb : Superblock) (s : Fs P) (i : Fin NINODE) (name : List UInt8) (inum : Nat) :
    Except Halt (Unit × Fs P) := do
  let ((off, _), s) ← s.dirScan sb i "dirlink read" (fun de => direntInum de = 0) 0
  let (r, s) ← s.writei sb i off (mkDirent inum name)
  if r = some DIRENT then .ok ((), s) else .error (.panic "dirlink")

def isdirempty (sb : Superblock) (s : Fs P) (i : Fin NINODE) : Except Halt (Bool × Fs P) := do
  let ((_, de), s) ← s.dirScan sb i "isdirempty: readi" (fun de => direntInum de ≠ 0) (2 * DIRENT)
  .ok (de.isNone, s)

/-! ### Open files -/

/-- Allocate a file structure and a descriptor of `p` for it. When there is no descriptor the structure is
    closed again, which frees it, since its type is FD_NONE. -/
def falloc (s : Fs P) (p : P) : Except Halt (Option (Fin NFILE × Fin NOFILE) × Fs P) :=
  match (List.finRange NFILE).find? fun f => (s.ftable f).ref = 0 with
  | none => .ok (none, s)
  | some f =>
    match (List.finRange NOFILE).find? fun fd => (s.proc p).ofile fd = none with
    | none => .ok (none, s.setFile f { s.ftable f with ref := 0, type := .none })
    | some fd =>
      .ok (some (f, fd), (s.setFile f { s.ftable f with ref := 1 }).setProc p {
        s.proc p with ofile := Function.update (s.proc p).ofile fd (some f) })

/-- The end of `sys_open`: the call's reference to `i` becomes the file's. -/
def fopen (s : Fs P) (p : P) (f : Fin NFILE) (i : Fin NINODE) (readable writable : Bool) :
    Except Halt (Unit × Fs P) :=
  .ok ((), (s.setFile f { s.ftable f with type := .inode, ip := i, off := 0, readable, writable }).setHeld p
    ((s.held p).erase i))

def fdup (s : Fs P) (p : P) (f : Fin NFILE) : Except Halt (Option (Fin NOFILE) × Fs P) :=
  match (List.finRange NOFILE).find? fun fd => (s.proc p).ofile fd = none with
  | none => .ok (none, s)
  | some fd =>
    if (s.ftable f).ref < 1 then .error (.panic "filedup")
    else .ok (some fd, (s.setFile f { s.ftable f with ref := (s.ftable f).ref + 1 }).setProc p {
      s.proc p with ofile := Function.update (s.proc p).ofile fd (some f) })

/-- Descriptor `fd` is cleared and its file `f` closed, up to the point where `fileclose` releases
    ftable.lock. The inode of a file closed for the last time is returned; its reference is now the call's. -/
def fclose (s : Fs P) (p : P) (fd : Fin NOFILE) (f : Fin NFILE) : Except Halt (Option (Fin NINODE) × Fs P) :=
  let s := s.setProc p { s.proc p with ofile := Function.update (s.proc p).ofile fd none }
  let e := s.ftable f
  if e.ref < 1 then .error (.panic "fileclose")
  else if 1 < e.ref then .ok (none, s.setFile f { e with ref := e.ref - 1 })
  else if e.type = .inode then
    .ok (some e.ip, (s.setFile f { e with ref := 0, type := .none }).setHeld p (e.ip :: s.held p))
  else .ok (none, s.setFile f { e with ref := 0, type := .none })

/-- `f->off += r`. -/
def advance (s : Fs P) (f : Fin NFILE) (r : Nat) : Except Halt (Unit × Fs P) :=
  .ok ((), s.setFile f { s.ftable f with off := ((s.ftable f).off + r) % 2 ^ 32 })

/-! ### Processes -/

/-- `curproc->cwd` is read, to be handed to `iput`: the reference is now the call's. -/
def leaveCwd (s : Fs P) (p : P) : Except Halt (Option (Fin NINODE) × Fs P) :=
  .ok ((s.proc p).cwd, (s.setProc p { s.proc p with put := true }).setHeld p ((s.proc p).cwd.toList ++ s.held p))

/-- `curproc->cwd = new`, whose reference the call held. -/
def setCwd (s : Fs P) (p : P) (new : Option (Fin NINODE)) : Except Halt (Unit × Fs P) :=
  .ok ((), (s.setProc p { s.proc p with cwd := new, put := false }).setHeld p ((s.held p).diff new.toList))

def forkFile (p q : P) (s : Fs P) (fd : Fin NOFILE) : Except Halt (Fs P) :=
  match (s.proc p).ofile fd with
  | none => .ok s
  | some f =>
    if (s.ftable f).ref < 1 then .error (.panic "filedup")
    else .ok ((s.setFile f { s.ftable f with ref := (s.ftable f).ref + 1 }).setProc q {
      s.proc q with ofile := Function.update (s.proc q).ofile fd (some f) })

/-- A process that exists has a current directory. -/
def live (p : P) (s : Fs P) : Bool := (s.proc p).dir.isSome

/-- Nothing of the file system is left to process `p`. -/
def unused (p : P) (s : Fs P) : Bool :=
  (s.proc p).cwd.isNone && (s.held p).isEmpty && (List.finRange NOFILE).all fun fd => ((s.proc p).ofile fd).isNone

/-- What `fork` does to the file system: if `q` is an unused process, it gets the open files and the current
    directory of `p`. -/
def fork (s : Fs P) (p q : P) : Except Halt (Bool × Fs P) :=
  if unused q s then do
    let s ← (List.finRange NOFILE).foldlM (forkFile p q) s
    match (s.proc p).cwd with
    | none => .ok (true, s)
    | some i =>
      .ok (true, (s.setInode i { s.icache i with ref := (s.icache i).ref + 1 }).setProc q {
        s.proc q with cwd := some i, put := false })
  else .ok (false, s)

end Fs

end Xv6
