import Xv6.Inode

/-! The programs over the actions of the file system: path names (fs.c), open files (file.c) and the system
    calls (sysfile.c), run one after the other or interleaved. A transaction has no effect here: begin_op and
    end_op are left to the model of the log. Arguments that argint, argptr or argstr refuse do not get this
    far, so a path is a string without null bytes. -/

namespace Xv6

abbrev FsProg (P : Type) (α : Type) : Type 1 := Prog (Fs P) Halt α

def CONSOLE : Int := 1
def O_WRONLY : Nat := 0x001
def O_RDWR : Nat := 0x002
def O_CREATE : Nat := 0x200

namespace Sys

variable {P : Type} [DecidableEq P] (sb : Superblock) (p : P)

/-! ### Inodes -/

def panic {α : Type} (msg : String) : FsProg P α := .op fun _ => .error (.panic msg)

def inode (i : Fin NINODE) : FsProg P Dinode := .op fun s => .ok ((s.icache i).d, s)

def inum (i : Fin NINODE) : FsProg P Nat := .op fun s => .ok ((s.icache i).inum, s)

def ilock (i : Fin NINODE) : FsProg P Unit := .op fun s => s.ilock p i

def iunlock (i : Fin NINODE) : FsProg P Unit := .op fun s => s.iunlock p i

def iput (i : Fin NINODE) : FsProg P Unit := do
  .op fun s => s.iputTest i
  .op fun s => s.iputDrop p i

def iunlockput (i : Fin NINODE) : FsProg P Unit := do
  iunlock p i
  iput p i

/-- The loop of `ialloc`, for `n` inodes from `x` on. -/
def iallocFrom (type : InodeType) : Nat → Nat → FsProg P (Fin NINODE)
  | 0, _ => panic "ialloc: no inodes"
  | n + 1, x => do
    if ← .op fun s => s.iallocTry type x then .op fun s => s.iget p x
    else iallocFrom type n (x + 1)

def ialloc (type : InodeType) : FsProg P (Fin NINODE) := iallocFrom p type (sb.ninodes - 1) 1

/-- `readi` on a locked inode. The console's function unlocks the inode while it waits; `con` is what it
    returns, at most `n` bytes. -/
def readi (i : Fin NINODE) (off n : Nat) (con : Option (List UInt8)) : FsProg P (Option (List UInt8)) := do
  let ip ← inode i
  if ip.type = .dev then
    if ip.major = CONSOLE then do
      iunlock p i
      ilock p i
      pure (con.map (·.take n))
    else pure none
  else .op fun s => s.readi sb i off n

def writei (i : Fin NINODE) (off : Nat) (src : List UInt8) : FsProg P (Option Nat) := do
  let ip ← inode i
  if ip.type = .dev then
    if ip.major = CONSOLE then do
      iunlock p i
      ilock p i
      pure (some src.length)
    else pure none
  else .op fun s => s.writei sb i off src

/-! ### Directories and paths -/

def dirlookup (dp : Fin NINODE) (name : List UInt8) : FsProg P (Option (Fin NINODE × Nat)) :=
  .op fun s => s.dirlookup sb p dp name

def dirlink (dp : Fin NINODE) (name : List UInt8) (inum : Nat) : FsProg P Bool := do
  match ← dirlookup sb p dp name with
  | some (ip, _) => do
    iput p ip
    pure false
  | none => do
    .op fun s => s.dirwrite sb dp name inum
    pure true

/-- The loop of `namex` from inode `ip`; every turn takes one element from the path. -/
def namexFrom (parent : Bool) : Nat → Fin NINODE → List UInt8 → FsProg P (Option (Fin NINODE × List UInt8))
  | 0, _, _ => panic "namex"
  | fuel + 1, ip, path =>
    match skipelem path with
    | none =>
      if parent then do
        iput p ip
        pure none
      else pure (some (ip, []))
    | some (name, rest) => do
      ilock p ip
      let d ← inode ip
      if d.type ≠ .dir then do
        iunlockput p ip
        pure none
      else if parent ∧ rest = [] then do
        -- Stop one level early.
        iunlock p ip
        pure (some (ip, name))
      else do
        match ← dirlookup sb p ip name with
        | none => do
          iunlockput p ip
          pure none
        | some (next, _) => do
          iunlockput p ip
          namexFrom parent fuel next rest

def idupCwd : FsProg P (Fin NINODE) :=
  .op fun s =>
    match (s.proc p).cwd with
    | none => .error (.panic "idup")
    | some i => do
      let (_, s) ← s.idup p i
      .ok (i, s)

/-- Look up and return the inode for a path name, or the inode for the parent and the final path element. -/
def namex (parent : Bool) (path : List UInt8) : FsProg P (Option (Fin NINODE × List UInt8)) := do
  let ip ← if path.head? = some 47 then .op fun s => s.iget p ROOTINO else idupCwd p
  namexFrom sb p parent (path.length + 1) ip path

def namei (path : List UInt8) : FsProg P (Option (Fin NINODE)) := do
  let r ← namex sb p false path
  pure (r.map (·.1))

def nameiparent (path : List UInt8) : FsProg P (Option (Fin NINODE × List UInt8)) := namex sb p true path

/-! ### System calls -/

/-- `ip->nlink += k; iupdate(ip)`, with `nlink` a short. -/
def addNlink (i : Fin NINODE) (k : Int) : FsProg P Unit :=
  .op fun s => s.update i fun d => { d with nlink := CInt.wrap 16 (d.nlink + k) }

/-- The failure exit of `sys_link`. -/
def linkBad (ip : Fin NINODE) : FsProg P Int := do
  ilock p ip
  addNlink ip (-1)
  iunlockput p ip
  pure (-1)

def link (old new : List UInt8) : FsProg P Int := do
  match ← namei sb p old with
  | none => pure (-1)
  | some ip => do
    ilock p ip
    let d ← inode ip
    if d.type = .dir then do
      iunlockput p ip
      pure (-1)
    else do
      addNlink ip 1
      iunlock p ip
      match ← nameiparent sb p new with
      | none => linkBad p ip
      | some (dp, name) => do
        ilock p dp
        let x ← inum ip
        if ← dirlink sb p dp name x then do
          iunlockput p dp
          iput p ip
          pure 0
        else do
          iunlockput p dp
          linkBad p ip

def dot : List UInt8 := [46]
def dotdot : List UInt8 := [46, 46]

/-- Remove the entry at `off` of `dp`, which names `ip`; both are locked. -/
def unlinkEntry (dp ip : Fin NINODE) (off : Nat) : FsProg P Int := do
  let d ← inode ip
  let r ← .op fun s => s.writei sb dp off (List.replicate DIRENT 0)
  if r ≠ some DIRENT then panic "unlink: writei"
  else do
    if d.type = .dir then addNlink dp (-1)
    iunlockput p dp
    addNlink ip (-1)
    iunlockput p ip
    pure 0

def unlink (path : List UInt8) : FsProg P Int := do
  match ← nameiparent sb p path with
  | none => pure (-1)
  | some (dp, name) => do
    ilock p dp
    -- Cannot unlink "." or "..".
    if nameEq name dot ∨ nameEq name dotdot then do
      iunlockput p dp
      pure (-1)
    else do
      match ← dirlookup sb p dp name with
      | none => do
        iunlockput p dp
        pure (-1)
      | some (ip, off) => do
        ilock p ip
        let d ← inode ip
        if d.nlink < 1 then panic "unlink: nlink < 1"
        else do
          let empty ← if d.type = .dir then .op fun s => s.isdirempty sb ip else pure true
          if empty then unlinkEntry sb p dp ip off
          else do
            iunlockput p ip
            iunlockput p dp
            pure (-1)

/-- The part of `create` after the name was not found in `dp`, which is locked. -/
def createNew (dp : Fin NINODE) (name : List UInt8) (type : InodeType) (major minor : Int) :
    FsProg P (Option (Fin NINODE)) := do
  let ip ← ialloc sb p type
  ilock p ip
  .op fun s => s.update ip fun d => { d with major, minor, nlink := 1 }
  let x ← inum ip
  if type = .dir then do
    addNlink dp 1  -- for ".."
    let y ← inum dp
    -- No ip->nlink++ for ".": avoid cyclic ref count.
    if ← dirlink sb p ip dot x then
      if ← dirlink sb p ip dotdot y then pure () else panic "create dots"
    else panic "create dots"
  if ← dirlink sb p dp name x then do
    iunlockput p dp
    pure (some ip)
  else panic "create: dirlink"

def create (path : List UInt8) (type : InodeType) (major minor : Int) : FsProg P (Option (Fin NINODE)) := do
  match ← nameiparent sb p path with
  | none => pure none
  | some (dp, name) => do
    ilock p dp
    match ← dirlookup sb p dp name with
    | some (ip, _) => do
      iunlockput p dp
      ilock p ip
      let d ← inode ip
      if type = .file ∧ d.type = .file then pure (some ip)
      else do
        iunlockput p ip
        pure none
    | none => createNew sb p dp name type major minor

/-- The part of `sys_open` with the inode `ip` locked. -/
def openInode (ip : Fin NINODE) (omode : Nat) : FsProg P Int := do
  match ← .op fun s => s.falloc p with
  | none => do
    iunlockput p ip
    pure (-1)
  | some (f, fd) => do
    iunlock p ip
    .op fun s => s.fopen p f ip (omode &&& O_WRONLY == 0) (omode &&& O_WRONLY != 0 || omode &&& O_RDWR != 0)
    pure fd

def «open» (path : List UInt8) (omode : Nat) : FsProg P Int := do
  if omode &&& O_CREATE ≠ 0 then do
    match ← create sb p path .file 0 0 with
    | none => pure (-1)
    | some ip => openInode p ip omode
  else do
    match ← namei sb p path with
    | none => pure (-1)
    | some ip => do
      ilock p ip
      let d ← inode ip
      if d.type = .dir ∧ omode ≠ 0 then do
        iunlockput p ip
        pure (-1)
      else openInode p ip omode

/-- `sys_mkdir` and `sys_mknod`: the inode `create` returns is unlocked and put. -/
def createPut (path : List UInt8) (type : InodeType) (major minor : Int) : FsProg P Int := do
  match ← create sb p path type major minor with
  | none => pure (-1)
  | some ip => do
    iunlockput p ip
    pure 0

def mkdir (path : List UInt8) : FsProg P Int := createPut sb p path .dir 0 0

/-- The device numbers are passed to `create` as shorts. -/
def mknod (path : List UInt8) (major minor : Int) : FsProg P Int :=
  createPut sb p path .dev (CInt.wrap 16 major) (CInt.wrap 16 minor)

/-- `iput(curproc->cwd)`. -/
def putCwd : FsProg P Unit := do
  match ← .op fun s => s.leaveCwd p with
  | none => pure ()
  | some old => iput p old

def chdir (path : List UInt8) : FsProg P Int := do
  match ← namei sb p path with
  | none => pure (-1)
  | some ip => do
    ilock p ip
    let d ← inode ip
    if d.type ≠ .dir then do
      iunlockput p ip
      pure (-1)
    else do
      iunlock p ip
      putCwd p
      .op fun s => s.setCwd p (some ip)
      pure 0

def argfd (fd : Fin NOFILE) : FsProg P (Option (Fin NFILE)) := .op fun s => .ok ((s.proc p).ofile fd, s)

def file (f : Fin NFILE) : FsProg P File := .op fun s => .ok (s.ftable f, s)

/-- `sys_fstat` of a descriptor; the numbers it copies out are not used by the kernel. -/
def fstat (fd : Fin NOFILE) : FsProg P Int := do
  match ← argfd p fd with
  | none => pure (-1)
  | some f => do
    let e ← file f
    if e.type = .inode then do
      ilock p e.ip
      iunlock p e.ip
      pure 0
    else pure (-1)

def read (fd : Fin NOFILE) (n : Nat) (con : Option (List UInt8)) : FsProg P Int := do
  match ← argfd p fd with
  | none => pure (-1)
  | some f => do
    let e ← file f
    if e.readable = false then pure (-1)
    else if e.type = .inode then do
      ilock p e.ip
      let e' ← file f
      let r ← readi sb p e.ip e'.off n con
      .op fun s => s.advance f ((r.map List.length).getD 0)
      iunlock p e.ip
      pure (match r with | some l => l.length | none => -1)
    else panic "fileread"

/-- `((MAXOPBLOCKS-1-1-2) / 2) * 512`. -/
def maxWrite : Nat := (MAXOPBLOCKS - 1 - 1 - 2) / 2 * 512

def writeFrom (f : Fin NFILE) (ip : Fin NINODE) : Nat → List UInt8 → FsProg P Bool
  | 0, src => pure (src.length = 0)
  | fuel + 1, src =>
    if src.length = 0 then pure true
    else do
      ilock p ip
      let e ← file f
      let r ← writei sb p ip e.off (src.take maxWrite)
      .op fun s => s.advance f (r.getD 0)
      iunlock p ip
      match r with
      | none => pure false
      | some r => if r ≠ (src.take maxWrite).length then panic "short filewrite" else writeFrom f ip fuel (src.drop r)

def write (fd : Fin NOFILE) (src : List UInt8) : FsProg P Int := do
  match ← argfd p fd with
  | none => pure (-1)
  | some f => do
    let e ← file f
    if e.writable = false then pure (-1)
    else if e.type = .inode then do
      if ← writeFrom sb p f e.ip src.length src then pure src.length else pure (-1)
    else panic "filewrite"

def dup (fd : Fin NOFILE) : FsProg P Int := do
  match ← argfd p fd with
  | none => pure (-1)
  | some f => do
    match ← .op fun s => s.fdup p f with
    | none => pure (-1)
    | some fd => pure fd

def close (fd : Fin NOFILE) : FsProg P Int := do
  match ← argfd p fd with
  | none => pure (-1)
  | some f => do
    match ← .op fun s => s.fclose p fd f with
    | none => pure 0
    | some ip => do
      iput p ip
      pure 0

/-- The reads of `exec`, which depend on the file and on memory: a list of offsets and lengths. -/
def execReads (ip : Fin NINODE) : List (Nat × Fin (2 ^ 32) × Option (List UInt8)) → FsProg P Unit
  | [] => pure ()
  | (off, n, con) :: rest => do
    let _ ← readi sb p ip off n con
    execReads ip rest

def exec (path : List UInt8) (reads : List (Nat × Fin (2 ^ 32) × Option (List UInt8))) : FsProg P Int := do
  match ← namei sb p path with
  | none => pure (-1)
  | some ip => do
    ilock p ip
    execReads sb p ip reads
    iunlockput p ip
    pure 0

def fork (q : P) : FsProg P Int := do
  if ← .op fun s => s.fork p q then pure 0 else pure (-1)

def closeAll : List (Fin NOFILE) → FsProg P Unit
  | [] => pure ()
  | fd :: fds => do
    let _ ← close p fd
    closeAll fds

def exit : FsProg P Int := do
  closeAll p (List.finRange NOFILE)
  putCwd p
  .op fun s => s.setCwd p none
  pure 0

end Sys

inductive Call (P : Type)
  | «open» (path : List UInt8) (omode : Nat)
  | mkdir (path : List UInt8)
  | mknod (path : List UInt8) (major minor : Int)
  | link (old new : List UInt8)
  | unlink (path : List UInt8)
  | chdir (path : List UInt8)
  | read (fd : Fin NOFILE) (n : Fin (2 ^ 31)) (con : Option (List UInt8))
  | write (fd : Fin NOFILE) (src : List UInt8)
  | fstat (fd : Fin NOFILE)
  | dup (fd : Fin NOFILE)
  | close (fd : Fin NOFILE)
  | exec (path : List UInt8) (reads : List (Nat × Fin (2 ^ 32) × Option (List UInt8)))
  | fork (child : P)
  | exit

def syscall {P : Type} [DecidableEq P] (sb : Superblock) (p : P) : Call P → FsProg P Int
  | .open path omode => Sys.open sb p path omode
  | .mkdir path => Sys.mkdir sb p path
  | .mknod path major minor => Sys.mknod sb p path major minor
  | .link old new => Sys.link sb p old new
  | .unlink path => Sys.unlink sb p path
  | .chdir path => Sys.chdir sb p path
  | .read fd n con => Sys.read sb p fd n con
  | .write fd src => Sys.write sb p fd src
  | .fstat fd => Sys.fstat p fd
  | .dup fd => Sys.dup p fd
  | .close fd => Sys.close p fd
  | .exec path reads => Sys.exec sb p path reads
  | .fork child => Sys.fork p child
  | .exit => Sys.exit p

end Xv6
