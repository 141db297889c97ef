import Xv6.Param
import Xv6.Lib.Bytes

/-! The file system on disk: block allocation, the blocks of an inode, and the content of an inode (fs.c).

    A disk is given by its typed areas: the inodes, the bitmap and the data blocks. The functions work on a
    disk and on the in-memory copy of one inode, as fs.c works on the buffer cache and on a locked inode;
    `iupdate` is what copies the second into the first. -/

namespace Xv6

def BSIZE : Nat := 512
def NDIRECT : Nat := 12
def NINDIRECT : Nat := 128
def MAXFILE : Nat := NDIRECT + NINDIRECT
def DIRSIZ : Nat := 14
/-- `sizeof(struct dirent)`. -/
def DIRENT : Nat := 16
def ROOTINO : Nat := 1

inductive InodeType
  | free
  | dir
  | file
  | dev
  deriving DecidableEq, Repr

/-- `struct dinode`, and the part of `struct inode` that copies it. -/
structure Dinode where
  type : InodeType
  major : Int
  minor : Int
  nlink : Int
  size : Nat
  addrs : Nat → Nat

def DINODE : Nat := 64

/-- A 16-bit word as a `short`. -/
def short (n : Nat) : Int := if n < 2 ^ 15 then n else (n : Int) - 2 ^ 16

def InodeType.ofShort : Nat → InodeType
  | 1 => .dir
  | 2 => .file
  | 3 => .dev
  | _ => .free

/-- The fields of a `struct dinode`, which starts at address 0. -/
def Dinode.ofBytes (b : Nat → UInt8) : Dinode where
  type := .ofShort (Bytes.half b 0)
  major := short (Bytes.half b 2)
  minor := short (Bytes.half b 4)
  nlink := short (Bytes.half b 6)
  size := Bytes.word b 2
  addrs k := if k ≤ NDIRECT then Bytes.word b (3 + k) else 0

/-- The layout that mkfs writes to the superblock, as far as the file system reads it: the last `nblocks` of
    the `size` blocks are the data area. -/
structure Superblock where
  size : Nat
  nblocks : Nat
  ninodes : Nat
  nblocks_lt : nblocks < size
  size_le : size ≤ FSSIZE
  ninodes_le : ninodes ≤ 2 ^ 16

def Superblock.datastart (sb : Superblock) : Nat := sb.size - sb.nblocks

def IPB : Nat := 8
def BPB : Nat := BSIZE * 8

/-- First block of the inodes, behind the boot block, the superblock and the log. -/
def Superblock.inodestart (_ : Superblock) : Nat := 2 + LOGSIZE

def Superblock.bmapstart (sb : Superblock) : Nat := 2 + LOGSIZE + (sb.ninodes / IPB + 1)

def IBLOCK (i : Nat) (sb : Superblock) : Nat := i / IPB + sb.inodestart

def BBLOCK (b : Nat) (sb : Superblock) : Nat := b / BPB + sb.bmapstart

structure Disk where
  dinode : Nat → Dinode
  bitmap : Nat → Bool
  data : Nat → Nat → UInt8

/-- The dinode that the code reads for number `x`: one beyond the inode area is bytes of another block. -/
def Disk.dinodeAt (sb : Superblock) (d : Disk) (x : Nat) : Dinode :=
  if IBLOCK x sb < sb.bmapstart then d.dinode x
  else .ofBytes (Bytes.shift (d.data (IBLOCK x sb)) (x % IPB * DINODE))

/-- Where a process waits for an inode's sleep-lock. -/
inductive Site
  | ilock
  | iput
  deriving DecidableEq, Repr

inductive Halt
  | panic (msg : String)
  /-- `acquiresleep` on the lock of inode `i` has to wait. -/
  | wait (site : Site) (i : Fin NINODE)
  deriving DecidableEq, Repr

namespace Disk

def iupdate (d : Disk) (inum : Nat) (ip : Dinode) : Disk := { d with dinode := Function.update d.dinode inum ip }

/-! ### Blocks -/

def balloc (sb : Superblock) (d : Disk) : Except Halt (Nat × Disk) :=
  match (List.range sb.size).find? fun b => !d.bitmap b with
  | some b => .ok (b, {
      d with
      bitmap := Function.update d.bitmap b true
      data := Function.update d.data b fun _ => 0 })
  | none => .error (.panic "balloc: out of blocks")

def bfree (d : Disk) (b : Nat) : Except Halt Disk :=
  if d.bitmap b then .ok { d with bitmap := Function.update d.bitmap b false }
  else .error (.panic "freeing free block")

/-- `if((addr = ip->addrs[k]) == 0) ip->addrs[k] = addr = balloc(ip->dev)`. -/
def ballocAddr (sb : Superblock) (d : Disk) (ip : Dinode) (k : Nat) : Except Halt (Nat × Dinode × Disk) :=
  if ip.addrs k = 0 then do
    let (addr, d) ← d.balloc sb
    .ok (addr, { ip with addrs := Function.update ip.addrs k addr }, d)
  else .ok (ip.addrs k, ip, d)

def bmap (sb : Superblock) (d : Disk) (ip : Dinode) (bn : Nat) : Except Halt (Nat × Dinode × Disk) :=
  if bn < NDIRECT then d.ballocAddr sb ip bn
  else if bn - NDIRECT < NINDIRECT then do
    -- Load indirect block, allocating if necessary.
    let (ind, ip, d) ← d.ballocAddr sb ip NDIRECT
    if Bytes.word (d.data ind) (bn - NDIRECT) = 0 then do
      let (addr, d) ← d.balloc sb
      .ok (addr, ip, {
        d with data := Function.update d.data ind (Bytes.setWord (d.data ind) (bn - NDIRECT) addr) })
    else .ok (Bytes.word (d.data ind) (bn - NDIRECT), ip, d)
  else .error (.panic "bmap: out of range")

/-- `bfree` of the nonzero block numbers of a list, in order. -/
def bfreeAll : Disk → List Nat → Except Halt Disk
  | d, [] => .ok d
  | d, b :: bs => if b = 0 then d.bfreeAll bs else d.bfree b >>= fun d => d.bfreeAll bs

/-- Truncate inode (discard contents). The entries of the indirect block are freed but not cleared. -/
def itrunc (d : Disk) (ip : Dinode) : Except Halt (Dinode × Disk) := do
  let d ← d.bfreeAll ((List.range NDIRECT).map ip.addrs)
  let d ←
    if ip.addrs NDIRECT = 0 then .ok d
    else d.bfreeAll ((List.range NINDIRECT).map (Bytes.word (d.data (ip.addrs NDIRECT)))) >>=
      fun d => d.bfree (ip.addrs NDIRECT)
  .ok ({ ip with size := 0, addrs := fun _ => 0 }, d)

/-! ### Content of an inode that is not a device -/

/-- The loop of `readi`: `n` bytes from `off`, block by block. The fuel `n` is enough, since every turn
    reads a byte. -/
def readBlocks (sb : Superblock) : Nat → Disk → Dinode → Nat → Nat → Except Halt (List UInt8 × Dinode × Disk)
  | 0, d, ip, _, _ => .ok ([], ip, d)
  | fuel + 1, d, ip, off, n =>
    if n = 0 then .ok ([], ip, d)
    else do
      let (addr, ip, d) ← d.bmap sb ip (off / BSIZE)
      let m := min n (BSIZE - off % BSIZE)
      let (rest, ip, d') ← readBlocks sb fuel d ip (off + m) (n - m)
      .ok (Bytes.slice (d.data addr) (off % BSIZE) m ++ rest, ip, d')

/-- Read data from inode; `none` is -1. The sum `off + n` is one of unsigned 32-bit numbers. -/
def readi (sb : Superblock) (d : Disk) (ip : Dinode) (off n : Nat) :
    Except Halt (Option (List UInt8) × Dinode × Disk) :=
  if off > ip.size ∨ (off + n) % 2 ^ 32 < off then .ok (none, ip, d)
  else do
    let n := if (off + n) % 2 ^ 32 > ip.size then ip.size - off else n
    let (bytes, ip, d) ← readBlocks sb n d ip off n
    .ok (some bytes, ip, d)

/-- The loop of `writei`, block by block. -/
def writeBlocks (sb : Superblock) : Nat → Disk → Dinode → Nat → List UInt8 → Except Halt (Dinode × Disk)
  | 0, d, ip, _, _ => .ok (ip, d)
  | fuel + 1, d, ip, off, src =>
    if src.length = 0 then .ok (ip, d)
    else do
      let (addr, ip, d) ← d.bmap sb ip (off / BSIZE)
      let m := min src.length (BSIZE - off % BSIZE)
      let d := {
        d with data := Function.update d.data addr (Bytes.splice (d.data addr) (off % BSIZE) (src.take m)) }
      writeBlocks sb fuel d ip (off + m) (src.drop m)

def writei (sb : Superblock) (d : Disk) (inum : Nat) (ip : Dinode) (off : Nat) (src : List UInt8) :
    Except Halt (Option Nat × Dinode × Disk) :=
  if off > ip.size ∨ (off + src.length) % 2 ^ 32 < off then .ok (none, ip, d)
  else if (off + src.length) % 2 ^ 32 > MAXFILE * BSIZE then .ok (none, ip, d)
  else do
    let (ip, d) ← writeBlocks sb src.length d ip off src
    if 0 < src.length ∧ ip.size < off + src.length then
      let ip := { ip with size := off + src.length }
      .ok (some src.length, ip, d.iupdate inum ip)
    else .ok (some src.length, ip, d)

end Disk

/-! ### Directory entries -/

/-- A name as `strncmp` sees it: up to the first null byte, at most `DIRSIZ` bytes. -/
def cname (s : List UInt8) : List UInt8 := (s.take DIRSIZ).takeWhile (· ≠ 0)

/-- `namecmp(s, t) == 0`. -/
def nameEq (s t : List UInt8) : Bool := cname s = cname t

/-- The bytes of a `struct dirent`. The i-number is stored in 16 bits, the name is padded with null bytes. -/
def mkDirent (inum : Nat) (name : List UInt8) : List UInt8 :=
  [UInt8.ofNat inum, UInt8.ofNat (inum / 256)] ++ (cname name ++ List.replicate (DIRSIZ - (cname name).length) 0)

def direntInum (de : List UInt8) : Nat := (de.getD 0 0).toNat + 256 * (de.getD 1 0).toNat

def direntName (de : List UInt8) : List UInt8 := cname (de.drop 2)

/-- The loop over the entries of a directory that `dirlookup`, `dirlink` and `isdirempty` share: from `off`
    on, the first entry that meets `stop`, with its offset, or the offset where the directory ends. -/
def Disk.dirScan (sb : Superblock) (msg : String) (stop : List UInt8 → Bool) :
    Nat → Disk → Dinode → Nat → Except Halt ((Nat × Option (List UInt8)) × Dinode × Disk)
  | 0, d, ip, off => .ok ((off, none), ip, d)
  | fuel + 1, d, ip, off =>
    if off < ip.size then do
      let (r, ip, d) ← d.readi sb ip off DIRENT
      match r with
      | some de =>
        if de.length = DIRENT then
          if stop de then .ok ((off, some de), ip, d) else dirScan sb msg stop fuel d ip (off + DIRENT)
        else .error (.panic msg)
      | none => .error (.panic msg)
    else .ok ((off, none), ip, d)

/-- Copy the next path element from path into name: the element, and the rest of the path without leading
    slashes. -/
def skipelem (path : List UInt8) : Option (List UInt8 × List UInt8) :=
  let path := path.dropWhile (· = 47)
  if path = [] then none
  else some ((path.takeWhile (· ≠ 47)).take DIRSIZ, (path.dropWhile (· ≠ 47)).dropWhile (· = 47))

/-- What is in the buffer `name` of `DIRSIZ` bytes once the element has been copied there. A short element is
    ended by a null byte, and behind it are the bytes the buffer held before. -/
def copyElem (name elem : List UInt8) : List UInt8 :=
  if DIRSIZ ≤ elem.length then elem.take DIRSIZ else elem ++ 0 :: name.drop (elem.length + 1)

/-- `skipelem` with its buffer `name`, which the loop of `namex` uses again for each element: the buffer, and the
    rest of the path. -/
def skipelemInto (name path : List UInt8) : Option (List UInt8 × List UInt8) :=
  let path := path.dropWhile (· = 47)
  if path = [] then none
  else some (copyElem name (path.takeWhile (· ≠ 47)), (path.dropWhile (· ≠ 47)).dropWhile (· = 47))

end Xv6
