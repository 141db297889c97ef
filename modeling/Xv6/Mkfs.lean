import Xv6.Fs

/-! mkfs.c: the image as bytes, and the disk that the kernel reads from it (fs.h, `ilock` and `balloc` in fs.c). -/

namespace Xv6

abbrev FsImage : Type := Nat → Nat → UInt8

/-! ### The image as the kernel reads it -/

/-- The inodes, the bitmap and the data blocks of an image. There are no inodes beyond `ninodes`, and the blocks in
    front of the data area are given by the inodes and the bitmap. -/
def Disk.ofImage (sb : Superblock) (img : FsImage) : Disk where
  dinode x := if x < sb.ninodes then .ofBytes (Bytes.shift (img (IBLOCK x sb)) (x % IPB * DINODE))
    else .ofBytes fun _ => 0
  bitmap b := (img (BBLOCK b sb) (b % BPB / 8)).toNat.testBit (b % BPB % 8)
  data b := if sb.datastart ≤ b then img b else fun _ => 0

namespace Mkfs

def NINODES : Nat := 200
def nbitmap : Nat := FSSIZE / (BSIZE * 8) + 1
def ninodeblocks : Nat := NINODES / IPB + 1
def nlog : Nat := LOGSIZE
def nmeta : Nat := 2 + nlog + ninodeblocks + nbitmap
def nblocks : Nat := FSSIZE - nmeta

def sb : Superblock where
  size := FSSIZE
  nblocks := nblocks
  ninodes := NINODES
  nblocks_lt := by decide
  size_le := by decide
  ninodes_le := by decide

def sbWords : List Nat := [FSSIZE, nblocks, NINODES, nlog, 2, 2 + nlog, 2 + nlog + ninodeblocks]

structure State where
  img : FsImage
  freeinode : Nat
  freeblock : Nat

namespace State

def wsect (s : State) (sec : Nat) (buf : Nat → UInt8) : State := { s with img := Function.update s.img sec buf }

/-- Beyond the end of the image there is nothing to read, and mkfs exits. -/
def rsect (s : State) (sec : Nat) : Option (Nat → UInt8) := if sec < FSSIZE then some (s.img sec) else none

def winode (s : State) (inum : Nat) (din : Nat → UInt8) : Option State := do
  let bn := IBLOCK inum sb
  let buf ← s.rsect bn
  let dip := inum % IPB * DINODE
  some (s.wsect bn fun i => if dip ≤ i ∧ i < dip + DINODE then din (i - dip) else buf i)

def rinode (s : State) (inum : Nat) : Option (Nat → UInt8) := do
  let buf ← s.rsect (IBLOCK inum sb)
  some (Bytes.shift buf (inum % IPB * DINODE))

def ialloc (s : State) (type : Nat) : Option (Nat × State) := do
  let inum := s.freeinode
  let s := { s with freeinode := s.freeinode + 1 }
  let din := Bytes.setWord (Bytes.setHalf (Bytes.setHalf (fun _ => 0) 0 type) 6 1) 2 0
  let s ← s.winode inum din
  some (inum, s)

/-- `balloc`: the first `used` blocks are marked in use. -/
def balloc (s : State) (used : Nat) : Option State :=
  if used < BSIZE * 8 then
    let buf := (List.range used).foldl
      (fun buf i => Function.update buf (i / 8) (buf (i / 8) ||| 1 <<< UInt8.ofNat (i % 8))) fun _ => 0
    some (s.wsect sb.bmapstart buf)
  else none

def allocAddr (s : State) (din : Nat → UInt8) (k : Nat) : Nat × (Nat → UInt8) × State :=
  if Bytes.word din (3 + k) = 0 then
    (s.freeblock, Bytes.setWord din (3 + k) s.freeblock, { s with freeblock := s.freeblock + 1 })
  else (Bytes.word din (3 + k), din, s)

/-- The block `fbn` of the inode, allocated if there is none. -/
def appendBlock (s : State) (din : Nat → UInt8) (fbn : Nat) : Option (Nat × (Nat → UInt8) × State) :=
  if fbn < MAXFILE then
    if fbn < NDIRECT then some (s.allocAddr din fbn)
    else do
      let (ind, din, s) := s.allocAddr din NDIRECT
      let indirect ← s.rsect ind
      if Bytes.word indirect (fbn - NDIRECT) = 0 then
        let x := s.freeblock
        let s := { s with freeblock := s.freeblock + 1 }
        some (x, din, s.wsect ind (Bytes.setWord indirect (fbn - NDIRECT) x))
      else some (Bytes.word indirect (fbn - NDIRECT), din, s)
  else none

/-- The loop of `iappend`. Every turn writes a byte, so the fuel is enough. -/
def appendLoop : Nat → State → (Nat → UInt8) → Nat → List UInt8 → Option ((Nat → UInt8) × Nat × State)
  | 0, s, din, off, _ => some (din, off, s)
  | fuel + 1, s, din, off, p =>
    if p.length = 0 then some (din, off, s)
    else do
      let fbn := off / BSIZE
      let (x, din, s) ← s.appendBlock din fbn
      let n1 := min p.length ((fbn + 1) * BSIZE - off)
      let buf ← s.rsect x
      let s := s.wsect x (Bytes.splice buf (off - fbn * BSIZE) (p.take n1))
      appendLoop fuel s din (off + n1) (p.drop n1)

def iappend (s : State) (inum : Nat) (p : List UInt8) : Option State := do
  let din ← s.rinode inum
  let (din, off, s) ← appendLoop p.length s din (Bytes.word din 2) p
  s.winode inum (Bytes.setWord din 2 off)

end State

/-- An input file: its name as it is given to mkfs, and the results of `read`. -/
structure File where
  arg : List UInt8
  reads : List (List UInt8)

/-- Skip leading _ in name when writing to file system. -/
def File.name (f : File) : List UInt8 :=
  match f.arg with
  | [] => []
  | c :: name => if c = '_'.toUInt8 then name else c :: name

def File.content (f : File) : List UInt8 := f.reads.flatten

def addFile (rootino : Nat) (s : State) (f : File) : Option State := do
  if '/'.toUInt8 ∈ f.arg then none
  else
    let (inum, s) ← s.ialloc 2
    let s ← s.iappend rootino (mkDirent inum f.name)
    f.reads.foldlM (fun s buf => s.iappend inum buf) s

/-- The image before the first inode: the superblock, and zeroes. -/
def start : State where
  img := Function.update (fun _ _ => 0) 1 (sbWords.zipIdx.foldl (fun b w => Bytes.setWord b w.2 w.1) fun _ => 0)
  freeinode := 1
  freeblock := nmeta

/-- The image that mkfs makes of the files, `none` if it exits. -/
def mkfs (files : List File) : Option FsImage := do
  let (rootino, s) ← start.ialloc 1
  if rootino ≠ ROOTINO then none
  else
    let s ← s.iappend rootino (mkDirent rootino ['.'.toUInt8])
    let s ← s.iappend rootino (mkDirent rootino ['.'.toUInt8, '.'.toUInt8])
    let s ← files.foldlM (addFile rootino) s
    -- fix size of root inode dir
    let din ← s.rinode rootino
    let off := (Bytes.word din 2 / BSIZE + 1) * BSIZE
    let s ← s.winode rootino (Bytes.setWord din 2 off)
    let s ← s.balloc s.freeblock
    some s.img

end Mkfs

end Xv6
