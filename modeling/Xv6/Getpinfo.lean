import Xv6.Console
import Xv6.Proc

/-! `sys_getpinfo` (sysproc.c), which has `fillpstat` (proc.c) write the process table into the caller's memory and
    prints it from there. A `pstat_t` is 36 bytes: `inuse`, `tickets`, `pid` and `ticks`, one word each, 16 bytes of
    `name`, the byte `state` and 3 bytes of padding. -/

namespace Xv6

/-- The word a C `int` is stored as. -/
def intWord (x : Int) : Nat := (x % 2 ^ 32).toNat

def sizeofPstat : Nat := 36

def sizeofPstatTable : Nat := NPROC * sizeofPstat

/-- `*states[p->state]`. -/
def ProcState.letter : ProcState → Char
  | .unused => 'U'
  | .embryo => 'E'
  | .sleeping => 'S'
  | .runnable => 'A'
  | .running => 'R'
  | .zombie => 'Z'

/-- The loop of `safestrcpy`, with `n` bytes of room before the NUL; `t` is the rest of the source string. -/
def safestrcpyFrom : Nat → (Nat → UInt8) → Nat → (Nat → UInt8) → Nat → UInt8
  | 0, m, s, _ => Bytes.splice m s [0]
  | n + 1, m, s, t =>
    let m := Bytes.splice m s [t 0]
    if t 0 ≠ 0 then safestrcpyFrom n m (s + 1) fun i => t (i + 1)
    -- `s` is past the NUL already, and one more is written.
    else Bytes.splice m (s + 1) [0]

def safestrcpy (m : Nat → UInt8) (s : Nat) (t : Nat → UInt8) (n : Nat) : Nat → UInt8 :=
  if n = 0 then m else safestrcpyFrom (n - 1) m s t

def fillEntry (m : Nat → UInt8) (a : Nat) (p : Proc) (name : Nat → UInt8) : Nat → UInt8 :=
  if p.state = .unused then Bytes.store m a 0
  else
    let m := Bytes.store m a 1
    let m := Bytes.store m (a + 4) (intWord p.tickets)
    let m := Bytes.store m (a + 8) (intWord p.pid)
    let m := Bytes.store m (a + 12) (intWord p.ticks)
    let m := safestrcpy m (a + 16) name 16
    Bytes.splice m (a + 32) [charByte p.state.letter]

/-- `name i` are the bytes of `ptable.proc[i].name`. -/
def fillpstat (s : Ptable) (name : Slot → Nat → UInt8) (pstat : Nat) (m : Nat → UInt8) : Nat → UInt8 :=
  slots.foldl (fun m (i : Slot) => fillEntry m (pstat + sizeofPstat * i) (s.proc i) (name i)) m

def printEntry (c : Caller) (a : Nat) : Option (List UInt8) :=
  if Bytes.load c.mem a = 0 then some []
  else
    cprintf c "%d\t%d\t%d\t%s\t%s\n".toList
      [Bytes.load c.mem (a + 8), Bytes.load c.mem (a + 4), Bytes.load c.mem (a + 12), a + 32, a + 16]

def printEntries (c : Caller) (p : Nat) : List Slot → Option (List UInt8)
  | [] => some []
  | i :: is => do
    let row ← printEntry c (p + sizeofPstat * i)
    let rows ← printEntries c p is
    return row ++ rows

/-- The value `sys_getpinfo` returns, the caller's memory after it and what it has printed; `none` where the kernel
    traps. -/
def getpinfo (s : Ptable) (name : Slot → Nat → UInt8) (c : Caller) : Option (Int × (Nat → UInt8) × List UInt8) :=
  match c.argptr 0 sizeofPstatTable with
  | none => some (-1, c.mem, [])
  | some p => do
    let c := { c with mem := fillpstat s name p c.mem }
    let head ← cprintf c "PID\tTKTS\tTCKS\tSTAT\tNAME\n".toList []
    let rows ← printEntries c p slots
    return (0, c.mem, head ++ rows)

end Xv6
