import Mathlib.Data.UInt
import Xv6.Memmove
import Xv6.Param

/-! The search for the MP configuration table and the walk over its entries (mp.c, mp.h). Memory is given by its bytes,
    at the addresses of the kernel. -/

namespace Xv6.Mp

def P2V (a : Addr) : Addr := a + 0x80000000

def sizeofMp : Nat := 16

def sizeofConf : Addr := 44

variable (mem : Addr → UInt8)

def bytes (p : Addr) (n : Nat) : List UInt8 := (List.range n).map fun i => mem (p + .ofNat 32 i)

def short (p : Addr) : Addr := .ofNat 32 ((mem p).toNat + 256 * (mem (p + 1)).toNat)

def word (p : Addr) : Addr := short mem p + 65536 * short mem (p + 2)

def sum (addr : Addr) (len : Nat) : UInt8 := (bytes mem addr len).sum

/-- `len` is a multiple of the size of the structure. -/
def mpsearch1 (a : Addr) (len : Nat) : Option Addr :=
  ((List.range (len / sizeofMp)).map fun i => P2V a + .ofNat 32 (i * sizeofMp)).find? fun p =>
    bytes mem p 4 = ['_', 'M', 'P', '_'].map (·.toUInt8) ∧ sum mem p sizeofMp = 0

def mpsearch : Option Addr :=
  let p := 16 * short mem (P2V 0x40e)
  let found := if p ≠ 0 then mpsearch1 mem p 1024 else mpsearch1 mem (1024 * short mem (P2V 0x413) - 1024) 1024
  found.or (mpsearch1 mem 0xf0000 0x10000)

def confLength (conf : Addr) : Addr := short mem (conf + 4)

def mpconfig : Option (Addr × Addr) := do
  let mp ← mpsearch mem
  let physaddr := word mem (mp + 4)
  let conf := P2V physaddr
  let version := mem (conf + 6)
  if physaddr = 0 then none
  else if bytes mem conf 4 ≠ ['P', 'C', 'M', 'P'].map (·.toUInt8) then none
  else if version ≠ 1 ∧ version ≠ 4 then none
  else if sum mem conf (confLength mem conf).toNat ≠ 0 then none
  else some (mp, conf)

/-- The types of table entries: MPPROC, MPBUS, MPIOAPIC, MPIOINTR and MPLINTR. -/
inductive Entry
  | proc
  | bus
  | ioapic
  | iointr
  | lintr
  deriving DecidableEq

def Entry.ofByte (b : UInt8) : Option Entry :=
  match b.toNat with
  | 0 => some .proc
  | 1 => some .bus
  | 2 => some .ioapic
  | 3 => some .iointr
  | 4 => some .lintr
  | _ => none

/-- What the loop steps over: sizeof(struct mpproc), sizeof(struct mpioapic), or 8. -/
def Entry.size : Entry → Addr
  | .proc => 20
  | .bus | .ioapic | .iointr | .lintr => 8

/-- The variables of the loop. `ncpu` is the number of `cpus`. -/
structure Walk where
  p : Addr
  lapic : Addr
  /-- cpus[i].apicid -/
  cpus : List UInt8 := []
  ioapicid : UInt8 := 0
  ismp : Bool := true

/-- The body of the loop: a `continue` for a known type; the `break` leaves only the `switch`. -/
def turn (w : Walk) : Walk :=
  match Entry.ofByte (mem w.p) with
  | some .proc =>
    { w with cpus := if w.cpus.length < NCPU then w.cpus ++ [mem (w.p + 1)] else w.cpus, p := w.p + Entry.proc.size }
  | some .ioapic => { w with ioapicid := mem (w.p + 1), p := w.p + Entry.ioapic.size }
  | some t => { w with p := w.p + t.size }
  | none => { w with ismp := false }

def walk (e : Addr) : Nat → Walk → Option Walk
  | 0, _ => none
  | f + 1, w => if w.p < e then walk e f (turn mem w) else some w

/-- Nothing while the loop runs; then the machine that was found, and whether the IMCR is written (mp->imcrp), or the
    text of the panic. -/
def mpinit (f : Nat) : Option (Except String (Walk × Bool)) :=
  match mpconfig mem with
  | none => some (.error "Expect to run on an SMP")
  | some (mp, conf) =>
    (walk mem (conf + confLength mem conf) f { p := conf + sizeofConf, lapic := word mem (conf + 36) }).map fun w =>
      if w.ismp then .ok (w, decide (mem (mp + 12) ≠ 0)) else .error "Didn't find a suitable machine"

end Xv6.Mp
