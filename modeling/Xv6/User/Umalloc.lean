import Xv6.Lib.Bytes
import Xv6.Lib.Machine
import Xv6.Lib.Spans

/-! umalloc.c: the heap of a user program. The headers stand in the program's memory; pointers and sizes are 32-bit
    words, and a pointer to headers moves by 8 bytes for each of them. -/

namespace Xv6.Umalloc

/-- Memory, the variable `freep` (0 for null) and what `sbrk` does. -/
structure Heap where
  mem : Nat → UInt8
  freep : Nat := 0
  /-- The end of the memory of the program. -/
  brk : Nat
  /-- The answers of the calls of `sbrk` to come: failure, or memory that starts so far above `brk`. -/
  answers : Nat → Option Nat
  /-- What `sbrk` has given. It is read by nothing. -/
  given : List Span := []

namespace Heap

def ptr (h : Heap) (a : Nat) : Nat := Bytes.load h.mem a

def size (h : Heap) (a : Nat) : Nat := Bytes.load h.mem (a + 4)

def setPtr (h : Heap) (a v : Nat) : Heap := { h with mem := Bytes.store h.mem a v }

def setSize (h : Heap) (a v : Nat) : Heap := { h with mem := Bytes.store h.mem (a + 4) v }

/-- `sbrk` of a 32-bit word: `none` for -1. Memory is given above all that was given before, within the address space.
    A word from `2 ^ 31` on is a negative amount. -/
def sbrk (h : Heap) (n : Nat) : Option Nat × Heap :=
  let h' := { h with answers := fun i => h.answers (i + 1) }
  match h.answers 0 with
  | none => (none, h')
  | some gap =>
    let p := h.brk + gap
    if n < 2 ^ 31 then
      if p + n < 2 ^ 32 then (some p, { h' with brk := p + n, given := ⟨p, n⟩ :: h.given }) else (none, h')
    else
      -- the end moves down unless the sum wraps; `growproc` takes the size 0 for an error
      let sz := (p + n) % 2 ^ 32
      if sz = 0 then (none, h') else (some p, { h' with brk := min p sz })

end Heap

def headerSize : Nat := 8

/-- `p + n` for a pointer to headers. -/
def plus (p n : Nat) : Nat := (p + n * headerSize) % 2 ^ 32

/-- The loop of `free`, for at most so many turns: where the block `bp` belongs. -/
def findPlace (h : Heap) (bp : Nat) : Nat → Nat → Option Nat
  | 0, _ => none
  | f + 1, p =>
    if p < bp ∧ bp < h.ptr p then some p
    else if h.ptr p ≤ p ∧ (p < bp ∨ bp < h.ptr p) then some p
    else findPlace h bp f (h.ptr p)

/-- The block `bp` is joined to the one behind `p`, or linked to it. -/
def joinUpper (h : Heap) (bp p : Nat) : Heap :=
  if plus bp (h.size bp) = h.ptr p then
    let h := h.setSize bp ((h.size bp + h.size (h.ptr p)) % 2 ^ 32)
    h.setPtr bp (h.ptr (h.ptr p))
  else h.setPtr bp (h.ptr p)

/-- The block `bp` is joined to `p`, or linked behind it. -/
def joinLower (h : Heap) (bp p : Nat) : Heap :=
  if plus p (h.size p) = bp then
    let h := h.setSize p ((h.size p + h.size bp) % 2 ^ 32)
    h.setPtr p (h.ptr bp)
  else h.setPtr p bp

/-- More turns than there are addresses. -/
def turns : Nat := 2 ^ 32

/-- `free`, `none` if its loop does not end. -/
def free (h : Heap) (ap : Nat) : Option Heap := do
  let bp := (ap + 2 ^ 32 - headerSize) % 2 ^ 32
  let p ← findPlace h bp turns h.freep
  some { joinLower (joinUpper h bp p) bp p with freep := p }

def coreUnits (nu : Nat) : Nat := if nu < 4096 then 4096 else nu

def coreBytes (nu : Nat) : Nat := coreUnits nu * headerSize % 2 ^ 32

/-- `morecore`, which returns 0 or `freep`. -/
def morecore (h : Heap) (nu : Nat) : Option (Nat × Heap) :=
  match h.sbrk (coreBytes nu) with
  | (none, h) => some (0, h)
  | (some hp, h) => do
    let h ← free (h.setSize hp (coreUnits nu)) (plus hp 1)
    some (h.freep, h)

/-- The block `p` behind `prevp`, or its last `nunits` units, is taken. -/
def take (h : Heap) (prevp p nunits : Nat) : Nat × Heap :=
  if h.size p = nunits then (plus p 1, { h.setPtr prevp (h.ptr p) with freep := prevp })
  else
    let h := h.setSize p (h.size p - nunits)
    let p := plus p (h.size p)
    (plus p 1, { h.setSize p nunits with freep := prevp })

def mallocLoop (nunits : Nat) : Nat → Heap → Nat → Nat → Option (Nat × Heap)
  | 0, _, _, _ => none
  | f + 1, h, prevp, p =>
    if nunits ≤ h.size p then some (take h prevp p nunits)
    else if p = h.freep then do
      let (p, h) ← morecore h nunits
      if p = 0 then some (0, h) else mallocLoop nunits f h p (h.ptr p)
    else mallocLoop nunits f h p (h.ptr p)

def nunits (nbytes : Nat) : Nat := ((nbytes + headerSize - 1) % 2 ^ 32 / headerSize + 1) % 2 ^ 32

/-- The first call of `malloc` makes the free list. -/
def setBase (base : Nat) (h : Heap) : Heap :=
  if h.freep = 0 then { (h.setPtr base base).setSize base 0 with freep := base } else h

/-- `malloc`, with the static header at address `base`: the pointer returned (0 for null) and the heap, or `none` if
    its loop does not end. -/
def malloc (base : Nat) (h : Heap) (nbytes : Nat) : Option (Nat × Heap) :=
  let h := setBase base h
  mallocLoop (nunits nbytes) turns h h.freep (h.ptr h.freep)

/-! ### A program that uses the heap -/

/-- The heap, and the blocks that the program has: the pointer and the number of bytes asked for. -/
structure Program where
  heap : Heap
  live : List (Nat × Nat) := []

inductive Call where
  | malloc (nbytes : Nat)
  | free (ap : Nat)
  /-- The program writes to the bytes it asked for. -/
  | write (mem : Nat → UInt8)

/-- The steps of a program that keeps to the rules: it asks for at most 2^30 bytes, frees only blocks that it has, and
    writes only to what it asked for. -/
inductive Step (base : Nat) : Program → Call → Program → Prop
  | malloc {s : Program} {n r : Nat} {h : Heap} (hn : n ≤ 2 ^ 30) (hm : malloc base s.heap n = some (r, h)) :
    Step base s (.malloc n) ⟨h, if r = 0 then s.live else (r, n) :: s.live⟩
  | free {s : Program} {ap n : Nat} {h : Heap} (hl : (ap, n) ∈ s.live) (hf : free s.heap ap = some h) :
    Step base s (.free ap) ⟨h, s.live.erase (ap, n)⟩
  | write {s : Program} {mem : Nat → UInt8}
    (hw : ∀ x, (∀ e ∈ s.live, ¬(e.1 ≤ x ∧ x < e.1 + e.2)) → mem x = s.heap.mem x) :
    Step base s (.write mem) ⟨{ s.heap with mem := mem }, s.live⟩

/-- A program starts with no block, and with the end of its memory above the static header. -/
def machine (base : Nat) : Machine Program Call where
  init s := 0 < base ∧ base + headerSize ≤ s.heap.brk ∧ s.heap.brk < 2 ^ 32 ∧ s.heap.freep = 0 ∧ s.heap.given = [] ∧
    s.live = []
  step := Step base

end Xv6.Umalloc
