import Mathlib.Data.Fintype.Basic
import Xv6.Param

/-! The buffer cache of bio.c over a disk that reads and writes single blocks atomically. A process that
    waits for a buffer's lock is one that has not called `bget` yet, so a buffer has at most one user. -/

namespace Xv6

def ROOTDEV : Nat := 1

abbrev Block := Nat → Nat

/-- `struct buf`; the lock names the process that holds it. -/
structure Buf (P : Type) where
  valid : Bool := false
  dirty : Bool := false
  dev : Nat := 0
  blockno : Nat := 0
  lock : Option P := none
  refcnt : Nat := 0
  data : Block := fun _ => 0

structure Store (P : Type) where
  disk : Nat → Block
  buf : Fin NBUF → Buf P := fun _ => {}
  /-- The linked list of all buffers, from `head.next`, the most recently used, on. -/
  mru : List (Fin NBUF) := (List.finRange NBUF).reverse
  /-- The blocks written to the disk so far, oldest first. -/
  writes : List (Nat × Block) := []

namespace Store

variable {P : Type} [DecidableEq P]

def setBuf (s : Store P) (i : Fin NBUF) (b : Buf P) : Store P := { s with buf := Function.update s.buf i b }

def setData (s : Store P) (i : Fin NBUF) (d : Block) : Store P := s.setBuf i { s.buf i with data := d }

/-- `acquiresleep` on the lock of a buffer just referenced. -/
def acquire (s : Store P) (p : P) (i : Fin NBUF) (b : Buf P) : Except Stop (Fin NBUF × Store P) :=
  if b.lock.isSome then .error .blocked else .ok (i, s.setBuf i { b with lock := some p })

def bget (s : Store P) (p : P) (n : Nat) : Except Stop (Fin NBUF × Store P) :=
  match s.mru.find? fun i => (s.buf i).dev = ROOTDEV ∧ (s.buf i).blockno = n with
  | some i => s.acquire p i { s.buf i with refcnt := (s.buf i).refcnt + 1 }
  | none =>
    -- Not cached; recycle an unused buffer.
    match s.mru.reverse.find? fun i => (s.buf i).refcnt = 0 ∧ (s.buf i).dirty = false with
    | some i =>
      s.acquire p i { s.buf i with dev := ROOTDEV, blockno := n, valid := false, dirty := false, refcnt := 1 }
    | none => .error (.panic "bget: no buffers")

def iderw (s : Store P) (p : P) (i : Fin NBUF) : Except Stop (Store P) :=
  let b := s.buf i
  if b.lock ≠ some p then .error (.panic "iderw: buf not locked")
  else if b.valid ∧ ¬b.dirty then .error (.panic "iderw: nothing to do")
  else if b.dirty then
    .ok { s.setBuf i { b with valid := true, dirty := false } with
      disk := Function.update s.disk b.blockno b.data, writes := s.writes ++ [(b.blockno, b.data)] }
  else .ok (s.setBuf i { b with valid := true, data := s.disk b.blockno })

def bread (s : Store P) (p : P) (n : Nat) : Except Stop (Fin NBUF × Store P) := do
  let (i, s) ← s.bget p n
  if (s.buf i).valid then .ok (i, s)
  else
    let s ← s.iderw p i
    .ok (i, s)

def bwrite (s : Store P) (p : P) (i : Fin NBUF) : Except Stop (Store P) :=
  if (s.buf i).lock ≠ some p then .error (.panic "bwrite")
  else (s.setBuf i { s.buf i with dirty := true }).iderw p i

def brelse (s : Store P) (p : P) (i : Fin NBUF) : Except Stop (Store P) :=
  if (s.buf i).lock ≠ some p then .error (.panic "brelse")
  else
    let s := s.setBuf i { s.buf i with lock := none, refcnt := (s.buf i).refcnt - 1 }
    if (s.buf i).refcnt = 0 then .ok { s with mru := i :: s.mru.erase i } else .ok s

end Store
end Xv6
