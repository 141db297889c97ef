import Xv6.Journal

/-! The buffer cache as the processes share it: the functions of bio.c in the sections between which other processes
    run, with `log_write`, the code of `commit`, and the disk queue of ide.c. A process that waits for a buffer's lock
    has left `bcache.lock` and keeps its reference. A step that panics is not taken. -/

namespace Xv6
namespace Bcache

inductive Caller
  | writeLog
  | writeHead
  | installTrans
  /-- Not in log.c. -/
  | other
  deriving DecidableEq

/-- The buffers that `commit` uses: the one of a block of the log, and the one of a block to be logged. -/
inductive Var
  | lbuf
  | dbuf
  deriving DecidableEq

/-- The statements of `commit`, of the functions it calls, and of the end of `end_op`. -/
inductive Stmt
  | bread (x : Var) (blockno : Nat)
  /-- `memmove(x->data, y->data, BSIZE)`. -/
  | memmove (x y : Var)
  /-- The header is copied to `x->data`. -/
  | setHead (x : Var)
  | bwrite (x : Var) (c : Caller)
  | brelse (x : Var)
  /-- `log.lh.n = 0`. -/
  | clear
  /-- The last locked section of `end_op`. -/
  | endOp

/-- `install_trans` from log block `tail` on. -/
def installTrans (start : Nat) : List Nat → Nat → List Stmt
  | [], _ => []
  | b :: bs, tail =>
    [.bread .lbuf (start + tail + 1), .bread .dbuf b, .memmove .dbuf .lbuf, .bwrite .dbuf .installTrans,
      .brelse .lbuf, .brelse .dbuf] ++ installTrans start bs (tail + 1)

/-- `write_log` from log block `tail` on. -/
def writeLog (start : Nat) : List Nat → Nat → List Stmt
  | [], _ => []
  | b :: bs, tail =>
    [.bread .lbuf (start + tail + 1), .bread .dbuf b, .memmove .lbuf .dbuf, .bwrite .lbuf .writeLog,
      .brelse .dbuf, .brelse .lbuf] ++ writeLog start bs (tail + 1)

def writeHead (start : Nat) : List Stmt := [.bread .lbuf start, .setHead .lbuf, .bwrite .lbuf .writeHead, .brelse .lbuf]

def commit (l : Log) : List Stmt :=
  if l.lh.length > 0 then
    writeLog l.start l.lh 0 ++ writeHead l.start ++ installTrans l.start l.lh 0 ++ [.clear] ++ writeHead l.start
  else []

/-- Where a process is in the code of the cache; `k` is the device and the block number it asks for. -/
inductive Stage
  | idle
  /-- In `bget`, in `acquiresleep(&b->lock)`. -/
  | waits (k : Nat × Nat) (i : Fin NBUF)
  /-- `bget` has returned to `bread`. -/
  | got (k : Nat × Nat) (i : Fin NBUF)
  /-- In `iderw`, called by `bread`. -/
  | reads (k : Nat × Nat) (i : Fin NBUF)
  /-- In `iderw`, called by `bwrite`. -/
  | writes (i : Fin NBUF) (c : Caller)
  /-- In `brelse`, after `releasesleep`. -/
  | drops (i : Fin NBUF)
  deriving DecidableEq

structure Client where
  stage : Stage := .idle
  /-- Between `begin_op` and `end_op`. -/
  inOp : Bool := false
  /-- What is left of `commit`. -/
  todo : List Stmt := []
  /-- The buffers that `commit` has read and not released. -/
  var : Var → Option (Fin NBUF) := fun _ => none

/-- What has happened to the block `k`, with its contents `c` at that time. -/
inductive Event (P : Type)
  /-- `bread` has returned to `p`. -/
  | bread (p : P) (k : Nat × Nat) (c : Block)
  | logWrite (p : P) (k : Nat × Nat) (c : Block)
  /-- `p` calls `bwrite`. -/
  | bwrite (p : P) (k : Nat × Nat) (c : Block)
  /-- `bwrite` has returned to `p`. -/
  | wrote (p : P) (k : Nat × Nat) (caller : Caller)
  | brelse (p : P) (k : Nat × Nat)
  /-- `bget` takes the buffer that has the contents of `k` for another block. -/
  | recycle (k : Nat × Nat)

end Bcache

/-- The disk with its queue, the cache, the log and the processes. Nothing reads `hist`, the newest event first. -/
structure Bcache (P : Type) where
  disk : Nat × Nat → Block
  havedisk1 : Bool
  buf : Fin NBUF → Buf P := fun _ => {}
  /-- The linked list of all buffers, from `head.next`, the most recently used, on. -/
  mru : List (Fin NBUF) := (List.finRange NBUF).reverse
  /-- The first request is the active one. -/
  idequeue : List (Fin NBUF) := []
  /-- What `idestart` has sent to the disk, if the active request is a write. -/
  sent : Option Block := none
  log : Log
  client : P → Bcache.Client := fun _ => {}
  /-- The holder has changed the data and has not passed the buffer to `log_write` or `bwrite` since. -/
  changed : Fin NBUF → Bool := fun _ => false
  hist : List (Bcache.Event P) := []

namespace Bcache

inductive Call
  | beginOp
  | bread (k : Nat × Nat)
  /-- The caller changes the data of a buffer it holds. -/
  | modify (i : Fin NBUF) (f : Block → Block)
  | logWrite (i : Fin NBUF)
  | bwrite (i : Fin NBUF)
  | brelse (i : Fin NBUF)
  | endOp

inductive Label (P : Type)
  | call (p : P) (c : Call)
  | step (p : P)
  | ideintr

variable {P : Type} [DecidableEq P]

def key (s : Bcache P) (i : Fin NBUF) : Nat × Nat := ((s.buf i).dev, (s.buf i).blockno)

def setBuf (s : Bcache P) (i : Fin NBUF) (b : Buf P) : Bcache P := { s with buf := Function.update s.buf i b }

def record (s : Bcache P) (e : Event P) : Bcache P := { s with hist := e :: s.hist }

def setClient (s : Bcache P) (p : P) (c : Client) : Bcache P := { s with client := Function.update s.client p c }

def goto (s : Bcache P) (p : P) (x : Stage) : Bcache P := s.setClient p { s.client p with stage := x }

/-- `bget` up to its `acquiresleep`. -/
def bget (s : Bcache P) (p : P) (k : Nat × Nat) : Option (Bcache P) :=
  match s.mru.find? fun i => s.key i = k with
  | some i => some ((s.setBuf i { s.buf i with refcnt := (s.buf i).refcnt + 1 }).goto p (.waits k i))
  | none =>
    -- Not cached; recycle an unused buffer.
    match s.mru.reverse.find? fun i => (s.buf i).refcnt = 0 ∧ (s.buf i).dirty = false with
    | some i =>
      let t := if (s.buf i).valid then s.record (.recycle (s.key i)) else s
      let b := { s.buf i with dev := k.1, blockno := k.2, valid := false, dirty := false, refcnt := 1 }
      some ((t.setBuf i b).goto p (.waits k i))
    | none => none

def idestart (s : Bcache P) (i : Fin NBUF) : Option (Bcache P) :=
  if (s.buf i).blockno ≥ FSSIZE then none
  else some { s with sent := if (s.buf i).dirty then some (s.buf i).data else none }

/-- `iderw` up to its `sleep`. -/
def iderw (s : Bcache P) (p : P) (i : Fin NBUF) : Option (Bcache P) :=
  if (s.buf i).lock ≠ some p then none
  else if (s.buf i).valid ∧ ¬(s.buf i).dirty then none
  else if (s.buf i).dev ≠ 0 ∧ ¬s.havedisk1 then none
  else
    let s := { s with idequeue := s.idequeue ++ [i] }
    if s.idequeue.head? = some i then s.idestart i else some s

/-- The disk when the active request, for buffer `i`, is done. -/
def transferred (s : Bcache P) (i : Fin NBUF) : Nat × Nat → Block :=
  match s.sent with
  | some c => Function.update s.disk (s.key i) c
  | none => s.disk

def ideintr (s : Bcache P) : Option (Bcache P) :=
  match s.idequeue with
  | [] => some s
  | i :: rest =>
    let disk := s.transferred i
    let data := if (s.buf i).dirty then (s.buf i).data else disk (s.key i)
    let s := { s.setBuf i { s.buf i with data := data, valid := true, dirty := false } with
      disk := disk, idequeue := rest, sent := none }
    match rest with
    | [] => some s
    | j :: _ => s.idestart j

/-- What becomes of the caller when `bread` returns `i`. -/
def Client.returned (c : Client) (i : Fin NBUF) : Client :=
  match c.todo with
  | .bread x _ :: rest => { c with stage := .idle, todo := rest, var := Function.update c.var x (some i) }
  | _ => { c with stage := .idle }

def breadReturns (s : Bcache P) (p : P) (k : Nat × Nat) (i : Fin NBUF) : Bcache P :=
  (s.setClient p ((s.client p).returned i)).record (.bread p k (s.buf i).data)

def modify (s : Bcache P) (p : P) (i : Fin NBUF) (f : Block → Block) : Option (Bcache P) :=
  if (s.buf i).lock ≠ some p then none
  else some { s.setBuf i { s.buf i with data := f (s.buf i).data } with changed := Function.update s.changed i true }

def logWrite (s : Bcache P) (p : P) (i : Fin NBUF) : Option (Bcache P) :=
  if (s.buf i).lock ≠ some p then none
  else
    match s.log.logWrite (s.buf i).blockno with
    | .error _ => none
    | .ok l =>
      some { (s.setBuf i { s.buf i with dirty := true }).record (.logWrite p (s.key i) (s.buf i).data) with
        log := l, changed := Function.update s.changed i false }

def bwrite (s : Bcache P) (p : P) (i : Fin NBUF) (c : Caller) : Option (Bcache P) :=
  if (s.buf i).lock ≠ some p then none
  else
    let s := { (s.setBuf i { s.buf i with dirty := true }).record (.bwrite p (s.key i) (s.buf i).data) with
      changed := Function.update s.changed i false }
    (s.goto p (.writes i c)).iderw p i

/-- `brelse` up to its `acquire`. A change is passed to `log_write` or `bwrite` before the buffer is released. -/
def brelse (s : Bcache P) (p : P) (i : Fin NBUF) : Option (Bcache P) :=
  if (s.buf i).lock ≠ some p ∨ s.changed i then none
  else some (((s.setBuf i { s.buf i with lock := none }).record (.brelse p (s.key i))).goto p (.drops i))

/-- The locked section of `brelse`. -/
def drop (s : Bcache P) (p : P) (i : Fin NBUF) : Bcache P :=
  let t := (s.setBuf i { s.buf i with refcnt := (s.buf i).refcnt - 1 }).goto p .idle
  if (s.buf i).refcnt - 1 = 0 then { t with mru := i :: s.mru.erase i } else t

def exec (s : Bcache P) (p : P) (x : Stmt) (rest : List Stmt) : Option (Bcache P) :=
  let c := s.client p
  let t := s.setClient p { c with todo := rest }
  match x with
  -- The statement is done when `bread` returns.
  | .bread _ b => s.bget p (ROOTDEV, b)
  | .memmove x y => do
    let i ← c.var x
    let j ← c.var y
    t.modify p i fun _ => (s.buf j).data
  | .setHead x => do
    let i ← c.var x
    t.modify p i (Store.withHead s.log.lh)
  | .bwrite x caller => do
    let i ← c.var x
    t.bwrite p i caller
  | .brelse x => do
    let i ← c.var x
    (s.setClient p { c with todo := rest, var := Function.update c.var x none }).brelse p i
  | .clear => some { t with log := { s.log with lh := [] } }
  | .endOp => some { t with log := { s.log with committing := false } }

def turn (s : Bcache P) (p : P) : Option (Bcache P) :=
  match (s.client p).stage with
  | .idle =>
    match (s.client p).todo with
    | [] => none
    | x :: rest => s.exec p x rest
  | .waits k i =>
    if (s.buf i).lock = none then some ((s.setBuf i { s.buf i with lock := some p }).goto p (.got k i)) else none
  | .got k i => if (s.buf i).valid then some (s.breadReturns p k i) else (s.goto p (.reads k i)).iderw p i
  | .reads k i => if (s.buf i).valid ∧ ¬(s.buf i).dirty then some (s.breadReturns p k i) else none
  | .writes i c =>
    if (s.buf i).valid ∧ ¬(s.buf i).dirty then some ((s.goto p .idle).record (.wrote p (s.key i) c)) else none
  | .drops i => some (s.drop p i)

def call (s : Bcache P) (p : P) : Call → Option (Bcache P)
  | .beginOp =>
    match (s.client p).inOp, s.log.beginOp with
    | false, .ok l => some { s.setClient p { s.client p with inOp := true } with log := l }
    | _, _ => none
  | .bread k => s.bget p k
  | .modify i f => s.modify p i f
  | .logWrite i => s.logWrite p i
  | .bwrite i => s.bwrite p i .other
  | .brelse i => s.brelse p i
  | .endOp =>
    match (s.client p).inOp, s.log.endOp with
    | true, .ok (l, doCommit) =>
      let todo := if doCommit then commit l ++ [.endOp] else []
      some { s.setClient p { s.client p with inOp := false, todo := todo, var := fun _ => none } with log := l }
    | _, _ => none

def next (s : Bcache P) : Label P → Option (Bcache P)
  | .call p c => if (s.client p).stage = .idle ∧ (s.client p).todo.isEmpty then s.call p c else none
  | .step p => s.turn p
  | .ideintr => s.ideintr

/-- The cache as `binit` leaves it, over the contents `d` of the disk and an empty log, and every interleaving of the
    calls. -/
def machine (P : Type) [DecidableEq P] (d : Nat × Nat → Block) (start size : Nat) : Machine (Bcache P) (Label P) where
  init s := ∃ havedisk1, s = { disk := d, havedisk1 := havedisk1, log := { start := start, size := size } }
  step s l t := s.next l = some t

end Bcache
end Xv6
