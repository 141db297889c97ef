import Xv6.Bio
import Xv6.Log

/-! The disk side of log.c: the commit of a group of operations, a crash at any block write, and the
    recovery at boot. Each turn of a loop of `commit`, with its one block write, is one step; so is each
    `bread`, `log_write`, `brelse`, and each change that a process makes to a buffer it holds. -/

namespace Xv6
namespace Store

variable {P : Type} [DecidableEq P]

/-- One turn of the loop of `install_trans`: log block `tail` is copied to its home `b`. -/
def installTurn (s : Store P) (p : P) (start tail b : Nat) : Except Stop (Store P) := do
  let (lbuf, s) ← s.bread p (start + tail + 1)
  let (dbuf, s) ← s.bread p b
  let s := s.setData dbuf (s.buf lbuf).data
  let s ← s.bwrite p dbuf
  let s ← s.brelse p lbuf
  s.brelse p dbuf

/-- One turn of the loop of `write_log`: the cached block `b` is copied to log block `tail`. -/
def writeLogTurn (s : Store P) (p : P) (start tail b : Nat) : Except Stop (Store P) := do
  let (toBuf, s) ← s.bread p (start + tail + 1)
  let (fromBuf, s) ← s.bread p b
  let s := s.setData toBuf (s.buf fromBuf).data
  let s ← s.bwrite p toBuf
  let s ← s.brelse p fromBuf
  s.brelse p toBuf

/-- `struct logheader` in a block: word 0 is `n`, word `i + 1` is `block[i]`. -/
def headOf (d : Block) : List Nat := (List.range (d 0)).map fun i => d (i + 1)

/-- The block `d` after the header `lh` is stored in it. -/
def withHead (lh : List Nat) (d : Block) : Block := fun w =>
  if w = 0 then lh.length else if w ≤ lh.length then lh.getD (w - 1) 0 else d w

def readHead (s : Store P) (p : P) (start : Nat) : Except Stop (List Nat × Store P) := do
  let (buf, s) ← s.bread p start
  let lh := headOf (s.buf buf).data
  let s ← s.brelse p buf
  .ok (lh, s)

def writeHead (s : Store P) (p : P) (start : Nat) (lh : List Nat) : Except Stop (Store P) := do
  let (buf, s) ← s.bread p start
  let s := s.setData buf (withHead lh (s.buf buf).data)
  let s ← s.bwrite p buf
  s.brelse p buf

/-- `install_trans` from log block `tail` on. -/
def installTrans (p : P) (start : Nat) : List Nat → Nat → Store P → Except Stop (Store P)
  | [], _, s => .ok s
  | b :: bs, tail, s => do
    let s ← s.installTurn p start tail b
    installTrans p start bs (tail + 1) s

/-- `recover_from_log`, by the first process after boot. -/
def recoverFromLog (s : Store P) (p : P) (start : Nat) : Except Stop (Store P) := do
  let (lh, s) ← s.readHead p start
  let s ← installTrans p start lh 0 s
  s.writeHead p start []

/-- The disk after the first `k` of the block writes `ws`. -/
def written (d : Nat → Block) (ws : List (Nat × Block)) : Nat → Block :=
  ws.foldl (fun d w => Function.update d w.1 w.2) d

/-- Boot, recovery and crash, once for each number in `ks`: recovery gets as far as so many block writes. -/
def crashes (p : P) (start : Nat) : List Nat → (Nat → Block) → Except Stop (Nat → Block)
  | [], d => .ok d
  | k :: ks, d => do
    let s ← recoverFromLog ({ disk := d } : Store P) p start
    crashes p start ks (written d (s.writes.take k))

/-- Boot after a crash that left the disk `d`, where recovery itself is interrupted as `ks` says before it
    comes through. -/
def reboot (p : P) (start : Nat) (ks : List Nat) (d : Nat → Block) : Except Stop (Store P) := do
  let d ← crashes p start ks d
  recoverFromLog { disk := d } p start

end Store

structure Mod where
  op : Nat
  blockno : Nat
  change : Block → Block

def Mod.apply (d : Nat → Block) (ms : List Mod) : Nat → Block :=
  ms.foldl (fun d m => Function.update d m.blockno (m.change (d m.blockno))) d

inductive CommitPc
  | writeLog (tail : Nat)
  | writeHead
  | installTrans (tail : Nat)
  | clear
  | done
  deriving DecidableEq

/-- The log, the cache and the disk, with the history of the operations. -/
structure Journal (P : Type) where
  store : Store P
  ops : Ops P
  committer : Option (P × CommitPc) := none
  unlogged : P → List (Fin NBUF) := fun _ => []
  number : P → Nat := fun _ => 0
  nextop : Nat := 0
  /-- The contents of the blocks at the start. -/
  base : Nat → Block
  /-- The changes of the groups whose non-empty header has reached the disk, in order. -/
  groups : List (List Mod) := []
  /-- The changes since. -/
  current : List Mod := []

namespace Journal

variable {P : Type} [DecidableEq P]

inductive Act (P : Type)
  | beginOp (p : P)
  /-- Any process may read, within an operation or not. -/
  | bread (p : P) (n : Nat)
  /-- The process changes the data of a buffer it holds. -/
  | modify (p : P) (i : Fin NBUF) (f : Block → Block)
  | logWrite (p : P) (i : Fin NBUF)
  | brelse (p : P) (i : Fin NBUF)
  | endOp (p : P)
  | commit
  /-- The machine stops here, and `p` recovers the log at the next boot. -/
  | crash (p : P) (ks : List Nat)

def start (s : Journal P) : Nat := s.ops.log.start

def Home (s : Journal P) (n : Nat) : Prop := n < s.ops.log.start ∨ s.ops.log.start + s.ops.log.size ≤ n

def commitStep (s : Journal P) (p : P) : CommitPc → Except Stop (Journal P)
  | .writeLog tail => do
    let t ← s.store.writeLogTurn p s.start tail (s.ops.log.lh.getD tail 0)
    let pc := if tail + 1 < s.ops.log.lh.length then .writeLog (tail + 1) else .writeHead
    .ok { s with store := t, committer := some (p, pc) }
  | .writeHead => do
    let t ← s.store.writeHead p s.start s.ops.log.lh
    -- The real commit.
    .ok { s with store := t, committer := some (p, .installTrans 0), groups := s.groups ++ [s.current], current := [] }
  | .installTrans tail => do
    let t ← s.store.installTurn p s.start tail (s.ops.log.lh.getD tail 0)
    let pc := if tail + 1 < s.ops.log.lh.length then .installTrans (tail + 1) else .clear
    .ok { s with store := t, committer := some (p, pc) }
  | .clear => do
    let t ← s.store.writeHead p s.start []
    .ok { s with store := t, committer := some (p, .done) }
  | .done => do
    let o ← s.ops.step .endCommit
    .ok { s with ops := o, committer := none }

def step (s : Journal P) : Act P → Except Stop (Journal P)
  | .beginOp p => do
    let o ← s.ops.step (.beginOp p)
    .ok { s with ops := o, number := Function.update s.number p s.nextop, nextop := s.nextop + 1 }
  | .bread p n => do
    let (_, t) ← s.store.bread p n
    .ok { s with store := t }
  | .modify p i f =>
    if (s.ops.passed p).isSome ∧ (s.store.buf i).lock = some p then
      let m : Mod := { op := s.number p, blockno := (s.store.buf i).blockno, change := f }
      .ok { s with
        store := s.store.setData i (f (s.store.buf i).data),
        unlogged := Function.update s.unlogged p (i :: s.unlogged p), current := s.current ++ [m] }
    else .error .blocked
  | .logWrite p i =>
    if (s.store.buf i).lock = some p then do
      let o ← s.ops.step (.logWrite p (s.store.buf i).blockno)
      .ok { s with
        ops := o, store := s.store.setBuf i { s.store.buf i with dirty := true },
        unlogged := Function.update s.unlogged p ((s.unlogged p).filter (· ≠ i)) }
    else .error .blocked
  | .brelse p i =>
    -- Each change is passed to `log_write` before the buffer is released.
    if i ∈ s.unlogged p then .error .blocked
    else do
      let t ← s.store.brelse p i
      .ok { s with store := t }
  | .endOp p =>
    if s.unlogged p ≠ [] then .error .blocked
    else do
      let o ← s.ops.step (.endOp p)
      let pc := if o.log.lh.length > 0 then .writeLog 0 else .done
      .ok { s with ops := o, committer := if o.log.committing then some (p, pc) else none }
  | .commit =>
    match s.committer with
    | none => .error .blocked
    | some (p, pc) => s.commitStep p pc
  | .crash p ks => do
    let t ← Store.reboot p s.start ks s.store.disk
    .ok { s with
      store := t, ops := { log := { start := s.ops.log.start, size := s.ops.log.size } }, committer := none,
      unlogged := fun _ => [], current := [] }

def machine (P : Type) [DecidableEq P] (start size : Nat) : Machine (Journal P) (Act P) where
  init s := ∃ d p t, d start 0 = 0 ∧ Store.recoverFromLog { disk := d } p start = .ok t ∧
    s = { store := t, ops := { log := { start := start, size := size } }, base := d }
  step s a t := s.step a = .ok t

end Journal
end Xv6
