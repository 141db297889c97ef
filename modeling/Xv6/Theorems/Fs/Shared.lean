import Xv6.Lib.Mutex
import Xv6.Theorems.Fs.Reuse

/-! Processes that write to one open file: each `filewrite` takes the file's offset, writes there and advances it
    under the inode's lock, so the buffers follow one another in the order of the locks. -/

namespace Xv6
open Function List Option

theorem Dinode.content_append {ip ip' : Dinode} {data data' : Nat → Nat → UInt8} {n : Nat} {src : List UInt8}
    (hmax : n + src.length ≤ MAXFILE * BSIZE) (hbyte : ∀ i < MAXFILE * BSIZE, ip'.byteAt data' i =
      if n ≤ i ∧ i < n + src.length then src.getD (i - n) 0 else ip.byteAt data i) :
    ip'.content data' 0 (n + src.length) = ip.content data 0 n ++ src := by
  have h := content_write le_rfl (by omega) hbyte
  rw [Nat.max_eq_right (Nat.le_add_right ..), take_of_length_le (by simp), drop_eq_nil_of_le (by simp),
    append_nil] at h
  exact h

/-- Where a process is in a `write` of at most one chunk. -/
inductive WriteStage
  | call
  /-- In `filewrite`, before it looks at the file. -/
  | file
  | lock
  | off
  /-- In `writei` at offset `o`, before it looks at the type of the inode. -/
  | type (o : Nat)
  | write (o : Nat)
  /-- After `writei`, which returned `r`. -/
  | advance (r : Option Nat)
  | unlock (r : Option Nat)
  | ret (v : Int)

namespace WriteStage

def locked : WriteStage → Bool
  | .off | .type _ | .write _ | .advance _ | .unlock _ => true
  | .call | .file | .lock | .ret _ => false

def ahead : WriteStage → Bool
  | .call | .file | .lock => true
  | _ => false

variable {P : Type} [DecidableEq P] (sb : Superblock) (f : Fin NFILE) (i : Fin NINODE) (p : P) (fd : Fin NOFILE)
  (src : List UInt8)

def value (b : Bool) : FsProg P Int := if b then pure src.length else pure (-1)

def unlocking (r : Option Nat) : FsProg P Int := Sys.iunlock p i >>= fun _ =>
  (match r with
  | none => pure false
  | some r =>
    if r ≠ (src.take Sys.maxWrite).length then Sys.panic "short filewrite"
    else Sys.writeFrom sb p f i (src.length - 1) (src.drop r)) >>= value src

def advancing (r : Option Nat) : FsProg P Int :=
  (.op fun s => s.advance f (r.getD 0)) >>= fun _ => unlocking sb f i p src r

def writing (o : Nat) : FsProg P Int := Sys.writei sb p i o (src.take Sys.maxWrite) >>= advancing sb f i p src

def prog : WriteStage → FsProg P Int
  | .call => Sys.write sb p fd src
  | .file => Sys.file f >>= fun e =>
      if e.writable = false then pure (-1)
      else if e.type = .inode then Sys.writeFrom sb p f e.ip src.length src >>= value src
      else Sys.panic "filewrite"
  | .lock => Sys.ilock p i >>= fun _ => Sys.file f >>= fun e => writing sb f i p src e.off
  | .off => Sys.file f >>= fun e => writing sb f i p src e.off
  | .type o => writing sb f i p src o
  | .write o => (.op fun s => s.writei sb i o (src.take Sys.maxWrite)) >>= advancing sb f i p src
  | .advance r => advancing sb f i p src r
  | .unlock r => unlocking sb f i p src r
  | .ret v => pure v

/-- What a process does at each stage, if the file is open for writing on an inode that is no device, and the buffer
    is one chunk. -/
inductive Moves : Fs P → WriteStage → Fs P → Option WriteStage → Prop
  | call {s} : Moves s .call s (some .file)
  | skip {s} (h : src = []) : Moves s .file s (some (.ret 0))
  | file {s} (h : src ≠ []) : Moves s .file s (some .lock)
  | lock {s t} (h : s.ilock p i = .ok ((), t)) : Moves s .lock t (some .off)
  | off {s} : Moves s .off s (some (.type (s.ftable f).off))
  | type {s o} : Moves s (.type o) s (some (.write o))
  | write {s t o r} (h : s.writei sb i o src = .ok (r, t)) : Moves s (.write o) t (some (.advance r))
  | advance {s t r} (h : s.advance f (r.getD 0) = .ok ((), t)) : Moves s (.advance r) t (some (.unlock r))
  | unlock {s t} (h : s.iunlock p i = .ok ((), t)) :
      Moves s (.unlock (some src.length)) t (some (.ret src.length))
  | ret {s v} : Moves s (.ret v) s none

variable {sb f i p fd src} {w w' : Fs.Calls P} {st : WriteStage}

structure Plain (f : Fin NFILE) (i : Fin NINODE) (p : P) (fd : Fin NOFILE) (src : List UInt8)
    (st : WriteStage) (s : Fs P) : Prop where
  fd : (s.proc p).ofile fd = some f
  file : (s.ftable f).writable = true ∧ (s.ftable f).type = .inode ∧ (s.ftable f).ip = i
  chunk : src.length ≤ Sys.maxWrite
  nonempty : st.locked = true → src ≠ []
  copy : ∀ o, st = .type o → (s.icache i).d.type ≠ .dev
  result : ∀ r, st = .unlock r → r = some src.length

theorem writeFrom_nil {n : Nat} : Sys.writeFrom sb p f i n [] = (pure true : FsProg P Bool) := by
  cases n <;> rfl

theorem moves (h : Plain f i p fd src st w.state) (hp : w.prog p = some (st.prog sb f i p fd src))
    (hn : w.next (syscall sb) Fs.live (.step p) = some w') : ∃ t st', Moves sb f i p src w.state st t st' ∧
      w' = ⟨t, update w.prog p (st'.map (WriteStage.prog sb f i p fd src))⟩ := by
  have htake : src.take Sys.maxWrite = src := take_of_length_le h.chunk
  cases st with
  | call =>
    obtain ⟨b, t, hf, rfl⟩ := Pool.next_op hp hn
    cases hf
    refine ⟨_, _, .call, ?_⟩
    rw [h.fd]
    rfl
  | file =>
    obtain ⟨b, t, hf, rfl⟩ := Pool.next_op hp hn
    cases hf
    obtain ⟨hw, ht, rfl⟩ := h.file
    by_cases hnil : src = []
    · refine ⟨_, _, .skip hnil, ?_⟩
      rw [if_neg (by simp [hw]), if_pos ht, hnil]
      rfl
    · refine ⟨_, _, .file hnil, ?_⟩
      obtain ⟨n, hlen⟩ := Nat.exists_eq_succ_of_ne_zero (mt length_eq_zero_iff.mp hnil)
      rw [if_neg (by simp [hw]), if_pos ht, hlen, Sys.writeFrom, if_neg (by simp [hlen])]
      obtain rfl : n = src.length - 1 := by omega
      simp only [Prog.bind_assoc]
      rfl
  | lock =>
    obtain ⟨b, t, hf, rfl⟩ := Pool.next_op hp hn
    exact ⟨t, _, .lock hf, rfl⟩
  | off =>
    obtain ⟨b, t, hf, rfl⟩ := Pool.next_op hp hn
    cases hf
    exact ⟨_, _, .off, rfl⟩
  | type o =>
    have hp : w.prog p = some
      (Sys.inode i >>= fun ip => (if ip.type = .dev then _ else _) >>= advancing sb f i p src) := hp
    obtain ⟨b, t, hf, rfl⟩ := Pool.next_op hp hn
    cases hf
    refine ⟨_, _, .type, ?_⟩
    rw [if_neg (h.copy o rfl)]
    rfl
  | write o =>
    obtain ⟨r, t, hf, rfl⟩ := Pool.next_op hp hn
    rw [htake] at hf
    exact ⟨t, _, .write hf, rfl⟩
  | advance r =>
    obtain ⟨b, t, hf, rfl⟩ := Pool.next_op hp hn
    exact ⟨t, _, .advance hf, rfl⟩
  | unlock r =>
    obtain ⟨b, t, hf, rfl⟩ := Pool.next_op hp hn
    rw [h.result r rfl]
    refine ⟨t, _, .unlock hf, ?_⟩
    rw [htake]
    simp only [ne_eq, not_true, if_false, drop_length, writeFrom_nil]
    rfl
  | ret v => exact ⟨_, none, .ret, Pool.next_ret hp hn⟩

end WriteStage

def Fs.inodeOf {P : Type} (s : Fs P) (f : Fin NFILE) : Dinode := s.disk.dinode (s.icache (s.ftable f).ip).inum

def Fs.contentOf {P : Type} (s : Fs P) (f : Fin NFILE) : List UInt8 :=
  (s.inodeOf f).content s.disk.data 0 (s.inodeOf f).size

/-- Processes that write to one open file, and the history of their calls. -/
structure SharedFd (P : Type) where
  calls : Fs.Calls P
  src : P → List UInt8
  started : List (P × List UInt8)
  /-- The calls in the order in which they got the inode's lock. -/
  order : List (P × List UInt8)

namespace SharedFd
open Fs

variable {P : Type}

def bytes (l : List (P × List UInt8)) : List UInt8 := l.flatMap (·.2)

def next [DecidableEq P] (sb : Superblock) (f : Fin NFILE) (s : SharedFd P) :
    Pool.Label P (Fin NOFILE × List UInt8) → Option (SharedFd P)
  | .start p (fd, b) =>
    if (s.calls.state.proc p).ofile fd = some f ∧ b.length ≤ Sys.maxWrite then
      (s.calls.next (syscall sb) live (.start p (.write fd b))).map fun w =>
        { s with calls := w, src := update s.src p b, started := s.started ++ [(p, b)] }
    else none
  | .step p =>
    (s.calls.next (syscall sb) live (.step p)).map fun w =>
      let i := (s.calls.state.ftable f).ip
      { s with
        calls := w
        order :=
          if (s.calls.state.icache i).lock = none ∧ (w.state.icache i).lock = some p then s.order ++ [(p, s.src p)]
          else s.order }

/-- File `f` is open for writing on a regular file, at its end, and no call is running. -/
structure Opened [DecidableEq P] (sb : Superblock) (f : Fin NFILE) (w : Calls P) : Prop where
  reach : (pool P sb).Reach w
  idle : ∀ p, w.prog p = none
  inode : (w.state.ftable f).type = .inode
  writable : (w.state.ftable f).writable = true
  file : (w.state.inodeOf f).type = .file
  off : (w.state.ftable f).off = (w.state.inodeOf f).size

/-- Every interleaving of such calls, from `w`, as long as the file stays within its maximum size. -/
def machine [DecidableEq P] (sb : Superblock) (f : Fin NFILE) (w : Calls P) :
    Machine (SharedFd P) (Pool.Label P (Fin NOFILE × List UInt8)) where
  init s := s = ⟨w, fun _ => [], [], []⟩
  step s l t := s.next sb f l = some t ∧ (w.state.contentOf f).length + (bytes t.started).length ≤ MAXFILE * BSIZE

structure Settled (f : Fin NFILE) (c : List UInt8) (l : List (P × List UInt8)) (s : Fs P) : Prop where
  content : s.contentOf f = c ++ bytes l
  off : (s.ftable f).off = (s.inodeOf f).size

def Knows (f : Fin NFILE) (c : List UInt8) (l : List (P × List UInt8)) (s : Fs P) (p : P) (b : List UInt8) :
    WriteStage → Prop
  | .off => ∃ k, l = k ++ [(p, b)] ∧ Settled f c k s
  | .type o | .write o => (∃ k, l = k ++ [(p, b)] ∧ Settled f c k s) ∧ o = (s.ftable f).off
  | .advance r => r = some b.length ∧ s.contentOf f = c ++ bytes l ∧ (s.ftable f).off + b.length = (s.inodeOf f).size
  | .unlock r => r = some b.length ∧ Settled f c l s
  | .call | .file | .lock | .ret _ => True

theorem knows_of_not_locked {f : Fin NFILE} {c : List UInt8} {l : List (P × List UInt8)} {s : Fs P} {p : P}
    {b : List UInt8} {st : WriteStage} (h : st.locked = false) : Knows f c l s p b st := by
  cases st <;> trivial

variable {sb : Superblock} {f : Fin NFILE} {w : Calls P} {s t : SharedFd P} {stage : P → Option WriteStage}
  {fd : P → Fin NOFILE} {p : P} {st : WriteStage}

def pending (src : P → List UInt8) (stage : P → Option WriteStage) (p : P) : List (P × List UInt8) :=
  if (stage p).any WriteStage.ahead ∧ src p ≠ [] then [(p, src p)] else []

theorem pending_of_stage {src : P → List UInt8} (hp : stage p = some st) :
    pending src stage p = if st.ahead = true ∧ src p ≠ [] then [(p, src p)] else [] := by
  rw [pending, hp]
  rfl

theorem ilock_of_free {u : Fs P} {i : Fin NINODE} (p : P) (hpos : 0 < (u.icache i).ref)
    (hfree : (u.icache i).lock = none) (htype : u.typeOf i ≠ .free) : ∃ v, u.ilock p i = .ok ((), v) := by
  have htype : (u.disk.dinode (u.icache i).inum).type ≠ .free := htype
  simp only [Fs.ilock, if_neg (show ¬(u.icache i).ref < 1 by omega), hfree, isSome_none, Bool.false_eq_true, if_false,
    if_neg htype]
  split
  · exact ⟨_, rfl⟩
  · exact ⟨_, rfl⟩

theorem size_inodeOf_le [Fintype P] {u : Fs P} (h : InvIf False sb u) (hf : (u.inodeOf f).type = .file) :
    (u.inodeOf f).size ≤ MAXFILE * BSIZE := by
  have hblocks : (u.inodeOf f).type.hasBlocks := by
    rw [hf]
    exact .inr rfl
  exact h.disk.size_le _ hblocks

variable [DecidableEq P]

structure Inv (sb : Superblock) (f : Fin NFILE) (w : Calls P) (fd : P → Fin NOFILE) (stage : P → Option WriteStage)
    (s : SharedFd P) : Prop where
  reach : (pool P sb).Reach s.calls
  prog : ∀ p, s.calls.prog p = (stage p).map (WriteStage.prog sb f (w.state.ftable f).ip p (fd p) (s.src p))
  ofile : ∀ p, stage p ≠ none → (s.calls.state.proc p).ofile (fd p) = some f
  file : (s.calls.state.ftable f).writable = true ∧ (s.calls.state.ftable f).type = .inode ∧
    (s.calls.state.ftable f).ip = (w.state.ftable f).ip
  type : (s.calls.state.inodeOf f).type = .file
  chunk : ∀ p, stage p ≠ none → (s.src p).length ≤ Sys.maxWrite
  nonempty : ∀ p st, stage p = some st → st.locked = true ∨ st = .lock → s.src p ≠ []
  lock : Mutex (s.calls.state.icache (w.state.ftable f).ip).lock fun p => (stage p).any WriteStage.locked
  knows : ∀ p st, stage p = some st → Knows f (w.state.contentOf f) s.order s.calls.state p (s.src p) st
  free : (s.calls.state.icache (w.state.ftable f).ip).lock = none →
    Settled f (w.state.contentOf f) s.order s.calls.state
  /-- The calls of each process that have got the lock, and the one that is waiting for it, are those it started. -/
  history : ∀ p, s.order.filter (fun x => x.1 = p) ++ pending s.src stage p =
    s.started.filter fun x => x.1 = p ∧ x.2 ≠ []
  room : (w.state.contentOf f).length + (bytes s.started).length ≤ MAXFILE * BSIZE

abbrev holds (o : Option WriteStage) : Bool := o.any WriteStage.locked

theorem Inv.moved (h : Inv sb f w fd stage s) {p : P} {u : Fs P} {o : Option WriteStage} {l : List (P × List UInt8)}
    (hp : stage p ≠ none) (hreach : (pool P sb).Reach ⟨u, update s.calls.prog p
      (o.map (WriteStage.prog sb f (w.state.ftable f).ip p (fd p) (s.src p)))⟩) (hproc : u.proc = s.calls.state.proc)
    (hfile : (s.calls.state.ftable f).Same (u.ftable f)) (htype : (u.inodeOf f).type = .file)
    (hne : ∀ st, o = some st → st.locked = true ∨ st = .lock → s.src p ≠ [])
    (hfreed : holds o = true → holds (stage p) = true ∨ (s.calls.state.icache (w.state.ftable f).ip).lock = none)
    (hlock : (u.icache (w.state.ftable f).ip).lock =
      if holds o = holds (stage p) then (s.calls.state.icache (w.state.ftable f).ip).lock
      else if holds o then some p else none)
      (hknows : ∀ st, o = some st → Knows f (w.state.contentOf f) l u p (s.src p) st)
    (hothers : u = s.calls.state ∧ l = s.order ∨ holds (stage p) = true ∨
      (s.calls.state.icache (w.state.ftable f).ip).lock = none)
    (hfree : (u.icache (w.state.ftable f).ip).lock = none → Settled f (w.state.contentOf f) l u)
    (hl : l = s.order ∨ l = s.order ++ [(p, s.src p)])
    (hhist : l.filter (fun x => x.1 = p) ++ pending s.src (update stage p o) p =
      s.order.filter (fun x => x.1 = p) ++ pending s.src stage p) : Inv sb f w fd (update stage p o) { s with
      calls := ⟨u,
        update s.calls.prog p (o.map (WriteStage.prog sb f (w.state.ftable f).ip p (fd p) (s.src p)))⟩
      order := l } := by
  have hstage : ∀ q, q ≠ p → update stage p o q = stage q := fun q hq => update_of_ne hq _ _
  have hself : update stage p o p = o := update_self _ _ _
  obtain ⟨hw, ht, hip⟩ := h.file
  have hlocked : ∀ q, q ≠ p → update stage p o q ≠ none → stage q ≠ none := fun q hq => by
    rw [hstage q hq]; exact id
  refine ⟨hreach, fun q => ?_, fun q hq => ?_, ⟨hfile.writable.trans hw, hfile.type.trans ht, hfile.ip.trans hip⟩,
    htype, fun q hq => ?_, fun q st hq => ?_, ?_, fun q st hq => ?_, hfree, fun q => ?_, h.room⟩
  · by_cases hqp : q = p
    · subst hqp
      simp
    · simp only [update_of_ne hqp]
      exact h.prog q
  · rw [hproc]
    by_cases hqp : q = p
    · exact hqp ▸ h.ofile p hp
    · exact h.ofile q (hlocked q hqp hq)
  · by_cases hqp : q = p
    · exact hqp ▸ h.chunk p hp
    · exact h.chunk q (hlocked q hqp hq)
  · by_cases hqp : q = p
    · subst hqp
      exact hne st (hself.symm.trans hq)
    · exact h.nonempty q st ((hstage q hqp).symm.trans hq)
  · refine h.lock.step p (fun q hq => by rw [hstage q hq]) ?_ ?_
    · rw [hself]
      exact hfreed
    · rw [hself]
      exact hlock
  · by_cases hqp : q = p
    · subst hqp
      exact hknows st (hself.symm.trans hq)
    · have hst := (hstage q hqp).symm.trans hq
      rcases hothers with ⟨rfl, rfl⟩ | hout
      · exact h.knows q st hst
      · have := h.lock.others hout hqp
        rw [hst] at this
        exact knows_of_not_locked this
  · by_cases hqp : q = p
    · rw [hqp, hhist]
      exact h.history p
    · rw [← h.history q]
      have hpend : pending s.src (update stage p o) q = pending s.src stage q := by
        unfold pending
        rw [hstage q hqp]
      rw [hpend]
      rcases hl with rfl | rfl
      · rfl
      · rw [filter_append, filter_cons_of_neg (by simpa using Ne.symm hqp), filter_nil, append_nil]

theorem length_bytes_le {l m : List (P × List UInt8)}
    (h : ∀ p, l.filter (fun x => x.1 = p) <+: m.filter fun x => x.1 = p ∧ x.2 ≠ []) :
    (bytes l).length ≤ (bytes m).length := by
  have hsub : l.Subperm m := subperm_ext_iff.mpr fun x _ => by
    rw [← count_filter (p := fun y : P × List UInt8 => y.1 = x.1) (by simp)]
    refine ((h x.1).sublist.trans ?_).count_le x
    exact filter_sublist
  obtain ⟨k, hperm, hsub⟩ := hsub
  rw [bytes, bytes, length_flatMap, length_flatMap, ← (hperm.map _).sum_eq]
  exact (hsub.map _).sum_le_sum fun _ _ => Nat.zero_le _

theorem Inv.length_order (h : Inv sb f w fd stage s) : (bytes s.order).length ≤ (bytes s.started).length :=
  length_bytes_le fun p => h.history p ▸ prefix_append _ _

theorem Inv.locked (h : Inv sb f w fd stage s) {p : P} {st : WriteStage} (hp : stage p = some st)
    (hl : st.locked = true) : (s.calls.state.icache (w.state.ftable f).ip).lock = some p :=
  (h.lock p).mpr (by simp [hp, hl])

theorem Inv.inodeOf (h : Inv sb f w fd stage s) : s.calls.state.inodeOf f =
    s.calls.state.disk.dinode (s.calls.state.icache (w.state.ftable f).ip).inum := by
  rw [Fs.inodeOf, h.file.2.2]

theorem Inv.entry (h : Inv sb f w fd stage s) {u : Fs P} {e : Inode P} {l : List (Fin NINODE)}
    (hset : EntrySet p (w.state.ftable f).ip e l s.calls.state u)
    (hinum : e.inum = (s.calls.state.icache (w.state.ftable f).ip).inum) :
    u.inodeOf f = s.calls.state.inodeOf f ∧ ∀ {c k}, Settled f c k s.calls.state → Settled f c k u := by
  have hinode : u.inodeOf f = s.calls.state.inodeOf f := by
    rw [h.inodeOf, Fs.inodeOf, hset.ftable, hset.disk, h.file.2.2, hset.entry, hinum]
  refine ⟨hinode, fun {c k} hsettled => ⟨?_, ?_⟩⟩
  · rw [Fs.contentOf, hinode, hset.disk]
    exact hsettled.content
  · rw [hset.ftable, hinode]
    exact hsettled.off

theorem pending_update {src : P → List UInt8} {o : Option WriteStage} :
    pending src (update stage p o) p = if o.any WriteStage.ahead ∧ src p ≠ [] then [(p, src p)] else [] := by
  rw [pending, update_self]

theorem Inv.quiet (h : Inv sb f w fd stage s) {o : Option WriteStage} (hp : stage p = some st)
    (hreach : (pool P sb).Reach ⟨s.calls.state, update s.calls.prog p
      (o.map (WriteStage.prog sb f (w.state.ftable f).ip p (fd p) (s.src p)))⟩)
    (hholds : holds o = st.locked) (hne : o = some .lock → s.src p ≠ [])
    (hahead : o.any WriteStage.ahead = st.ahead ∨ s.src p = [])
    (hknows : ∀ x, o = some x → Knows f (w.state.contentOf f) s.order s.calls.state p (s.src p) x) :
    Inv sb f w fd (update stage p o) { s with
      calls := ⟨s.calls.state, update s.calls.prog p
        (o.map (WriteStage.prog sb f (w.state.ftable f).ip p (fd p) (s.src p)))⟩ } := by
  have hst : holds (stage p) = st.locked := by rw [hp]; rfl
  refine h.moved (by simp [hp]) hreach rfl (.refl _) h.type (fun x hx hl => ?_) (fun ho => .inl ?_) ?_ hknows
    (.inl ⟨rfl, rfl⟩) h.free (.inl rfl) ?_
  · rcases hl with hl | rfl
    · refine h.nonempty p st hp (.inl ?_)
      rw [← hholds, hx]
      exact hl
    · exact hne hx
  · rw [hst, ← hholds]
    exact ho
  · rw [if_pos (hholds.trans hst.symm)]
  · rw [pending_update, pending_of_stage hp]
    rcases hahead with hahead | hnil
    · rw [hahead]
    · simp [hnil]

theorem Inv.start (h : Inv sb f w fd stage s) {d : Fin NOFILE} {b : List UInt8}
    (hs : s.next sb f (.start p (d, b)) = some t)
    (hroom : (w.state.contentOf f).length + (bytes t.started).length ≤ MAXFILE * BSIZE) :
    Inv sb f w (update fd p d) (update stage p (some .call)) t := by
  simp only [next, ite_none_right_eq_some, map_eq_some_iff] at hs
  obtain ⟨⟨hd, hb⟩, v, hv, rfl⟩ := hs
  have hreach : (pool P sb).Reach v := h.reach.step hv
  have hidle : stage p = none := by
    have := h.prog p
    cases hp : stage p with
    | none => rfl
    | some st =>
      rw [hp] at this
      simp [Pool.next, this] at hv
  have hnone : s.calls.prog p = none := by rw [h.prog p, hidle]; rfl
  obtain rfl : v = { s.calls with prog := update s.calls.prog p (some (syscall sb p (.write d b))) } := by
    simp only [Pool.next, hnone, ite_none_right_eq_some, Option.some.injEq] at hv
    exact hv.2.symm
  have hstage : ∀ q, q ≠ p → update stage p (some .call) q = stage q := fun q hq => update_of_ne hq _ _
  refine ⟨hreach, fun q => ?_, fun q hq => ?_, h.file, h.type, fun q hq => ?_, fun q st hq hl => ?_, ?_,
    fun q st hq => ?_, h.free, fun q => ?_, hroom⟩
  · by_cases hqp : q = p
    · subst hqp
      simp only [update_self]
      rfl
    · simp only [update_of_ne hqp]
      exact h.prog q
  · by_cases hqp : q = p
    · subst hqp
      rwa [update_self]
    · rw [update_of_ne hqp]
      exact h.ofile q (hstage q hqp ▸ hq)
  · by_cases hqp : q = p
    · subst hqp
      simpa using hb
    · simp only [update_of_ne hqp]
      exact h.chunk q (hstage q hqp ▸ hq)
  · by_cases hqp : q = p
    · subst hqp
      rw [update_self] at hq
      cases hq
      simp [WriteStage.locked] at hl
    · simp only [update_of_ne hqp]
      exact h.nonempty q st (hstage q hqp ▸ hq) hl
  · refine h.lock.step p (fun q hq => by rw [hstage q hq]) (by simp [WriteStage.locked]) ?_
    simp [WriteStage.locked, hidle]
  · by_cases hqp : q = p
    · subst hqp
      rw [update_self] at hq
      cases hq
      trivial
    · simp only [update_of_ne hqp]
      exact h.knows q st (hstage q hqp ▸ hq)
  · dsimp only
    rw [filter_append, ← h.history q]
    by_cases hqp : q = p
    · subst hqp
      rw [pending_update, update_self, pending, hidle]
      by_cases hnil : b = []
      · simp [hnil, WriteStage.ahead]
      · simp [hnil, WriteStage.ahead]
    · rw [filter_cons_of_neg (by simp [Ne.symm hqp]), filter_nil, append_nil]
      unfold pending
      rw [hstage q hqp, update_of_ne hqp]

section
variable [Fintype P]

section

variable (h : Inv sb f w fd stage s)
include h

theorem Inv.fs : InvIf False sb s.calls.state := (wild_good h.reach).inv.core

theorem Inv.plain {p : P} {st : WriteStage} (hp : stage p = some st) :
    WriteStage.Plain f (w.state.ftable f).ip p (fd p) (s.src p) st s.calls.state := by
  have hsome : stage p ≠ none := by simp [hp]
  refine ⟨h.ofile p hsome, h.file, h.chunk p hsome, fun hl => h.nonempty p st hp (.inl hl), fun o ho => ?_,
    fun r hr => ?_⟩
  · subst ho
    rw [(h.fs.copy_of_lock (h.locked hp rfl)).1, ← h.inodeOf, h.type]
    simp
  · subst hr
    exact (h.knows p _ hp).1

theorem Inv.write {p : P} {o : Nat} {r : Option Nat} {u : Fs P} (hp : stage p = some (.write o))
    (hw : s.calls.state.writei sb (w.state.ftable f).ip o (s.src p) = .ok (r, u)) :
    (u.proc = s.calls.state.proc ∧ u.ftable = s.calls.state.ftable ∧ (u.inodeOf f).type = .file ∧
      (u.icache (w.state.ftable f).ip).lock = (s.calls.state.icache (w.state.ftable f).ip).lock) ∧
      Knows f (w.state.contentOf f) s.order u p (s.src p) (.advance r) := by
  obtain ⟨⟨k, hk, hset⟩, rfl⟩ := h.knows p _ hp
  have hchunk := h.chunk p (by simp [hp])
  have hblocks : (s.calls.state.typeOf (w.state.ftable f).ip).hasBlocks := by
    rw [Fs.typeOf, ← h.inodeOf, h.type]
    exact .inr rfl
  -- The file with the buffer has its place below the maximum size.
  have hsize : (s.calls.state.inodeOf f).size + (s.src p).length ≤ MAXFILE * BSIZE := by
    have hlen := congrArg length hset.content
    have horder := h.length_order
    have hroom := h.room
    rw [hk, bytes, flatMap_append, length_append] at horder
    simp only [Fs.contentOf, Dinode.content_length, length_append, flatMap_cons, flatMap_nil,
      append_nil] at hlen horder hroom
    change _ = _ + (flatMap (·.2) k).length at hlen
    omega
  obtain ⟨d, rfl, hkept, hres⟩ := writei_inv h.fs (h.locked hp rfl) hblocks
    (hchunk.trans_lt (by decide)) hw
  have hinode : ∀ ip, (s.calls.state.setCopy (w.state.ftable f).ip ip d).inodeOf f =
      d.dinode (s.calls.state.icache (w.state.ftable f).ip).inum := fun ip => by
    unfold Fs.inodeOf
    rw [setCopy_icache]
    change d.dinode (s.calls.state.icache (s.calls.state.ftable f).ip).inum = _
    rw [h.file.2.2]
  refine ⟨⟨rfl, rfl, ?_, by rw [setCopy_icache]⟩, ?_⟩
  · rw [hinode, hkept.fields, ← h.inodeOf, h.type]
  · rw [← h.inodeOf] at hres
    rcases hres with ⟨-, -, hbad⟩ | ⟨rfl, -, hgrown, hbyte⟩
    · have := hset.off
      omega
    · rw [hset.off] at hgrown hbyte
      refine ⟨rfl, ?_, ?_⟩
      · rw [Fs.contentOf, hinode, hgrown, Nat.max_eq_right (by omega)]
        refine (Dinode.content_append hsize hbyte).trans ?_
        rw [hk, bytes, flatMap_append, ← append_assoc]
        change s.calls.state.contentOf f ++ _ = _
        rw [hset.content]
        simp [bytes]
      · rw [hinode, hgrown, Nat.max_eq_right (by omega), ← hset.off]
        rfl

end

theorem Inv.step (h : Inv sb f w fd stage s) (hs : s.next sb f (.step p) = some t) :
    ∃ o, Inv sb f w fd (update stage p o) t := by
  obtain ⟨v, hv, rfl⟩ := map_eq_some_iff.mp hs
  have hreach : (pool P sb).Reach v := h.reach.step hv
  cases hp : stage p with
  | none =>
    have := h.prog p
    rw [hp] at this
    simp [Pool.next, this] at hv
  | some st =>
    have hprog := h.prog p
    rw [hp] at hprog
    obtain ⟨u, o, hm, rfl⟩ := WriteStage.moves (h.plain hp) hprog hv
    refine ⟨o, ?_⟩
    have hknows := h.knows p st hp
    dsimp only
    rw [h.file.2.2]
    -- The lock is taken in `ilock` only.
    have hsame : ¬((s.calls.state.icache (w.state.ftable f).ip).lock = none ∧
        (s.calls.state.icache (w.state.ftable f).ip).lock = some p) := by simp +contextual
    cases hm with
    | call =>
      rw [if_neg hsame]
      exact h.quiet hp hreach rfl (by simp) (.inl rfl) (by rintro _ ⟨⟩; trivial)
    | skip hnil =>
      rw [if_neg hsame]
      exact h.quiet hp hreach rfl (by simp) (.inr hnil) (by rintro _ ⟨⟩; trivial)
    | file hne =>
      rw [if_neg hsame]
      exact h.quiet hp hreach rfl (fun _ => hne) (.inl rfl) (by rintro _ ⟨⟩; trivial)
    | off =>
      rw [if_neg hsame]
      refine h.quiet hp hreach rfl (by simp) (.inl rfl) ?_
      rintro _ ⟨⟩
      exact ⟨hknows, rfl⟩
    | type =>
      rw [if_neg hsame]
      refine h.quiet hp hreach rfl (by simp) (.inl rfl) ?_
      rintro _ ⟨⟩
      exact hknows
    | ret =>
      rw [if_neg hsame]
      exact h.quiet hp hreach rfl (by simp) (.inl rfl) (by simp)
    | lock hl =>
      obtain ⟨-, hfree, hset⟩ := ilock_inv hl
      obtain ⟨e, he, hinum, hset⟩ : ∃ e : Inode P, e.lock = some p ∧
          e.inum = (s.calls.state.icache (w.state.ftable f).ip).inum ∧
          EntrySet p (w.state.ftable f).ip e (s.calls.state.held p) s.calls.state u := by
        rcases hset with ⟨-, hset⟩ | ⟨-, hset⟩
        · exact ⟨{ s.calls.state.icache _ with lock := some p }, rfl, rfl, hset⟩
        · exact ⟨{ s.calls.state.icache _ with lock := some p, valid := true, d := _ }, rfl, rfl, hset⟩
      obtain ⟨hinode, hkeep⟩ := h.entry hset hinum
      have hlock : (u.icache (w.state.ftable f).ip).lock = some p := by rw [hset.entry, he]
      rw [if_pos ⟨hfree, hlock⟩]
      have hne := h.nonempty p _ hp (.inr rfl)
      refine h.moved (by simp [hp]) hreach hset.proc (by rw [hset.ftable]; exact .refl _) (hinode ▸ h.type)
        (fun _ _ _ => hne) (fun _ => .inr hfree) (by rw [hp]; exact hlock)
        (by rintro _ ⟨⟩; exact ⟨s.order, rfl, hkeep (h.free hfree)⟩) (.inr (.inr hfree)) (fun hn => ?_) (.inr rfl) ?_
      · rw [hlock] at hn
        cases hn
      · rw [pending_update, pending_of_stage hp]
        simp [WriteStage.ahead, hne]
    | write hw =>
      obtain ⟨⟨hproc, hft, htype, hlock⟩, hadv⟩ := h.write hp hw
      rw [hlock, if_neg hsame]
      refine h.moved (by simp [hp]) hreach hproc (by rw [hft]; exact .refl _) htype
        (fun _ _ _ => h.nonempty p _ hp (.inl rfl)) (fun _ => .inl (by rw [hp]; rfl)) (by rw [hp]; exact hlock)
        (by rintro _ ⟨⟩; exact hadv) (.inr (.inl (by rw [hp]; rfl))) (fun hfree => ?_) (.inl rfl) ?_
      · rw [hlock, h.locked hp rfl] at hfree
        cases hfree
      · rw [pending_update, pending_of_stage hp]
        rfl
    | advance ha =>
      obtain ⟨rfl, hcontent, hoff⟩ := hknows
      have hsize : (s.calls.state.inodeOf f).size < 2 ^ 32 :=
        (size_inodeOf_le h.fs h.type).trans_lt (by decide)
      obtain ⟨e, he, rfl⟩ : ∃ e : File, e = { s.calls.state.ftable f with
          off := ((s.calls.state.ftable f).off + (s.src p).length) % 2 ^ 32 } ∧ s.calls.state.setFile f e = u := by
        cases ha
        exact ⟨_, rfl, rfl⟩
      have hfile : (s.calls.state.setFile f e).ftable f = e := update_self ..
      have hinode : (s.calls.state.setFile f e).inodeOf f = s.calls.state.inodeOf f := by
        rw [Fs.inodeOf, hfile, he]
        rfl
      have hsettled : Settled f (w.state.contentOf f) s.order (s.calls.state.setFile f e) := by
        refine ⟨?_, ?_⟩
        · rw [Fs.contentOf, hinode]
          exact hcontent
        · rw [hfile, hinode, he]
          exact (Nat.mod_eq_of_lt (hoff ▸ hsize)).trans hoff
      rw [show ((s.calls.state.setFile f e).icache (w.state.ftable f).ip) = s.calls.state.icache (w.state.ftable f).ip
        from rfl, if_neg hsame]
      refine h.moved (by simp [hp]) hreach rfl (by rw [hfile, he]; exact ⟨rfl, rfl, rfl, rfl⟩) (hinode ▸ h.type)
        (fun _ _ _ => h.nonempty p _ hp (.inl rfl)) (fun _ => .inl (by rw [hp]; rfl)) (by rw [hp]; rfl)
        (by rintro _ ⟨⟩; exact ⟨rfl, hsettled⟩) (.inr (.inl (by rw [hp]; rfl))) (fun hfree => ?_) (.inl rfl) ?_
      · rw [show ((s.calls.state.setFile f e).icache (w.state.ftable f).ip) = s.calls.state.icache (w.state.ftable f).ip
          from rfl, h.locked hp rfl] at hfree
        cases hfree
      · rw [pending_update, pending_of_stage hp]
        rfl
    | unlock hu =>
      obtain ⟨-, hset⟩ := iunlock_inv hu
      obtain ⟨hinode, hkeep⟩ := h.entry hset rfl
      have hlock : (u.icache (w.state.ftable f).ip).lock = none := by rw [hset.entry]
      rw [if_neg (by simp [hlock])]
      refine h.moved (by simp [hp]) hreach hset.proc (by rw [hset.ftable]; exact .refl _) (hinode ▸ h.type)
        (fun _ _ _ => h.nonempty p _ hp (.inl rfl)) (by rintro ⟨⟩) (by rw [hp]; exact hlock) (by rintro _ ⟨⟩; trivial)
        (.inr (.inl (by rw [hp]; rfl))) (fun _ => hkeep hknows.2) (.inl rfl) ?_
      rw [pending_update, pending_of_stage hp]
      rfl

theorem reach_inv (h₀ : Opened sb f w) (h : (machine sb f w).Reach s) : ∃ fd stage, Inv sb f w fd stage s := by
  refine h.invariant (I := fun s => ∃ fd stage, Inv sb f w fd stage s) (fun s hs => ?_) fun s l t hi hs => ?_
  · cases hs
    have hfs : InvIf False sb w.state := (wild_good h₀.reach).inv.core
    have hidle := (wild_good h₀.reach).atRest
    have hfree : (w.state.icache (w.state.ftable f).ip).lock = none := by
      cases hl : (w.state.icache (w.state.ftable f).ip).lock with
      | none => rfl
      | some p => exact absurd hl ((hidle p (h₀.idle p)).locks _)
    have hsize := size_inodeOf_le hfs h₀.file
    refine ⟨fun _ => ⟨0, by decide⟩, fun _ => none, h₀.reach, h₀.idle, by simp, ⟨h₀.writable, h₀.inode, rfl⟩, h₀.file,
      by simp, by simp,
      fun p => by simp [hfree], by simp, fun _ => ⟨by simp [bytes], h₀.off⟩, fun p => by simp [pending], ?_⟩
    simpa [Fs.contentOf, bytes] using hsize
  · obtain ⟨fd, stage, hi⟩ := hi
    cases l with
    | start p c => exact ⟨_, _, hi.start hs.1 hs.2⟩
    | step p =>
      obtain ⟨o, ho⟩ := hi.step hs.1
      exact ⟨fd, _, ho⟩

theorem Inv.not_stuck (h : Inv sb f w fd stage s) (hp : stage p = some st)
    (hlock : st = .lock → (s.calls.state.icache (w.state.ftable f).ip).lock = none) :
    s.calls.stuck p = none ∨ s.calls.stuck p = some (.panic "balloc: out of blocks") := by
  have hprog := h.prog p
  rw [hp] at hprog
  cases st with
  | call => exact .inl (Pool.stuck_op hprog)
  | file => exact .inl (Pool.stuck_op hprog)
  | lock =>
    have hpos : 0 < (s.calls.state.icache (w.state.ftable f).ip).ref := h.file.2.2 ▸ h.fs.ref_pos_of_file h.file.2.1
    have htype : s.calls.state.typeOf (w.state.ftable f).ip ≠ .free := by
      rw [Fs.typeOf, ← h.inodeOf, h.type]
      simp
    obtain ⟨u, hu⟩ := ilock_of_free p hpos (hlock rfl) htype
    rw [Pool.stuck_op hprog, hu]
    exact .inl rfl
  | off => exact .inl (Pool.stuck_op hprog)
  | type o => exact .inl (Pool.stuck_op hprog)
  | write o =>
    have hchunk := h.chunk p (by simp [hp])
    rw [Pool.stuck_op hprog, take_of_length_le hchunk]
    cases hr : s.calls.state.writei sb (w.state.ftable f).ip o (s.src p) with
    | ok r => exact .inl rfl
    | error e =>
      refine .inr (congrArg some (writei_error h.fs (h.locked hp rfl) ?_ (hchunk.trans_lt (by decide)) hr))
      rw [Fs.typeOf, ← h.inodeOf, h.type]
      exact .inr rfl
  | advance r => exact .inl (Pool.stuck_op hprog)
  | unlock r =>
    have hl := h.locked hp rfl
    rw [Pool.stuck_op hprog, Fs.iunlock, if_neg (by simp [hl, Nat.ne_of_gt (h.fs.ref_pos_of_lock hl)])]
    exact .inl rfl
  | ret v =>
    left
    have hprog : s.calls.prog p = some (.ret v) := hprog
    rw [Pool.stuck, hprog]

/-- When no call is running, the file is what it was, followed by the buffers of all calls in the order in which they
    got the lock, those of each process in its own order, and the offset is its size. As long as a call is running, some
    process can go on, or the disk is full. -/
theorem shared_writes_append (h₀ : Opened sb f w) (h : (machine sb f w).Reach s) : ((∀ p, s.calls.prog p = none) →
      s.calls.state.contentOf f = w.state.contentOf f ++ bytes s.order ∧
      (s.calls.state.ftable f).off = (s.calls.state.inodeOf f).size ∧
      ∀ p, s.order.filter (fun x => x.1 = p) = s.started.filter fun x => x.1 = p ∧ x.2 ≠ []) ∧
    ((∃ p, s.calls.prog p ≠ none) →
      (∃ p t, s.next sb f (.step p) = some t) ∨ ∃ p, s.calls.stuck p = some (.panic "balloc: out of blocks")) := by
  obtain ⟨fd, stage, hi⟩ := reach_inv h₀ h
  have hnone : ∀ p, s.calls.prog p = none ↔ stage p = none := fun p => by rw [hi.prog p, map_eq_none_iff]
  refine ⟨fun hidle => ?_, fun ⟨p, hp⟩ => ?_⟩
  · have hfree : (s.calls.state.icache (w.state.ftable f).ip).lock = none := by
      cases hl : (s.calls.state.icache (w.state.ftable f).ip).lock with
      | none => rfl
      | some p =>
        have := (hi.lock p).mp hl
        simp [(hnone p).mp (hidle p)] at this
    obtain ⟨hcontent, hoff⟩ := hi.free hfree
    refine ⟨hcontent, hoff, fun p => ?_⟩
    have := hi.history p
    rwa [pending, (hnone p).mp (hidle p), if_neg (by simp), append_nil] at this
  · -- The holder of the lock can go on, or else any process.
    obtain ⟨q, st, hq, hlock⟩ : ∃ q st, stage q = some st ∧
        (st = .lock → (s.calls.state.icache (w.state.ftable f).ip).lock = none) := by
      cases hl : (s.calls.state.icache (w.state.ftable f).ip).lock with
      | none =>
        obtain ⟨st, hst⟩ := ne_none_iff_exists'.mp (mt (hnone p).mpr hp)
        exact ⟨p, st, hst, fun _ => rfl⟩
      | some q =>
        have hlk := (hi.lock q).mp hl
        cases hst : stage q with
        | none => simp [hst] at hlk
        | some st =>
          refine ⟨q, st, hst, ?_⟩
          rintro rfl
          simp [hst, WriteStage.locked] at hlk
    rcases hi.not_stuck hq hlock with hs | hs
    · obtain ⟨v, hv⟩ : ∃ v, s.calls.next (syscall sb) live (.step q) = some v :=
        Pool.next_of_not_stuck (mt (hnone q).mp (by simp [hq])) hs
      exact .inl ⟨q, _, by rw [next, hv]; rfl⟩
    · exact .inr ⟨q, hs⟩

end

/-! ### Two processes -/

def openAndFork : Schedule :=
  [.start 0 (.open [47, 102] (O_CREATE ||| O_RDWR))] ++ replicate 21 (.step 0) ++
    [.start 0 (.fork 1), .step 0, .step 0]

def twoWrites : List (Pool.Label (Fin 2) (Fin NOFILE × List UInt8)) :=
  [.start 0 (⟨0, NOFILE_pos⟩, [5]), .step 0, .step 0, .start 1 (⟨0, NOFILE_pos⟩, [7, 8])] ++ replicate 9
    (.step 1) ++ replicate 7 (.step 0)

def firstFile : Fin NFILE := ⟨0, by decide⟩

def run (w : Calls (Fin 2)) (ls : List (Pool.Label (Fin 2) (Fin NOFILE × List UInt8))) : Option (SharedFd (Fin 2)) :=
  ls.foldlM (fun s l => (s.next smallDisk firstFile l).filter fun t =>
    (w.state.contentOf firstFile).length + (bytes t.started).length ≤ MAXFILE * BSIZE) ⟨w, fun _ => [], [], []⟩

theorem run_reach {w : Calls (Fin 2)} {ls : List (Pool.Label (Fin 2) (Fin NOFILE × List UInt8))} {s : SharedFd (Fin 2)}
    (h : run w ls = some s) : (machine smallDisk firstFile w).Reach s := by
  refine Machine.ReachWhere.foldlM (fun s l t ht => ⟨trivial, ?_⟩) (.init rfl) h
  obtain ⟨hn, hroom⟩ := filter_eq_some_iff.mp ht
  exact ⟨hn, of_decide_eq_true hroom⟩

theorem shared_writes_append_twoWrites : ∃ (w : Calls (Fin 2)) (s : SharedFd (Fin 2)),
    Opened smallDisk firstFile w ∧ (machine smallDisk firstFile w).Reach s ∧
    s.order = [(1, [7, 8]), (0, [5])] ∧
    s.calls.state.contentOf firstFile = w.state.contentOf firstFile ++ [7, 8, 5] := by
  have hrun : ((Fs.interleave openAndFork).bind fun w => (run w twoWrites).map fun s => decide (
      ((∀ p, (w.prog p).isNone = true) ∧ (w.state.ftable firstFile).type = .inode ∧
        (w.state.ftable firstFile).writable = true ∧ (w.state.inodeOf firstFile).type = .file ∧
        (w.state.ftable firstFile).off = (w.state.inodeOf firstFile).size) ∧
      (∀ p, (s.calls.prog p).isNone = true) ∧ s.order = [(1, [7, 8]), (0, [5])])) = some true := by decide +kernel
  obtain ⟨w, hw, hrun⟩ := bind_eq_some_iff.mp hrun
  obtain ⟨s, hs, hd⟩ := map_eq_some_iff.mp hrun
  obtain ⟨⟨hidle, htype, hwr, hfile, hoff⟩, hend, horder⟩ := of_decide_eq_true hd
  have hopened : Opened smallDisk firstFile w :=
    ⟨(interleave_reach hw).reach, fun p => isNone_iff_eq_none.mp (hidle p), htype, hwr, hfile, hoff⟩
  have hdone := (shared_writes_append hopened (run_reach hs)).1 fun p => isNone_iff_eq_none.mp (hend p)
  refine ⟨w, s, hopened, run_reach hs, horder, ?_⟩
  rw [hdone.1, horder]
  rfl

end SharedFd
end Xv6
