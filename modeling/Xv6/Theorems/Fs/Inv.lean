import Xv6.Sysfile
import Xv6.Lib.Count
import Xv6.Theorems.Fs.Dirent

/-! The invariant of the file system between two actions, and what an action leaves alone of what other processes
    rely on. -/

namespace Xv6
open Finset

variable {P : Type}

structure File.Same (e e' : File) : Prop where
  type : e'.type = e.type
  ip : e'.ip = e.ip
  readable : e'.readable = e.readable
  writable : e'.writable = e.writable

theorem File.Same.refl (e : File) : e.Same e := ⟨rfl, rfl, rfl, rfl⟩

namespace Fs

/-! ### References -/

def fileRefs (s : Fs P) (i : Fin NINODE) : Nat :=
  ∑ f, if (s.ftable f).ref ≠ 0 ∧ (s.ftable f).type = .inode ∧ (s.ftable f).ip = i then 1 else 0

def fds (e : ProcFs) (f : Fin NFILE) : Nat := ∑ fd, if e.ofile fd = some f then 1 else 0

section
variable [Fintype P]

def cwdRefs (s : Fs P) (i : Fin NINODE) : Nat := ∑ p, if (s.proc p).dir = some i then 1 else 0

def heldRefs (s : Fs P) (i : Fin NINODE) : Nat := ∑ p, (s.held p).count i

def slotRefs (s : Fs P) (f : Fin NFILE) : Nat := ∑ p, fds (s.proc p) f

end

def FileRef (s : Fs P) (p : P) (i : Fin NINODE) : Prop :=
  ∃ fd f, (s.proc p).ofile fd = some f ∧ (s.ftable f).type = .inode ∧ (s.ftable f).ip = i

/-- An open file, or a current directory that its process has not handed to `iput`, refers to entry `i`. -/
def Target (s : Fs P) (i : Fin NINODE) : Prop :=
  (∃ f, (s.ftable f).ref ≠ 0 ∧ (s.ftable f).type = .inode ∧ (s.ftable f).ip = i) ∨ ∃ p, (s.proc p).dir = some i

def typeOf (s : Fs P) (i : Fin NINODE) : InodeType := (s.disk.dinode (s.icache i).inum).type

def Plain (t : InodeType) : Prop := t = .file ∨ t = .dev

instance (t : InodeType) : Decidable (Plain t) := inferInstanceAs (Decidable (_ ∨ _))

def NoDirWritten (s : Fs P) : Prop :=
  ∀ f, (s.ftable f).type = .inode → (s.ftable f).writable = true → Plain (s.typeOf (s.ftable f).ip)

instance (s : Fs P) : Decidable s.NoDirWritten := inferInstanceAs (Decidable (∀ _, _ → _ → _))

/-- The invariant that every action keeps. What it says of directories holds as long as they are `tidy`: nobody
    but the file system itself writes to one. -/
structure InvIf [Fintype P] (tidy : Prop) (sb : Superblock) (s : Fs P) : Prop where
  disk : s.disk.Ok sb
  uniq : ∀ i j, 0 < (s.icache i).ref → 0 < (s.icache j).ref → (s.icache i).inum = (s.icache j).inum → i = j
  inum_lt : ∀ i, 0 < (s.icache i).ref → (s.icache i).inum < 2 ^ 16
  /-- A valid copy is the inode on disk, which is allocated. -/
  copy : ∀ i, 0 < (s.icache i).ref → (s.icache i).valid = true →
    (s.icache i).d = s.disk.dinode (s.icache i).inum ∧ s.typeOf i ≠ .free
  refs : ∀ i, (s.icache i).ref = s.fileRefs i + s.cwdRefs i + s.heldRefs i
  locked : ∀ i p, (s.icache i).lock = some p → (s.icache i).valid = true ∧ (i ∈ s.held p ∨ s.FileRef p i)
  files : ∀ f, (s.ftable f).ref = s.slotRefs f
  unused : ∀ f, (s.ftable f).ref = 0 → (s.ftable f).type = .none
  opening : ∀ f, (s.ftable f).type = .none → (s.ftable f).ref ≤ 1
  writable : tidy → s.NoDirWritten
  /-- A directory is older than the directories its entries name. -/
  order : tidy → ∀ x k n y, s.disk.ent x k = some (n, y) → n ≠ Sys.dot → n ≠ Sys.dotdot →
    (s.disk.dinode y).type = .dir → s.born x < s.born y
  born_lt : ∀ x, s.born x < s.clock

abbrev Inv [Fintype P] (sb : Superblock) (s : Fs P) : Prop := InvIf True sb s

/-! ### What an action keeps -/

def AllOpen (p : P) (s : Fs P) : Prop := ∀ fd f, (s.proc p).ofile fd = some f → (s.ftable f).type = .inode

structure Private (p : P) (s t : Fs P) : Prop where
  held : t.held p = s.held p
  locks : ∀ i, (t.icache i).lock = some p ↔ (s.icache i).lock = some p
  proc : t.proc p = s.proc p ∨ unused p s = true ∧ AllOpen p t ∧ (t.proc p).put = false

structure Keep (p : P) (H : Fin NINODE → Prop) (s t : Fs P) : Prop where
  inum : ∀ i, H i → (t.icache i).inum = (s.icache i).inum
  alive : ∀ i, H i → s.typeOf i ≠ .free → t.typeOf i ≠ .free
  inode : ∀ x, (t.disk.dinode x).type ≠ .free →
    (t.disk.dinode x).type = (s.disk.dinode x).type ∧ t.born x = s.born x ∨
      (s.disk.dinode x).type = .free ∧ s.clock ≤ t.born x
  clock : s.clock ≤ t.clock
  file : ∀ fd f, (s.proc p).ofile fd = some f → (s.ftable f).Same (t.ftable f)

/-- What process `q` leaves alone of what is in use. -/
structure Spares (q : P) (s t : Fs P) : Prop where
  inum : ∀ i, 0 < (s.icache i).ref → (t.icache i).inum = (s.icache i).inum
  dinode : ∀ x, (s.disk.dinode x).type ≠ .free → t.disk.dinode x = s.disk.dinode x ∨
    ∃ i, (s.icache i).inum = x ∧ 0 < (s.icache i).ref ∧ (s.icache i).valid = true ∧
      ((s.icache i).lock = some q ∧ (t.disk.dinode x).type = (s.disk.dinode x).type ∨
        i ∈ s.held q ∧ (s.icache i).ref = 1)
  data : ∀ x k b, (s.disk.dinode x).slot s.disk.data k = some b → t.disk.data b = s.disk.data b ∨
    ∃ i, (s.icache i).inum = x ∧ (s.icache i).lock = some q
  blocks : ∀ x, (∀ i ∈ s.held q, (s.icache i).inum = x → (s.icache i).ref ≠ 1) → ∀ k b,
    (s.disk.dinode x).slot s.disk.data k = some b → t.disk.bitmap b = true
  target : ∀ i, t.Target i → s.Target i ∨ t.typeOf i ≠ .free

/-- What process `q` may do to the others. -/
structure Guar (q : P) (s t : Fs P) : Prop where
  priv : ∀ p ≠ q, Private p s t
  keep : ∀ p ≠ q, Keep p (fun i => i ∈ s.held p ∨ s.FileRef p i) s t
  spares : Spares q s t

/-- The failures that may occur. In tidy runs a process that waits in `ilock` with locks in hand holds
    directories, and waits for an inode that is no directory or a younger one. -/
structure Err (tidy : Prop) (p : P) (s : Fs P) (e : Halt) : Prop where
  bfree : e ≠ .panic "freeing free block"
  bmap : e ≠ .panic "bmap: out of range"
  namex : e ≠ .panic "namex"
  wait : tidy → ∀ i, e = .wait .ilock i → ∀ k, (s.icache k).lock = some p →
    s.typeOf k = .dir ∧ (s.typeOf i = .dir → s.born (s.icache k).inum < s.born (s.icache i).inum)

/-- How the system calls of several processes are run. -/
inductive Mode
  /-- One after the other. -/
  | alone
  /-- Interleaved, in runs that leave no directory open for writing. -/
  | together
  /-- Interleaved, in runs in which nobody reads an inode in before `ialloc` has taken its reference. -/
  | watched
  /-- Interleaved in any way. -/
  | wild
  deriving DecidableEq

/-- Only the file system writes to directories. -/
def Mode.Tidy (m : Mode) : Prop := m ≠ .wild

/-- `create` knows the type of the inode it has allocated. In other runs a process that follows a dangling entry
    can free the inode before `iget` takes the reference. -/
def Mode.Knows (m : Mode) : Prop := m = .alone ∨ m = .watched

/-- Inode `x` has links, or no entry in use has read it in. -/
def Unread (s : Fs P) (x : Nat) : Prop :=
  (s.disk.dinode x).nlink = 0 → ∀ i, 0 < (s.icache i).ref → (s.icache i).inum = x → (s.icache i).valid = false

def discipline [Fintype P] [DecidableEq P] (sb : Superblock) (m : Mode) : Discipline P (Fs P) Halt where
  inv := InvIf m.Tidy sb
  assume s := m = .together → s.NoDirWritten
  side p a s := m = .watched → ∀ x, a = ⟨fun s => s.iget p x⟩ → s.Unread x
  rely p s t := m ≠ .alone ∧ ∃ q ≠ p, Guar q s t
  guar := Guar
  err := Err m.Tidy

structure Own (p : P) (H : Multiset (Fin NINODE)) (K : Finset (Fin NINODE)) (s : Fs P) : Prop where
  held : (s.held p : Multiset (Fin NINODE)) = H
  locks : ∀ i, (s.icache i).lock = some p ↔ i ∈ K

structure At (p : P) (H : Multiset (Fin NINODE)) (K : Finset (Fin NINODE)) (F : Fs P → Prop) (s : Fs P) : Prop where
  own : Own p H K s
  live : live p s = true
  fact : F s

structure Idle (p : P) (s : Fs P) : Prop where
  held : s.held p = []
  locks : ∀ i, (s.icache i).lock ≠ some p
  opened : AllOpen p s
  put : (s.proc p).put = false

/-- A fact about the inodes process `p` refers to by `H` or by its open files, and about its own files. -/
def Framed [Fintype P] (sb : Superblock) (p : P) (H : Multiset (Fin NINODE)) (F : Fs P → Prop) : Prop :=
  ∀ s t, InvIf False sb s → InvIf False sb t → t.proc p = s.proc p → Keep p (fun i => i ∈ H ∨ s.FileRef p i) s t →
    F s → F t

variable {s t : Fs P} {p q : P} {i j : Fin NINODE} {f g : Fin NFILE} {l : List (Fin NINODE)}

theorem dir_eq_cwd {e : ProcFs} (h : e.put = false) : e.dir = e.cwd := by
  rw [ProcFs.dir, h, if_neg Bool.false_ne_true]

theorem dir_eq_some {e : ProcFs} : e.dir = some i ↔ e.cwd = some i ∧ e.put = false := by
  unfold ProcFs.dir
  split <;> simp_all

/-! ### Counting references -/

section
variable [Fintype P]

theorem heldRefs_congr (h : t.held = s.held) : t.heldRefs = s.heldRefs := by
  funext j
  unfold heldRefs
  rw [h]

theorem cwdRefs_congr (h : t.proc = s.proc) : t.cwdRefs = s.cwdRefs := by
  funext j
  unfold cwdRefs
  rw [h]

theorem slotRefs_congr (h : t.proc = s.proc) : t.slotRefs = s.slotRefs := by
  funext j
  unfold slotRefs
  rw [h]

theorem count_le_heldRefs (s : Fs P) (p : P) (i : Fin NINODE) : (s.held p).count i ≤ s.heldRefs i :=
  single_le_sum (f := fun p => (s.held p).count i) (fun _ _ => Nat.zero_le _) (mem_univ p)

theorem fds_le_slotRefs (s : Fs P) (p : P) (f : Fin NFILE) : fds (s.proc p) f ≤ s.slotRefs f :=
  single_le_sum (f := fun p => fds (s.proc p) f) (fun _ _ => Nat.zero_le _) (mem_univ p)

variable [DecidableEq P]

theorem heldRefs_update (l : List (Fin NINODE)) (j : Fin NINODE) (h : t.held = Function.update s.held p l) :
    t.heldRefs j + (s.held p).count j = s.heldRefs j + l.count j := by
  unfold heldRefs
  rw [h]
  exact sum_update_add (fun l => List.count j l) s.held p l

theorem cwdRefs_update (e : ProcFs) (j : Fin NINODE) (h : t.proc = Function.update s.proc p e) :
    t.cwdRefs j + (if (s.proc p).dir = some j then 1 else 0) = s.cwdRefs j + (if e.dir = some j then 1 else 0) := by
  unfold cwdRefs
  rw [h]
  exact sum_update_add (fun e : ProcFs => if e.dir = some j then 1 else 0) s.proc p e

theorem cwdRefs_same {e : ProcFs} (h : t.proc = Function.update s.proc p e) (he : e.dir = (s.proc p).dir) :
    t.cwdRefs = s.cwdRefs := by
  funext j
  have := cwdRefs_update e j h
  rw [he] at this
  exact Nat.add_right_cancel this

theorem slotRefs_update (e : ProcFs) (g : Fin NFILE) (h : t.proc = Function.update s.proc p e) :
    t.slotRefs g + fds (s.proc p) g = s.slotRefs g + fds e g := by
  unfold slotRefs
  rw [h]
  exact sum_update_add (fun e => fds e g) s.proc p e

theorem count_add_count_le (h : p ≠ q) (i : Fin NINODE) : (s.held p).count i + (s.held q).count i ≤ s.heldRefs i := by
  unfold heldRefs
  rw [← add_sum_erase _ _ (mem_univ p)]
  have hq : q ∈ Finset.univ.erase p := mem_erase.mpr ⟨h.symm, mem_univ q⟩
  have := single_le_sum (f := fun p => (s.held p).count i) (fun _ _ => Nat.zero_le _) hq
  omega

theorem fds_add_fds_le (h : p ≠ q) (f : Fin NFILE) : fds (s.proc p) f + fds (s.proc q) f ≤ s.slotRefs f := by
  unfold slotRefs
  rw [← add_sum_erase _ _ (mem_univ p)]
  have hq : q ∈ Finset.univ.erase p := mem_erase.mpr ⟨h.symm, mem_univ q⟩
  have := single_le_sum (f := fun p => fds (s.proc p) f) (fun _ _ => Nat.zero_le _) hq
  omega

end

theorem fileRefs_update (e : File) (j : Fin NINODE) (h : t.ftable = Function.update s.ftable f e) :
    t.fileRefs j + (if (s.ftable f).ref ≠ 0 ∧ (s.ftable f).type = .inode ∧ (s.ftable f).ip = j then 1 else 0) =
      s.fileRefs j + (if e.ref ≠ 0 ∧ e.type = .inode ∧ e.ip = j then 1 else 0) := by
  unfold fileRefs
  rw [h]
  exact sum_update_add (fun e : File => if e.ref ≠ 0 ∧ e.type = .inode ∧ e.ip = j then 1 else 0) s.ftable f e

theorem fileRefs_congr (h : t.ftable = s.ftable) : t.fileRefs = s.fileRefs := by
  funext j
  unfold fileRefs
  rw [h]

theorem fds_update (e : ProcFs) (fd : Fin NOFILE) (v : Option (Fin NFILE)) (g : Fin NFILE) :
    fds { e with ofile := Function.update e.ofile fd v } g + (if e.ofile fd = some g then 1 else 0) =
      fds e g + (if v = some g then 1 else 0) :=
  sum_update_add (fun v : Option (Fin NFILE) => if v = some g then 1 else 0) e.ofile fd v

theorem fds_pos {e : ProcFs} {fd : Fin NOFILE} (h : e.ofile fd = some f) : 0 < fds e f := by
  have := single_le_sum (f := fun fd => if e.ofile fd = some f then 1 else 0) (fun _ _ => Nat.zero_le _)
    (mem_univ fd)
  simp only [h, if_true] at this
  exact this

theorem fileRefs_pos (hr : (s.ftable f).ref ≠ 0) (ht : (s.ftable f).type = .inode) (hi : (s.ftable f).ip = i) :
    0 < s.fileRefs i := by
  have := single_le_sum
    (f := fun f => if (s.ftable f).ref ≠ 0 ∧ (s.ftable f).type = .inode ∧ (s.ftable f).ip = i then 1 else 0)
    (fun _ _ => Nat.zero_le _) (mem_univ f)
  simp only [hr, ht, hi, ne_eq, not_false_eq_true, and_self, if_true] at this
  exact this

theorem Target.congr (hf : t.ftable = s.ftable) (hp : t.proc = s.proc) : t.Target i ↔ s.Target i := by
  unfold Target
  rw [hf, hp]

variable {sb : Superblock} {c d : Prop}

/-- The action changes neither types nor ages of inodes, nor which inode an entry in use stands for. -/
structure Quiet (s t : Fs P) : Prop where
  inum : ∀ i, 0 < (s.icache i).ref → (t.icache i).inum = (s.icache i).inum
  type : ∀ x, (t.disk.dinode x).type = (s.disk.dinode x).type
  born : t.born = s.born
  clock : t.clock = s.clock
  file : ∀ p fd f, (s.proc p).ofile fd = some f → (s.ftable f).Same (t.ftable f)

theorem Quiet.typeOf (h : Quiet s t) (hr : 0 < (s.icache i).ref) : t.typeOf i = s.typeOf i := by
  unfold Fs.typeOf
  rw [h.inum i hr, h.type]

theorem Quiet.keep (h : Quiet s t) {H : Fin NINODE → Prop} (hH : ∀ i, H i → 0 < (s.icache i).ref) : Keep p H s t where
  inum i hi := h.inum i (hH i hi)
  alive i hi ha := by rwa [h.typeOf (hH i hi)]
  inode x _ := .inl ⟨h.type x, by rw [h.born]⟩
  clock := h.clock.ge
  file := h.file p

variable [Fintype P]

theorem cwdRefs_pos (h : (s.proc p).dir = some i) : 0 < s.cwdRefs i := by
  have := single_le_sum (f := fun p => if (s.proc p).dir = some i then 1 else 0) (fun _ _ => Nat.zero_le _)
    (mem_univ p)
  simp only [h, if_true] at this
  exact this

theorem Target.refs_pos (h : s.Target i) : 0 < s.fileRefs i + s.cwdRefs i := by
  rcases h with ⟨f, hr, ht, hi⟩ | ⟨p, hp⟩
  · have := fileRefs_pos hr ht hi
    omega
  · have := cwdRefs_pos hp
    omega

/-! ### Consequences of the invariant -/

namespace InvIf

section

variable (h : InvIf c sb s)
include h

theorem mono (hd : d → c) : InvIf d sb s :=
  { h with writable := fun hc => h.writable (hd hc), order := fun hc => h.order (hd hc) }

theorem core : InvIf False sb s := h.mono False.elim

theorem file_ref_ne_zero {fd : Fin NOFILE} (hf : (s.proc p).ofile fd = some f) : (s.ftable f).ref ≠ 0 := by
  have h1 := fds_le_slotRefs s p f
  have h2 := fds_pos hf
  rw [h.files]
  omega

theorem fileRefs_pos_of_fileRef (hf : s.FileRef p i) : 0 < s.fileRefs i := by
  obtain ⟨fd, f, hfd, ht, hi⟩ := hf
  exact fileRefs_pos (h.file_ref_ne_zero hfd) ht hi

theorem ref_pos (hr : i ∈ s.held p ∨ s.FileRef p i) : 0 < (s.icache i).ref := by
  have := h.refs i
  rcases hr with hr | hr
  · have h1 := count_le_heldRefs s p i
    have h2 := List.count_pos_iff.mpr hr
    omega
  · have := h.fileRefs_pos_of_fileRef hr
    omega

theorem ref_pos_of_lock (hl : (s.icache i).lock = some p) : 0 < (s.icache i).ref :=
  h.ref_pos (h.locked i p hl).2

theorem ref_pos_of_cwd (hc : (s.proc p).dir = some i) : 0 < (s.icache i).ref := by
  have := h.refs i
  have := cwdRefs_pos hc
  omega

theorem ref_pos_of_target (ht : s.Target i) : 0 < (s.icache i).ref := by
  have := h.refs i
  have := ht.refs_pos
  omega

theorem ref_pos_of_file (ht : (s.ftable f).type = .inode) : 0 < (s.icache (s.ftable f).ip).ref := by
  have hr : (s.ftable f).ref ≠ 0 := fun h0 => by
    rw [h.unused f h0] at ht
    cases ht
  have := fileRefs_pos hr ht rfl
  have := h.refs (s.ftable f).ip
  omega

theorem copy_of_lock (hl : (s.icache i).lock = some p) :
    (s.icache i).d = s.disk.dinode (s.icache i).inum ∧ s.typeOf i ≠ .free :=
  h.copy i (h.ref_pos_of_lock hl) (h.locked i p hl).1

theorem spares (hd : t.disk = s.disk) (hn : ∀ i, 0 < (s.icache i).ref → (t.icache i).inum = (s.icache i).inum)
    (ht : ∀ i, t.Target i → s.Target i ∨ t.typeOf i ≠ .free) : Spares q s t where
  inum := hn
  dinode x _ := .inl (by rw [hd])
  data x k b _ := .inl (by rw [hd])
  blocks x _ k b hb := by
    rw [hd]
    exact h.disk.sound.owns.used_of_own (x := (x, k)) hb
  target := ht

end

end InvIf

/-! ### Quiet actions -/

theorem Quiet.guar (h : Quiet s t) (hi : InvIf c sb s) (hp : ∀ q ≠ p, Private q s t) (hs : Spares p s t) : Guar p s t :=
  ⟨hp, fun _ _ => h.keep fun _ => hi.ref_pos, hs⟩

end Fs

end Xv6
