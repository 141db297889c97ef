import Xv6.Theorems.Fs.Inv
import Mathlib.Tactic.IntervalCases

/-! Consistent images: what a file-system checker would ask of a disk, and the state of the system once the
    first process runs on such a disk. -/

namespace Xv6

namespace Disk

/-- Block ownership: the block numbers in the slots of the inodes are pairwise distinct, lie in the data area
    and are its blocks marked in use, and an inode has the blocks its size asks for. -/
structure BlocksOwned (sb : Superblock) (d : Disk) : Prop where
  distinct : ∀ x y j k b, (d.dinode x).slot d.data j = some b → (d.dinode y).slot d.data k = some b → x = y ∧ j = k
  inArea : ∀ x k b, (d.dinode x).slot d.data k = some b → sb.datastart ≤ b ∧ b < sb.size
  bitmap : ∀ b, sb.datastart ≤ b → b < sb.size →
    (d.bitmap b = true ↔ ∃ x k, (d.dinode x).type ≠ .free ∧ (d.dinode x).slot d.data k = some b)
  size_le : ∀ x, (d.dinode x).type ≠ .free → (d.dinode x).type ≠ .dev → (d.dinode x).size ≤ MAXFILE * BSIZE
  blocks : ∀ x, (d.dinode x).type ≠ .free → (d.dinode x).type ≠ .dev → ∀ bn < MAXFILE,
    ((d.dinode x).blockAt d.data bn ≠ 0 ↔ bn < ((d.dinode x).size + BSIZE - 1) / BSIZE)
  free : ∀ x, (d.dinode x).type = .free → ∀ k ≤ NDIRECT, (d.dinode x).addrs k = 0

def Proper (n : List UInt8) : Prop := n ≠ Sys.dot ∧ n ≠ Sys.dotdot

instance (n : List UInt8) : Decidable (Proper n) := inferInstanceAs (Decidable (_ ∧ _))

def entries (sb : Superblock) (d : Disk) (q : List UInt8 × Nat → Bool) : Nat :=
  ∑ y ∈ Finset.range sb.ninodes, ((Finset.range ((d.dinode y).size / DIRENT)).filter fun k => (d.ent y k).any q).card

def names (sb : Superblock) (d : Disk) (x : Nat) : Nat := d.entries sb fun e => e.2 = x

def properNames (sb : Superblock) (d : Disk) (x : Nat) : Nat := d.entries sb fun e => Proper e.1 ∧ e.2 = x

/-- The directories and files that are linked in the tree. -/
inductive Linked (d : Disk) : Nat → Prop
  | root : Linked d ROOTINO
  | entry {x k y : Nat} {n : List UInt8} (hx : Linked d x) (he : d.ent x k = some (n, y)) (hn : Proper n) : Linked d y

def Child (d : Disk) (x y : Nat) : Prop :=
  (d.dinode y).type = .dir ∧ d.Linked y ∧ ∃ k, d.ent y k = some (Sys.dotdot, x)

open Classical in
noncomputable def children (sb : Superblock) (d : Disk) (x : Nat) : Nat :=
  ((Finset.range sb.ninodes).filter fun y => y ≠ x ∧ d.Child x y).card

/-- The link counts are what the tree says. -/
structure LinksCounted (sb : Superblock) (d : Disk) : Prop where
  plain : ∀ x, Fs.Plain (d.dinode x).type → (d.dinode x).nlink = d.names sb x
  dir : ∀ x, (d.dinode x).type = .dir →
    (d.dinode x).nlink = (if x = ROOTINO then 1 else d.properNames sb x) + d.children sb x

structure Consistent (sb : Superblock) (d : Disk) : Prop where
  blocks : d.BlocksOwned sb
  meta_used : ∀ b < sb.datastart, d.bitmap b = true
  inum : ∀ x, (d.dinode x).type ≠ .free → 0 < x ∧ x < sb.ninodes
  aligned : ∀ x, (d.dinode x).type = .dir → (d.dinode x).size % DIRENT = 0
  root : (d.dinode ROOTINO).type = .dir ∧ d.ent ROOTINO 1 = some (Sys.dotdot, ROOTINO)
  /-- The first two entries of a directory are "." and "..", and no others are. -/
  dot : ∀ x, (d.dinode x).type = .dir → d.ent x 0 = some (Sys.dot, x)
  dotdot : ∀ x, (d.dinode x).type = .dir → ∃ y, d.ent x 1 = some (Sys.dotdot, y)
  proper : ∀ x k n y, d.ent x k = some (n, y) → 2 ≤ k → Proper n
  named : ∀ x k n y, d.ent x k = some (n, y) → (d.dinode y).type ≠ .free
  /-- A directory other than the root has one entry that names it, in the directory its ".." names; the root
      has none. -/
  parent : ∀ x k n y, d.ent x k = some (n, y) → Proper n → (d.dinode y).type = .dir →
    y ≠ ROOTINO ∧ d.ent y 1 = some (Sys.dotdot, x)
  unique : ∀ x y, (d.dinode y).type = .dir → y ≠ ROOTINO → d.ent y 1 = some (Sys.dotdot, x) →
    ∃ k n, d.ent x k = some (n, y) ∧ Proper n ∧ ∀ k' n', d.ent x k' = some (n', y) → Proper n' → k' = k
  links : d.LinksCounted sb
  linked : ∀ x, (d.dinode x).type ≠ .free → (d.dinode x).nlink ≠ 0

/-! ### The image with only the root directory -/

def rootDots : List UInt8 := mkDirent ROOTINO Sys.dot ++ mkDirent ROOTINO Sys.dotdot

/-- The image mkfs makes of no files: the root directory has the first block of the data area. -/
def rootOnly (sb : Superblock) : Disk where
  dinode := Function.update
    (fun _ => { type := .free, major := 0, minor := 0, nlink := 0, size := 0, addrs := fun _ => 0 }) ROOTINO {
      type := .dir
      major := 0
      minor := 0
      nlink := 1
      size := BSIZE
      addrs := Function.update (fun _ => 0) 0 sb.datastart }
  bitmap b := b ≤ sb.datastart
  data := Function.update (fun _ _ => 0) sb.datastart fun i => rootDots.getD i 0

section
variable {sb : Superblock} {x y k b : Nat} {n : List UInt8}

theorem rootOnly_ne (h : x ≠ ROOTINO) : (rootOnly sb).dinode x = {
    type := .free, major := 0, minor := 0, nlink := 0, size := 0, addrs := fun _ => 0 } := by
  simp [rootOnly, h]

theorem rootOnly_eq_root (h : ((rootOnly sb).dinode x).type ≠ .free) : x = ROOTINO := by
  by_contra hx
  rw [rootOnly_ne hx] at h
  exact h rfl

theorem rootOnly_blockAt :
    ((rootOnly sb).dinode ROOTINO).blockAt (rootOnly sb).data k = if k = 0 then sb.datastart else 0 := by
  by_cases hd : k < NDIRECT
  · rw [Dinode.blockAt_direct hd]
    simp [rootOnly, Function.update_apply]
  · rw [Dinode.blockAt_none (Nat.not_lt.mp hd) (by simp [rootOnly, NDIRECT])]
    rw [if_neg (by simp only [NDIRECT] at hd; omega)]

theorem rootOnly_slot : ((rootOnly sb).dinode x).slot (rootOnly sb).data k = some b ↔
    x = ROOTINO ∧ k = 0 ∧ b = sb.datastart := by
  have h0 := sb.datastart_pos
  by_cases hx : x = ROOTINO
  · subst hx
    rcases Nat.lt_trichotomy k MAXFILE with hk | rfl | hk
    · rw [Dinode.slot_block hk, rootOnly_blockAt]
      split
      · simp_all [eq_comm]
        omega
      · simp_all [eq_comm]
    · rw [Dinode.slot_ind]
      simp [rootOnly, NDIRECT, MAXFILE, eq_comm]
    · rw [Dinode.slot_beyond hk]
      simp only [MAXFILE] at hk
      simp
      omega
  · rw [rootOnly_ne hx, slot_no_addrs (by simp)]
    simp [hx]

theorem rootOnly_byteAt (hk : k < BSIZE) :
    ((rootOnly sb).dinode ROOTINO).byteAt (rootOnly sb).data k = rootDots.getD k 0 := by
  have h0 := sb.datastart_pos
  unfold Dinode.byteAt
  rw [Nat.div_eq_of_lt hk, rootOnly_blockAt, Nat.mod_eq_of_lt hk, if_pos rfl, if_neg (by omega)]
  simp [rootOnly]

theorem rootOnly_ent : (rootOnly sb).ent x k =
    if x = ROOTINO then (if k = 0 then some (Sys.dot, ROOTINO) else if k = 1 then some (Sys.dotdot, ROOTINO) else none)
    else none := by
  split
  case isFalse hx => exact ent_of_not_dir (by rw [rootOnly_ne hx]; nofun)
  case isTrue hx =>
    subst hx
    have hsize : ((rootOnly sb).dinode ROOTINO).size = BSIZE := by simp [rootOnly]
    by_cases hk : k * DIRENT < BSIZE
    · have hd : (rootOnly sb).dirent ROOTINO k = (List.range DIRENT).map fun i => rootDots.getD (k * DIRENT + i) 0 := by
        unfold dirent Dinode.content
        refine List.map_congr_left fun i hi => rootOnly_byteAt ?_
        have := List.mem_range.mp hi
        simp only [DIRENT, BSIZE] at *
        omega
      unfold ent
      rw [hd, hsize, show ((rootOnly sb).dinode ROOTINO).type = .dir by simp [rootOnly]]
      have hk32 : k < 32 := by
        simp only [DIRENT, BSIZE] at hk
        omega
      interval_cases k <;> decide
    · rw [ent, if_neg (by rw [hsize]; exact fun h => hk h.2.1)]
      simp only [DIRENT, BSIZE] at hk
      rw [if_neg (by omega), if_neg (by omega)]

theorem rootOnly_ent_some (h : (rootOnly sb).ent x k = some (n, y)) :
    x = ROOTINO ∧ y = ROOTINO ∧ (k = 0 ∧ n = Sys.dot ∨ k = 1 ∧ n = Sys.dotdot) := by
  rw [rootOnly_ent] at h
  split at h
  · rename_i hx
    split at h
    · cases h
      exact ⟨hx, rfl, .inl ⟨by assumption, rfl⟩⟩
    · split at h
      · cases h
        exact ⟨hx, rfl, .inr ⟨by assumption, rfl⟩⟩
      · cases h
  · cases h

theorem rootOnly_not_proper (h : (rootOnly sb).ent x k = some (n, y)) : ¬Proper n := by
  obtain ⟨-, -, ⟨-, rfl⟩ | ⟨-, rfl⟩⟩ := rootOnly_ent_some h <;> decide

theorem rootOnly_blocksOwned (hb : 0 < sb.nblocks) : (rootOnly sb).BlocksOwned sb := by
  have hlt : sb.datastart < sb.size := by
    have := sb.nblocks_lt
    unfold Superblock.datastart
    omega
  refine ⟨fun x y j k b hx hy => ?_, fun x k b hx => ?_, fun b h1 h2 => ?_, fun x hx _ => ?_, fun x hx _ bn hbn => ?_,
    fun x hx k _ => ?_⟩
  · obtain ⟨rfl, rfl, -⟩ := rootOnly_slot.mp hx
    obtain ⟨rfl, rfl, -⟩ := rootOnly_slot.mp hy
    exact ⟨rfl, rfl⟩
  · obtain ⟨-, -, rfl⟩ := rootOnly_slot.mp hx
    exact ⟨le_rfl, hlt⟩
  · simp only [rootOnly_slot]
    simp only [rootOnly, decide_eq_true_eq]
    constructor
    · intro hle
      exact ⟨ROOTINO, 0, by simp, rfl, rfl, le_antisymm hle h1⟩
    · rintro ⟨x, k, -, -, -, rfl⟩
      exact le_rfl
  · rw [rootOnly_eq_root hx]
    simp only [rootOnly, Function.update_self]
    decide
  · rw [rootOnly_eq_root hx, rootOnly_blockAt]
    have := sb.datastart_pos
    simp only [rootOnly, Function.update_self, BSIZE]
    split <;> omega
  · rw [rootOnly_ne]
    rintro rfl
    simp [rootOnly] at hx

theorem rootOnly_consistent (hb : 0 < sb.nblocks) (hi : 1 < sb.ninodes) : (rootOnly sb).Consistent sb where
  blocks := rootOnly_blocksOwned hb
  meta_used b h := by simpa [rootOnly] using h.le
  inum x hx := by
    rw [rootOnly_eq_root hx]
    exact ⟨by decide, hi⟩
  aligned x hx := by
    rw [rootOnly_eq_root (x := x) (by rw [hx]; nofun)]
    simp [rootOnly, BSIZE, DIRENT]
  root := ⟨by simp [rootOnly], by simp [rootOnly_ent]⟩
  dot x hx := by
    rw [rootOnly_eq_root (x := x) (by rw [hx]; nofun)]
    simp [rootOnly_ent]
  dotdot x hx := by
    rw [rootOnly_eq_root (x := x) (by rw [hx]; nofun)]
    exact ⟨ROOTINO, by simp [rootOnly_ent]⟩
  proper x k n y he hk := by
    obtain ⟨-, -, ⟨rfl, -⟩ | ⟨rfl, -⟩⟩ := rootOnly_ent_some he <;> omega
  named x k n y he := by
    obtain ⟨-, rfl, -⟩ := rootOnly_ent_some he
    simp [rootOnly]
  parent x k n y he hn := absurd hn (rootOnly_not_proper he)
  unique x y hy hne := absurd (rootOnly_eq_root (by rw [hy]; nofun)) hne
  links := by
    refine ⟨fun x hx => ?_, fun x hx => ?_⟩
    · have hr : x = ROOTINO := rootOnly_eq_root fun h0 => by
        rw [h0] at hx
        rcases hx with h | h <;> cases h
      rw [hr] at hx
      rcases hx with h | h <;> simp [rootOnly] at h
    · have hr : x = ROOTINO := rootOnly_eq_root (by rw [hx]; nofun)
      subst hr
      have hc : (rootOnly sb).children sb ROOTINO = 0 := by
        classical
        refine Finset.card_eq_zero.mpr (Finset.filter_eq_empty_iff.mpr ?_)
        rintro y - ⟨hne, hy, -⟩
        exact hne (rootOnly_eq_root (by rw [hy]; nofun))
      rw [hc]
      simp [rootOnly]
  linked x hx := by
    rw [rootOnly_eq_root hx]
    simp [rootOnly]

end

end Disk

namespace Fs

variable {P : Type} [DecidableEq P] {sb : Superblock} {s t : Fs P} {p : P}

/-- The system has started on a consistent image: nothing is open, and the first process has the root as its
    current directory. The ages of the directories say that they form a tree. -/
structure Booted (sb : Superblock) (s : Fs P) : Prop where
  disk : s.disk.Consistent sb
  order : ∀ x k n y, s.disk.ent x k = some (n, y) → Disk.Proper n → (s.disk.dinode y).type = .dir → s.born x < s.born y
  born_lt : ∀ x, s.born x < s.clock
  cache : ∃ i p, (s.icache i).inum = ROOTINO ∧ (s.icache i).ref = 1 ∧ (s.icache i).valid = false ∧
    (s.proc p).cwd = some i ∧ (∀ j ≠ i, (s.icache j).ref = 0) ∧ ∀ q ≠ p, (s.proc q).cwd = none
  unlocked : ∀ i, (s.icache i).lock = none
  files : ∀ f, (s.ftable f).ref = 0 ∧ (s.ftable f).type = .none
  closed : ∀ q fd, (s.proc q).ofile fd = none
  held : ∀ q, s.held q = []
  put : ∀ q, (s.proc q).put = false

instance : NeZero NINODE := ⟨by decide⟩

def boot (sb : Superblock) (p : P) : Fs P where
  disk := Disk.rootOnly sb
  icache i := {
    inum := if i = 0 then ROOTINO else 0
    ref := if i = 0 then 1 else 0
    lock := none
    valid := false
    d := { type := .free, major := 0, minor := 0, nlink := 0, size := 0, addrs := fun _ => 0 } }
  ftable _ := { type := .none, ref := 0, readable := false, writable := false, ip := 0, off := 0 }
  proc q := { ofile := fun _ => none, cwd := if q = p then some 0 else none, put := false }
  held _ := []
  born _ := 0
  clock := 1

theorem boot_booted (hb : 0 < sb.nblocks) (hi : 1 < sb.ninodes) (p : P) : Booted sb (boot sb p) where
  disk := Disk.rootOnly_consistent hb hi
  order _ _ _ _ he hn := absurd hn (Disk.rootOnly_not_proper he)
  born_lt _ := Nat.one_pos
  cache := ⟨0, p, rfl, rfl, rfl, if_pos rfl, fun _ hj => if_neg hj, fun _ hq => if_neg hq⟩
  unlocked _ := rfl
  files _ := ⟨rfl, rfl⟩
  closed _ _ := rfl
  held _ := rfl
  put _ := rfl

def call (sb : Superblock) (s : Fs P) (l : P × Call P) : Option (Fs P) :=
  if live l.1 s then
    match (syscall sb l.1 l.2).run s with
    | .ok (_, t) => some t
    | .error _ => none
  else none

def machine (P : Type) [DecidableEq P] (sb : Superblock) : Machine (Fs P) (P × Call P) where
  init := Booted sb
  step s l t := s.call sb l = some t

theorem call_inv {l : P × Call P} (h : s.call sb l = some t) :
    live l.1 s = true ∧ ∃ r, (syscall sb l.1 l.2).run s = .ok (r, t) := by
  unfold call at h
  split_ifs at h with hl
  refine ⟨hl, ?_⟩
  split at h
  · rename_i r u hr
    cases h
    exact ⟨r, hr⟩
  · cases h

theorem reach_calls {calls : List (P × Call P)} (h : (machine P sb).Reach s) (hr : calls.foldlM (call sb) s = some t) :
    (machine P sb).Reach t :=
  .foldlM (fun _ _ _ => id) h hr

def smallDisk : Superblock where
  size := 45
  nblocks := 10
  ninodes := 8
  nblocks_lt := by decide
  size_le := by decide
  ninodes_le := by decide

theorem boot_reach (p : P) : (machine P smallDisk).Reach (boot smallDisk p) :=
  .init (boot_booted (by decide) (by decide) p)

end Fs

end Xv6
