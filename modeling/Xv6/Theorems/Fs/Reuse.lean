import Xv6.Theorems.Fs.Deadlock

/-! The inodes that open files and current directories refer to, in all interleavings: the cached copies agree with
    the disk, and none is reclaimed unless somebody reads in an inode that `ialloc` has just marked. -/

namespace Xv6.Fs
open Option List

variable {P : Type} {sb : Superblock}

structure Retained (i : Fin NINODE) (s t : Fs P) : Prop where
  inum : (t.icache i).inum = (s.icache i).inum
  type : t.typeOf i = s.typeOf i
  blocks : ∀ k b, (s.disk.dinode (s.icache i).inum).slot s.disk.data k = some b → t.disk.bitmap b = true
  dinode : (s.icache i).lock = none → t.disk.dinode (s.icache i).inum = s.disk.dinode (s.icache i).inum
  data : (s.icache i).lock = none → ∀ k b, (s.disk.dinode (s.icache i).inum).slot s.disk.data k = some b →
    t.disk.data b = s.disk.data b

variable {w : Calls P} {s t : Fs P} {q : P} {i j : Fin NINODE} {c : Prop}

/-! ### One action -/

section
variable [Fintype P]

theorem Retained.refl (hi : InvIf c sb s) (i : Fin NINODE) : Retained i s s :=
  ⟨rfl, rfl, fun k _ hb => hi.disk.sound.owns.used_of_own (x := ((s.icache i).inum, k)) hb, fun _ => rfl,
    fun _ _ _ _ => rfl⟩

theorem InvIf.target_ref (hi : InvIf c sb s) (ht : s.Target i) (hq : i ∈ s.held q) : 1 < (s.icache i).ref := by
  have h1 := ht.refs_pos
  have h2 := count_le_heldRefs s q i
  have h3 := count_pos_iff.mpr hq
  rw [hi.refs i]
  omega

theorem InvIf.target_eq (hi : InvIf c sb s) (ht : s.Target i) (hj : 0 < (s.icache j).ref)
    (hx : (s.icache j).inum = (s.icache i).inum) : j = i :=
  hi.uniq j i hj (hi.ref_pos_of_target ht) hx

theorem Spares.retained (h : Spares q s t) (hi : InvIf c sb s) (ht : s.Target i) (ha : s.typeOf i ≠ .free) :
    Retained i s t := by
  have hinum := h.inum i (hi.ref_pos_of_target ht)
  have hlast : ∀ j ∈ s.held q, (s.icache j).inum = (s.icache i).inum → (s.icache j).ref ≠ 1 := by
    intro j hj hx h1
    obtain rfl := hi.target_eq ht (by omega) hx
    have := hi.target_ref ht hj
    omega
  refine ⟨hinum, ?_, h.blocks _ hlast, fun hl => ?_, fun hl k b hb => ?_⟩
  · rw [typeOf, hinum]
    rcases h.dinode _ ha with heq | ⟨j, hx, hr, -, ⟨-, htype⟩ | ⟨hj, h1⟩⟩
    · rw [heq]
      rfl
    · exact htype
    · exact absurd h1 (hlast j hj hx)
  · rcases h.dinode _ ha with heq | ⟨j, hx, hr, -, ⟨hlock, -⟩ | ⟨hj, h1⟩⟩
    · exact heq
    · obtain rfl := hi.target_eq ht hr hx
      rw [hl] at hlock
      cases hlock
    · exact absurd h1 (hlast j hj hx)
  · rcases h.data _ k b hb with heq | ⟨j, hx, hlock⟩
    · exact heq
    · obtain rfl := hi.target_eq ht (hi.ref_pos_of_lock hlock) hx
      rw [hl] at hlock
      cases hlock

end

/-! ### Runs -/

section
variable [DecidableEq P]

/-- An inode without links that a process is about to take a reference to by its number, as `ialloc` does after
    it has marked the inode, has been read in by nobody. -/
def MarkedUnread (w : Calls P) (_ : Pool.Label P (Call P)) : Prop :=
  ∀ p x k, w.prog p = some (.act (fun s => s.iget p x) k) → w.state.Unread x

theorem Booted.alive (h : Booted sb s) (ht : s.Target i) : s.typeOf i ≠ .free := by
  obtain ⟨j, p, hin, -, -, hcwd, -, hcwds⟩ := h.cache
  rcases ht with ⟨f, hr, -, -⟩ | ⟨q, hq⟩
  · exact absurd (h.files f).1 hr
  · have hqp : q = p := by
      by_contra hne
      rw [dir_eq_cwd (h.put q), hcwds q hne] at hq
      cases hq
    subst hqp
    rw [dir_eq_cwd (h.put q), hcwd] at hq
    cases hq
    rw [typeOf, hin, h.disk.root.1]
    simp

variable [Fintype P]

theorem wild_good (h : (pool P sb).Reach w) : w.Good (discipline sb .wild) Idle :=
  Pool.reach_good (syscall_keeps (m := .wild) nofun) (fun _ hs => ⟨hs.inv, hs.idle⟩)
    (fun _ _ _ _ _ => ⟨fun _ _ _ _ _ => nofun, nofun⟩) h

theorem MarkedUnread.ready {l : Pool.Label P (Call P)} (h : MarkedUnread w l) : w.Ready (discipline sb .watched) := by
  intro p x hx a ha _ y hy
  cases x with
  | ret _ => cases ha
  | act f k =>
    cases ha
    cases hy
    exact h p y k hx

structure Intact (sb : Superblock) (w : Calls P) : Prop where
  good : w.Good (discipline sb .watched) Idle
  alive : ∀ i, w.state.Target i → w.state.typeOf i ≠ .free

theorem Intact.next {w' : Calls P} {l : Pool.Label P (Call P)} (h : Intact sb w) (hl : MarkedUnread w l)
    (hn : (pool P sb).step w l w') : Intact sb w' ∧ ∀ i, w.state.Target i → Retained i w.state w'.state := by
  obtain ⟨hg, heq | ⟨q, hq⟩⟩ := h.good.next (syscall_keeps (m := .watched) nofun) hl.ready hn nofun
  · refine ⟨⟨hg, ?_⟩, fun i _ => ?_⟩
    · rw [heq]
      exact h.alive
    · rw [heq]
      exact .refl h.good.inv i
  · have hret : ∀ i, w.state.Target i → Retained i w.state w'.state := fun i ht =>
      hq.spares.retained h.good.inv ht (h.alive i ht)
    refine ⟨⟨hg, fun i ht => ?_⟩, hret⟩
    rcases hq.spares.target i ht with ht | ha
    · rw [(hret i ht).type]
      exact h.alive i ht
    · exact ha

theorem intact_reach (h : (pool P sb).ReachWhere MarkedUnread w) : Intact sb w := by
  refine h.invariant (fun w hw => ?_) fun w l w' hi hl hn => (hi.next hl hn).1
  obtain ⟨hb, hidle⟩ := hw
  refine ⟨⟨hb.inv, fun p _ => hb.idle p, fun p x hx => ?_⟩, fun i => hb.alive⟩
  rw [hidle p] at hx
  cases hx

end

/-! ### Inodes by block -/

def fields (ip : Dinode) : InodeType × List Int :=
  (ip.type, ip.major :: ip.minor :: ip.nlink :: ip.size :: (range (NDIRECT + 1)).map fun k => (ip.addrs k : Int))

/-- Process `p` has written no inode beyond the inode area. -/
def Unwritten (sb : Superblock) (p : P) (s t : Fs P) : Prop :=
  ∀ i ∈ s.entries p, 0 < (s.icache i).ref → IBLOCK (s.icache i).inum sb < sb.bmapstart ∨
    fields (t.disk.dinode (s.icache i).inum) = fields (s.disk.dinode (s.icache i).inum)

instance (p : P) (s t : Fs P) : Decidable (Unwritten sb p s t) := inferInstanceAs (Decidable (∀ _ ∈ _, _ → _ ∨ _))

def byBlocks (sb : Superblock) (w : Calls P) : Calls P := { w with state := w.state.byBlock sb }

theorem Booted.inArea {s : Fs P} (h : Booted sb s) : s.InArea sb := by
  obtain ⟨i, p, hin, -, -, -, hothers, -⟩ := h.cache
  intro j hj
  have hji : j = i := by
    by_contra hne
    rw [hothers j hne] at hj
    exact absurd hj (by decide)
  rw [hji, hin]
  simp [IBLOCK, ROOTINO, IPB, Superblock.inodestart, Superblock.bmapstart]

/-- As long as the cache keeps to the inode area every number has a dinode of its own. -/
theorem byBlocks_eq {w : Calls P} (h : w.state.InArea sb) : byBlocks sb w = w := by
  have hd : w.state.dinodeOf sb = w.state.disk.dinode := by
    funext x
    refine ite_eq_left_iff.mpr fun hx => if_neg ?_
    rintro ⟨i, hr, rfl⟩
    exact hx (h i hr)
  rw [byBlocks, byBlock, hd]

def caller : Pool.Label P (Call P) → P
  | .start p _ => p
  | .step p => p

variable [DecidableEq P]

/-- The interleaved calls on a disk whose inodes are found by block. A step by which `iupdate` would write an inode
    into a block beyond the inode area is not followed. -/
def blockPool (P : Type) [DecidableEq P] (sb : Superblock) : Machine (Calls P) (Pool.Label P (Call P)) where
  init := (pool P sb).init
  step w l w' := (pool P sb).step (byBlocks sb w) l w' ∧ Unwritten sb (caller l) (byBlocks sb w).state w'.state

/-- The step does not bring an inode from beyond the inode area into the cache. -/
def KeepsArea (sb : Superblock) (w : Calls P) (l : Pool.Label P (Call P)) : Prop :=
  ∀ w', (blockPool P sb).step w l w' → w'.state.InArea sb

theorem blockPool_reach {w : Calls P} (h : (blockPool P sb).ReachWhere (KeepsArea sb) w) :
    (pool P sb).Reach w ∧ w.state.InArea sb := by
  refine Machine.ReachWhere.invariant (m := blockPool P sb) (I := fun w => (pool P sb).Reach w ∧ w.state.InArea sb)
    (fun w hw => ⟨.init hw, hw.1.inArea⟩) (fun w l w' ⟨hr, ha⟩ hl hn => ⟨hr.step (a := l) ?_, hl w' hn⟩) h
  have := hn.1
  rwa [byBlocks_eq ha] at this

/-! ### Two processes -/

def interleaving (ls : Schedule) : Option (Calls (Fin 2)) :=
  ls.foldlM (fun w l => w.next (syscall smallDisk) live l) start

theorem interleaving_reach {ls : Schedule} {w : Calls (Fin 2)}
    (h : interleaving ls = some w) : (pool (Fin 2) smallDisk).Reach w :=
  .foldlM (fun _ _ _ => id)
    (.init ⟨boot_booted (by decide) (by decide) 0, fun _ => rfl⟩) h

def calls (p : Fin 2) (c : Call (Fin 2)) (n : Nat) : Schedule :=
  .start p c :: replicate n (.step p)

/-- The current directory of process 1 has been unlinked, and then its parent, whose inode `ialloc` marks for process
    0; process 1 frees that inode again and gets it for a directory of its own, before process 0 goes on. -/
def markedFreed : Schedule :=
  calls 0 (.fork 1) 2 ++ calls 1 (.mkdir [47, 97]) 27 ++ calls 1 (.mkdir [47, 97, 47, 98]) 34 ++
    calls 1 (.chdir [47, 97, 47, 98]) 21 ++ calls 1 (.unlink [47, 97, 47, 98]) 26 ++ calls 1 (.unlink [47, 97]) 20 ++
    calls 0 (.open [47, 102] (O_CREATE ||| O_RDWR)) 8 ++ calls 1 (.chdir [46, 46]) 13 ++ calls 1 (.mkdir [101]) 27 ++
    replicate 13 (.step 0)

theorem markedFreed_ends : ∃ w, interleaving markedFreed = some w ∧ ∃ fd f, (w.state.proc 0).ofile fd = some f ∧
    (w.state.ftable f).type = .inode ∧ (w.state.ftable f).writable = true ∧
    w.state.typeOf (w.state.ftable f).ip = .dir ∧ 0 < (w.state.icache (w.state.ftable f).ip).ref ∧
    (w.state.icache (w.state.ftable f).ip).valid = true ∧ (w.state.icache (w.state.ftable f).ip).lock = none := by
  obtain ⟨w, hw, h⟩ := exists_of_any (o := interleaving markedFreed)
      (p := fun w => (w.state.proc 0).ofile ⟨0, by decide⟩ = some ⟨0, by decide⟩ ∧
        (w.state.ftable ⟨0, by decide⟩).type = .inode ∧ (w.state.ftable ⟨0, by decide⟩).writable = true ∧
        w.state.typeOf (w.state.ftable ⟨0, by decide⟩).ip = .dir ∧
        0 < (w.state.icache (w.state.ftable ⟨0, by decide⟩).ip).ref ∧
        (w.state.icache (w.state.ftable ⟨0, by decide⟩).ip).valid = true ∧
        (w.state.icache (w.state.ftable ⟨0, by decide⟩).ip).lock = none) (by decide +kernel)
  exact ⟨w, hw, _, _, h⟩

def NoOrphanRead (s : Fs P) : Prop :=
  ∀ i, 0 < (s.icache i).ref → (s.icache i).valid = true → (s.disk.dinode (s.icache i).inum).nlink ≠ 0

instance (s : Fs P) : Decidable s.NoOrphanRead := inferInstanceAs (Decidable (∀ _, _ → _ → _))

theorem NoOrphanRead.markedUnread {w : Calls P} (h : w.state.NoOrphanRead) (l : Pool.Label P (Call P)) :
    MarkedUnread w l := by
  intro p x k _ h0 i hr hx
  by_contra hv
  refine h i hr (Bool.eq_true_of_not_eq_false hv) ?_
  rw [hx]
  exact h0

def quietly (ls : Schedule) : Option (Calls (Fin 2)) :=
  ls.foldlM (fun w l => if w.state.NoOrphanRead then w.next (syscall smallDisk) live l else none) start

theorem quietly_reach {ls : Schedule} {w : Calls (Fin 2)}
    (h : quietly ls = some w) : (pool (Fin 2) smallDisk).ReachWhere MarkedUnread w := by
  refine Machine.ReachWhere.foldlM (fun w l w' hw => ?_)
    (.init ⟨boot_booted (by decide) (by decide) 0, fun _ => rfl⟩) h
  split at hw
  case isTrue hq => exact ⟨hq.markedUnread l, hw⟩
  case isFalse => cases hw

def openRoot : Schedule :=
  [.start 0 (.fork 1), .step 0, .step 0, .start 0 (.open [47] 0), .start 1 (.chdir [47])] ++
    replicate 7 (.step 0) ++ [.step 1]

/-- A run of the calls in which every inode in the cache is in the inode area. -/
def areaRun (ls : Schedule) : Option (Calls (Fin 2)) :=
  ls.foldlM (fun w l => if w.state.InArea smallDisk then
    (w.next (syscall smallDisk) live l).filter fun w' => decide (w'.state.InArea smallDisk) else none) start

theorem areaRun_reach {ls : Schedule} {w : Calls (Fin 2)} (h : areaRun ls = some w) :
    (blockPool (Fin 2) smallDisk).ReachWhere (KeepsArea smallDisk) w := by
  refine Machine.ReachWhere.foldlM (fun w l w' hw => ?_)
    (.init ⟨boot_booted (by decide) (by decide) 0, fun _ => rfl⟩) h
  split at hw
  case isFalse => cases hw
  case isTrue ha =>
    obtain ⟨hn, ha'⟩ := filter_eq_some_iff.mp hw
    refine ⟨fun v hv => ?_, ?_, ?_⟩
    · have hv := hv.1
      rw [byBlocks_eq ha] at hv
      rw [← some.inj (hn.symm.trans hv)]
      exact of_decide_eq_true ha'
    · rw [byBlocks_eq ha]
      exact hn
    · rw [byBlocks_eq ha]
      exact fun i _ hr => .inl (ha i hr)

def createWrite : Schedule :=
  calls 0 (.open [47, 102] (O_CREATE ||| O_RDWR)) 21 ++ calls 0 (.write ⟨0, by decide⟩ [104, 105]) 9

def blockRun (ls : Schedule) : Option (Calls (Fin 2)) :=
  ls.foldlM (fun w l => ((byBlocks smallDisk w).next (syscall smallDisk) live l).filter fun w' =>
    decide (Unwritten smallDisk (caller l) (byBlocks smallDisk w).state w'.state)) start

theorem blockRun_reach {ls : Schedule} {w : Calls (Fin 2)} (h : blockRun ls = some w) :
    (blockPool (Fin 2) smallDisk).Reach w := by
  refine Machine.ReachWhere.foldlM (fun w l w' hw => ?_)
    (.init ⟨boot_booted (by decide) (by decide) 0, fun _ => rfl⟩) h
  obtain ⟨hn, hu⟩ := filter_eq_some_iff.mp hw
  exact ⟨trivial, hn, of_decide_eq_true hu⟩

/-- Process 1 makes a file "/g" whose first 8 bytes, in block 38, are those of an inode with one link. Process 0 writes
    an entry "h" for inode 48, the first of block 38, into the directory "e" that it has open for writing. Process 1
    opens "e/h" and then goes on writing "/g". -/
def forged : Schedule :=
  markedFreed ++ calls 1 (.open [47, 103] (O_CREATE ||| O_RDWR)) 23 ++
    calls 1 (.write ⟨0, by decide⟩ [2, 0, 0, 0, 0, 0, 1, 0]) 9 ++
    calls 0 (.write ⟨0, by decide⟩ ([48, 0, 104] ++ replicate 13 0)) 9 ++ calls 1 (.open [101, 47, 104] 0) 19 ++
    calls 1 (.write ⟨0, by decide⟩ [5, 0, 0, 0]) 9

/-! ### Coherence and reuse -/

/-- The inode cache is coherent: in every interleaving of system calls that brings no inode from beyond the inode
    area into the cache there is one entry in use for an inode, and an entry that is valid and not locked holds the
    inode as it is on disk. -/
theorem icache_coherent [Fintype P] {w : Calls P} (h : (blockPool P sb).ReachWhere (KeepsArea sb) w) :
    (∀ i j, 0 < (w.state.icache i).ref → 0 < (w.state.icache j).ref →
      (w.state.icache i).inum = (w.state.icache j).inum → i = j) ∧
    ∀ i, 0 < (w.state.icache i).ref → (w.state.icache i).valid = true → (w.state.icache i).lock = none →
      (w.state.icache i).d = w.state.disk.dinodeAt sb (w.state.icache i).inum := by
  obtain ⟨hr, ha⟩ := blockPool_reach h
  have hi := (wild_good hr).inv
  refine ⟨hi.uniq, fun i hr hv _ => ?_⟩
  rw [Disk.dinodeAt, if_pos (ha i hr)]
  exact (hi.copy i hr hv).1

theorem icache_coherent_createWrite : ∃ w, areaRun createWrite = some w ∧ (w.state.icache 1).d.size = 2 ∧
    (w.state.icache 1).d = w.state.disk.dinodeAt smallDisk (w.state.icache 1).inum := by
  obtain ⟨w, hw, hr, hv, hl, hsize⟩ := exists_of_any (o := areaRun createWrite)
      (p := fun w => 0 < (w.state.icache 1).ref ∧ (w.state.icache 1).valid = true ∧ (w.state.icache 1).lock = none ∧
        (w.state.icache 1).d.size = 2) (by decide +kernel)
  exact ⟨w, hw, hsize, (icache_coherent (areaRun_reach hw)).2 1 hr hv hl⟩

/-- A cached inode is overwritten on disk as the data of a file. -/
theorem icache_stale : ∃ w, (blockPool (Fin 2) smallDisk).Reach w ∧ ∃ i, 0 < (w.state.icache i).ref ∧
    (w.state.icache i).valid = true ∧ (w.state.icache i).lock = none ∧
    (w.state.icache i).d ≠ w.state.disk.dinodeAt smallDisk (w.state.icache i).inum := by
  obtain ⟨w, hw, hr, hv, hl, h0, h5⟩ := exists_of_any (o := blockRun forged)
      (p := fun w => 0 < (w.state.icache 4).ref ∧ (w.state.icache 4).valid = true ∧ (w.state.icache 4).lock = none ∧
        (w.state.icache 4).d.size = 0 ∧
        (w.state.disk.dinodeAt smallDisk (w.state.icache 4).inum).size = 5) (by decide +kernel)
  refine ⟨w, blockRun_reach hw, 4, hr, hv, hl, fun heq => ?_⟩
  rw [heq, h5] at h0
  cases h0

/-- What is in use is not reclaimed: in every interleaving in which no marked inode is read in, no directory is
    open for writing, no block belongs to two inodes, `ialloc` passes over an inode that an open file, or a
    current directory not yet handed to `iput`, refers to, and the next step leaves it its type and its blocks, and
    its contents unless it is locked. -/
theorem target_retained [Fintype P] {w : Calls P} (h : (pool P sb).ReachWhere MarkedUnread w) :
    w.state.NoDirWritten ∧ w.state.disk.BlocksOwned sb ∧
    (∀ i, w.state.Target i → ∀ type, w.state.iallocTry type (w.state.icache i).inum = .ok (false, w.state)) ∧
    ∀ l w', MarkedUnread w l → (pool P sb).step w l w' → ∀ i, w.state.Target i → Retained i w.state w'.state := by
  have hi := intact_reach h
  refine ⟨hi.good.inv.writable nofun, hi.good.inv.disk.blocksOwned, fun i ht type => ?_,
    fun l w' hl hn => (hi.next hl hn).2⟩
  exact if_neg (hi.alive i ht)

theorem target_retained_openRoot : ∃ w w', quietly openRoot = some w ∧ w.state.Target 0 ∧
    w.next (syscall smallDisk) live (.step 1) = some w' ∧ (w'.state.icache 0).lock = some 1 ∧
    w.state.iallocTry .file (w.state.icache 0).inum = .ok (false, w.state) ∧ Retained 0 w.state w'.state := by
  obtain ⟨w, hw, hq, hc, hn⟩ := exists_of_any (o := quietly openRoot)
      (p := fun w => w.state.NoOrphanRead ∧ (w.state.proc 0).dir = some 0 ∧
        ((w.next (syscall smallDisk) live (.step 1)).map fun w' => (w'.state.icache 0).lock) = some (some 1))
        (by decide +kernel)
  obtain ⟨w', hw', hl⟩ := map_eq_some_iff.mp hn
  have ht : w.state.Target 0 := .inr ⟨0, hc⟩
  obtain ⟨-, -, halloc, hret⟩ := target_retained (quietly_reach hw)
  exact ⟨w, w', hw, ht, hw', hl, halloc 0 ht _,
    hret (.step 1) w' (NoOrphanRead.markedUnread hq _) hw' 0 ht⟩

theorem dir_open_for_writing : ∃ w, (pool (Fin 2) smallDisk).Reach w ∧ ∃ fd f, (w.state.proc 0).ofile fd = some f ∧
    (w.state.ftable f).type = .inode ∧ (w.state.ftable f).writable = true ∧
    w.state.typeOf (w.state.ftable f).ip = .dir := by
  obtain ⟨w, hw, fd, f, hfd, htype, hwr, hdir, -⟩ := markedFreed_ends
  exact ⟨w, interleaving_reach hw, fd, f, hfd, htype, hwr, hdir⟩

end Xv6.Fs
