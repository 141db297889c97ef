import Xv6.Theorems.Fs.Calls
import Xv6.Theorems.Fs.Image
import Mathlib.Algebra.BigOperators.Group.Finset.Piecewise

/-! Block ownership holds after any sequence of system calls. -/

namespace Xv6
open Finset

variable {sb : Superblock} {d : Disk}

namespace Disk

theorem BlocksOwned.ok (h : d.BlocksOwned sb) (hm : ∀ b < sb.datastart, d.bitmap b = true) : d.Ok sb := by
  have hb : ∀ {t : InodeType}, t.hasBlocks → t ≠ .free ∧ t ≠ .dev := by
    rintro t (rfl | rfl) <;> exact ⟨nofun, nofun⟩
  refine ⟨⟨⟨fun {x y a} hx hy => ?_, fun {x a} hx => h.inArea x.1 x.2 a hx, fun {a} hA => ?_⟩, hm⟩, h.free,
    fun x hx bn hbn => ?_, fun x hx => h.size_le x (hb hx).1 (hb hx).2⟩
  · obtain ⟨h1, h2⟩ := h.distinct x.1 y.1 x.2 y.2 a hx hy
    exact Prod.ext h1 h2
  · rw [h.bitmap a hA.1 hA.2]
    refine ⟨fun ⟨x, k, _, hs⟩ => ⟨(x, k), hs⟩, fun ⟨x, hs⟩ => ⟨x.1, x.2, fun hf => ?_, hs⟩⟩
    rw [own, slot_no_addrs (h.free x.1 hf)] at hs
    cases hs
  · rw [h.blocks x (hb hx).1 (hb hx).2 bn hbn]
    simp only [BSIZE]
    omega

theorem Ok.blocksOwned (h : d.Ok sb) : d.BlocksOwned sb := by
  have hb : ∀ {t : InodeType}, t ≠ .free → t ≠ .dev → t.hasBlocks := by
    intro t h1 h2
    cases t <;> simp_all [InodeType.hasBlocks]
  refine ⟨fun x y j k b hx hy => ?_, fun x k b hx => h.sound.owns.mem (x := (x, k)) hx, fun b h1 h2 => ?_,
    fun x h1 h2 => h.size_le x (hb h1 h2), fun x h1 h2 bn hbn => ?_, h.free⟩
  · exact Prod.ext_iff.mp (h.sound.owns.inj (x := (x, j)) (y := (y, k)) hx hy)
  · rw [h.sound.owns.used_iff ⟨h1, h2⟩]
    constructor
    · rintro ⟨x, hs⟩
      refine ⟨x.1, x.2, fun hf => ?_, hs⟩
      rw [own, slot_no_addrs (h.free x.1 hf)] at hs
      cases hs
    · rintro ⟨x, k, -, hs⟩
      exact ⟨(x, k), hs⟩
  · rw [h.filled x (hb h1 h2) bn hbn]
    simp only [BSIZE]
    omega

end Disk

namespace Fs

variable {P : Type} {s t : Fs P} {p q : P}

theorem Booted.idle (h : Booted sb s) (p : P) : Idle p s :=
  ⟨h.held p, fun i => by rw [h.unlocked i]; nofun, fun fd f => by rw [h.closed p fd]; nofun, h.put p⟩

section

variable [Fintype P]

theorem Booted.refs (h : Booted sb s) (j : Fin NINODE) :
    (s.icache j).ref = s.fileRefs j + s.cwdRefs j + s.heldRefs j := by
  obtain ⟨i, p, -, hr, -, hcwd, hothers, hcwds⟩ := h.cache
  have h1 : s.fileRefs j = 0 := by simp [fileRefs, h.files]
  have h2 : s.heldRefs j = 0 := by simp [heldRefs, h.held]
  have h3 : s.cwdRefs j = if i = j then 1 else 0 := by
    simp only [cwdRefs, dir_eq_cwd (h.put _)]
    rw [sum_eq_single p (fun q _ hq => by simp [hcwds q hq]) (fun hp => absurd (mem_univ p) hp), hcwd]
    simp
  rw [h1, h2, h3]
  by_cases hij : i = j
  · subst hij
    simp [hr]
  · simp [hij, hothers j (Ne.symm hij)]

theorem Booted.inv {c : Prop} (h : Booted sb s) : InvIf c sb s := by
  obtain ⟨i, p, hin, hr, hv, hcwd, hothers, hcwds⟩ := h.cache
  have honly : ∀ j, 0 < (s.icache j).ref → j = i := fun j hj => by
    by_contra hne
    rw [hothers j hne] at hj
    exact absurd hj (by decide)
  refine {
    disk := h.disk.blocks.ok h.disk.meta_used
    uniq := fun a b ha hb _ => (honly a ha).trans (honly b hb).symm
    inum_lt := fun a ha => by rw [honly a ha, hin]; decide
    copy := fun a ha hva => by rw [honly a ha, hv] at hva; cases hva
    refs := h.refs
    locked := fun a q hq => by rw [h.unlocked a] at hq; cases hq
    files := fun f => ?_
    unused := fun f _ => (h.files f).2
    opening := fun f _ => by rw [(h.files f).1]; decide
    writable := fun _ f hf => by rw [(h.files f).2] at hf; cases hf
    order := fun _ x k n y he h1 h2 => h.order x k n y he ⟨h1, h2⟩
    born_lt := h.born_lt }
  simp [h.files, slotRefs, fds, h.closed]

end

variable [Fintype P] [DecidableEq P]

/-! ### Every run -/

theorem machine_inv (h : (machine P sb).Reach s) : Inv sb s ∧ ∀ p, Idle p s := by
  refine h.invariant (I := fun s => Inv sb s ∧ ∀ p, Idle p s) (fun s (hs : Booted sb s) => ⟨hs.inv, hs.idle⟩)
    fun s l t ⟨hi, hid⟩ hst => ?_
  obtain ⟨hl, r, hr⟩ := call_inv hst
  obtain ⟨hinv, hidle, hkeep⟩ :=
    Discipline.Safe.run_ok (D := discipline sb .alone) (syscall_safe l.2) (fun _ _ => nofun)
    (fun _ => nofun) (hi.mono fun _ => trivial) (rest_of_idle (hid l.1) hl) hr
  refine ⟨hinv.mono fun _ => nofun, fun q => ?_⟩
  by_cases hq : q = l.1
  · rw [hq]
    exact hidle
  · exact hkeep (Idle q) (fun s t hs ht hg => idle_of_guar hs ht (Ne.symm hq) hg) (hid q)

theorem machine_error {c : Call P} {e : Halt} (h : (machine P sb).Reach s) (hl : live p s = true)
    (hr : (syscall sb p c).run s = .error e) : ∃ t, Err True p t e := by
  obtain ⟨hi, hid⟩ := machine_inv h
  obtain ⟨t, -, he⟩ := Discipline.Safe.run_error (D := discipline sb .alone) (syscall_safe c) (fun _ _ => nofun)
    (fun _ => nofun) (hi.mono fun _ => trivial) (rest_of_idle (hid p) hl) hr
  exact ⟨t, he.bfree, he.bmap, he.namex, fun _ => he.wait nofun⟩

/-- After any sequence of completed system calls on a consistent image every block of the data area has the
    one owner that the bitmap says it has, and no system call comes to free a free block or to ask for a block
    beyond the largest file. -/
theorem blocks_owned (h : (machine P sb).Reach s) : s.disk.BlocksOwned sb ∧ ∀ p c, live p s = true →
      (syscall sb p c).run s ≠ .error (.panic "freeing free block") ∧
        (syscall sb p c).run s ≠ .error (.panic "bmap: out of range") := by
  refine ⟨(machine_inv h).1.disk.blocksOwned, fun p c hl => ⟨fun hr => ?_, fun hr => ?_⟩⟩
  · obtain ⟨t, he⟩ := machine_error h hl hr
    exact he.bfree rfl
  · obtain ⟨t, he⟩ := machine_error h hl hr
    exact he.bmap rfl

/-- After any sequence of completed system calls the reference count of a cache entry is the number of open files
    and of current directories that refer to it, and no inode is locked. -/
theorem inode_refs_exact (h : (machine P sb).Reach s) (i : Fin NINODE) :
    (s.icache i).ref = (univ.filter fun f => 0 < (s.ftable f).ref ∧ (s.ftable f).type = .inode ∧
        (s.ftable f).ip = i).card + (univ.filter fun p => (s.proc p).cwd = some i).card ∧
      (s.icache i).lock = none := by
  obtain ⟨hi, hid⟩ := machine_inv h
  constructor
  · have hheld : s.heldRefs i = 0 := by simp [heldRefs, (hid _).held]
    rw [hi.refs i, hheld, fileRefs, cwdRefs, card_filter, card_filter, Nat.add_zero]
    simp only [Nat.pos_iff_ne_zero, dir_eq_cwd (hid _).put]
  · cases hl : (s.icache i).lock with
    | none => rfl
    | some p => exact absurd hl ((hid p).locks i)

/-- Process 0 makes a directory "/d" and a file "/d/f" in it, writes to the file and forks; the child unlinks the
    file and exits, and the parent closes it. -/
def writeUnlinkRun : List (Fin 2 × Call (Fin 2)) :=
  [(0, .mkdir [47, 100]), (0, .open [47, 100, 47, 102] (O_CREATE ||| O_RDWR)), (0, .write ⟨0, NOFILE_pos⟩ [1, 2, 3]),
    (0, .fork 1), (1, .unlink [47, 100, 47, 102]), (1, .exit), (0, .close ⟨0, NOFILE_pos⟩)]

theorem blocks_owned_writeUnlinkRun : ∃ t, writeUnlinkRun.foldlM (call smallDisk) (boot smallDisk 0) = some t ∧
    t.disk.BlocksOwned smallDisk ∧ (syscall smallDisk 0 .exit).run t ≠ .error (.panic "freeing free block") := by
  obtain ⟨t, ht⟩ := Option.isSome_iff_exists.mp
    (by decide +kernel : (writeUnlinkRun.foldlM (call smallDisk) (boot smallDisk 0)).isSome = true)
  obtain ⟨h1, h2⟩ := blocks_owned (reach_calls (boot_reach 0) ht)
  refine ⟨t, ht, h1, (h2 0 .exit ?_).1⟩
  have : ((writeUnlinkRun.foldlM (call smallDisk) (boot smallDisk 0)).map (live 0)) = some true := by decide +kernel
  rw [ht] at this
  exact Option.some.inj this

/-- Lookups that fail at different places: of nothing, of a file, below a file, of a directory for writing. -/
def failingRun : List (Fin 2 × Call (Fin 2)) :=
  [(0, .open [47, 102] O_CREATE), (0, .chdir []), (0, .open [47, 97] 0), (0, .chdir [47, 102]),
    (0, .mkdir [47, 102, 47, 100]), (0, .open [47] O_RDWR), (0, .unlink [47, 46]), (0, .link [47] [47, 97]),
    (0, .mknod [47, 102] 1 1), (0, .fork 1), (1, .chdir [46, 46])]

theorem inode_refs_exact_failingRun : ∃ t, failingRun.foldlM (call smallDisk) (boot smallDisk 0) = some t ∧
    (t.icache 0).ref = 2 ∧ (univ.filter fun p => (t.proc p).cwd = some 0).card = 2 ∧
    (t.icache 0).lock = none := by
  obtain ⟨t, ht, h⟩ := Option.exists_of_any (o := failingRun.foldlM (call smallDisk) (boot smallDisk 0))
      (p := fun t => (t.icache 0).ref = 2 ∧
        (univ.filter fun p => (t.proc p).cwd = some 0).card = 2) (by decide +kernel)
  exact ⟨t, ht, h.1, h.2, (inode_refs_exact (reach_calls (boot_reach 0) ht) 0).2⟩

end Fs

end Xv6
