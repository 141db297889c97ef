import Xv6.Theorems.Fs.Path
import Xv6.Theorems.Fs.Space

/-! Reading and writing a file: `filewrite`, in as many chunks as it takes, puts the buffer into the content at the
    offset of the file. -/

namespace Xv6
open List

namespace Disk

def contents (d : Disk) (x : Nat) : List UInt8 := (d.dinode x).content d.data 0 (d.dinode x).size

variable {sb : Superblock} {d d' : Disk} {x y off n : Nat}

@[simp] theorem contents_length : (d.contents x).length = (d.dinode x).size := Dinode.content_length

/-- `readi` returns the bytes from `off` on, at most `n` of them and none beyond the end. -/
theorem readi_contents (h : d.Ok sb) (ht : (d.dinode x).type.hasBlocks) (hoff : off ≤ (d.dinode x).size)
    (hn : off + n < 2 ^ 32) :
    readi sb d (d.dinode x) off n = .ok (some (((d.contents x).drop off).take n), d.dinode x, d) := by
  have hmod : (off + n) % 2 ^ 32 = off + n := Nat.mod_eq_of_lt hn
  rw [readi_eq (h.filled x ht) (h.size_le x ht) (by omega), if_neg (by omega)]
  have hslice : ((d.contents x).drop off).take (min n ((d.dinode x).size - off)) = _ := Dinode.content_slice (by omega)
  have hall : ((d.contents x).drop off).take ((d.dinode x).size - off) = (d.contents x).drop off :=
    take_of_length_le (by simp)
  rw [← hslice, ← take_take, hall]

theorem Kept.contents (h : d.Ok sb) (hk : Kept sb x d d') (hy : y ≠ x) (ht : (d.dinode y).type.hasBlocks) :
    d'.contents y = d.contents y := by
  unfold Disk.contents
  rw [hk.dinode y hy]
  refine map_congr_left fun i hi => byteAt_congr rfl (hk.data y hy) ?_
  have := mem_range.mp hi
  have := h.size_le y ht
  omega

end Disk

namespace Fs

variable {P : Type} [Fintype P] {sb : Superblock} {s s₀ t : Fs P} {p : P} {i : Fin NINODE}
  {f : Fin NFILE} {fd : Fin NOFILE} {src : List UInt8} {x k m n N fuel : Nat} {l : Option P}

/-- A file that process `p` may write: a regular file, with nobody else at it, whose offset is not beyond its end. -/
structure Writable (sb : Superblock) (p : P) (fd : Fin NOFILE) (f : Fin NFILE) (x : Nat) (s : Fs P) : Prop where
  inv : InvIf False sb s
  ofile : (s.proc p).ofile fd = some f
  type : (s.ftable f).type = .inode
  writable : (s.ftable f).writable = true
  unlocked : (s.icache (s.ftable f).ip).lock = none
  inum : (s.icache (s.ftable f).ip).inum = x
  file : (s.disk.dinode x).type = .file
  off_le : (s.ftable f).off ≤ (s.disk.dinode x).size

/-- `filewrite` has written `k` bytes of the buffer, and has advanced the offset by `n`; `l` has the inode's lock. -/
structure Writing (sb : Superblock) (p : P) (fd : Fin NOFILE) (f : Fin NFILE) (x N : Nat) (src : List UInt8) (s₀ : Fs P)
    (k n : Nat) (l : Option P) (s : Fs P) : Prop where
  inv : InvIf False sb s
  ftable : s.ftable = Function.update s₀.ftable f { s₀.ftable f with off := (s₀.ftable f).off + n }
  proc : s.proc = s₀.proc
  lock : (s.icache (s₀.ftable f).ip).lock = l
  inum : (s.icache (s₀.ftable f).ip).inum = x
  kept : s₀.disk.Kept sb x s.disk
  size : (s.disk.dinode x).size = max (s₀.disk.dinode x).size ((s₀.ftable f).off + k)
  byte : ∀ b < MAXFILE * BSIZE, (s.disk.dinode x).byteAt s.disk.data b =
    if (s₀.ftable f).off ≤ b ∧ b < (s₀.ftable f).off + k then src.getD (b - (s₀.ftable f).off) 0
    else (s₀.disk.dinode x).byteAt s₀.disk.data b
  enough : Disk.Enough sb N (s.disk.dinode x) s.disk

structure Wrote (sb : Superblock) (f : Fin NFILE) (x : Nat) (src : List UInt8) (s t : Fs P) : Prop where
  inv : InvIf False sb t
  ftable : t.ftable = Function.update s.ftable f { s.ftable f with off := (s.ftable f).off + src.length }
  proc : t.proc = s.proc
  contents : t.disk.contents x = (s.disk.contents x).take (s.ftable f).off ++ src ++
    (s.disk.contents x).drop ((s.ftable f).off + src.length)
  fields : t.disk.dinode x =
    { s.disk.dinode x with size := (t.disk.dinode x).size, addrs := (t.disk.dinode x).addrs }
  others : ∀ y ≠ x, t.disk.dinode y = s.disk.dinode y ∧
    ((s.disk.dinode y).type.hasBlocks → t.disk.contents y = s.disk.contents y)

namespace Writing

theorem start (h : Writable sb p fd f x s) (he : Disk.Enough sb N (s.disk.dinode x) s.disk) :
    Writing sb p fd f x N src s 0 0 none s where
  inv := h.inv
  ftable := (Function.update_eq_self f s.ftable).symm
  proc := rfl
  lock := h.unlocked
  inum := h.inum
  kept := .refl h.inv.disk
  size := (Nat.max_eq_left h.off_le).symm
  byte b _ := by rw [if_neg (by omega)]
  enough := he

theorem advance_ends (hmax : (s₀.ftable f).off + (n + m) < 2 ^ 32) :
    (Prog.op fun s => s.advance f m).Ends (Writing sb p fd f x N src s₀ (n + m) n l)
      (fun _ => Writing sb p fd f x N src s₀ (n + m) (n + m) l) fun _ => False := by
  refine .op (fun s _ t hs hr => ?_) fun s e _ hr => nomatch hr
  have hst := (advance_step (p := p) hs.inv hr).1
  unfold Fs.advance at hr
  cases hr
  refine ⟨hst.inv, ?_, hs.proc, hs.lock, hs.inum, hs.kept, hs.size, hs.byte, hs.enough⟩
  simp only [setFile, hs.ftable, Function.update_idem, Function.update_self]
  rw [Nat.add_assoc, Nat.mod_eq_of_lt hmax]

theorem wrote (h : Writing sb p fd f x N src s₀ src.length src.length none s) (hw : Writable sb p fd f x s₀)
    (hmax : (s₀.ftable f).off + src.length ≤ MAXFILE * BSIZE) : Wrote sb f x src s₀ s where
  inv := h.inv
  ftable := h.ftable
  proc := h.proc
  contents := by
    have hs := hw.inv.disk.size_le x (.inr hw.file)
    unfold Disk.contents
    rw [h.size]
    exact Dinode.content_write hw.off_le (by omega) h.byte
  fields := h.kept.fields
  others y hy := ⟨h.kept.dinode y hy, h.kept.contents hw.inv.disk hy⟩

section

variable (h : Writing sb p fd f x N src s₀ k n l s)
include h

theorem file : s.ftable f = { s₀.ftable f with off := (s₀.ftable f).off + n } := by
  rw [h.ftable, Function.update_self]

theorem fileRef (hw : Writable sb p fd f x s₀) : s.FileRef p (s₀.ftable f).ip :=
  ⟨fd, f, by rw [h.proc]; exact hw.ofile, by rw [h.file]; exact hw.type, by rw [h.file]⟩

theorem type (hw : Writable sb p fd f x s₀) : s.typeOf (s₀.ftable f).ip = .file := by
  rw [typeOf, h.inum, h.kept.fields]
  exact hw.file

variable [DecidableEq P]

theorem entry {e : Inode P} {L : List (Fin NINODE)} (hi : InvIf False sb t)
    (hs : EntrySet p (s₀.ftable f).ip e L s t) (he : e.inum = (s.icache (s₀.ftable f).ip).inum) :
    Writing sb p fd f x N src s₀ k n e.lock t where
  inv := hi
  ftable := hs.ftable.trans h.ftable
  proc := hs.proc.trans h.proc
  lock := by rw [hs.entry]
  inum := by rw [hs.entry, he, h.inum]
  kept := by rw [hs.disk]; exact h.kept
  size := by rw [hs.disk]; exact h.size
  byte := by rw [hs.disk]; exact h.byte
  enough := by rw [hs.disk]; exact h.enough

end

variable [DecidableEq P]

theorem ilock_ends (hw : Writable sb p fd f x s₀) :
    (Sys.ilock p (s₀.ftable f).ip).Ends (Writing sb p fd f x N src s₀ k n none)
      (fun _ => Writing sb p fd f x N src s₀ k n (some p)) fun _ => False := by
  refine .op (fun s _ t hs hr => ?_) fun s e hs hr => ?_
  · have hst := (ilock_step hs.inv (.inr (hs.fileRef hw)) hr).1
    obtain ⟨-, -, ⟨-, hset⟩ | ⟨-, hset⟩⟩ := ilock_inv hr
    · exact hs.entry hst.inv hset rfl
    · exact hs.entry hst.inv hset rfl
  · rcases ilock_error hr with ⟨-, h0⟩ | ⟨-, hl⟩ | ⟨-, hf⟩
    · exact (hs.inv.ref_pos (.inr (hs.fileRef hw))).ne' h0
    · exact hl hs.lock
    · rw [hs.type hw] at hf
      cases hf

theorem iunlock_ends : (Sys.iunlock p (s₀.ftable f).ip).Ends (Writing sb p fd f x N src s₀ k n (some p))
    (fun _ => Writing sb p fd f x N src s₀ k n none) fun _ => False := by
  refine .op (fun s _ t hs hr => ?_) fun s e hs hr => ?_
  · exact hs.entry (iunlock_step hs.inv hr).1.inv (iunlock_inv hr).2 rfl
  · rcases (iunlock_error hr).2 with h | h
    · exact h hs.lock
    · have := hs.inv.ref_pos_of_lock hs.lock
      omega

theorem writei (h : Writing sb p fd f x N src s₀ n n (some p) s) (hw : Writable sb p fd f x s₀) (hN : N ≤ MAXFILE)
    (hmax : (s₀.ftable f).off + src.length ≤ N * BSIZE) (hn : n ≤ src.length)
    (hm : ((src.drop n).take Sys.maxWrite).length = m) :
    ∃ t, s.writei sb (s₀.ftable f).ip ((s₀.ftable f).off + n) ((src.drop n).take Sys.maxWrite) = .ok (some m, t) ∧
      Writing sb p fd f x N src s₀ (n + m) n (some p) t := by
  have hchunk : m ≤ Sys.maxWrite := hm ▸ length_take_le ..
  have hrest : m ≤ src.length - n := by
    rw [← hm, length_take, length_drop]
    exact Nat.min_le_right ..
  have hlen : ((src.drop n).take Sys.maxWrite).length < 2 ^ 32 := hm ▸ hchunk.trans_lt (by decide)
  have hMAX : N * BSIZE ≤ MAXFILE * BSIZE := Nat.mul_le_mul_right _ hN
  have hfit : (s₀.ftable f).off + n + ((src.drop n).take Sys.maxWrite).length ≤ N * BSIZE := by omega
  have htype : (s.typeOf (s₀.ftable f).ip).hasBlocks := .inr (h.type hw)
  obtain ⟨r, t, hr, he⟩ := writei_enough h.inv h.lock htype hN hfit (by rw [h.inum]; exact h.enough)
  have hst := (writei_step h.inv h.lock htype False.elim hlen hr).1
  obtain ⟨d', rfl, hk, ⟨-, -, hbig⟩ | ⟨rfl, -, hsize, hbyte⟩⟩ := writei_inv h.inv h.lock htype hlen hr
  · rw [h.inum, h.size, hm] at hbig
    omega
  rw [h.inum] at hk hsize hbyte he
  rw [hm] at hsize hbyte
  refine ⟨_, by rw [hr, hm], hst.inv, h.ftable, h.proc, by rw [setCopy_icache]; exact h.lock,
    by rw [setCopy_icache]; exact h.inum, h.kept.trans hk, ?_, fun b hb => ?_, he⟩
  · change (d'.dinode x).size = _
    rw [hsize, h.size]
    omega
  · change (d'.dinode x).byteAt d'.data b = _
    rw [hbyte b hb, h.byte b hb]
    by_cases h1 : (s₀.ftable f).off + n ≤ b ∧ b < (s₀.ftable f).off + n + m
    · rw [if_pos h1, if_pos (by omega)]
      rw [getD_eq_getElem?_getD, List.getElem?_take_of_lt (by omega), List.getElem?_drop, getD_eq_getElem?_getD,
        show n + (b - ((s₀.ftable f).off + n)) = b - (s₀.ftable f).off by omega]
    · rw [if_neg h1]
      by_cases h2 : (s₀.ftable f).off ≤ b ∧ b < (s₀.ftable f).off + n
      · rw [if_pos h2, if_pos (by omega)]
      · rw [if_neg h2, if_neg (by omega)]

theorem writei_ends (hw : Writable sb p fd f x s₀) (hN : N ≤ MAXFILE)
    (hmax : (s₀.ftable f).off + src.length ≤ N * BSIZE)
    (hn : n ≤ src.length) (hm : ((src.drop n).take Sys.maxWrite).length = m) :
    (Sys.writei sb p (s₀.ftable f).ip ((s₀.ftable f).off + n) ((src.drop n).take Sys.maxWrite)).Ends
      (Writing sb p fd f x N src s₀ n n (some p))
      (fun r s => r = some m ∧ Writing sb p fd f x N src s₀ (n + m) n (some p) s) fun _ => False := by
  refine .each fun u hu => look_ends (v := u.disk.dinode x) (fun s hs => ?_) ?_
  · rw [hs, (hu.inv.copy_of_lock hu.lock).1, hu.inum]
  obtain ⟨t, hr, ht⟩ := hu.writei hw hN hmax hn hm
  rw [if_neg (by rw [hu.kept.fields, hw.file]; nofun)]
  refine .op (fun s r t' hs hr' => ?_) fun s e hs hr' => ?_
  · rw [hs, hr] at hr'
    cases hr'
    exact ⟨rfl, ht⟩
  · rw [hs, hr] at hr'
    cases hr'

theorem writeFrom_ends (hw : Writable sb p fd f x s₀) (hN : N ≤ MAXFILE)
    (hmax : (s₀.ftable f).off + src.length ≤ N * BSIZE) (hn : n ≤ src.length) (hf : src.length ≤ n + fuel) :
    (Sys.writeFrom sb p f (s₀.ftable f).ip fuel (src.drop n)).Ends (Writing sb p fd f x N src s₀ n n none)
      (fun r s => r = true ∧ Writing sb p fd f x N src s₀ src.length src.length none s) fun _ => False := by
  have hMAX : N * BSIZE ≤ MAXFILE * BSIZE := Nat.mul_le_mul_right _ hN
  have hMAX' : MAXFILE * BSIZE < 2 ^ 32 := by decide
  have hdone : (src.drop n).length = 0 → n = src.length := fun h0 => by
    rw [length_drop] at h0
    omega
  induction fuel generalizing n with
  | zero =>
    obtain rfl : n = src.length := by omega
    exact .pure fun s hs => ⟨by simp, hs⟩
  | succ fuel ih =>
    unfold Sys.writeFrom
    split
    · rename_i h0
      obtain rfl := hdone h0
      exact .pure fun s hs => ⟨rfl, hs⟩
    rename_i h0
    obtain ⟨m, hm⟩ : ∃ m, ((src.drop n).take Sys.maxWrite).length = m := ⟨_, rfl⟩
    have hpos : 0 < m ∧ n + m ≤ src.length := by
      rw [← hm, length_take]
      rw [length_drop] at h0 ⊢
      have : Sys.maxWrite = 1536 := rfl
      omega
    refine .bind (ilock_ends hw) fun _ => look_ends (fun s hs => by rw [hs.file]) ?_
    refine .bind (writei_ends hw hN hmax hn hm) fun r => .given (fun _ h => h.1) fun hr => ?_
    subst hr
    refine .bind ((advance_ends (by simp only [Option.getD_some]; omega)).pre fun _ h => h.2) fun _ =>
      .bind iunlock_ends fun _ => ?_
    simp only
    rw [if_neg (by rw [hm]; simp), drop_drop]
    exact ih hpos.2 (by omega) fun h1 => by
      rw [length_drop] at h1
      omega

end Writing

variable [DecidableEq P]

theorem write_wrote (hw : Writable sb p fd f x s) (hmax : (s.ftable f).off + src.length ≤ MAXFILE * BSIZE)
    (he : Disk.Enough sb (blocksFor ((s.ftable f).off + src.length)) (s.disk.dinode x) s.disk) :
    ∃ t, (Sys.write sb p fd src).run s = .ok ((src.length : Int), t) ∧ Wrote sb f x src s t := by
  obtain ⟨hle, hN⟩ := blocksFor_spec hmax
  have hloop := Writing.writeFrom_ends hw hN hle (Nat.zero_le _) (show src.length ≤ 0 + src.length by omega)
  have hends : (Sys.write sb p fd src).Ends (· = s) (fun r t => r = (src.length : Int) ∧ Wrote sb f x src s t) fun _ =>
    False := by
    refine look_ends (v := some f) (fun u hu => by rw [hu, hw.ofile]) ?_
    refine look_ends (v := s.ftable f) (fun u hu => by rw [hu]) ?_
    rw [if_neg (by rw [hw.writable]; nofun), if_pos hw.type]
    refine .bind (hloop.pre fun u hu => by rw [hu]; exact .start hw he) fun r => .given (fun _ h => h.1) fun hr => ?_
    rw [if_pos hr]
    exact .pure fun t ht => ⟨rfl, ht.2.wrote hw hmax⟩
  obtain ⟨r, t, hr, rfl, ht⟩ := hends.returns rfl
  exact ⟨t, hr, ht⟩

/-- `filewrite` of a buffer that fits, with enough free blocks, returns its length, and `readi` of the whole file then
    returns the content with the buffer in its place. On every consistent disk `readi` returns the part of the content
    that it is asked for. -/
theorem file_round_trip (hw : Writable sb p fd f x s) (hmax : (s.ftable f).off + src.length ≤ MAXFILE * BSIZE)
    (he : Disk.Enough sb (blocksFor ((s.ftable f).off + src.length)) (s.disk.dinode x) s.disk) :
    (∃ t, (Sys.write sb p fd src).run s = .ok ((src.length : Int), t) ∧ Wrote sb f x src s t ∧
      t.disk.readi sb (t.disk.dinode x) 0 (t.disk.dinode x).size =
        .ok (some ((s.disk.contents x).take (s.ftable f).off ++ src ++
          (s.disk.contents x).drop ((s.ftable f).off + src.length)), t.disk.dinode x, t.disk)) ∧
    ∀ d : Disk, d.Ok sb → ∀ y off n, (d.dinode y).type.hasBlocks → off ≤ (d.dinode y).size → off + n < 2 ^ 32 →
      d.readi sb (d.dinode y) off n = .ok (some (((d.contents y).drop off).take n), d.dinode y, d) := by
  refine ⟨?_, fun d hd y off n ht hoff hn => Disk.readi_contents hd ht hoff hn⟩
  obtain ⟨t, hr, ht⟩ := write_wrote hw hmax he
  have hfile : (t.disk.dinode x).type.hasBlocks := .inr (by rw [ht.fields]; exact hw.file)
  have hsize := ht.inv.disk.size_le x hfile
  refine ⟨t, hr, ht, ?_⟩
  have hmax' : MAXFILE * BSIZE < 2 ^ 32 := by decide
  rw [Disk.readi_contents ht.inv.disk hfile (Nat.zero_le _) (by omega), drop_zero, take_of_length_le (by simp),
    ht.contents]

def createAndWrite : List (Fin 2 × Call (Fin 2)) :=
  [(0, .open [47, 102] (O_CREATE ||| O_RDWR)), (0, .write ⟨0, NOFILE_pos⟩ [1, 2, 3])]

/-- A second write to the file goes behind the first. -/
theorem file_round_trip_second : ∃ s t, createAndWrite.foldlM (call smallDisk) (boot smallDisk 0) = some s ∧
    (Sys.write smallDisk 0 ⟨0, by decide⟩ [4, 5]).run s = .ok (2, t) ∧
    t.disk.readi smallDisk (t.disk.dinode 2) 0 (t.disk.dinode 2).size = .ok
    (some [1, 2, 3, 4, 5], t.disk.dinode 2, t.disk) := by
  obtain ⟨s, hs, hfd, hty, hwr, hin, hfile, hsize, hoff, he, hc⟩ := Option.exists_of_any
      (o := createAndWrite.foldlM (call smallDisk) (boot smallDisk 0))
      (p := fun s => (s.proc 0).ofile ⟨0, by decide⟩ = some ⟨0, by decide⟩ ∧ (s.ftable ⟨0, by decide⟩).type = .inode ∧
        (s.ftable ⟨0, by decide⟩).writable = true ∧ (s.icache (s.ftable ⟨0, by decide⟩).ip).inum = 2 ∧
        (s.disk.dinode 2).type = .file ∧ (s.disk.dinode 2).size = 3 ∧ (s.ftable ⟨0, by decide⟩).off = 3 ∧
        Disk.Enough smallDisk 1 (s.disk.dinode 2) s.disk ∧ s.disk.contents 2 = [1, 2, 3]) (by decide +kernel)
  have hreach := reach_calls (boot_reach 0) hs
  have hw : Writable smallDisk 0 ⟨0, by decide⟩ ⟨0, by decide⟩ 2 s :=
    ⟨(machine_inv hreach).1.mono False.elim, hfd, hty, hwr, (inode_refs_exact hreach _).2, hin, hfile,
      by rw [hsize, hoff]⟩
  have hmax : (s.ftable ⟨0, by decide⟩).off + [(4 : UInt8), 5].length ≤ MAXFILE * BSIZE := by
    rw [hoff]
    decide
  obtain ⟨⟨t, hr, -, hread⟩, -⟩ := file_round_trip hw hmax (by rw [hoff]; exact he)
  rw [hc, hoff] at hread
  exact ⟨s, t, hs, hr, hread⟩

end Fs

end Xv6
