import Xv6.Theorems.Fs.Files

/-! Programs of the file system keep the discipline: rules for the actions, then for the functions of fs.c. -/

namespace Xv6.Fs
open Multiset

variable {P : Type} {sb : Superblock} {s t : Fs P} {p q : P} {i j k : Fin NINODE}
  {H H' : Multiset (Fin NINODE)} {K : Finset (Fin NINODE)} {F G : Fs P → Prop} {x y n off : Nat}
  {name src path : List UInt8} {type : InodeType} {m : Mode} {c : Prop} {α β : Type}

theorem Keep.typeOf {D : Fin NINODE → Prop} (hk : Keep p D s t) (hi : D i) (ha : s.typeOf i ≠ .free) :
    t.typeOf i = s.typeOf i ∧ t.born (t.icache i).inum = s.born (s.icache i).inum := by
  have hn := hk.inum i hi
  have ht := hk.alive i hi ha
  unfold Fs.typeOf at ha ht ⊢
  rw [hn] at ht ⊢
  rcases hk.inode _ ht with h | h
  · exact h
  · exact absurd h.1 ha

def Older (s : Fs P) (k : Fin NINODE) (x : Nat) : Prop :=
  s.typeOf k = .dir ∧ ((s.disk.dinode x).type = .dir → s.born (s.icache k).inum < s.born x)

theorem Older.ne (h : s.Older k (s.icache j).inum) : j ≠ k := by
  rintro rfl
  exact lt_irrefl _ (h.2 h.1)

structure FileAt (p : P) (fd : Fin NOFILE) (f : Fin NFILE) (i : Fin NINODE) (s : Fs P) : Prop where
  ofile : (s.proc p).ofile fd = some f
  type : (s.ftable f).type = .inode
  ip : (s.ftable f).ip = i

theorem FileAt.fileRef {fd : Fin NOFILE} {f : Fin NFILE} (h : FileAt p fd f i s) : s.FileRef p i :=
  ⟨fd, f, h.ofile, h.type, h.ip⟩

theorem live_congr (h : (t.proc p).dir = (s.proc p).dir) (hs : live p s = true) : live p t = true := by
  unfold live
  rw [h]
  exact hs

theorem live_not_unused (h : live p s = true) : unused p s = false := by
  rw [Bool.eq_false_iff]
  intro hu
  obtain ⟨i, hi⟩ := Option.isSome_iff_exists.mp h
  have := (dir_eq_some.mp hi).1
  rw [(unused_iff.mp hu).1] at this
  cases this

theorem err_panic {msg : String} (h : msg ∉ ["freeing free block", "bmap: out of range", "namex"]) :
    Err c p s (.panic msg) := by
  simp only [List.mem_cons, List.not_mem_nil, or_false, not_or] at h
  obtain ⟨h1, h2, h3⟩ := h
  exact ⟨by simpa using h1, by simpa using h2, by simpa using h3, fun _ i hi => by cases hi⟩

theorem err_iput : Err c p s (.wait .iput i) := ⟨nofun, nofun, nofun, fun _ j hj => by cases hj⟩

theorem Own.mem (h : Own p H K s) : i ∈ s.held p ↔ i ∈ H := by rw [← h.held, mem_coe]

theorem Own.congr (h : Own p H K s) (hh : t.held = s.held) (hl : ∀ j, (t.icache j).lock = (s.icache j).lock) :
    Own p H K t :=
  ⟨by rw [hh]; exact h.held, fun j => by rw [hl]; exact h.locks j⟩

theorem At.imp (h : At p H K F s) (hFG : F s → G s) : At p H K G s := ⟨h.own, h.live, hFG h.fact⟩

section

variable [Fintype P]

theorem Framed.and (hF : Framed sb p H F) (hG : Framed sb p H G) : Framed sb p H fun s => F s ∧ G s :=
  fun s t hs ht hp hk h => ⟨hF s t hs ht hp hk h.1, hG s t hs ht hp hk h.2⟩

theorem Framed.mono (hF : Framed sb p H F) (h : ∀ i ∈ H, i ∈ H') : Framed sb p H' F := by
  refine fun s t hs ht hp hk => hF s t hs ht hp ⟨fun i hi => ?_, fun i hi => ?_, hk.inode, hk.clock, hk.file⟩
  · exact hk.inum i (hi.imp (h i) id)
  · exact hk.alive i (hi.imp (h i) id)

theorem Framed.cons (hF : Framed sb p H F) (i : Fin NINODE) : Framed sb p (i ::ₘ H) F :=
  hF.mono fun _ h => mem_cons_of_mem h

theorem framed_allOpen : Framed sb p H (AllOpen p) := fun s t _ _ hp hk h fd f hf => by
  rw [hp] at hf
  rw [(hk.file fd f hf).type]
  exact h fd f hf

theorem Framed.typed (hF : Framed sb p H F) (hi : i ∈ H ∨ ∀ s, F s → s.FileRef p i) :
    Framed sb p H fun s => F s ∧ s.typeOf i = type ∧ type ≠ .free := fun s t hs ht hp hk h => by
  obtain ⟨hf, rfl, hne⟩ := h
  exact ⟨hF s t hs ht hp hk hf, (hk.typeOf (hi.imp id fun h => h s hf) hne).1, hne⟩

theorem framed_type (hi : i ∈ H) (ht : type ≠ .free) : Framed sb p H fun s => s.typeOf i = type :=
  fun s t _ _ _ hk h => by
    change s.typeOf i = type at h
    rw [(hk.typeOf (.inl hi) (by rwa [h])).1]
    exact h

theorem framed_alive (hi : i ∈ H) : Framed sb p H fun s => s.typeOf i ≠ .free :=
  fun _ _ _ _ _ hk h => hk.alive i (.inl hi) h

theorem framed_dir (hi : i ∈ H) : Framed sb p H fun s => s.typeOf i = .dir := framed_type hi nofun

theorem Framed.const (A : Prop) : Framed sb p H fun _ => A := fun _ _ _ _ _ _ h => h

theorem Framed.imp {A : Prop} (hF : A → Framed sb p H F) : Framed sb p H fun s => A → F s :=
  fun s t hs ht hp hk h ha => hF ha s t hs ht hp hk (h ha)

theorem framed_inum (hi : i ∈ H) : Framed sb p H fun s => (s.icache i).inum = x := fun s t _ _ _ hk h => by
  rw [← h]
  exact hk.inum i (.inl hi)

theorem framed_older (hk : k ∈ H) : Framed sb p H fun s => s.Older k x := fun s t hs _ _ hkp h => by
  obtain ⟨ht, hb⟩ := h
  have hne : s.typeOf k ≠ .free := by rw [ht]; nofun
  obtain ⟨h1, h2⟩ := hkp.typeOf (.inl hk) hne
  refine ⟨by rw [h1, ht], fun hx => ?_⟩
  rw [h2]
  rcases hkp.inode x (by rw [hx]; nofun) with ⟨h3, h4⟩ | ⟨-, h4⟩
  · rw [h4]
    exact hb (by rw [← h3]; exact hx)
  · have := hs.born_lt (s.icache k).inum
    omega

theorem framed_older_entry (hk : k ∈ H) (hj : j ∈ H) : Framed sb p H fun s => s.Older k (s.icache j).inum :=
  fun s t hs ht hp hkp h => by
    change t.Older k (t.icache j).inum
    rw [hkp.inum j (.inl hj)]
    exact framed_older hk s t hs ht hp hkp h

theorem framed_fileAt {fd : Fin NOFILE} {f : Fin NFILE} : Framed sb p H (FileAt p fd f i) := fun s t _ _ hp hk h =>
  ⟨by rw [hp]; exact h.ofile, by rw [(hk.file fd f h.ofile).type]; exact h.type,
    by rw [(hk.file fd f h.ofile).ip]; exact h.ip⟩

theorem framed_live : Framed sb p H fun s => live p s = true := fun _ _ _ _ hp _ h => live_congr (by rw [hp]) h

theorem Step.mono {D D' : Fin NINODE → Prop} (h : Step c sb p D s t) (hd : ∀ i, D' i → D i) : Step c sb p D' s t :=
  ⟨h.inv, h.guar, h.proc, fun i hi => h.keep.inum i (hi.imp (hd i) id), fun i hi => h.keep.alive i (hi.imp (hd i) id),
    h.keep.inode, h.keep.clock, h.keep.file⟩

theorem InvIf.idleStep (h : InvIf c sb s) (ho : Own p H K s) : Step c sb p (· ∈ H) s s := by
  have hq : Quiet s s := ⟨fun _ _ => rfl, fun _ => rfl, rfl, rfl, fun _ _ _ _ => .refl _⟩
  exact ⟨h, hq.guar h (fun _ _ => ⟨rfl, fun _ => Iff.rfl, .inl rfl⟩) (h.spares rfl (fun _ _ => rfl) fun _ => .inl), rfl,
    hq.keep fun i hi => h.ref_pos (p := p) (hi.imp ho.mem.mpr id)⟩

def Found (tidy : Prop) (dp : Fin NINODE) (name : List UInt8) : Option (Fin NINODE × Nat) → Fs P → Prop
  | none, s => s.typeOf dp = .dir
  | some (j, off), s => s.typeOf dp = .dir ∧ (∃ k, off = k * DIRENT) ∧
    (tidy → cname name ≠ Sys.dot → cname name ≠ Sys.dotdot → s.Older dp (s.icache j).inum)

def refsOf (H : Multiset (Fin NINODE)) (r : Option (Fin NINODE × α)) : Multiset (Fin NINODE) :=
  match r with
  | none => H
  | some (j, _) => j ::ₘ H

theorem Framed.found (hF : Framed sb p H F) (hi : i ∈ H) (r : Option (Fin NINODE × Nat)) :
    Framed sb p (refsOf H r) fun s => F s ∧ Found c i name r s := by
  rcases r with - | ⟨j, off⟩
  · exact hF.and (framed_dir hi)
  · have hm : i ∈ j ::ₘ H := mem_cons_of_mem hi
    exact (hF.cons j).and ((framed_dir hm).and ((Framed.const _).and
      (.imp fun _ => .imp fun _ => .imp fun _ => framed_older_entry hm (mem_cons_self j H))))

end

variable [Fintype P] [DecidableEq P]

/-! ### Stability -/

theorem own_stable (hF : Framed sb p H F) {A : Fs P → Prop} (hA : ∀ s, A s → Own p H K s ∧ unused p s = false ∧ F s)
    (hA' : ∀ s t, Own p H K t → t.proc p = s.proc p → F t → A s → A t) : (discipline sb m).Stable p A := by
  rintro s t hs ht ⟨-, q, hq, hg⟩ ha
  obtain ⟨ho, hu, hf⟩ := hA s ha
  have hpr := hg.priv p hq.symm
  have hproc : t.proc p = s.proc p := by
    rcases hpr.proc with h | ⟨h, -⟩
    · exact h
    · rw [hu] at h
      cases h
  have hown : Own p H K t := ⟨by rw [hpr.held]; exact ho.held, fun i => by rw [hpr.locks]; exact ho.locks i⟩
  refine hA' s t hown hproc (hF s t hs.core ht.core hproc ?_ hf) ha
  have hk := hg.keep p hq.symm
  have hmem : ∀ i, i ∈ H ↔ i ∈ s.held p := fun i => by rw [← ho.held, mem_coe]
  exact ⟨fun i hi => hk.inum i (by rwa [hmem] at hi), fun i hi => hk.alive i (by rwa [hmem] at hi), hk.inode, hk.clock,
    hk.file⟩

theorem at_stable (hF : Framed sb p H F) : (discipline sb m).Stable p (At p H K F) := by
  refine own_stable hF (fun s h => ⟨h.own, live_not_unused h.live, h.fact⟩) fun s t ho hp hf h => ⟨ho, ?_, hf⟩
  exact live_congr (by rw [hp]) h.live

/-! ### The rule for an action -/

variable {f : Fs P → Except Halt (β × Fs P)}

theorem op_safe {H₀ : Multiset (Fin NINODE)} {H' : β → Multiset (Fin NINODE)}
    {K' : β → Finset (Fin NINODE)} {E : β → Fs P → Prop} (hF : Framed sb p H₀ F)
    (hE : ∀ b, Framed sb p (H' b) (fun s => F s ∧ E b s))
    (hok : ∀ s b t, InvIf m.Tidy sb s → Own p H K s → F s → f s = .ok (b, t) →
      Step m.Tidy sb p (· ∈ H₀) s t ∧ Own p (H' b) (K' b) t ∧ (F t → E b t))
    (herr : ∀ s e, InvIf m.Tidy sb s → Own p H K s → F s → f s = .error e → Err m.Tidy p s e) :
    (discipline sb m).Safe p (Prog.op f) (At p H K F) fun b => At p (H' b) (K' b) fun s => F s ∧ E b s := by
  refine .op (fun b => at_stable (hE b)) (fun s b t hs ha hr _ => ?_) fun s e hs ha hr =>
    herr s e hs ha.own ha.fact hr
  obtain ⟨hstep, hown, he⟩ := hok s b t hs ha.own ha.fact hr
  have hf := hF s t hs.core hstep.inv.core hstep.proc hstep.keep ha.fact
  exact ⟨hstep.inv, hstep.guar, hown, live_congr (by rw [hstep.proc]) ha.live, hf, he hf⟩

theorem op_keep {H₀ : Multiset (Fin NINODE)} {M : β → Multiset (Fin NINODE)}
    {L : β → Finset (Fin NINODE)} (hF : Framed sb p H₀ F) (hF' : ∀ b, Framed sb p (M b) F)
    (hok : ∀ s b t, InvIf m.Tidy sb s → Own p H K s → F s → f s = .ok (b, t) →
      Step m.Tidy sb p (· ∈ H₀) s t ∧ Own p (M b) (L b) t)
    (herr : ∀ s e, InvIf m.Tidy sb s → Own p H K s → F s → f s = .error e → Err m.Tidy p s e) :
    (discipline sb m).Safe p (Prog.op f) (At p H K F) fun b => At p (M b) (L b) F := by
  refine (op_safe (E := fun _ _ => True) hF (fun b => (hF' b).and (.const True))
    (fun s b t hs ho hf hr => ?_) herr).post fun b s _ h => ⟨h.own, h.live, h.fact.1⟩
  exact ⟨(hok s b t hs ho hf hr).1, (hok s b t hs ho hf hr).2, fun _ => trivial⟩

theorem op_look {E : β → Fs P → Prop} (hE : ∀ b, Framed sb p H (fun s => F s ∧ E b s))
    (hok : ∀ s b t, InvIf m.Tidy sb s → Own p H K s → F s → f s = .ok (b, t) → t = s ∧ E b s)
    (herr : ∀ s e, InvIf m.Tidy sb s → Own p H K s → F s → f s = .error e → Err m.Tidy p s e) :
    (discipline sb m).Safe p (Prog.op f) (At p H K F) fun b => At p H K fun s => F s ∧ E b s := by
  refine .op (fun b => at_stable (hE b)) (fun s b t hs ha hr _ => ?_) fun s e hs ha hr =>
    herr s e hs ha.own ha.fact hr
  obtain ⟨rfl, he⟩ := hok s b t hs ha.own ha.fact hr
  have hstep := hs.idleStep ha.own
  exact ⟨hs, hstep.guar, ha.own, ha.live, ha.fact, he⟩

theorem Safe.weaken {x : FsProg P α} {Q : α → Fs P → Prop} (h : (discipline sb m).Safe p x (At p H K G) Q)
    (hFG : ∀ s, InvIf m.Tidy sb s → F s → G s) : (discipline sb m).Safe p x (At p H K F) Q :=
  h.pre fun s hs ha => ⟨ha.own, ha.live, hFG s hs ha.fact⟩

/-! ### Inodes -/

theorem panic_safe {msg : String} {Q : α → Fs P → Prop} {A : Fs P → Prop}
    (h : msg ∉ ["freeing free block", "bmap: out of range", "namex"]) :
    (discipline sb m).Safe p (Sys.panic msg) A Q := by
  intro s _ _
  exact err_panic h

theorem iget_safe (hF : Framed sb p H F) (hx : x < 2 ^ 16) :
    (discipline sb m).Safe p (Prog.op fun s => s.iget p x) (At p H K F)
      fun i => At p (i ::ₘ H) K fun s => F s ∧ (s.icache i).inum = x := by
  refine op_safe hF (fun i => (hF.cons i).and (framed_inum (mem_cons_self i H))) (fun s i t hs ho _ hr => ?_)
    fun s e _ _ _ hr => ?_
  · obtain ⟨hst, hh, hl, hn, -, -⟩ := iget_step hs hx hr
    exact ⟨hst.mono fun i => ho.mem.mpr, ⟨by rw [hh, ← ho.held]; rfl, fun j => by rw [hl]; exact ho.locks j⟩,
      fun _ => hn⟩
  · rw [iget_error hr]
    exact err_panic (by decide)

/-- Locking an inode that the process refers to. With locks in hand, those have to be on older directories in
    tidy runs. -/
theorem ilock_safe (hF : Framed sb p H F) (hi : i ∈ H ∨ ∀ s, F s → s.FileRef p i)
    (hw : m.Tidy → ∀ s, InvIf m.Tidy sb s → F s → ∀ k ∈ K, s.Older k (s.icache i).inum) :
    (discipline sb m).Safe p (Sys.ilock p i) (At p H K F) fun _ => At p H (insert i K) F := by
  refine op_keep hF (fun _ => hF) (fun s _ t hs ho hf hr => ?_) fun s e hs ho hf hr => ?_
  · obtain ⟨hst, hh, hl, -⟩ := ilock_step hs (hi.imp ho.mem.mpr fun h => h s hf) hr
    refine ⟨hst.mono fun i => ho.mem.mpr, by rw [hh]; exact ho.held, fun j => ?_⟩
    rw [hl, ho.locks, Finset.mem_insert]
    exact or_comm
  · rcases ilock_error hr with ⟨rfl, -⟩ | ⟨rfl, -⟩ | ⟨rfl, -⟩
    · exact err_panic (by decide)
    · refine ⟨nofun, nofun, nofun, fun hm j hj k hk => ?_⟩
      cases hj
      exact hw hm s hs hf k ((ho.locks k).mp hk)
    · exact err_panic (by decide)

theorem ilock_again (hi : i ∈ K) (hw : m.Tidy → ∀ s, InvIf m.Tidy sb s → F s → ∀ k ∈ K, s.Older k (s.icache i).inum) :
    (discipline sb m).Safe p (Sys.ilock p i) (At p H K F) fun _ _ => False := by
  refine .op (fun _ => .const _) (fun s _ t _ ha hr _ => ?_) fun s e hs ha hr => ?_
  · have := (ilock_inv hr).2.1
    rw [(ha.own.locks i).mpr hi] at this
    cases this
  · rcases ilock_error hr with ⟨rfl, -⟩ | ⟨rfl, -⟩ | ⟨rfl, -⟩
    · exact err_panic (by decide)
    · refine ⟨nofun, nofun, nofun, fun hm j hj k hk => ?_⟩
      cases hj
      exact hw hm s hs ha.fact k ((ha.own.locks k).mp hk)
    · exact err_panic (by decide)

section

variable (hF : Framed sb p H F)
include hF

theorem iunlock_safe : (discipline sb m).Safe p (Sys.iunlock p i) (At p H K F) fun _ => At p H (K.erase i) F := by
  refine op_keep hF (fun _ => hF) (fun s _ t hs ho _ hr => ?_) fun s e _ _ _ hr => ?_
  · obtain ⟨hst, hh, hl, -⟩ := iunlock_step hs hr
    refine ⟨hst.mono fun i => ho.mem.mpr, by rw [hh]; exact ho.held, fun j => ?_⟩
    rw [hl, ho.locks, Finset.mem_erase]
    exact and_comm
  · rw [(iunlock_error hr).1]
    exact err_panic (by decide)

/-- An inode that the process has locked itself is never put: `iput` waits for ever. -/
theorem iput_safe : (discipline sb m).Safe p (Sys.iput p i) (At p (i ::ₘ H) K F) fun _ => At p H K F := by
  refine .bind (R := fun _ => At p (i ::ₘ H) K fun s => F s ∧ i ∉ K) ?_ fun _ => ?_
  · refine op_safe hF (fun _ => (hF.cons i).and (.const _)) (fun s _ t hs ho _ hr => ?_) fun s e hs _ _ hr => ?_
    · have hm : i ∈ s.held p := ho.mem.mpr (mem_cons_self i H)
      obtain ⟨hst, hh, hl⟩ := iputTest_step hs hm hr
      refine ⟨hst.mono fun j hj => ?_, ho.congr hh hl, fun _ hi => ?_⟩
      · rw [← mem_coe, ← coe_erase, ho.held, erase_cons_head]
        exact hj
      · have := (iputTest_inv hs hr).1
        rw [(ho.locks i).mpr hi] at this
        cases this
    · rw [(iputTest_error hs hr).1]
      exact err_iput
  · refine (op_keep (hF.and (.const _)) (fun _ => hF.and (.const _)) (fun s _ t hs ho hf hr => ?_)
      fun s e _ _ _ hr => by cases hr).post fun _ s _ h => h.imp And.left
    have hm : i ∈ s.held p := ho.mem.mpr (mem_cons_self i H)
    obtain ⟨hst, hh, hl⟩ := iputDrop_step hs hm (fun hc => hf.2 ((ho.locks i).mp hc)) hr
    refine ⟨hst.mono fun j hj => ho.mem.mpr (mem_cons_of_mem hj), ?_, fun j => by rw [hl]; exact ho.locks j⟩
    rw [hh, ← coe_erase, ho.held, erase_cons_head]

theorem iunlockput_safe :
    (discipline sb m).Safe p (Sys.iunlockput p i) (At p (i ::ₘ H) K F) fun _ => At p H (K.erase i) F :=
  .bind (iunlock_safe (hF.cons i)) fun _ => iput_safe hF

theorem inode_safe (hi : i ∈ K) (hr : i ∈ H ∨ ∀ s, F s → s.FileRef p i) :
    (discipline sb m).Safe p (Sys.inode i) (At p H K F)
      fun d => At p H K fun s => F s ∧ s.typeOf i = d.type ∧ d.type ≠ .free := by
  refine op_look (fun d => hF.typed hr) (fun s d t hs ho _ hr => ?_) fun s e _ _ _ hr => by cases hr
  cases hr
  obtain ⟨hc, hne⟩ := hs.copy_of_lock ((ho.locks i).mpr hi)
  rw [hc]
  exact ⟨rfl, rfl, hne⟩

theorem inum_safe (hr : i ∈ H) : (discipline sb m).Safe p (Sys.inum i) (At p H K F)
      fun x => At p H K fun s => F s ∧ (s.icache i).inum = x ∧ x < 2 ^ 16 := by
  refine op_look (fun d => hF.and ((framed_inum hr).and (.const _))) (fun s d t hs ho _ h => ?_) fun s e _ _ _ h => by
    cases h
  cases h
  exact ⟨rfl, rfl, hs.inum_lt i (hs.ref_pos (.inl (ho.mem.mpr hr)))⟩

theorem update_safe (hi : i ∈ K) {g : Dinode → Dinode}
    (hg : ∀ d, (g d).type = d.type ∧ (g d).size = d.size ∧ (g d).addrs = d.addrs) :
    (discipline sb m).Safe p (Prog.op fun s => s.update i g) (At p H K F) fun _ => At p H K F := by
  refine op_keep hF (fun _ => hF) (fun s _ t hs ho _ hr => ?_) fun s e _ _ _ hr => by cases hr
  obtain ⟨hst, hh, hl, -⟩ := update_step hs ((ho.locks i).mpr hi) hg hr
  exact ⟨hst.mono fun i => ho.mem.mpr, ho.congr hh hl⟩

theorem addNlink_safe (hi : i ∈ K) (n : Int) :
    (discipline sb m).Safe p (Sys.addNlink i n) (At p H K F) fun _ => At p H K F :=
  update_safe hF hi fun _ => ⟨rfl, rfl, rfl⟩

section

variable (hr : i ∈ H ∨ ∀ s, F s → s.FileRef p i)
include hr

theorem console_safe {a : α} :
    (discipline sb m).Safe p (Sys.iunlock p i >>= fun _ => Sys.ilock p i >>= fun _ => pure a) (At p H {i} F)
      fun _ => At p H {i} F := by
  refine .bind (iunlock_safe hF) fun _ => .bind (ilock_safe hF hr ?_) fun _ => ?_
  · simp
  · rw [Finset.erase_singleton, insert_empty_eq]
    exact .pure fun _ _ h => h

/-- The lead of `readi` and `writei`: a device is the console or has no driver, and anything else has blocks. -/
theorem device_safe {a b : α} {c : FsProg P α} (hc : ∀ d : Dinode, d.type ≠ .dev →
      (∀ s, F s ∧ s.typeOf i = d.type ∧ d.type ≠ .free → (s.typeOf i).hasBlocks) →
      (discipline sb m).Safe p c (At p H {i} fun s => F s ∧ s.typeOf i = d.type ∧ d.type ≠ .free)
        fun _ => At p H {i} F) :
    (discipline sb m).Safe p (Sys.inode i >>= fun ip => if ip.type = .dev then
        if ip.major = CONSOLE then Sys.iunlock p i >>= fun _ => Sys.ilock p i >>= fun _ => pure a else pure b else c)
      (At p H {i} F) fun _ => At p H {i} F := by
  refine .bind (inode_safe hF (Finset.mem_singleton_self i) hr) fun d => ?_
  split
  · refine Safe.weaken ?_ fun s _ h => And.left h
    split
    · exact console_safe hF hr
    · exact .pure fun _ _ h => h
  · rename_i hd
    refine hc d hd fun s ⟨_, h1, h2⟩ => ?_
    rw [h1]
    cases hdt : d.type <;> simp_all [InodeType.hasBlocks]

theorem readi_safe (hn : n < 2 ^ 32) {con : Option (List UInt8)} :
    (discipline sb m).Safe p (Sys.readi sb p i off n con) (At p H {i} F) fun _ => At p H {i} F := by
  refine device_safe hF hr fun d hd hb => ?_
  refine (op_look (E := fun _ _ => True) (fun _ => (hF.typed hr).and (.const _)) (fun s r t hs ho hf h => ?_)
    fun s e hs ho hf h => ?_).post fun _ s _ h => h.imp fun h => h.1.1
  · obtain ⟨r', h'⟩ : ∃ r, s.readi sb i off n = .ok (r, s) :=
      readi_same hs ((ho.locks i).mpr (Finset.mem_singleton_self i)) (hb s hf) hn
    rw [h'] at h
    cases h
    exact ⟨rfl, trivial⟩
  · obtain ⟨r', h'⟩ : ∃ r, s.readi sb i off n = .ok (r, s) :=
      readi_same hs ((ho.locks i).mpr (Finset.mem_singleton_self i)) (hb s hf) hn
    rw [h'] at h
    cases h

theorem writei_safe
    (hp : m.Tidy → ∀ s, InvIf m.Tidy sb s → F s → Plain (s.typeOf i)) (hlen : src.length < 2 ^ 32) :
    (discipline sb m).Safe p (Sys.writei sb p i off src) (At p H {i} F) fun _ => At p H {i} F := by
  refine device_safe hF hr fun d hd hb => ?_
  have hfile : m.Tidy → ∀ s, InvIf m.Tidy sb s → F s ∧ s.typeOf i = d.type ∧ d.type ≠ .free → s.typeOf i = .file :=
    fun hm s hs ⟨hf, h1, _⟩ => by
      rcases hp hm s hs hf with h | h
      · exact h
      · exact absurd (h1.symm.trans h) hd
  refine (op_keep (M := fun _ => H) (L := fun _ => {i}) (hF.typed hr) (fun _ => hF.typed hr)
    (fun s r t hs ho hf h => ?_) fun s e hs ho hf h => ?_).post fun _ s _ h => h.imp And.left
  · obtain ⟨hst, hh, hl⟩ := writei_step hs ((ho.locks i).mpr (Finset.mem_singleton_self i)) (hb s hf)
      (fun hm => hfile hm s hs hf) hlen h
    exact ⟨hst.mono fun i => ho.mem.mpr, ho.congr hh hl⟩
  · rw [writei_error hs ((ho.locks i).mpr (Finset.mem_singleton_self i)) (hb s hf) hlen h]
    exact err_panic (by decide)

end

end

/-! ### Directories -/

@[simp] theorem refsOf_none : refsOf H (none : Option (Fin NINODE × α)) = H := rfl

@[simp] theorem refsOf_some {a : α} : refsOf H (some (j, a)) = j ::ₘ H := rfl

theorem dirlookup_safe (hF : Framed sb p H F) (hi : i ∈ K) (hr : i ∈ H) :
    (discipline sb m).Safe p (Sys.dirlookup sb p i name) (At p H K F)
      fun r => At p (refsOf H r) K fun s => F s ∧ Found m.Tidy i name r s := by
  refine op_safe hF (fun r => hF.found hr r) (fun s r t hs ho hf h => ?_) fun s e hs ho _ h => ?_
  · obtain ⟨hd, ⟨rfl, rfl, -⟩ | ⟨j, k, y, rfl, he, -, hg⟩⟩ := dirlookup_inv hs ((ho.locks i).mpr hi) h
    · exact ⟨hs.idleStep ho, ho, fun _ => hd⟩
    · have hy : y < 2 ^ 16 := Disk.ent_lt he
      obtain ⟨hst, hh, hl, hn, -, -⟩ := iget_step hs hy hg
      have hst' := hst.mono fun i => ho.mem.mpr
      refine ⟨hst', ⟨by rw [hh, ← ho.held]; rfl, fun j => by rw [hl]; exact ho.locks j⟩, fun _ => ⟨?_, ⟨k, rfl⟩, ?_⟩⟩
      · exact framed_dir hr s t hs.core hst.inv.core hst.proc hst'.keep hd
      · intro hm h1 h2
        have := framed_older (x := y) hr s t hs.core hst.inv.core hst.proc hst'.keep ⟨hd, hs.order hm _ k _ y he h1 h2⟩
        rwa [← hn] at this
  · rcases dirlookup_error hs ((ho.locks i).mpr hi) h with ⟨rfl, -⟩ | ⟨rfl, -⟩ | ⟨k, y, -, -, hy⟩
    · exact err_panic (by decide)
    · exact err_panic (by decide)
    · rw [iget_error hy]
      exact err_panic (by decide)

theorem dirlink_safe (hF : Framed sb p H F) (hi : i ∈ K) (hr : i ∈ H) (hx : ∀ s, F s → x < 2 ^ 16)
    (hord : m.Tidy → ∀ s, InvIf m.Tidy sb s → F s → cname name ≠ Sys.dot → cname name ≠ Sys.dotdot → s.typeOf i = .dir →
    s.Older i x) : (discipline sb m).Safe p (Sys.dirlink sb p i name x) (At p H K F) fun _ => At p H K F := by
  refine .bind (dirlookup_safe hF hi hr) fun r => ?_
  rcases r with - | ⟨j, off⟩
  · refine .bind (R := fun _ => At p H K F) ?_ fun _ => .pure fun _ _ h => h
    refine (op_keep (M := fun _ => H) (L := fun _ => K) (hF.and (framed_dir hr)) (fun _ => hF.and (framed_dir hr))
      (fun s _ t hs ho hf h => ?_) fun s e hs ho hf h => ?_).post fun _ s _ h => h.imp And.left
    · obtain ⟨hst, hh, hl⟩ := dirwrite_step hs ((ho.locks i).mpr hi) hf.2 (hx s hf.1)
        (fun hm h1 h2 => (hord hm s hs hf.1 h1 h2 hf.2).2) h
      exact ⟨hst.mono fun i => ho.mem.mpr, ho.congr hh hl⟩
    · rcases dirwrite_error hs ((ho.locks i).mpr hi) hf.2 h with ⟨rfl, -⟩ | ⟨k, -, hk⟩ | ⟨rfl, -⟩
      · exact err_panic (by decide)
      · rw [writei_error hs ((ho.locks i).mpr hi) (.inl hf.2) (by simp [DIRENT]) hk]
        exact err_panic (by decide)
      · exact err_panic (by decide)
  · refine Safe.weaken (G := F) ?_ fun s _ h => h.1
    exact .bind (iput_safe hF) fun _ => .pure fun _ _ h => h

def Marked (m : Mode) (x : Nat) (type : InodeType) (s : Fs P) : Prop :=
  m.Knows → (s.disk.dinode x).type = type ∧ (s.disk.dinode x).nlink = 0

theorem marked_stable (ht : type ≠ .free) (hA : (discipline sb m).Stable p (At p H K F)) :
    (discipline sb m).StableFor p (Prog.op fun s : Fs P => s.iget p x) fun s => At p H K F s ∧ Marked m x type s := by
  rintro s t hs hi ⟨hm, q, hq, hg⟩ hr ⟨ha, hmk⟩
  refine ⟨hA s t hs hi ⟨hm, q, hq, hg⟩ ha, fun hk => ?_⟩
  obtain ⟨hty, hn⟩ := hmk hk
  rcases hk with hk | hk
  · exact absurd hk hm
  have hun : s.Unread x := hr _ rfl hk x rfl
  rcases hg.spares.dinode x (by rw [hty]; exact ht) with h | ⟨i, hix, hpos, hv, -⟩
  · rw [h]
    exact ⟨hty, hn⟩
  · rw [hun hn i hpos hix] at hv
    cases hv

theorem iallocFrom_safe (hF : Framed sb p H F) (hi : i ∈ H) (hd : ∀ s, F s → s.typeOf i = .dir) (ht : type ≠ .free)
    (hx : x + n ≤ 2 ^ 16) :
    (discipline sb m).Safe p (Sys.iallocFrom p type n x) (At p H K F) fun j => At p (j ::ₘ H) K fun s =>
      F s ∧ s.Older i (s.icache j).inum ∧ (m.Knows → s.typeOf j = type) := by
  induction n generalizing x with
  | zero => exact panic_safe (by decide)
  | succ n ih =>
    have hFx : Framed sb p H fun s => F s ∧ s.Older i x := hF.and (framed_older hi)
    refine .opBind (R := fun b s => if b = true then At p H K (fun s => F s ∧ s.Older i x) s ∧
      Marked m x type s else At p H K F s) (fun b => ?_) (fun s b t hs ha hr _ _ => ?_) (fun s e _ _ h => ?_) fun b =>
      ?_
    · cases b with
      | false => exact (at_stable hF).for _
      | true => exact marked_stable ht (at_stable hFx)
    · obtain ⟨hst, hh, hic, hy⟩ := iallocTry_step hs hr
      have hown : Own p H K t := ha.own.congr hh fun j => by rw [hic]
      have hft := hF s t hs.core hst.inv.core hst.proc (hst.mono fun i => ha.own.mem.mpr).keep ha.fact
      have hlive : live p t = true := live_congr (by rw [hst.proc]) ha.live
      refine ⟨hst.inv, hst.guar, ?_⟩
      rcases iallocTry_inv hr with ⟨rfl, -⟩ | ⟨rfl, hfree, htd⟩
      · exact ⟨hown, hlive, hft⟩
      · refine ⟨⟨hown, hlive, hft, hd t hft, fun _ => hy rfl _ ?_⟩, fun _ => ?_⟩
        · rintro rfl
          have := hd s ha.fact
          unfold Fs.typeOf at this
          rw [hic] at hfree
          rw [this] at hfree
          cases hfree
        · rw [htd]
          simp [Disk.iupdate]
    · unfold iallocTry at h
      split at h <;> cases h
    · cases b with
      | false => exact ih (by omega)
      | true =>
        refine .op (fun j => at_stable ((hF.cons j).and ((framed_older_entry (mem_cons_of_mem hi)
          (mem_cons_self j H)).and (.imp fun _ => framed_type (mem_cons_self j H) ht))))
          (fun s j t hs ha hr _ => ?_) fun s e _ _ hr => ?_
        · obtain ⟨⟨hown, hlive, hf⟩, hmk⟩ := ha
          obtain ⟨hst, hh, hl, hn, hdisk, -⟩ := iget_step hs (by omega) hr
          have hfo := hFx s t hs.core hst.inv.core hst.proc (hst.mono fun i => hown.mem.mpr).keep hf
          refine ⟨hst.inv, hst.guar, ⟨by rw [hh, ← hown.held]; rfl, fun j => by rw [hl]; exact hown.locks j⟩,
            live_congr (by rw [hst.proc]) hlive, hfo.1, by rw [hn]; exact hfo.2, fun hk => ?_⟩
          unfold Fs.typeOf
          rw [hn, hdisk]
          exact (hmk hk).1
        · rw [iget_error hr]
          exact err_panic (by decide)

theorem ialloc_safe (hF : Framed sb p H F) (hi : i ∈ H) (hd : ∀ s, F s → s.typeOf i = .dir) (ht : type ≠ .free) :
    (discipline sb m).Safe p (Sys.ialloc sb p type) (At p H K F) fun j => At p (j ::ₘ H) K fun s =>
      F s ∧ s.Older i (s.icache j).inum ∧ (m.Knows → s.typeOf j = type) :=
  iallocFrom_safe hF hi hd ht (by have := sb.ninodes_le; omega)

/-! ### Paths -/

theorem skipelem_length {rest : List UInt8} (h : skipelem path = some (name, rest)) : rest.length < path.length := by
  unfold skipelem at h
  simp only at h
  split_ifs at h with hne
  cases h
  obtain ⟨c, l, hl⟩ := List.exists_cons_of_ne_nil hne
  have hc : c ≠ 47 := by
    have := List.head_dropWhile_not (fun x : UInt8 => decide (x = 47)) hne
    simp only [hl, List.head_cons, decide_eq_false_iff_not] at this
    exact this
  have h1 := (List.dropWhile_suffix (l := path) fun x : UInt8 => decide (x = 47)).length_le
  have h2 : ((c :: l).dropWhile fun x => decide (x ≠ 47)).length ≤ l.length := by
    rw [List.dropWhile_cons_of_pos (by simpa using hc)]
    exact (List.dropWhile_suffix _).length_le
  have h3 := (List.dropWhile_suffix (l := (c :: l).dropWhile fun x => decide (x ≠ 47))
    fun x : UInt8 => decide (x = 47)).length_le
  rw [hl] at h1 ⊢
  simp only [List.length_cons] at h1
  omega

theorem idupCwd_safe (hF : Framed sb p H F) :
    (discipline sb m).Safe p (Sys.idupCwd p) (At p H K F) fun i => At p (i ::ₘ H) K F := by
  -- the reference to copy is there while the process has not handed its directory to iput
  refine ((op_keep (hF.and framed_live) (fun i => (hF.and framed_live).cons i) (fun s i t hs ho hf h => ?_)
    fun s e _ _ _ h => ?_).pre fun s _ h => ⟨h.own, h.live, h.fact, h.live⟩).post fun _ s _ h => h.imp And.left
  · split at h
    · cases h
    rename_i c hc
    obtain ⟨⟨_, u⟩, hu, h⟩ := Except.bind_eq_ok.mp h
    obtain ⟨j, hj⟩ := Option.isSome_iff_exists.mp hf.2
    have hcj : c = j := Option.some.inj (hc.symm.trans (dir_eq_some.mp hj).1)
    rw [← hcj] at hj
    cases h
    obtain ⟨hst, hh, hl⟩ := idup_step hs (hs.ref_pos_of_cwd hj) hu
    exact ⟨hst.mono fun i => ho.mem.mpr, by rw [hh, ← ho.held]; rfl, fun j => by rw [hl]; exact ho.locks j⟩
  · split at h
    · cases h
      exact err_panic (by decide)
    · rcases Except.bind_eq_error.mp h with h | ⟨_, -, h⟩
      · cases h
      · cases h

/-- The loop ends before the fuel does, since every turn takes an element from the path. One lock is held
    at a time. -/
theorem namexFrom_safe (hF : Framed sb p H F) {parent : Bool} {fuel : Nat} (hfuel : path.length < fuel) :
    (discipline sb m).Safe p (Sys.namexFrom sb p parent fuel i path) (At p (i ::ₘ H) ∅ F)
      fun r => At p (refsOf H r) ∅ F := by
  induction fuel generalizing i path with
  | zero => omega
  | succ fuel ih =>
    have hFi := hF.cons i
    have hm : i ∈ i ::ₘ H := mem_cons_self i H
    have hput : (discipline sb m).Safe p (Sys.iunlockput p i >>= fun _ => pure none) (At p (i ::ₘ H) (insert i ∅) F)
        fun r : Option (Fin NINODE × List UInt8) => At p (refsOf H r) ∅ F :=
      .bind (iunlockput_safe hF) fun _ => .pure fun _ _ h => by simpa using h
    unfold Sys.namexFrom
    split
    · split
      · exact .bind (iput_safe hF) fun _ => .pure fun _ _ h => h
      · exact .pure fun _ _ h => h
    · rename_i name rest hsk
      have hlen := skipelem_length hsk
      refine .bind (ilock_safe hFi (.inl hm) (by simp)) fun _ => ?_
      refine .bind (inode_safe hFi (Finset.mem_insert_self i ∅) (.inl hm)) fun d => ?_
      refine Safe.weaken (G := F) ?_ fun s _ h => h.1
      split
      · exact hput
      split
      · exact .bind (iunlock_safe hFi) fun _ => .pure fun _ _ h => by simpa using h
      refine .bind (dirlookup_safe hFi (Finset.mem_insert_self i ∅) hm) fun r => ?_
      refine Safe.weaken (G := F) ?_ fun s _ h => h.1
      rcases r with - | ⟨j, off⟩
      · exact hput
      · rw [refsOf_some, cons_swap]
        refine .bind (iunlockput_safe (hF.cons j)) fun _ => ?_
        simpa using ih (by omega)

theorem namex_safe (hF : Framed sb p H F) {parent : Bool} :
    (discipline sb m).Safe p (Sys.namex sb p parent path) (At p H ∅ F) fun r => At p (refsOf H r) ∅ F := by
  have hloop : ∀ i, (discipline sb m).Safe p (Sys.namexFrom sb p parent (path.length + 1) i path) (At p (i ::ₘ H) ∅ F)
      fun r => At p (refsOf H r) ∅ F := fun i => namexFrom_safe hF (Nat.lt_succ_self _)
  unfold Sys.namex
  simp only
  split
  · exact .bind (iget_safe hF (by decide)) fun i => Safe.weaken (hloop i) fun s _ h => h.1
  · exact .bind (idupCwd_safe hF) hloop

end Xv6.Fs
