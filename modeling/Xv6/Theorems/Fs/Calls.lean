import Xv6.Theorems.Fs.Safe

/-! The system calls keep the discipline of the file system. -/

namespace Xv6.Fs
open Multiset Option

variable {P : Type} {sb : Superblock} {s t : Fs P} {p q : P} {i j : Fin NINODE}
  {H : Multiset (Fin NINODE)} {K : Finset (Fin NINODE)} {F G : Fs P → Prop} {x n off : Nat}
  {name src path : List UInt8} {type : InodeType} {m : Mode} {c : Prop} {major minor : Int} {fd : Fin NOFILE}
  {f : Fin NFILE} {α : Type} {g : FsProg P α}

abbrev Rest (p : P) : Fs P → Prop := At p 0 ∅ (AllOpen p)

def Holding (p : P) : Option (Fin NINODE) → Fs P → Prop
  | none => Rest p
  | some i => At p (i ::ₘ 0) ∅ (AllOpen p)

theorem holding {r : Option (Fin NINODE)} (ho : Own p r.toList ∅ s) (hl : live p s = true) (ha : AllOpen p s) :
    Holding p r s := by
  cases r <;> exact ⟨ho, hl, ha⟩

theorem Own.idle (ho : Own p 0 ∅ s) (ha : AllOpen p s) (hp : (s.proc p).put = false) : Idle p s :=
  ⟨by simpa using ho.held, fun i hi => by simpa using (ho.locks i).mp hi, ha, hp⟩

theorem Rest.idle (h : Rest p s) : Idle p s := by
  obtain ⟨i, hi⟩ := isSome_iff_exists.mp h.live
  exact h.own.idle h.fact (dir_eq_some.mp hi).2

abbrev Moving (p : P) (new : Option (Fin NINODE)) (s : Fs P) : Prop :=
  AllOpen p s ∧ ∀ i, new = some i → s.typeOf i ≠ .free

theorem Moving.congr (h : Moving p new s) (hs : SameCore s t) (hft : t.ftable = s.ftable)
    (ho : (t.proc p).ofile = (s.proc p).ofile) : Moving p new t :=
  ⟨fun fd g hg => by rw [hft]; exact h.1 fd g (by rwa [ho] at hg), fun i hi => by rw [hs.typeOf]; exact h.2 i hi⟩

theorem rest_of_idle (h : Idle p s) (hl : live p s = true) : Rest p s :=
  ⟨⟨by rw [h.held]; rfl, fun i => by simpa using h.locks i⟩, hl, h.opened⟩

section

variable [Fintype P]

structure Opening (p : P) (f : Fin NFILE) (fd : Fin NOFILE) (s : Fs P) : Prop where
  ofile : (s.proc p).ofile fd = some f
  type : (s.ftable f).type = .none
  others : ∀ fd' g, (s.proc p).ofile fd' = some g → g ≠ f → (s.ftable g).type = .inode

theorem framed_opening : Framed sb p H (Opening p f fd) := fun s t _ _ hp hk h => by
  refine ⟨by rw [hp]; exact h.ofile, by rw [(hk.file fd f h.ofile).type]; exact h.type, fun fd' g hg hne => ?_⟩
  rw [hp] at hg
  rw [(hk.file fd' g hg).type]
  exact h.others fd' g hg hne

theorem framed_plain (hi : i ∈ H) : Framed sb p H fun s => Plain (s.typeOf i) := fun s t _ _ _ hk h => by
  change Plain (s.typeOf i) at h
  have hne : s.typeOf i ≠ .free := by rcases h with h | h <;> rw [h] <;> nofun
  change Plain (t.typeOf i)
  rwa [(hk.typeOf (.inl hi) hne).1]

def Openable (m : Mode) (i : Fin NINODE) (w : Bool) (s : Fs P) : Prop :=
  w = true → m.Knows → Plain (s.typeOf i)

theorem framed_openable {w : Bool} (hi : i ∈ H) : Framed sb p H (Openable m i w) :=
  .imp fun _ => .imp fun _ => framed_plain hi

theorem idle_of_guar (hs : InvIf c sb s) (ht : InvIf c sb t) (hq : q ≠ p) (hg : Guar q s t) (h : Idle p s) :
    Idle p t := by
  have hpr := hg.priv p hq.symm
  have hheld : t.held p = [] := by rw [hpr.held]; exact h.held
  have hlocks : ∀ i, (t.icache i).lock ≠ some p := fun i => by rw [ne_eq, hpr.locks]; exact h.locks i
  rcases hpr.proc with hp | ⟨-, ho, hput⟩
  · refine ⟨hheld, hlocks, framed_allOpen (H := 0) s t hs.core ht.core hp ?_ h.opened, by rw [hp]; exact h.put⟩
    have hk := hg.keep p hq.symm
    exact ⟨fun i hi => hk.inum i (.inr (by simpa using hi)), fun i hi => hk.alive i (.inr (by simpa using hi)),
      hk.inode, hk.clock, hk.file⟩
  · exact ⟨hheld, hlocks, ho, hput⟩

/-- Process `p` has handed its current directory to `iput` and has no other yet. -/
structure Leaving (p : P) (H : Multiset (Fin NINODE)) (F : Fs P → Prop) (s : Fs P) : Prop where
  own : Own p H ∅ s
  cwd : (s.proc p).cwd ≠ none
  put : (s.proc p).put = true
  fact : F s

theorem Leaving.step {H₀ H' : Multiset (Fin NINODE)} (hF : Framed sb p H₀ F) (h : Leaving p H F s) (hs : InvIf c sb s)
    (hst : Step c sb p (· ∈ H₀) s t) (ho : Own p H' ∅ t) : Leaving p H' F t :=
  ⟨ho, by rw [hst.proc]; exact h.cwd, by rw [hst.proc]; exact h.put,
    hF s t hs.core hst.inv.core hst.proc hst.keep h.fact⟩

theorem framed_moving (h : ∀ i, new = some i → i ∈ H) : Framed sb p H (Moving p new) :=
  framed_allOpen.and fun s t hs ht hp hk hf i hi => framed_alive (h i hi) s t hs ht hp hk (hf i hi)

def FileIs (m : Mode) (p : P) (fd : Fin NOFILE) (f : Fin NFILE) (e : File) (s : Fs P) : Prop :=
  FileAt p fd f e.ip s ∧ (m.Tidy → e.writable = true → Plain (s.typeOf e.ip))

theorem framed_fileIs {e : File} : Framed sb p H (FileIs m p fd f e) := fun s t hs ht hp hk h => by
  refine ⟨framed_fileAt s t hs ht hp hk h.1, fun hm hw => ?_⟩
  have hpl := h.2 hm hw
  have hne : s.typeOf e.ip ≠ .free := by rcases hpl with h | h <;> rw [h] <;> nofun
  rwa [(hk.typeOf (.inr h.1.fileRef) hne).1]

end

variable [Fintype P] [DecidableEq P]

theorem ret_safe {a : α} {A : Fs P → Prop} : (discipline sb m).Safe p (pure a) A fun _ => A :=
  .pure fun _ _ h => h

theorem putRet_safe {a : α} : (discipline sb m).Safe p (Sys.iunlockput p i >>= fun _ => pure a)
    (At p (i ::ₘ 0) {i} (AllOpen p)) fun _ => Rest p :=
  .bind (iunlockput_safe framed_allOpen) fun _ => .pure fun _ _ h => by simpa using h

theorem holding_stable {r : Option (Fin NINODE)} : (discipline sb m).Stable p (Holding p r) := by
  cases r <;> exact at_stable framed_allOpen

theorem put_safe {a : α} (r : Option (Fin NINODE)) : (discipline sb m).Safe p
    (match r with | none => pure a | some i => Sys.iput p i >>= fun _ => pure a) (Holding p r) fun _ => Rest p := by
  cases r with
  | none => exact ret_safe
  | some i => exact .bind (iput_safe framed_allOpen) fun _ => ret_safe

theorem namei_safe : (discipline sb m).Safe p (Sys.namei sb p path) (Rest p) (Holding p) := by
  refine .bind (namex_safe framed_allOpen) fun r => .pure fun s _ h => ?_
  rcases r with - | ⟨j, _⟩ <;> exact h

/-! ### Links -/

theorem lock_safe : (discipline sb m).Safe p (Sys.ilock p i) (At p (i ::ₘ 0) ∅ (AllOpen p))
    fun _ => At p (i ::ₘ 0) {i} (AllOpen p) :=
  (ilock_safe framed_allOpen (.inl (mem_cons_self i 0)) (by simp)).post fun _ s _ h => by rwa [insert_empty_eq] at h

variable {Q : α → Fs P → Prop}

theorem lockLook_safe {g : Dinode → FsProg P α} (hg : ∀ d, (discipline sb m).Safe p (g d)
      (At p (i ::ₘ 0) {i} fun s => AllOpen p s ∧ s.typeOf i = d.type ∧ d.type ≠ .free) Q) :
    (discipline sb m).Safe p (Sys.ilock p i >>= fun _ => Sys.inode i >>= g) (At p (i ::ₘ 0) ∅ (AllOpen p)) Q :=
  .bind lock_safe fun _ => .bind (inode_safe framed_allOpen (Finset.mem_singleton_self i)
    (.inl (mem_cons_self i 0))) hg

theorem linkBad_safe : (discipline sb m).Safe p (Sys.linkBad p i) (At p (i ::ₘ 0) ∅ (AllOpen p)) fun _ => Rest p := by
  refine .bind lock_safe fun _ => ?_
  exact .bind (addNlink_safe framed_allOpen (Finset.mem_singleton_self i) (-1)) fun _ => putRet_safe

theorem link_safe {old new : List UInt8} : (discipline sb m).Safe p (Sys.link sb p old new) (Rest p) fun _ =>
    Rest p := by
  refine .bind namei_safe fun r => ?_
  rcases r with - | i
  · exact ret_safe
  have hm : i ∈ i ::ₘ (0 : Multiset (Fin NINODE)) := mem_cons_self i 0
  refine lockLook_safe fun d => ?_
  split
  · exact Safe.weaken putRet_safe fun s _ h => h.1
  rename_i hd
  have hFd : ∀ {H}, i ∈ H → Framed sb p H fun s => AllOpen p s ∧ s.typeOf i = d.type ∧ d.type ≠ .free :=
    fun h => framed_allOpen.typed (.inl h)
  refine .bind (addNlink_safe (hFd hm) (Finset.mem_singleton_self i) 1) fun _ => ?_
  refine .bind (iunlock_safe (hFd hm)) fun _ => ?_
  rw [Finset.erase_singleton]
  refine .bind (namex_safe (hFd hm)) fun r => ?_
  rcases r with - | ⟨dp, name⟩
  · exact Safe.weaken linkBad_safe fun s _ h => h.1
  have hdp : dp ∈ dp ::ₘ i ::ₘ (0 : Multiset (Fin NINODE)) := mem_cons_self ..
  have hm' : i ∈ dp ::ₘ i ::ₘ (0 : Multiset (Fin NINODE)) := mem_cons_of_mem hm
  rw [refsOf_some]
  refine .bind (ilock_safe (hFd hm') (.inl hdp) (by simp)) fun _ => ?_
  refine .bind (inum_safe (hFd hm') hm') fun x => ?_
  -- the inode is no directory, so the new entry keeps the order
  refine .bind (dirlink_safe ((hFd hm').and ((framed_inum hm').and (.const _)))
    (Finset.mem_insert_self dp ∅) hdp (fun s h => h.2.2) fun _ s _ h _ _ ht => ⟨ht, fun hx => ?_⟩) fun b => ?_
  · obtain ⟨⟨-, h1, -⟩, rfl, -⟩ := h
    exact absurd (h1.symm.trans hx) hd
  refine Safe.weaken (G := AllOpen p) ?_ fun s _ h => h.1.1
  have hput : (discipline sb m).Safe p (Sys.iunlockput p dp) (At p (dp ::ₘ i ::ₘ 0) (insert dp ∅) (AllOpen p))
      fun _ => At p (i ::ₘ 0) ∅ (AllOpen p) :=
    (iunlockput_safe framed_allOpen).post fun _ s _ h => by simpa using h
  split
  · exact .bind hput fun _ => .bind (iput_safe framed_allOpen) fun _ => ret_safe
  · exact .bind hput fun _ => linkBad_safe

theorem isdirempty_safe (hF : Framed sb p H F) (hi : i ∈ K) (hd : ∀ s, F s → s.typeOf i = .dir) :
    (discipline sb m).Safe p (Prog.op fun s => s.isdirempty sb i) (At p H K F) fun _ => At p H K F := by
  refine (op_look (E := fun _ _ => True) (fun _ => hF.and (.const _)) (fun s b t hs ho hf h => ?_)
    fun s e hs ho hf h => ?_).post fun _ s _ h => h.imp And.left
  · exact ⟨(isdirempty_inv hs ((ho.locks i).mpr hi) (hd s hf) h).1, trivial⟩
  · rw [(isdirempty_error hs ((ho.locks i).mpr hi) (hd s hf) h).1]
    exact err_panic (by decide)

theorem clear_safe (hF : Framed sb p H F) (hi : i ∈ K) (hd : ∀ s, F s → s.typeOf i = .dir)
    (hoff : ∀ s, F s → ∃ k, off = k * DIRENT) :
    (discipline sb m).Safe p (Prog.op fun s => s.writei sb i off (List.replicate DIRENT 0)) (At p H K F)
      fun _ => At p H K F := by
  refine op_keep hF (fun _ => hF) (fun s r t hs ho hf h => ?_) fun s e hs ho hf h => ?_
  · obtain ⟨k, rfl⟩ := hoff s hf
    obtain ⟨hst, hh, hl⟩ := clear_step hs ((ho.locks i).mpr hi) (hd s hf) h
    exact ⟨hst.mono fun i => ho.mem.mpr, ho.congr hh hl⟩
  · rw [writei_error hs ((ho.locks i).mpr hi) (.inl (hd s hf)) (by simp [DIRENT]) h]
    exact err_panic (by decide)

theorem putTwo_safe (h : i ≠ j) (hg : (discipline sb m).Safe p g (At p (i ::ₘ 0) {i} (AllOpen p)) Q) :
    (discipline sb m).Safe p (Sys.iunlockput p j >>= fun _ => g) (At p (i ::ₘ j ::ₘ 0) {i, j} (AllOpen p)) Q := by
  rw [cons_swap]
  refine .bind (iunlockput_safe framed_allOpen) fun _ => hg.pre fun s _ h' => ?_
  have hK : ({i, j} : Finset (Fin NINODE)).erase j = {i} := by
    rw [Finset.pair_comm, Finset.erase_insert (by simpa using h.symm)]
  rwa [hK] at h'

theorem unlinkEntry_safe (hne : i ≠ j) : (discipline sb m).Safe p (Sys.unlinkEntry sb p j i off)
    (At p (i ::ₘ j ::ₘ 0) {i, j} fun s => AllOpen p s ∧ s.typeOf j = .dir ∧ ∃ k, off = k * DIRENT) fun _ => Rest p := by
  have hi : i ∈ i ::ₘ j ::ₘ (0 : Multiset (Fin NINODE)) := mem_cons_self ..
  have hj : j ∈ i ::ₘ j ::ₘ (0 : Multiset (Fin NINODE)) := mem_cons_of_mem (mem_cons_self ..)
  have hF : Framed sb p (i ::ₘ j ::ₘ 0) fun s => AllOpen p s ∧ s.typeOf j = .dir ∧ ∃ k, off = k * DIRENT :=
    framed_allOpen.and ((framed_dir hj).and (.const _))
  have hij : j ∈ ({i, j} : Finset (Fin NINODE)) := Finset.mem_insert_of_mem (Finset.mem_singleton_self j)
  refine .bind (inode_safe hF (Finset.mem_insert_self i {j}) (.inl hi)) fun d => ?_
  refine Safe.weaken ?_ fun s _ h => And.left h
  refine .bind (clear_safe hF hij (fun s h => h.2.1) fun s h => h.2.2) fun r => ?_
  split
  · exact panic_safe (by decide)
  have hrest : (discipline sb m).Safe p
      (Sys.iunlockput p j >>= fun _ => Sys.addNlink i (-1) >>= fun _ => Sys.iunlockput p i >>= fun _ => pure (0 : Int))
      (At p (i ::ₘ j ::ₘ 0) {i, j} (AllOpen p)) fun _ => Rest p :=
    putTwo_safe hne (.bind (addNlink_safe framed_allOpen (Finset.mem_singleton_self i) (-1)) fun _ =>
      putRet_safe)
  refine Safe.weaken (G := AllOpen p) ?_ fun s _ h => h.1
  split
  · exact .bind (addNlink_safe framed_allOpen hij (-1)) fun _ => hrest
  · exact hrest

theorem unlink_safe : (discipline sb m).Safe p (Sys.unlink sb p path) (Rest p) fun _ => Rest p := by
  refine .bind (namex_safe framed_allOpen) fun r => ?_
  rcases r with - | ⟨dp, name⟩
  · exact ret_safe
  rw [refsOf_some]
  have hF : Framed sb p (dp ::ₘ 0) (AllOpen p) := framed_allOpen
  have hdp : dp ∈ dp ::ₘ (0 : Multiset (Fin NINODE)) := mem_cons_self ..
  refine .bind lock_safe fun _ => ?_
  simp only
  split
  · exact putRet_safe
  rename_i hname
  simp only [nameEq, decide_eq_true_eq, not_or] at hname
  refine .bind (dirlookup_safe hF (Finset.mem_singleton_self dp) hdp) fun r => ?_
  rcases r with - | ⟨i, off⟩
  · exact Safe.weaken putRet_safe fun s _ h => h.1
  rw [refsOf_some]
  have hi : i ∈ i ::ₘ dp ::ₘ (0 : Multiset (Fin NINODE)) := mem_cons_self ..
  -- an entry other than the dots names an inode younger than the directory
  have hold : m.Tidy → ∀ s, InvIf m.Tidy sb s → AllOpen p s ∧ Found m.Tidy dp name (some (i, off)) s →
      ∀ k ∈ ({dp} : Finset (Fin NINODE)), s.Older k (s.icache i).inum := fun hm s _ h k hk => by
    rw [Finset.mem_singleton.mp hk]
    exact h.2.2.2 hm hname.1 hname.2
  have hFd : Framed sb p (i ::ₘ dp ::ₘ 0) fun s => AllOpen p s ∧ Found m.Tidy dp name (some (i, off)) s :=
    hF.found hdp (some (i, off))
  by_cases hne : i = dp
  · exact .bind (ilock_again (by rw [hne]; exact Finset.mem_singleton_self dp) hold) fun _ =>
      .given (fun _ _ h => h) False.elim
  refine .bind (ilock_safe hFd (.inl hi) hold) fun _ => ?_
  refine .bind (inode_safe hFd (Finset.mem_insert_self i {dp}) (.inl hi)) fun d => ?_
  have hFt : Framed sb p (i ::ₘ dp ::ₘ 0) fun s =>
      (AllOpen p s ∧ Found m.Tidy dp name (some (i, off)) s) ∧ s.typeOf i = d.type ∧ d.type ≠ .free :=
        hFd.typed (.inl hi)
  split
  · exact panic_safe (by decide)
  have hrest : ∀ empty : Bool, (discipline sb m).Safe p (if empty then Sys.unlinkEntry sb p dp i off else
      Sys.iunlockput p i >>= fun _ => Sys.iunlockput p dp >>= fun _ => pure (-1))
      (At p (i ::ₘ dp ::ₘ 0) {i, dp} fun s =>
      (AllOpen p s ∧ Found m.Tidy dp name (some (i, off)) s) ∧ s.typeOf i = d.type ∧ d.type ≠ .free) fun _ =>
        Rest p := by
    intro empty
    split
    · exact Safe.weaken (unlinkEntry_safe hne) fun s _ h => ⟨h.1.1, h.1.2.1, h.1.2.2.1⟩
    · refine Safe.weaken (G := AllOpen p) ?_ fun s _ h => h.1.1
      refine .bind (iunlockput_safe hF) fun _ => ?_
      rw [Finset.erase_insert (by simpa using hne)]
      exact putRet_safe
  split
  · rename_i hd
    exact .bind (isdirempty_safe hFt (Finset.mem_insert_self i {dp}) fun s h => h.2.1.trans hd) hrest
  · exact hrest true

/-! ### Creating -/

theorem createDots_safe (hF : Framed sb p H F) (hi : i ∈ K) (hr : i ∈ H) {x y : Nat} (hx : ∀ s, F s → x < 2 ^ 16)
    (hy : ∀ s, F s → y < 2 ^ 16) (hg : (discipline sb m).Safe p g (At p H K F) Q) :
    (discipline sb m).Safe p (Sys.dirlink sb p i Sys.dot x >>= fun b => if b then
        (Sys.dirlink sb p i Sys.dotdot y >>= fun b => if b then g else (Sys.panic "create dots" >>= fun _ : Unit => g))
      else (Sys.panic "create dots" >>= fun _ : Unit => g)) (At p H K F) Q := by
  have hpanic : (discipline sb m).Safe p (Sys.panic "create dots" >>= fun _ : Unit => g) (At p H K F) Q :=
    .bind (R := fun _ => At p H K F) (panic_safe (by decide)) fun _ => hg
  refine .bind (dirlink_safe hF hi hr hx fun _ s _ _ h1 => (h1 (by decide)).elim) fun b => ?_
  split
  · refine .bind (dirlink_safe hF hi hr hy fun _ s _ _ _ h2 => (h2 (by decide)).elim) fun b => ?_
    split
    · exact hg
    · exact hpanic
  · exact hpanic

/-- What `create` returns: nothing, or an inode that is locked, whose type it may know. -/
def Created (m : Mode) (p : P) (type : InodeType) : Option (Fin NINODE) → Fs P → Prop
  | none => Rest p
  | some i => At p (i ::ₘ 0) {i} fun s => AllOpen p s ∧ (m.Knows → s.typeOf i = type)

theorem createNew_safe (ht : type ≠ .free) : (discipline sb m).Safe p (Sys.createNew sb p j name type major minor)
    (At p (j ::ₘ 0) {j} fun s => AllOpen p s ∧ s.typeOf j = .dir) (Created m p type) := by
  have hj : j ∈ j ::ₘ (0 : Multiset (Fin NINODE)) := mem_cons_self ..
  unfold Sys.createNew
  refine .bind (ialloc_safe (framed_allOpen.and (framed_dir hj)) hj (fun s h => h.2) ht) fun i => ?_
  have hi : i ∈ i ::ₘ j ::ₘ (0 : Multiset (Fin NINODE)) := mem_cons_self ..
  have hj' : j ∈ i ::ₘ j ::ₘ (0 : Multiset (Fin NINODE)) := mem_cons_of_mem hj
  have hiK : i ∈ ({i, j} : Finset (Fin NINODE)) := Finset.mem_insert_self i {j}
  have hjK : j ∈ ({i, j} : Finset (Fin NINODE)) := Finset.mem_insert_of_mem (Finset.mem_singleton_self j)
  have hF : Framed sb p (i ::ₘ j ::ₘ 0) fun s => (AllOpen p s ∧ s.typeOf j = .dir) ∧
      s.Older j (s.icache i).inum ∧ (m.Knows → s.typeOf i = type) :=
    (framed_allOpen.and (framed_dir hj')).and ((framed_older_entry hj' hi).and (.imp fun _ => framed_type hi ht))
  refine .given (c := i ≠ j) (fun s _ h => h.fact.2.1.ne) fun hne => ?_
  refine .bind (ilock_safe hF (.inl hi) fun _ s _ h k hk => ?_) fun _ => ?_
  · rw [Finset.mem_singleton.mp hk]
    exact h.2.1
  refine .bind (update_safe hF hiK fun _ => ⟨rfl, rfl, rfl⟩) fun _ => ?_
  refine .bind (inum_safe hF hi) fun x => ?_
  have hFx := hF.and ((framed_inum (x := x) hi).and (.const (x < 2 ^ 16)))
  -- the entry of the new inode in its directory
  have hlink : (discipline sb m).Safe p (Sys.dirlink sb p j name x >>= fun b =>
      if b = true then Sys.iunlockput p j >>= fun _ => pure (some i) else Sys.panic "create: dirlink")
      (At p (i ::ₘ j ::ₘ 0) {i, j} fun s => ((AllOpen p s ∧ s.typeOf j = .dir) ∧ s.Older j (s.icache i).inum ∧
        (m.Knows → s.typeOf i = type)) ∧ (s.icache i).inum = x ∧ x < 2 ^ 16) (Created m p type) := by
    refine .bind (dirlink_safe hFx hjK hj' (fun s h => h.2.2) fun _ s _ h _ _ _ => ?_) fun b => ?_
    · rw [← h.2.1]
      exact h.1.2.1
    split
    · refine Safe.weaken (G := fun s => AllOpen p s ∧ (m.Knows → s.typeOf i = type)) ?_
        fun s _ h => ⟨h.1.1.1, h.1.2.2⟩
      rw [cons_swap]
      refine .bind (iunlockput_safe (framed_allOpen.and (.imp fun _ =>
        framed_type (mem_cons_self ..) ht))) fun _ => .pure fun s _ h => ?_
      rwa [Finset.pair_comm, Finset.erase_insert (by simpa using hne.symm)] at h
    · exact panic_safe (by decide)
  simp only
  split
  · refine .bind (addNlink_safe hFx hjK 1) fun _ => ?_
    refine .bind (inum_safe hFx hj') fun y => ?_
    exact createDots_safe (hFx.and ((framed_inum hj').and (.const _))) hiK hi (fun s h => h.1.2.2) (fun s h => h.2.2)
      (Safe.weaken hlink fun s _ h => h.1)
  · exact hlink

theorem create_safe (ht : type ≠ .free) : (discipline sb m).Safe p (Sys.create sb p path type major minor) (Rest p)
    (Created m p type) := by
  refine .bind (namex_safe framed_allOpen) fun r => ?_
  rcases r with - | ⟨j, name⟩
  · exact .pure fun _ _ h => h
  rw [refsOf_some]
  have hF : Framed sb p (j ::ₘ 0) (AllOpen p) := framed_allOpen
  have hj : j ∈ j ::ₘ (0 : Multiset (Fin NINODE)) := mem_cons_self ..
  refine .bind lock_safe fun _ => ?_
  refine .bind (dirlookup_safe hF (Finset.mem_singleton_self j) hj) fun r => ?_
  rcases r with - | ⟨i, off⟩
  · exact createNew_safe ht
  rw [refsOf_some, cons_swap]
  refine Safe.weaken (G := AllOpen p) ?_ fun s _ h => h.1
  refine .bind (iunlockput_safe framed_allOpen) fun _ => ?_
  rw [Finset.erase_singleton]
  refine lockLook_safe fun d => ?_
  split
  · rename_i hd
    exact .pure fun s _ h => h.imp fun h => ⟨h.1, fun _ => by rw [h.2.1, hd.1, hd.2]⟩
  · exact Safe.weaken (putRet_safe (a := (none : Option (Fin NINODE)))) fun s _ h => h.1

theorem createPut_safe (ht : type ≠ .free) :
    (discipline sb m).Safe p (Sys.createPut sb p path type major minor) (Rest p) fun _ => Rest p := by
  refine .bind (create_safe ht) fun r => ?_
  cases r with
  | none => exact ret_safe
  | some i => exact Safe.weaken putRet_safe fun s _ h => h.1

/-! ### Opening -/

def Taken (m : Mode) (p : P) (i : Fin NINODE) (w : Bool) : Option (Fin NFILE × Fin NOFILE) → Fs P → Prop
  | none => At p (i ::ₘ 0) {i} (AllOpen p)
  | some (f, fd) => At p (i ::ₘ 0) {i} fun s => Opening p f fd s ∧ Openable m i w s ∧ s.typeOf i ≠ .free

theorem opening_allocated (h : InvIf c sb s) (ho : AllOpen p s) (h0 : (s.ftable f).ref = 0) :
    Opening p f fd (s.allocated p f fd) := by
  refine ⟨?_, ?_, fun fd' g hg hne => ?_⟩
  · rw [allocated_proc_self]
    exact Function.update_self ..
  · rw [allocated_ftable_self]
    exact h.unused f h0
  · rw [allocated_proc_self] at hg
    dsimp only at hg
    rw [allocated_ftable hne]
    by_cases hfd' : fd' = fd
    · subst hfd'
      rw [Function.update_self] at hg
      exact absurd (some.inj hg).symm hne
    · rw [Function.update_of_ne hfd'] at hg
      exact ho fd' g hg

theorem falloc_safe {w : Bool} : (discipline sb m).Safe p (Prog.op fun s => s.falloc p)
    (At p (i ::ₘ 0) {i} fun s => AllOpen p s ∧ Openable m i w s) (Taken m p i w) := by
  refine .op (fun r => ?_) (fun s r t hs ha hr _ => ?_) fun s e _ _ hr => ?_
  · rcases r with - | ⟨f, fd⟩
    · exact at_stable framed_allOpen
    · exact at_stable (framed_opening.and ((framed_openable (mem_cons_self ..)).and
        (framed_alive (mem_cons_self ..))))
  · rcases falloc_inv hs hr with ⟨rfl, rfl⟩ | ⟨f, fd, rfl, h0, hfd, rfl⟩
    · exact ⟨hs, (hs.idleStep ha.own).guar, ha.imp And.left⟩
    · obtain ⟨hinv, hg, -⟩ := allocated_step (p := p) hs h0 hfd
      have hl := (ha.own.locks i).mpr (Finset.mem_singleton_self i)
      refine ⟨hinv, hg, ⟨ha.own.held, ha.own.locks⟩, ?_, opening_allocated hs ha.fact.1 h0, ha.fact.2,
        (hs.copy_of_lock hl).2⟩
      exact live_congr (allocated_dir p) ha.live
  · unfold falloc at hr
    split at hr
    · cases hr
    · split at hr <;> cases hr

theorem fopen_safe {r w : Bool} : (discipline sb m).Safe p (Prog.op fun s => s.fopen p f i r w)
    (At p (i ::ₘ 0) ∅ fun s => Opening p f fd s ∧ Openable m i w s ∧ s.typeOf i ≠ .free) fun _ => Rest p := by
  refine .op (fun _ => at_stable framed_allOpen) (fun s _ t hs ha hr hW => ?_) fun s e _ _ hr => by cases hr
  obtain ⟨hop, hpl, halive⟩ := ha.fact
  have hi : i ∈ s.held p := ha.own.mem.mpr (mem_cons_self ..)
  have hw : m.Tidy → w = true → Plain (s.typeOf i) := by
    intro hm hwt
    cases hmode : m with
    | alone => exact hpl hwt (.inl hmode)
    | watched => exact hpl hwt (.inr hmode)
    | together =>
      -- these runs are restricted to those in which it is no directory
      cases hr
      have := hW hmode f (by simp [setFile, setHeld]) (by simpa [setFile, setHeld] using hwt)
      simpa [setFile, setHeld, typeOf] using this
    | wild => exact absurd hmode hm
  obtain ⟨hinv, hg, hcore, hheld, hproc, hty, hne⟩ := fopen_step hs hop.ofile hop.type hi halive hw hr
  refine ⟨hinv, hg, ⟨?_, fun j => by rw [hcore.icache]; exact ha.own.locks j⟩, ?_, fun fd' g hg' => ?_⟩
  · rw [hheld, ← coe_erase, ha.own.held, erase_cons_head]
  · exact live_congr (by rw [hproc]) ha.live
  · rw [hproc] at hg'
    by_cases hgf : g = f
    · rw [hgf]
      exact hty
    · rw [hne g hgf]
      exact hop.others fd' g hg' hgf

theorem openInode_safe {omode : Nat} : (discipline sb m).Safe p (Sys.openInode p i omode)
    (At p (i ::ₘ 0) {i} fun s => AllOpen p s ∧
      Openable m i (omode &&& O_WRONLY != 0 || omode &&& O_RDWR != 0) s) fun _ => Rest p := by
  refine .bind falloc_safe fun r => ?_
  rcases r with - | ⟨f, fd⟩
  · exact putRet_safe
  refine .bind (iunlock_safe (framed_opening.and ((framed_openable (mem_cons_self ..)).and
    (framed_alive (mem_cons_self ..))))) fun _ => ?_
  rw [Finset.erase_singleton]
  exact .bind fopen_safe fun _ => ret_safe

theorem open_safe {omode : Nat} : (discipline sb m).Safe p (Sys.open sb p path omode) (Rest p) fun _ => Rest p := by
  unfold Sys.open
  split
  · refine .bind (create_safe nofun) fun r => ?_
    cases r with
    | none => exact ret_safe
    | some i => exact Safe.weaken openInode_safe fun s _ h => ⟨h.1, fun _ hc => .inl (h.2 hc)⟩
  · refine .bind namei_safe fun r => ?_
    cases r with
    | none => exact ret_safe
    | some i =>
      refine lockLook_safe fun d => ?_
      split
      · exact Safe.weaken putRet_safe fun s _ h => h.1
      · rename_i hd
        refine Safe.weaken openInode_safe fun s _ h => ⟨h.1, fun hw _ => ?_⟩
        have hom : omode ≠ 0 := by
          rintro rfl
          simp at hw
        rw [h.2.1]
        have := h.2.2
        cases hdt : d.type <;> simp_all [Plain]

/-! ### The current directory -/

theorem idle_stable : (discipline sb m).Stable p (Idle p) :=
  fun _ _ hs ht ⟨_, _, hq, hg⟩ h => idle_of_guar hs ht hq hg h

theorem leaving_stable (hF : Framed sb p H F) : (discipline sb m).Stable p (Leaving p H F) := by
  refine own_stable hF (fun s h => ⟨h.own, ?_, h.fact⟩) fun s t ho hp hf h =>
    ⟨ho, by rw [hp]; exact h.cwd, by rw [hp]; exact h.put, hf⟩
  rw [Bool.eq_false_iff]
  exact fun hu => h.cwd (unused_iff.mp hu).1

theorem leave_safe (hF : Framed sb p H F) :
    (discipline sb m).Safe p (Sys.iput p i) (Leaving p (i ::ₘ H) F) fun _ => Leaving p H F := by
  have hm : i ∈ i ::ₘ H := mem_cons_self ..
  refine .bind (R := fun _ => Leaving p (i ::ₘ H) F) (.op (fun _ => leaving_stable (hF.cons i))
    (fun s _ t hs ha hr _ => ?_) fun s e hs _ hr => ?_) fun _ => .op (fun _ => leaving_stable hF)
    (fun s _ t hs ha hr _ => ?_) fun s e _ _ hr => by cases hr
  · obtain ⟨hst, hh, hl⟩ := iputTest_step hs (ha.own.mem.mpr hm) hr
    refine ⟨hst.inv, hst.guar, ha.step hF hs (hst.mono fun j hj => ?_) (ha.own.congr hh hl)⟩
    rw [← mem_coe, ← coe_erase, ha.own.held, erase_cons_head]
    exact hj
  · rw [(iputTest_error hs hr).1]
    exact err_iput
  · obtain ⟨hst, hh, hl⟩ := iputDrop_step hs (ha.own.mem.mpr hm) (fun hc => by simpa using (ha.own.locks i).mp hc) hr
    refine ⟨hst.inv, hst.guar, ha.step hF hs (hst.mono fun j hj => ha.own.mem.mpr (mem_cons_of_mem hj))
      ⟨?_, fun j => by rw [hl]; exact ha.own.locks j⟩⟩
    rw [hh, ← coe_erase, ha.own.held, erase_cons_head]

/-- After a change of its directory a process runs on, unless it has none: then it is unused. -/
def Moved (p : P) (new : Option (Fin NINODE)) : Fs P → Prop := if new.isSome then Rest p else Idle p

variable {new : Option (Fin NINODE)}

theorem putCwd_safe (hH : ∀ i, new = some i → i ∈ H) :
    (discipline sb m).Safe p (Sys.putCwd p) (At p H ∅ (Moving p new)) fun _ => Leaving p H (Moving p new) := by
  have hF {H'} (h : H ⊆ H') : Framed sb p H' (Moving p new) := framed_moving fun i hi => h (hH i hi)
  -- Between the two actions the old directory is the call's own, and still in the field.
  refine .bind (R := fun r s => ∃ i, r = some i ∧ Leaving p (i ::ₘ H) (Moving p new) s) (.op
    (fun r => Discipline.Stable.exists fun i => (Discipline.Stable.const _).and
      (leaving_stable (hF (subset_cons H i))))
    (fun s r t hs ha hr _ => ?_) fun s e _ _ hr => by cases hr) fun r => ?_
  · have hl : ∀ j, (s.icache j).lock ≠ some p := fun j hc => by simpa using (ha.own.locks j).mp hc
    obtain ⟨i, hi⟩ := isSome_iff_exists.mp ha.live
    obtain ⟨hcwd, hput⟩ := dir_eq_some.mp hi
    unfold leaveCwd at hr
    rw [hcwd] at hr
    cases hr
    obtain ⟨hinv, hg, hcore, hheld, hproc, hft⟩ := dir_step (e := { s.proc p with put := true })
      (l := (some i).toList ++ s.held p) hs rfl (by rw [hi]; simp [ProcFs.dir, add_comm])
      (fun j hj => by simp [ProcFs.dir] at hj) hl rfl
    refine ⟨hinv, hg, i, rfl, ⟨?_, fun j => by rw [hcore.icache]; exact ha.own.locks j⟩, ?_, by rw [hproc],
      ha.fact.congr hcore hft (by rw [hproc])⟩
    · rw [hheld, ← ha.own.held]
      rfl
    · rw [hproc]
      simp [hcwd]
  · cases r with
    | none =>
      refine .pure fun s _ h => ?_
      obtain ⟨i, hi, -⟩ := h
      cases hi
    | some i =>
      refine (leave_safe (hF (Subset.refl H))).pre fun s _ h => ?_
      obtain ⟨j, hj, h⟩ := h
      rwa [some.inj hj]

theorem setCwd_safe : (discipline sb m).Safe p (.op fun s => s.setCwd p new) (Leaving p new.toList (Moving p new))
    fun _ => Moved p new := by
  refine .op (fun _ => ?_) (fun s _ t hs ha hr _ => ?_) fun s e _ _ hr => by cases hr
  · unfold Moved
    split
    · exact at_stable framed_allOpen
    · exact idle_stable
  cases hr
  have hdir : (s.proc p).dir = none := by rw [ProcFs.dir, ha.put, if_pos rfl]
  have hheld : (((s.held p).diff new.toList : List (Fin NINODE)) : Multiset (Fin NINODE)) = 0 := by
    rw [← coe_sub, ha.own.held]
    exact tsub_self _
  obtain ⟨hinv, hg, hcore, hh, hproc, hft⟩ := dir_step (e := { s.proc p with cwd := new, put := false })
    (l := (s.held p).diff new.toList) hs rfl (by rw [hheld, ha.own.held, hdir, dir_eq_cwd rfl]; simp)
    (fun j hj => ha.fact.2 j hj) (fun j hc => by simpa using (ha.own.locks j).mp hc) rfl
  have hm := ha.fact.congr hcore hft (by rw [hproc])
  have ho : Own p 0 ∅
    ((s.setProc p { s.proc p with cwd := new, put := false }).setHeld p ((s.held p).diff new.toList)) :=
    ⟨hh.trans hheld, fun j => by rw [hcore.icache]; exact ha.own.locks j⟩
  refine ⟨hinv, hg, ?_⟩
  unfold Moved
  split
  · rename_i hn
    exact ⟨ho, by rw [live, hproc, dir_eq_cwd rfl]; exact hn, hm.1⟩
  · exact ho.idle hm.1 (by rw [hproc])

theorem chdir_safe : (discipline sb m).Safe p (Sys.chdir sb p path) (Rest p) fun _ => Rest p := by
  refine .bind namei_safe fun r => ?_
  rcases r with - | i
  · exact ret_safe
  have hi : i ∈ i ::ₘ (0 : Multiset (Fin NINODE)) := mem_cons_self ..
  refine lockLook_safe fun d => ?_
  split
  · exact Safe.weaken putRet_safe fun s _ h => h.1
  refine Safe.weaken (G := Moving p (some i)) ?_ fun s _ h => ⟨h.1, fun j hj => ?_⟩
  · have hmem : ∀ j, some i = some j → j ∈ i ::ₘ (0 : Multiset (Fin NINODE)) := fun j hj => some.inj hj ▸ hi
    refine .bind (iunlock_safe (framed_moving hmem)) fun _ => ?_
    rw [Finset.erase_singleton]
    exact .bind (putCwd_safe hmem) fun _ => .bind setCwd_safe fun _ => ret_safe
  · rw [← some.inj hj, h.2.1]
    exact h.2.2

/-! ### Open files -/

theorem argfd_safe : (discipline sb m).Safe p (Sys.argfd p fd) (Rest p)
    fun r => At p 0 ∅ fun s => AllOpen p s ∧ (s.proc p).ofile fd = r := by
  refine op_look (fun r => framed_allOpen.and fun s t _ _ hp _ h => ?_) (fun s r t _ _ _ hr => ?_) fun s e _ _ _ hr =>
    by cases hr
  · rw [hp]
    exact h
  · cases hr
    exact ⟨rfl, rfl⟩

theorem withFd_safe {g : Fin NFILE → FsProg P Int} (hg : ∀ f, (discipline sb m).Safe p (g f)
      (At p 0 ∅ fun s => AllOpen p s ∧ (s.proc p).ofile fd = some f) fun _ => Rest p) :
    (discipline sb m).Safe p (Sys.argfd p fd >>= fun r => match r with | none => pure (-1) | some f => g f) (Rest p)
      fun _ => Rest p := by
  refine .bind argfd_safe fun r => ?_
  cases r with
  | none => exact Safe.weaken ret_safe fun s _ h => h.1
  | some f => exact hg f

theorem file_safe : (discipline sb m).Safe p (Sys.file f) (At p 0 ∅ fun s => AllOpen p s ∧ (s.proc p).ofile fd = some f)
    fun e => At p 0 ∅ fun s => AllOpen p s ∧ FileIs m p fd f e s := by
  refine (op_look (F := fun s => AllOpen p s ∧ (s.proc p).ofile fd = some f) (E := fun e => FileIs m p fd f e)
    (fun e => ?_)
    (fun s e t hs _ hf hr => ?_) fun s e _ _ _ hr => by cases hr).post fun e s _ h => h.imp fun h => ⟨h.1.1, h.2⟩
  · refine (framed_allOpen.and fun s t _ _ hp _ h => ?_).and framed_fileIs
    rw [hp]
    exact h
  · cases hr
    have hty := hf.1 fd f hf.2
    exact ⟨rfl, ⟨hf.2, hty, rfl⟩, fun hm => hs.writable hm f hty⟩

theorem fileOff_safe (hF : Framed sb p H F) : (discipline sb m).Safe p (Sys.file f) (At p H K F) fun _ => At p H K F :=
  (op_look (E := fun _ _ => True) (fun _ => hF.and (.const _)) (fun s e t _ _ _ hr => by cases hr; exact ⟨rfl, trivial⟩)
    fun s e _ _ _ hr => by cases hr).post fun _ s _ h => h.imp And.left

theorem advance_safe (hF : Framed sb p H F) :
    (discipline sb m).Safe p (Prog.op fun s => s.advance f n) (At p H K F) fun _ => At p H K F := by
  refine op_keep hF (fun _ => hF) (fun s _ t hs ho _ hr => ?_) fun s e _ _ _ hr => by cases hr
  obtain ⟨hst, hh, hic⟩ := advance_step hs hr
  exact ⟨hst.mono fun i => ho.mem.mpr, ho.congr hh fun j => by rw [hic]⟩

theorem withFile_safe {e : File}
    (hg : (discipline sb m).Safe p g (At p 0 {e.ip} fun s => AllOpen p s ∧ FileIs m p fd f e s) Q) :
    (discipline sb m).Safe p (Sys.ilock p e.ip >>= fun _ => g)
    (At p 0 ∅ fun s => AllOpen p s ∧ FileIs m p fd f e s) Q := by
  refine .bind (ilock_safe (framed_allOpen.and framed_fileIs) (.inr fun s h => h.2.1.fileRef) (by simp)) fun _ => ?_
  rwa [insert_empty_eq]

theorem unlockFile_safe (hF : Framed sb p 0 F) : (discipline sb m).Safe p (Sys.iunlock p i) (At p 0 {i} F)
    fun _ => At p 0 ∅ F :=
  (iunlock_safe hF).post fun _ s _ h => by rwa [Finset.erase_singleton] at h

theorem fstat_safe : (discipline sb m).Safe p (Sys.fstat p fd) (Rest p) fun _ => Rest p := by
  refine withFd_safe fun f => ?_
  refine .bind file_safe fun e => ?_
  split
  · refine withFile_safe ?_
    exact Safe.weaken (.bind (unlockFile_safe framed_allOpen) fun _ => ret_safe) fun s _ h => h.1
  · exact Safe.weaken ret_safe fun s _ h => h.1

theorem read_safe {con : Option (List UInt8)} (hn : n < 2 ^ 32) :
    (discipline sb m).Safe p (Sys.read sb p fd n con) (Rest p) fun _ => Rest p := by
  refine withFd_safe fun f => ?_
  refine .bind file_safe fun e => ?_
  split
  · exact Safe.weaken ret_safe fun s _ h => h.1
  split
  · have hF : Framed sb p 0 fun s => AllOpen p s ∧ FileIs m p fd f e s := framed_allOpen.and framed_fileIs
    refine withFile_safe (.bind (fileOff_safe hF) fun e' => ?_)
    refine .bind (readi_safe hF (.inr fun s h => h.2.1.fileRef) hn) fun r => ?_
    refine Safe.weaken (G := AllOpen p) ?_ fun s _ h => h.1
    exact .bind (advance_safe framed_allOpen) fun _ =>
      .bind (unlockFile_safe framed_allOpen) fun _ => ret_safe
  · exact panic_safe (by decide)

theorem writeFrom_safe {e : File} (he : e.writable = true) {fuel : Nat} :
    (discipline sb m).Safe p (Sys.writeFrom sb p f e.ip fuel src) (At p 0 ∅ fun s => AllOpen p s ∧ FileIs m p fd f e s)
      fun _ => Rest p := by
  induction fuel generalizing src with
  | zero => exact Safe.weaken ret_safe fun s _ h => h.1
  | succ fuel ih =>
    have hF : Framed sb p 0 fun s => AllOpen p s ∧ FileIs m p fd f e s := framed_allOpen.and framed_fileIs
    unfold Sys.writeFrom
    split
    · exact Safe.weaken ret_safe fun s _ h => h.1
    refine withFile_safe (.bind (fileOff_safe hF) fun e' => ?_)
    have hlen : (src.take Sys.maxWrite).length < 2 ^ 32 :=
      (List.length_take_le Sys.maxWrite src).trans_lt (by decide)
    refine .bind (writei_safe hF (.inr fun s h => h.2.1.fileRef) (fun hm s _ h => h.2.2 hm he) hlen) fun r => ?_
    refine .bind (advance_safe hF) fun _ => ?_
    refine .bind (unlockFile_safe hF) fun _ => ?_
    cases r with
    | none => exact Safe.weaken ret_safe fun s _ h => h.1
    | some m =>
      simp only
      split
      · exact panic_safe (by decide)
      · exact ih

theorem write_safe : (discipline sb m).Safe p (Sys.write sb p fd src) (Rest p) fun _ => Rest p := by
  refine withFd_safe fun f => ?_
  refine .bind file_safe fun e => ?_
  split
  · exact Safe.weaken ret_safe fun s _ h => h.1
  rename_i hw
  split
  · refine .bind (writeFrom_safe (by simpa using hw)) fun b => ?_
    split <;> exact ret_safe
  · exact panic_safe (by decide)

theorem dup_safe : (discipline sb m).Safe p (Sys.dup p fd) (Rest p) fun _ => Rest p := by
  refine withFd_safe fun f => ?_
  refine .bind (R := fun _ => Rest p) (.op (fun _ => at_stable framed_allOpen)
    (fun s r t hs ha hr _ => ?_) fun s e _ _ hr => ?_) fun r => ?_
  · obtain ⟨hinv, hg, hheld, hic, hcwd, hopen⟩ := fdup_step hs ha.fact.2 (ha.fact.1 fd f ha.fact.2) hr
    exact ⟨hinv, hg, ha.own.congr hheld fun j => by rw [hic], live_congr hcwd ha.live, hopen ha.fact.1⟩
  · rw [fdup_error hr]
    exact err_panic (by decide)
  · cases r <;> exact ret_safe

theorem close_safe : (discipline sb m).Safe p (Sys.close p fd) (Rest p) fun _ => Rest p := by
  refine withFd_safe fun f => ?_
  refine .bind (R := Holding p) (.op (fun _ => holding_stable)
    (fun s r t hs ha hr _ => ?_) fun s e _ _ hr => ?_) put_safe
  · have hl : ∀ j, (s.icache j).lock ≠ some p := fun j hc => by simpa using (ha.own.locks j).mp hc
    obtain ⟨hinv, hg, hheld, hic, hcwd, hopen, -⟩ := fclose_step hs ha.fact.2 hl ha.fact.1 hr
    refine ⟨hinv, hg, holding ⟨?_, fun j => by rw [hic]; exact ha.own.locks j⟩ (live_congr hcwd ha.live) hopen⟩
    rw [hheld, ← coe_add, ha.own.held, add_zero]
  · rw [fclose_error hr]
    exact err_panic (by decide)

theorem execReads_safe {reads : List (Nat × Fin (2 ^ 32) × Option (List UInt8))} :
    (discipline sb m).Safe p (Sys.execReads sb p i reads) (At p (i ::ₘ 0) {i} (AllOpen p))
      fun _ => At p (i ::ₘ 0) {i} (AllOpen p) := by
  induction reads with
  | nil => exact ret_safe
  | cons r reads ih =>
    exact .bind (readi_safe framed_allOpen (.inl (mem_cons_self ..)) r.2.1.isLt) fun _ => ih

theorem exec_safe {reads : List (Nat × Fin (2 ^ 32) × Option (List UInt8))} :
    (discipline sb m).Safe p (Sys.exec sb p path reads) (Rest p) fun _ => Rest p := by
  refine .bind namei_safe fun r => ?_
  rcases r with - | i
  · exact ret_safe
  refine .bind lock_safe fun _ => ?_
  exact .bind execReads_safe fun _ => putRet_safe

/-! ### Processes -/

theorem fork_safe : (discipline sb m).Safe p (Sys.fork p q) (Rest p) fun _ => Rest p := by
  refine .bind (R := fun _ => Rest p) (.op (fun _ => at_stable framed_allOpen)
    (fun s r t hs ha hr _ => ?_) fun s e _ _ hr => ?_) fun b => ?_
  · obtain ⟨hinv, hg, hheld, hlock, hproc, hopen⟩ := fork_step hs ha.fact ha.live hr
    exact ⟨hinv, hg, ha.own.congr hheld hlock, live_congr (by rw [hproc]) ha.live, hopen⟩
  · rw [fork_error hr]
    exact err_panic (by decide)
  · cases b <;> exact ret_safe

theorem closeAll_safe {L : List (Fin NOFILE)} : (discipline sb m).Safe p (Sys.closeAll p L) (Rest p) fun _ =>
    Rest p := by
  induction L with
  | nil => exact ret_safe
  | cons fd L ih => exact .bind close_safe fun _ => ih

theorem exit_safe : (discipline sb m).Safe p (Sys.exit p) (Rest p) fun _ => Idle p :=
  .bind closeAll_safe fun _ => .bind (Safe.weaken (putCwd_safe (fun _ (h : none = _) => by cases h))
    fun s _ h => ⟨h, by simp⟩) fun _ => .bind setCwd_safe fun _ => ret_safe

theorem syscall_safe (c : Call P) : (discipline sb m).Safe p (syscall sb p c) (Rest p) fun _ => Idle p := by
  have hidle : ∀ {x : FsProg P Int}, (discipline sb m).Safe p x (Rest p) (fun _ => Rest p) →
      (discipline sb m).Safe p x (Rest p) fun _ => Idle p := fun h => h.post fun _ s _ h => Rest.idle h
  cases c with
  | «open» path omode => exact hidle open_safe
  | mkdir path => exact hidle (createPut_safe nofun)
  | mknod path major minor => exact hidle (createPut_safe nofun)
  | link old new => exact hidle link_safe
  | unlink path => exact hidle unlink_safe
  | chdir path => exact hidle chdir_safe
  | read fd n con => exact hidle (read_safe (n.isLt.trans (by decide)))
  | write fd src => exact hidle write_safe
  | fstat fd => exact hidle fstat_safe
  | dup fd => exact hidle dup_safe
  | close fd => exact hidle close_safe
  | exec path reads => exact hidle exec_safe
  | fork child => exact hidle fork_safe
  | exit => exact exit_safe

end Xv6.Fs
