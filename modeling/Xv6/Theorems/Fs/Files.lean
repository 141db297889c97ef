import Xv6.Theorems.Fs.Reclaim

/-! The actions on open files and current directories keep the invariant. -/

namespace Xv6.Fs
open Function List Option

variable {P : Type} {sb : Superblock} {s t : Fs P} {p q : P} {i j : Fin NINODE}
  {f g : Fin NFILE} {fd : Fin NOFILE} {e : File} {c : Prop}

structure SameCore (s t : Fs P) : Prop where
  disk : t.disk = s.disk
  icache : t.icache = s.icache
  born : t.born = s.born
  clock : t.clock = s.clock

theorem SameCore.typeOf (hs : SameCore s t) (i : Fin NINODE) : t.typeOf i = s.typeOf i := by
  unfold Fs.typeOf
  rw [hs.disk, hs.icache]

theorem SameCore.keep (hs : SameCore s t) {H : Fin NINODE → Prop}
    (hf : ∀ fd f, (s.proc p).ofile fd = some f → (s.ftable f).Same (t.ftable f)) : Keep p H s t where
  inum i _ := by rw [hs.icache]
  alive i _ ha := by rwa [hs.typeOf]
  inode x _ := .inl ⟨by rw [hs.disk], by rw [hs.born]⟩
  clock := hs.clock.ge
  file := hf

theorem SameCore.refl (s : Fs P) : SameCore s s := ⟨rfl, rfl, rfl, rfl⟩

theorem fileRefs_setFile (h : t.ftable = Function.update s.ftable f e) (he : e.ref ≠ 0 ∧ e.type = .inode ∧ e.ip = j ↔
      (s.ftable f).ref ≠ 0 ∧ (s.ftable f).type = .inode ∧ (s.ftable f).ip = j) : t.fileRefs j = s.fileRefs j := by
  have := fileRefs_update e j h
  by_cases hc : (s.ftable f).ref ≠ 0 ∧ (s.ftable f).type = .inode ∧ (s.ftable f).ip = j
  · rw [if_pos hc, if_pos (he.mpr hc)] at this
    omega
  · rw [if_neg hc, if_neg fun hc' => hc (he.mp hc')] at this
    omega

theorem fileRef_of_same (hp : t.proc q = s.proc q)
    (hf : ∀ fd f, (s.proc q).ofile fd = some f → (s.ftable f).Same (t.ftable f)) (h : s.FileRef q i) :
    t.FileRef q i := by
  obtain ⟨fd, f, hfd, ht, hi⟩ := h
  exact ⟨fd, f, by rw [hp]; exact hfd, by rw [(hf fd f hfd).type]; exact ht, by rw [(hf fd f hfd).ip]; exact hi⟩

theorem unused_iff : unused p s = true ↔ (s.proc p).cwd = none ∧ s.held p = [] ∧ ∀ fd, (s.proc p).ofile fd = none := by
  simp [unused, and_assoc]

structure Forked (q : P) (s t : Fs P) : Prop where
  core : SameCore s t
  held : t.held = s.held
  proc : ∀ r ≠ q, t.proc r = s.proc r
  dir : (t.proc q).dir = (s.proc q).dir
  same : ∀ g, (s.ftable g).Same (t.ftable g)

theorem Forked.refl (s : Fs P) : Forked q s s := ⟨.refl s, rfl, fun _ _ => rfl, rfl, fun _ => .refl _⟩

theorem Forked.trans {u : Fs P} (h : Forked q s t) (h' : Forked q t u) : Forked q s u where
  core := ⟨h'.core.disk.trans h.core.disk, h'.core.icache.trans h.core.icache, h'.core.born.trans h.core.born,
    h'.core.clock.trans h.core.clock⟩
  held := h'.held.trans h.held
  proc r hr := (h'.proc r hr).trans (h.proc r hr)
  dir := h'.dir.trans h.dir
  same g := ⟨(h'.same g).type.trans (h.same g).type, (h'.same g).ip.trans (h.same g).ip,
    (h'.same g).readable.trans (h.same g).readable, (h'.same g).writable.trans (h.same g).writable⟩

section

variable [Fintype P]

theorem InvIf.sameCore (h : InvIf c sb s) (hs : SameCore s t)
    (hrefs : ∀ i, t.fileRefs i + t.cwdRefs i + t.heldRefs i = s.fileRefs i + s.cwdRefs i + s.heldRefs i)
    (hlocked : ∀ i q, (s.icache i).lock = some q → i ∈ t.held q ∨ t.FileRef q i)
    (hfiles : ∀ f, (t.ftable f).ref = t.slotRefs f) (hunused : ∀ f, (t.ftable f).ref = 0 → (t.ftable f).type = .none)
    (hopening : ∀ f, (t.ftable f).type = .none → (t.ftable f).ref ≤ 1)
    (hwritable : c → ∀ f, (t.ftable f).type = .inode → (t.ftable f).writable = true →
    Plain (s.typeOf (t.ftable f).ip)) : InvIf c sb t where
  disk := by rw [hs.disk]; exact h.disk
  uniq := by rw [hs.icache]; exact h.uniq
  inum_lt := by rw [hs.icache]; exact h.inum_lt
  copy a := by rw [hs.typeOf, hs.icache, hs.disk]; exact h.copy a
  refs a := by rw [hs.icache, hrefs]; exact h.refs a
  locked a q hq := by
    rw [hs.icache] at hq ⊢
    exact ⟨(h.locked a q hq).1, hlocked a q hq⟩
  files := hfiles
  unused := hunused
  opening := hopening
  writable hc f ht hw := by rw [hs.typeOf]; exact hwritable hc f ht hw
  order := by rw [hs.disk, hs.born]; exact h.order
  born_lt := by rw [hs.born, hs.clock]; exact h.born_lt

theorem SameCore.guar (hs : SameCore s t) (h : InvIf c sb s) (hh : ∀ q ≠ p, t.held q = s.held q)
    (hp : ∀ q ≠ p, t.proc q = s.proc q)
    (hf : ∀ q ≠ p, ∀ fd f, (s.proc q).ofile fd = some f → (s.ftable f).Same (t.ftable f))
    (ht : ∀ i, t.Target i → s.Target i ∨ t.typeOf i ≠ .free) : Guar p s t :=
  ⟨fun q hq => ⟨hh q hq, fun i => by rw [hs.icache], .inl (hp q hq)⟩, fun q hq => hs.keep (hf q hq),
    h.spares hs.disk (fun i _ => by rw [hs.icache]) ht⟩

theorem InvIf.target (h : InvIf c sb s) (hf : ∀ g, (t.ftable g).ref ≠ 0 → (t.ftable g).type = .inode →
    (s.ftable g).type = .inode ∧ (s.ftable g).ip = (t.ftable g).ip) (hc : ∀ q, (t.proc q).dir = (s.proc q).dir)
    (ht : t.Target i) : s.Target i := by
  rcases ht with ⟨g, hr, hty, hip⟩ | ⟨q, hq⟩
  · obtain ⟨hty', hip'⟩ := hf g hr hty
    refine .inl ⟨g, fun h0 => ?_, hty', hip'.trans hip⟩
    rw [h.unused g h0] at hty'
    cases hty'
  · exact .inr ⟨q, by rw [← hc q]; exact hq⟩

theorem advance_step (h : InvIf c sb s) {n : Nat} (hr : s.advance f n = .ok ((), t)) :
    Step c sb p (· ∈ s.held p) s t ∧ t.held = s.held ∧ t.icache = s.icache := by
  unfold advance at hr
  cases hr
  obtain ⟨e, he⟩ : ∃ e : File, e = { s.ftable f with off := ((s.ftable f).off + n) % 2 ^ 32 } := ⟨_, rfl⟩
  rw [← he]
  have hs : SameCore s (s.setFile f e) := ⟨rfl, rfl, rfl, rfl⟩
  have hsame : ∀ g, (s.ftable g).Same ((s.setFile f e).ftable g) ∧
    ((s.setFile f e).ftable g).ref = (s.ftable g).ref := by
    intro g
    by_cases hg : g = f
    · subst hg
      simp only [setFile, update_self, he]
      exact ⟨⟨rfl, rfl, rfl, rfl⟩, trivial⟩
    · simp only [setFile, update_of_ne hg]
      exact ⟨.refl _, trivial⟩
  have hinv : InvIf c sb (s.setFile f e) := by
    refine h.sameCore hs (fun j => ?_) (fun j q hq => ?_) (fun g => ?_) (fun g hg => ?_) (fun g hg => ?_)
      (fun hc g ht hw => ?_)
    · have h1 : (s.setFile f e).fileRefs j = s.fileRefs j := by
        refine fileRefs_setFile (f := f) (e := e) rfl ?_
        rw [he]
      rw [h1, cwdRefs_congr (s := s) (t := s.setFile f e) rfl, heldRefs_congr (s := s) (t := s.setFile f e) rfl]
    · exact (h.locked j q hq).2.imp id (fileRef_of_same (s := s) rfl fun _ g _ => (hsame g).1)
    · rw [(hsame g).2]
      exact h.files g
    · rw [(hsame g).2] at hg
      rw [(hsame g).1.type]
      exact h.unused g hg
    · rw [(hsame g).1.type] at hg
      rw [(hsame g).2]
      exact h.opening g hg
    · rw [(hsame g).1.type] at ht
      rw [(hsame g).1.writable] at hw
      rw [(hsame g).1.ip]
      exact h.writable hc g ht hw
  have htarget : ∀ j, (s.setFile f e).Target j → s.Target j := fun j =>
    h.target (fun g _ hty => ⟨by rw [← (hsame g).1.type]; exact hty, (hsame g).1.ip.symm⟩) fun _ => rfl
  exact ⟨⟨hinv, hs.guar h (fun _ _ => rfl) (fun _ _ => rfl) (fun _ _ _ g _ => (hsame g).1) fun j => .inl ∘ htarget j,
    rfl, hs.keep fun _ g _ => (hsame g).1⟩, rfl, rfl⟩

end

variable [DecidableEq P]

def allocated (s : Fs P) (p : P) (f : Fin NFILE) (fd : Fin NOFILE) : Fs P :=
  (s.setFile f { s.ftable f with ref := 1 }).setProc p {
    s.proc p with ofile := Function.update (s.proc p).ofile fd (some f) }

theorem allocated_ftable (hg : g ≠ f) : (s.allocated p f fd).ftable g = s.ftable g := by
  simp [allocated, setFile, setProc, hg]

theorem allocated_ftable_self : (s.allocated p f fd).ftable f = { s.ftable f with ref := 1 } := by
  simp [allocated, setFile, setProc]

theorem allocated_proc (hq : q ≠ p) : (s.allocated p f fd).proc q = s.proc q := by
  simp [allocated, setFile, setProc, hq]

theorem allocated_proc_self : (s.allocated p f fd).proc p = {
    s.proc p with ofile := Function.update (s.proc p).ofile fd (some f) } := by
  simp [allocated, setFile, setProc]

theorem allocated_dir (q : P) : ((s.allocated p f fd).proc q).dir = (s.proc q).dir := by
  by_cases hq : q = p
  · subst hq
    rw [allocated_proc_self]
    rfl
  · rw [allocated_proc hq]

structure Shared (q : P) (fd : Fin NOFILE) (f : Fin NFILE) (s t : Fs P) : Prop where
  core : SameCore s t
  held : t.held = s.held
  ftable : t.ftable = Function.update s.ftable f { s.ftable f with ref := (s.ftable f).ref + 1 }
  proc : t.proc = Function.update s.proc q { s.proc q with ofile := Function.update (s.proc q).ofile fd (some f) }

theorem Shared.same (hs : Shared q fd f s t) (g : Fin NFILE) : (s.ftable g).Same (t.ftable g) := by
  rw [hs.ftable]
  by_cases hg : g = f
  · subst hg
    rw [update_self]
    exact ⟨rfl, rfl, rfl, rfl⟩
  · rw [update_of_ne hg]
    exact .refl _

theorem Shared.ref (hs : Shared q fd f s t) (g : Fin NFILE) :
    (t.ftable g).ref = (s.ftable g).ref + if f = g then 1 else 0 := by
  rw [hs.ftable]
  by_cases hg : g = f
  · subst hg
    simp
  · rw [update_of_ne hg]
    simp [Ne.symm hg]

theorem Shared.dir (hs : Shared q fd f s t) (r : P) : (t.proc r).dir = (s.proc r).dir := by
  rw [hs.proc]
  by_cases hr : r = q
  · subst hr
    rw [update_self]
    rfl
  · rw [update_of_ne hr]

theorem fdup_inv {r : Option (Fin NOFILE)} (hr : s.fdup p f = .ok (r, t)) :
    r = none ∧ t = s ∨ ∃ fd, r = some fd ∧ (s.proc p).ofile fd = none ∧ Shared p fd f s t := by
  unfold fdup at hr
  split at hr
  · cases hr
    exact .inl ⟨rfl, rfl⟩
  rename_i fd hfd
  split_ifs at hr
  cases hr
  exact .inr ⟨fd, rfl, by simpa using List.find?_some hfd, ⟨rfl, rfl, rfl, rfl⟩, rfl, rfl, rfl⟩

theorem fdup_error {e : Halt} (hr : s.fdup p f = .error e) : e = .panic "filedup" := by
  unfold fdup at hr
  split at hr
  · cases hr
  split_ifs at hr
  cases hr
  rfl

structure Closed (p : P) (fd : Fin NOFILE) (f : Fin NFILE) (e : File) (l : List (Fin NINODE)) (s t : Fs P) : Prop where
  core : SameCore s t
  held : t.held = Function.update s.held p l
  ftable : t.ftable = Function.update s.ftable f e
  proc : t.proc = Function.update s.proc p { s.proc p with ofile := Function.update (s.proc p).ofile fd none }

theorem fclose_inv {r : Option (Fin NINODE)} (hr : s.fclose p fd f = .ok (r, t)) : (s.ftable f).ref ≠ 0 ∧
      (r = none ∧ 1 < (s.ftable f).ref ∧ Closed p fd f { s.ftable f with ref := (s.ftable f).ref - 1 } (s.held p) s t ∨
        (s.ftable f).ref = 1 ∧ (r = some (s.ftable f).ip ∧ (s.ftable f).type = .inode ∧
              Closed p fd f { s.ftable f with ref := 0, type := .none } ((s.ftable f).ip :: s.held p) s t ∨
            r = none ∧ (s.ftable f).type ≠ .inode ∧
              Closed p fd f { s.ftable f with ref := 0, type := .none } (s.held p) s t)) := by
  unfold fclose at hr
  have hft : (s.setProc p { s.proc p with ofile := Function.update (s.proc p).ofile fd none }).ftable = s.ftable := rfl
  simp only [hft] at hr
  split at hr
  · cases hr
  rename_i h0
  refine ⟨by omega, ?_⟩
  split at hr
  · rename_i h1
    cases hr
    exact .inl ⟨rfl, h1, ⟨rfl, rfl, rfl, rfl⟩, (update_eq_self ..).symm, rfl, rfl⟩
  rename_i h1
  refine .inr ⟨by omega, ?_⟩
  split at hr
  · rename_i hty
    cases hr
    exact .inl ⟨rfl, hty, ⟨rfl, rfl, rfl, rfl⟩, rfl, rfl, rfl⟩
  · rename_i hty
    cases hr
    exact .inr ⟨rfl, hty, ⟨rfl, rfl, rfl, rfl⟩, (update_eq_self ..).symm, rfl, rfl⟩

theorem fclose_error {e : Halt} (hr : s.fclose p fd f = .error e) : e = .panic "fileclose" := by
  unfold fclose at hr
  simp only at hr
  split at hr
  · cases hr
    rfl
  split at hr
  · cases hr
  split at hr <;> cases hr

theorem forkFile_inv (hr : forkFile p q s fd = .ok t) : (s.proc p).ofile fd = none ∧ t = s ∨
      ∃ f, (s.proc p).ofile fd = some f ∧ (s.ftable f).ref ≠ 0 ∧ Shared q fd f s t := by
  unfold forkFile at hr
  split at hr
  · rename_i hn
    cases hr
    exact .inl ⟨hn, rfl⟩
  rename_i f hf
  split_ifs at hr
  cases hr
  exact .inr ⟨f, hf, by omega, ⟨rfl, rfl, rfl, rfl⟩, rfl, rfl, rfl⟩

theorem forkFile_error {e : Halt} (hr : forkFile p q s fd = .error e) : e = .panic "filedup" := by
  unfold forkFile at hr
  split at hr
  · cases hr
  split_ifs at hr
  cases hr
  rfl

theorem forkFiles_error {L : List (Fin NOFILE)} {e : Halt} (hr : L.foldlM (forkFile p q) s = .error e) :
    e = .panic "filedup" := by
  induction L generalizing s with
  | nil => cases hr
  | cons fd L ih =>
    rw [foldlM_cons] at hr
    rcases Except.bind_eq_error.mp hr with hr | ⟨u, -, hr⟩
    · exact forkFile_error hr
    · exact ih hr

theorem fork_error {e : Halt} (hr : s.fork p q = .error e) : e = .panic "filedup" := by
  unfold fork at hr
  split_ifs at hr
  rcases Except.bind_eq_error.mp hr with hr | ⟨u, -, hr⟩
  · exact forkFiles_error hr
  · split at hr <;> cases hr

theorem Shared.forked (hs : Shared q fd f s t) : Forked q s t :=
  ⟨hs.core, hs.held, fun r hr => by rw [hs.proc, update_of_ne hr], hs.dir q, hs.same⟩

section

variable {l : List (Fin NINODE)} (hs : Closed p fd f e l s t)
include hs

theorem Closed.ofile_none : (t.proc p).ofile fd = none := by
  rw [hs.proc, update_self]
  exact update_self ..

theorem Closed.ofile_ne {fd' : Fin NOFILE} (h : fd' ≠ fd) : (t.proc p).ofile fd' = (s.proc p).ofile fd' := by
  rw [hs.proc, update_self]
  exact update_of_ne h _ _

theorem Closed.proc_ne (hq : q ≠ p) : t.proc q = s.proc q := by
  rw [hs.proc, update_of_ne hq]

theorem Closed.ftable_ne (hg : g ≠ f) : t.ftable g = s.ftable g := by
  rw [hs.ftable, update_of_ne hg]

theorem Closed.ftable_self : t.ftable f = e := by rw [hs.ftable, update_self]

theorem Closed.dir : (t.proc p).dir = (s.proc p).dir := by
  rw [hs.proc, update_self]
  rfl

end

variable [Fintype P]

/-! ### Opening -/

theorem falloc_inv (h : InvIf c sb s) {r : Option (Fin NFILE × Fin NOFILE)} (hr : s.falloc p = .ok (r, t)) :
    r = none ∧ t = s ∨ ∃ f fd, r = some (f, fd) ∧ (s.ftable f).ref = 0 ∧ (s.proc p).ofile fd = none ∧
      t = s.allocated p f fd := by
  unfold falloc at hr
  split at hr
  · cases hr
    exact .inl ⟨rfl, rfl⟩
  rename_i f hf
  have h0 : (s.ftable f).ref = 0 := by simpa using List.find?_some hf
  split at hr
  · cases hr
    refine .inl ⟨rfl, ?_⟩
    have : { s.ftable f with ref := 0, type := FdType.none } = s.ftable f := by rw [← h0, ← h.unused f h0]
    rw [this]
    simp [setFile]
  · rename_i fd hfd
    cases hr
    exact .inr ⟨f, fd, rfl, h0, by simpa using List.find?_some hfd, rfl⟩

theorem allocated_step (h : InvIf c sb s) (h0 : (s.ftable f).ref = 0) (hfd : (s.proc p).ofile fd = none) :
    InvIf c sb (s.allocated p f fd) ∧ Guar p s (s.allocated p f fd) ∧ SameCore s (s.allocated p f fd) := by
  have hs : SameCore s (s.allocated p f fd) := ⟨rfl, rfl, rfl, rfl⟩
  have hnot : ∀ q fd', (s.proc q).ofile fd' ≠ some f := fun q fd' hc => h.file_ref_ne_zero hc h0
  have hsame : ∀ q fd' g, (s.proc q).ofile fd' = some g → (s.ftable g).Same ((s.allocated p f fd).ftable g) := by
    intro q fd' g hg
    rw [allocated_ftable (by rintro rfl; exact hnot q fd' hg)]
    exact .refl _
  have hfileRef : ∀ q i, s.FileRef q i → (s.allocated p f fd).FileRef q i := by
    rintro q i ⟨fd', g, hg, ht, hi⟩
    have hs' := hsame q fd' g hg
    refine ⟨fd', g, ?_, by rw [hs'.type]; exact ht, by rw [hs'.ip]; exact hi⟩
    by_cases hq : q = p
    · subst hq
      rw [allocated_proc_self]
      change Function.update _ _ _ _ = _
      rw [update_of_ne (by rintro rfl; rw [hfd] at hg; cases hg)]
      exact hg
    · rw [allocated_proc hq]
      exact hg
  refine ⟨h.sameCore hs (fun i => ?_) (fun i q hq => (h.locked i q hq).2.imp id (hfileRef q i)) (fun g => ?_)
    (fun g hg => ?_) (fun g hg => ?_) (fun hc g ht hw => ?_),
    hs.guar h (fun _ _ => rfl) (fun q hq => allocated_proc hq) (fun q _ => hsame q)
      fun i ht => .inl (h.target (fun g _ hty => ?_) allocated_dir ht), hs⟩
  · have h1 : (s.allocated p f fd).fileRefs i = s.fileRefs i := by
      refine fileRefs_setFile (f := f) (e := { s.ftable f with ref := 1 }) rfl ?_
      simp [h.unused f h0]
    rw [h1, cwdRefs_same (s := s) (t := s.allocated p f fd) rfl rfl,
      heldRefs_congr (s := s) (t := s.allocated p f fd) rfl]
  · have h1 := slotRefs_update (s := s) (t := s.allocated p f fd) (p := p) _ g rfl
    have h2 := fds_update (s.proc p) fd (some f) g
    have h3 := h.files g
    dsimp only at h1
    simp only [hfd, reduceCtorEq, if_false, Nat.add_zero, some.injEq] at h2
    by_cases hg : g = f
    · subst hg
      rw [allocated_ftable_self]
      simp only [if_true] at h2
      change 1 = _
      omega
    · rw [allocated_ftable hg]
      rw [if_neg (Ne.symm hg)] at h2
      omega
  · by_cases hgf : g = f
    · subst hgf
      rw [allocated_ftable_self] at hg
      cases hg
    · rw [allocated_ftable hgf] at hg ⊢
      exact h.unused g hg
  · by_cases hgf : g = f
    · subst hgf
      rw [allocated_ftable_self]
    · rw [allocated_ftable hgf] at hg ⊢
      exact h.opening g hg
  · by_cases hgf : g = f
    · subst hgf
      rw [allocated_ftable_self] at ht
      simp only [h.unused g h0] at ht
      cases ht
    · rw [allocated_ftable hgf] at ht hw ⊢
      exact h.writable hc g ht hw
  · by_cases hgf : g = f
    · subst hgf
      rw [allocated_ftable_self] at hty ⊢
      exact ⟨hty, rfl⟩
    · rw [allocated_ftable hgf] at hty ⊢
      exact ⟨hty, rfl⟩

theorem InvIf.not_shared (h : InvIf c sb s) (hfd : (s.proc p).ofile fd = some f) (h1 : (s.ftable f).ref ≤ 1)
    (hq : q ≠ p) (fd' : Fin NOFILE) : (s.proc q).ofile fd' ≠ some f := fun hc => by
  have h2 := fds_add_fds_le (s := s) hq f
  have h3 := fds_pos hfd
  have h4 := fds_pos hc
  have h5 := h.files f
  omega

theorem fopen_step (h : InvIf c sb s) (hfd : (s.proc p).ofile fd = some f) (ht : (s.ftable f).type = .none)
    (hi : i ∈ s.held p) (ha : s.typeOf i ≠ .free) {r w : Bool} (hw : c → w = true → Plain (s.typeOf i))
    (hr : s.fopen p f i r w = .ok ((), t)) :
    InvIf c sb t ∧ Guar p s t ∧ SameCore s t ∧ t.held p = (s.held p).erase i ∧ t.proc = s.proc ∧
      (t.ftable f).type = .inode ∧ ∀ g ≠ f, t.ftable g = s.ftable g := by
  unfold fopen at hr
  cases hr
  obtain ⟨e, he⟩ : ∃ e : File,
      e = { s.ftable f with type := .inode, ip := i, off := 0, readable := r, writable := w } := ⟨_, rfl⟩
  rw [← he]
  obtain ⟨t, hdef⟩ : ∃ t, t = (s.setFile f e).setHeld p ((s.held p).erase i) := ⟨_, rfl⟩
  rw [← hdef]
  have hft : t.ftable = Function.update s.ftable f e := by rw [hdef]; rfl
  have hheld : t.held = Function.update s.held p ((s.held p).erase i) := by rw [hdef]; rfl
  have hproc : t.proc = s.proc := by rw [hdef]; rfl
  have hs : SameCore s t := by rw [hdef]; exact ⟨rfl, rfl, rfl, rfl⟩
  have hftf : t.ftable f = e := by rw [hft, update_self]
  have hftg : ∀ g ≠ f, t.ftable g = s.ftable g := fun g hg => by rw [hft, update_of_ne hg]
  have href : (s.ftable f).ref ≠ 0 := h.file_ref_ne_zero hfd
  have hsame : ∀ q ≠ p, ∀ fd' g, (s.proc q).ofile fd' = some g → (s.ftable g).Same (t.ftable g) := by
    intro q hq fd' g hg
    rw [hftg g (by rintro rfl; exact h.not_shared hfd (h.opening g ht) hq fd' hg)]
    exact .refl _
  refine ⟨h.sameCore hs (fun j => ?_) (fun j q hq => ?_) (fun g => ?_) (fun g hg => ?_) (fun g hg => ?_)
    (fun hc g hty hwr => ?_), hs.guar h (fun q hq => by rw [hheld, update_of_ne hq]) (fun q _ => by rw [hproc]) hsame
    fun j hj => ?_, hs, by rw [hheld, update_self], hproc, by rw [hftf, he], hftg⟩
  · have h1 := fileRefs_update e j hft
    have h2 := heldRefs_update ((s.held p).erase i) j hheld
    rw [cwdRefs_congr hproc]
    rw [if_neg (fun hc => by rw [ht] at hc; cases hc.2.1)] at h1
    by_cases hj : j = i
    · subst hj
      rw [if_pos (by rw [he]; exact ⟨href, rfl, rfl⟩)] at h1
      have := count_pos_iff.mpr hi
      rw [count_erase_self] at h2
      omega
    · rw [if_neg (fun hc => hj (by rw [he] at hc; exact hc.2.2.symm))] at h1
      rw [count_erase_of_ne hj] at h2
      omega
  · rcases (h.locked j q hq).2 with hm | hm
    · by_cases hqp : q = p
      · subst hqp
        by_cases hj : j = i
        · subst hj
          exact .inr ⟨fd, f, by rw [hproc]; exact hfd, by rw [hftf, he], by rw [hftf, he]⟩
        · rw [hheld, update_self]
          exact .inl ((mem_erase_of_ne hj).mpr hm)
      · rw [hheld, update_of_ne hqp]
        exact .inl hm
    · obtain ⟨fd', g, hg, hty, hip⟩ := hm
      have hgf : g ≠ f := by
        rintro rfl
        rw [ht] at hty
        cases hty
      exact .inr ⟨fd', g, by rw [hproc]; exact hg, by rw [hftg g hgf]; exact hty, by rw [hftg g hgf]; exact hip⟩
  · rw [slotRefs_congr hproc]
    by_cases hgf : g = f
    · subst hgf
      rw [hftf, he]
      exact h.files g
    · rw [hftg g hgf]
      exact h.files g
  · by_cases hgf : g = f
    · subst hgf
      rw [hftf, he] at hg
      exact absurd hg href
    · rw [hftg g hgf] at hg ⊢
      exact h.unused g hg
  · by_cases hgf : g = f
    · subst hgf
      rw [hftf, he] at hg
      cases hg
    · rw [hftg g hgf] at hg ⊢
      exact h.opening g hg
  · by_cases hgf : g = f
    · subst hgf
      rw [hftf, he] at hwr ⊢
      exact hw hc hwr
    · rw [hftg g hgf] at hty hwr ⊢
      exact h.writable hc g hty hwr
  · by_cases hji : j = i
    · rw [hji, hs.typeOf]
      exact .inr ha
    · rcases hj with ⟨g, hgr, hgt, hgi⟩ | ⟨q, hq⟩
      · have hgf : g ≠ f := by
          rintro rfl
          rw [hftf, he] at hgi
          exact hji hgi.symm
        rw [hftg g hgf] at hgr hgt hgi
        exact .inl (.inl ⟨g, hgr, hgt, hgi⟩)
      · rw [hproc] at hq
        exact .inl (.inr ⟨q, hq⟩)

/-! ### Sharing -/

theorem Shared.inv (h : InvIf c sb s) (hs : Shared q fd f s t) (hnone : (s.proc q).ofile fd = none)
    (href : (s.ftable f).ref ≠ 0) (hty : (s.ftable f).type = .inode) : InvIf c sb t := by
  refine h.sameCore hs.core (fun j => ?_) (fun j r hr => ?_) (fun g => ?_) (fun g hg => ?_) (fun g hg => ?_)
    (fun hc g ht hw => ?_)
  · have h1 : t.fileRefs j = s.fileRefs j := by
      refine fileRefs_setFile hs.ftable ?_
      simp [href]
    rw [h1, cwdRefs_same hs.proc rfl, heldRefs_congr hs.held]
  · rw [hs.held]
    refine (h.locked j r hr).2.imp id ?_
    rintro ⟨fd', g, hg, ht, hi⟩
    have hsm := hs.same g
    refine ⟨fd', g, ?_, by rw [hsm.type]; exact ht, by rw [hsm.ip]; exact hi⟩
    rw [hs.proc]
    by_cases hrq : r = q
    · subst hrq
      rw [update_self]
      change Function.update _ _ _ _ = _
      rw [update_of_ne (by rintro rfl; rw [hnone] at hg; cases hg)]
      exact hg
    · rw [update_of_ne hrq]
      exact hg
  · have h1 := slotRefs_update _ g hs.proc
    have h2 := fds_update (s.proc q) fd (some f) g
    have h3 := h.files g
    dsimp only at h1
    simp only [hnone, reduceCtorEq, if_false, Nat.add_zero, some.injEq] at h2
    rw [hs.ref]
    omega
  · rw [hs.ref] at hg
    rw [(hs.same g).type]
    exact h.unused g (by omega)
  · rw [(hs.same g).type] at hg
    rw [hs.ref, if_neg (by rintro rfl; rw [hty] at hg; cases hg)]
    exact h.opening g hg
  · rw [(hs.same g).type] at ht
    rw [(hs.same g).writable] at hw
    rw [(hs.same g).ip]
    exact h.writable hc g ht hw

theorem Shared.target (h : InvIf c sb s) (hs : Shared q fd f s t) (ht : t.Target i) : s.Target i :=
  h.target (fun g _ hty => ⟨by rw [← (hs.same g).type]; exact hty, (hs.same g).ip.symm⟩) hs.dir ht

theorem fdup_step (h : InvIf c sb s) {fd₀ : Fin NOFILE} (hfd : (s.proc p).ofile fd₀ = some f)
    (hty : (s.ftable f).type = .inode) {r : Option (Fin NOFILE)} (hr : s.fdup p f = .ok (r, t)) :
    InvIf c sb t ∧ Guar p s t ∧ t.held = s.held ∧ t.icache = s.icache ∧ (t.proc p).dir = (s.proc p).dir ∧
      (AllOpen p s → AllOpen p t) := by
  rcases fdup_inv hr with ⟨-, rfl⟩ | ⟨fd, -, hnone, hs⟩
  · exact ⟨h, (SameCore.refl t).guar h (fun _ _ => rfl) (fun _ _ => rfl) (fun _ _ _ _ _ => .refl _) fun _ => .inl, rfl,
      rfl,
      rfl, id⟩
  · refine ⟨hs.inv h hnone (h.file_ref_ne_zero hfd) hty, hs.core.guar h (fun _ _ => by rw [hs.held])
      (fun q hq => by rw [hs.proc, update_of_ne hq]) (fun _ _ _ g _ => hs.same g) (fun _ ht => .inl (hs.target h ht)),
      hs.held, hs.core.icache,
      hs.dir p, fun ho fd' g hg => ?_⟩
    rw [(hs.same g).type]
    rw [hs.proc, update_self] at hg
    change Function.update _ _ _ _ = _ at hg
    by_cases hf : fd' = fd
    · subst hf
      rw [update_self] at hg
      cases hg
      exact hty
    · rw [update_of_ne hf] at hg
      exact ho fd' g hg

/-! ### Closing -/

namespace Closed

variable {l : List (Fin NINODE)}

section

variable (hs : Closed p fd f e l s t)
include hs

theorem slotRefs (hfd : (s.proc p).ofile fd = some f) (g : Fin NFILE) :
    t.slotRefs g + (if f = g then 1 else 0) = s.slotRefs g := by
  have h1 := slotRefs_update _ g hs.proc
  have h2 := fds_update (s.proc p) fd none g
  dsimp only at h1
  simp only [hfd, some.injEq, reduceCtorEq, if_false, Nat.add_zero] at h2
  omega

theorem target (h : InvIf c sb s)
    (he : e.ref ≠ 0 → e.type = (s.ftable f).type ∧ e.ip = (s.ftable f).ip) (ht : t.Target i) : s.Target i := by
  refine h.target (fun g hr hty => ?_) (fun q => ?_) ht
  · by_cases hg : g = f
    · subst hg
      rw [hs.ftable_self] at hr hty ⊢
      exact ⟨(he hr).1 ▸ hty, (he hr).2.symm⟩
    · rw [hs.ftable_ne hg] at hty ⊢
      exact ⟨hty, rfl⟩
  · by_cases hq : q = p
    · rw [hq, hs.dir]
    · rw [hs.proc_ne hq]

theorem same (h : InvIf c sb s) (hfd : (s.proc p).ofile fd = some f)
    (he : 1 < (s.ftable f).ref → (s.ftable f).Same e) (hq : q ≠ p) (fd' : Fin NOFILE) (g : Fin NFILE)
    (hg : (s.proc q).ofile fd' = some g) : (s.ftable g).Same (t.ftable g) := by
  by_cases hgf : g = f
  · subst hgf
    rw [hs.ftable_self]
    refine he ?_
    by_contra h1
    exact h.not_shared hfd (by omega) hq fd' hg
  · rw [hs.ftable_ne hgf]
    exact .refl _

end

theorem inv_shared (h : InvIf c sb s)
    (hs : Closed p fd f { s.ftable f with ref := (s.ftable f).ref - 1 } (s.held p) s t)
    (hfd : (s.proc p).ofile fd = some f) (h1 : 1 < (s.ftable f).ref) (hl : ∀ i, (s.icache i).lock ≠ some p) :
    InvIf c sb t := by
  have hsame : ∀ g, (s.ftable g).Same (t.ftable g) := fun g => by
    by_cases hg : g = f
    · subst hg
      rw [hs.ftable_self]
      exact ⟨rfl, rfl, rfl, rfl⟩
    · rw [hs.ftable_ne hg]
      exact .refl _
  have href : ∀ g, (t.ftable g).ref + (if f = g then 1 else 0) = (s.ftable g).ref := fun g => by
    by_cases hg : g = f
    · subst hg
      rw [hs.ftable_self]
      simp only [if_true]
      omega
    · rw [hs.ftable_ne hg, if_neg (Ne.symm hg)]
      rfl
  refine h.sameCore hs.core (fun j => ?_) (fun j q hq => ?_) (fun g => ?_) (fun g hg => ?_) (fun g hg => ?_)
    (fun hc g ht hw => ?_)
  · have h2 : t.fileRefs j = s.fileRefs j := by
      refine fileRefs_setFile hs.ftable ?_
      simp only [ne_eq]
      rw [show ¬(s.ftable f).ref - 1 = 0 ↔ ¬(s.ftable f).ref = 0 by omega]
    have h4 := heldRefs_update _ j hs.held
    rw [cwdRefs_same hs.proc rfl]
    omega
  · have hqp : q ≠ p := by
      rintro rfl
      exact hl j hq
    rw [hs.held, update_of_ne hqp]
    exact (h.locked j q hq).2.imp id (fileRef_of_same (hs.proc_ne hqp) fun _ g _ => hsame g)
  · have h2 := hs.slotRefs hfd g
    have h3 := href g
    have h4 := h.files g
    omega
  · rw [(hsame g).type]
    refine h.unused g ?_
    have h3 := href g
    by_cases hg' : f = g
    · subst hg'
      rw [if_pos rfl] at h3
      omega
    · rw [if_neg hg'] at h3
      omega
  · rw [(hsame g).type] at hg
    have := h.opening g hg
    have := href g
    omega
  · rw [(hsame g).type] at ht
    rw [(hsame g).writable] at hw
    rw [(hsame g).ip]
    exact h.writable hc g ht hw

theorem inv_last (h : InvIf c sb s) {l : List (Fin NINODE)}
    (hs : Closed p fd f { s.ftable f with ref := 0, type := .none } l s t)
    (hfd : (s.proc p).ofile fd = some f) (h1 : (s.ftable f).ref = 1) (hl : ∀ i, (s.icache i).lock ≠ some p)
    (hcount : ∀ j, l.count j = (s.held p).count j +
      if (s.ftable f).type = .inode ∧ (s.ftable f).ip = j then 1 else 0) : InvIf c sb t := by
  refine h.sameCore hs.core (fun j => ?_) (fun j q hq => ?_) (fun g => ?_) (fun g hg => ?_) (fun g hg => ?_)
    (fun hc g ht hw => ?_)
  · have h2 := fileRefs_update _ j hs.ftable
    have h3 : t.cwdRefs = s.cwdRefs := cwdRefs_same hs.proc rfl
    have h4 := heldRefs_update _ j hs.held
    have h5 := hcount j
    rw [h3]
    simp only [ne_eq, not_true_eq_false, false_and, if_false, Nat.add_zero] at h2
    by_cases hc : (s.ftable f).type = .inode ∧ (s.ftable f).ip = j
    · rw [if_pos hc] at h5
      rw [if_pos ⟨by omega, hc⟩] at h2
      omega
    · rw [if_neg hc] at h5
      rw [if_neg fun hc' => hc hc'.2] at h2
      omega
  · have hqp : q ≠ p := by
      rintro rfl
      exact hl j hq
    rw [hs.held, update_of_ne hqp]
    refine (h.locked j q hq).2.imp id (fileRef_of_same (hs.proc_ne hqp) ?_)
    exact hs.same h hfd (fun h2 => by omega) hqp
  · have h2 := hs.slotRefs hfd g
    have h4 := h.files g
    by_cases hg : g = f
    · subst hg
      rw [hs.ftable_self]
      simp only [if_true] at h2
      change 0 = _
      omega
    · rw [hs.ftable_ne hg]
      rw [if_neg (Ne.symm hg)] at h2
      omega
  · by_cases hgf : g = f
    · subst hgf
      rw [hs.ftable_self]
    · rw [hs.ftable_ne hgf] at hg ⊢
      exact h.unused g hg
  · by_cases hgf : g = f
    · subst hgf
      rw [hs.ftable_self]
      exact Nat.zero_le _
    · rw [hs.ftable_ne hgf] at hg ⊢
      exact h.opening g hg
  · by_cases hgf : g = f
    · subst hgf
      rw [hs.ftable_self] at ht
      cases ht
    · rw [hs.ftable_ne hgf] at ht hw ⊢
      exact h.writable hc g ht hw

theorem allOpen (hs : Closed p fd f e l s t) (h : InvIf c sb s) (hfd : (s.proc p).ofile fd = some f)
    (he : e.type = (s.ftable f).type ∨ (s.ftable f).ref = 1) (ho : AllOpen p s) : AllOpen p t := by
  intro fd' g hg
  have hfd' : fd' ≠ fd := by
    rintro rfl
    rw [hs.ofile_none] at hg
    cases hg
  rw [hs.ofile_ne hfd'] at hg
  by_cases hgf : g = f
  · subst hgf
    rw [hs.ftable_self]
    rcases he with he | h1
    · rw [he]
      exact ho fd' g hg
    · -- two descriptors of `p` would make two references
      exfalso
      have h2 := fds_le_slotRefs t p g
      have h3 : 0 < fds (t.proc p) g := fds_pos (by rw [hs.ofile_ne hfd']; exact hg)
      have h4 := hs.slotRefs hfd g
      have h5 := h.files g
      simp only [if_true] at h4
      omega
  · rw [hs.ftable_ne hgf]
    exact ho fd' g hg

end Closed

theorem fclose_step (h : InvIf c sb s) (hfd : (s.proc p).ofile fd = some f) (hl : ∀ i, (s.icache i).lock ≠ some p)
    (ho : AllOpen p s) {r : Option (Fin NINODE)} (hr : s.fclose p fd f = .ok (r, t)) :
    InvIf c sb t ∧ Guar p s t ∧ t.held p = r.toList ++ s.held p ∧ t.icache = s.icache ∧
      (t.proc p).dir = (s.proc p).dir ∧ AllOpen p t ∧ t.disk = s.disk := by
  have hlast {l : List (Fin NINODE)} (hs : Closed p fd f { s.ftable f with ref := 0, type := .none } l s t)
      (h1 : (s.ftable f).ref = 1) (hc : ∀ j, l.count j = (s.held p).count j +
        if (s.ftable f).type = .inode ∧ (s.ftable f).ip = j then 1 else 0) :
      InvIf c sb t ∧ Guar p s t ∧ t.held p = l ∧ t.icache = s.icache ∧ (t.proc p).dir = (s.proc p).dir ∧
        AllOpen p t ∧ t.disk = s.disk :=
    ⟨hs.inv_last h hfd h1 hl hc, hs.core.guar h (fun q hq => by rw [hs.held, update_of_ne hq])
      (fun q hq => hs.proc_ne hq) (fun q hq => hs.same h hfd (fun h2 => by omega) hq)
      (fun j ht => .inl (hs.target h (fun h0 => absurd rfl h0) ht)),
      by rw [hs.held, update_self], hs.core.icache, hs.dir, hs.allOpen h hfd (.inr h1) ho, hs.core.disk⟩
  obtain ⟨-, ⟨rfl, h1, hs⟩ | ⟨h1, ⟨rfl, hty, hs⟩ | ⟨rfl, hty, hs⟩⟩⟩ := fclose_inv hr
  · refine ⟨hs.inv_shared h hfd h1 hl, hs.core.guar h (fun q hq => by rw [hs.held, update_of_ne hq])
      (fun q hq => hs.proc_ne hq) (fun q hq => hs.same h hfd (fun _ => ⟨rfl, rfl, rfl, rfl⟩) hq)
      (fun j ht => .inl (hs.target h (fun _ => ⟨rfl, rfl⟩) ht)),
      by rw [hs.held, update_self]; rfl, hs.core.icache, hs.dir, hs.allOpen h hfd (.inl rfl) ho, hs.core.disk⟩
  · refine hlast hs h1 fun j => ?_
    by_cases hj : (s.ftable f).ip = j
    · subst hj
      simp [hty]
    · rw [if_neg fun hc => hj hc.2]
      exact count_cons_of_ne hj
  · refine hlast hs h1 fun j => ?_
    rw [if_neg fun hc => hty hc.1]
    rfl

/-! ### Offsets and current directories -/

theorem dir_step {e : ProcFs} {l : List (Fin NINODE)} (h : InvIf c sb s) (hof : e.ofile = (s.proc p).ofile)
    (hcount : (l : Multiset (Fin NINODE)) + e.dir.toList = (s.held p : Multiset (Fin NINODE)) + (s.proc p).dir.toList)
    (ha : ∀ i, e.dir = some i → s.typeOf i ≠ .free) (hl : ∀ i, (s.icache i).lock ≠ some p)
    (hdef : t = (s.setProc p e).setHeld p l) :
    InvIf c sb t ∧ Guar p s t ∧ SameCore s t ∧ (t.held p : Multiset (Fin NINODE)) = l ∧ t.proc p = e ∧
      t.ftable = s.ftable := by
  have hheld : t.held = Function.update s.held p l := by rw [hdef]; rfl
  have hproc : t.proc = Function.update s.proc p e := by rw [hdef]; rfl
  have hft : t.ftable = s.ftable := by rw [hdef]; rfl
  have hs : SameCore s t := by rw [hdef]; exact ⟨rfl, rfl, rfl, rfl⟩
  have hofile : ∀ q, (t.proc q).ofile = (s.proc q).ofile := fun q => by
    rw [hproc]
    by_cases hq : q = p
    · subst hq
      rw [update_self, hof]
    · rw [update_of_ne hq]
  refine ⟨h.sameCore hs (fun j => ?_) (fun j q hq => ?_) (fun g => ?_) (by rw [hft]; exact h.unused)
    (by rw [hft]; exact h.opening) (by rw [hft]; exact h.writable), hs.guar h
    (fun q hq => by rw [hheld, update_of_ne hq]) (fun q hq => by rw [hproc, update_of_ne hq])
    (fun _ _ _ _ _ => by rw [hft]; exact .refl _) (fun j hj => ?_), hs, by rw [hheld, update_self],
    by rw [hproc, update_self], hft⟩
  · have h2 := cwdRefs_update _ j hproc
    have h3 := heldRefs_update _ j hheld
    have h4 := congrArg (Multiset.count j) hcount
    have hopt : ∀ o : Option (Fin NINODE), o.toList.count j = if o = some j then 1 else 0 := by
      rintro (_ | i)
      · rfl
      · by_cases hij : i = j
        · simp [hij]
        · simp [hij]
    simp only [Multiset.count_add, Multiset.coe_count, hopt] at h4
    rw [fileRefs_congr hft]
    omega
  · have hqp : q ≠ p := by
      rintro rfl
      exact hl j hq
    rw [hheld, update_of_ne hqp]
    unfold FileRef
    rw [hofile, hft]
    exact (h.locked j q hq).2
  · have h2 : t.slotRefs g = s.slotRefs g := by
      unfold slotRefs fds
      simp only [hofile]
    rw [hft, h2]
    exact h.files g
  · rcases hj with ⟨g, hg⟩ | ⟨q, hq⟩
    · rw [hft] at hg
      exact .inl (.inl ⟨g, hg⟩)
    · rw [hproc] at hq
      by_cases hqp : q = p
      · subst hqp
        rw [update_self] at hq
        rw [hs.typeOf]
        exact .inr (ha j hq)
      · rw [update_of_ne hqp] at hq
        exact .inl (.inr ⟨q, hq⟩)

/-! ### Fork -/

theorem forkFiles_ok {L : List (Fin NOFILE)} (h : InvIf c sb s) (hL : L.Nodup) (hpq : p ≠ q)
    (hnone : ∀ fd ∈ L, (s.proc q).ofile fd = none) (hp : AllOpen p s) (hq : AllOpen q s)
    (hr : L.foldlM (forkFile p q) s = .ok t) : InvIf c sb t ∧ Forked q s t ∧ AllOpen q t := by
  induction L generalizing s with
  | nil =>
    cases hr
    exact ⟨h, .refl _, hq⟩
  | cons fd L ih =>
    obtain ⟨hfd, hL⟩ := nodup_cons.mp hL
    rw [foldlM_cons] at hr
    obtain ⟨u, hu, hr⟩ := Except.bind_eq_ok.mp hr
    rcases forkFile_inv hu with ⟨-, hus⟩ | ⟨f, hf, href, hs⟩
    · rw [hus] at hr
      exact ih h hL (fun fd' hfd' => hnone fd' (mem_cons_of_mem _ hfd')) hp hq hr
    have hty := hp fd f hf
    have hofile : ∀ fd', (u.proc q).ofile fd' = if fd' = fd then some f else (s.proc q).ofile fd' := fun fd' => by
      rw [hs.proc, update_self]
      exact update_apply ..
    have hp' : AllOpen p u := fun fd' g hg => by
      rw [hs.proc, update_of_ne hpq] at hg
      rw [(hs.same g).type]
      exact hp fd' g hg
    have hq' : AllOpen q u := fun fd' g hg => by
      rw [(hs.same g).type]
      rw [hofile] at hg
      split at hg
      · cases hg
        exact hty
      · exact hq fd' g hg
    obtain ⟨h1, h2, h3⟩ := ih (hs.inv h (hnone fd mem_cons_self) href hty) hL (fun fd' hfd' => by
      rw [hofile, if_neg (by rintro rfl; exact hfd hfd')]
      exact hnone fd' (mem_cons_of_mem _ hfd')) hp' hq' hr
    exact ⟨h1, hs.forked.trans h2, h3⟩

theorem forkCwd_inv (h : InvIf c sb s) (hpos : 0 < (s.icache i).ref) (hq : (s.proc q).dir = none)
    (ht : t = (s.setInode i { s.icache i with ref := (s.icache i).ref + 1 }).setProc q
      { s.proc q with cwd := some i, put := false }) : InvIf c sb t := by
  have hic : ∀ j, t.icache j = { s.icache j with ref := (s.icache j).ref + if j = i then 1 else 0 } := fun j => by
    rw [ht]
    by_cases hj : j = i
    · subst hj
      simp [setInode, setProc]
    · simp [setInode, setProc, hj]
  have hproc : t.proc = Function.update s.proc q { s.proc q with cwd := some i, put := false } := by rw [ht]; rfl
  have hofile : ∀ r, (t.proc r).ofile = (s.proc r).ofile := fun r => by
    rw [hproc]
    by_cases hr : r = q
    · subst hr
      rw [update_self]
    · rw [update_of_ne hr]
  have hft : t.ftable = s.ftable := by rw [ht]; rfl
  have hheld : t.held = s.held := by rw [ht]; rfl
  have hdisk : t.disk = s.disk := by rw [ht]; rfl
  have hborn : t.born = s.born := by rw [ht]; rfl
  have hpos' : ∀ j, 0 < (t.icache j).ref → 0 < (s.icache j).ref := fun j hj => by
    rw [hic] at hj
    by_cases hji : j = i
    · rw [hji]
      exact hpos
    · simpa [hji] using hj
  have htypeOf : ∀ j, t.typeOf j = s.typeOf j := fun j => by
    unfold typeOf
    rw [hdisk, hic]
  refine ⟨by rw [hdisk]; exact h.disk, fun a b ha hb hab => ?_, fun a ha => ?_, fun a ha hv => ?_, fun a => ?_,
    fun a r hr => ?_, fun g => ?_, by rw [hft]; exact h.unused, by rw [hft]; exact h.opening, fun hc g hty hw => ?_, ?_,
    ?_⟩
  · rw [hic, hic] at hab
    exact h.uniq a b (hpos' a ha) (hpos' b hb) hab
  · have := h.inum_lt a (hpos' a ha)
    rwa [hic]
  · have hpa := hpos' a ha
    rw [htypeOf, hdisk]
    rw [hic] at hv ⊢
    exact h.copy a hpa hv
  · have h2 := cwdRefs_update _ a hproc
    have h3 := h.refs a
    rw [hq, dir_eq_cwd rfl] at h2
    rw [hic, fileRefs_congr hft, heldRefs_congr hheld]
    simp only [reduceCtorEq, if_false, Nat.add_zero, some.injEq] at h2
    simp only [eq_comm (a := a)]
    omega
  · rw [hic] at hr
    have := h.locked a r hr
    unfold FileRef at this ⊢
    rw [hic, hheld, hofile, hft]
    exact this
  · have h2 : t.slotRefs g = s.slotRefs g := by
      unfold slotRefs fds
      simp only [hofile]
    rw [hft, h2]
    exact h.files g
  · rw [hft] at hty hw ⊢
    rw [htypeOf]
    exact h.writable hc g hty hw
  · rw [hdisk, hborn]
    exact h.order
  · rw [hborn, show t.clock = s.clock by rw [ht]; rfl]
    exact h.born_lt

theorem fork_step (h : InvIf c sb s) (hp : AllOpen p s) (hlive : live p s = true) {b : Bool}
    (hr : s.fork p q = .ok (b, t)) :
    InvIf c sb t ∧ Guar p s t ∧ t.held = s.held ∧ (∀ i, (t.icache i).lock = (s.icache i).lock) ∧ t.proc p = s.proc p ∧
      AllOpen p t := by
  unfold fork at hr
  split at hr
  case isFalse =>
    cases hr
    exact ⟨h, (SameCore.refl s).guar h (fun _ _ => rfl) (fun _ _ => rfl) (fun _ _ _ _ _ => .refl _) fun _ => .inl, rfl,
      fun _ => rfl, rfl, hp⟩
  rename_i hun
  obtain ⟨hcwd, -, hof⟩ := unused_iff.mp hun
  have hpq : p ≠ q := by
    rintro rfl
    simp [live, ProcFs.dir, hcwd] at hlive
  obtain ⟨u, hu, hr⟩ := Except.bind_eq_ok.mp hr
  obtain ⟨hi, hf, ho⟩ := forkFiles_ok h (nodup_finRange _) hpq (fun fd _ => hof fd) hp
    (fun fd f hfd => by rw [hof] at hfd; cases hfd) hu
  obtain ⟨i, hi'⟩ := isSome_iff_exists.mp hlive
  have hpi : (u.proc p).dir = some i := by rw [hf.proc p hpq]; exact hi'
  simp only [(dir_eq_some.mp hpi).1] at hr
  cases hr
  obtain ⟨t, ht⟩ : ∃ t, t = (u.setInode i { u.icache i with ref := (u.icache i).ref + 1 }).setProc q
    { u.proc q with cwd := some i, put := false } := ⟨_, rfl⟩
  rw [← ht]
  have hlock : ∀ j, (t.icache j).lock = (s.icache j).lock ∧ (t.icache j).inum = (s.icache j).inum := fun j => by
    rw [ht, ← hf.core.icache]
    by_cases hj : j = i
    · subst hj
      simp [setInode, setProc]
    · simp [setInode, setProc, hj]
  have hproc : ∀ r ≠ q, t.proc r = s.proc r := fun r hr => by
    rw [ht, ← hf.proc r hr]
    exact update_of_ne hr _ _
  have hdisk : t.disk = s.disk := by rw [ht, ← hf.core.disk]; rfl
  have hsame : ∀ g, (s.ftable g).Same (t.ftable g) := fun g => by rw [ht]; exact hf.same g
  have hheld : t.held = s.held := by rw [ht, ← hf.held]; rfl
  have hquiet : Quiet s t := ⟨fun j _ => (hlock j).2, fun x => by rw [hdisk], by rw [ht, ← hf.core.born]; rfl,
    by rw [ht, ← hf.core.clock]; rfl, fun _ _ g _ => hsame g⟩
  have htarget : ∀ j, t.Target j → s.Target j := by
    rintro j (⟨g, hgr, hgt, hgi⟩ | ⟨r, hr⟩)
    · refine h.target (t := u) (fun g _ hty => ⟨by rw [← (hf.same g).type]; exact hty, (hf.same g).ip.symm⟩)
        (fun r => ?_)
        (.inl ⟨g, by rw [ht] at hgr; exact hgr, by rw [ht] at hgt; exact hgt, by rw [ht] at hgi; exact hgi⟩)
      by_cases hrq : r = q
      · rw [hrq, hf.dir]
      · rw [hf.proc r hrq]
    · by_cases hrq : r = q
      · -- the child is in the directory of its parent
        rw [hrq, ht] at hr
        simp only [setProc, update_self, dir_eq_some, some.injEq, and_true] at hr
        exact .inr ⟨p, hr ▸ hi'⟩
      · rw [hproc r hrq] at hr
        exact .inr ⟨r, hr⟩
  refine ⟨forkCwd_inv hi (hi.ref_pos_of_cwd hpi) (by rw [hf.dir]; simp [ProcFs.dir, hcwd]) ht,
    hquiet.guar h (fun r hr => ?_)
    (h.spares hdisk (fun j _ => (hlock j).2) fun j => .inl ∘ htarget j), hheld, fun j => (hlock j).1, hproc p hpq,
    fun fd g hg => ?_⟩
  · refine ⟨by rw [hheld], fun j => by rw [(hlock j).1], ?_⟩
    by_cases hrq : r = q
    · subst hrq
      refine .inr ⟨hun, fun fd g hg => ?_, by rw [ht]; simp [setProc]⟩
      have : (t.proc r).ofile = (u.proc r).ofile := by
        rw [ht]
        simp [setProc]
      rw [this] at hg
      rw [ht]
      exact ho fd g hg
    · exact .inl (hproc r hrq)
  · rw [(hsame g).type]
    rw [hproc p hpq] at hg
    exact hp fd g hg

end Xv6.Fs
