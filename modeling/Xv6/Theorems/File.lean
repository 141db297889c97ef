import Mathlib.Algebra.BigOperators.Group.Finset.Piecewise
import Mathlib.Data.Fintype.Prod
import Xv6.File
import Xv6.Lib.Count

/-! Open files are counted by the descriptors that refer to them, and the ends of a pipe are open as long as some
    descriptor refers to them. -/

namespace Xv6
open Function Except List Finset

def PipeEnds.isOpen (x : PipeEnds) (writable : Bool) : Bool := if writable then x.writeopen else x.readopen

theorem PipeEnds.shut_isOpen {x : PipeEnds} {w w' : Bool} :
    (x.shut w).isOpen w' = if w' = w then false else x.isOpen w' := by
  cases w <;> cases w' <;> rfl

def PipeEnds.close (x : PipeEnds) (w : Bool) : PipeEnds :=
  if (x.shut w).readopen = false ∧ (x.shut w).writeopen = false then { x.shut w with kfreed := (x.shut w).kfreed + 1 }
  else x.shut w

theorem PipeEnds.close_isOpen {x : PipeEnds} {w w' : Bool} :
    (x.close w).isOpen w' = if w' = w then false else x.isOpen w' := by
  rw [← shut_isOpen]
  unfold close
  split <;> rfl

theorem PipeEnds.close_kfreed {x : PipeEnds} {w : Bool} (hw : x.isOpen w = true)
    (hx : x.kfreed = if x.readopen = false ∧ x.writeopen = false then 1 else 0) :
    (x.close w).kfreed = if (x.close w).readopen = false ∧ (x.close w).writeopen = false then 1 else 0 := by
  obtain ⟨r, o, n⟩ := x
  cases w <;> cases r <;> cases o <;> simp_all [close, shut, isOpen]

namespace Files

variable {P : Type} {s t : Files P} {p q np : P} {f g : Fin NFILE} {fd : Fin NOFILE}
  {d : Fin NFILE → ℤ} {x : Option P} {e : OpenFile}

def IsEnd (s : Files P) (f : Fin NFILE) (k : Nat) (w : Bool) : Prop :=
  (s.ftable f).type = .pipe ∧ (s.ftable f).pipe = k ∧ (s.ftable f).writable = w

structure Pipes (s : Files P) : Prop where
  lt : ∀ {f k w}, s.IsEnd f k w → k < s.npipe
  uniq : ∀ {f g k w}, s.IsEnd f k w → s.IsEnd g k w → f = g
  flag : ∀ k < s.npipe, ∀ w, (s.pipe k).isOpen w = true ↔ ∃ f, s.IsEnd f k w
  freed : ∀ k < s.npipe, (s.pipe k).kfreed = if (s.pipe k).readopen = false ∧ (s.pipe k).writeopen = false then 1 else 0

theorem Pipes.congr (h : Pipes s) (he : ∀ f k w, t.IsEnd f k w ↔ s.IsEnd f k w) (hp : t.pipe = s.pipe)
    (hn : t.npipe = s.npipe) : Pipes t where
  lt hf := hn ▸ h.lt ((he _ _ _).mp hf)
  uniq hf hg := h.uniq ((he _ _ _).mp hf) ((he _ _ _).mp hg)
  flag k hk w := by
    simp only [hp, he]
    exact h.flag k (hn ▸ hk) w
  freed k hk := by
    rw [hp]
    exact h.freed k (hn ▸ hk)

theorem isEnd_setFile {k : Nat} {w : Bool} : (s.setFile f e).IsEnd g k w ↔
    if g = f then e.type = .pipe ∧ e.pipe = k ∧ e.writable = w else s.IsEnd g k w := by
  unfold IsEnd setFile
  by_cases hg : g = f
  · subst hg
    simp
  · simp [hg]

theorem Pipes.setFile (h : Pipes s) (hf : (s.ftable f).type ≠ .pipe) (he : e.type ≠ .pipe) : Pipes (s.setFile f e) := by
  refine h.congr (fun g k w => ?_) rfl rfl
  rw [isEnd_setFile]
  split
  · next hg =>
    subst hg
    exact iff_of_false (fun h' => he h'.1) fun h' => hf h'.1
  · rfl

theorem Pipes.setRef (h : Pipes s) (n : Nat) : Pipes (s.setFile f { s.ftable f with ref := n }) := by
  refine h.congr (fun g k w => ?_) rfl rfl
  rw [isEnd_setFile]
  split
  · next hg =>
    subst hg
    rfl
  · rfl

theorem Pipes.pipeclose {k : Nat} {w : Bool} (h : Pipes s) (hf : s.IsEnd f k w) (he : e.type ≠ .pipe) :
    Pipes ((s.setFile f e).pipeclose k w) := by
  have hend : ∀ g k' w', ((s.setFile f e).pipeclose k w).IsEnd g k' w' ↔ g ≠ f ∧ s.IsEnd g k' w' := fun g k' w' => by
    change (s.setFile f e).IsEnd g k' w' ↔ _
    rw [isEnd_setFile]
    split
    · next hg => exact iff_of_false (fun h' => he h'.1) fun h' => h'.1 hg
    · next hg => exact ⟨fun h' => ⟨hg, h'⟩, fun h' => h'.2⟩
  have hpipe : ∀ k', ((s.setFile f e).pipeclose k w).pipe k' = if k' = k then (s.pipe k).close w else s.pipe k' :=
    fun k' => update_apply _ _ _ _
  have hopen : (s.pipe k).isOpen w = true := (h.flag k (h.lt hf) w).mpr ⟨f, hf⟩
  refine ⟨fun hg => h.lt ((hend _ _ _).mp hg).2, fun hg hg' => h.uniq ((hend _ _ _).mp hg).2 ((hend _ _ _).mp hg').2,
    fun k' hk' w' => ?_, fun k' hk' => ?_⟩
  · simp only [hpipe, hend]
    split
    · next hk =>
      subst hk
      rw [PipeEnds.close_isOpen]
      split
      · next hw =>
        subst hw
        refine iff_of_false Bool.false_ne_true ?_
        rintro ⟨g, hg, hg'⟩
        exact hg (h.uniq hg' hf)
      · next hw =>
        rw [h.flag k' hk' w']
        refine ⟨fun ⟨g, hg⟩ => ⟨g, ?_, hg⟩, fun ⟨g, _, hg⟩ => ⟨g, hg⟩⟩
        rintro rfl
        exact hw (hg.2.2.symm.trans hf.2.2)
    · next hk =>
      rw [h.flag k' hk' w']
      refine ⟨fun ⟨g, hg⟩ => ⟨g, ?_, hg⟩, fun ⟨g, _, hg⟩ => ⟨g, hg⟩⟩
      rintro rfl
      exact hk (hg.2.1.symm.trans hf.2.1)
  · rw [hpipe]
    split
    · exact PipeEnds.close_kfreed hopen (h.freed k (h.lt hf))
    · exact h.freed k' hk'

theorem Pipes.make (h : Pipes s) (hf : (s.ftable f).type ≠ .pipe) (hg : (s.ftable g).type ≠ .pipe) (hfg : f ≠ g)
    {e e' : OpenFile} (he : e.type = .pipe ∧ e.pipe = s.npipe ∧ e.writable = false)
    (he' : e'.type = .pipe ∧ e'.pipe = s.npipe ∧ e'.writable = true) : Pipes { (s.setFile f e).setFile g e' with
      pipe := update s.pipe s.npipe {}, npipe := s.npipe + 1 } := by
  obtain ⟨t, ht⟩ : ∃ t, t = { (s.setFile f e).setFile g e' with
    pipe := update s.pipe s.npipe {}, npipe := s.npipe + 1 } := ⟨_, rfl⟩
  rw [← ht]
  have hend : ∀ i k w, t.IsEnd i k w ↔
      k = s.npipe ∧ (i = f ∧ w = false ∨ i = g ∧ w = true) ∨ s.IsEnd i k w := fun i k w => by
    have h1 : t.IsEnd i k w ↔ ((s.setFile f e).setFile g e').IsEnd i k w := by rw [ht]; rfl
    rw [h1, isEnd_setFile, isEnd_setFile]
    split
    · next hi =>
      subst hi
      have hno : ¬s.IsEnd i k w := fun h' => hg h'.1
      simp only [he', hno, hfg.symm, true_and, false_and, false_or, or_false]
      exact ⟨fun ⟨h2, h3⟩ => ⟨h2.symm, h3.symm⟩, fun ⟨h2, h3⟩ => ⟨h2.symm, h3.symm⟩⟩
    · next hi =>
      split
      · next hi' =>
        subst hi'
        have hno : ¬s.IsEnd i k w := fun h' => hf h'.1
        simp only [he, hno, hi, true_and, false_and, or_false]
        exact ⟨fun ⟨h2, h3⟩ => ⟨h2.symm, h3.symm⟩, fun ⟨h2, h3⟩ => ⟨h2.symm, h3.symm⟩⟩
      · next hi' => simp [hi, hi']
  have hold : ∀ {i k w}, s.IsEnd i k w → k ≠ s.npipe := fun hi => (h.lt hi).ne
  have hpipe : ∀ k, t.pipe k = if k = s.npipe then {} else s.pipe k := fun k => by
    rw [ht]
    exact update_apply _ _ _ _
  have hn : t.npipe = s.npipe + 1 := by rw [ht]
  refine ⟨fun hi => ?_, fun hi hj => ?_, fun k hk w => ?_, fun k hk => ?_⟩
  · rw [hn]
    rcases (hend _ _ _).mp hi with ⟨rfl, -⟩ | hi
    · exact Nat.lt_succ_self _
    · exact (h.lt hi).trans (Nat.lt_succ_self _)
  · rcases (hend _ _ _).mp hi with ⟨hk, h1⟩ | hi <;> rcases (hend _ _ _).mp hj with ⟨hk', h2⟩ | hj
    · rcases h1 with ⟨rfl, rfl⟩ | ⟨rfl, rfl⟩ <;> rcases h2 with ⟨rfl, h2⟩ | ⟨rfl, h2⟩ <;> first | rfl | cases h2
    · exact absurd hk (hold hj)
    · exact absurd hk' (hold hi)
    · exact h.uniq hi hj
  · rw [hpipe]
    simp only [hend]
    split
    · next hkn =>
      refine iff_of_true (by cases w <;> rfl) ?_
      cases w
      · exact ⟨f, .inl ⟨hkn, .inl ⟨rfl, rfl⟩⟩⟩
      · exact ⟨g, .inl ⟨hkn, .inr ⟨rfl, rfl⟩⟩⟩
    · next hkn =>
      rw [h.flag k (by omega) w]
      simp only [hkn, false_and, false_or]
  · rw [hpipe]
    split
    · rfl
    · next hkn => exact h.freed k (by omega)

theorem unused_setFile (h : ∀ g, (s.ftable g).ref = 0 → (s.ftable g).type = .none) (he : e.ref = 0 → e.type = .none) :
    ∀ g, ((s.setFile f e).ftable g).ref = 0 → ((s.setFile f e).ftable g).type = .none := by
  intro g hg
  by_cases hgf : g = f
  · subst hgf
    simp only [Files.setFile, update_self] at hg ⊢
    exact he hg
  · simp only [Files.setFile, update_of_ne hgf] at hg ⊢
    exact h g hg

theorem argfd_spec {n : Int} (h : s.argfd p n = some (fd, f)) : (s.proc p).ofile fd = some f := by
  unfold argfd at h
  split_ifs at h
  rw [Option.map_eq_some_iff] at h
  obtain ⟨g, hg, he⟩ := h
  cases he
  exact hg

section

variable [Fintype P]

def slots (s : Files P) (f : Fin NFILE) : Nat :=
  ∑ y : P × Fin NOFILE, if (s.proc y.1).ofile y.2 = some f then 1 else 0

/-- File `f` is referred to by its descriptors, and by `d f` references more. -/
def Balanced (s : Files P) (d : Fin NFILE → ℤ) : Prop := ∀ f, ((s.ftable f).ref : ℤ) = s.slots f + d f

theorem slots_congr (h : ∀ p fd, (t.proc p).ofile fd = (s.proc p).ofile fd) : t.slots f = s.slots f := by
  simp only [slots, h]

theorem slots_pos (h : (s.proc p).ofile fd = some f) : 1 ≤ s.slots f := by
  have h1 : (if (s.proc p).ofile fd = some f then 1 else 0) ≤ s.slots f :=
    single_le_sum (f := fun y : P × Fin NOFILE => if (s.proc y.1).ofile y.2 = some f then 1 else 0)
      (fun _ _ => Nat.zero_le _) (mem_univ (p, fd))
  rwa [if_pos h] at h1

theorem Balanced.setFile {n : ℤ} (h : s.Balanced d) (he : (e.ref : ℤ) = (s.ftable f).ref + n) :
    (s.setFile f e).Balanced (d + Pi.single f n) := by
  intro g
  have h2 := h g
  change (((update s.ftable f e) g).ref : ℤ) = s.slots g + (d g + Pi.single (M := fun _ => ℤ) f n g)
  by_cases hg : g = f
  · subst hg
    simp only [update_self, Pi.single_eq_same]
    omega
  · simp only [update_of_ne hg, Pi.single_eq_of_ne hg]
    omega

theorem Balanced.setFile_same (h : s.Balanced d) (he : e.ref = (s.ftable f).ref) : (s.setFile f e).Balanced d := by
  have h1 := h.setFile (f := f) (n := 0) (e := e) (by simp [he])
  rwa [Pi.single_zero, add_zero] at h1

structure Inv (s : Files P) (x : Option P) : Prop where
  unused : ∀ f, (s.ftable f).ref = 0 → (s.ftable f).type = .none
  dead : ∀ p, (s.proc p).life ≠ .live → some p ≠ x → ∀ fd, (s.proc p).ofile fd = none
  pipes : Pipes s

theorem filealloc_spec (h : Inv s x) (hb : s.Balanced d) (hr : s.filealloc = some (f, t)) :
    (s.ftable f).ref = 0 ∧ t = s.setFile f { s.ftable f with ref := 1 } ∧ Inv t x ∧ t.Balanced (d + Pi.single f 1) := by
  unfold filealloc at hr
  split at hr
  · cases hr
  · next f' hf =>
    cases hr
    have h0 : (s.ftable f).ref = 0 := by simpa using List.find?_some hf
    exact ⟨h0, rfl, ⟨unused_setFile h.unused nofun, h.dead, h.pipes.setRef 1⟩, hb.setFile (by simp [h0])⟩

theorem filedup_spec (h : Inv s x) (hb : s.Balanced d) (hf : 1 ≤ (s.ftable f).ref) :
    ∃ t, s.filedup f = .ok t ∧ t.proc = s.proc ∧ Inv t x ∧ t.Balanced (d + Pi.single f 1) :=
  ⟨_, if_neg (by omega), rfl, ⟨unused_setFile h.unused nofun, h.dead, h.pipes.setRef _⟩, hb.setFile (by simp)⟩

theorem fileclose_spec (h : Inv s x) (hb : s.Balanced d) (hf : 1 ≤ (s.ftable f).ref) :
    ∃ t, s.fileclose f = .ok t ∧ t.proc = s.proc ∧ Inv t x ∧ t.Balanced (d + Pi.single f (-1)) := by
  unfold fileclose
  simp only
  rw [if_neg (by omega)]
  split
  · next hn =>
      exact ⟨_, rfl, rfl, ⟨unused_setFile h.unused fun h0 => by simp only at h0; omega, h.dead, h.pipes.setRef _⟩,
        hb.setFile (by simp; omega)⟩
  · next hn =>
    have hbal : (s.setFile f { s.ftable f with ref := 0, type := .none }).Balanced (d + Pi.single f (-1)) :=
      hb.setFile (by simp; omega)
    have hun := unused_setFile (f := f) (e := { s.ftable f with ref := 0, type := .none }) h.unused fun _ => rfl
    split
    · next ht => exact ⟨_, rfl, rfl, ⟨hun, h.dead, h.pipes.pipeclose ⟨ht, rfl, rfl⟩ nofun⟩, hbal⟩
    · next ht => exact ⟨_, rfl, rfl, ⟨hun, h.dead, h.pipes.setFile ht nofun⟩, hbal⟩

def Good (s : Files P) : Prop := Inv s none ∧ s.Balanced 0

theorem Balanced.ref_pos (h : s.Balanced d) (hd : 1 ≤ d f) : 1 ≤ (s.ftable f).ref := by
  have := h f
  omega

theorem Balanced.ref_pos_of_fd (h : s.Balanced 0) (hf : (s.proc p).ofile fd = some f) : 1 ≤ (s.ftable f).ref := by
  have h1 := h f
  have h2 := slots_pos hf
  simp only [Pi.zero_apply] at h1
  omega

theorem fileclose_held (h : Inv s x) (hb : s.Balanced (d + Pi.single f 1)) (hd : 0 ≤ d f) :
    ∃ t, s.fileclose f = .ok t ∧ t.proc = s.proc ∧ Inv t x ∧ t.Balanced d := by
  have href : 1 ≤ (s.ftable f).ref := hb.ref_pos (by simp only [Pi.add_apply, Pi.single_eq_same]; omega)
  obtain ⟨t, ht, hp, hi, hb'⟩ := fileclose_spec h hb href
  refine ⟨t, ht, hp, hi, ?_⟩
  have hz : d + Pi.single f 1 + Pi.single f (-1) = d := by
    funext g
    by_cases hg : g = f
    · subst hg
      simp
    · simp [hg]
  rwa [hz] at hb'

theorem pipealloc_spec (mem : Bool) (h : Good s) : ∃ r t, s.pipealloc mem = .ok (r, t) ∧ t.proc = s.proc ∧ Inv t none ∧
      (r = none ∧ t.Balanced 0 ∨ ∃ f g, r = some (f, g) ∧ t.Balanced (Pi.single g 1 + Pi.single f 1)) := by
  unfold pipealloc
  cases ha : s.filealloc with
  | none => exact ⟨none, s, rfl, rfl, h.1, .inl ⟨rfl, h.2⟩⟩
  | some y =>
    obtain ⟨f, u⟩ := y
    obtain ⟨h0, hu, hi, hb⟩ := filealloc_spec h.1 h.2 ha
    have hproc : u.proc = s.proc := by rw [hu]; rfl
    simp only
    cases hb' : u.filealloc with
    | none =>
      obtain ⟨t, ht, hp, hi', hb'⟩ := fileclose_held hi hb le_rfl
      exact ⟨none, t, by simp only [ht, ok_bind], hp.trans hproc, hi', .inl ⟨rfl, hb'⟩⟩
    | some z =>
      obtain ⟨g, v⟩ := z
      obtain ⟨h0', hv, hi', hb''⟩ := filealloc_spec hi hb hb'
      have hproc' : v.proc = s.proc := by rw [hv]; exact hproc
      have hfg : f ≠ g := by
        rintro rfl
        rw [hu] at h0'
        simp [Files.setFile] at h0'
      have hvf : (v.ftable f).type = .none ∧ (v.ftable f).ref = 1 := by
        rw [hv, hu]
        simp [Files.setFile, hfg, h.1.unused f h0]
      have hvg : (v.ftable g).type = .none ∧ (v.ftable g).ref = 1 := by
        rw [hv]
        simp [Files.setFile, hi.unused g h0']
      simp only
      split
      · refine ⟨_, _, rfl, hproc', ⟨?_, hi'.dead, ?_⟩, .inr ⟨f, g, rfl, ?_⟩⟩
        · refine unused_setFile (unused_setFile hi'.unused ?_) ?_
          · simp [hvf.2]
          · simp [Files.setFile, hfg.symm, hvg.2]
        · exact hi'.pipes.make (by simp [hvf.1]) (by simp [hvg.1]) hfg ⟨rfl, rfl, rfl⟩ ⟨rfl, rfl, rfl⟩
        · have hb3 : ∀ e e' : OpenFile, e.ref = (v.ftable f).ref → e'.ref = ((v.setFile f e).ftable g).ref →
              ((v.setFile f e).setFile g e').Balanced (Pi.single g 1 + Pi.single f 1) := fun e e' he he' => by
            refine Balanced.setFile_same (Balanced.setFile_same ?_ he) he'
            rwa [zero_add, add_comm] at hb''
          exact hb3 _ _ rfl rfl
      · obtain ⟨w, hw, hpw, hiw, hbw⟩ :=
          fileclose_held (f := f) (d := Pi.single g 1) hi' (by rwa [zero_add, add_comm] at hb'') (by simp [hfg])
        obtain ⟨t, ht, hpt, hit, hbt⟩ := fileclose_held (f := g) (d := 0) hiw (by rwa [zero_add]) le_rfl
        exact ⟨none, t, by simp only [hw, ht, ok_bind], hpt.trans (hpw.trans hproc'), hit, .inl ⟨rfl, hbt⟩⟩

end

variable [DecidableEq P]

theorem Inv.setFd (h : Inv s x) (fd : Fin NOFILE) (o : Option (Fin NFILE)) (hp : (s.proc p).life = .live ∨ some p = x) :
    Inv (s.setFd p fd o) x := by
  refine ⟨h.unused, fun q hq hx i => ?_, h.pipes.congr (fun _ _ _ => Iff.rfl) rfl rfl⟩
  by_cases hqp : q = p
  · subst hqp
    simp only [Files.setFd, update_self] at hq
    exact absurd (hp.resolve_right hx) hq
  · simp only [Files.setFd, update_of_ne hqp] at hq ⊢
    exact h.dead q hq hx i

theorem fdalloc_spec (hr : s.fdalloc p f = some (fd, t)) : (s.proc p).ofile fd = none ∧ t = s.setFd p fd (some f) := by
  unfold fdalloc at hr
  split at hr
  · cases hr
  · next fd' hfd =>
    cases hr
    exact ⟨by simpa using List.find?_some hfd, rfl⟩

theorem setFd_life {o : Option (Fin NFILE)} : ((s.setFd p fd o).proc q).life = (s.proc q).life := by
  by_cases hq : q = p
  · subst hq
    simp [Files.setFd]
  · simp [Files.setFd, hq]

theorem setFd_ofile {o : Option (Fin NFILE)} {i : Fin NOFILE} :
    ((s.setFd p fd o).proc q).ofile i = if q = p ∧ i = fd then o else (s.proc q).ofile i := by
  by_cases hq : q = p
  · subst hq
    by_cases hi : i = fd
    · subst hi
      simp [Files.setFd]
    · simp [Files.setFd, hi]
  · simp [Files.setFd, hq]

theorem setLife_proc {l : Life} : (s.setLife p l).proc q = if q = p then { s.proc p with life := l } else s.proc q :=
  update_apply _ _ _ _

variable [Fintype P]

/-! ### Counting descriptors -/

theorem slots_setFd (s : Files P) (p : P) (fd : Fin NOFILE) (o : Option (Fin NFILE)) (g : Fin NFILE) :
    (s.setFd p fd o).slots g + (if (s.proc p).ofile fd = some g then 1 else 0) =
      s.slots g + if o = some g then 1 else 0 := by
  have h := sum_update_add (fun o : Option (Fin NFILE) => if o = some g then 1 else 0)
    (fun y : P × Fin NOFILE => (s.proc y.1).ofile y.2) (p, fd) o
  have hu : ∀ y : P × Fin NOFILE, ((s.setFd p fd o).proc y.1).ofile y.2 =
      update (fun y : P × Fin NOFILE => (s.proc y.1).ofile y.2) (p, fd) o y := fun y => by
    obtain ⟨q, i⟩ := y
    by_cases hq : q = p
    · subst hq
      by_cases hi : i = fd
      · subst hi
        simp [setFd]
      · simp [setFd, hi]
    · simp [setFd, hq]
  simp only [slots, hu]
  exact h

def refTo (o : Option (Fin NFILE)) (g : Fin NFILE) : ℤ := if o = some g then 1 else 0

theorem Balanced.setFd (h : s.Balanced d) (p : P) (fd : Fin NOFILE) (o : Option (Fin NFILE)) :
    (s.setFd p fd o).Balanced (d + refTo ((s.proc p).ofile fd) - refTo o) := by
  intro g
  have h1 : (((s.setFd p fd o).slots g : ℕ) : ℤ) + refTo ((s.proc p).ofile fd) g = s.slots g + refTo o g := by
    simpa [refTo] using congrArg (Nat.cast : ℕ → ℤ) (slots_setFd s p fd o g)
  have h2 : ((s.ftable g).ref : ℤ) = s.slots g + d g := h g
  change ((s.ftable g).ref : ℤ) = (s.setFd p fd o).slots g + (d g + refTo ((s.proc p).ofile fd) g - refTo o g)
  omega

/-! ### The calls -/

theorem refTo_none : refTo none = 0 := by
  funext g
  simp [refTo]

theorem refTo_some : refTo (some f) = Pi.single f 1 := by
  funext g
  by_cases hg : g = f
  · subst hg
    simp [refTo]
  · simp [refTo, hg, Ne.symm hg]

theorem Balanced.fill (h : s.Balanced d) (hfd : (s.proc p).ofile fd = none) :
    (s.setFd p fd (some f)).Balanced (d - Pi.single f 1) := by
  have h1 := h.setFd p fd (some f)
  rwa [hfd, refTo_none, refTo_some, add_zero] at h1

theorem Balanced.clear (h : s.Balanced d) (hfd : (s.proc p).ofile fd = some f) :
    (s.setFd p fd none).Balanced (d + Pi.single f 1) := by
  have h1 := h.setFd p fd none
  rwa [hfd, refTo_none, refTo_some, sub_zero] at h1

theorem sysDup_spec (n : Int) (h : Good s) (hp : (s.proc p).life = .live) : ∃ r t, s.sysDup p n = .ok (r, t) ∧
    Good t := by
  unfold sysDup
  cases ha : s.argfd p n with
  | none => exact ⟨none, s, rfl, h⟩
  | some y =>
    obtain ⟨fd₀, f⟩ := y
    simp only
    cases hfd : s.fdalloc p f with
    | none => exact ⟨none, s, rfl, h⟩
    | some z =>
      obtain ⟨fd, u⟩ := z
      obtain ⟨hnone, rfl⟩ := fdalloc_spec hfd
      have href : 1 ≤ ((s.setFd p fd (some f)).ftable f).ref := h.2.ref_pos_of_fd (argfd_spec ha)
      obtain ⟨t, ht, -, hi, hb⟩ := filedup_spec (h.1.setFd fd (some f) (.inl hp)) (h.2.fill hnone) href
      refine ⟨some fd, t, by simp only [ht, ok_bind], hi, ?_⟩
      rwa [sub_add_cancel] at hb

theorem sysClose_spec (n : Int) (h : Good s) (hp : (s.proc p).life = .live) :
    ∃ r t, s.sysClose p n = .ok (r, t) ∧ Good t := by
  unfold sysClose
  cases ha : s.argfd p n with
  | none => exact ⟨false, s, rfl, h⟩
  | some y =>
    obtain ⟨fd, f⟩ := y
    obtain ⟨t, ht, -, hi, hb⟩ := fileclose_held (h.1.setFd fd none (.inl hp)) (h.2.clear (argfd_spec ha)) le_rfl
    exact ⟨true, t, by simp only [ht, ok_bind], hi, hb⟩

theorem sysOpen_spec (found : Bool) (omode : Nat) (h : Good s) (hp : (s.proc p).life = .live) :
    ∃ r t, s.sysOpen p found omode = .ok (r, t) ∧ Good t := by
  unfold sysOpen
  split
  · exact ⟨none, s, rfl, h⟩
  · cases ha : s.filealloc with
    | none => exact ⟨none, s, rfl, h⟩
    | some y =>
      obtain ⟨f, u⟩ := y
      obtain ⟨h0, hu, hi, hb⟩ := filealloc_spec h.1 h.2 ha
      have hproc : u.proc = s.proc := by rw [hu]; rfl
      simp only
      cases hfd : u.fdalloc p f with
      | none =>
        obtain ⟨t, ht, -, hi', hb'⟩ := fileclose_held hi hb le_rfl
        exact ⟨none, t, by simp only [ht, ok_bind], hi', hb'⟩
      | some z =>
        obtain ⟨fd, v⟩ := z
        obtain ⟨hnone, rfl⟩ := fdalloc_spec hfd
        have hi' : Inv (u.setFd p fd (some f)) none := hi.setFd fd (some f) (.inl (hproc ▸ hp))
        have htype : ((u.setFd p fd (some f)).ftable f).type = .none ∧ ((u.setFd p fd (some f)).ftable f).ref = 1 := by
          change (u.ftable f).type = .none ∧ (u.ftable f).ref = 1
          rw [hu]
          simp [Files.setFile, h.1.unused f h0]
        refine ⟨some fd, _, rfl,
          ⟨unused_setFile hi'.unused fun hr => ?_, hi'.dead, hi'.pipes.setFile (by simp [htype.1]) nofun⟩, ?_⟩
        · simp [htype.2] at hr
        · refine Balanced.setFile_same ?_ rfl
          have hb' := hb.fill (f := f) hnone
          rwa [add_sub_cancel_right] at hb'

theorem sysPipe_spec (mem : Bool) (h : Good s) (hp : (s.proc p).life = .live) :
    ∃ r t, s.sysPipe p mem = .ok (r, t) ∧ Good t := by
  obtain ⟨r, u, hu, hproc, hi, ⟨rfl, hb⟩ | ⟨rf, wf, rfl, hb⟩⟩ := pipealloc_spec mem h
  · exact ⟨none, u, by simp only [sysPipe, hu, ok_bind], hi, hb⟩
  · have hlive : (u.proc p).life = .live := hproc ▸ hp
    simp only [sysPipe, hu, ok_bind]
    -- Both files are closed again if there are not two descriptors for them.
    have hclose : ∀ v : Files P, Inv v none → v.Balanced (Pi.single wf 1 + Pi.single rf 1) →
        ∃ v' t, v.fileclose rf = .ok v' ∧ v'.fileclose wf = .ok t ∧ Good t := fun v hiv hbv => by
      obtain ⟨v', hv', -, hi', hb'⟩ := fileclose_held hiv hbv (by
        by_cases hw : rf = wf
        · simp [hw]
        · simp [hw])
      obtain ⟨t, ht, -, hit, hbt⟩ := fileclose_held (f := wf) (d := 0) hi' (by rwa [zero_add]) le_rfl
      exact ⟨v', t, hv', ht, hit, hbt⟩
    cases hfd : u.fdalloc p rf with
    | none =>
      obtain ⟨v', t, h1, h2, ht⟩ := hclose u hi hb
      exact ⟨none, t, by simp only [h1, h2, ok_bind], ht⟩
    | some y =>
      obtain ⟨fd0, v⟩ := y
      obtain ⟨hnone, rfl⟩ := fdalloc_spec hfd
      have hiv : Inv (u.setFd p fd0 (some rf)) none := hi.setFd fd0 (some rf) (.inl hlive)
      have hlive' : ((u.setFd p fd0 (some rf)).proc p).life = .live := setFd_life.trans hlive
      have hbv := hb.fill (f := rf) hnone
      rw [add_sub_cancel_right] at hbv
      simp only
      cases hfd' : (u.setFd p fd0 (some rf)).fdalloc p wf with
      | none =>
        have hset : ((u.setFd p fd0 (some rf)).proc p).ofile fd0 = some rf := by simp [setFd_ofile]
        obtain ⟨v', t, h1, h2, ht⟩ := hclose _ (hiv.setFd fd0 none (.inl hlive')) (hbv.clear hset)
        exact ⟨none, t, by simp only [h1, h2, ok_bind], ht⟩
      | some z =>
        obtain ⟨fd1, w⟩ := z
        obtain ⟨hnone', rfl⟩ := fdalloc_spec hfd'
        have hbw := hbv.fill (f := wf) hnone'
        rw [sub_self] at hbw
        exact ⟨_, _, rfl, hiv.setFd fd1 (some wf) (.inl hlive'), hbw⟩

theorem forkFiles_spec (l : List (Fin NOFILE)) (hl : l.Nodup) (h : Inv s (some np)) (hb : s.Balanced 0)
    (hnp : ∀ i ∈ l, (s.proc np).ofile i = none) :
    ∃ t, l.foldlM (forkFile p np) s = .ok t ∧ Inv t (some np) ∧ t.Balanced 0 ∧
    ∀ q, (t.proc q).life = (s.proc q).life := by
  induction l generalizing s with
  | nil => exact ⟨s, rfl, h, hb, fun _ => rfl⟩
  | cons i l ih =>
    obtain ⟨hil, hl⟩ := nodup_cons.mp hl
    rw [foldlM_cons]
    cases hi : (s.proc p).ofile i with
    | none =>
      obtain ⟨t, ht, h1, h2, h3⟩ := ih hl h hb fun j hj => hnp j (mem_cons_of_mem i hj)
      exact ⟨t, by simp only [forkFile, hi, ok_bind, ht], h1, h2, h3⟩
    | some f =>
      obtain ⟨u, hu, hproc, hiu, hbu⟩ := filedup_spec h hb (hb.ref_pos_of_fd hi)
      have hnone : (u.proc np).ofile i = none := hproc ▸ hnp i mem_cons_self
      have hbu' := hbu.fill (f := f) hnone
      rw [add_sub_cancel_right] at hbu'
      obtain ⟨t, ht, h1, h2, h3⟩ := ih hl (hiu.setFd i (some f) (.inr rfl)) hbu' fun j hj => by
        have hji : j ≠ i := fun hji => hil (hji ▸ hj)
        rw [setFd_ofile, if_neg fun h' => hji h'.2, hproc]
        exact hnp j (mem_cons_of_mem i hj)
      refine ⟨t, by simp only [forkFile, hi, hu, ok_bind, ht], h1, h2, fun q => ?_⟩
      rw [h3, setFd_life, hproc]

theorem exitFiles_spec (l : List (Fin NOFILE)) (h : Good s) (hp : (s.proc p).life = .live) :
    ∃ t, l.foldlM (exitFile p) s = .ok t ∧ Good t ∧ (∀ q, (t.proc q).life = (s.proc q).life) ∧
      (∀ i ∈ l, (t.proc p).ofile i = none) ∧ ∀ i, (s.proc p).ofile i = none → (t.proc p).ofile i = none := by
  induction l generalizing s with
  | nil => exact ⟨s, rfl, h, fun _ => rfl, nofun, fun _ => id⟩
  | cons i l ih =>
    rw [foldlM_cons]
    cases hi : (s.proc p).ofile i with
    | none =>
      obtain ⟨t, ht, h1, h2, h3, h4⟩ := ih h hp
      refine ⟨t, by simp only [exitFile, hi, ok_bind, ht], h1, h2, fun j hj => ?_, h4⟩
      rcases mem_cons.mp hj with rfl | hj
      · exact h4 j hi
      · exact h3 j hj
    | some f =>
      obtain ⟨u, hu, hproc, hiu, hbu⟩ := fileclose_spec h.1 h.2 (h.2.ref_pos_of_fd hi)
      have hfd : (u.proc p).ofile i = some f := hproc ▸ hi
      have hbu' := hbu.clear hfd
      have hz : (0 : Fin NFILE → ℤ) + Pi.single f (-1) + Pi.single f 1 = 0 := by
        funext g
        by_cases hg : g = f
        · subst hg
          simp
        · simp [hg]
      rw [hz] at hbu'
      obtain ⟨t, ht, h1, h2, h3, h4⟩ := ih ⟨hiu.setFd i none (.inl (hproc ▸ hp)), hbu'⟩
        (setFd_life.trans (hproc ▸ hp))
      refine ⟨t, by simp only [exitFile, hi, hu, ok_bind, ht], h1, fun q => ?_, fun j hj => ?_, fun j hj => h4 j ?_⟩
      · rw [h2, setFd_life, hproc]
      · rcases mem_cons.mp hj with rfl | hj
        · exact h4 j (by simp [setFd_ofile])
        · exact h3 j hj
      · rw [setFd_ofile]
        split
        · rfl
        · rw [hproc]
          exact hj

theorem Good.setLife {l : Life} (hi : Inv s x) (hb : s.Balanced 0) (hx : ∀ q, some q = x → q = p)
    (hl : l ≠ .live → ∀ fd, (s.proc p).ofile fd = none) : Good (s.setLife p l) := by
  have hof : ∀ q i, ((s.setLife p l).proc q).ofile i = (s.proc q).ofile i := fun q i => by
    rw [setLife_proc]
    split
    · next hq => rw [hq]
    · rfl
  refine ⟨⟨hi.unused, fun q hq _ i => ?_, hi.pipes.congr (fun _ _ _ => Iff.rfl) rfl rfl⟩, fun f => ?_⟩
  · rw [hof]
    rw [setLife_proc] at hq
    split at hq
    · next hqp => exact hqp ▸ hl hq i
    · next hqp => exact hi.dead q hq (fun hqx => hqp (hx q hqx)) i
  · change ((s.ftable f).ref : ℤ) = _
    rw [hb f, slots_congr hof]

theorem Good.call (h : Good s) {c : Call P} (hc : s.call p c = .ok t) : Good t := by
  unfold Files.call at hc
  split_ifs at hc
  next hlive =>
    have hp : (s.proc p).life = .live := not_not.mp hlive
    have hmap : ∀ {α : Type} {y : Except Stop (α × Files P)}, (∃ r t, y = .ok (r, t) ∧ Good t) → y.map (·.2) = .ok t →
      Good t :=
      fun ⟨r, u, hy, hu⟩ ht => by
        rw [hy] at ht
        cases ht
        exact hu
    cases c with
    | «open» found omode => exact hmap (sysOpen_spec found omode h hp) hc
    | pipe mem => exact hmap (sysPipe_spec mem h hp) hc
    | dup n => exact hmap (sysDup_spec n h hp) hc
    | close n => exact hmap (sysClose_spec n h hp) hc
    | fork np ok =>
      simp only [fork] at hc
      split at hc
      · cases hc
      next hun =>
        split at hc
        · cases hc
          exact h
        · have hunused : (s.proc np).life = .unused := not_not.mp hun
          have hx : Inv s (some np) := ⟨h.1.unused, fun q hq _ => h.1.dead q hq nofun, h.1.pipes⟩
          obtain ⟨u, hu, hi, hb, -⟩ := forkFiles_spec (p := p) _ (nodup_finRange NOFILE) hx h.2
            fun i _ => h.1.dead np (by simp [hunused]) nofun i
          rw [hu, ok_bind] at hc
          cases hc
          exact Good.setLife hi hb (fun q hq => Option.some.inj hq) nofun
    | exit =>
      simp only [exit] at hc
      obtain ⟨u, hu, hg, -, hnone, -⟩ := exitFiles_spec (List.finRange NOFILE) h hp
      rw [hu, ok_bind] at hc
      cases hc
      exact Good.setLife hg.1 hg.2 nofun fun _ i => hnone i (mem_finRange i)
    | wait q =>
      simp only at hc
      split at hc
      · next hq =>
        cases hc
        exact Good.setLife h.1 h.2 nofun fun _ => h.1.dead q (by simp [hq]) nofun
      · cases hc
        exact h

theorem reach_good (h : (machine P).Reach s) : Good s := by
  refine h.invariant (I := Good) ?_ fun s l t hg hs => hg.call hs
  rintro s ⟨hf, hp, hn⟩
  refine ⟨⟨fun f _ => (hf f).2, fun p _ _ => hp p, ⟨fun hk => ?_, fun hk => ?_, fun k hk => ?_, fun k hk => ?_⟩⟩,
    fun f => ?_⟩
  · simp [IsEnd, (hf _).2] at hk
  · simp [IsEnd, (hf _).2] at hk
  · omega
  · omega
  · simp [(hf f).1, slots, hp]

/-- The reference count of a file is the number of descriptors for it, a file without references has no type, an UNUSED
    process has no descriptors, and an end of a pipe is open exactly while a descriptor refers to it; the page of a pipe
    has been freed once if both ends are closed, and not before. -/
theorem file_refs_exact (h : (machine P).Reach s) :
    (∀ f, (s.ftable f).ref = (univ.filter fun y : P × Fin NOFILE =>
        (s.proc y.1).life ≠ .unused ∧ (s.proc y.1).ofile y.2 = some f).card) ∧
    (∀ f, (s.ftable f).ref = 0 → (s.ftable f).type = .none) ∧
    (∀ p, (s.proc p).life = .unused → ∀ fd, (s.proc p).ofile fd = none) ∧ ∀ k < s.npipe,
      ((s.pipe k).readopen = true ↔ ∃ p fd f, (s.proc p).ofile fd = some f ∧ s.IsEnd f k false) ∧
      ((s.pipe k).writeopen = true ↔ ∃ p fd f, (s.proc p).ofile fd = some f ∧ s.IsEnd f k true) ∧
      (s.pipe k).kfreed = if (s.pipe k).readopen = false ∧ (s.pipe k).writeopen = false then 1 else 0 := by
  obtain ⟨hi, hb⟩ := reach_good h
  have hdead : ∀ p, (s.proc p).life = .unused → ∀ fd, (s.proc p).ofile fd = none := fun p hp =>
    hi.dead p (by simp [hp]) nofun
  have href : ∀ f, (s.ftable f).ref = s.slots f := fun f => by
    have := hb f
    simp only [Pi.zero_apply] at this
    omega
  -- A file with a type has a descriptor.
  have hend : ∀ k w, (∃ f, s.IsEnd f k w) ↔ ∃ p fd f, (s.proc p).ofile fd = some f ∧ s.IsEnd f k w := fun k w => by
    refine ⟨fun ⟨f, hf⟩ => ?_, fun ⟨_, _, f, _, hf⟩ => ⟨f, hf⟩⟩
    have hne : s.slots f ≠ 0 := fun h0 => by
      have := hi.unused f ((href f).trans h0)
      rw [hf.1] at this
      cases this
    obtain ⟨⟨p, fd⟩, -, hy⟩ := exists_ne_zero_of_sum_ne_zero hne
    refine ⟨p, fd, f, ?_, hf⟩
    by_contra hno
    exact hy (if_neg hno)
  refine ⟨fun f => ?_, hi.unused, hdead, fun k hk => ⟨?_, ?_, hi.pipes.freed k hk⟩⟩
  · rw [href, slots, card_filter]
    refine sum_congr rfl fun y _ => ?_
    by_cases hy : (s.proc y.1).ofile y.2 = some f
    · have hlive : (s.proc y.1).life ≠ .unused := fun hu => by simp [hdead y.1 hu] at hy
      simp [hy, hlive]
    · simp [hy]
  · rw [← hend]
    exact hi.pipes.flag k hk false
  · rw [← hend]
    exact hi.pipes.flag k hk true

/-- A pipe is made and inherited; the parent closes its write end, the child exits and is waited for, and the parent
    closes its read end. -/
def pipeRun : List (Fin 2 × Call (Fin 2)) :=
  [(0, .pipe true), (0, .fork 1 true), (0, .close 1), (1, .dup 0), (1, .exit), (0, .wait 1), (0, .pipe false),
    (0, .close 0)]

theorem file_refs_exact_pipeRun : ∃ s : Files (Fin 2), (machine (Fin 2)).Reach s ∧ s.npipe = 1 ∧
    (s.pipe 0).readopen = false ∧ (s.pipe 0).writeopen = false ∧ (s.pipe 0).kfreed = 1 := by
  obtain ⟨s, hs, h⟩ := Option.exists_of_any
      (o := pipeRun.foldlM (fun (s : Files (Fin 2)) l => (s.call l.1 l.2).toOption) { proc := fun p => if p = 0
        then { life := .live } else {} })
      (p := fun s : Files (Fin 2) => s.npipe = 1 ∧ (s.pipe 0).readopen = false ∧
        (s.pipe 0).writeopen = false) (by decide +kernel)
  have hr : (machine (Fin 2)).Reach s := by
    refine .foldlM (fun _ _ _ => toOption_eq_some.mp)
      (.init ⟨fun _ => ⟨rfl, rfl⟩, fun p fd => ?_, rfl⟩) hs
    simp only
    split <;> rfl
  obtain ⟨-, -, -, hk⟩ := file_refs_exact hr
  obtain ⟨-, -, hf⟩ := hk 0 (by omega)
  exact ⟨s, hr, h.1, h.2.1, h.2.2, by rw [hf, if_pos h.2]⟩

end Files
end Xv6
