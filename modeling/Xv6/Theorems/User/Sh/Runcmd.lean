import Xv6.Theorems.User.Sh.Parser
import Xv6.User.Runcmd

/-! The processes that the shell makes of a command: what their first three descriptors refer to, and that none
    keeps an end of a pipe that it does not use. -/

namespace Xv6.Sh
open Function List Option

/-- The descriptor that an end of a pipe replaces. -/
def Target.std (writable : Bool) : Fin NOFILE := if writable then 1 else 0

/-- The processes as the command means them: a redirection replaces one descriptor, and a pipe the output on its left
    side and the input on its right side. -/
def Cmd.processes : Cmd → Place → Fds → List Member
  | .exec argv, k, t => if argv = [] then [] else [⟨k, some argv, t⟩]
  | .redir cmd file _ mode fd, k,
    t => cmd.processes (k ++ [false]) (update t (Fin.ofNat NOFILE fd) (some (.file file mode)))
  | .list left right, k, t => left.processes (k ++ [false]) t ++ ⟨k, none, t⟩ :: right.processes (k ++ [true]) t
  | .pipe left right, k, t => left.processes (k ++ [false]) (update t (Target.std true) (some (.pipe k true))) ++
      (right.processes (k ++ [true]) (update t (Target.std false) (some (.pipe k false))) ++ [⟨k, none, t⟩])
  | .back cmd, k, t => cmd.processes (k ++ [false]) t

/-- Only input and output are redirected. -/
def Cmd.Redirects : Cmd → Prop
  | .exec _ => True
  | .redir cmd _ _ _ fd => fd ≤ 1 ∧ cmd.Redirects
  | .list left right => left.Redirects ∧ right.Redirects
  | .pipe left right => left.Redirects ∧ right.Redirects
  | .back cmd => cmd.Redirects

/-- Input, output and the descriptor for messages are open, and no others. -/
def Fds.Std (t : Fds) : Prop := ∀ fd, t fd ≠ none ↔ fd.1 ≤ 2

def Fds.piped (t : Fds) (k : Place) : Fds := update (update t 3 (some (.pipe k false))) 4 (some (.pipe k true))

variable {t u : Fds} {x : Target} {fd : Fin NOFILE} {k : Place} {cmd : Cmd} {m : Member} {w : Bool}

/-! ### Descriptors -/

namespace Fds

theorem close_fin : t.close fd = update t fd none := dif_pos fd.isLt

theorem alloc_eq (h : t fd = none) (hlow : ∀ j < fd, t j ≠ none) : t.alloc x = some (fd, update t fd (some x)) := by
  have hfind : (finRange NOFILE).find? (fun j => t j = none) = some fd := by
    rw [find?_eq_some_iff_getElem]
    exact ⟨by simpa using h, fd, by simp, by simp, fun j hj => by simpa using hlow ⟨j, hj.trans fd.isLt⟩ hj⟩
  rw [alloc, hfind, map_some]

theorem realloc (hlow : ∀ j < fd, t j ≠ none) : (t.close fd).alloc x = some (fd, update t fd (some x)) := by
  rw [close_fin, alloc_eq (update_self ..) fun j hj => ?_, update_idem]
  rw [update_of_ne (Fin.ne_of_lt hj)]
  exact hlow j hj

theorem Std.set (h : t.Std) (hfd : fd.1 ≤ 2) : Std (update t fd (some x)) := by
  intro j
  by_cases hj : j = fd
  · simp [hj, hfd]
  · rw [update_of_ne hj, h j]

theorem piped_of_ne {j : Fin NOFILE} (h3 : j ≠ 3) (h4 : j ≠ 4) : t.piped k j = t j := by
  rw [piped, update_of_ne h4, update_of_ne h3]

section

variable (h : t.Std)
include h

theorem Std.free (hfd : 2 < fd.1) : t fd = none := not_not.mp (mt (h fd).mp (Nat.not_le.mpr hfd))

theorem Std.pipe_eq : t.pipe k = some (3, 4, t.piped k) := by
  have hr : t.alloc (.pipe k false) = some (3, update t 3 (some (.pipe k false))) :=
    alloc_eq (h.free (by decide)) fun j hj => (h j).mpr (Nat.le_of_lt_succ hj)
  have hw : alloc (update t 3 (some (.pipe k false))) (.pipe k true) = some (4, t.piped k) := by
    refine alloc_eq (by rw [update_of_ne (by decide), h.free (by decide)]) fun j hj => ?_
    by_cases hj3 : j = 3
    · simp [hj3]
    · rw [update_of_ne hj3, h j]
      exact Nat.le_of_lt_succ (Nat.lt_of_le_of_ne (Nat.le_of_lt_succ hj) (Fin.val_ne_of_ne hj3))
  rw [pipe, hr, bind_some, hw, map_some]

theorem Std.close_ends (hu : ∀ j, j ≠ 3 → j ≠ 4 → u j = t j) :
    (u.close (3 : Fin NOFILE)).close (4 : Fin NOFILE) = t := by
  rw [close_fin, close_fin]
  funext j
  by_cases h4 : j = 4
  · rw [h4, update_self, h.free (by decide)]
  by_cases h3 : j = 3
  · rw [update_of_ne h4, h3, update_self, h.free (by decide)]
  rw [update_of_ne h4, update_of_ne h3, hu j h3 h4]

theorem Std.plumb (w : Bool) :
    ((((t.piped k).close (Target.std w)).dup (if w then 4 else 3)).close (3 : Fin NOFILE)).close
    (4 : Fin NOFILE) = update t (Target.std w) (some (.pipe k w)) := by
  have hstd : (Target.std w).1 ≤ 2 := by cases w <;> decide
  have hend : (t.piped k).close (Target.std w) (if w then 4 else 3) = some (.pipe k w) := by
    rw [close_fin]
    cases w <;> rfl
  have hne : ∀ c : Fin NOFILE, c.1 ≤ 2 → c ≠ 3 ∧ c ≠ 4 := by decide
  rw [dup, hend, bind_some, realloc fun j hj => ?_]
  · refine (h.set hstd).close_ends fun j h3 h4 => ?_
    by_cases hj : j = Target.std w
    · simp [hj]
    · simp [update_of_ne hj, piped_of_ne h3 h4]
  · have hj2 : j.1 ≤ 2 := Nat.le_trans (Nat.le_of_lt hj) hstd
    rw [piped_of_ne (hne j hj2).1 (hne j hj2).2, h j]
    exact hj2

end

end Fds

/-! ### Processes -/

theorem runcmd_processes (ok : Served) (hs : t.Std) (hc : cmd.Redirects) : runcmd ok cmd k t <+ cmd.processes k t ∧
    ((∀ k b, ok.opens k ∧ ok.pipes k ∧ ok.execs k ∧ ok.forks k b) → runcmd ok cmd k t = cmd.processes k t) := by
  induction cmd generalizing k t with
  | exec argv =>
    rw [runcmd, Cmd.processes]
    split_ifs with hnil he
    · exact ⟨.refl _, fun _ => rfl⟩
    · exact ⟨.refl _, fun _ => rfl⟩
    · exact ⟨nil_sublist _, fun hok => absurd (hok k true).2.2.1 he⟩
  | redir cmd file efile mode fd ih =>
    obtain ⟨hfd, hc⟩ := hc
    obtain ⟨fd, rfl⟩ : ∃ j : Fin NOFILE, j.1 = fd := ⟨⟨fd, Nat.lt_of_le_of_lt hfd (by decide)⟩, rfl⟩
    have hle : fd.1 ≤ 2 := Nat.le_succ_of_le hfd
    obtain ⟨ih1, ih2⟩ := ih (k := k ++ [false]) (hs.set (x := .file file mode) hle) hc
    simp only [runcmd, Cmd.processes, Fds.realloc fun j hj => (hs j).mpr (Nat.le_trans (Nat.le_of_lt hj) hle),
      Fin.ofNat_val_eq_self]
    split_ifs with ho
    · exact ⟨ih1, ih2⟩
    · exact ⟨nil_sublist _, fun hok => absurd (hok k true).1 ho⟩
  | pipe left right ihl ihr =>
    have hstd : ∀ w, Fds.Std (update t (Target.std w) (some (.pipe k w))) := fun w => hs.set (by cases w <;> decide)
    obtain ⟨l1, l2⟩ := ihl (k := k ++ [false]) (hstd true) hc.1
    obtain ⟨r1, r2⟩ := ihr (k := k ++ [true]) (hstd false) hc.2
    have hleft : ((((t.piped k).close 1).dup 4).close (3 : Fin NOFILE)).close (4 : Fin NOFILE) =
      update t (Target.std true) (some (.pipe k true)) := hs.plumb true
    have hright : ((((t.piped k).close 0).dup 3).close (3 : Fin NOFILE)).close (4 : Fin NOFILE) =
      update t (Target.std false) (some (.pipe k false)) := hs.plumb false
    have hself := hs.close_ends (u := t.piped k) fun _ => Fds.piped_of_ne
    simp only [runcmd, Cmd.processes, hs.pipe_eq, hleft, hright, hself]
    split_ifs with hf hf'
    · exact ⟨l1.append (r1.append_right _), fun hok => by rw [l2 hok, r2 hok]⟩
    · exact ⟨l1.append (nil_sublist _), fun hok => absurd (hok k true).2.2.2 hf'⟩
    · exact ⟨nil_sublist _, fun hok => absurd ⟨(hok k false).2.1, (hok k false).2.2.2⟩ hf⟩
  | list left right ihl ihr =>
    obtain ⟨l1, l2⟩ := ihl (k := k ++ [false]) hs hc.1
    obtain ⟨r1, r2⟩ := ihr (k := k ++ [true]) hs hc.2
    rw [runcmd, Cmd.processes]
    split_ifs with hf
    · exact ⟨l1.append (r1.cons_cons _), fun hok => by rw [l2 hok, r2 hok]⟩
    · exact ⟨nil_sublist _, fun hok => absurd (hok k false).2.2.2 hf⟩
  | back cmd ih =>
    obtain ⟨ih1, ih2⟩ := ih (k := k ++ [false]) hs hc
    rw [runcmd, Cmd.processes]
    split_ifs with hf
    · exact ⟨ih1, ih2⟩
    · exact ⟨nil_sublist _, fun hok => absurd (hok k false).2.2.2 hf⟩

/-- The process is at or below the node `k`, which was entered with the descriptors `t`, and an end of a pipe that is
    not among these is where the process needs it. -/
structure Plugged (k : Place) (t : Fds) (m : Member) : Prop where
  node : k <+: m.node
  std : m.fds.Std
  ends : ∀ fd j w, m.fds fd = some (.pipe j w) → t fd = some (.pipe j w) ∨ fd = Target.std w ∧ j ++ [!w] <+: m.node

theorem Plugged.self {o : Option (List (Nat × Nat))} (h : t.Std) : Plugged k t ⟨k, o, t⟩ :=
  ⟨prefix_rfl, h, fun _ _ _ => .inl⟩

theorem Plugged.up (h : Plugged (k ++ [w]) t m) : Plugged k t m := ⟨(prefix_append ..).trans h.node, h.std, h.ends⟩

theorem Plugged.set (hx : ∀ j w, x = .pipe j w → fd = Target.std w ∧ j ++ [!w] <+: m.node)
    (h : Plugged k (update t fd (some x)) m) : Plugged k t m := by
  refine ⟨h.node, h.std, fun j n w hj => ?_⟩
  rcases h.ends j n w hj with he | he
  · by_cases hjf : j = fd
    · rw [hjf, update_self, some.injEq] at he
      exact .inr ⟨hjf.trans (hx n w he).1, (hx n w he).2⟩
    · rw [update_of_ne hjf] at he
      exact .inl he
  · exact .inr he

theorem Cmd.plugged (hs : t.Std) (hc : cmd.Redirects) (hm : m ∈ cmd.processes k t) : Plugged k t m := by
  induction cmd generalizing k t with
  | exec argv =>
    rw [processes] at hm
    split_ifs at hm
    · cases hm
    · rw [mem_singleton.mp hm]
      exact .self hs
  | redir cmd file efile mode fd ih =>
    have hle : fd % NOFILE ≤ 2 := (Nat.mod_le fd NOFILE).trans (Nat.le_succ_of_le hc.1)
    exact ((ih (hs.set hle) hc.2 hm).set (by rintro j w ⟨⟩)).up
  | pipe left right ihl ihr =>
    rcases mem_append.mp hm with hm | hm
    · have h := ihl (hs.set (by decide)) hc.1 hm
      exact (h.set (by rintro j w ⟨⟩; exact ⟨rfl, h.node⟩)).up
    rcases mem_append.mp hm with hm | hm
    · have h := ihr (hs.set (by decide)) hc.2 hm
      exact (h.set (by rintro j w ⟨⟩; exact ⟨rfl, h.node⟩)).up
    · rw [mem_singleton.mp hm]
      exact .self hs
  | list left right ihl ihr =>
    rcases mem_append.mp hm with hm | hm
    · exact (ihl hs hc.1 hm).up
    rcases mem_cons.mp hm with rfl | hm
    · exact .self hs
    · exact (ihr hs hc.2 hm).up
  | back cmd ih => exact (ih hs hc hm).up

/-! ### Commands of the grammar -/

def Tree.Redirects : Tree → Prop
  | .exec _ => True
  | .redir t _ _ fd => fd ≤ 1 ∧ t.Redirects
  | .list left right => left.Redirects ∧ right.Redirects
  | .pipe left right => left.Redirects ∧ right.Redirects
  | .back t => t.Redirects

theorem Tree.redirects_wrap {u : Tree} (h : u.Redirects) (rs : List (Dir × List UInt8)) : (wrap u rs).Redirects := by
  induction rs generalizing u with
  | nil => exact h
  | cons r rs ih => exact ih ⟨by cases r.1 <;> decide, h⟩

theorem Tree.redirects_back {u : Tree} (h : u.Redirects) (n : Nat) : (Tree.back^[n] u).Redirects := by
  induction n generalizing u with
  | zero => exact h
  | succ n ih => exact ih h

theorem Derives.redirects {n : Nonterminal} {ts : List Token} {u : Tree} (h : Derives n ts u) : u.Redirects := by
  induction h with
  | line n _ ih => exact Tree.redirects_back ih n
  | list n _ _ ih ih' => exact ⟨Tree.redirects_back ih n, ih'⟩
  | one _ ih => exact ih
  | pipe _ _ ih ih' => exact ⟨ih, ih'⟩
  | block _ _ ih => exact Tree.redirects_wrap ih _
  | simple => exact Tree.redirects_wrap (u := .exec _) trivial _

theorem Shape.redirects {R : Nat → Nat → List UInt8 → Prop} {u : Tree} (h : Shape R cmd u) (hu : u.Redirects) :
    cmd.Redirects := by
  induction h with
  | exec => trivial
  | redir _ _ ih => exact ⟨hu.1, ih hu.2⟩
  | pipe _ _ ih ih' => exact ⟨ih hu.1, ih' hu.2⟩
  | list _ _ ih ih' => exact ⟨ih hu.1, ih' hu.2⟩
  | back _ ih => exact ih hu

/-- Run with the three descriptors open and none of them a pipe: whichever calls fail, what runs is part of what the
    command means, and all of it if none does. Every process has just three descriptors open again. The left side of a
    pipe, and it alone, can write to it, and the right side, and it alone, can read from it. -/
theorem runcmd_plumbing {R : Nat → Nat → List UInt8 → Prop} {ts : List Token} {u : Tree} (hu : Derives .line ts u)
    (hcmd : Shape R cmd u) (hs : t.Std) (hp : ∀ fd j w, t fd ≠ some (.pipe j w)) (ok : Served) :
    runcmd ok cmd [] t <+ cmd.processes [] t ∧
      ((∀ k b, ok.opens k ∧ ok.pipes k ∧ ok.execs k ∧ ok.forks k b) → runcmd ok cmd [] t = cmd.processes [] t) ∧
      ∀ m ∈ runcmd ok cmd [] t, m.fds.Std ∧
        ∀ fd j w, m.fds fd = some (.pipe j w) → fd = Target.std w ∧ j ++ [!w] <+: m.node := by
  have hc := hcmd.redirects hu.redirects
  obtain ⟨hsub, heq⟩ := runcmd_processes ok (k := []) hs hc
  refine ⟨hsub, heq, fun m hm => ?_⟩
  have h := Cmd.plugged hs hc (hsub.subset hm)
  exact ⟨h.std, fun fd j w hfd => (h.ends fd j w hfd).resolve_left (hp fd j w)⟩

theorem runcmd_plumbing_bar : ∃ m ∈ runcmd ⟨fun _ => true, fun _ => true, fun _ => true, fun _ _ => true⟩
    (.pipe (.exec [(1, 2)]) (.exec [(5, 6)])) [] fun fd => if fd.1 ≤ 2 then some (.inherited fd.1) else none,
      m.argv = some [(5, 6)] ∧ m.fds 0 = some (.pipe [] false) ∧ m.fds.Std := by
  have hd : Derives .line [.word [97], .op .bar, .word [98]] (.pipe (.exec [[97]]) (.exec [[98]])) :=
    .line 0 (.pipe (.simple .nil (.cons _ .nil .nil) (by decide)) (.one (.simple .nil (.cons _ .nil .nil) (by decide))))
  have hsh : Shape (fun _ _ _ => True) (.pipe (.exec [(1, 2)]) (.exec [(5, 6)]))
    (.pipe (.exec [[97]]) (.exec [[98]])) :=
    .pipe (.exec (.cons trivial .nil)) (.exec (.cons trivial .nil))
  obtain ⟨-, heq, hm⟩ := runcmd_plumbing hd hsh (t := fun fd => if fd.1 ≤ 2 then some (.inherited fd.1) else none)
    (fun fd => by simp) (fun fd j w => by split_ifs <;> simp) ⟨fun _ => true, fun _ => true, fun _ => true,
    fun _ _ => true⟩
  rw [heq (by simp)] at hm ⊢
  exact ⟨_, mem_append_right _ mem_cons_self, rfl, rfl, (hm _ (mem_append_right _ mem_cons_self)).1⟩

end Xv6.Sh
