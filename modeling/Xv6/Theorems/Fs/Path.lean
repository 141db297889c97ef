import Xv6.Theorems.Fs.Effect
import Xv6.Theorems.Fs.Ownership
import Mathlib.Data.List.DropRight

/-! Path names: the elements `skipelem` takes from a path, the inode they lead to on the disk, and the loop of
    `namex`, which follows them. -/

namespace Xv6
open List Multiset Option Function

/-! ### The elements of a path -/

/-- The non-empty parts of the path between slashes, each cut to the length of a name. -/
def components (path : List UInt8) : List (List UInt8) := ((path.splitOn 47).filter (· ≠ [])).map (·.take DIRSIZ)

/-- The names `skipelem` leaves in its buffer, call after call, until it returns 0. -/
def elements : Nat → List UInt8 → List UInt8 → Option (List (List UInt8))
  | 0, _, _ => none
  | fuel + 1, name, path =>
    match skipelemInto name path with
    | none => some []
    | some (name, rest) => (elements fuel name rest).map (cname name :: ·)

variable {name path rest elem : List UInt8} {fuel : Nat}

@[simp] theorem components_nil : components [] = [] := rfl

@[simp] theorem components_slash : components (47 :: path) = components path := by
  simp [components, splitOn, splitOnP_cons_eq_if_modifyHead]

theorem components_dropWhile : components (path.dropWhile (· = 47)) = components path := by
  induction path with
  | nil => rfl
  | cons c path ih =>
    by_cases hc : c = 47
    · subst hc
      rw [dropWhile_cons_of_pos (by simp), components_slash, ih]
    · rw [dropWhile_cons_of_neg (by simpa using hc)]

theorem components_append (he : elem ≠ []) (hs : ∀ c ∈ elem, c ≠ 47) (hr : rest = [] ∨ rest.head? = some 47) :
    components (elem ++ rest) = elem.take DIRSIZ :: components rest := by
  have hs' : ∀ c ∈ elem, (c == 47) = false := fun c hc => by simpa using hs c hc
  rcases hr with rfl | hr
  · simp [components, splitOn, splitOnP_eq_singleton hs', he]
  · obtain ⟨rest, rfl⟩ : ∃ r, rest = 47 :: r := by
      cases rest with
      | nil => cases hr
      | cons c r => exact ⟨r, by rw [Option.some.inj hr]⟩
    rw [components_slash]
    simp [components, splitOn, splitOnP_append_cons_of_forall_mem hs', he]

theorem takeWhile_ne_nil (h : path.dropWhile (· = 47) ≠ []) : (path.dropWhile (· = 47)).takeWhile (· ≠ 47) ≠ [] := by
  have hc := head_dropWhile_not (· = (47 : UInt8)) h
  obtain ⟨c, q, hq⟩ := exists_cons_of_ne_nil h
  simp only [hq, head_cons, decide_eq_false_iff_not] at hc
  rw [hq, takeWhile_cons_of_pos (by simpa using hc)]
  nofun

theorem components_first (h : path.dropWhile (· = 47) ≠ []) :
    components path = ((path.dropWhile (· = 47)).takeWhile (· ≠ 47)).take DIRSIZ ::
      components (((path.dropWhile (· = 47)).dropWhile (· ≠ 47)).dropWhile (· = 47)) := by
  have hne := takeWhile_ne_nil h
  rw [← components_dropWhile]
  generalize path.dropWhile (· = 47) = q at *
  rw [components_dropWhile]
  nth_rw 1 [← takeWhile_append_dropWhile (p := (· ≠ (47 : UInt8))) (l := q)]
  refine components_append hne (fun c hc => by simpa using mem_takeWhile_imp hc) ?_
  cases hd : q.dropWhile (· ≠ 47) with
  | nil => exact .inl rfl
  | cons c r =>
    have hc := head_dropWhile_not (· ≠ (47 : UInt8)) (l := q) (by rw [hd]; nofun)
    simp only [hd, head_cons] at hc
    exact .inr (by simpa using hc)

theorem skipelem_none : skipelem path = none ↔ components path = [] := by
  unfold skipelem
  by_cases h : path.dropWhile (· = 47) = []
  · rw [if_pos h, ← components_dropWhile, h]
    simp
  · rw [if_neg h, components_first h]
    simp

theorem skipelem_some (h : skipelem path = some (name, rest)) : components path = name :: components rest := by
  simp only [skipelem] at h
  split_ifs at h with hne
  cases h
  exact components_first hne

theorem skipelem_last (h : skipelem path = some (name, rest)) : rest = [] ↔ components rest = [] := by
  refine ⟨fun h => h ▸ rfl, fun hc => ?_⟩
  have hrest : rest.dropWhile (· = 47) = rest := by
    simp only [skipelem] at h
    split_ifs at h
    cases h
    exact dropWhile_idempotent ..
  have := skipelem_none.mpr hc
  simpa [skipelem, hrest] using this

theorem cname_copyElem (h : 0 ∉ elem) : cname (copyElem name elem) = elem.take DIRSIZ := by
  have hall : ∀ c ∈ elem.take DIRSIZ, decide (c ≠ 0) = true := fun c hc => by
    have := fun h0 : c = 0 => h (h0 ▸ mem_of_mem_take hc)
    simpa using this
  unfold copyElem cname
  split
  · rw [take_take, min_self, takeWhile_eq_self_iff.mpr hall]
  · rename_i hlt
    have hle : elem.length ≤ DIRSIZ := by omega
    rw [take_of_length_le hle] at hall ⊢
    obtain ⟨n, hn⟩ : ∃ n, DIRSIZ - elem.length = n + 1 := ⟨DIRSIZ - elem.length - 1, by omega⟩
    rw [take_append, take_of_length_le hle, hn, take_succ_cons, takeWhile_append_of_pos hall]
    simp

theorem skipelem_eq (h : 0 ∉ path) : skipelem path = (skipelemInto name path).map fun r => (cname r.1, r.2) := by
  have helem : 0 ∉ (path.dropWhile (· = 47)).takeWhile (· ≠ 47) := fun h0 =>
    h ((dropWhile_suffix _).subset (( takeWhile_prefix _).subset h0))
  simp only [skipelem, skipelemInto]
  split
  · rfl
  · simp only [map_some, cname_copyElem helem]

theorem skipelemInto_rest {buf : List UInt8} (h : skipelemInto name path = some (buf, rest)) : rest <:+ path := by
  simp only [skipelemInto] at h
  split_ifs at h
  cases h
  exact (dropWhile_suffix _).trans ((dropWhile_suffix _).trans (dropWhile_suffix _))

theorem elements_eq (h0 : 0 ∉ path) (hf : path.length < fuel) : elements fuel name path = some (components path) := by
  induction fuel generalizing name path with
  | zero => omega
  | succ fuel ih =>
    have heq : skipelem path = (skipelemInto name path).map fun r => (cname r.1, r.2) := skipelem_eq h0
    unfold elements
    cases hs : skipelemInto name path with
    | none =>
      rw [hs] at heq
      rw [skipelem_none.mp heq]
    | some r =>
      obtain ⟨buf, rest⟩ := r
      rw [hs] at heq
      have hrest := skipelemInto_rest hs
      have hlen : rest.length < path.length := Fs.skipelem_length heq
      simp only
      rw [ih (fun h => h0 (hrest.subset h)) (by omega), skipelem_some heq]
      rfl

/-! ### The inode a path leads to -/

namespace Disk

def follow (d : Disk) : Nat → List (List UInt8) → Option Nat
  | x, [] => some x
  | x, name :: names =>
    if (d.dinode x).type ≠ .dir then none else (d.lookup x name).bind fun a => d.follow a.1 names

variable {d : Disk} {x y : Nat} {n : List UInt8}

theorem resolve_false (hf : path.length < fuel) :
    d.resolve false fuel x path = (d.follow x (components path)).map (·, []) := by
  induction fuel generalizing x path with
  | zero => omega
  | succ fuel ih =>
    unfold resolve
    cases hs : skipelem path with
    | none =>
      rw [skipelem_none.mp hs]
      rfl
    | some r =>
      obtain ⟨name, rest⟩ := r
      have hlen := Fs.skipelem_length hs
      rw [skipelem_some hs, follow]
      simp only [Bool.false_eq_true, false_and, if_false]
      split
      · rfl
      cases d.lookup x name with
      | none => rfl
      | some a => exact ih (by omega)

theorem resolve_true (hf : path.length < fuel) (hc : components path ≠ []) :
    ((d.resolve true fuel x path).bind fun a => (d.lookup a.1 a.2).map Prod.fst) = d.follow x (components path) := by
  induction fuel generalizing x path with
  | zero => omega
  | succ fuel ih =>
    unfold resolve
    cases hs : skipelem path with
    | none => exact absurd (skipelem_none.mp hs) hc
    | some r =>
      obtain ⟨name, rest⟩ := r
      have hlen := Fs.skipelem_length hs
      have hlast := skipelem_last hs
      rw [skipelem_some hs, follow]
      simp only [true_and]
      split
      · rfl
      by_cases hr : rest = []
      · rw [if_pos hr, hr, bind_some]
        cases d.lookup x name <;> rfl
      · rw [if_neg hr]
        cases d.lookup x name with
        | none => rfl
        | some a => exact ih (by omega) (hlast.not.mp hr)

theorem resolve_dir (h : d.resolve true fuel x path = some (y, n)) : (d.dinode y).type = .dir := by
  induction fuel generalizing x path with
  | zero => cases h
  | succ fuel ih =>
    unfold resolve at h
    split at h
    · cases h
    split at h
    · cases h
    split at h
    · rename_i ht _
      cases h
      simpa using ht
    split at h
    · cases h
    · exact ih h

end Disk

namespace Fs

abbrev noInodes : Halt := .panic "iget: no inodes"

variable {P : Type} {sb : Superblock} {s s₀ t : Fs P} {d : Disk} {p : P} {i j : Fin NINODE}
  {H : Multiset (Fin NINODE × Nat)} {K : Finset (Fin NINODE)} {X : Set Nat} {x y n k : Nat} {E : Halt → Prop}
  {α β : Type} {Q : β → Fs P → Prop}

def Room (s₀ : Fs P) (H : Multiset (Fin NINODE × Nat)) : Prop := ∃ i, ¬s₀.Target i ∧ i ∉ H.map Prod.fst

theorem Room.mono {H' : Multiset (Fin NINODE × Nat)} (h : Room s₀ H) (hH : H' ≤ H) : Room s₀ H' := by
  obtain ⟨i, ht, hi⟩ := h
  exact ⟨i, ht, fun hm => hi (mem_of_le (map_le_map hH) hm)⟩

theorem look_ends {f : Fs P → Except Halt (α × Fs P)} {g : α → FsProg P β} {A : Fs P → Prop} {v : α}
    (hf : ∀ s, A s → f s = .ok (v, s)) (hg : (g v).Ends A Q E) : (Prog.op f >>= g).Ends A Q E := by
  refine Prog.Ends.bind (R := fun a s => a = v ∧ A s) (.op (fun s a t hs hr => ?_) fun s e hs hr => ?_) fun a => ?_
  · rw [hf s hs] at hr
    cases hr
    exact ⟨rfl, hs⟩
  · rw [hf s hs] at hr
    cases hr
  · refine .given (fun _ h => h.1) fun ha => ?_
    rw [ha]
    exact hg.pre fun _ h => h.2

theorem panic_ends {msg : String} {A : Fs P → Prop} {Q : α → Fs P → Prop} (h : E (.panic msg)) :
    (Sys.panic msg : FsProg P α).Ends A Q E :=
  .op (fun _ _ _ _ hr => nomatch hr) fun _ _ _ hr => by
    cases hr
    exact h

def destination (s : Fs P) (p : P) (path : List UInt8) : Option Nat :=
  (s.origin p path).bind fun x => s.disk.follow x (components path)

theorem resolve_destination (hc : components path ≠ []) :
    ((s.resolve p true path).bind fun a => (s.disk.lookup a.1 a.2).map Prod.fst) = s.destination p path := by
  unfold resolve destination
  rw [Option.bind_assoc]
  exact congrArg _ (funext fun x => Disk.resolve_true (Nat.lt_succ_self _) hc)

theorem resolve_dir {r : Nat × List UInt8} (h : s.resolve p true path = some r) : (s.disk.dinode r.1).type = .dir := by
  obtain ⟨x, -, h⟩ := bind_eq_some_iff.mp h
  exact Disk.resolve_dir h

section

variable [Fintype P]

theorem StillBut.unused (h : StillBut X sb p s₀ d H K s) (hr : Room s₀ H) : ∃ i, (s.icache i).ref = 0 := by
  obtain ⟨i, ht, hi⟩ := hr
  have ha : Alone sb p (0 + H) K s := by
    rw [zero_add]
    exact h.alone
  refine ⟨i, Nat.eq_zero_of_not_pos fun hpos => ?_⟩
  rcases ha.target_or_held (by simpa using hpos) with ht' | hm
  · exact ht (h.since.target.mp ht')
  · exact hi (mem_map_of_mem Prod.fst hm)

/-- Inode `y` is in the cache, or there is an entry for it. -/
def Gets (s₀ : Fs P) (H : Multiset (Fin NINODE × Nat)) (y : Nat) : Prop :=
  Room s₀ H ∨ (∃ i, s₀.Target i ∧ (s₀.icache i).inum = y) ∨ ∃ i, (i, y) ∈ H

theorem some_disk {F : Disk → Prop} {g : FsProg P β}
    (h : ∀ d', F d' → g.Ends (Still sb p s₀ d' H K) Q E) : g.Ends (fun s => ∃ d', F d' ∧ Still sb p s₀ d' H K s) Q E :=
  .of_exists fun d' => .given (fun _ hs => hs.1) fun hF => (h d' hF).pre fun _ hs => hs.2

theorem inode_ends {g : Dinode → FsProg P β} (hi : (i, x) ∈ H) (hK : i ∈ K)
    (hg : (g (d.dinode x)).Ends (Still sb p s₀ d H K) Q E) : (Sys.inode i >>= g).Ends (Still sb p s₀ d H K) Q E := by
  refine look_ends (fun s hs => ?_) hg
  rw [(hs.alone.inv.copy_of_lock (hs.alone.lock hK)).1, hs.alone.inum _ hi, hs.since.disk]

def Landed (sb : Superblock) (p : P) (s₀ : Fs P) (d : Disk) (H : Multiset (Fin NINODE × Nat))
    (K : Finset (Fin NINODE)) : Option (Nat × α) → Option (Fin NINODE × α) → Fs P → Prop
  | none, none, t => Still sb p s₀ d H K t
  | some (y, a), some (j, b), t => b = a ∧ Still sb p s₀ d ((j, y) ::ₘ H) K t
  | _, _, _ => False

theorem landed_ends {o : Option (Nat × α)} {g : Option (Fin NINODE × α) → FsProg P β}
    (hnone : o = none → (g none).Ends (Still sb p s₀ d H K) Q E)
    (hsome : ∀ y a j, o = some (y, a) → (g (some (j, a))).Ends (Still sb p s₀ d ((j, y) ::ₘ H) K) Q E)
    (r : Option (Fin NINODE × α)) : (g r).Ends (Landed sb p s₀ d H K o r) Q E := by
  rcases o with - | ⟨y, a⟩ <;> rcases r with - | ⟨j, b⟩
  · exact hnone rfl
  · exact .given (fun _ h => h) False.elim
  · exact .given (fun _ h => h) False.elim
  · refine .given (fun _ h => h.1) fun hb => ?_
    rw [hb]
    exact (hsome y a j rfl).pre fun _ h => h.2

structure Fails (d : Disk) (s₀ : Fs P) (H : Multiset (Fin NINODE × Nat)) (E : Halt → Prop) : Prop where
  full : Room s₀ H ∨ E noInodes
  /-- A directory that ends in the middle of an entry. -/
  read : (∀ x, (d.dinode x).type = .dir → (d.dinode x).size % DIRENT = 0) ∨ E (.panic "dirlookup read")
  /-- An entry that names an inode which is free. -/
  dangling : NoDangling d ∨ E noType

/-- A consistent state in which no call is running, as process `p` finds it: entries name inodes that are allocated,
    and an inode without links is open. -/
structure Consistent (sb : Superblock) (p : P) (s : Fs P) : Prop where
  alone : Alone sb p 0 ∅ s
  cached : s.Cached ∅
  aligned : ∀ x, (s.disk.dinode x).type = .dir → (s.disk.dinode x).size % DIRENT = 0
  named : NoDangling s.disk
  root : (s.disk.dinode ROOTINO).type = .dir
  cwd : ∃ i, (s.proc p).cwd = some i ∧ (s.disk.dinode (s.icache i).inum).type = .dir

def spare (s : Fs P) : Nat := (Finset.univ.filter fun i => (s.icache i).ref = 0).card

theorem Alone.room {G : Multiset (Fin NINODE × Nat)} (h : Alone sb p H K s) (hn : G.card < s.spare) : Room s G := by
  obtain ⟨i, hi, hG⟩ := Finset.exists_mem_notMem_of_card_lt_card
    ((toFinset_card_le (G.map Prod.fst)).trans_lt (by rwa [card_map]))
  exact ⟨i, fun ht => (h.inv.ref_pos_of_target ht).ne' (Finset.mem_filter.mp hi).2, fun hm => hG (mem_toFinset.mpr hm)⟩

theorem Alone.room_own (h : Alone sb p H K s) (hn : 0 < s.spare) : Room s H := by
  obtain ⟨i, hi⟩ := Finset.card_pos.mp hn
  have h0 := (Finset.mem_filter.mp hi).2
  refine ⟨i, fun ht => (h.inv.ref_pos_of_target ht).ne' h0, fun hm => ?_⟩
  obtain ⟨a, ha, rfl⟩ := mem_map.mp hm
  exact (h.ref_pos ha).ne' h0

def Gettable (s : Fs P) (y : Nat) : Prop := 0 < s.spare ∨ ∃ i, 0 < (s.icache i).ref ∧ (s.icache i).inum = y

theorem Alone.gets (h : Alone sb p H K s) (hy : s.Gettable y) : Gets s H y := by
  rcases hy with hn | ⟨i, hr, rfl⟩
  · exact .inl (h.room_own hn)
  · have ha : Alone sb p (0 + H) K s := by
      rw [zero_add]
      exact h
    exact .inr ((ha.target_or_held (by simpa using hr)).imp (fun ht => ⟨i, ht, rfl⟩) fun hm => ⟨i, hm⟩)

theorem Consistent.fails (h : Consistent sb p s) (hn : H.card < s.spare) : Fails s.disk s H fun _ => False :=
  ⟨.inl (h.alone.room hn), .inl h.aligned, .inl h.named⟩

structure Returns (p : P) (s : Fs P) (o : Option Nat) (r : Option (Fin NINODE)) (t : Fs P) : Prop where
  inum : r.map (fun i => (t.icache i).inum) = o
  held : t.held p = r.toList
  disk : t.disk = s.disk

theorem Landed.returns {o : Option (Nat × α)} {r : Option (Fin NINODE × α)} (h : Landed sb p s s.disk 0 ∅ o r t) :
    Returns p s (o.map Prod.fst) (r.map Prod.fst) t := by
  rcases o with - | ⟨y, a⟩ <;> rcases r with - | ⟨j, b⟩
  · exact ⟨rfl, by simpa using h.alone.own.held, h.since.disk⟩
  · exact h.elim
  · exact h.elim
  · obtain ⟨-, h⟩ := h
    refine ⟨?_, by simpa using h.alone.own.held, h.since.disk⟩
    rw [map_some, map_some, map_some, h.alone.inum (j, y) (Multiset.mem_cons_self ..)]

end

variable [DecidableEq P]

theorem dirlookup_buffer {buf : List UInt8} (h : cname buf = cname name) :
    Sys.dirlookup sb p i buf = Sys.dirlookup sb p i name := by
  have hn : nameEq buf = nameEq name := funext fun t => by rw [nameEq, nameEq, h]
  unfold Sys.dirlookup Fs.dirlookup
  rw [hn]

variable [Fintype P]

theorem StillBut.iget_ok (h : StillBut X sb p s₀ d H K s) (hg : Gets s₀ H x) {e : Halt} : s.iget p x ≠ .error e := by
  have hfound : (∃ i, (s.icache i).ref = 0) ∨ ∃ i, 0 < (s.icache i).ref ∧ (s.icache i).inum = x := by
    rcases hg with hr | ⟨i, ht, rfl⟩ | ⟨i, hm⟩
    · exact .inl (h.unused hr)
    · exact .inr ⟨i, h.alone.inv.ref_pos_of_target (h.since.target.mpr ht), h.since.inum i ht⟩
    · exact .inr ⟨i, h.alone.ref_pos hm, h.alone.inum _ hm⟩
  unfold Fs.iget
  split
  · nofun
  · rename_i hmiss
    split
    · nofun
    · rename_i hno
      rcases hfound with ⟨i, hi⟩ | ⟨i, hi⟩
      · exact absurd hi (by simpa using find?_eq_none.mp hno i (mem_finRange i))
      · exact absurd hi (by simpa using find?_eq_none.mp hmiss i (mem_finRange i))

/-! ### Rules -/

theorem iget_ends (hx : x < 2 ^ 16) (hE : Gets s₀ H x ∨ E noInodes) :
    (Prog.op fun s => s.iget p x).Ends (Still sb p s₀ d H K) (fun i => Still sb p s₀ d ((i, x) ::ₘ H) K) E := by
  refine .op (fun s i t hs hr => hs.iget hx hr) fun s e hs hr => ?_
  rw [iget_error hr]
  exact hE.resolve_left fun hg => hs.iget_ok hg hr

theorem ilock_ends (hi : (i, x) ∈ H) (hK : i ∉ K ∨ E (.wait .ilock i)) (hf : (d.dinode x).type ≠ .free ∨ E noType) :
    (Sys.ilock p i).Ends (Still sb p s₀ d H K) (fun _ => Still sb p s₀ d H (insert i K)) E := by
  refine .op (fun s _ t hs hr => hs.ilock (.inl (hs.alone.mem hi)) (fun _ => .inl) hr) fun s e hs hr => ?_
  rcases ilock_error hr with ⟨-, h0⟩ | ⟨rfl, hl⟩ | ⟨rfl, ht⟩
  · exact absurd h0 (hs.alone.ref_pos hi).ne'
  · exact hK.resolve_left fun hK => hl (hs.alone.lock_none hK)
  · refine hf.resolve_left fun hne => hne ?_
    rwa [typeOf, hs.since.disk, hs.alone.inum _ hi] at ht

theorem iunlock_ends (hK : i ∈ K) :
    (Sys.iunlock p i).Ends (Still sb p s₀ d H K) (fun _ => Still sb p s₀ d H (K.erase i)) E := by
  refine .op (fun s _ t hs hr => hs.iunlock hr) fun s e hs hr => ?_
  have hl := hs.alone.lock hK
  have hpos := hs.alone.inv.ref_pos_of_lock hl
  rcases (iunlock_error hr).2 with h | h
  · exact absurd hl h
  · omega

theorem iput_put (hK : i ∉ K ∨ E (.wait .iput i)) : (Sys.iput p i).Ends (Still sb p s₀ d ((i, x) ::ₘ H) K)
    (fun _ s => ∃ d', Put sb s₀ H x d d' ∧ Still sb p s₀ d' H K s) E := by
  refine Prog.Ends.bind (.op (fun s _ t hs hr => hs.iputTest hr) fun s e hs hr => ?_) fun _ =>
    .op (fun s _ t ⟨d', hp, hs, hl, hk⟩ hr => ⟨d', hp, hs.iputDrop hl hk hr⟩) fun s e _ hr => nomatch hr
  obtain ⟨rfl, hl⟩ := iputTest_error hs.alone.inv hr
  exact hK.resolve_left fun hK => hl (hs.alone.lock_none hK)

theorem iunlockput_put (hK : i ∈ K) : (Sys.iunlockput p i).Ends (Still sb p s₀ d ((i, x) ::ₘ H) K)
    (fun _ s => ∃ d', Put sb s₀ H x d d' ∧ Still sb p s₀ d' H (K.erase i) s) E :=
  .bind (iunlock_ends hK) fun _ => iput_put (.inl (Finset.notMem_erase i K))

theorem iput_ends (hK : i ∉ K ∨ E (.wait .iput i))
    (ha : (d.dinode x).type ≠ .free → (d.dinode x).nlink = 0 → Anchored s₀ H x) :
    (Sys.iput p i).Ends (Still sb p s₀ d ((i, x) ::ₘ H) K) (fun _ => Still sb p s₀ d H K) E := by
  refine (iput_put hK).post fun _ s hs => ?_
  obtain ⟨d', hp | ⟨hd, -⟩, hs⟩ := hs
  · exact hs
  · exact absurd (ha hd.1 hd.2.1) hd.2.2

theorem iunlockput_ends (hK : i ∈ K) (ha : (d.dinode x).type ≠ .free → (d.dinode x).nlink = 0 → Anchored s₀ H x) :
    (Sys.iunlockput p i).Ends (Still sb p s₀ d ((i, x) ::ₘ H) K) (fun _ => Still sb p s₀ d H (K.erase i)) E :=
  .bind (iunlock_ends hK) fun _ => iput_ends (.inl (Finset.notMem_erase i K)) ha

theorem dirlookup_ends (hi : (i, x) ∈ H) (hK : i ∈ K) (ht : (d.dinode x).type = .dir)
    (hread : (d.dinode x).size % DIRENT = 0 ∨ E (.panic "dirlookup read"))
    (hfull : (∀ y k, d.lookup x name = some (y, k) → Gets s₀ H y) ∨ E noInodes) :
    (Sys.dirlookup sb p i name).Ends (Still sb p s₀ d H K)
      (Landed sb p s₀ d H K ((d.lookup x name).map fun a => (a.1, a.2 * DIRENT))) E := by
  refine .op (fun s r t hs hr => ?_) fun s e hs hr => ?_
  · have hx := hs.alone.inum _ hi
    obtain ⟨-, hres⟩ := dirlookup_inv hs.alone.inv (hs.alone.lock hK) hr
    rcases hres with ⟨rfl, rfl, hno⟩ | ⟨j, k, y, rfl, he, hb, hg⟩
    · rw [hs.since.disk, hx] at hno
      rw [Disk.lookup_none hno]
      exact hs
    · rw [hs.since.disk, hx] at he hb
      rw [Disk.lookup_some he hb]
      exact ⟨rfl, hs.iget (Disk.ent_lt he) hg⟩
  · have hx : (s.disk.dinode (s.icache i).inum) = d.dinode x := by rw [hs.since.disk, hs.alone.inum _ hi]
    rcases dirlookup_error hs.alone.inv (hs.alone.lock hK) hr with ⟨-, hne⟩ | ⟨rfl, hal⟩ | ⟨k, y, he, hb, hy⟩
    · rw [typeOf, hx] at hne
      exact absurd ht hne
    · rw [hx] at hal
      exact hread.resolve_left hal
    · rw [hs.since.disk, hs.alone.inum _ hi] at he hb
      rw [iget_error hy]
      refine hfull.resolve_left fun hg => hs.iget_ok (hg y k ?_) hy
      exact Disk.lookup_some he hb

theorem dirlookup_bind {g : Option (Fin NINODE × Nat) → FsProg P β} (hi : (i, x) ∈ H) (hK : i ∈ K)
    (ht : (d.dinode x).type = .dir) (hE : Fails d s₀ H E)
    (hnone : d.lookup x name = none → (g none).Ends (Still sb p s₀ d H K) Q E)
    (hsome : ∀ y k j, d.lookup x name = some (y, k) →
      (g (some (j, k * DIRENT))).Ends (Still sb p s₀ d ((j, y) ::ₘ H) K) Q E) :
    (Sys.dirlookup sb p i name >>= g).Ends (Still sb p s₀ d H K) Q E := by
  refine .bind (dirlookup_ends hi hK ht (hE.read.imp (· x ht) id) (hE.full.imp (fun h _ _ _ => .inl h) id))
    (landed_ends (fun ho => ?_) fun y a j ho => ?_)
  · exact hnone (map_eq_none_iff.mp ho)
  · obtain ⟨⟨y', k⟩, hlk, he⟩ := map_eq_some_iff.mp ho
    cases he
    exact hsome y' k j hlk

/-! ### The loop of namex -/

theorem namexFrom_ends {parent : Bool} (hE : ∀ i x, Fails d s₀ ((i, x) ::ₘ H) E) (ha : AllAnchored d s₀ H)
    (hx : (d.dinode x).type ≠ .free ∨ E noType) (hf : path.length < fuel) :
    (Sys.namexFrom sb p parent fuel i path).Ends (Still sb p s₀ d ((i, x) ::ₘ H) ∅)
      (Landed sb p s₀ d H ∅ (d.resolve parent fuel x path)) E := by
  induction fuel generalizing i x path with
  | zero => omega
  | succ fuel ih =>
    have hi : (i, x) ∈ (i, x) ::ₘ H := Multiset.mem_cons_self ..
    have hK : i ∈ insert i (∅ : Finset (Fin NINODE)) := Finset.mem_insert_self i ∅
    unfold Sys.namexFrom Disk.resolve
    cases hsk : skipelem path with
    | none =>
      simp only
      split
      · exact .bind (iput_ends (.inl (Finset.notMem_empty i)) (ha x)) fun _ => .pure fun s hs => hs
      · exact .pure fun s hs => ⟨rfl, hs⟩
    | some e =>
      obtain ⟨name, rest⟩ := e
      have hlen := skipelem_length hsk
      simp only
      refine .bind (ilock_ends hi (.inl (Finset.notMem_empty i)) hx) fun _ => inode_ends hi hK ?_
      have hput : (Sys.iunlockput p i >>= fun _ => pure none).Ends (Still sb p s₀ d ((i, x) ::ₘ H) (insert i ∅))
          (Landed sb p s₀ d H ∅ (none : Option (Nat × List UInt8))) E :=
        .bind (iunlockput_ends hK (ha x)) fun _ => .pure fun s hs => by simpa [Landed] using hs
      split
      · exact hput
      rename_i ht
      have ht : (d.dinode x).type = .dir := by simpa using ht
      split
      · refine .bind (iunlock_ends hK) fun _ => .pure fun s hs => ⟨rfl, ?_⟩
        simpa using hs
      refine dirlookup_bind hi hK ht (hE i x) (fun hlk => ?_) fun y k j hlk => ?_
      · rw [hlk]
        exact hput
      · rw [hlk, cons_swap]
        refine .bind (iunlockput_ends hK fun h1 h2 => (ha x h1 h2).mono (le_cons_self ..)) fun _ => ?_
        rw [Finset.erase_insert (Finset.notMem_empty i)]
        exact ih ((hE i x).dangling.imp (fun h => h x k _ y (Disk.ent_of_lookup hlk)) id) (by omega)

theorem namex_ends {parent : Bool} (hE : ∀ i x, Fails d s₀ ((i, x) ::ₘ H) E) (ha : AllAnchored d s₀ H)
    (hroot : (d.dinode ROOTINO).type ≠ .free ∨ E noType)
    (hcwd : ∀ i, (s₀.proc p).cwd = some i → (d.dinode (s₀.icache i).inum).type ≠ .free ∨ E noType)
    (hnone : (s₀.proc p).cwd ≠ none ∨ E (.panic "idup")) : (Sys.namex sb p parent path).Ends (Still sb p s₀ d H ∅)
      (Landed sb p s₀ d H ∅ ((s₀.origin p path).bind fun x => d.resolve parent (path.length + 1) x path)) E := by
  have hfull : Gets s₀ H ROOTINO ∨ E noInodes := (hE ⟨0, by decide⟩ 0).full.imp (.inl <| ·.mono (le_cons_self ..)) id
  unfold Sys.namex origin
  simp only
  split
  · exact .bind (iget_ends (by decide) hfull) fun i => namexFrom_ends hE ha hroot (Nat.lt_succ_self _)
  cases hc : (s₀.proc p).cwd with
  | none =>
    have hE := hnone.resolve_left (· hc)
    refine Prog.Ends.bind (R := fun _ _ => False) (.op (fun s j t hs hr => ?_) fun s e hs hr => ?_) fun j s hs =>
      hs.elim
    · rw [hs.since.proc, hc] at hr
      cases hr
    · rw [hs.since.proc, hc] at hr
      cases hr
      exact hE
  | some i =>
  refine Prog.Ends.bind (R := fun j s => j = i ∧ Still sb p s₀ d ((i, (s₀.icache i).inum) ::ₘ H) ∅ s)
    (.op (fun s j t hs hr => ?_) fun s e hs hr => ?_) fun j => .given (fun _ h => h.1) fun hj => ?_
  · rw [hs.since.proc, hc] at hr
    obtain ⟨⟨_, u⟩, hu, hr⟩ := Except.bind_eq_ok.mp hr
    cases hr
    exact ⟨rfl, hs.idupCwd hc hu⟩
  · rw [hs.since.proc, hc] at hr
    rcases Except.bind_eq_error.mp hr with hr | ⟨_, -, hr⟩ <;> cases hr
  · rw [hj]
    exact (namexFrom_ends hE ha (hcwd i hc) (Nat.lt_succ_self _)).pre fun _ h => h.2

/-! ### Consistent states -/

/-- `nameiparent`, and a lookup of the name in the directory it returns, as in `create`, `link` and `unlink`. -/
def parentLookup (sb : Superblock) (p : P) (path : List UInt8) : FsProg P (Option (Fin NINODE)) := do
  match ← Sys.nameiparent sb p path with
  | none => pure none
  | some (dp, name) => do
    Sys.ilock p dp
    let r ← Sys.dirlookup sb p dp name
    Sys.iunlockput p dp
    pure (r.map (·.1))

theorem Consistent.namex_ends {parent : Bool} (h : Consistent sb p s) (hn : 1 < s.spare) :
    (Sys.namex sb p parent path).Ends (Still sb p s s.disk 0 ∅) (Landed sb p s s.disk 0 ∅ (s.resolve p parent path))
      fun _ => False := by
  obtain ⟨i, hc, ht⟩ := h.cwd
  exact Fs.namex_ends (fun _ _ => h.fails (by simpa using hn)) (still_start h.alone h.cached).allAnchored
    (.inl (by rw [h.root]; nofun)) (fun j hj => .inl (by cases hc.symm.trans hj; rw [ht]; nofun))
    (.inl (by rw [hc]; nofun))

theorem namei_returns (h : Consistent sb p s) (hn : 1 < s.spare) :
    ∃ r t, (Sys.namei sb p path).run s = .ok (r, t) ∧ Returns p s (s.destination p path) r t := by
  refine Prog.Ends.returns (.bind (h.namex_ends hn) fun r => .pure fun t ht => ?_) (still_start h.alone h.cached)
  have := ht.returns
  unfold resolve at this
  simpa [Disk.resolve_false (Nat.lt_succ_self _), comp_def, Option.map_bind, destination] using this

theorem parentLookup_returns (h : Consistent sb p s) (hn : 1 < s.spare) (hc : components path ≠ []) :
    ∃ r t, (parentLookup sb p path).run s = .ok (r, t) ∧ Returns p s (s.destination p path) r t := by
  have ha := (still_start h.alone h.cached).allAnchored
  have hdest := resolve_destination (s := s) (p := p) hc
  refine Prog.Ends.returns (.bind (h.namex_ends hn) (landed_ends (fun ho => ?_) fun y name j ho => ?_))
    (still_start h.alone h.cached)
  · rw [ho] at hdest
    rw [← hdest]
    exact .pure fun t ht => ⟨rfl, by simpa using ht.alone.own.held, ht.since.disk⟩
  rw [ho] at hdest
  rw [← hdest, bind_some]
  have ht : (s.disk.dinode y).type = .dir := resolve_dir ho
  have hj : (j, y) ∈ (j, y) ::ₘ (0 : Multiset (Fin NINODE × Nat)) := Multiset.mem_cons_self ..
  have hK : j ∈ insert j (∅ : Finset (Fin NINODE)) := Finset.mem_insert_self j ∅
  refine .bind (ilock_ends hj (.inl (Finset.notMem_empty j)) (.inl (by rw [ht]; nofun))) fun _ =>
    dirlookup_bind hj hK ht (h.fails (by simpa using hn)) (fun hlk => ?_) fun z k i hlk => ?_
  · rw [hlk]
    refine .bind (iunlockput_ends hK (ha y)) fun _ => .pure fun t ht => ?_
    exact ⟨rfl, by simpa using ht.alone.own.held, ht.since.disk⟩
  · rw [hlk, cons_swap]
    refine .bind (iunlockput_ends hK fun h1 h2 => (ha y h1 h2).mono (le_cons_self ..)) fun _ => .pure fun t ht => ?_
    refine ⟨?_, by simpa using ht.alone.own.held, ht.since.disk⟩
    simpa using ht.alone.inum (i, z) (Multiset.mem_cons_self ..)

/-- `skipelem` yields the components of the path, whatever its buffer held, and `dirlookup` takes from the buffer the
    component alone. If two entries of the inode cache are not in use, `namei` returns the inode that the components
    lead to, or 0 if there is none, and so does a lookup in the directory that `nameiparent` returns. -/
theorem path_resolution (path name : List UInt8) (i : Fin NINODE) (hpath : 0 ∉ path) :
    (∀ buf, elements (path.length + 1) buf path = some (components path)) ∧
    (∀ buf : List UInt8, cname buf = cname name → Sys.dirlookup sb p i buf = Sys.dirlookup sb p i name) ∧
    ∀ s : Fs P, Consistent sb p s → 1 < s.spare →
      (∃ r t, (Sys.namei sb p path).run s = .ok (r, t) ∧ Returns p s (s.destination p path) r t) ∧
      (components path ≠ [] →
        ∃ r t, (parentLookup sb p path).run s = .ok (r, t) ∧ Returns p s (s.destination p path) r t) :=
  ⟨fun _ => elements_eq hpath (Nat.lt_succ_self _), fun _ => dirlookup_buffer, fun _ hs hn =>
    ⟨namei_returns hs hn, parentLookup_returns hs hn⟩⟩

theorem boot_consistent (hb : 0 < sb.nblocks) (hi : 1 < sb.ninodes) : Consistent sb p (boot sb p) where
  alone := ⟨(boot_booted hb hi p).inv, ⟨rfl, fun _ => by simp [boot]⟩, nofun, fun _ _ => rfl, fun _ _ _ => nofun,
    ⟨fun x => by by_cases hx : x = ROOTINO <;> simp [boot, Disk.rootOnly, hx, CInt.wrap], fun _ => nofun⟩, rfl⟩
  cached x _ hx h0 := by
    have hx : x = ROOTINO := Disk.rootOnly_eq_root hx
    simp [boot, Disk.rootOnly, hx] at h0
  aligned := (Disk.rootOnly_consistent hb hi).aligned
  named := (Disk.rootOnly_consistent hb hi).named
  root := (Disk.rootOnly_consistent hb hi).root.1
  cwd := ⟨0, if_pos rfl, (Disk.rootOnly_consistent hb hi).root.1⟩

/-- In the system as it starts, "//.//../" is the root directory, and so it is for `nameiparent`. -/
theorem path_resolution_dots : ∃ r t, (Sys.namei smallDisk (0 : Fin 2) [47, 47, 46, 47, 47, 46, 46, 47]).run
      (boot smallDisk 0) = .ok (r, t) ∧ Returns 0 (boot smallDisk 0) (some ROOTINO) r t := by
  have hs : Consistent smallDisk (0 : Fin 2) (boot smallDisk 0) := boot_consistent (by decide) (by decide)
  have h := ((path_resolution [47, 47, 46, 47, 47, 46, 46, 47] [] 0 (by decide)).2.2 _ hs (by decide +kernel)).1
  rwa [show (boot smallDisk (0 : Fin 2)).destination 0 [47, 47, 46, 47, 47, 46, 46, 47] =
    some ROOTINO by decide +kernel] at h

/-! ### A full inode cache -/

/-- A disk with room for many inodes. -/
def manyInodes : Superblock where
  size := 52
  nblocks := 10
  ninodes := 64
  nblocks_lt := by decide
  size_le := by decide
  ninodes_le := by decide

/-- The disk with the root directory and an empty directory without links, -/
def emptyDir : Disk := (Disk.rootOnly manyInodes).iupdate 2 (.blank .dir)

def writeDots : Except Halt (Option Nat × Dinode × Disk) :=
  Disk.writei manyInodes emptyDir 2 (emptyDir.dinode 2) 0 (mkDirent 2 Sys.dot ++ mkDirent ROOTINO Sys.dotdot)

/-- that has got its entries "." and "..", -/
def unlinkedDir : Disk := (writeDots.toOption.map fun r => r.2.2).getD emptyDir

/-- and `n` devices without links. -/
def orphans : Nat → Disk
  | 0 => unlinkedDir
  | n + 1 => (orphans n).iupdate (n + 3) (.blank .dev)

theorem rootOnly_ok : (Disk.rootOnly manyInodes).Ok manyInodes := by
  have h : (Disk.rootOnly manyInodes).Consistent manyInodes := Disk.rootOnly_consistent (by decide) (by decide)
  exact h.blocks.ok h.meta_used

theorem emptyDir_ok : emptyDir.Ok manyInodes := by
  refine rootOnly_ok.iupdate_empty (fun k _ => ?_) (fun _ _ => rfl) rfl
  rw [Disk.rootOnly_ne (by decide)]

theorem unlinkedDir_kept : emptyDir.Kept manyInodes 2 unlinkedDir := by
  have hok : writeDots.toOption.isSome = true := by decide +kernel
  cases hw : writeDots with
  | error e =>
    rw [hw] at hok
    cases hok
  | ok r =>
    have hd : unlinkedDir = r.2.2 := by
      rw [unlinkedDir, hw]
      rfl
    rw [hd]
    exact (Disk.writei_ok emptyDir_ok (.inl rfl) (by decide) hw).1

theorem unlinkedDir_dinode (hx : x ≠ 2) : unlinkedDir.dinode x = (Disk.rootOnly manyInodes).dinode x :=
  (unlinkedDir_kept.dinode x hx).trans (update_of_ne hx ..)

theorem orphans_dinode : (orphans n).dinode x = if 3 ≤ x ∧ x < n + 3 then .blank .dev else unlinkedDir.dinode x := by
  induction n with
  | zero => rw [orphans, if_neg (by omega)]
  | succ n ih =>
    by_cases hx : x = n + 3
    · subst hx
      rw [if_pos (by omega)]
      exact update_self ..
    · rw [show (orphans (n + 1)).dinode x = (orphans n).dinode x from update_of_ne hx .., ih]
      exact if_congr (by omega) rfl rfl

theorem orphans_data : (orphans n).data = unlinkedDir.data := by
  induction n with
  | zero => rfl
  | succ n ih => exact ih

theorem orphans_ok : (orphans n).Ok manyInodes := by
  induction n with
  | zero => exact unlinkedDir_kept.ok
  | succ n ih =>
    refine ih.iupdate_empty (fun k _ => ?_) (fun _ _ => rfl) rfl
    rw [orphans_dinode, if_neg (by omega), unlinkedDir_dinode (by omega),
      Disk.rootOnly_ne (by simp only [ROOTINO]; omega)]

theorem orphans_ent (h : (orphans n).ent x k = some (name, y)) : y = ROOTINO ∨ y = 2 := by
  by_cases hx : 3 ≤ x ∧ x < n + 3
  · rw [Disk.ent_of_not_dir (by rw [orphans_dinode, if_pos hx]; nofun)] at h
    cases h
  rw [Disk.ent_congr (d := unlinkedDir) unlinkedDir_kept.ok (by rw [orphans_dinode, if_neg hx])
    fun _ _ _ => by rw [orphans_data]] at h
  by_cases h2 : x = 2
  · subst h2
    have hsize : (unlinkedDir.dinode 2).size = 32 := by decide +kernel
    have hk := Disk.ent_size h
    rw [hsize, DIRENT] at hk
    have h01 : unlinkedDir.ent 2 0 = some (Sys.dot, 2) ∧ unlinkedDir.ent 2 1 = some (Sys.dotdot, ROOTINO) := by
      decide +kernel
    obtain rfl | rfl : k = 0 ∨ k = 1 := by omega
    · cases h01.1.symm.trans h
      exact .inr rfl
    · cases h01.2.symm.trans h
      exact .inl rfl
  · have he : emptyDir.ent x k = (Disk.rootOnly manyInodes).ent x k :=
      Disk.ent_congr rootOnly_ok (update_of_ne h2 ..) fun _ _ _ => rfl
    rw [unlinkedDir_kept.ent emptyDir_ok h2, he] at h
    exact .inl (Disk.rootOnly_ent_some h).2.1

/-- Four processes have the 49 devices open, and inode 2 is their current directory. All have been unlinked. -/
def crowded : Fs (Fin 4) where
  disk := orphans 49
  icache i := {
    inum := i + 2, ref := if i = 0 then 4 else 1, lock := none, valid := true, d := (orphans 49).dinode (i + 2) }
  ftable f :=
    if h : f.val + 1 < NINODE
      then { type := .inode, ref := 1, readable := true, writable := true, ip := ⟨f + 1, h⟩, off := 0 }
    else { type := .none, ref := 0, readable := false, writable := false, ip := 0, off := 0 }
  proc q := {
    ofile := fun fd =>
      if h : q.val * NOFILE + fd + 1 < NINODE
        then some ⟨q * NOFILE + fd, Nat.lt_trans (Nat.lt_of_succ_lt h) (by decide)⟩
      else none
    cwd := some 0
    put := false }
  held _ := []
  born _ := 0
  clock := 1

theorem crowded_inv : InvIf False manyInodes crowded where
  disk := orphans_ok
  uniq i j _ _ h := Fin.ext (by simpa [crowded] using h)
  inum_lt i _ := by
    have := i.isLt
    simp only [crowded, NINODE] at *
    omega
  copy i _ _ := by
    have htype : ∀ i, crowded.typeOf i ≠ .free := by decide +kernel
    exact ⟨rfl, htype i⟩
  refs := by decide +kernel
  locked _ _ h := by cases h
  files := by decide +kernel
  unused := by decide +kernel
  opening := by decide +kernel
  writable := False.elim
  order := False.elim
  born_lt _ := Nat.one_pos

theorem crowded_dinode (x : Nat) : (∃ i : Fin NINODE, x = i + 2 ∧ (x = 2 ∨ crowded.disk.dinode x = .blank .dev)) ∨
    crowded.disk.dinode x = (Disk.rootOnly manyInodes).dinode x := by
  rw [show crowded.disk = orphans 49 from rfl, orphans_dinode]
  by_cases h2 : x = 2
  · exact .inl ⟨0, h2, .inl h2⟩
  · split
    · exact .inl ⟨⟨x - 2, by simp only [NINODE]; omega⟩, by simp only; omega, .inr rfl⟩
    · exact .inr (unlinkedDir_dinode h2)

theorem crowded_consistent : Consistent manyInodes 0 crowded where
  alone := by
    refine ⟨crowded_inv, ⟨rfl, fun _ => by simp [crowded]⟩, nofun, fun _ _ => rfl, fun _ _ _ => nofun,
      ⟨fun x => ?_, by decide +kernel⟩, rfl⟩
    rcases crowded_dinode x with ⟨-, -, rfl | hx⟩ | hx
    · decide +kernel
    · rw [hx]
      rfl
    · rw [hx]
      have hb : Consistent manyInodes (0 : Fin 4) (boot manyInodes 0) := boot_consistent (by decide) (by decide)
      exact hb.alone.typed.nlink x
  cached x _ hx h0 := by
    rcases crowded_dinode x with ⟨i, rfl, -⟩ | hr
    · exact ⟨i, rfl, by simp only [crowded]; split <;> decide, rfl⟩
    · rw [hr] at hx h0
      have hx : x = ROOTINO := Disk.rootOnly_eq_root hx
      simp [Disk.rootOnly, hx] at h0
  aligned x hx := by
    rcases crowded_dinode x with ⟨-, -, rfl | hi⟩ | hr
    · decide +kernel
    · rw [hi]
      rfl
    · rw [hr] at hx ⊢
      exact (Disk.rootOnly_consistent (by decide) (by decide)).aligned x hx
  named x k n y he := by
    obtain rfl | rfl := orphans_ent he <;> decide +kernel
  root := by decide +kernel
  cwd := ⟨0, rfl, by decide +kernel⟩

/-- With every entry of the inode cache in use, `namei` panics where the root directory is to be found. -/
theorem namei_full : Consistent manyInodes 0 crowded ∧ crowded.destination 0 [47] = some ROOTINO ∧
    (Sys.namei manyInodes 0 [47]).run crowded = .error (.panic "iget: no inodes") := by
  refine ⟨crowded_consistent, by decide +kernel, ?_⟩
  have hno : (finRange NINODE).find? (fun i => 0 < (crowded.icache i).ref ∧ (crowded.icache i).inum = ROOTINO) =
    none := by
    decide +kernel
  have hfull : (finRange NINODE).find? (fun i => (crowded.icache i).ref = 0) = none := by decide +kernel
  have hg : crowded.iget 0 ROOTINO = .error (.panic "iget: no inodes") := by
    unfold iget
    rw [hno, hfull]
  unfold Sys.namei Sys.namex
  rw [Prog.run_bind]
  simp only
  rw [if_pos (show ([47] : List UInt8).head? = some 47 from rfl), Prog.run_bind, Prog.run_op, hg]
  rfl

end Fs

end Xv6
