import Xv6.Theorems.Fs.Path
import Xv6.Theorems.Fs.Space

/-! Directories as finite maps from names to inodes: what `dirlookup`, `dirlink` and `unlink` are to the map, after
    any history of them. -/

namespace Xv6
open Finset Function

theorem mkDirent_mod (n : Nat) (name : List UInt8) : mkDirent (n % 2 ^ 16) name = mkDirent n name := by
  have h0 : UInt8.ofNat (n % 2 ^ 16) = UInt8.ofNat n := UInt8.toNat_inj.mp (by simp only [UInt8.toNat_ofNat']; omega)
  have h1 : UInt8.ofNat (n % 2 ^ 16 / 256) = UInt8.ofNat (n / 256) :=
    UInt8.toNat_inj.mp (by simp only [UInt8.toNat_ofNat']; omega)
  rw [mkDirent, h0, h1]
  rfl

/-! ### The map -/

namespace Disk

variable {sb : Superblock} {d d₀ d' : Disk} {ip : Dinode} {x y z k n : Nat} {name : List UInt8}
  {e : Nat → Option (List UInt8 × Nat)} {a : Option (List UInt8 × Nat)} {r : List UInt8 × Nat}

def Distinct (d : Disk) (x : Nat) : Prop :=
  ∀ k k' n y y', d.ent x k = some (n, y) → d.ent x k' = some (n, y') → k = k'

theorem distinct_of_none (h : ∀ k, d.ent x k = none) : d.Distinct x := fun k _ _ _ _ he => by
  rw [h k] at he
  cases he

theorem Distinct.lookup_iff (h : d.Distinct x) : d.lookup x name = some (y, k) ↔ d.ent x k = some (cname name, y) :=
  ⟨ent_of_lookup, fun he => lookup_some he fun k' hk' _ he' => hk'.ne (h k' k _ _ _ he' he)⟩

theorem Distinct.set (h : d.Distinct x) (hent : ∀ k', d'.ent x k' = if k' = k then a else d.ent x k')
    (ha : ∀ n y, a = some (n, y) → ∀ k' y', d.ent x k' ≠ some (n, y')) : d'.Distinct x := by
  intro k₁ k₂ n y₁ y₂ h₁ h₂
  rw [hent] at h₁ h₂
  by_cases hk₁ : k₁ = k <;> by_cases hk₂ : k₂ = k
  · rw [hk₁, hk₂]
  · rw [if_pos hk₁] at h₁
    rw [if_neg hk₂] at h₂
    exact absurd h₂ (ha n y₁ h₁ k₂ y₂)
  · rw [if_neg hk₁] at h₁
    rw [if_pos hk₂] at h₂
    exact absurd h₁ (ha n y₂ h₂ k₁ y₁)
  · rw [if_neg hk₁] at h₁
    rw [if_neg hk₂] at h₂
    exact h k₁ k₂ n y₁ y₂ h₁ h₂

theorem Distinct.congr (h : d.Distinct x) (hent : ∀ k, d'.ent x k = d.ent x k) : d'.Distinct x :=
  fun k k' n y y' h₁ h₂ => h k k' n y y' (by rw [← hent]; exact h₁) (by rw [← hent]; exact h₂)

/-- Directory `x` has the entries `e`. Its type has not changed, nor its size if that was a number of entries. -/
structure Entries (d₀ : Disk) (x : Nat) (e : Nat → Option (List UInt8 × Nat)) (d : Disk) : Prop where
  type : (d.dinode x).type = (d₀.dinode x).type
  size : (d₀.dinode x).size % DIRENT = 0 → (d.dinode x).size = (d₀.dinode x).size
  ent : ∀ k, d.ent x k = e k

theorem Entries.iupdate (h : Entries d₀ x e d) (hok : d.Ok sb) (ht : ip.type = (d.dinode z).type)
    (hs : ip.size = (d.dinode z).size) (ha : ip.addrs = (d.dinode z).addrs) : Entries d₀ x e (d.iupdate z ip) := by
  have hf : ((d.iupdate z ip).dinode x).type = (d.dinode x).type ∧
    ((d.iupdate z ip).dinode x).size = (d.dinode x).size := by
    by_cases hx : x = z
    · subst hx
      simp [Disk.iupdate, ht, hs]
    · simp [Disk.iupdate, hx]
  exact ⟨hf.1.trans h.type, fun h0 => hf.2.trans (h.size h0), fun k => (ent_iupdate_congr hok ht hs ha).trans (h.ent k)⟩

theorem Entries.freed (h : Entries d₀ x e d) (hok : d.Ok sb) (hf : d.Freed sb z d') (hz : x ≠ z) :
    Entries d₀ x e d' := by
  obtain ⟨m, rfl, -⟩ := hf
  have hi : (({ d with bitmap := m } : Disk).iupdate z
      { d.dinode z with type := .free, size := 0, addrs := fun _ => 0 }).dinode x = d.dinode x :=
    update_of_ne hz ..
  exact ⟨by rw [hi]; exact h.type, fun h0 => by rw [hi]; exact h.size h0, fun k =>
    (ent_congr hok hi fun _ _ _ => rfl).trans (h.ent k)⟩

def without (d : Disk) (y k x k' : Nat) : Option (List UInt8 × Nat) := if x = y ∧ k' = k then none else d.ent x k'

theorem Wrote.entries (h : d.Wrote sb y k none d') (hok : d.Ok sb) (he : d.ent y k = some r) :
    Entries d x (d.without y k x) d' := by
  by_cases hx : x = y
  · subst hx
    refine ⟨h.kept.type x, fun h0 => ?_, fun k' => ?_⟩
    · have := ent_size he
      rw [h.size]
      simp only [DIRENT] at *
      omega
    · rw [h.ent, without]
      simp
  · have hi := h.kept.dinode x hx
    exact ⟨by rw [hi], fun _ => by rw [hi], fun k' => by rw [h.kept.ent hok hx, without, if_neg fun h => hx h.1]⟩

end Disk

namespace Fs

variable {P : Type} {sb : Superblock} {s s₀ t : Fs P} {d d₀ d' : Disk} {p q : P}
  {i j dp ip : Fin NINODE} {H H' : Multiset (Fin NINODE × Nat)} {K K' : Finset (Fin NINODE)} {x y z n k : Nat}
  {name path : List UInt8} {e : Nat → Option (List UInt8 × Nat)} {E : Halt → Prop} {α β : Type}

/-- Directory `x` has the entries `e`, unless it has been freed, when nothing referred to it any more. -/
def Shows (s₀ : Fs P) (H : Multiset (Fin NINODE × Nat)) (d₀ : Disk) (x : Nat) (e : Nat → Option (List UInt8 × Nat))
    (d : Disk) : Prop :=
  ¬Anchored s₀ H x ∧ (d.dinode x).type = .free ∨ d₀.Entries x e d

theorem Shows.iupdate {a : Dinode} (h : Shows s₀ H d₀ x e d) (hok : d.Ok sb) (ht : a.type = (d.dinode z).type)
    (hs : a.size = (d.dinode z).size) (ha : a.addrs = (d.dinode z).addrs) : Shows s₀ H d₀ x e (d.iupdate z a) := by
  refine h.imp (fun hf => ⟨hf.1, ?_⟩) (·.iupdate hok ht hs ha)
  by_cases hx : x = z
  · subst hx
    simp only [Disk.iupdate, update_self]
    rw [ht, hf.2]
  · rw [show (d.iupdate z a).dinode x = d.dinode x from update_of_ne hx .., hf.2]

theorem Shows.put (h : Shows s₀ H d₀ x e d) (hok : d.Ok sb) (hp : Put sb s₀ H' z d d') (hH : H ≤ H') :
    Shows s₀ H d₀ x e d' := by
  obtain - | ⟨hdrop, hf⟩ := hp
  · exact h
  by_cases hx : x = z
  · subst hx
    obtain ⟨m, rfl, -⟩ := hf
    exact .inl ⟨fun ha => hdrop.2.2 (ha.mono hH), by simp [Disk.iupdate]⟩
  · rcases h with ⟨hn, ht⟩ | h
    · obtain ⟨m, rfl, -⟩ := hf
      refine .inl ⟨hn, ?_⟩
      simp only [Disk.iupdate, update_of_ne hx]
      exact ht
    · exact .inr (h.freed hok hf hx)

theorem refused {g : FsProg P α} {A : Fs P → Prop} {F : Fs P → Prop} :
    (g >>= fun _ => pure (-1 : Int)).Ends A (fun r t => r = 0 → F t) fun _ => True :=
  .bind (R := fun _ _ => True) (fun _ _ => ⟨fun _ _ _ => trivial, fun _ _ => trivial⟩) fun _ =>
    .pure fun _ _ h => absurd h (by decide)

theorem ran {g : FsProg P α} {c : α × Fs P → Bool} (h : (g.run s).toOption.map c = some true) :
    ∃ r t, g.run s = .ok (r, t) ∧ c (r, t) = true := by
  cases hr : g.run s with
  | error e =>
    rw [hr] at h
    cases h
  | ok r =>
    rw [hr] at h
    exact ⟨r.1, r.2, rfl, Option.some.inj h⟩

def returning {α : Type} [DecidableEq α] (g : FsProg P α) (a : α) : FsProg P Unit := do
  if (← g) = a then pure () else Sys.panic ""

theorem returning_bind [DecidableEq α] {g : FsProg P α} {a : α} {k : Unit → FsProg P β} {r : β × Fs P}
    (h : (returning g a >>= k).run s = .ok r) : ∃ t, g.run s = .ok (a, t) ∧ (k ()).run t = .ok r := by
  rw [returning, Prog.run_bind, Prog.run_bind] at h
  obtain ⟨⟨_, t⟩, hg, h⟩ := Except.bind_eq_ok.mp h
  obtain ⟨⟨b, u⟩, hb, hg⟩ := Except.bind_eq_ok.mp hg
  split at hg
  · cases hg
    exact ⟨u, by simp_all, h⟩
  · cases hg

def seen (c : Fs P → Bool) : FsProg P Bool := .op fun s => .ok (c s, s)

theorem seen_bind {c : Fs P → Bool} {k : Unit → FsProg P β} {r : β × Fs P}
    (h : (returning (seen c) true >>= k).run s = .ok r) : c s = true ∧ (k ()).run s = .ok r := by
  obtain ⟨t, ht, h⟩ := returning_bind h
  rw [seen, Prog.run_op, Except.ok.injEq, Prod.mk.injEq] at ht
  exact ⟨ht.1, ht.2 ▸ h⟩

section

variable [Fintype P]

theorem StillBut.ok {X : Set Nat} (h : StillBut X sb p s₀ d H K s) : d.Ok sb := by
  have := h.alone.inv.disk
  rwa [h.since.disk] at this

theorem addNlink_ends {n : Int} (hi : (i, x) ∈ H) (hK : i ∈ K) : (Sys.addNlink i n).Ends (Still sb p s₀ d H K)
      (fun _ => Still sb p s₀
      (d.iupdate x { d.dinode x with nlink := CInt.wrap 16 ((d.dinode x).nlink + n) }) H K) E := by
  refine .op (fun s _ t hs hr => ?_) fun _ _ _ hr => nomatch hr
  have hx : (s.icache i).inum = x := hs.alone.inum _ hi
  exact hs.update (g := fun d => { d with nlink := CInt.wrap 16 (d.nlink + n) }) hK hx (fun _ => ⟨rfl, rfl, rfl⟩)
    (fun _ => CInt.wrap_wrap 16 _) hr

end

variable [Fintype P] [DecidableEq P]

/-! ### Rules -/

theorem ilock_bind {g : Unit → FsProg P β} {Q : β → Fs P → Prop} (hi : (i, x) ∈ H) (hK : i ∉ K ∨ E (.wait .ilock i))
    (hf : (d.dinode x).type ≠ .free ∨ E noType) (hg : i ∉ K → (g ()).Ends (Still sb p s₀ d H (insert i K)) Q E) :
    (Sys.ilock p i >>= g).Ends (Still sb p s₀ d H K) Q E := by
  by_cases hm : i ∈ K
  · refine .bind (R := fun _ _ => False) (.op (fun s _ t hs hr => ?_) fun s e hs hr => ?_) fun _ _ h => h.elim
    · have := (ilock_inv hr).2.1
      rw [hs.alone.lock hm] at this
      cases this
    · exact ((ilock_ends hi hK hf).post fun _ _ _ => trivial) s hs |>.2 e (by rw [Sys.ilock, Prog.run_op]; exact hr)
  · exact .bind (ilock_ends hi hK hf) fun _ => hg hm

/-! ### Binding a name -/

theorem dirlink_bound (hi : (i, x) ∈ H) (hK : i ∈ K) (ht : (d.dinode x).type = .dir)
    (hlk : d.lookup x name = some (y, k))
    (ha : AllAnchored d s₀ H) (hread : (d.dinode x).size % DIRENT = 0 ∨ E (.panic "dirlookup read"))
    (hfull : Gets s₀ H y ∨ E noInodes) (hwait : (∀ j ∈ K, ∃ z, (j, z) ∈ H ∧ z ≠ y) ∨ ∀ j, E (.wait .iput j)) :
    (Sys.dirlink sb p i name n).Ends (Still sb p s₀ d H K) (fun r t => r = false ∧ Still sb p s₀ d H K t) E := by
  have hgets : (∀ z l, d.lookup x name = some (z, l) → Gets s₀ H z) ∨ E noInodes := hfull.imp (fun h z l hz => by
    cases hlk.symm.trans hz
    exact h) id
  refine .bind (dirlookup_ends hi hK ht hread hgets) (landed_ends (fun ho => ?_) fun y' a j ho => ?_)
  · rw [hlk] at ho
    cases ho
  rw [hlk] at ho
  cases ho
  refine .given (c := j ∉ K ∨ E (.wait .iput j)) (fun s hs => hwait.imp (fun hw hj => ?_) fun h => h j) fun hj =>
    .bind (iput_ends hj (ha y)) fun _ => .pure fun t ht => ⟨rfl, ht⟩
  obtain ⟨z, hz, hne⟩ := hw j hj
  exact hne ((hs.alone.inum _ (Multiset.mem_cons_of_mem hz)).symm.trans (hs.alone.inum _ (Multiset.mem_cons_self ..)))

def newEntry (name : List UInt8) (n : Nat) : Option (List UInt8 × Nat) :=
  if n % 2 ^ 16 = 0 then none else some (cname name, n % 2 ^ 16)

theorem dirlink_unbound (hi : (i, x) ∈ H) (hK : i ∈ K) (ht : (d.dinode x).type = .dir) (hlk : d.lookup x name = none)
    (hread : (d.dinode x).size % DIRENT = 0 ∨ E (.panic "dirlookup read"))
    (hwrite : ∀ s e, Still sb p s₀ d H K s → s.dirwrite sb i name n = .error e → E e) :
    (Sys.dirlink sb p i name n).Ends (Still sb p s₀ d H K)
      (fun r t => r = true ∧ ∃ k d', d.Wrote sb x k (newEntry name n) d' ∧ d.FirstEmpty x k ∧
      Still sb p s₀ d' H K t) E := by
  refine .bind (dirlookup_ends hi hK ht hread (.inl (by simp [hlk]))) (landed_ends (fun ho => ?_) fun y' a j ho => ?_)
  · refine .bind (R := fun _ t => ∃ k d', d.Wrote sb x k (newEntry name n) d' ∧ d.FirstEmpty x k ∧
      Still sb p s₀ d' H K t) (.op (fun s _ t hs hr => ?_) hwrite) fun _ => .pure fun t ht => ⟨rfl, ht⟩
    refine hs.dirwrite hK (hs.alone.inum _ hi) ht (Nat.mod_lt n (by decide)) ?_
    unfold Fs.dirwrite at hr ⊢
    rwa [mkDirent_mod]
  · rw [hlk] at ho
    cases ho

theorem StillBut.dirwrite_ok (h : Still sb p s₀ d H K s) (hi : (i, x) ∈ H) (hK : i ∈ K) (ht : (d.dinode x).type = .dir)
    (ha : (d.dinode x).size % DIRENT = 0) (hmax : (d.dinode x).size ≠ MAXFILE * BSIZE)
    (hsp : (∃ k, k * DIRENT < (d.dinode x).size ∧ d.ent x k = none) ∨
      Disk.Enough sb (blocksFor ((d.dinode x).size + DIRENT)) (d.dinode x) d) {e : Halt} :
    s.dirwrite sb i name n ≠ .error e := by
  intro hr
  have hl := h.alone.lock hK
  have hx : (s.icache i).inum = x := h.alone.inum _ hi
  have ht' : s.typeOf i = .dir := by
    rw [typeOf, hx, h.since.disk]
    exact ht
  have herr := dirwrite_error h.alone.inv hl ht' hr
  rw [hx, h.since.disk] at herr
  rcases herr with ⟨-, hm⟩ | ⟨k, hk, hw⟩ | ⟨-, hm | hm⟩
  · exact hm ha
  · have hle := hk.le ha
    have hs := h.ok.size_le x (.inl ht)
    have hend : k * DIRENT + DIRENT ≤ MAXFILE * BSIZE := by
      simp only [DIRENT, MAXFILE, NDIRECT, NINDIRECT, BSIZE] at *
      omega
    have hen : Disk.Enough sb (blocksFor (k * DIRENT + DIRENT)) (d.dinode x) d := by
      by_cases hlt : k * DIRENT < (d.dinode x).size
      · exact enough_of_le h.ok (.inl ht) (by simp only [DIRENT] at *; omega)
      · rw [show k * DIRENT = (d.dinode x).size by omega]
        refine hsp.resolve_left ?_
        rintro ⟨k₀, hk₀, hnone⟩
        refine hk.taken k₀ ?_ hnone
        simp only [DIRENT] at *
        omega
    obtain ⟨hN, hNmax⟩ := blocksFor_spec hend
    have hend' : k * DIRENT + (mkDirent n name).length ≤ blocksFor (k * DIRENT + DIRENT) * BSIZE := by
      rw [mkDirent_length]
      exact hN
    obtain ⟨r, t, hok, -⟩ := writei_enough h.alone.inv hl (.inl ht') hNmax hend' (by rw [hx, h.since.disk]; exact hen)
    rw [hok] at hw
    cases hw
  · exact hm ha
  · exact hmax hm

/-! ### Unlinking -/

theorem unlinkPut_ends {e : Nat → Nat → Option (List UInt8 × Nat)} (hne : ip ≠ dp) (hd : ∀ x, Shows s₀ H d₀ x (e x) d) :
    (do Sys.iunlockput p dp; Sys.addNlink ip (-1); Sys.iunlockput p ip; pure (0 : Int) : FsProg P Int).Ends
      (Still sb p s₀ d ((ip, z) ::ₘ (dp, y) ::ₘ H) {ip, dp})
      (fun _ t => ∃ d', (∀ x, Shows s₀ H d₀ x (e x) d') ∧ Still sb p s₀ d' H ∅ t) fun _ => True := by
  have hip : (ip, z) ∈ (ip, z) ::ₘ H := Multiset.mem_cons_self ..
  have hKi : ip ∈ ({ip, dp} : Finset (Fin NINODE)).erase dp := by simp [hne]
  have hlast : (({ip, dp} : Finset (Fin NINODE)).erase dp).erase ip = ∅ := by
    ext j
    simp only [mem_erase, mem_insert, mem_singleton, notMem_empty, iff_false]
    tauto
  rw [Multiset.cons_swap]
  refine .given (fun s hs => hs.ok) fun hok => .bind (iunlockput_put (by simp)) fun _ => some_disk fun d₁ hp => ?_
  have h₁ := fun x => (hd x).put hok hp (Multiset.le_cons_self H (ip, z))
  refine .given (fun s hs => hs.ok) fun hok => .bind (addNlink_ends hip hKi) fun _ => ?_
  have h₂ := fun x => (h₁ x).iupdate (z := z)
    (a := { d₁.dinode z with nlink := CInt.wrap 16 ((d₁.dinode z).nlink + -1) }) hok rfl rfl rfl
  refine .given (fun s hs => hs.ok) fun hok => .bind (iunlockput_put hKi) fun _ => some_disk fun d₃ hp =>
    .pure fun t ht => ?_
  rw [hlast] at ht
  exact ⟨d₃, fun x => (h₂ x).put hok hp le_rfl, ht⟩

theorem unlinkEntry_ends (hne : ip ≠ dp) (ht : (d.dinode y).type = .dir) (he : d.ent y k = some (name, z)) :
    (Sys.unlinkEntry sb p dp ip (k * DIRENT)).Ends (Still sb p s₀ d ((ip, z) ::ₘ (dp, y) ::ₘ H) {ip, dp})
      (fun _ t => ∃ d', (∀ x, Shows s₀ H d x (d.without y k x) d') ∧ Still sb p s₀ d' H ∅ t) fun _ => True := by
  have hip : (ip, z) ∈ (ip, z) ::ₘ (dp, y) ::ₘ H := Multiset.mem_cons_self ..
  have hdp : (dp, y) ∈ (ip, z) ::ₘ (dp, y) ::ₘ H := Multiset.mem_cons_of_mem (Multiset.mem_cons_self ..)
  have hKi : ip ∈ ({ip, dp} : Finset (Fin NINODE)) := by simp
  have hKd : dp ∈ ({ip, dp} : Finset (Fin NINODE)) := by simp
  refine inode_ends hip hKi (.bind (R := fun r s => r = none ∨ ∃ d', (∀ x, Shows s₀ H d x (d.without y k x) d') ∧
    Still sb p s₀ d' ((ip, z) ::ₘ (dp, y) ::ₘ H) {ip, dp} s) (.op (fun s r t hs hr => ?_) fun _ _ _ _ => trivial)
    fun r => ?_)
  · rcases r with - | n
    · exact .inl rfl
    · obtain ⟨d', hw, hs'⟩ := hs.clear hKd (hs.alone.inum _ hdp) ht hr
      exact .inr ⟨d', fun x => .inr (hw.entries hs.ok he), hs'⟩
  split
  · exact panic_ends trivial
  rename_i hr
  have hsome : r ≠ none := fun hn => hr (by rw [hn]; nofun)
  refine (some_disk fun d₁ h₁ => ?_).pre fun s hs => hs.resolve_left hsome
  simp only
  -- The link count of the directory goes down with a directory that was in it.
  split
  · refine .given (fun s hs => hs.ok) fun hok => .bind (addNlink_ends hdp hKd) fun _ => unlinkPut_ends hne fun x => ?_
    exact (h₁ x).iupdate hok rfl rfl rfl
  · exact unlinkPut_ends hne h₁

def Unlinked (sb : Superblock) (p : P) (path : List UInt8) (s₀ : Fs P) (d : Disk) (H : Multiset (Fin NINODE × Nat))
    (t : Fs P) : Prop :=
  ∃ y n z k, ((s₀.origin p path).bind fun x => d.resolve true (path.length + 1) x path) = some (y, n) ∧
    d.ent y k = some (cname n, z) ∧ ∃ d', (∀ x, Shows s₀ H d x (d.without y k x) d') ∧ Still sb p s₀ d' H ∅ t

theorem unlink_ends : (Sys.unlink sb p path).Ends (Still sb p s₀ d H ∅) (fun r t => r = 0 → Unlinked sb p path s₀ d H t)
    fun _ => True := by
  refine .given (fun s hs => hs.allAnchored) fun ha => ?_
  refine .bind (namex_ends (fun _ _ => ⟨.inr trivial, .inr trivial, .inr trivial⟩) ha (.inr trivial)
    (fun _ _ => .inr trivial) (.inr trivial)) (landed_ends (fun ho => ?_) fun y name dp ho => ?_)
  · exact .pure fun _ _ h => absurd h (by decide)
  have ht : (d.dinode y).type = .dir := by
    obtain ⟨x, -, hx⟩ := Option.bind_eq_some_iff.mp ho
    exact Disk.resolve_dir hx
  have hdp : (dp, y) ∈ (dp, y) ::ₘ H := Multiset.mem_cons_self ..
  refine ilock_bind hdp (.inr trivial) (.inr trivial) fun _ => ?_
  split
  · exact refused
  refine dirlookup_bind hdp (mem_insert_self ..) ht ⟨.inr trivial, .inr trivial, .inr trivial⟩ (fun _ => refused)
    fun z k ip hlk => ?_
  have hip : (ip, z) ∈ (ip, z) ::ₘ (dp, y) ::ₘ H := Multiset.mem_cons_self ..
  refine ilock_bind hip (.inr trivial) (.inr trivial) fun hne => inode_ends hip (mem_insert_self ..) ?_
  split
  · exact panic_ends trivial
  have hrest : ∀ b : Bool, Prog.Ends (if b = true then Sys.unlinkEntry sb p dp ip (k * DIRENT)
      else do Sys.iunlockput p ip; Sys.iunlockput p dp; pure (-1))
      (Still sb p s₀ d ((ip, z) ::ₘ (dp, y) ::ₘ H) {ip, dp})
      (fun r t => r = 0 → Unlinked sb p path s₀ d H t) fun _ => True := by
    intro b
    split
    · have he := Disk.ent_of_lookup hlk
      exact (unlinkEntry_ends (by simpa using hne) ht he).post fun r t ht _ => ⟨y, name, z, k, ho, he, ht⟩
    · exact .bind (R := fun _ _ => True) (fun _ _ => ⟨fun _ _ _ => trivial, fun _ _ => trivial⟩) fun _ => refused
  simp only
  split
  · rename_i hdir
    refine .bind (.op (fun s b t hs hr => ?_) fun _ _ _ _ => trivial) hrest
    have hz : s.typeOf ip = .dir := by
      rw [typeOf, show (s.icache ip).inum = z from hs.alone.inum _ hip, hs.since.disk]
      exact hdir
    rw [(isdirempty_inv hs.alone.inv (hs.alone.lock (mem_insert_self ..)) hz hr).1]
    exact hs
  · exact .bind (.pure fun _ hs => hs) hrest

/-! ### Histories -/

/-- Directory `x` after a history that starts with it empty: successful calls of `dirlink`, on any directory, and of
    `unlink`, on any path, and anything else that keeps its entries. Process `p` has the references `H` and holds the
    locks `K`. -/
inductive Reached (sb : Superblock) (x : Nat) : P → Multiset (Fin NINODE × Nat) → Finset (Fin NINODE) → Fs P → Prop
  | fresh {p : P} {H : Multiset (Fin NINODE × Nat)} {K : Finset (Fin NINODE)} {s : Fs P} (ha : Alone sb p H K s)
      (hc : s.Cached ∅) (ht : (s.disk.dinode x).type = .dir) (h0 : (s.disk.dinode x).size = 0) : Reached sb x p H K s
  | dirlink {p : P} {H : Multiset (Fin NINODE × Nat)} {K : Finset (Fin NINODE)} {s t : Fs P} {i : Fin NINODE} {y n :
      Nat}
      {name : List UInt8} (h : Reached sb x p H K s) (hi : (i, y) ∈ H) (hK : i ∈ K) (ht : (s.disk.dinode y).type = .dir)
      (hr : (Sys.dirlink sb p i name n).run s = .ok (true, t)) : Reached sb x p H K t
  | unlink {p : P} {H : Multiset (Fin NINODE × Nat)} {s t : Fs P} {path : List UInt8} (h : Reached sb x p H ∅ s)
      (hr : (Sys.unlink sb p path).run s = .ok (0, t)) : Reached sb x p H ∅ t
  | other {p q : P} {H H' : Multiset (Fin NINODE × Nat)} {K K' : Finset (Fin NINODE)} {s t : Fs P}
      (h : Reached sb x p H K s)
      (ha : Alone sb q H' K' t) (hc : t.Cached ∅) (hx : s.disk.Entries x (s.disk.ent x) t.disk) : Reached sb x q H' K' t

structure Kempt (x : Nat) (d : Disk) : Prop where
  distinct : d.Distinct x
  aligned : (d.dinode x).type = .dir → (d.dinode x).size % DIRENT = 0

theorem Kempt.entries (h : Kempt x d) (he : d.Entries x (d.ent x) d') : Kempt x d' where
  distinct := h.distinct.congr he.ent
  aligned ht := by
    have ha := h.aligned (he.type ▸ ht)
    rw [he.size ha, ha]

theorem kempt_of_free (h : (d.dinode x).type = .free) : Kempt x d :=
  ⟨Disk.distinct_of_none fun _ => Disk.ent_of_not_dir (by rw [h]; nofun), fun ht => by
    rw [h] at ht
    cases ht⟩

omit [Fintype P] [DecidableEq P] in
theorem Kempt.without (h : Kempt x d) (he : Shows s₀ H d x (d.without y k x) d') : Kempt x d' := by
  rcases he with ⟨-, hf⟩ | he
  · exact kempt_of_free hf
  by_cases hx : x = y
  · refine ⟨h.distinct.set (k := k) (a := none) (fun k' => ?_) nofun, fun ht => ?_⟩
    · rw [he.ent, Disk.without]
      simp [hx]
    · have ha := h.aligned (he.type ▸ ht)
      rw [he.size ha, ha]
  · exact h.entries ⟨he.type, he.size, fun k' => by rw [he.ent, Disk.without, if_neg fun h => hx h.1]⟩

theorem Kempt.wrote {name : List UInt8} (h : Kempt x d) (hok : d.Ok sb) (hlk : d.lookup y name = none)
    (hw : d.Wrote sb y k (newEntry name n) d') : Kempt x d' := by
  by_cases hx : x = y
  · subst hx
    refine ⟨h.distinct.set hw.ent fun m z hz k' z' he => ?_, fun ht => ?_⟩
    · unfold newEntry at hz
      split_ifs at hz
      cases hz
      exact Disk.lookup_ne_none he hlk
    · have ha := h.aligned (hw.kept.type x ▸ ht)
      rw [hw.size]
      simp only [DIRENT] at *
      omega
  · have hi := hw.kept.dinode x hx
    exact h.entries ⟨by rw [hi], fun _ => by rw [hi], fun k' => hw.kept.ent hok hx⟩

theorem Reached.kempt (h : Reached sb x p H K s) : Still sb p s s.disk H K s ∧ Kempt x s.disk := by
  induction h with
  | fresh ha hc ht h0 =>
    refine ⟨still_start ha hc, Disk.distinct_of_none fun k => ?_, fun _ => by rw [h0]; rfl⟩
    rw [Disk.ent, if_neg]
    rintro ⟨-, hlt, -⟩
    omega
  | @dirlink p H K s t i y n name h hi hK ht hr ih =>
    obtain ⟨hs, hm⟩ := ih
    cases hlk : s.disk.lookup y name with
    | some a =>
      have hends : (Sys.dirlink sb p i name n).Ends (Still sb p s s.disk H K) _ fun _ => True :=
        dirlink_bound hi hK ht hlk hs.allAnchored (.inr trivial) (.inr trivial) (.inr fun _ => trivial)
      exact absurd ((hends s hs).1 true t hr).1 (by decide)
    | none =>
      have hends : (Sys.dirlink sb p i name n).Ends (Still sb p s s.disk H K) _ fun _ => True :=
        dirlink_unbound hi hK ht hlk (.inr trivial) fun _ _ _ _ => trivial
      obtain ⟨-, k, d', hw, -, ht'⟩ := (hends s hs).1 true t hr
      rw [← ht'.since.disk] at hw
      exact ⟨still_start ht'.alone ht'.cached, hm.wrote hs.ok hlk hw⟩
  | @unlink p H s t path h hr ih =>
    obtain ⟨hs, hm⟩ := ih
    obtain ⟨y, n, z, k, -, -, d', hd', ht'⟩ := (unlink_ends s hs).1 0 t hr rfl
    obtain rfl := ht'.since.disk
    exact ⟨still_start ht'.alone ht'.cached, hm.without (hd' x)⟩
  | other h ha hc hx ih => exact ⟨still_start ha hc, ih.2.entries hx⟩

/-! ### Directories are finite maps -/

/-- `dirlookup` on entry `i`, for directory `x`, returns the inode that the name is bound to and the offset of its
    entry, and 0 if the name is not bound. -/
def Looks (sb : Superblock) (p : P) (i : Fin NINODE) (x : Nat) (s : Fs P) : Prop :=
  ∀ name, (∀ k y, s.disk.ent x k = some (cname name, y) → s.Gettable y) →
    ∃ r t, (Sys.dirlookup sb p i name).run s = .ok (r, t) ∧ t.disk = s.disk ∧
    ∀ y off, (∃ j, r = some (j, off) ∧ (t.icache j).inum = y) ↔ ∃ k, off = k * DIRENT ∧
      s.disk.ent x k = some (cname name, y)

/-- `dirlink` of a name that is bound, to an inode that the process has not locked, returns -1 and changes nothing. -/
def Refuses (sb : Superblock) (p : P) (H : Multiset (Fin NINODE × Nat)) (K : Finset (Fin NINODE)) (i : Fin NINODE)
    (x : Nat) (s : Fs P) : Prop :=
  ∀ name n k y, s.disk.ent x k = some (cname name, y) → s.Gettable y → (∀ j ∈ K, ∃ z, (j, z) ∈ H ∧ z ≠ y) →
    ∃ t, (Sys.dirlink sb p i name n).run s = .ok (false, t) ∧ Still sb p s s.disk H K t

/-- `dirlink` of a name that is not bound binds it, and it alone: at the first empty place, or behind the last entry if
    there is none and there are blocks for it. -/
def Binds (sb : Superblock) (p : P) (i : Fin NINODE) (x : Nat) (s : Fs P) : Prop :=
  ∀ name n, (∀ k y, s.disk.ent x k ≠ some (cname name, y)) → 0 < n → n < 2 ^ 16 →
    (s.disk.dinode x).size ≠ MAXFILE * BSIZE →
    (∃ k, k * DIRENT < (s.disk.dinode x).size ∧ s.disk.ent x k = none) ∨
      Disk.Enough sb (blocksFor ((s.disk.dinode x).size + DIRENT)) (s.disk.dinode x) s.disk →
    ∃ k t, (Sys.dirlink sb p i name n).run s = .ok (true, t) ∧ s.disk.FirstEmpty x k ∧
      (t.disk.dinode x).size = (if k * DIRENT < (s.disk.dinode x).size then (s.disk.dinode x).size
        else (s.disk.dinode x).size + DIRENT) ∧
      ∀ k', t.disk.ent x k' = if k' = k then some (cname name, n) else s.disk.ent x k'

/-- `unlink` removes the binding of the last element of the path, and no other. -/
def Unbinds (sb : Superblock) (p : P) (H : Multiset (Fin NINODE × Nat)) (x : Nat) (s : Fs P) : Prop :=
  ∀ path t, (Sys.unlink sb p path).run s = .ok (0, t) → ∃ y n z k, s.resolve p true path = some (y, n) ∧
    s.disk.ent y k = some (cname n, z) ∧ Shows s H s.disk x (s.disk.without y k x) t.disk

section

variable (hm : Kempt x s.disk) (hs : Still sb p s s.disk H K s) (hi : (i, x) ∈ H) (hK : i ∈ K)
  (ht : (s.disk.dinode x).type = .dir)
include hm hs hi hK ht

theorem Kempt.looks : Looks sb p i x s := by
  intro name hn
  have hends : (Sys.dirlookup sb p i name).Ends (Still sb p s s.disk H K) _ fun _ => False :=
    dirlookup_ends hi hK ht (.inl (hm.aligned ht)) (.inl fun y k hlk => hs.alone.gets (hn k y (Disk.ent_of_lookup hlk)))
  obtain ⟨r, t, hr, hland⟩ := hends.returns hs
  cases hlk : s.disk.lookup x name with
  | none =>
    rw [hlk] at hland
    rcases r with - | a
    · refine ⟨none, t, hr, hland.since.disk, fun y off => ⟨fun ⟨j, hj, _⟩ => (nomatch hj), fun ⟨k, _, he⟩ => ?_⟩⟩
      exact absurd hlk (Disk.lookup_ne_none he)
    · exact hland.elim
  | some a =>
    rw [hlk] at hland
    rcases r with - | ⟨j, off⟩
    · exact hland.elim
    obtain ⟨y, k⟩ := a
    obtain ⟨rfl, hland⟩ : off = k * DIRENT ∧ Still sb p s s.disk ((j, y) ::ₘ H) K t := hland
    have hy : (t.icache j).inum = y := hland.alone.inum _ (Multiset.mem_cons_self ..)
    refine ⟨_, t, hr, hland.since.disk, fun y' off => ⟨fun ⟨j', hj, hy'⟩ => ?_, fun ⟨k', hoff, he⟩ => ?_⟩⟩
    · cases hj
      exact ⟨k, rfl, by rw [← hy', hy]; exact Disk.ent_of_lookup hlk⟩
    · have := hm.distinct.lookup_iff.mpr he
      rw [hlk] at this
      cases this
      exact ⟨j, by rw [hoff], hy⟩

theorem Kempt.refuses : Refuses sb p H K i x s := by
  intro name n k y he hn hfree
  have hends : (Sys.dirlink sb p i name n).Ends (Still sb p s s.disk H K) _ fun _ => False :=
    dirlink_bound hi hK ht (hm.distinct.lookup_iff.mpr he) hs.allAnchored (.inl (hm.aligned ht))
      (.inl (hs.alone.gets hn)) (.inl hfree)
  obtain ⟨r, t, hr, rfl, ht'⟩ := hends.returns hs
  exact ⟨t, hr, ht'⟩

theorem Kempt.binds : Binds sb p i x s := by
  intro name n hno hpos hlt hmax hsp
  have ha := hm.aligned ht
  have hends : (Sys.dirlink sb p i name n).Ends (Still sb p s s.disk H K) _ fun _ => False :=
    dirlink_unbound hi hK ht (Disk.lookup_none hno) (.inl ha) fun u e hu hr => hu.dirwrite_ok hi hK ht ha hmax hsp hr
  obtain ⟨r, t, hr, rfl, k, d', hw, hk, ht'⟩ := hends.returns hs
  have hle := hk.le ha
  refine ⟨k, t, hr, hk, ?_, fun k' => ?_⟩
  · rw [ht'.since.disk, hw.size]
    split
    · simp only [DIRENT] at *
      omega
    · omega
  · rw [ht'.since.disk, hw.ent, newEntry, Nat.mod_eq_of_lt hlt, if_neg hpos.ne']

end

theorem unbinds (hs : Still sb p s s.disk H ∅ s) : Unbinds sb p H x s := by
  intro path t hr
  obtain ⟨y, n, z, k, hres, he, d', hd', ht'⟩ := (unlink_ends s hs).1 0 t hr rfl
  rw [← ht'.since.disk] at hd'
  exact ⟨y, n, z, k, hres, he, hd' x⟩

/-! ### A new directory -/

theorem iallocFrom_ends {type : InodeType} (hx : x + n ≤ 2 ^ 16) :
    (Sys.iallocFrom p type n x).Ends (Still sb p s₀ d H K)
      (fun i t => ∃ x, StillBut {x} sb p s₀ (d.iupdate x (.blank type)) ((i, x) ::ₘ H) K t) fun _ => True := by
  induction n generalizing x with
  | zero => exact panic_ends trivial
  | succ n ih =>
    refine .bind (R := fun b t => if b then StillBut {x} sb p s₀ (d.iupdate x (.blank type)) H K t
      else Still sb p s₀ d H K t) (.op (fun s b t hs hr => ?_) fun _ _ _ _ => trivial) fun b => ?_
    · rcases hs.iallocTry hr with ⟨rfl, rfl⟩ | ⟨rfl, -, ht⟩
      · exact hs
      · exact ht
    · cases b with
      | false => exact ih (by omega)
      | true => exact .op (fun s i t hs hr => ⟨x, hs.iget (by omega) hr⟩) fun _ _ _ _ => trivial

def newDir (sb : Superblock) (p : P) : FsProg P (Fin NINODE) := do
  let ip ← Sys.ialloc sb p .dir
  Sys.ilock p ip
  .op fun s => s.update ip fun d => { d with major := 0, minor := 0, nlink := 1 }
  pure ip

theorem newDir_reached : (newDir sb p).Ends (Still sb p s₀ d H K)
    (fun i t => ∃ x, Reached sb x p ((i, x) ::ₘ H) (insert i K) t ∧ (t.disk.dinode x).type = .dir ∧
    (t.disk.dinode x).size = 0) fun _ => True := by
  have hn := sb.ninodes_le
  refine .bind (iallocFrom_ends (by omega)) fun i => .of_exists fun x => ?_
  have hi : (i, x) ∈ (i, x) ::ₘ H := Multiset.mem_cons_self ..
  refine .bind (.op (fun s _ t hs hr => hs.ilock (Y := ∅) (.inl (hs.alone.mem hi)) (fun y _ => ?_) hr) fun _ _ _ _ =>
    trivial)
    fun _ => .bind (.op (fun s _ t hs hr => hs.update (g := fun d => { d with major := 0, minor := 0, nlink := 1 })
      (mem_insert_self ..) (show (s.icache i).inum = x from hs.alone.inum _ hi) (fun _ => ⟨rfl, rfl, rfl⟩)
      (fun _ => rfl) hr) fun _ _ _ _ => trivial) fun _ => .pure fun t ht => ⟨x, ?_⟩
  · by_cases hy : y = x
    · exact .inr (hy ▸ hs.alone.inum _ hi)
    · exact .inl hy
  · have hd : t.disk.dinode x = { Dinode.blank .dir with major := 0, minor := 0, nlink := 1 } := by
      rw [ht.since.disk]
      simp [Disk.iupdate]
    have hty : (t.disk.dinode x).type = .dir ∧ (t.disk.dinode x).size = 0 := by
      rw [hd]
      exact ⟨rfl, rfl⟩
    exact ⟨.fresh ht.alone ht.cached hty.1 hty.2, hty⟩

theorem newDir_boot : ∃ t, (newDir smallDisk 0).run (boot smallDisk (0 : Fin 2)) = .ok (1, t) ∧
    Reached smallDisk 2 0 {(1, 2)} {1} t ∧ (t.disk.dinode 2).type = .dir ∧ (t.disk.dinode 2).size = 0 ∧
    Disk.Enough smallDisk 1 (t.disk.dinode 2) t.disk ∧
    (((Sys.dirlink smallDisk 0 1 Sys.dot 2).run t).toOption.map fun r => decide (r.1 = true ∧
      r.2.disk.ent 2 0 = some (Sys.dot, 2) ∧
      ((Sys.dirlink smallDisk 0 1 Sys.dot 5).run r.2).map Prod.fst = .error (.wait .iput 1))) = some true := by
  have h : ((newDir smallDisk 0).run (boot smallDisk (0 : Fin 2))).toOption.map
    (fun r => decide (r.1 = 1 ∧ (r.2.icache 1).inum = 2 ∧
      Disk.Enough smallDisk 1 (r.2.disk.dinode 2) r.2.disk ∧
      (((Sys.dirlink smallDisk 0 1 Sys.dot 2).run r.2).toOption.map fun r => decide (r.1 = true ∧
        r.2.disk.ent 2 0 = some (Sys.dot, 2) ∧
        ((Sys.dirlink smallDisk 0 1 Sys.dot 5).run r.2).map Prod.fst = .error (.wait .iput 1))) = some true)) =
          some true := by
    decide +kernel
  obtain ⟨i, t, hr, h⟩ := ran h
  obtain ⟨rfl, hi, he, hd⟩ := of_decide_eq_true h
  have hs : Consistent smallDisk (0 : Fin 2) (boot smallDisk 0) := boot_consistent (by decide) (by decide)
  obtain ⟨x, hx, ht⟩ := (newDir_reached _ (still_start hs.alone hs.cached)).1 1 t hr
  obtain rfl : x = 2 := (hx.kempt.1.alone.inum (1, x) (Multiset.mem_cons_self ..)).symm.trans hi
  exact ⟨t, hr, hx, ht.1, ht.2, he, hd⟩

/-- Directories are finite maps. After any history of calls of `dirlink` and `unlink` the names in a directory are
    distinct; `dirlookup` finds the bound names, `dirlink` binds those that are not bound, and `unlink` removes a
    binding. -/
theorem directories_are_maps (h : Reached sb x p H K s) : s.disk.Distinct x ∧
    (∀ i, (i, x) ∈ H → i ∈ K → (s.disk.dinode x).type = .dir →
      Looks sb p i x s ∧ Refuses sb p H K i x s ∧ Binds sb p i x s) ∧ (K = ∅ → Unbinds sb p H x s) := by
  obtain ⟨hs, hm⟩ := h.kempt
  refine ⟨hm.distinct, fun i hi hK ht => ⟨hm.looks hs hi hK ht, hm.refuses hs hi hK ht, hm.binds hs hi hK ht⟩,
    fun hK => ?_⟩
  subst hK
  exact unbinds hs

/-- Process 0 locks the root directory, makes two new directories, unlocks the first one, and enters it in the second
    one as "t" and the second one in the root directory as "d". Then it unlinks "/d/t". -/
def binding : FsProg (Fin 2) Unit := do
  returning (do let i ← Prog.op fun s => s.iget 0 ROOTINO; Sys.ilock 0 i; pure i) 0
  returning (newDir smallDisk 0) 1
  returning (Sys.iunlock 0 1) ()
  returning (newDir smallDisk 0) 2
  returning (seen fun s => (s.icache 2).inum = 3) true
  returning (Sys.dirlink smallDisk 0 2 [116] 2) true
  returning (seen fun s => (s.disk.dinode 1).type = .dir) true
  returning (Sys.dirlink smallDisk 0 0 [100] 3) true
  returning (seen fun s => (s.disk.dinode 3).type = .dir ∧ s.disk.ent 3 0 = some (cname [116], 2) ∧
    0 < (s.icache 1).ref ∧ (s.icache 1).inum = 2) true
  returning (Sys.iunlock 0 2) ()
  returning (Sys.iunlock 0 0) ()
  returning (seen fun s => s.resolve 0 true [47, 100, 47, 116] = some (3, [116])) true
  returning (Sys.unlink smallDisk 0 [47, 100, 47, 116]) 0
  pure ()

theorem Reached.unlock (h : Reached sb x p H K s) (hK : i ∈ K) (hr : (Sys.iunlock p i).run s = .ok ((), t)) :
    Reached sb x p H (K.erase i) t := by
  have hends : (Sys.iunlock p i).Ends (Still sb p s s.disk H K) _ fun _ => True := iunlock_ends hK
  have ht := (hends s h.kempt.1).1 () t hr
  exact .other h ht.alone ht.cached ⟨by rw [ht.since.disk], fun _ => by rw [ht.since.disk],
    fun k => by rw [ht.since.disk]⟩

theorem binding_reached : ∃ s t u : Fs (Fin 2), ∃ H : Multiset (Fin NINODE × Nat), Reached smallDisk 3 0 H {2, 0} s ∧
    (2, 3) ∈ H ∧
    (0, 1) ∈ H ∧ ((s.disk.dinode 3).type = .dir ∧ s.disk.ent 3 0 = some (cname [116], 2) ∧ 0 < (s.icache 1).ref ∧
    (s.icache 1).inum = 2) ∧ Reached smallDisk 3 0 H ∅ t ∧ t.resolve 0 true [47, 100, 47, 116] = some (3, [116]) ∧
    (Sys.unlink smallDisk 0 [47, 100, 47, 116]).run t = .ok (0, u) := by
  have hrun : (binding.run (boot smallDisk (0 : Fin 2))).toOption.isSome = true := by decide +kernel
  obtain ⟨r, hr⟩ := Option.isSome_iff_exists.mp hrun
  rw [Except.toOption_eq_some] at hr
  -- The run is evaluated once; the states between its calls are taken out of it.
  obtain ⟨s₁, h₁, hr⟩ := returning_bind hr
  obtain ⟨s₂, h₂, hr⟩ := returning_bind hr
  obtain ⟨s₃, h₃, hr⟩ := returning_bind hr
  obtain ⟨s₄, h₄, hr⟩ := returning_bind hr
  obtain ⟨hx, hr⟩ := seen_bind hr
  obtain ⟨s₅, h₅, hr⟩ := returning_bind hr
  obtain ⟨hd, hr⟩ := seen_bind hr
  obtain ⟨s, h₆, hr⟩ := returning_bind hr
  obtain ⟨hs, hr⟩ := seen_bind hr
  obtain ⟨s₇, h₇, hr⟩ := returning_bind hr
  obtain ⟨t, h₈, hr⟩ := returning_bind hr
  obtain ⟨hres, hr⟩ := seen_bind hr
  obtain ⟨u, h₉, -⟩ := returning_bind hr
  rw [decide_eq_true_eq] at hx hd hs hres
  have hb : Consistent smallDisk (0 : Fin 2) (boot smallDisk 0) := boot_consistent (by decide) (by decide)
  have hroot : (do let i ← Prog.op fun s => s.iget 0 ROOTINO; Sys.ilock 0 i; pure i : FsProg (Fin 2) (Fin NINODE)).Ends
      (Still smallDisk 0 (boot smallDisk 0) (boot smallDisk (0 : Fin 2)).disk 0 ∅)
      (fun i => Still smallDisk 0 (boot smallDisk 0) (boot smallDisk (0 : Fin 2)).disk ((i, 1) ::ₘ 0) (insert i ∅))
        fun _ => True :=
    .bind (iget_ends (by decide) (.inr trivial)) fun i =>
      .bind (ilock_ends (Multiset.mem_cons_self ..) (.inr trivial) (.inr trivial)) fun _ => .pure fun _ h => h
  have hr₁ := (hroot _ (still_start hb.alone hb.cached)).1 0 s₁ h₁
  obtain ⟨x, hr₂, -⟩ := (newDir_reached _ (still_start hr₁.alone hr₁.cached)).1 1 s₂ h₂
  have hr₃ := (hr₂.unlock (by simp) h₃).kempt.1
  obtain ⟨y, hr₄, hty, -⟩ := (newDir_reached _ hr₃).1 2 s₄ h₄
  obtain rfl : y = 3 := (hr₄.kempt.1.alone.inum (2, y) (Multiset.mem_cons_self ..)).symm.trans hx
  have hK : insert (2 : Fin NINODE) ((insert 1 (insert 0 ∅) : Finset (Fin NINODE)).erase 1) = {2, 0} := by decide
  rw [hK] at hr₄
  have hr₆ := (hr₄.dirlink (y := 3) (by simp) (by simp) hty h₅).dirlink (y := 1) (by simp) (by simp) hd h₆
  have hr₈ := (hr₆.unlock (by simp) h₇).unlock (by decide) h₈
  have hK' : ((({2, 0} : Finset (Fin NINODE)).erase 2).erase 0) = ∅ := by decide
  rw [hK'] at hr₈
  exact ⟨s, t, u, _, hr₆, by simp, by simp, hs, hr₈, hres, h₉⟩

theorem directories_are_maps_binding : ∃ s t u : Fs (Fin 2), ∃ H : Multiset (Fin NINODE × Nat),
    (∃ j v, (Sys.dirlookup smallDisk 0 2 [116]).run s = .ok (some (j, 0), v) ∧ (v.icache j).inum = 2) ∧
    (∃ v, (Sys.dirlink smallDisk 0 2 [116] 5).run s = .ok (false, v) ∧ v.disk = s.disk) ∧
    (Sys.unlink smallDisk 0 [47, 100, 47, 116]).run t = .ok (0, u) ∧
    ∃ k z, t.disk.ent 3 k = some (cname [116], z) ∧ Shows t H t.disk 3 (t.disk.without 3 k 3) u.disk := by
  obtain ⟨s, t, u, H, hs, h2, h0, ⟨hty, hent, hr, hi⟩, ht, hres, hu⟩ := binding_reached
  have hget : s.Gettable 2 := .inr ⟨1, hr, hi⟩
  obtain ⟨hd, hmap, -⟩ := directories_are_maps hs
  obtain ⟨hlook, hrefuse, -⟩ := hmap 2 h2 (by simp) hty
  refine ⟨s, t, u, H, ?_, ?_, hu, ?_⟩
  · obtain ⟨r, v, hrun, -, hiff⟩ := hlook [116] fun k y he => by
      cases (hd.lookup_iff.mpr he).symm.trans (hd.lookup_iff.mpr hent)
      exact hget
    obtain ⟨j, rfl, hj⟩ := (hiff 2 0).mpr ⟨0, rfl, hent⟩
    exact ⟨j, v, hrun, hj⟩
  · obtain ⟨v, hrun, hv⟩ := hrefuse [116] 5 0 2 hent hget fun j hj => by
      rcases Finset.mem_insert.mp hj with rfl | hj
      · exact ⟨3, h2, by decide⟩
      · rw [Finset.mem_singleton.mp hj]
        exact ⟨1, h0, by decide⟩
    exact ⟨v, hrun, hv.since.disk⟩
  · obtain ⟨y, n, z, k, hy, he, hshow⟩ := (directories_are_maps ht).2.2 rfl [47, 100, 47, 116] u hu
    cases hy.symm.trans hres
    exact ⟨k, z, he, hshow⟩

/-- A second `dirlink` of "." finds the directory itself, which the process has locked, and waits for its lock. -/
theorem dirlink_dot_waits : ∃ t u, (newDir smallDisk 0).run (boot smallDisk (0 : Fin 2)) = .ok (1, t) ∧
    (Sys.dirlink smallDisk 0 1 Sys.dot 2).run t = .ok (true, u) ∧ Reached smallDisk 2 0 {(1, 2)} {1} u ∧
    u.disk.ent 2 0 = some (Sys.dot, 2) ∧ (Sys.dirlink smallDisk 0 1 Sys.dot 5).run u = .error (.wait .iput 1) := by
  obtain ⟨t, hr, hx, ht, -, -, hd⟩ := newDir_boot
  obtain ⟨b, u, hu, h⟩ := ran hd
  obtain ⟨rfl, hent, hw⟩ := of_decide_eq_true h
  refine ⟨t, u, hr, hu, hx.dirlink (by simp) (by simp) ht hu, hent, ?_⟩
  cases hrun : (Sys.dirlink smallDisk 0 1 Sys.dot 5).run u with
  | error e =>
    rw [hrun] at hw
    cases hw
    rfl
  | ok r =>
    rw [hrun] at hw
    cases hw

end Fs

end Xv6
