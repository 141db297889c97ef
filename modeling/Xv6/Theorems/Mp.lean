import Xv6.Mp

/-! The walk over the MP configuration table ends exactly if it meets no entry of an unknown type: at such an entry the
    cursor stays where it is. -/

namespace Xv6.Mp

variable {mem : Addr → UInt8} {e p q mp conf : Addr} {w w' : Walk} {f : Nat} {t : Entry}

/-- A walk at `p` comes to `q`, by the sizes of the entries in between. -/
inductive Met (mem : Addr → UInt8) (e : Addr) : Addr → Addr → Prop
  | here (p : Addr) : Met mem e p p
  | next {p q : Addr} {t : Entry} (hp : p < e) (ht : Entry.ofByte (mem p) = some t) (h : Met mem e (p + t.size) q) :
    Met mem e p q

def Known (mem : Addr → UInt8) (e p : Addr) : Prop := ∀ q, Met mem e p q → q < e → Entry.ofByte (mem q) ≠ none

/-! ### One turn -/

theorem turn_known (ht : Entry.ofByte (mem w.p) = some t) : (turn mem w).p = w.p + t.size ∧
    (turn mem w).ismp = w.ismp := by
  unfold turn
  rw [ht]
  cases t <;> exact ⟨rfl, rfl⟩

theorem turn_unknown (h : Entry.ofByte (mem w.p) = none) : (turn mem w).p = w.p := by
  unfold turn
  rw [h]

theorem turn_cpus (h : w.cpus.length ≤ NCPU) : (turn mem w).cpus.length ≤ NCPU := by
  unfold turn
  split
  · dsimp only
    split
    · next hlt =>
      rw [List.length_append]
      exact hlt
    · exact h
  all_goals exact h

theorem Entry.size_pos (t : Entry) : 0 < t.size.toNat ∧ t.size.toNat ≤ 20 := by cases t <;> decide

/-! ### The loop -/

theorem walk_cpus (h : w.cpus.length ≤ NCPU) (hw : walk mem e f w = some w') : w'.cpus.length ≤ NCPU := by
  induction f generalizing w with
  | zero => cases hw
  | succ f ih =>
    rw [walk] at hw
    split at hw
    · exact ih (turn_cpus h) hw
    · cases hw
      exact h

theorem walk_spins (hp : w.p < e) (h : Entry.ofByte (mem w.p) = none) (f : Nat) : walk mem e f w = none := by
  induction f generalizing w with
  | zero => rfl
  | succ f ih =>
    have hsame := turn_unknown h
    rw [walk, if_pos hp]
    exact ih (by rwa [hsame]) (by rwa [hsame])

theorem walk_known (hw : walk mem e f w = some w') : Known mem e w.p ∧ w'.ismp = w.ismp := by
  induction f generalizing w with
  | zero => cases hw
  | succ f ih =>
    rw [walk] at hw
    split at hw
    · next hp =>
      cases ht : Entry.ofByte (mem w.p) with
      | none =>
        rw [walk_spins (by rwa [turn_unknown ht]) (by rwa [turn_unknown ht])] at hw
        cases hw
      | some t =>
        obtain ⟨hnext, hsame⟩ := turn_known ht
        obtain ⟨hk, hi⟩ := ih hw
        refine ⟨fun q hq hqe => ?_, hi.trans hsame⟩
        cases hq with
        | here => simp [ht]
        | next _ ht' h =>
          rw [ht] at ht'
          cases ht'
          exact hk q (by rwa [hnext]) hqe
    · next hp =>
      cases hw
      refine ⟨fun q hq hqe => ?_, rfl⟩
      cases hq with
      | here => exact absurd hqe hp
      | next hp' _ _ => exact absurd hp' hp

theorem walk_ends (he : e.toNat + 20 ≤ 2 ^ 32) (hk : Known mem e w.p) : ∃ f w', walk mem e f w = some w' := by
  generalize hd : e.toNat - w.p.toNat = d
  induction d using Nat.strongRecOn generalizing w with
  | ind d ih =>
    by_cases hp : w.p < e
    · cases ht : Entry.ofByte (mem w.p) with
      | none => exact absurd ht (hk w.p (.here w.p) hp)
      | some t =>
        have hnext := (turn_known ht).1
        have hlt : w.p.toNat < e.toNat := hp
        have hsize := t.size_pos
        have hto : (w.p + t.size).toNat = w.p.toNat + t.size.toNat := by
          rw [BitVec.toNat_add, Nat.mod_eq_of_lt (by omega)]
        obtain ⟨f, w', hw⟩ := ih (e.toNat - (turn mem w).p.toNat) (by rw [hnext, hto]; omega)
          (fun q hq => hk q (.next hp ht (hnext ▸ hq))) rfl
        exact ⟨f + 1, w', by rw [walk, if_pos hp, hw]⟩
    · exact ⟨1, w, by rw [walk, if_neg hp]⟩

/-! ### The function -/

/-- `mpinit` returns exactly if its walk meets no entry of an unknown type. It records at most `NCPU` processors, and
    never gets to the second panic. -/
theorem mpinit_returns_iff (h : mpconfig mem = some (mp, conf))
    (he : (conf + confLength mem conf).toNat + 20 ≤ 2 ^ 32) :
    ((∃ f r, mpinit mem f = some r) ↔ Known mem (conf + confLength mem conf) (conf + sizeofConf)) ∧
    ∀ f r, mpinit mem f = some r → ∃ w imcr, r = .ok (w, imcr) ∧ w.cpus.length ≤ NCPU := by
  unfold mpinit
  rw [h]
  refine ⟨⟨?_, ?_⟩, ?_⟩
  · rintro ⟨f, r, hr⟩
    obtain ⟨w, hw, -⟩ := Option.map_eq_some_iff.mp hr
    exact (walk_known hw).1
  · intro hk
    obtain ⟨f, w, hw⟩ := walk_ends (w := { p := conf + sizeofConf, lapic := word mem (conf + 36) }) he hk
    exact ⟨f, _, Option.map_eq_some_iff.mpr ⟨w, hw, rfl⟩⟩
  · intro f r hr
    obtain ⟨w, hw, rfl⟩ := Option.map_eq_some_iff.mp hr
    rw [if_pos (walk_known hw).2]
    exact ⟨w, _, rfl, walk_cpus (Nat.zero_le _) hw⟩

/-- A machine whose EBDA holds the floating pointer and, 256 bytes on, a table with the given entries. -/
def firmware (checksum : UInt8) (entries : List UInt8) (a : Addr) : UInt8 :=
  let mp : List UInt8 := [0x5f, 0x4d, 0x50, 0x5f, 0, 0xfd, 0x09, 0, 1, 4, 154, 0, 0, 0, 0, 0]
  let conf : List UInt8 := [0x50, 0x43, 0x4d, 0x50, .ofNat (44 + entries.length), 0, 4, checksum] ++
    List.replicate 26 0 ++ [1, 0, 0, 0, 0xe0, 0xfe, 0, 0, 0, 0]
  if a = 0x8000040e then 0xc0 else if a = 0x8000040f then 0x9f
  else if 0x8009fd00 ≤ a then (conf ++ entries).getD (a - 0x8009fd00).toNat 0
  else if 0x8009fc00 ≤ a then mp.getD (a - 0x8009fc00).toNat 0 else 0

theorem mpinit_returns_processor : ∃ f r, mpinit (firmware 173 (0 :: List.replicate 19 0)) f = some r := by
  have hconf : mpconfig (firmware 173 (0 :: List.replicate 19 0)) = some (0x8009fc00, 0x8009fd00) := by decide +kernel
  refine (mpinit_returns_iff hconf (by decide +kernel)).1.mpr fun q hq hqe => ?_
  cases hq with
  | here => decide +kernel
  | next _ ht h =>
    have hproc : Entry.ofByte (firmware 173 (0 :: List.replicate 19 0) (0x8009fd00 + sizeofConf)) = some .proc := by
      decide +kernel
    rw [hproc] at ht
    cases ht
    cases h with
    | here => exact absurd hqe (by decide +kernel)
    | next hp _ _ => exact absurd hp (by decide +kernel)

/-- An entry of type 5. -/
theorem mpinit_spins : (mpconfig (firmware 180 [5, 0, 0, 0, 0, 0, 0, 0])).isSome = true ∧
    ∀ f, mpinit (firmware 180 [5, 0, 0, 0, 0, 0, 0, 0]) f = none := by
  have hconf : mpconfig (firmware 180 [5, 0, 0, 0, 0, 0, 0, 0]) = some (0x8009fc00, 0x8009fd00) := by decide +kernel
  refine ⟨by rw [hconf]; rfl, fun f => ?_⟩
  unfold mpinit
  rw [hconf]
  exact Option.map_eq_none_iff.mpr (walk_spins (by decide +kernel) (by decide +kernel) f)

end Xv6.Mp
