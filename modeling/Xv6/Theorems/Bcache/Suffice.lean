import Xv6.Theorems.Bcache.Pins

/-! `bget` finds a buffer as long as the buffers in use and the blocks of the log header are fewer than the buffers.
    Nothing in the code keeps them so: each process that waits for the disk holds a buffer. -/

namespace Xv6
open Finset
namespace Bcache

variable {P : Type} [DecidableEq P] {d : Nat × Nat → Block} {start size : Nat} {s t : Bcache P} {p : P} {k : Nat × Nat}
  {l : Label P}

def held (s : Bcache P) (p : P) : Nat := (univ.filter fun i => (s.buf i).lock = some p).card

/-- How the system calls use the cache. A read outside of an operation has one block at a time, and an operation at most
    two, the bitmap or a new block with the indirect block. They change and log blocks only in an operation, hold none
    when it begins or ends, and leave `bwrite` to the log. -/
def FsCall (s : Bcache P) : Label P → Prop
  | .call p (.bread k) => k.1 = ROOTDEV ∧ s.held p ≤ if (s.client p).inOp then 1 else 0
  | .call p (.modify _ _) | .call p (.logWrite _) => (s.client p).inOp = true
  | .call p .beginOp | .call p .endOp => s.held p = 0
  | .call _ (.bwrite _) => False
  | .call _ (.brelse _) | .step _ | .ideintr => True

instance (s : Bcache P) : (l : Label P) → Decidable (s.FsCall l)
  | .call p (.bread k) => inferInstanceAs (Decidable (k.1 = ROOTDEV ∧ s.held p ≤ if (s.client p).inOp then 1 else 0))
  | .call p (.modify _ _) | .call p (.logWrite _) => inferInstanceAs (Decidable ((s.client p).inOp = true))
  | .call p .beginOp | .call p .endOp => inferInstanceAs (Decidable (s.held p = 0))
  | .call _ (.bwrite _) => inferInstanceAs (Decidable False)
  | .call _ (.brelse _) | .step _ | .ideintr => inferInstanceAs (Decidable True)

def asks (s : Bcache P) : Label P → Option (P × (Nat × Nat))
  | .call p (.bread k) => if (s.client p).stage = .idle ∧ (s.client p).todo.isEmpty then some (p, k) else none
  | .step p =>
    match (s.client p).stage, (s.client p).todo with
    | .idle, .bread _ b :: _ => some (p, (ROOTDEV, b))
    | _, _ => none
  | _ => none

def inUse (s : Bcache P) : Finset (Fin NBUF) := univ.filter fun i => (s.buf i).refcnt ≠ 0

/-- Where `bget` is entered, there are fewer buffers in use and blocks to be installed than buffers. -/
def Room (s : Bcache P) (l : Label P) : Prop := (s.asks l).isSome → s.inUse.card + s.log.lh.length < NBUF

instance (s : Bcache P) (l : Label P) : Decidable (s.Room l) :=
  inferInstanceAs (Decidable (_ → _))

theorem asks_next (h : s.asks l = some (p, k)) : s.next l = s.bget p k := by
  unfold asks at h
  split at h
  · split_ifs at h with hidle
    cases h
    exact if_pos hidle
  · split at h
    · rename_i hst htodo
      cases h
      simp only [next, turn, hst, htodo]
      rfl
    · cases h
  · cases h

section Counting

variable [Fintype P]

theorem reach_pins {C : Bcache P → Label P → Prop} (hC : ∀ s l, C s l → s.FsCall l)
    (h : (machine P d start size).ReachWhere C s) : Writers True d start size s ∧ Pins s := by
  refine h.invariant (I := fun s => Writers True d start size s ∧ Pins s) ?_ fun s l t hi hc ht =>
    ⟨hi.1.next (fun _ _ _ => trivial) ht, hi.2.next hi.1 ?_ ht⟩
  · rintro _ ⟨havedisk1, rfl⟩
    exact ⟨.init, pins_init rfl⟩
  · rintro p k rfl
    exact (hC _ _ hc).1

omit [DecidableEq P] in
theorem Pins.card_le (h : Pins s) (hi : Inv d s) :
    (univ.filter fun i => (s.buf i).refcnt = 0 ∧ (s.buf i).dirty = true).card ≤ s.log.lh.length := by
  refine (card_le_card_of_injOn (fun i => (s.buf i).blockno) (t := s.log.lh.toFinset) ?_ ?_).trans
    (List.toFinset_card_le _)
  · intro i hmem
    obtain ⟨h0, hd⟩ := (mem_filter.mp hmem).2
    have hidle := (hi.ok i).idle h0
    rw [mem_coe, List.mem_toFinset]
    exact h.logged i ⟨hd, fun q hq => by rw [hidle.2.1 q] at hq; cases hq⟩
  · intro i hmem j hmem' hij
    have hvalid : ∀ {i}, i ∈ univ.filter (fun i => (s.buf i).refcnt = 0 ∧ (s.buf i).dirty = true) →
        (s.buf i).Requested := fun {i} hm => .inr ((hi.ok i).dirty (mem_filter.mp hm).2.2)
    exact h.unique hi (hvalid hmem) (hvalid hmem') hij

omit [DecidableEq P] in
theorem Pins.exists_free (h : Pins s) (hi : Inv d s) (hroom : s.inUse.card + s.log.lh.length < NBUF) :
    ∃ i, (s.buf i).refcnt = 0 ∧ (s.buf i).dirty = false := by
  by_contra hno
  have hall : (univ : Finset (Fin NBUF)) ⊆
      s.inUse ∪ univ.filter fun i => (s.buf i).refcnt = 0 ∧ (s.buf i).dirty = true := by
    intro i _
    by_cases h0 : (s.buf i).refcnt = 0
    · refine mem_union_right _ (mem_filter.mpr ⟨mem_univ i, h0, ?_⟩)
      by_contra hd
      exact hno ⟨i, h0, by simpa using hd⟩
    · exact mem_union_left _ (mem_filter.mpr ⟨mem_univ i, h0⟩)
  have hcard := (card_le_card hall).trans (card_union_le _ _)
  rw [card_univ, Fintype.card_fin] at hcard
  have := h.card_le hi
  omega

/-- In a run of system calls with room at each entry of `bget`, each entry finds a buffer. -/
theorem bget_finds {s : Bcache P} (hr : (machine P d start size).ReachWhere (fun s l => s.FsCall l ∧ s.Room l) s)
    (hroom : s.Room l) (hl : s.asks l = some (p, k)) : ∃ t, s.bget p k = some t ∧ s.next l = some t := by
  obtain ⟨hw, hp⟩ := reach_pins (fun _ _ h => h.1) hr
  suffices h : ∃ t, s.bget p k = some t by
    obtain ⟨t, ht⟩ := h
    exact ⟨t, ht, (asks_next hl).trans ht⟩
  unfold bget
  split
  · exact ⟨_, rfl⟩
  · obtain ⟨i, h0, hd⟩ := hp.exists_free hw.inv (hroom (by rw [hl]; rfl))
    split
    · exact ⟨_, rfl⟩
    · rename_i hnone
      have := List.find?_eq_none.mp hnone i (List.mem_reverse.mpr (hw.inv.mem i))
      simp [h0, hd] at this

end Counting

def runWhere (C : Bcache P → Label P → Prop) [∀ s l, Decidable (C s l)] (s : Bcache P) (as : List (Label P)) :
    Option (Bcache P) :=
  as.foldlM (fun s l => if C s l then s.next l else none) s

theorem runWhere_reach {C : Bcache P → Label P → Prop} [∀ s l, Decidable (C s l)] {havedisk1 : Bool}
    {as : List (Label P)}
    (h : runWhere C { disk := d, havedisk1 := havedisk1, log := { start := start, size := size } } as = some t) :
    (machine P d start size).ReachWhere C t := by
  refine Machine.ReachWhere.foldlM (fun s l t hl => ?_) (.init ⟨havedisk1, rfl⟩) h
  split_ifs at hl with hc
  exact ⟨hc, hl⟩

/-- Process 0 has changed block 50 and is about to copy it to the log. -/
theorem bget_finds_commit : ∃ s : Bcache (Fin 2),
    (machine (Fin 2) (fun _ _ => 0) 2 LOGSIZE).ReachWhere (fun s l => s.FsCall l ∧ s.Room l) s ∧ s.log.lh = [50] ∧
      s.asks (.step 0) = some (0, (ROOTDEV, 3)) ∧ ∃ t, s.bget 0 (ROOTDEV, 3) = some t := by
  let i : Fin NBUF := ⟨0, by decide⟩
  let run : List (Label (Fin 2)) :=
    [.call 0 .beginOp, .call 0 (.bread (ROOTDEV, 50)), .step 0, .step 0, .ideintr, .step 0,
      .call 0 (.modify i fun _ _ => 7), .call 0 (.logWrite i), .call 0 (.brelse i), .step 0, .call 0 .endOp]
  obtain ⟨s, hs, hlh, hasks, hroom⟩ := Option.exists_of_any
      (o := runWhere (fun s l => s.FsCall l ∧
        s.Room l) { disk := fun _ _ => 0, havedisk1 := true, log := { start := 2, size := LOGSIZE } } run)
      (p := fun s => s.log.lh = [50] ∧ s.asks (.step 0) = some (0, (ROOTDEV, 3)) ∧
        s.Room (.step 0)) (by decide +kernel)
  have hr := runWhere_reach hs
  obtain ⟨t, ht, -⟩ := bget_finds hr hroom hasks
  exact ⟨s, hr, hlh, hasks, t, ht⟩

def readers : List (Label (Fin 31)) :=
  ((List.finRange 31).take 30).flatMap fun p => [.call p (.bread (ROOTDEV, 100 + p)), .step p, .step p]

/-- The 31st reader finds no buffer: `panic("bget: no buffers")`. -/
theorem readers_no_buffers : Fintype.card (Fin 31) ≤ NPROC ∧ ∃ s : Bcache (Fin 31),
    (machine (Fin 31) (fun _ _ => 0) 2 LOGSIZE).ReachWhere FsCall s ∧ s.FsCall (.call 30 (.bread (ROOTDEV, 130))) ∧
      s.asks (.call 30 (.bread (ROOTDEV, 130))) = some (30, (ROOTDEV, 130)) ∧ s.bget 30 (ROOTDEV, 130) = none := by
  refine ⟨by decide, ?_⟩
  obtain ⟨s, hs, hcall, hasks, hnone⟩ := Option.exists_of_any
      (o := runWhere FsCall { disk := fun _ _ => 0, havedisk1 := true, log := { start := 2, size := LOGSIZE } } readers)
      (p := fun s => s.FsCall (.call 30 (.bread (ROOTDEV, 130))) ∧
        s.asks (.call 30 (.bread (ROOTDEV, 130))) = some (30, (ROOTDEV, 130)) ∧
        (s.bget 30 (ROOTDEV, 130)).isNone = true) (by decide +kernel)
  exact ⟨s, runWhere_reach hs, hcall, hasks, Option.isNone_iff_eq_none.mp hnone⟩

end Bcache
end Xv6
