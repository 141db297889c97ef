import Xv6.Lib.Path
import Xv6.User.Umalloc

/-! The heap of umalloc.c: the free list and the blocks, and how `free` and `morecore` keep them intact. -/

namespace Xv6.Umalloc
open Span List

variable {h h' : Heap} {base a b v x n f : Nat} {F U G G₁ A : List Span} {q c d : Span}

/-! ### Headers -/

def Clear (a b : Nat) : Prop := a + 8 ≤ b ∨ b + 8 ≤ a

namespace Heap

theorem ptr_lt (h : Heap) (a : Nat) : h.ptr a < 2 ^ 32 := by
  unfold ptr Bytes.load
  exact Bytes.word_lt

theorem ptr_setPtr (hv : v < 2 ^ 32) : (h.setPtr a v).ptr a = v := Bytes.load_store hv

theorem size_setSize (hv : v < 2 ^ 32) : (h.setSize a v).size a = v := Bytes.load_store hv

@[simp] theorem size_setPtr_self : (h.setPtr a v).size a = h.size a := Bytes.load_store_ne (.inr (Nat.le_refl _))

@[simp] theorem ptr_setSize_self : (h.setSize a v).ptr a = h.ptr a := Bytes.load_store_ne (.inl (Nat.le_refl _))

theorem ptr_setPtr_ne (hc : Clear a b) : (h.setPtr a v).ptr b = h.ptr b :=
  Bytes.load_store_ne (by unfold Clear at hc; omega)

theorem size_setPtr_ne (hc : Clear a b) : (h.setPtr a v).size b = h.size b :=
  Bytes.load_store_ne (by unfold Clear at hc; omega)

theorem ptr_setSize_ne (hc : Clear a b) : (h.setSize a v).ptr b = h.ptr b :=
  Bytes.load_store_ne (by unfold Clear at hc; omega)

theorem size_setSize_ne (hc : Clear a b) : (h.setSize a v).size b = h.size b :=
  Bytes.load_store_ne (by unfold Clear at hc; omega)

end Heap

def joinAt (h : Heap) (a v : Nat) : Heap :=
  if plus a (h.size a) = v then (h.setSize a ((h.size a + h.size v) % 2 ^ 32)).setPtr a (h.ptr v) else h.setPtr a v

theorem joinUpper_eq (hp : Clear b a) (hv : Clear b (h.ptr a)) : joinUpper h b a = joinAt h b (h.ptr a) := by
  unfold joinUpper joinAt
  dsimp only
  rw [Heap.ptr_setSize_ne hp, Heap.ptr_setSize_ne hv]

theorem joinLower_eq (hp : Clear a b) : joinLower h b a = joinAt h a b := by
  unfold joinLower joinAt
  dsimp only
  rw [Heap.ptr_setSize_ne hp]

theorem joinAt_clear (hc : Clear a x) : (joinAt h a v).ptr x = h.ptr x ∧ (joinAt h a v).size x = h.size x := by
  unfold joinAt
  split
  · exact ⟨by rw [Heap.ptr_setPtr_ne hc, Heap.ptr_setSize_ne hc],
      by rw [Heap.size_setPtr_ne hc, Heap.size_setSize_ne hc]⟩
  · exact ⟨Heap.ptr_setPtr_ne hc, Heap.size_setPtr_ne hc⟩

abbrev joinBoth (h : Heap) (c q : Span) : Heap := joinAt (joinAt h c.start (h.ptr q.start)) q.start c.start

theorem joinAt_joinAt_clear {v' : Nat} (h1 : Clear a x) (h2 : Clear b x) :
    (joinAt (joinAt h a v) b v').ptr x = h.ptr x ∧ (joinAt (joinAt h a v) b v').size x = h.size x := by
  rw [(joinAt_clear h2).1, (joinAt_clear h2).2]
  exact joinAt_clear h1

@[simp] theorem joinAt_given : (joinAt h a v).given = h.given := by
  unfold joinAt
  split <;> rfl

@[simp] theorem joinAt_brk : (joinAt h a v).brk = h.brk := by
  unfold joinAt
  split <;> rfl

def Sized (h : Heap) (l : List Span) : Prop := ∀ c ∈ l, 8 * h.size c.start = c.len

theorem plus_eq (hlt : a + 8 * n < 2 ^ 32) : plus a n = a + 8 * n := by
  unfold plus headerSize
  omega

theorem joinAt_path (hq : 8 * h.size q.start = q.len) (hU : Sized h U) (hp : PtrPath h.ptr v (U.map start) base)
    (hclear : ∀ c ∈ U, q.start + 8 ≤ c.start) (hlt : ∀ c ∈ q :: U, c.stop < 2 ^ 32) (hb : U = [] → q.stop ≠ base)
    (hb' : base < 2 ^ 32) :
    PtrPath (joinAt h q.start v).ptr q.start ((join q U).map start) base ∧ Sized (joinAt h q.start v) (join q U) := by
  have hv := hp.eq_headD
  have hstop := hlt q mem_cons_self
  have hplus : plus q.start (h.size q.start) = q.stop := by
    rw [stop, ← hq]
    exact plus_eq (by rwa [hq])
  have hsame : ∀ c ∈ U, (joinAt h q.start v).ptr c.start = h.ptr c.start ∧
    (joinAt h q.start v).size c.start = h.size c.start :=
    fun c hc => joinAt_clear (.inl (hclear c hc))
  obtain ⟨hj, hne⟩ | ⟨c, l, rfl, hc, hj⟩ := join_cases q U
  · -- nothing to join: the block is linked
    have hnot : plus q.start (h.size q.start) ≠ v := by
      rw [hplus, hv]
      cases U with
      | nil => exact hb rfl
      | cons c U => exact hne c rfl
    have hv' : v < 2 ^ 32 := by
      rw [hv]
      cases U with
      | nil => exact hb'
      | cons c U => exact Nat.lt_of_le_of_lt (Nat.le_add_right _ _) (hlt c (mem_cons_of_mem _ mem_cons_self))
    have hq' : (joinAt h q.start v).ptr q.start = v ∧ (joinAt h q.start v).size q.start = h.size q.start := by
      rw [joinAt, if_neg hnot]
      exact ⟨Heap.ptr_setPtr hv', Heap.size_setPtr_self⟩
    rw [hj]
    refine ⟨⟨rfl, ?_⟩, fun c hc => ?_⟩
    · rw [hq'.1]
      refine hp.congr fun a ha => ?_
      obtain ⟨c, hc, rfl⟩ := mem_map.mp ha
      exact (hsame c hc).1
    · rcases mem_cons.mp hc with rfl | hc
      · rw [hq'.2, hq]
      · rw [(hsame c hc).2, hU c hc]
  · -- the block takes in the one behind it
    obtain rfl : v = c.start := hv
    have hcs := hlt c (mem_cons_of_mem _ mem_cons_self)
    have hcl := hU c mem_cons_self
    have hsum : h.size q.start + h.size c.start < 2 ^ 32 := by
      simp only [stop] at *
      omega
    have hq' : (joinAt h q.start c.start).ptr q.start = h.ptr c.start ∧
        (joinAt h q.start c.start).size q.start = h.size q.start + h.size c.start := by
      rw [joinAt, if_pos (hplus.trans hc), Nat.mod_eq_of_lt hsum]
      exact ⟨Heap.ptr_setPtr (h.ptr_lt _), by rw [Heap.size_setPtr_self, Heap.size_setSize hsum]⟩
    rw [hj]
    refine ⟨⟨rfl, ?_⟩, fun d hd => ?_⟩
    · rw [hq'.1]
      refine hp.2.congr fun a ha => ?_
      obtain ⟨d, hd, rfl⟩ := mem_map.mp ha
      exact (hsame d (mem_cons_of_mem _ hd)).1
    · rcases mem_cons.mp hd with rfl | hd
      · dsimp only
        rw [hq'.2]
        omega
      · rw [(hsame d (mem_cons_of_mem _ hd)).2, hU d (mem_cons_of_mem _ hd)]

/-! ### The place of a block in the list -/

theorem findPlace_ahead {W N : List Nat} {p : Nat} (hp : PtrPath h.ptr x (W ++ p :: N) base)
    (hW : (W ++ p :: N).Pairwise (· < ·))
    (hbase : base ≤ x) (hpb : p < b) (hN : ∀ c ∈ N, b < c) : findPlace h b (f + W.length + 1) x = some p := by
  induction W generalizing x with
  | nil =>
    obtain ⟨rfl, hp⟩ := hp
    have hnext := hp.eq_headD
    rw [findPlace]
    cases N with
    | nil =>
      rw [headD_nil] at hnext
      rw [if_neg (by omega), if_pos (by omega)]
    | cons c N =>
      rw [headD_cons] at hnext
      rw [if_pos ⟨hpb, hnext ▸ hN c mem_cons_self⟩]
  | cons w W ih =>
    obtain ⟨rfl, hp⟩ := hp
    obtain ⟨hw, hW⟩ := pairwise_cons.mp hW
    -- the next node is at most `p`, so the block is not in front of it
    have hnext : x < h.ptr x ∧ h.ptr x ≤ p := by
      rw [hp.eq_headD]
      cases W with
      | nil => exact ⟨hw p mem_cons_self, Nat.le_refl _⟩
      | cons y W =>
        have hy := (pairwise_cons.mp hW).1 p (mem_append_right _ mem_cons_self)
        exact ⟨hw y mem_cons_self, Nat.le_of_lt hy⟩
    rw [findPlace, if_neg (by omega), if_neg (by omega), length_cons]
    exact ih hp hW (by omega)

theorem findPlace_behind {W : List Nat} (hp : PtrPath h.ptr x W base) (hW : W.Pairwise (· < ·)) (hbase : base < b)
    (hb : ∀ c ∈ W, b < c) : findPlace h b (f + W.length) x = findPlace h b f base := by
  induction W generalizing x with
  | nil =>
    obtain rfl : x = base := hp
    rfl
  | cons w W ih =>
    obtain ⟨rfl, hp⟩ := hp
    obtain ⟨hw, hW⟩ := pairwise_cons.mp hW
    have hx := hb x mem_cons_self
    have hnext : x < h.ptr x ∨ h.ptr x = base := by
      rw [hp.eq_headD]
      cases W with
      | nil => exact .inr rfl
      | cons y W => exact .inl (hw y mem_cons_self)
    rw [length_cons, ← Nat.add_assoc, findPlace, if_neg (by omega), if_neg (by omega)]
    exact ih hp hW fun c hc => hb c (mem_cons_of_mem _ hc)

theorem findPlace_eq {N₁ N₂ : List Nat} {p : Nat} (hp : PtrPath h.ptr base (N₁ ++ p :: N₂) base)
    (hs : (N₁ ++ p :: N₂).Pairwise (· < ·)) (hpb : p < b) (hN : ∀ c ∈ N₂, b < c) (hx : x ∈ N₁ ++ p :: N₂)
    (hbase : ∀ c ∈ N₁ ++ p :: N₂, base ≤ c) (hf : 2 * (N₁ ++ p :: N₂).length ≤ f) : findPlace h b f x = some p := by
  simp only [length_append, length_cons] at hf
  by_cases hx₂ : x ∈ N₂
  · obtain ⟨K, W, rfl⟩ := append_of_mem hx₂
    have hbase' := hbase p (mem_append_right _ mem_cons_self)
    have hs' : (x :: W).Pairwise (· < ·) := hs.sublist
      ((sublist_append_right K _).trans ((sublist_cons_self _ _).trans (sublist_append_right N₁ _)))
    have hpx : PtrPath h.ptr x (x :: W) base := by
      obtain ⟨-, hp⟩ := PtrPath.append_cons_iff.mp hp
      exact ⟨rfl, (PtrPath.append_cons_iff.mp hp).2⟩
    simp only [length_append, length_cons] at hf
    obtain ⟨g, rfl⟩ := Nat.exists_eq_add_of_le (show N₁.length + 1 + (x :: W).length ≤ f by rw [length_cons]; omega)
    rw [show N₁.length + 1 + (x :: W).length + g = g + N₁.length + 1 + (x :: W).length by omega,
      findPlace_behind hpx hs' (by omega) fun c hc => hN c (mem_append_right _ hc)]
    exact findPlace_ahead hp hs (Nat.le_refl _) hpb hN
  · -- the node is at or before the place
    obtain ⟨K, W, hW, hhead⟩ : ∃ K W, N₁ ++ p :: N₂ = K ++ (W ++ p :: N₂) ∧ (W ++ p :: N₂).headD base = x := by
      rcases mem_append.mp hx with hx | hx
      · obtain ⟨K, W, rfl⟩ := append_of_mem hx
        exact ⟨K, x :: W, append_assoc _ _ _, rfl⟩
      · obtain rfl := (mem_cons.mp hx).resolve_right hx₂
        exact ⟨N₁, [], rfl, rfl⟩
    have hlen : W.length ≤ N₁.length := by
      have := congrArg List.length hW
      simp only [length_append, length_cons] at this
      omega
    have hxbase := hbase x hx
    rw [hW] at hp hs
    obtain ⟨m, -, hm⟩ := PtrPath.append_iff.mp hp
    obtain rfl : m = x := hm.eq_headD.trans hhead
    obtain ⟨g, rfl⟩ := Nat.exists_eq_add_of_le (show W.length + 1 ≤ f by omega)
    rw [show W.length + 1 + g = g + W.length + 1 by omega]
    exact findPlace_ahead hm (hs.sublist (sublist_append_right K _)) hxbase hpb hN

/-! ### The heap -/

def Proper (base : Nat) (b : Span) : Prop := 0 < b.len ∧ base + 8 ≤ b.start

def root (base : Nat) : Span := ⟨base, 0⟩

/-- The free list leads from the static header through the blocks `F` and back. The blocks `F` and `A` are all the
    memory that `sbrk` has given. -/
structure Good (base : Nat) (h : Heap) (F A : List Span) : Prop where
  base_pos : 0 < base
  path : PtrPath h.ptr base ((root base :: F).map start) base
  freep : h.freep ∈ (root base :: F).map start
  root_size : h.size base = 0
  sized : Sized h (F ++ A)
  order : (root base :: F).Pairwise Before
  proper : ∀ b ∈ F ++ A, Proper base b
  covered : ∀ x, cover (F ++ A) x = cover h.given x
  once : ∀ x, cover h.given x ≤ 1
  below : ∀ b ∈ h.given, b.stop ≤ h.brk
  base_lt : base + 8 ≤ h.brk
  brk_lt : h.brk < 2 ^ 32

namespace Good

section

variable (g : Good base h F A)
include g

theorem perm {A' : List Span} (hA : A.Perm A') : Good base h F A' where
  base_pos := g.base_pos
  path := g.path
  freep := g.freep
  root_size := g.root_size
  sized c hc := g.sized c ((hA.append_left F).mem_iff.mpr hc)
  order := g.order
  proper c hc := g.proper c ((hA.append_left F).mem_iff.mpr hc)
  covered x := by rw [← g.covered x, cover_perm (hA.append_left F)]
  once := g.once
  below := g.below
  base_lt := g.base_lt
  brk_lt := g.brk_lt

theorem stop_le (hc : c ∈ F ++ A) : c.stop ≤ h.brk := by
  have hpos := (g.proper c hc).1
  have hhas : c.Has (c.stop - 1) := by
    simp only [Has, stop] at *
    omega
  have hcov := cover_pos_iff.mpr ⟨c, hc, hhas⟩
  rw [g.covered] at hcov
  obtain ⟨d, hd, hd'⟩ := cover_pos_iff.mp hcov
  have := g.below d hd
  simp only [Has, stop] at *
  omega

theorem apart : (F ++ A).Pairwise Apart :=
  pairwise_apart (fun x => (g.covered x).trans_le (g.once x)) fun c hc => (g.proper c hc).1

theorem header_le (hc : c ∈ F ++ A) : c.start + 8 ≤ c.stop := by
  have h1 := (g.proper c hc).1
  have h2 := g.sized c hc
  simp only [stop]
  omega

theorem clear_of_apart (hc : c ∈ F ++ A) (hd : d ∈ F ++ A) (ha : Apart c d) : Clear c.start d.start := by
  have h1 := g.header_le hc
  have h2 := g.header_le hd
  unfold Apart at ha
  unfold Clear
  omega

theorem spaced : (root base :: F).Pairwise fun c d => c.start + 8 ≤ d.start := by
  obtain ⟨h0, hF⟩ := pairwise_cons.mp g.order
  refine pairwise_cons.mpr ⟨fun d hd => (g.proper d (mem_append_left _ hd)).2, hF.imp_of_mem fun hc hd hb => ?_⟩
  have := g.header_le (mem_append_left A hc)
  unfold Before at hb
  omega

section

variable (hc : c ∈ root base :: F)
include hc

theorem clear (hd : d ∈ A) : Clear c.start d.start := by
  rcases mem_cons.mp hc with rfl | hc
  · exact .inl (g.proper d (mem_append_right _ hd)).2
  · exact g.clear_of_apart (mem_append_left _ hc) (mem_append_right _ hd)
      ((pairwise_append.mp g.apart).2.2 c hc d hd)

theorem base_le : base ≤ c.start := by
  rcases mem_cons.mp hc with rfl | hc
  · exact Nat.le_refl _
  · have := (g.proper c (mem_append_left _ hc)).2
    omega

theorem sized_root : 8 * h.size c.start = c.len := by
  rcases mem_cons.mp hc with rfl | hc
  · exact congrArg (8 * ·) g.root_size
  · exact g.sized c (mem_append_left _ hc)

theorem stop_le_root : c.stop ≤ h.brk := by
  rcases mem_cons.mp hc with rfl | hc
  · have := g.base_lt
    simp only [root, stop]
    omega
  · exact g.stop_le (mem_append_left _ hc)

end

end

end Good

theorem length_le_of_spaced {l : List Span} (lo hi : Nat) (hs : l.Pairwise fun c d => c.start + 8 ≤ d.start)
    (hl : ∀ c ∈ l, lo ≤ c.start ∧ c.start ≤ hi) : lo + 8 * l.length ≤ hi + 8 ∨ l = [] := by
  induction l generalizing lo with
  | nil => exact .inr rfl
  | cons c l ih =>
    obtain ⟨hc, hs⟩ := pairwise_cons.mp hs
    have h1 := hl c mem_cons_self
    have h2 := ih (c.start + 8) hs fun d hd => ⟨hc d hd, (hl d (mem_cons_of_mem _ hd)).2⟩
    left
    rcases h2 with h2 | rfl
    · rw [length_cons]
      omega
    · rw [length_singleton]
      omega

theorem Good.length_le (g : Good base h F A) : 8 * (root base :: F).length ≤ 2 ^ 32 := by
  have hlt := g.brk_lt
  rcases length_le_of_spaced base h.brk g.spaced fun c hc =>
    ⟨g.base_le hc, Nat.le_trans (Nat.le_add_right _ _) (g.stop_le_root hc)⟩ with hl | hl
  · have hpos := g.base_pos
    omega
  · cases hl

/-! ### free -/

structure Place (base : Nat) (h : Heap) (F A : List Span) (c : Span) (G : List Span) (q : Span) (U : List Span) :
    Prop where
  good : Good base h F (c :: A)
  list : root base :: F = G ++ q :: U
  lower : q.stop ≤ c.start
  upper : ∀ d ∈ U, c.stop ≤ d.start

theorem Good.exists_place (g : Good base h F (c :: A)) : ∃ G q U, Place base h F A c G q U := by
  have hcF : c ∈ F ++ c :: A := mem_append_right _ mem_cons_self
  have hc := g.proper c hcF
  obtain ⟨F₁, U, hF, h1, h2⟩ := exists_cut (pairwise_cons.mp g.order).2 c.start
  obtain ⟨G, q, hG⟩ : ∃ G q, root base :: F₁ = G ++ [q] :=
    ⟨_, _, (dropLast_append_getLast (cons_ne_nil _ _)).symm⟩
  have happ : ∀ d ∈ F, 0 < d.len ∧ Apart d c := fun d hd =>
    ⟨(g.proper d (mem_append_left _ hd)).1, (pairwise_append.mp g.apart).2.2 d hd c mem_cons_self⟩
  refine ⟨G, q, U, g, ?_, ?_, fun d hd => ?_⟩
  · rw [hF, ← cons_append, hG, append_assoc]
    rfl
  · have hq : q ∈ root base :: F₁ := hG ▸ mem_append_right _ (mem_singleton_self q)
    rcases mem_cons.mp hq with rfl | hq
    · have := hc.2
      simp only [root, stop]
      omega
    · have h3 := h1 q hq
      have h4 := (happ q (hF ▸ mem_append_left _ hq)).2
      have h5 := hc.1
      simp only [Apart, stop] at *
      omega
  · have h3 := h2 d hd
    have h4 := happ d (hF ▸ mem_append_right _ hd)
    simp only [Apart, stop] at *
    omega

namespace Place

variable (s : Place base h F A c G q U)
include s

theorem proper : Proper base c := s.good.proper c (mem_append_right _ mem_cons_self)

theorem mem_lower : q ∈ root base :: F := s.list ▸ mem_append_right _ mem_cons_self

theorem mem_upper (hd : d ∈ U) : d ∈ root base :: F := s.list ▸ mem_append_right _ (mem_cons_of_mem _ hd)

theorem mem_before (hd : d ∈ G) : d ∈ root base :: F := s.list ▸ mem_append_left _ hd

theorem clear (hd : d ∈ root base :: F) : Clear d.start c.start := s.good.clear hd mem_cons_self

theorem lower_add : q.start + 8 ≤ c.start := by
  have h1 := s.clear s.mem_lower
  have h2 := s.lower
  have h3 := s.proper.1
  simp only [Clear, stop] at *
  omega

theorem spaced : (G ++ q :: U).Pairwise fun c d => c.start + 8 ≤ d.start := s.list ▸ s.good.spaced

theorem path : PtrPath h.ptr base (G.map start) q.start ∧ PtrPath h.ptr (h.ptr q.start) (U.map start) base := by
  have hp := s.good.path
  rw [s.list, map_append, map_cons] at hp
  exact PtrPath.append_cons_iff.mp hp

theorem stop_lt (hd : d ∈ c :: U) : d.stop < 2 ^ 32 := by
  refine Nat.lt_of_le_of_lt ?_ s.good.brk_lt
  rcases mem_cons.mp hd with rfl | hd
  · exact s.good.stop_le (mem_append_right _ mem_cons_self)
  · exact s.good.stop_le_root (s.mem_upper hd)

theorem found : findPlace h c.start turns h.freep = some q.start := by
  have hp := s.good.path
  have hl := s.good.length_le
  have hf := s.good.freep
  have hb : ∀ x ∈ (root base :: F).map start, base ≤ x := fun x hx => by
    obtain ⟨d, hd, rfl⟩ := mem_map.mp hx
    exact s.good.base_le hd
  have hsort : ((G ++ q :: U).map start).Pairwise (· < ·) := pairwise_map.mpr (s.spaced.imp fun h => by omega)
  rw [s.list] at hp hl hf hb
  rw [map_append, map_cons] at hp hf hsort hb
  refine findPlace_eq hp hsort ?_ (fun x hx => ?_) hf hb ?_
  · have := s.lower_add
    omega
  · obtain ⟨d, hd, rfl⟩ := mem_map.mp hx
    have h1 := s.upper d hd
    have h2 := s.proper.1
    simp only [stop] at h1
    omega
  · simp only [length_append, length_cons, length_map, turns] at hl ⊢
    omega

theorem upper_pos (hd : d ∈ U) : 0 < d.len := by
  rcases mem_cons.mp (s.mem_upper hd) with rfl | hd'
  · have h1 := s.upper _ hd
    have h2 := s.proper.2
    simp only [root, stop] at h1
    omega
  · exact (s.good.proper d (mem_append_left _ hd')).1

theorem mem_joined (hd : d ∈ join c U) : c.start ≤ d.start ∧ 0 < d.len ∧ d.stop < 2 ^ 32 := by
  have hpos := s.proper.1
  rcases mem_join hd with ⟨h1, h2, e, he, h3⟩ | hd
  · have := s.stop_lt he
    exact ⟨by omega, by omega, by omega⟩
  · have h1 := s.upper d hd
    have h2 := s.stop_lt (mem_cons_of_mem c hd)
    have h3 := s.upper_pos hd
    simp only [stop] at *
    omega

theorem order : (G ++ join q (join c U)).Pairwise Before := by
  have ho := s.good.order
  rw [s.list] at ho
  obtain ⟨hG, hq, hGq⟩ := pairwise_append.mp ho
  have hU := (pairwise_cons.mp hq).2
  have hj : (join c U).Pairwise Before :=
    pairwise_join hU (fun d hd => s.upper_pos hd) s.upper
  refine pairwise_append.mpr ⟨hG, pairwise_join hj (fun d hd => (s.mem_joined hd).2.1) fun d hd => ?_, ?_⟩
  · exact Nat.le_trans s.lower (s.mem_joined hd).1
  · intro d hd e he
    have h1 := hGq d hd q mem_cons_self
    have h2 := s.lower_add
    rcases mem_join he with ⟨h3, -⟩ | he
    · unfold Before at *
      omega
    · have := (s.mem_joined he).1
      unfold Before at *
      omega

theorem joined_eq : joinLower (joinUpper h c.start q.start) c.start q.start = joinBoth h c q := by
  have hq := s.clear s.mem_lower
  have hv : Clear c.start (h.ptr q.start) := by
    rw [s.path.2.eq_headD]
    cases hU : U with
    | nil => exact .inr s.proper.2
    | cons d U => exact (s.clear (s.mem_upper (hU ▸ mem_cons_self))).symm
  rw [joinUpper_eq hq.symm hv, joinLower_eq hq]

theorem joined : PtrPath (joinBoth h c q).ptr base ((G ++ join q (join c U)).map start) base ∧
    Sized (joinBoth h c q) (G ++ join q (join c U)) := by
  have hbase : base < 2 ^ 32 := by
    have h1 := s.good.base_lt
    have h2 := s.good.brk_lt
    omega
  have hc := s.good.sized c (mem_append_right _ mem_cons_self)
  obtain ⟨hpG, hpU⟩ := s.path
  have hUspace : ∀ d ∈ U, c.start + 8 ≤ d.start := fun d hd => by
    have h1 := s.clear (s.mem_upper hd)
    have h2 := s.upper d hd
    have h3 := s.proper.1
    simp only [Clear, stop] at *
    omega
  -- first the block with those behind it
  obtain ⟨hp1, hs1⟩ :=
    joinAt_path hc (fun d hd => s.good.sized_root (s.mem_upper hd)) hpU hUspace (fun d hd => s.stop_lt hd)
    (fun _ => by have := s.proper.2; simp only [stop]; omega) hbase
  -- then the block in front of it with all of these
  have hq : 8 * (joinAt h c.start (h.ptr q.start)).size q.start = q.len := by
    rw [(joinAt_clear (s.clear s.mem_lower).symm).2]
    exact s.good.sized_root s.mem_lower
  have hne : join c U ≠ [] := fun he => by
    obtain ⟨d, l, hd, -⟩ := join_eq_cons c U
    rw [he] at hd
    cases hd
  have hlt : ∀ d ∈ q :: join c U, d.stop < 2 ^ 32 := fun d hd => by
    rcases mem_cons.mp hd with rfl | hd
    · exact Nat.lt_of_le_of_lt (s.good.stop_le_root s.mem_lower) s.good.brk_lt
    · exact (s.mem_joined hd).2.2
  obtain ⟨hp2, hs2⟩ := joinAt_path hq hs1 hp1 (fun d hd => Nat.le_trans s.lower_add (s.mem_joined hd).1) hlt
    (fun he => absurd he hne) hbase
  have hother : ∀ d ∈ G, (joinBoth h c q).ptr d.start = h.ptr d.start ∧
      (joinBoth h c q).size d.start = h.size d.start := fun d hd =>
    joinAt_joinAt_clear (s.clear (s.mem_before hd)).symm
      (.inr ((pairwise_append.mp s.spaced).2.2 d hd q mem_cons_self))
  constructor
  · rw [map_append]
    refine PtrPath.append_iff.mpr ⟨q.start, hpG.congr fun x hx => ?_, hp2⟩
    obtain ⟨d, hd, rfl⟩ := mem_map.mp hx
    exact (hother d hd).1
  · intro d hd
    rcases mem_append.mp hd with hd | hd
    · rw [(hother d hd).2]
      exact s.good.sized_root (s.mem_before hd)
    · exact hs2 d hd

theorem root_joined : ∃ F', G ++ join q (join c U) = root base :: F' ∧ ∀ d ∈ F', Proper base d := by
  obtain ⟨F', hF⟩ : ∃ F', G ++ join q (join c U) = root base :: F' := by
    have hl := s.list
    cases G with
    | cons d G => exact ⟨G ++ join q (join c U), by rw [(List.cons.inj hl).1]; rfl⟩
    | nil =>
      obtain ⟨rfl, -⟩ := List.cons.inj hl
      obtain ⟨hj, -⟩ | ⟨d, l, hj, hd, -⟩ := join_cases (root base) (join c U)
      · exact ⟨_, hj⟩
      · have h1 := (s.mem_joined (hj ▸ mem_cons_self)).1
        have h2 := s.proper.2
        simp only [root, stop] at hd
        omega
  refine ⟨F', hF, fun d hd => ?_⟩
  -- a block that starts above the static header is one of the old ones, or grown from one
  have ho := s.order
  rw [hF] at ho
  have hlt : base < d.start := (pairwise_cons.mp ho).1 d hd
  have hold : ∀ e ∈ root base :: F, base < e.start → Proper base e := fun e he hlt => by
    rcases mem_cons.mp he with rfl | he
    · exact absurd hlt (Nat.lt_irrefl base)
    · exact s.good.proper e (mem_append_left _ he)
  have hd' : d ∈ G ++ join q (join c U) := hF ▸ mem_cons_of_mem _ hd
  rcases mem_append.mp hd' with hd' | hd'
  · exact hold d (s.mem_before hd') hlt
  · rcases mem_join hd' with ⟨h1, h2, -⟩ | hd'
    · have h3 := hold q s.mem_lower (h1 ▸ hlt)
      exact ⟨Nat.lt_of_lt_of_le h3.1 h2, h1 ▸ h3.2⟩
    · have h3 := s.mem_joined hd'
      exact ⟨h3.2.1, Nat.le_trans s.proper.2 h3.1⟩

end Place

theorem cover_root (base : Nat) (F : List Span) : cover (root base :: F) x = cover F x := by
  rw [cover_cons, if_neg (by simp only [root, Has, stop]; omega), Nat.zero_add]

theorem Good.free (g : Good base h F (c :: A)) :
    ∃ h' F', Umalloc.free h (c.start + 8) = some h' ∧ Good base h' F' A ∧ ∃ d ∈ F', c.len ≤ d.len := by
  obtain ⟨G, q, U, s⟩ := g.exists_place
  obtain ⟨F', hF, hproper⟩ := s.root_joined
  obtain ⟨hpath, hsized⟩ := s.joined
  have horder := s.order
  rw [hF] at hpath hsized horder
  have hbp : (c.start + 8 + 2 ^ 32 - headerSize) % 2 ^ 32 = c.start := by
    have h1 := s.stop_lt mem_cons_self
    simp only [headerSize, stop] at *
    omega
  have hA : Sized (joinBoth h c q) A := fun d hd => by
    have hd' : d ∈ F ++ c :: A := mem_append_right _ (mem_cons_of_mem _ hd)
    have happ := (pairwise_cons.mp (pairwise_append.mp g.apart).2.1).1 d hd
    have hcd := g.clear_of_apart (mem_append_right _ mem_cons_self) hd' happ
    rw [(joinAt_joinAt_clear hcd (g.clear s.mem_lower (mem_cons_of_mem _ hd))).2]
    exact g.sized d hd'
  have hcov : ∀ x, cover F' x = cover F x + cover [c] x := fun x => by
    rw [← cover_root base F', ← hF, cover_append, cover_join, cover_cons, cover_join, ← cover_root base F, s.list,
      cover_append]
    simp only [cover_cons, cover_nil]
    omega
  have hbig : ∃ d ∈ F', c.len ≤ d.len := by
    obtain ⟨d, hd, hlen⟩ := exists_mem_join_join q c U
    have hd' : d ∈ root base :: F' := hF ▸ mem_append_right _ hd
    rcases mem_cons.mp hd' with rfl | hd'
    · exact absurd s.proper.1 (Nat.not_lt.mpr hlen)
    · exact ⟨d, hd', hlen⟩
  have hres : Umalloc.free h (c.start + 8) = some { joinBoth h c q with freep := q.start } := by
    rw [Umalloc.free, hbp]
    dsimp only
    rw [s.found, ← s.joined_eq]
    rfl
  have hgiven : (joinBoth h c q).given = h.given ∧ (joinBoth h c q).brk = h.brk := by simp
  generalize joinBoth h c q = k at hpath hsized hA hres hgiven
  refine ⟨{ k with freep := q.start }, F', hres, ?_, hbig⟩
  obtain ⟨hgiven, hbrk⟩ := hgiven
  refine ⟨g.base_pos, hpath, ?_, ?_, fun d hd => ?_, horder, fun d hd => ?_, fun x => ?_, hgiven ▸ g.once, ?_,
    hbrk ▸ g.base_lt, hbrk ▸ g.brk_lt⟩
  · rw [← hF]
    obtain ⟨d, l, hd, hstart, -⟩ := join_eq_cons q (join c U)
    exact mem_map.mpr ⟨d, mem_append_right _ (hd ▸ mem_cons_self), hstart⟩
  · have hroot : 8 * k.size base = 0 := hsized (root base) mem_cons_self
    exact (Nat.mul_eq_zero.mp hroot).resolve_left (by decide)
  · rcases mem_append.mp hd with hd | hd
    · exact hsized d (mem_cons_of_mem _ hd)
    · exact hA d hd
  · rcases mem_append.mp hd with hd | hd
    · exact hproper d hd
    · exact g.proper d (mem_append_right _ (mem_cons_of_mem _ hd))
  · rw [hgiven, ← g.covered x, cover_append, cover_append, hcov]
    simp only [cover_cons, cover_nil]
    omega
  · rw [hgiven, hbrk]
    exact g.below

/-! ### morecore -/

theorem Good.grow (g : Good base h F A) {p nu : Nat} (hp : h.brk ≤ p) (hlt : p + 8 * nu < 2 ^ 32) (hnu : 0 < nu)
    (answers : Nat → Option Nat) :
    Good base (({ h with answers := answers, brk := p + 8 * nu, given := ⟨p, 8 * nu⟩ :: h.given } :
    Heap).setSize p nu) F
      (⟨p, 8 * nu⟩ :: A) := by
  have hbase := g.base_lt
  have hroot : ∀ c ∈ root base :: F, Clear p c.start := fun c hc => by
    rcases mem_cons.mp hc with rfl | hc
    · exact .inr (Nat.le_trans hbase hp)
    · have h1 := g.header_le (mem_append_left A hc)
      have h2 := g.stop_le (mem_append_left A hc)
      exact .inr (by omega)
  have hA : ∀ c ∈ A, Clear p c.start := fun c hc => by
    have h1 := g.header_le (mem_append_right F hc)
    have h2 := g.stop_le (mem_append_right F hc)
    exact .inr (by omega)
  refine ⟨g.base_pos, g.path.congr fun x hx => ?_, g.freep, ?_, fun c hc => ?_, g.order, fun c hc => ?_, fun x => ?_,
    fun x => ?_, fun c hc => ?_, ?_, hlt⟩
  · obtain ⟨c, hc, rfl⟩ := mem_map.mp hx
    exact Heap.ptr_setSize_ne (hroot c hc)
  · exact (Heap.size_setSize_ne (hroot _ mem_cons_self)).trans g.root_size
  · rcases mem_append.mp hc with hc | hc
    · rw [Heap.size_setSize_ne (hroot c (mem_cons_of_mem _ hc))]
      exact g.sized c (mem_append_left _ hc)
    · rcases mem_cons.mp hc with rfl | hc
      · rw [Heap.size_setSize (by omega)]
      · rw [Heap.size_setSize_ne (hA c hc)]
        exact g.sized c (mem_append_right _ hc)
  · rcases mem_append.mp hc with hc | hc
    · exact g.proper c (mem_append_left _ hc)
    · rcases mem_cons.mp hc with rfl | hc
      · exact ⟨Nat.mul_pos (by decide) hnu, Nat.le_trans hbase hp⟩
      · exact g.proper c (mem_append_right _ hc)
  · have hx := g.covered x
    simp only [Heap.setSize, cover_append, cover_cons] at hx ⊢
    omega
  · have hx := g.once x
    simp only [Heap.setSize, cover_cons]
    by_cases hnew : Has ⟨p, 8 * nu⟩ x
    · -- what was given before ends below
      have hzero : cover h.given x = 0 := by
        by_contra hne
        obtain ⟨c, hc, hcx⟩ := cover_pos_iff.mp (Nat.pos_of_ne_zero hne)
        have := g.below c hc
        simp only [Has] at hnew hcx
        omega
      rw [if_pos hnew, hzero]
    · rw [if_neg hnew]
      omega
  · rcases mem_cons.mp hc with rfl | hc
    · exact Nat.le_refl _
    · have := g.below c hc
      simp only [Heap.setSize]
      omega
  · simp only [Heap.setSize]
    omega

theorem Good.answers (g : Good base h F A) (answers : Nat → Option Nat) : Good base { h with answers := answers } F A :=
  ⟨g.base_pos, g.path, g.freep, g.root_size, g.sized, g.order, g.proper, g.covered, g.once, g.below, g.base_lt,
    g.brk_lt⟩

theorem Good.freep_ne_zero (g : Good base h F A) : h.freep ≠ 0 := by
  obtain ⟨c, hc, he⟩ := mem_map.mp g.freep
  have h1 := g.base_le hc
  have h2 := g.base_pos
  omega

theorem Heap.sbrk_cases (h : Heap) (hn : n < 2 ^ 31) :
    h.sbrk n = (none, { h with answers := fun i => h.answers (i + 1) }) ∨ ∃ p, h.brk ≤ p ∧ p + n < 2 ^ 32 ∧ h.sbrk n =
      (some p, { h with answers := fun i => h.answers (i + 1), brk := p + n, given := ⟨p, n⟩ :: h.given }) := by
  rw [Heap.sbrk]
  dsimp only
  cases h.answers 0 with
  | none => exact .inl rfl
  | some gap =>
    dsimp only
    rw [if_pos hn]
    split
    next hlt => exact .inr ⟨h.brk + gap, Nat.le_add_right _ _, hlt, rfl⟩
    next => exact .inl rfl

theorem coreBytes_eq (hn : n < 2 ^ 28) : coreBytes n = 8 * coreUnits n ∧ n ≤ coreUnits n ∧ coreUnits n < 2 ^ 28 := by
  unfold coreBytes headerSize coreUnits
  split <;> omega

theorem Good.morecore (g : Good base h F A) (hn : n < 2 ^ 28) : ∃ r h', Umalloc.morecore h n = some (r, h') ∧
      (r = 0 ∧ (h.sbrk (coreBytes n)).1 = none ∧ h' = { h with answers := fun i => h.answers (i + 1) } ∨
        r = h'.freep ∧ (h.sbrk (coreBytes n)).1 ≠ none ∧ ∃ F', Good base h' F' A ∧ ∃ d ∈ F', 8 * n ≤ d.len) := by
  obtain ⟨hbytes, hle, hlt⟩ := coreBytes_eq hn
  have hpos : 0 < coreUnits n := by
    unfold coreUnits
    split <;> omega
  unfold Umalloc.morecore
  rw [hbytes]
  rcases h.sbrk_cases (n := 8 * coreUnits n) (by omega) with hs | ⟨p, hp, hend, hs⟩
  · rw [hs]
    exact ⟨0, _, rfl, .inl ⟨rfl, rfl, rfl⟩⟩
  · obtain ⟨h', F', hf, hg, d, hd, hlen⟩ := (g.grow hp hend hpos fun i => h.answers (i + 1)).free
    rw [hs]
    dsimp only
    rw [plus_eq (by omega), hf]
    exact ⟨_, h', rfl, .inr ⟨rfl, Option.some_ne_none p, F', hg, d, hd, by dsimp only at hlen; omega⟩⟩

end Xv6.Umalloc
