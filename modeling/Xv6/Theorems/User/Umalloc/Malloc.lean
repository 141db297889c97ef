import Xv6.Lib.CInt
import Xv6.Theorems.User.Umalloc.Free

/-! `malloc` of umalloc.c, and programs that use the heap. -/

namespace Xv6.Umalloc
open Span List Option

variable {h h' : Heap} {base a b v x n f : Nat} {F U G A : List Span} {q c d : Span}

/-! ### malloc -/

theorem exists_root (hl : root base :: F = G ++ q :: U) (V : List Span) : ∃ F', root base :: F' = G ++ q :: V := by
  cases G with
  | nil => exact ⟨V, by rw [(cons.inj hl).1]; rfl⟩
  | cons d G => exact ⟨G ++ q :: V, by rw [(cons.inj hl).1]; rfl⟩

theorem Good.take_all (g : Good base h F A) (hl : root base :: F = G ++ q :: c :: U) (hc : c ∈ F) :
    ∃ F', Good base { h.setPtr q.start (h.ptr c.start) with freep := q.start } F' (c :: A) := by
  obtain ⟨F', hF⟩ := exists_root hl U
  have hsub : (root base :: F').Sublist (root base :: F) := by
    rw [hF, hl]
    exact (append_sublist_append_left G).mpr (cons_sublist_cons.mpr (sublist_cons_self c U))
  have hq : q ∈ root base :: F := hl ▸ mem_append_right _ mem_cons_self
  have hsp := g.spaced
  have hpath := g.path
  rw [hl] at hsp hpath
  rw [map_append, map_cons, map_cons] at hpath
  obtain ⟨hpG, hpq⟩ := PtrPath.append_cons_iff.mp hpath
  have hclear : ∀ d ∈ root base :: F, d = q ∨ Clear q.start d.start := fun d hd => by
    obtain ⟨hG, hqU, hGq⟩ := pairwise_append.mp hsp
    rw [hl] at hd
    rcases mem_append.mp hd with hd | hd
    · exact .inr (.inr (hGq d hd q mem_cons_self))
    · exact (mem_cons.mp hd).imp id fun hd => .inl ((pairwise_cons.mp hqU).1 d hd)
  have hsize : ∀ d ∈ root base :: F, (h.setPtr q.start (h.ptr c.start)).size d.start = h.size d.start := fun d hd => by
    rcases hclear d hd with rfl | hd
    · exact Heap.size_setPtr_self
    · exact Heap.size_setPtr_ne hd
  have hcov : ∀ x, cover F x = cover F' x + cover [c] x := fun x => by
    rw [← cover_root base F, ← cover_root base F', hF, hl]
    simp only [cover_append, cover_cons, cover_nil]
    omega
  have hmem : ∀ d ∈ F', d ∈ F := fun d hd => (cons_sublist_cons.mp hsub).subset hd
  refine ⟨F', g.base_pos, ?_, ?_, (hsize _ mem_cons_self).trans g.root_size, fun d hd => ?_, g.order.sublist hsub,
    fun d hd => ?_, fun x => ?_, g.once, g.below, g.base_lt, g.brk_lt⟩
  · -- the links in front are kept, `q` leads to what was behind `c`
    rw [hF, map_append, map_cons]
    refine PtrPath.append_cons_iff.mpr ⟨hpG.congr fun x hx => ?_, ?_⟩
    · obtain ⟨d, hd, rfl⟩ := mem_map.mp hx
      exact Heap.ptr_setPtr_ne (.inr ((pairwise_append.mp hsp).2.2 d hd q mem_cons_self))
    · have hqc : (h.setPtr q.start (h.ptr c.start)).ptr q.start = h.ptr c.start := Heap.ptr_setPtr (h.ptr_lt _)
      change PtrPath (h.setPtr q.start (h.ptr c.start)).ptr ((h.setPtr q.start (h.ptr c.start)).ptr q.start) _ _
      rw [hqc]
      refine hpq.2.congr fun x hx => ?_
      obtain ⟨d, hd, rfl⟩ := mem_map.mp hx
      exact Heap.ptr_setPtr_ne
        (.inl ((pairwise_cons.mp (pairwise_append.mp hsp).2.1).1 d (mem_cons_of_mem _ hd)))
  · rw [hF]
    exact mem_map.mpr ⟨q, mem_append_right _ mem_cons_self, rfl⟩
  · change 8 * (h.setPtr q.start (h.ptr c.start)).size d.start = d.len
    rcases mem_append.mp hd with hd | hd
    · rw [hsize d (mem_cons_of_mem _ (hmem d hd))]
      exact g.sized d (mem_append_left _ (hmem d hd))
    · rcases mem_cons.mp hd with rfl | hd
      · rw [hsize d (mem_cons_of_mem _ hc)]
        exact g.sized d (mem_append_left _ hc)
      · rw [Heap.size_setPtr_ne (g.clear hq hd)]
        exact g.sized d (mem_append_right _ hd)
  · rcases mem_append.mp hd with hd | hd
    · exact g.proper d (mem_append_left _ (hmem d hd))
    · rcases mem_cons.mp hd with rfl | hd
      · exact g.proper d (mem_append_left _ hc)
      · exact g.proper d (mem_append_right _ hd)
  · have hx := g.covered x
    rw [cover_append, hcov] at hx
    change Span.cover _ x = Span.cover h.given x
    rw [← hx]
    simp only [cover_append, cover_cons, cover_nil]
    omega

variable {F₁ : List Span}

theorem Good.take_end {m p : Nat} (g : Good base h (F₁ ++ c :: U) A) (hc : c.len = 8 * m + 8 * n) (hm : 0 < m)
    (hn : 0 < n) (hp : p ∈ (root base :: F₁).map start) :
    Good base { (h.setSize c.start m).setSize (c.start + 8 * m) n with freep := p } (F₁ ++ ⟨c.start, 8 * m⟩ :: U)
      (⟨c.start + 8 * m, 8 * n⟩ :: A) := by
  have hcF : c ∈ F₁ ++ c :: U := mem_append_right _ mem_cons_self
  have hstop := g.stop_le (mem_append_left A hcF)
  have hbrk := g.brk_lt
  have happ : ∀ e ∈ F₁ ++ (U ++ A), Apart c e := by
    have h0 := g.apart
    rw [append_assoc, cons_append, pairwise_append] at h0
    intro e he
    rcases mem_append.mp he with he | he
    · exact (h0.2.2 e he c mem_cons_self).symm
    · exact (pairwise_cons.mp h0.2.1).1 e he
  have hmem : ∀ e ∈ F₁ ++ (U ++ A), e ∈ F₁ ++ c :: U ++ A := fun e he => by
    rw [append_assoc, cons_append]
    exact ((append_sublist_append_left F₁).mpr (sublist_cons_self c _)).subset he
  -- headers outside of the block are left alone
  have hother : ∀ x, Clear c.start x → Clear (c.start + 8 * m) x →
      ((h.setSize c.start m).setSize (c.start + 8 * m) n).ptr x = h.ptr x ∧
        ((h.setSize c.start m).setSize (c.start + 8 * m) n).size x = h.size x := fun x h1 h2 =>
    ⟨by rw [Heap.ptr_setSize_ne h2, Heap.ptr_setSize_ne h1], by rw [Heap.size_setSize_ne h2, Heap.size_setSize_ne h1]⟩
  have hclear : ∀ e ∈ F₁ ++ (U ++ A), Clear c.start e.start ∧ Clear (c.start + 8 * m) e.start := fun e he => by
    have h1 := happ e he
    have h2 := g.header_le (hmem e he)
    simp only [Apart, Clear, stop] at *
    omega
  have hroot : Clear c.start base ∧ Clear (c.start + 8 * m) base := by
    have := (g.proper c (mem_append_left A hcF)).2
    simp only [Clear]
    omega
  have hself : ((h.setSize c.start m).setSize (c.start + 8 * m) n).ptr c.start = h.ptr c.start ∧
      ((h.setSize c.start m).setSize (c.start + 8 * m) n).size c.start = m := by
    have hcl : Clear (c.start + 8 * m) c.start := .inr (by omega)
    rw [Heap.ptr_setSize_ne hcl, Heap.size_setSize_ne hcl, Heap.ptr_setSize_self, Heap.size_setSize]
    · exact ⟨rfl, rfl⟩
    · simp only [stop] at hstop
      omega
  have hend : ((h.setSize c.start m).setSize (c.start + 8 * m) n).size (c.start + 8 * m) = n :=
    Heap.size_setSize (by simp only [stop] at hstop; omega)
  have hstarts : (root base :: (F₁ ++ ⟨c.start, 8 * m⟩ :: U)).map start = (root base :: (F₁ ++ c :: U)).map start := by
    simp only [map_cons, map_append]
  have hgiven : ((h.setSize c.start m).setSize (c.start + 8 * m) n).given = h.given ∧
      ((h.setSize c.start m).setSize (c.start + 8 * m) n).brk = h.brk := ⟨rfl, rfl⟩
  generalize (h.setSize c.start m).setSize (c.start + 8 * m) n = k at hother hself hend hgiven
  obtain ⟨hgiven, hbrk'⟩ := hgiven
  have hsame : ∀ e ∈ F₁ ++ (U ++ A), k.ptr e.start = h.ptr e.start ∧ k.size e.start = h.size e.start := fun e he =>
    hother _ (hclear e he).1 (hclear e he).2
  refine ⟨g.base_pos, ?_, ?_, (hother base hroot.1 hroot.2).2.trans g.root_size, fun e he => ?_, ?_, fun e he => ?_,
    fun x => ?_, hgiven ▸ g.once, ?_, hbrk' ▸ g.base_lt, hbrk' ▸ g.brk_lt⟩
  · rw [hstarts]
    refine g.path.congr fun x hx => ?_
    obtain ⟨e, he, rfl⟩ := mem_map.mp hx
    rcases mem_cons.mp he with rfl | he
    · exact (hother base hroot.1 hroot.2).1
    · rcases mem_append.mp he with he | he
      · exact (hsame e (mem_append_left _ he)).1
      · rcases mem_cons.mp he with rfl | he
        · exact hself.1
        · exact (hsame e (mem_append_right _ (mem_append_left _ he))).1
  · rw [map_cons, map_append]
    rw [map_cons] at hp
    exact (mem_cons.mp hp).elim (fun h => h ▸ mem_cons_self) fun h => mem_cons_of_mem _ (mem_append_left _ h)
  · change 8 * k.size e.start = e.len
    simp only [mem_append, mem_cons] at he
    rcases he with (he | rfl | he) | rfl | he
    · rw [(hsame e (mem_append_left _ he)).2, g.sized e (by simp [he])]
    · rw [hself.2]
    · rw [(hsame e (mem_append_right _ (mem_append_left _ he))).2, g.sized e (by simp [he])]
    · rw [hend]
    · rw [(hsame e (mem_append_right _ (mem_append_right _ he))).2, g.sized e (by simp [he])]
  · have ho := g.order
    rw [← cons_append] at ho ⊢
    obtain ⟨h1, h2, h3⟩ := pairwise_append.mp ho
    obtain ⟨h4, h5⟩ := pairwise_cons.mp h2
    refine pairwise_append.mpr ⟨h1, pairwise_cons.mpr ⟨fun e he => ?_, h5⟩, fun e he e' he' => ?_⟩
    · have := h4 e he
      simp only [Before, stop] at *
      omega
    · rcases mem_cons.mp he' with rfl | he'
      · exact h3 e he c mem_cons_self
      · exact h3 e he e' (mem_cons_of_mem _ he')
  · have hc' := g.proper c (mem_append_left A hcF)
    simp only [mem_append, mem_cons] at he
    rcases he with (he | rfl | he) | rfl | he
    · exact g.proper e (by simp [he])
    · exact ⟨by dsimp only; omega, hc'.2⟩
    · exact g.proper e (by simp [he])
    · exact ⟨by dsimp only; omega, Nat.le_trans hc'.2 (Nat.le_add_right _ _)⟩
    · exact g.proper e (by simp [he])
  · have hx := g.covered x
    have hone := cover_split hc x
    rw [hgiven, ← hx]
    simp only [cover_append, cover_cons, cover_nil] at hone ⊢
    omega
  · rw [hgiven, hbrk']
    exact g.below

structure Next (base : Nat) (F : List Span) (p : Nat) (c : Span) (F₁ U : List Span) : Prop where
  list : F = F₁ ++ c :: U
  prev : (F₁.getLastD (root base)).start = p

theorem Next.mem {p : Nat} (hx : Next base F p c F₁ U) : c ∈ F :=
  hx.list ▸ mem_append_right _ mem_cons_self

theorem Good.take {p : Nat} (g : Good base h F A) (hx : Next base F p c F₁ U) (hn : 0 < n) (hc : n ≤ h.size c.start) :
    ∃ h' F' d, Umalloc.take h p c.start n = (d.start + 8, h') ∧ d.len = 8 * n ∧ Good base h' F' (d :: A) := by
  obtain ⟨rfl, rfl⟩ := hx
  have hcF : c ∈ F₁ ++ c :: U := mem_append_right _ mem_cons_self
  have hsized := g.sized c (mem_append_left A hcF)
  have hstop := g.stop_le (mem_append_left A hcF)
  have hbrk := g.brk_lt
  simp only [stop] at hstop
  unfold Umalloc.take
  split
  next heq =>
    obtain ⟨G, q, hG⟩ : ∃ G q, root base :: F₁ = G ++ [q] :=
      ⟨_, _, (dropLast_append_getLast (cons_ne_nil _ _)).symm⟩
    have hl : root base :: (F₁ ++ c :: U) = G ++ q :: c :: U := by
      rw [← cons_append, hG, append_assoc]
      rfl
    obtain ⟨F', hg⟩ := g.take_all hl hcF
    refine ⟨_, F', c, ?_, by omega, hg⟩
    rw [plus_eq (by omega), ← getLastD_cons (a := root base), hG, getLastD_concat]
  next hne =>
    have hm : (h.setSize c.start (h.size c.start - n)).size c.start = h.size c.start - n := Heap.size_setSize (by omega)
    have hplus : plus c.start (h.size c.start - n) = c.start + 8 * (h.size c.start - n) := plus_eq (by omega)
    dsimp only
    rw [hm, hplus, plus_eq (by omega)]
    refine ⟨_, _, ⟨c.start + 8 * (h.size c.start - n), 8 * n⟩, rfl, rfl, g.take_end (by omega) (by omega) hn ?_⟩
    exact mem_map.mpr ⟨_, getLastD_mem_cons .., rfl⟩

theorem mallocLoop_walk {W : List Nat} {e : Nat} (hp : PtrPath h.ptr v W e) (hne : ∀ c ∈ W, c ≠ h.freep) :
    (∃ W₁ c W₂, W = W₁ ++ c :: W₂ ∧ n ≤ h.size c ∧
    mallocLoop n (f + W.length) h x v = some (take h (W₁.getLastD x) c n)) ∨
    (∀ c ∈ W, h.size c < n) ∧ mallocLoop n (f + W.length) h x v = mallocLoop n f h (W.getLastD x) e := by
  induction W generalizing v x with
  | nil =>
    obtain rfl : v = e := hp
    exact .inr ⟨nofun, rfl⟩
  | cons c W ih =>
    obtain ⟨rfl, hp⟩ := hp
    rw [length_cons, ← Nat.add_assoc, mallocLoop]
    by_cases hn : n ≤ h.size v
    · exact .inl ⟨[], v, W, rfl, hn, if_pos hn⟩
    · rw [if_neg hn, if_neg (hne v mem_cons_self)]
      rcases ih (x := v) hp fun c hc => hne c (mem_cons_of_mem _ hc) with ⟨W₁, c, W₂, rfl, hc, hr⟩ | ⟨hW, hr⟩
      · exact .inl ⟨v :: W₁, c, W₂, rfl, hc, by rw [hr, getLastD_cons]⟩
      · refine .inr ⟨fun c hc => ?_, by rw [hr, getLastD_cons]⟩
        rcases mem_cons.mp hc with rfl | hc
        · exact Nat.not_le.mp hn
        · exact hW c hc

theorem getLastD_append {α : Type} (l l' : List α) (a : α) : (l ++ l').getLastD a = l'.getLastD (l.getLastD a) := by
  induction l generalizing a with
  | nil => rfl
  | cons b l ih => rw [cons_append, getLastD_cons, getLastD_cons, ih]

theorem getLastD_map {α β : Type} (g : α → β) (l : List α) (a : α) : (l.map g).getLastD (g a) = g (l.getLastD a) := by
  induction l generalizing a with
  | nil => rfl
  | cons b l ih => rw [map_cons, getLastD_cons, getLastD_cons, ih]

theorem next_of_rotation {K V S₁ : List Span} (S₂ : List Span) (hl : root base :: F = K ++ q :: V)
    (hS : V ++ (K ++ [q]) = S₁ ++ c :: S₂) (hc : c ≠ root base) : ∃ F₁ U, Next base F (S₁.getLastD q).start c F₁ U := by
  obtain ⟨T, hT, hF⟩ : ∃ T, K ++ [q] = root base :: T ∧ F = T ++ V := by
    cases K with
    | nil => exact ⟨[], by rw [(cons.inj hl).1]; rfl, (cons.inj hl).2⟩
    | cons d K =>
      obtain ⟨rfl, h2⟩ := cons.inj hl
      exact ⟨K ++ [q], rfl, by rw [h2, append_assoc]; rfl⟩
  have hq : T.getLastD (root base) = q := by
    rw [← getLastD_cons (a := root base), ← hT, getLastD_concat]
  rw [hT] at hS
  rcases append_eq_append_iff.mp hS with ⟨a, rfl, ha⟩ | ⟨a, rfl, ha⟩
  · cases a with
    | nil => exact absurd (cons.inj ha).1.symm hc
    | cons d a =>
      rw [cons_append] at ha
      obtain ⟨rfl, rfl⟩ := cons.inj ha
      refine ⟨a, S₂ ++ V, by rw [hF, append_assoc]; rfl, ?_⟩
      rw [getLastD_append, getLastD_cons]
  · cases a with
    | nil => exact absurd (cons.inj ha).1 hc
    | cons d a =>
      obtain ⟨rfl, -⟩ := cons.inj ha
      refine ⟨T ++ S₁, a, by rw [hF, append_assoc], ?_⟩
      rw [getLastD_append, hq]

theorem Good.pass (g : Good base h F A) (hn : 0 < n) : (∃ p c F₁ U, Next base F p c F₁ U ∧ n ≤ h.size c.start ∧
      mallocLoop n (f + (F.length + 1)) h h.freep (h.ptr h.freep) = some (Umalloc.take h p c.start n)) ∨
    (∀ c ∈ F, h.size c.start < n) ∧ mallocLoop n (f + (F.length + 1)) h h.freep (h.ptr h.freep) =
      (Umalloc.morecore h n).bind fun (p, h) => if p = 0 then some (0, h) else mallocLoop n f h p (h.ptr p) := by
  obtain ⟨q, hq, hfreep⟩ := mem_map.mp g.freep
  obtain ⟨K, V, hl⟩ := append_of_mem hq
  have hsp := g.spaced
  have hpath := g.path
  rw [hl] at hsp hpath
  rw [map_append, map_cons] at hpath
  obtain ⟨hpK, hpV⟩ := PtrPath.append_cons_iff.mp hpath
  have hwalk : PtrPath h.ptr (h.ptr h.freep) ((V ++ K).map start) h.freep := by
    rw [map_append, ← hfreep]
    exact PtrPath.append_iff.mpr ⟨base, hpV, hpK⟩
  have hne : ∀ x ∈ (V ++ K).map start, x ≠ h.freep := fun x hx => by
    obtain ⟨c, hc, rfl⟩ := mem_map.mp hx
    obtain ⟨-, hqV, hKq⟩ := pairwise_append.mp hsp
    rcases mem_append.mp hc with hc | hc
    · have := (pairwise_cons.mp hqV).1 c hc
      omega
    · have := hKq c hc q mem_cons_self
      omega
  have hlen : F.length = (V ++ K).length := by
    have := congrArg length hl
    simp only [length_append, length_cons] at this ⊢
    omega
  have hroot : ∀ c, n ≤ h.size c.start → c ∈ root base :: F → c ≠ root base := fun c hc hm he => by
    have := g.sized_root hm
    rw [he] at hc
    have := g.root_size
    simp only [root] at hc
    omega
  rw [show f + (F.length + 1) = f + 1 + ((V ++ K).map start).length by rw [length_map, hlen]; omega]
  rcases mallocLoop_walk (f := f + 1) (x := h.freep) (n := n) hwalk hne with ⟨W₁, x, W₂, hW, hx, hr⟩ | ⟨hW, hr⟩
  · obtain ⟨S₁, S, hS, rfl, hS'⟩ := map_eq_append_iff.mp hW
    obtain ⟨c, S₂, rfl, rfl, -⟩ := map_eq_cons_iff.mp hS'
    have hc : c ∈ root base :: F := by
      have : c ∈ V ++ K := hS ▸ mem_append_right _ mem_cons_self
      rw [hl]
      rcases mem_append.mp this with hm | hm
      · exact mem_append_right _ (mem_cons_of_mem _ hm)
      · exact mem_append_left _ hm
    obtain ⟨F₁, U, hnext⟩ := next_of_rotation (S₂ ++ [q]) hl
      (by rw [← append_assoc, hS, append_assoc]; rfl) (hroot c hx hc)
    exact .inl ⟨_, c, F₁, U, hnext, hx, by rw [hr, ← hfreep, getLastD_map]⟩
  · rw [hr, mallocLoop]
    by_cases hx : n ≤ h.size h.freep
    · obtain ⟨F₁, U, hnext⟩ := next_of_rotation (c := q) [] hl (append_assoc ..).symm
        (hroot q (hfreep ▸ hx) hq)
      refine .inl ⟨_, q, F₁, U, hnext, hfreep ▸ hx, ?_⟩
      rw [if_pos hx, ← getLastD_map start, hfreep]
    · rw [if_neg hx, if_pos rfl]
      refine .inr ⟨fun c hc => ?_, rfl⟩
      have hc' : c ∈ root base :: F := mem_cons_of_mem _ hc
      rw [hl] at hc'
      rcases mem_append.mp hc' with hc' | hc'
      · exact hW _ (mem_map_of_mem (mem_append_right _ hc'))
      · rcases mem_cons.mp hc' with rfl | hc'
        · exact hfreep ▸ Nat.not_le.mp hx
        · exact hW _ (mem_map_of_mem (mem_append_left _ hc'))

def Unmet (h : Heap) (F : List Span) (n : Nat) : Prop := (∀ c ∈ F, c.len < 8 * n) ∧ (h.sbrk (coreBytes n)).1 = none

/-- `malloc` of so many units ends, and leaves the heap intact. It fails if it has to, and changes nothing then; else it
    returns a block of these units. -/
theorem Good.mallocLoop (g : Good base h F A) (hn : 0 < n) (hlt : n < 2 ^ 28) :
    ∃ r h', Umalloc.mallocLoop n turns h h.freep (h.ptr h.freep) = some (r, h') ∧
      (r = 0 ∧ Unmet h F n ∧ h' = { h with answers := fun i => h.answers (i + 1) } ∨
        ¬Unmet h F n ∧ ∃ F' d, r = d.start + 8 ∧ d.len = 8 * n ∧ Good base h' F' (d :: A)) := by
  have hlen := g.length_le
  rw [length_cons] at hlen
  obtain ⟨f, hf⟩ : ∃ f, turns = f + (F.length + 1) := ⟨turns - (F.length + 1), by unfold turns; omega⟩
  rw [hf]
  rcases g.pass (f := f) hn with ⟨p, c, F₁, U, hnext, hc, hr⟩ | ⟨hall, hr⟩
  · obtain ⟨h', F', d, ht, hd, hg⟩ := g.take hnext hn hc
    have hmet : ¬Unmet h F n := fun hu => by
      have h1 := hu.1 c hnext.mem
      have h2 := g.sized c (mem_append_left _ hnext.mem)
      omega
    exact ⟨_, h', by rw [hr, ht], .inr ⟨hmet, F', d, rfl, hd, hg⟩⟩
  obtain ⟨r, h₁, hm, ⟨rfl, hs, rfl⟩ | ⟨rfl, hs, F₁, hg, e, he, hle⟩⟩ := g.morecore hlt
  · have hsmall : ∀ c ∈ F, c.len < 8 * n := fun c hc => by
      have h1 := hall c hc
      have h2 := g.sized c (mem_append_left _ hc)
      omega
    exact ⟨0, _, by rw [hr, hm]; rfl, .inl ⟨rfl, ⟨hsmall, hs⟩, rfl⟩⟩
  -- with the new memory there is a block, so the second time around finds one
  have hlen' := hg.length_le
  rw [length_cons] at hlen'
  obtain ⟨f', hf'⟩ : ∃ f', f = f' + (F₁.length + 1) := ⟨f - (F₁.length + 1), by unfold turns at hf; omega⟩
  have hr' : Umalloc.mallocLoop n (f + (F.length + 1)) h h.freep (h.ptr h.freep) =
      Umalloc.mallocLoop n f h₁ h₁.freep (h₁.ptr h₁.freep) := by
    rw [hr, hm, bind_some]
    exact if_neg hg.freep_ne_zero
  rw [hr', hf']
  rcases hg.pass (f := f') hn with ⟨p, c, F₂, U, hnext, hc, hr⟩ | ⟨hsmall, -⟩
  · obtain ⟨h', F', d, ht, hd, hg⟩ := hg.take hnext hn hc
    exact ⟨_, h', by rw [hr, ht], .inr ⟨fun hu => hs hu.2, F', d, rfl, hd, hg⟩⟩
  · have h1 := hsmall e he
    have h2 := hg.sized e (mem_append_left _ he)
    omega

/-- The heap before the first call of `malloc`, or one with the free blocks `F` and the allocated ones `A`. -/
inductive Sound (base : Nat) (h : Heap) : List Span → List Span → Prop
  | fresh (hb : 0 < base) (hbrk : base + headerSize ≤ h.brk) (hlt : h.brk < 2 ^ 32) (hf : h.freep = 0)
      (hg : h.given = []) :
    Sound base h [] []
  | used {F A : List Span} (hg : Good base h F A) : Sound base h F A

theorem Sound.good (hs : Sound base h F A) : Good base (setBase base h) F A := by
  unfold setBase
  cases hs with
  | used hg => rwa [if_neg hg.freep_ne_zero]
  | fresh hb hbrk hlt hf hg =>
    have hbase : base < 2 ^ 32 := by omega
    rw [if_pos hf]
    refine ⟨hb, ⟨rfl, ?_⟩, mem_cons_self, Heap.size_setSize (by decide), nofun, pairwise_singleton .., nofun,
      fun x => ?_, fun x => ?_, fun c hc => ?_, hbrk, hlt⟩
    · change ((h.setPtr base base).setSize base 0).ptr base = base
      rw [Heap.ptr_setSize_self, Heap.ptr_setPtr hbase]
    · change 0 = cover h.given x
      rw [hg, cover_nil]
    · change cover h.given x ≤ 1
      rw [hg, cover_nil]
      exact Nat.zero_le 1
    · change c ∈ h.given at hc
      rw [hg] at hc
      cases hc

theorem nunits_eq (hn : n + 15 < 2 ^ 31) : nunits n = (n + 7) / 8 + 1 := by
  unfold nunits headerSize
  omega

theorem Sound.malloc (hs : Sound base h F A) (hn : 0 < nunits n) (hlt : nunits n < 2 ^ 28) :
    ∃ r h', Umalloc.malloc base h n = some (r, h') ∧ (r = 0 ∧ Unmet (setBase base h) F (nunits n) ∧
          h' = { setBase base h with answers := fun i => (setBase base h).answers (i + 1) } ∨
        ¬Unmet (setBase base h) F (nunits n) ∧ ∃ F' d, r = d.start + 8 ∧ d.len = 8 * nunits n ∧
          Good base h' F' (d :: A)) :=
  hs.good.mallocLoop hn hlt

/-! ### Sizes -/

/-- `r` is the start of so many bytes in a block that lies in memory given by `sbrk`. -/
def Usable (h : Heap) (r n : Nat) : Prop :=
  n + headerSize ≤ headerSize * h.size (r - headerSize) ∧
    ∀ x, r - headerSize ≤ x → x < r - headerSize + headerSize * h.size (r - headerSize) → ∃ b ∈ h.given, b.Has x

/-- What a call of `malloc` has to do: `morecore` asks for what it needs, and the result is a block for so many bytes,
    or null with the free list unchanged, which it is exactly when the request cannot be met. -/
structure Served (base : Nat) (h : Heap) (F : List Span) (n : Nat) : Prop where
  asks : (nunits n * headerSize : Int) ≤ CInt.wrap 32 (coreBytes (nunits n))
  answer : ∃ r h', malloc base h n = some (r, h') ∧ (r = 0 ↔ Unmet (setBase base h) F (nunits n)) ∧
    (r = 0 → h'.mem = (setBase base h).mem ∧ h'.freep = (setBase base h).freep) ∧ (r ≠ 0 → Usable h' r n)

theorem Good.usable (g : Good base h F (d :: A)) (hn : n + 8 ≤ d.len) : Usable h (d.start + 8) n := by
  have hsize := g.sized d (mem_append_right _ mem_cons_self)
  unfold Usable headerSize
  rw [Nat.add_sub_cancel, hsize]
  refine ⟨hn, fun x h1 h2 => ?_⟩
  rw [← cover_pos_iff, ← g.covered, cover_pos_iff]
  exact ⟨d, mem_append_right _ mem_cons_self, h1, h2⟩

theorem Sound.served (hs : Sound base h F A) (hn : n + 15 < 2 ^ 31) : Served base h F n := by
  have hunits := nunits_eq hn
  have hlt : nunits n < 2 ^ 28 := by omega
  obtain ⟨hbytes, hle, hcore⟩ := coreBytes_eq hlt
  refine ⟨?_, ?_⟩
  · rw [hbytes, CInt.wrap_of_range (by omega) (by omega)]
    unfold headerSize
    omega
  · obtain ⟨r, h', hm, ⟨rfl, hu, rfl⟩ | ⟨hu, F', d, rfl, hd, hg⟩⟩ := hs.malloc (n := n) (by omega) hlt
    · exact ⟨0, _, hm, iff_of_true rfl hu, fun _ => ⟨rfl, rfl⟩, fun h => absurd rfl h⟩
    · exact ⟨_, h', hm, iff_of_false (by omega) hu, fun h => by omega, fun _ => hg.usable (by omega)⟩

theorem Heap.sbrk_some {gap : Nat} (ha : h.answers 0 = some gap) (hn : n < 2 ^ 31) (hlt : h.brk + gap + n < 2 ^ 32) :
    (h.sbrk n).1 = some (h.brk + gap) := by
  simp only [Heap.sbrk, ha, if_pos hn, if_pos hlt]

/-- `malloc` serves a request for `n` bytes in every state of the heap if and only if `n` is less than `2 ^ 31 - 15`.
    Above, the amount that `sbrk` is asked for is negative, or the number of units wraps. -/
theorem malloc_served_iff (n : Nat) : (∀ base h F A, Sound base h F A → Served base h F n) ↔ n + 15 < 2 ^ 31 := by
  refine ⟨fun hall => ?_, fun hn _ _ _ _ hs => hs.served hn⟩
  have hs : Sound 8 ⟨fun _ => 0, 0, 16, fun _ => some 0, []⟩ [] [] :=
    .fresh (by decide) (by decide) (by decide) rfl rfl
  obtain ⟨hasks, r, h', hm, hu, -, hr⟩ := hall _ _ _ _ hs
  by_contra hn
  have hpos : 0 < nunits n := by
    unfold nunits headerSize
    omega
  by_cases hlt : nunits n < 2 ^ 28
  · -- the number of units has wrapped: memory is there, and the block is too small
    obtain ⟨r', h'', hm', ⟨-, hun, -⟩ | ⟨-, F', d, rfl, hd, hg⟩⟩ := hs.malloc hpos hlt
    · obtain ⟨hbytes, -, hcore⟩ := coreBytes_eq hlt
      have hgives : ((setBase 8 ⟨fun _ => 0, 0, 16, fun _ => some 0, []⟩).sbrk (coreBytes (nunits n))).1 = some
        (16 + 0) :=
        Heap.sbrk_some rfl (by omega) (by rw [hbytes]; change 16 + 0 + _ < _; omega)
      rw [hun.2] at hgives
      cases hgives
    · cases hm.symm.trans hm'
      have hroom := (hr (by omega)).1
      have hsize := hg.sized d (mem_append_right _ mem_cons_self)
      unfold headerSize at hroom
      rw [Nat.add_sub_cancel] at hroom
      omega
  · have hlt' : nunits n ≤ 2 ^ 29 := by
      unfold nunits headerSize
      omega
    have hcore : coreUnits (nunits n) = nunits n := if_neg (by omega)
    have hask : 0 < CInt.wrap (31 + 1) (coreBytes (nunits n)) := lt_of_lt_of_le (by unfold headerSize; omega) hasks
    have hlow := CInt.wrap_pos_iff.mp hask
    simp only [coreBytes, hcore, headerSize] at hlow
    omega

/-- `malloc(0xffffffff)` returns a block of one unit, of which nothing is left behind the header; `malloc(0x80000000)`
    asks for a negative amount; `malloc(0xffffdff8)` takes two pages away. -/
theorem malloc_wraps :
    (malloc 100 ⟨fun _ => 0, 0, 4096, fun _ => some 0, []⟩ 0xffffffff).map (fun r => (r.1, r.2.size (r.1 - 8))) =
      some (36864, 1) ∧ CInt.wrap 32 (coreBytes (nunits 0x80000000)) < 0 ∧
    ((⟨fun _ => 0, 0, 20480, fun _ => some 0, []⟩ : Heap).sbrk (coreBytes (nunits 0xffffdff8))).2.brk = 12288 := by
  decide +kernel

/-! ### Programs -/

variable {s t : Program} {ap : Nat}

def Owns (e : Nat × Nat) (b : Span) : Prop := e.1 = b.start + 8 ∧ e.2 + 8 ≤ b.len

variable {live : List (Nat × Nat)}

theorem forall₂_erase {e : Nat × Nat} (h : List.Forall₂ Owns live A) (he : e ∈ live) :
    ∃ b A', Owns e b ∧ A.Perm (b :: A') ∧ List.Forall₂ Owns (live.erase e) A' := by
  induction h with
  | nil => cases he
  | @cons e' b live A hb h ih =>
    by_cases heq : e' = e
    · subst heq
      exact ⟨b, A, hb, .refl _, by rwa [erase_cons_head]⟩
    · obtain ⟨c, A', hc, hperm, h'⟩ := ih ((mem_cons.mp he).resolve_left (Ne.symm heq))
      refine ⟨c, b :: A', hc, (hperm.cons b).trans (List.Perm.swap c b A'), ?_⟩
      rw [erase_cons_tail (by simpa using heq)]
      exact .cons hb h'

/-- Nothing has been allocated yet, or the heap is intact and has the blocks of the program. -/
inductive Inv (base : Nat) (s : Program) : Prop
  | fresh (hb : 0 < base) (hbrk : base + headerSize ≤ s.heap.brk) (hlt : s.heap.brk < 2 ^ 32) (hf : s.heap.freep = 0)
    (hg : s.heap.given = []) (hl : s.live = [])
  | used (F A : List Span) (hg : Good base s.heap F A) (hl : List.Forall₂ Owns s.live A)

theorem Inv.sound (hi : Inv base s) : ∃ F A, Sound base s.heap F A ∧ List.Forall₂ Owns s.live A := by
  cases hi with
  | fresh hb hbrk hlt hf hg hl => exact ⟨[], [], .fresh hb hbrk hlt hf hg, hl ▸ .nil⟩
  | used F A hg hl => exact ⟨F, A, .used hg, hl⟩

theorem Inv.malloc (hi : Inv base s) (hn : n ≤ 2 ^ 30) :
    ∃ r h', Umalloc.malloc base s.heap n = some (r, h') ∧ (r ≠ 0 → n + 8 ≤ 8 * h'.size (r - 8)) ∧
      Inv base ⟨h', if r = 0 then s.live else (r, n) :: s.live⟩ := by
  have hunits := nunits_eq (n := n) (by omega)
  obtain ⟨F, A, hs, hl⟩ := hi.sound
  obtain ⟨r, h', hr, ⟨rfl, -, rfl⟩ | ⟨-, F', d, rfl, hd, hg'⟩⟩ := hs.malloc (n := n) (by omega) (by omega)
  · exact ⟨0, _, hr, fun h => absurd rfl h, .used F A (hs.good.answers _) (by rwa [if_pos rfl])⟩
  · have hsize := hg'.sized d (mem_append_right _ mem_cons_self)
    refine ⟨_, h', hr, fun _ => ?_, .used F' (d :: A) hg' ?_⟩
    · rw [Nat.add_sub_cancel]
      omega
    · rw [if_neg (by omega)]
      exact .cons ⟨rfl, by dsimp only; omega⟩ hl

theorem Inv.free {m : Nat} (hi : Inv base s) (he : (ap, m) ∈ s.live) :
    ∃ h', Umalloc.free s.heap ap = some h' ∧ Inv base ⟨h', s.live.erase (ap, m)⟩ := by
  cases hi with
  | fresh hb hbrk hlt hf hg hl =>
    rw [hl] at he
    cases he
  | used F A hg hl =>
    obtain ⟨b, A', hb, hperm, hl'⟩ := forall₂_erase hl he
    obtain ⟨h', F', hf, hg', -⟩ := (hg.perm hperm).free
    rw [← hb.1] at hf
    exact ⟨h', hf, .used F' A' hg' hl'⟩

theorem forall₂_mem {e : Nat × Nat} (h : List.Forall₂ Owns live A) (he : e ∈ live) : ∃ b ∈ A, Owns e b := by
  obtain ⟨b, A', hb, hperm, -⟩ := forall₂_erase h he
  exact ⟨b, hperm.mem_iff.mpr mem_cons_self, hb⟩

theorem Good.eq_or_apart (g : Good base h F A) (hc : c ∈ F ++ A) (hd : d ∈ F ++ A) : c = d ∨ Apart c d :=
  or_iff_not_imp_left.mpr fun hne => g.apart.forall hc hd hne

theorem Good.write {mem : Nat → UInt8} (g : Good base h F A) (hl : List.Forall₂ Owns live A)
    (hw : ∀ x, (∀ e ∈ live, ¬(e.1 ≤ x ∧ x < e.1 + e.2)) → mem x = h.mem x) : Good base { h with mem := mem } F A := by
  have hbytes : ∀ a i, i < 8 → (∀ b ∈ A, a + 8 ≤ b.start ∨ b.stop ≤ a ∨ a = b.start) → mem (a + i) = h.mem (a + i) := by
    intro a i hi ha
    refine hw _ fun e he hin => ?_
    obtain ⟨b, hb, h1, h2⟩ := forall₂_mem hl he
    have h3 := ha b hb
    simp only [stop] at h3
    omega
  have hsame : ∀ a, (∀ b ∈ A, a + 8 ≤ b.start ∨ b.stop ≤ a ∨ a = b.start) →
      ({ h with mem := mem } : Heap).ptr a = h.ptr a ∧ ({ h with mem := mem } : Heap).size a = h.size a := fun a ha =>
    ⟨Bytes.load_congr fun i hi => hbytes a i (by omega) ha,
      Bytes.load_congr fun i hi => by rw [Nat.add_assoc]; exact hbytes a (4 + i) (by omega) ha⟩
  have hroot : ∀ b ∈ A, base + 8 ≤ b.start ∨ b.stop ≤ base ∨ base = b.start := fun b hb =>
    .inl (g.proper b (mem_append_right _ hb)).2
  have hblock : ∀ c ∈ F ++ A, ∀ b ∈ A, c.start + 8 ≤ b.start ∨ b.stop ≤ c.start ∨ c.start = b.start := by
    intro c hc b hb
    have h1 := g.header_le hc
    rcases g.eq_or_apart hc (mem_append_right _ hb) with rfl | ha
    · exact .inr (.inr rfl)
    · unfold Apart at ha
      omega
  refine ⟨g.base_pos, g.path.congr fun x hx => ?_, g.freep, (hsame base hroot).2.trans g.root_size, fun c hc => ?_,
    g.order, g.proper, g.covered, g.once, g.below, g.base_lt, g.brk_lt⟩
  · obtain ⟨c, hc, rfl⟩ := mem_map.mp hx
    rcases mem_cons.mp hc with rfl | hc
    · exact (hsame base hroot).1
    · exact (hsame c.start (hblock c (mem_append_left _ hc))).1
  · rw [(hsame c.start (hblock c hc)).2]
    exact g.sized c hc

theorem Inv.step {call : Call} (hi : Inv base s) (hs : Step base s call t) : Inv base t := by
  cases hs with
  | malloc hn hm =>
    obtain ⟨r, h', hm', -, hi'⟩ := hi.malloc hn
    cases hm.symm.trans hm'
    exact hi'
  | free hl hf =>
    obtain ⟨h', hf', hi'⟩ := hi.free hl
    cases hf.symm.trans hf'
    exact hi'
  | write hw =>
    cases hi with
    | fresh hb hbrk hlt hf hg hl => exact .fresh hb hbrk hlt hf hg hl
    | used F A hg hl => exact .used F A (hg.write hl hw) hl

theorem inv_of_reach (hr : (machine base).Reach s) : Inv base s := by
  refine hr.invariant (fun s hs => ?_) fun _ _ _ hi hs => hi.step hs
  obtain ⟨hb, hbrk, hlt, hf, hg, hl⟩ := hs
  exact .fresh hb hbrk hlt hf hg hl

def Program.blocks (s : Program) : List Span := s.live.map fun e => ⟨e.1 - 8, 8 * s.heap.size (e.1 - 8)⟩

theorem Good.blocks (g : Good base s.heap F A) (hl : List.Forall₂ Owns s.live A) : A = s.blocks := by
  have hs : Sized s.heap A := fun c hc => g.sized c (mem_append_right _ hc)
  unfold Program.blocks
  generalize s.live = live at hl
  clear g
  induction hl with
  | nil => rfl
  | @cons e b live A hb _ ih =>
    have hstart : e.1 - 8 = b.start := by
      rw [hb.1]
      omega
    rw [map_cons, ← ih fun c hc => hs c (mem_cons_of_mem _ hc), hstart, hs b mem_cons_self]

/-- The free list leads from the static header through the free blocks, in increasing order and no two of them adjacent,
    and back; the free and the allocated blocks are apart, and are together what `sbrk` has given; and each allocated
    block has room for what was asked for. -/
structure Intact (base : Nat) (s : Program) (F : List Span) : Prop where
  ring : PtrPath s.heap.ptr base (base :: F.map start) base
  freep : s.heap.freep ∈ base :: F.map start
  sizes : ∀ b ∈ F, b.len = 8 * s.heap.size b.start
  above : ∀ b ∈ F ++ s.blocks, base + 8 ≤ b.start ∧ 0 < b.len
  order : F.Pairwise Before
  apart : (F ++ s.blocks).Pairwise Apart
  all : ∀ x, (∃ b ∈ F ++ s.blocks, b.Has x) ↔ ∃ b ∈ s.heap.given, b.Has x
  room : ∀ e ∈ s.live, e.2 + 8 ≤ 8 * s.heap.size (e.1 - 8)

/-- Whatever a program does with `malloc` and `free`, and whatever `sbrk` answers: the heap is intact, `malloc` and
    `free` end, and what `malloc` returns has the number of bytes that were asked for. -/
theorem heap_intact (hr : (machine base).Reach s) :
    (s.heap.freep = 0 ∧ s.heap.given = [] ∧ s.live = [] ∨ ∃ F, Intact base s F) ∧
      (∀ n ≤ 2 ^ 30, ∃ r h, malloc base s.heap n = some (r, h) ∧ (r ≠ 0 → n + 8 ≤ 8 * h.size (r - 8))) ∧
      ∀ e ∈ s.live, ∃ h, free s.heap e.1 = some h := by
  have hi := inv_of_reach hr
  refine ⟨?_, fun n hn => ?_, fun e he => ?_⟩
  · cases hi with
    | fresh hb hbrk hlt hf hg hl => exact .inl ⟨hf, hg, hl⟩
    | used F A hg hl =>
      have hA := hg.blocks hl
      subst hA
      refine .inr ⟨F, hg.path, hg.freep, fun b hb => (hg.sized b (mem_append_left _ hb)).symm,
        fun b hb => (hg.proper b hb).symm, (pairwise_cons.mp hg.order).2, hg.apart, fun x => ?_, fun e he => ?_⟩
      · rw [← cover_pos_iff, hg.covered, cover_pos_iff]
      · obtain ⟨b, hb, h1, h2⟩ := forall₂_mem hl he
        rw [h1, Nat.add_sub_cancel, hg.sized b (mem_append_right _ hb)]
        exact h2
  · obtain ⟨r, h, hm, hroom, -⟩ := hi.malloc hn
    exact ⟨r, h, hm, hroom⟩
  · obtain ⟨h, hf, -⟩ := hi.free he
    exact ⟨h, hf⟩

def Program.perform (base : Nat) (s : Program) : Call → Option Program
  | .malloc n =>
    if n ≤ 2 ^ 30 then (malloc base s.heap n).map fun r => ⟨r.2, if r.1 = 0 then s.live else (r.1, n) :: s.live⟩
    else none
  | .free ap => (s.live.find? (·.1 = ap)).bind fun e => (free s.heap ap).map fun h => ⟨h, s.live.erase e⟩
  | .write _ => none

theorem Program.perform_step {call : Call} (h : s.perform base call = some t) : Step base s call t := by
  cases call with
  | malloc n =>
    simp only [perform] at h
    split_ifs at h with hn
    obtain ⟨r, hm, rfl⟩ := map_eq_some_iff.mp h
    exact .malloc hn hm
  | free ap =>
    obtain ⟨e, he, h⟩ := bind_eq_some_iff.mp h
    obtain ⟨k, hf, rfl⟩ := map_eq_some_iff.mp h
    have ha := find?_some he
    rw [decide_eq_true_eq] at ha
    subst ha
    exact .free (mem_of_find?_eq_some he) hf
  | write _ => cases h

/-- A program for which `sbrk` answers once. It takes all of that memory but one unit, in a large block and three small
    ones, and frees the two outer ones of these. -/
def holes : List Call := [.malloc 32680, .malloc 10, .malloc 10, .malloc 10, .free 4160, .free 4112]

def runOnce (calls : List Call) : Option Program :=
  calls.foldlM (Program.perform 100) ⟨⟨fun _ => 0, 0, 4096, fun i => if i = 0 then some 0 else none, []⟩, []⟩

theorem runOnce_reach {calls : List Call} (h : runOnce calls = some s) : (machine 100).Reach s :=
  Machine.ReachWhere.foldlM (fun _ _ _ h => ⟨trivial, Program.perform_step h⟩)
    (Machine.Reach.init ⟨by decide, by decide, by decide, rfl, rfl, rfl⟩) h

/-- The last `free` joins its block to those on both sides. -/
theorem heap_intact_holes : ∃ s, runOnce (holes ++ [.free 4136]) = some s ∧ s.live = [(4184, 32680)] ∧
    s.heap.size 4096 = 10 ∧ ∃ F, Intact 100 s F := by
  obtain ⟨s, hs, hl, hsize⟩ := exists_of_any (o := runOnce (holes ++ [.free 4136]))
      (p := fun s => s.live = [(4184, 32680)] ∧ s.heap.size 4096 = 10) (by decide +kernel)
  refine ⟨s, hs, hl, hsize, (heap_intact (runOnce_reach hs)).1.resolve_left fun h => ?_⟩
  rw [hl] at h
  cases h.2.2

/-- The address was given by `sbrk` and is in no allocated block. -/
def Program.Spare (s : Program) (x : Nat) : Prop := (∃ b ∈ s.heap.given, b.Has x) ∧ ∀ b ∈ s.blocks, ¬b.Has x

theorem Sound.spare_iff (hs : Sound base s.heap F A) (hl : List.Forall₂ Owns s.live A) :
    s.Spare x ↔ ∃ b ∈ F, b.Has x := by
  cases hs with
  | fresh hb hbrk hlt hf hg => simp [Program.Spare, hg]
  | used g =>
    have hcover := g.covered x
    have honce := g.once x
    rw [cover_append] at hcover
    unfold Program.Spare
    rw [← g.blocks hl, ← cover_pos_iff, ← cover_pos_iff]
    have hA : (∀ b ∈ A, ¬b.Has x) ↔ cover A x = 0 := by
      rw [cover, countP_eq_zero]
      simp only [decide_eq_true_eq]
    rw [hA]
    omega

/-- In every state of every program `malloc` fails exactly if `sbrk` gives no more memory and there are not as many
    spare addresses in a row as it needs, whatever the order in which blocks were allocated and freed. -/
theorem malloc_null_iff (hr : (machine base).Reach s) (hn : n ≤ 2 ^ 30) : ∃ r h, malloc base s.heap n = some (r, h) ∧
    (r = 0 ↔ ((setBase base s.heap).sbrk (coreBytes (nunits n))).1 = none ∧
      ¬∃ a, ∀ x, a ≤ x → x < a + headerSize * nunits n → s.Spare x) := by
  have hunits := nunits_eq (n := n) (by omega)
  obtain ⟨F, A, hs, hl⟩ := (inv_of_reach hr).sound
  have hrow : (∃ a, ∀ x, a ≤ x → x < a + headerSize * nunits n → s.Spare x) ↔ ¬∀ c ∈ F, c.len < 8 * nunits n := by
    simp only [hs.spare_iff hl, headerSize, not_forall, not_lt]
    constructor
    · rintro ⟨a, ha⟩
      obtain ⟨b, hb, hba, hab⟩ := exists_row (m := 8 * nunits n - 1) (pairwise_cons.mp hs.good.order).2 fun x h1 h2 =>
        ha x h1 (by omega)
      refine ⟨b, hb, ?_⟩
      simp only [stop] at hab
      omega
    · rintro ⟨c, hc, hlen⟩
      exact ⟨c.start, fun x h1 h2 => ⟨c, hc, h1, by simp only [stop]; omega⟩⟩
  rw [hrow, not_not]
  obtain ⟨r, h, hm, ⟨rfl, hu, -⟩ | ⟨hu, F', d, rfl, -, -⟩⟩ := hs.malloc (n := n) (by omega) (by omega)
  · exact ⟨0, h, hm, iff_of_true rfl ⟨hu.2, hu.1⟩⟩
  · exact ⟨_, h, hm, iff_of_false (by omega) fun hn => hu ⟨hn.2, hn.1⟩⟩

/-- The program asks for 50 bytes when `sbrk` gives no more: in vain, though the holes together are as large as that;
    and with success when it has freed the block between them. -/
theorem malloc_null_iff_holes : (∃ s r h, runOnce holes = some s ∧ malloc 100 s.heap 50 = some (r, h) ∧ r = 0 ∧
      ¬∃ a, ∀ x, a ≤ x → x < a + headerSize * nunits 50 → s.Spare x) ∧
    ∃ s r h, runOnce (holes ++ [.free 4136]) = some s ∧ malloc 100 s.heap 50 = some (r, h) ∧ r = 4120 ∧
      ∃ a, ∀ x, a ≤ x → x < a + headerSize * nunits 50 → s.Spare x := by
  have hnull : (runOnce holes).map (fun s => (malloc 100 s.heap 50).map (·.1)) = some (some 0) := by decide +kernel
  have hmem : (runOnce (holes ++ [.free 4136])).map (fun s => ((malloc 100 s.heap 50).map (·.1),
      ((setBase 100 s.heap).sbrk (coreBytes (nunits 50))).1)) = some (some 4120, none) := by decide +kernel
  obtain ⟨s, hs, hn⟩ := map_eq_some_iff.mp hnull
  obtain ⟨s', hs', hn'⟩ := map_eq_some_iff.mp hmem
  obtain ⟨hn', hsbrk⟩ := Prod.mk.inj hn'
  obtain ⟨r, h, hm, hr⟩ := malloc_null_iff (n := 50) (runOnce_reach hs) (by omega)
  obtain ⟨r', h', hm', hr'⟩ := malloc_null_iff (n := 50) (runOnce_reach hs') (by omega)
  rw [hm] at hn
  rw [hm'] at hn'
  obtain rfl : r = 0 := some.inj hn
  obtain rfl : r' = 4120 := some.inj hn'
  refine ⟨⟨s, 0, h, hs, hm, rfl, (hr.mp rfl).2⟩, s', 4120, h', hs', hm', rfl, ?_⟩
  by_contra hrow
  exact absurd (hr'.mpr ⟨hsbrk, hrow⟩) (by decide)

end Xv6.Umalloc
