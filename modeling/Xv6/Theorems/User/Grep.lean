import Xv6.User.Grep

/-! What `grep` writes, for every way in which the input is delivered. -/

namespace Xv6.Grep
open Cstr Lines Function List

variable {pattern w s t x c out : List UInt8} {buf : Nat → UInt8} {p f : Nat} {g : State} {reads : List (List UInt8)}

def matching (pattern s : List UInt8) : List UInt8 := ((complete s).filter (matchText pattern)).flatMap (· ++ [nl])

theorem matching_of_not_mem (h : nl ∉ s) : matching pattern s = [] := by
  rw [matching, complete_of_not_mem h]
  rfl

theorem matching_line (h : nl ∉ x) :
    matching pattern (x ++ nl :: s) = (if matchText pattern x then x ++ [nl] else []) ++ matching pattern s := by
  rw [matching, complete_line h, filter_cons]
  split
  · rw [flatMap_cons, matching]
  · rw [nil_append, matching]

theorem matching_append (s t : List UInt8) :
    matching pattern (s ++ t) = matching pattern s ++ matching pattern (rest s ++ t) := by
  rw [matching, complete_append, filter_append, flatMap_append, matching, matching]

/-! ### One turn of the loop -/

theorem printLines_eq (pattern out : List UInt8) (h : Cstr.At buf p s) (hf : s.length < f)
    (hb : p + s.length < bufSize) :
    ∃ buf', printLines pattern f buf p out = (buf', p + (s.length - (rest s).length), out ++ matching pattern s) ∧
      ∀ i, p + (s.length - (rest s).length) ≤ i → buf' i = buf i := by
  induction s using induction_lines generalizing f buf p out with
  | last s hs =>
    obtain _ | f := f
    · omega
    have hfind : strchr buf '\n'.toUInt8 bufSize p = none := h.strchr_none hs
    rw [printLines, hfind, rest_of_not_mem hs, matching_of_not_mem hs, Nat.sub_self, append_nil]
    exact ⟨buf, rfl, fun _ _ => rfl⟩
  | line x s hx ih =>
    obtain _ | f := f
    · omega
    rw [length_append, length_cons] at hf hb
    have hfind : strchr buf '\n'.toUInt8 bufSize p = some (p + x.length) := h.strchr_some hx (by omega)
    have hread : Cstr.read (update buf (p + x.length) 0) bufSize p = x := h.cut.read_eq (by omega)
    have hq : buf (p + x.length) = '\n'.toUInt8 := h.drop.2.1
    -- the newline is written back only for a line that matches
    have hback : update (update buf (p + x.length) 0) (p + x.length) '\n'.toUInt8 = buf := by
      rw [update_idem, ← hq, update_eq_self]
    have hslice : Bytes.slice buf p (p + x.length + 1 - p) = x ++ [nl] := by
      have hx' := At.slice (x := x ++ [nl]) (s := s) (by rwa [append_assoc])
      rwa [length_append, length_singleton, show x.length + 1 = p + x.length + 1 - p by omega] at hx'
    have hs : Cstr.At buf (p + x.length + 1) s := h.drop.2.2
    have hrest := (rest_suffix s).length_le
    have hend : p + ((x ++ nl :: s).length - (rest s).length) = p + x.length + 1 + (s.length - (rest s).length) := by
      rw [length_append, length_cons]
      omega
    rw [printLines, hfind, rest_line hx, matching_line hx, hend]
    dsimp only
    rw [hread, hback, hslice]
    split
    · obtain ⟨buf', hr, hbuf⟩ := ih (out ++ (x ++ [nl])) hs (f := f) (by omega) (by omega)
      exact ⟨buf', by rw [hr, append_assoc], hbuf⟩
    · have hsame : ∀ i, p + x.length + 1 ≤ i → update buf (p + x.length) 0 i = buf i := fun i hi =>
        update_of_ne (by omega) _ _
      obtain ⟨buf', hr, hbuf⟩ := ih out (hs.congr fun i h1 _ => hsame i h1) (f := f) (by omega) (by omega)
      exact ⟨buf', by rw [hr, nil_append], fun i hi => (hbuf i hi).trans (hsame i (by omega))⟩

structure Keeps (g : State) (w : List UInt8) : Prop where
  length : g.m = w.length
  bytes : ∀ i (h : i < w.length), g.buf i = w[i]
  no_nl : nl ∉ w
  no_nul : 0 ∉ w

/-- What is kept of `w` after a `read` that returned `c`: the part of the last line, but nothing if there was no
    newline. -/
def kept (w c : List UInt8) : List UInt8 := if nl ∈ c then rest (w ++ c) else []

theorem turn_eq (pattern : List UInt8) (h : Keeps g w) (h0 : 0 ∉ c) (hne : c ≠ []) (hc : c.length ≤ g.asked) :
    Keeps (turn pattern g c) (kept w c) ∧ (turn pattern g c).out = g.out ++ matching pattern (w ++ c) := by
  have hm := h.length
  have hlen : (w ++ c).length = g.m + c.length := by rw [length_append, hm]
  have hpos := length_pos_iff.mpr hne
  have hsize : g.m + c.length < bufSize := by
    simp only [State.asked] at hc
    omega
  have hmem : nl ∈ w ++ c ↔ nl ∈ c := by simp [h.no_nl]
  have hnul : 0 ∉ w ++ c := fun hm => (mem_append.mp hm).elim h.no_nul h0
  have hat : Cstr.At (update (Bytes.splice g.buf g.m c) (g.m + c.length) 0) 0 (w ++ c) := by
    refine at_of_bytes hnul (fun i hi => ?_) (by rw [hlen, Nat.zero_add, update_self])
    rw [Nat.zero_add, update_of_ne (by omega), Bytes.splice]
    by_cases hw : i < w.length
    · rw [if_neg (by omega), h.bytes i hw, getElem_append_left hw]
    · rw [if_pos (by omega), getElem_append_right (by omega), getD_eq_getElem?_getD,
        List.getElem?_eq_getElem (by omega), Option.getD_some]
      simp only [hm]
  obtain ⟨buf', hr, hbuf⟩ := printLines_eq pattern g.out hat (f := bufSize) (by omega) (by omega)
  rw [Nat.zero_add] at hr hbuf
  rw [turn, kept]
  dsimp only
  rw [hr, hlen]
  dsimp only
  by_cases hn : nl ∈ c
  · rw [if_pos hn]
    -- a newline was found, so the loop stopped behind it
    have hlt : (rest (w ++ c)).length < g.m + c.length := by
      rw [← hlen]
      refine lt_of_le_of_ne (rest_suffix _).length_le fun he => not_mem_rest (w ++ c) ?_
      rw [(rest_suffix _).eq_of_length he]
      exact hmem.mpr hn
    have hp : g.m + c.length - (rest (w ++ c)).length ≠ 0 := by omega
    have hkeep : g.m + c.length - (g.m + c.length - (rest (w ++ c)).length) = (rest (w ++ c)).length := by omega
    rw [if_neg hp, if_pos (by omega : 0 < g.m + c.length), hkeep]
    refine ⟨⟨rfl, fun i hi => ?_, not_mem_rest _, fun h0 => hnul ((rest_suffix _).subset h0)⟩, rfl⟩
    have htail : Cstr.At buf' (g.m + c.length - (rest (w ++ c)).length) (rest (w ++ c)) := by
      obtain ⟨pre, hpre⟩ := rest_suffix (w ++ c)
      rw [← hpre] at hat
      have hd := hat.drop
      rw [Nat.zero_add, show pre.length = g.m + c.length - (rest (w ++ c)).length by
        rw [← hlen, ← congrArg List.length hpre, length_append]
        omega] at hd
      exact hd.congr fun i h1 _ => hbuf i (by omega)
    have hs := At.slice (x := rest (w ++ c)) (s := []) (by rwa [append_nil])
    simp only [memmove, hs, Bytes.splice]
    rw [if_pos (by omega), Nat.sub_zero, getD_eq_getElem?_getD, List.getElem?_eq_getElem hi, Option.getD_some]
  · rw [if_neg hn, rest_of_not_mem (mt hmem.mp hn), hlen, Nat.sub_self, if_pos rfl]
    exact ⟨⟨rfl, fun i hi => absurd hi (Nat.not_lt_zero i), not_mem_nil, not_mem_nil⟩, rfl⟩

/-! ### Whole runs -/

/-- `read` may return `reads` one after the other: no result is empty or longer than what was asked for. -/
def Fits (pattern : List UInt8) : State → List (List UInt8) → Prop
  | _, [] => True
  | g, c :: reads => c ≠ [] ∧ c.length ≤ g.asked ∧ Fits pattern (turn pattern g c) reads

def written (pattern : List UInt8) : List UInt8 → List (List UInt8) → List UInt8
  | _, [] => []
  | w, c :: reads => matching pattern (w ++ c) ++ written pattern (kept w c) reads

theorem foldl_turn_out (h : Keeps g w) (h0 : 0 ∉ reads.flatten) (hf : Fits pattern g reads) :
    (reads.foldl (turn pattern) g).out = g.out ++ written pattern w reads := by
  induction reads generalizing g w with
  | nil => exact (append_nil _).symm
  | cons c reads ih =>
    rw [flatten_cons, mem_append, not_or] at h0
    obtain ⟨hne, hc, hf⟩ := hf
    obtain ⟨hk, hout⟩ := turn_eq pattern h h0.1 hne hc
    rw [foldl_cons, ih hk h0.2 hf, hout, written, append_assoc]

theorem Fits.congr {pattern' : List UInt8} {g' : State} (h : Keeps g w) (h' : Keeps g' w) (h0 : 0 ∉ reads.flatten)
    (hf : Fits pattern g reads) : Fits pattern' g' reads := by
  induction reads generalizing g g' w with
  | nil => trivial
  | cons c reads ih =>
    rw [flatten_cons, mem_append, not_or] at h0
    obtain ⟨hne, hc, hf⟩ := hf
    have hc' : c.length ≤ g'.asked := by rwa [State.asked, h'.length, ← h.length]
    exact ⟨hne, hc', ih (turn_eq _ h h0.1 hne hc).1 (turn_eq _ h' h0.1 hne hc').1 h0.2 hf⟩

theorem keeps_start : Keeps {} [] :=
  ⟨rfl, fun i hi => absurd hi (Nat.not_lt_zero i), not_mem_nil, not_mem_nil⟩

/-- Every result of `read` has a newline, but for those that no newline follows. -/
def Whole : List (List UInt8) → Prop
  | [] => True
  | c :: reads => (nl ∈ c ∨ nl ∉ reads.flatten) ∧ Whole reads

theorem no_nl_kept (w c : List UInt8) : nl ∉ kept w c := by
  unfold kept
  split
  · exact not_mem_rest _
  · exact not_mem_nil

theorem written_of_whole (hw : nl ∉ w) (h : Whole reads) :
    written pattern w reads = matching pattern (w ++ reads.flatten) := by
  induction reads generalizing w with
  | nil => rw [flatten_nil, append_nil, matching_of_not_mem hw, written]
  | cons c reads ih =>
    obtain ⟨hc, h⟩ := h
    rw [written, ih (no_nl_kept w c) h, flatten_cons, ← append_assoc]
    by_cases hn : nl ∈ c
    · rw [matching_append (w ++ c), kept, if_pos hn]
    · -- without a newline the rest is lost, but no line of it ends
      have hr := hc.resolve_left hn
      rw [kept, if_neg hn, nil_append, matching_of_not_mem hr, matching_of_not_mem, matching_of_not_mem,
        append_nil] <;> simp [hw, hn, hr]

theorem matchText_nil (text : List UInt8) : matchText [] text = true := by
  cases text <;> simp [matchText, matchLoop, matchhere]

theorem matching_nil_length (hx : nl ∉ x) (ht : nl ∈ t) :
    (matching [] (x ++ t)).length = x.length + (matching [] t).length := by
  obtain h | ⟨y, t, hy, rfl⟩ := cases_line t
  · exact absurd ht h
  · have hxy : nl ∉ x ++ y := fun h => (mem_append.mp h).elim hx hy
    rw [← append_assoc, matching_line hxy, matching_line hy]
    simp only [matchText_nil, if_true, length_append]
    omega

theorem matching_cons_length (reads : List (List UInt8)) (hw : nl ∉ w) :
    (matching [] (w ++ (c :: reads).flatten)).length + (written [] (kept w c) reads).length =
      (written [] w (c :: reads)).length + (matching [] (kept w c ++ reads.flatten)).length +
        if nl ∈ c ∨ nl ∉ reads.flatten then 0 else (w ++ c).length := by
  rw [written, length_append, flatten_cons, ← append_assoc]
  by_cases hn : nl ∈ c
  · rw [matching_append (w ++ c), length_append, kept, if_pos hn, if_pos (.inl hn)]
    omega
  · have hwc : nl ∉ w ++ c := by simp [hw, hn]
    rw [kept, if_neg hn, nil_append, matching_of_not_mem hwc, length_nil]
    by_cases hr : nl ∈ reads.flatten
    · rw [matching_nil_length hwc hr, if_neg (by simp [hn, hr])]
      omega
    · rw [matching_of_not_mem hr, matching_of_not_mem (by simp [hw, hn, hr]), if_pos (.inr hr)]
      omega

theorem written_length_le (reads : List (List UInt8)) (hw : nl ∉ w) :
    (written [] w reads).length ≤ (matching [] (w ++ reads.flatten)).length := by
  induction reads generalizing w with
  | nil => exact Nat.zero_le _
  | cons c reads ih =>
    have hlen := matching_cons_length (c := c) reads hw
    have ih := ih (no_nl_kept w c)
    omega

/-- Where a result without a newline comes before one with a newline, its bytes are missing. -/
theorem written_length_lt (hw : nl ∉ w) (hne : ∀ c ∈ reads, c ≠ []) (h : ¬Whole reads) :
    (written [] w reads).length < (matching [] (w ++ reads.flatten)).length := by
  induction reads generalizing w with
  | nil => exact absurd trivial h
  | cons c reads ih =>
    have hlen := matching_cons_length (c := c) reads hw
    split_ifs at hlen with hc
    · have hlt := ih (no_nl_kept w c) (fun c hc => hne c (mem_cons_of_mem _ hc)) fun hwhole => h ⟨hc, hwhole⟩
      omega
    · have hle := written_length_le reads (no_nl_kept w c)
      have hpos := length_pos_iff.mpr (hne c mem_cons_self)
      rw [length_append] at hlen
      omega

theorem Fits.ne_nil (h : Fits pattern g reads) : ∀ c ∈ reads, c ≠ [] := by
  induction reads generalizing g with
  | nil => exact fun c hc => absurd hc not_mem_nil
  | cons c reads ih =>
    intro x hx
    rcases mem_cons.mp hx with rfl | hx
    · exact h.1
    · exact ih h.2.2 x hx

/-- However `read` splits an input without NUL, `grep` writes the lines that match, for every pattern, if and only if
    every result of `read` has a newline, but for those that no newline follows. -/
theorem grep_splitting_iff (h0 : 0 ∉ reads.flatten) (hf : ∀ pattern, Fits pattern {} reads) :
    (∀ pattern, grep pattern reads = matching pattern reads.flatten) ↔ Whole reads := by
  have hout : ∀ pattern, grep pattern reads = written pattern [] reads := fun pattern =>
    (foldl_turn_out keeps_start h0 (hf pattern)).trans (nil_append _)
  constructor
  · intro h
    by_contra hw
    have hlt := written_length_lt not_mem_nil (hf []).ne_nil hw
    rw [← hout, h, nil_append] at hlt
    exact Nat.lt_irrefl _ hlt
  · intro h pattern
    rw [hout, written_of_whole not_mem_nil h, nil_append]

theorem grep_splitting_two_lines :
    (∀ pattern, grep pattern [[97, 10], [98, 10]] = matching pattern [97, 10, 98, 10]) ∧
    Whole [[97, 10], [98, 10]] := by
  have h0 : (0 : UInt8) ∉ [[97, 10], [98, 10]].flatten := by decide
  have hf : Fits [] {} [[97, 10], [98, 10]] := ⟨by decide, by decide +kernel, by decide, by decide +kernel, trivial⟩
  have h := grep_splitting_iff h0 fun pattern => hf.congr keeps_start keeps_start h0
  have hw : Whole [[97, 10], [98, 10]] := ⟨.inl (by decide), .inl (by decide), trivial⟩
  exact ⟨h.mpr hw, hw⟩

/-- The line `ab` is found when `read` returns it at once, and lost when it returns the `a` first. -/
theorem grep_partial_line : Fits [97] {} [[97], [98, 10]] ∧ grep [97] [[97], [98, 10]] = [] ∧
    grep [97] [[97, 98, 10]] = [97, 98, 10] ∧ matching [97] [97, 98, 10] = [97, 98, 10] := by
  refine ⟨⟨by decide, by decide +kernel, by decide, by decide +kernel, trivial⟩, by decide +kernel, by decide +kernel,
    ?_⟩
  decide +kernel

end Xv6.Grep
