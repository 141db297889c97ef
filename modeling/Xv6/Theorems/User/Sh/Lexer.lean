import Xv6.User.Sh
import Mathlib.Data.List.TakeWhile

/-! The tokens of a line, and `gettoken` and `peek` as they go through them. -/

namespace Xv6.Sh
open List

inductive Token
  | op (k : Op)
  | word (w : List UInt8)
  deriving DecidableEq, Repr

def Token.tok : Token → Tok
  | .op k => .op k
  | .word _ => .word

def Op.byte : Op → UInt8
  | .bar => '|'.toUInt8
  | .lpar => '('.toUInt8
  | .rpar => ')'.toUInt8
  | .semi => ';'.toUInt8
  | .amp => '&'.toUInt8
  | .lt => '<'.toUInt8
  | .gt => '>'.toUInt8
  | .gtgt => '>'.toUInt8

/-- The first token of a text, and what follows it: an operator, the longest one, or the bytes up to the next space or
    symbol. -/
def lex : List UInt8 → Option (Token × List UInt8)
  | [] => none
  | c :: s =>
    if isSpace c then lex s
    else
      match Op.single c with
      | some k => some (.op k, s)
      | none =>
        if c = '>'.toUInt8 then
          if s.head? = some '>'.toUInt8 then some (.op .gtgt, s.tail) else some (.op .gt, s)
        else some (.word (c :: s.takeWhile inWord), s.dropWhile inWord)

variable {mem : Nat → UInt8} {es pos q eq f : Nat} {s r w : List UInt8} {c : UInt8} {t : Token} {ts : List Token}
  {p : UInt8 → Bool}

theorem lex_length (h : lex s = some (t, r)) : r.length < s.length := by
  induction s with
  | nil => cases h
  | cons c s ih =>
    rw [length_cons]
    unfold lex at h
    split at h
    · exact Nat.lt_succ_of_lt (ih h)
    split at h
    · cases h
      exact Nat.lt_succ_self _
    split at h
    · split at h
      · cases h
        exact Nat.lt_succ_of_le (by simp)
      · cases h
        exact Nat.lt_succ_self _
    · cases h
      exact Nat.lt_succ_of_le (dropWhile_suffix _).length_le

def tokens (s : List UInt8) : List Token :=
  match _h : lex s with
  | none => []
  | some (t, r) => t :: tokens r
termination_by s.length
decreasing_by exact lex_length _h

theorem tokens_none (h : lex s = none) : tokens s = [] := by
  rw [tokens]
  split
  · rfl
  · rename_i heq
    rw [h] at heq
    cases heq

theorem tokens_some (h : lex s = some (t, r)) : tokens s = t :: tokens r := by
  rw [tokens]
  split
  · rename_i heq
    rw [h] at heq
    cases heq
  · rename_i heq
    rw [h] at heq
    cases heq
    rfl

theorem tokens_length (s : List UInt8) : (tokens s).length ≤ s.length := by
  cases h : lex s with
  | none =>
    rw [tokens_none h]
    exact Nat.zero_le _
  | some tr =>
    rw [tokens_some h, length_cons]
    exact Nat.lt_of_le_of_lt (tokens_length tr.2) (lex_length h)
termination_by s.length
decreasing_by exact lex_length h

theorem lex_dropWhile (s : List UInt8) : lex (s.dropWhile isSpace) = lex s := by
  induction s with
  | nil => rfl
  | cons c s ih =>
    rw [dropWhile_cons]
    split
    · rename_i hc
      rw [ih, lex, if_pos hc]
    · rfl

theorem tokens_dropWhile (s : List UInt8) : tokens (s.dropWhile isSpace) = tokens s := by
  cases h : lex s with
  | none => rw [tokens_none h, tokens_none (by rw [lex_dropWhile, h])]
  | some tr => rw [tokens_some h, tokens_some (by rw [lex_dropWhile, h])]

/-! ### Bytes in memory -/

theorem skipWhile_at (h : Cstr.At mem pos s) : skipWhile p mem s.length pos = pos + (s.takeWhile p).length := by
  induction s generalizing pos with
  | nil => rfl
  | cons c s ih =>
    obtain ⟨-, hc, hs⟩ := h
    rw [length_cons, skipWhile, hc, takeWhile_cons]
    split
    · rw [ih hs, length_cons]
      omega
    · rfl

structure Left (mem : Nat → UInt8) (es pos : Nat) (s : List UInt8) : Prop where
  here : Cstr.At mem pos s
  stop : pos + s.length = es
  nonnull : pos ≠ 0

theorem Left.skip (h : Left mem es pos s) (p : UInt8 → Bool) :
    Left mem es (skipWhile p mem (es - pos) pos) (s.dropWhile p) := by
  have hlen : es - pos = s.length := by
    have := h.stop
    omega
  have hsplit : s.takeWhile p ++ s.dropWhile p = s := takeWhile_append_dropWhile
  rw [hlen, skipWhile_at h.here]
  refine ⟨(show Cstr.At mem pos (s.takeWhile p ++ s.dropWhile p) by rw [hsplit]; exact h.here).drop, ?_, ?_⟩
  · rw [Nat.add_assoc, ← length_append, hsplit, h.stop]
  · have := h.nonnull
    omega

theorem Left.next (h : Left mem es pos (c :: s)) : Left mem es (pos + 1) s :=
  ⟨h.here.2.2, by rw [← h.stop, length_cons]; omega, Nat.succ_ne_zero pos⟩

theorem Left.byte (h : Left mem es pos s) : mem pos = s.headD 0 := by
  cases s with
  | nil => exact h.here
  | cons c s => exact h.here.2.1

/-- The word `w` stands from `q` up to `eq`, where another byte ends it. -/
structure Spelled (mem : Nat → UInt8) (q eq : Nat) (w : List UInt8) : Prop where
  nonnull : q ≠ 0
  length : q + w.length = eq
  bytes : ∀ i (hi : i < w.length), mem (q + i) = w[i]
  inWord : ∀ c ∈ w, c ≠ 0 ∧ inWord c = true
  ended : mem eq = 0 ∨ Sh.inWord (mem eq) = false

theorem dropWhile_eq_cons (h : s.dropWhile p = c :: r) : p c = false := by
  have := dropWhile_get_zero_not p s (by rw [h]; exact Nat.succ_pos _)
  simpa [h] using this

theorem spelled_of_left (h : Left mem es q s) :
    Spelled mem q (q + (s.takeWhile inWord).length) (s.takeWhile inWord) := by
  have hsplit : s.takeWhile inWord ++ s.dropWhile inWord = s := takeWhile_append_dropWhile
  have hat : Cstr.At mem q (s.takeWhile inWord ++ s.dropWhile inWord) := by rw [hsplit]; exact h.here
  refine ⟨h.nonnull, rfl, fun i hi => ?_, fun c hc => ⟨?_, ?_⟩, ?_⟩
  · have := hat.bytes i (by rw [length_append]; omega)
    rwa [getElem_append_left hi] at this
  · have hmem : c ∈ s := takeWhile_subset _ hc
    exact hat.ne_zero (hsplit.symm ▸ hmem)
  · exact mem_takeWhile_imp hc
  · have hend := hat.drop
    cases hd : s.dropWhile inWord with
    | nil =>
      rw [hd] at hend
      exact .inl hend
    | cons d s' =>
      rw [hd] at hend
      rw [hend.2.1]
      exact .inr (dropWhile_eq_cons hd)

/-! ### `gettoken` and `peek` -/

theorem single_byte {k : Op} (h : Op.single c = some k) : k.byte = c ∧ c ∈ symbols := by
  unfold Op.single at h
  split_ifs at h with h1 h2 h3 h4 h5 h6 <;> cases h <;> subst_vars <;> decide

theorem single_none (h : Op.single c = none) (hc : c ≠ '>'.toUInt8) : c ∉ symbols := by
  unfold Op.single at h
  split_ifs at h with h1 h2 h3 h4 h5 h6
  simp only [symbols, mem_cons, not_mem_nil, or_false, not_or]
  exact ⟨h6, h1, hc, h5, h4, h2, h3⟩

theorem Left.scan_nil (h : Left mem es q []) : scan mem es q = (.eof, q) := by
  have h0 : mem q = 0 := h.here
  rw [scan, if_pos h0]

theorem Left.scan_cons (h : Left mem es q (c :: s)) (hc : isSpace c = false) :
    ∃ t r eq, lex (c :: s) = some (t, r) ∧ scan mem es q = (t.tok, eq) ∧ Left mem es eq r ∧
      (∀ k, t = .op k → k.byte = c) ∧ ∀ w, t = .word w → c ∉ symbols ∧ Spelled mem q eq w := by
  have hq : mem q = c := h.here.2.1
  have hnext := h.next
  rw [lex, if_neg (by rw [hc]; exact Bool.false_ne_true), scan, hq, if_neg h.here.1]
  cases hs : Op.single c with
  | some k =>
    refine ⟨_, _, q + 1, rfl, rfl, hnext, fun k' hk => ?_, fun w hw => ?_⟩
    · cases hk
      exact (single_byte hs).1
    · cases hw
  | none =>
    by_cases hgt : c = '>'.toUInt8
    · simp only [hgt, if_true, hnext.byte]
      have hhead : s.headD 0 = '>'.toUInt8 ↔ s.head? = some '>'.toUInt8 := by
        cases s with
        | nil => decide
        | cons d s => simp
      simp only [hhead]
      split
      · rename_i h2
        cases s with
        | nil => cases h2
        | cons d s =>
          refine ⟨_, _, q + 2, rfl, rfl, hnext.next, fun k hk => ?_, fun w hw => ?_⟩
          · cases hk
            rfl
          · cases hw
      · refine ⟨_, _, q + 1, rfl, rfl, hnext, fun k hk => ?_, fun w hw => ?_⟩
        · cases hk
          rfl
        · cases hw
    · simp only [hgt, if_false]
      have hsym := single_none hs hgt
      have hin : inWord c = true := by
        simp only [inWord, decide_eq_true_eq]
        exact ⟨by simpa [isSpace] using hc, hsym⟩
      have htake : (c :: s).takeWhile inWord = c :: s.takeWhile inWord := by rw [takeWhile_cons, if_pos hin]
      have hdrop : (c :: s).dropWhile inWord = s.dropWhile inWord := by rw [dropWhile_cons, if_pos hin]
      have hskip := h.skip inWord
      rw [hdrop] at hskip
      refine ⟨_, _, _, rfl, rfl, hskip, fun k hk => ?_, fun w hw => ?_⟩
      · cases hk
      · cases hw
        have hlen : es - q = (c :: s).length := by
          have := h.stop
          omega
        rw [hlen, skipWhile_at h.here, ← htake]
        exact ⟨hsym, spelled_of_left h⟩

def Cur (mem : Nat → UInt8) (es pos : Nat) (ts : List Token) : Prop := ∃ s, Left mem es pos s ∧ tokens s = ts

theorem Left.cur_space (h : Left mem es pos s) : Cur mem es (skipSpace mem es pos) (tokens s) :=
  ⟨_, h.skip isSpace, tokens_dropWhile s⟩

theorem Cur.gettoken_nil (h : Cur mem es pos []) : ∃ q eq pos', gettoken mem es pos = (.eof, q, eq, pos') ∧
    Cur mem es pos' [] := by
  obtain ⟨s, hl, hts⟩ := h
  have hskip := hl.skip isSpace
  cases hs : s.dropWhile isSpace with
  | nil =>
    rw [hs] at hskip
    have hscan : scan mem es (skipSpace mem es pos) = _ := hskip.scan_nil
    refine ⟨_, _, _, by rw [gettoken, hscan], ?_⟩
    exact tokens_none (s := []) rfl ▸ hskip.cur_space
  | cons c r =>
    rw [hs] at hskip
    obtain ⟨t, r', eq, hlex, -⟩ := hskip.scan_cons (dropWhile_eq_cons hs)
    rw [← tokens_dropWhile, hs, tokens_some hlex] at hts
    cases hts

theorem Cur.gettoken_cons (h : Cur mem es pos (t :: ts)) : ∃ q eq pos', gettoken mem es pos = (t.tok, q, eq, pos') ∧
    Cur mem es pos' ts ∧ ∀ w, t = .word w → Spelled mem q eq w := by
  obtain ⟨s, hl, hts⟩ := h
  have hskip := hl.skip isSpace
  cases hs : s.dropWhile isSpace with
  | nil =>
    rw [← tokens_dropWhile, hs, tokens_none rfl] at hts
    cases hts
  | cons c r =>
    rw [hs] at hskip
    obtain ⟨t', r', eq, hlex, hscan, hleft, -, hword⟩ := hskip.scan_cons (dropWhile_eq_cons hs)
    rw [← tokens_dropWhile, hs, tokens_some hlex] at hts
    cases hts
    have hscan : scan mem es (skipSpace mem es pos) = _ := hscan
    exact ⟨skipSpace mem es pos, _, _, by rw [gettoken, hscan], hleft.cur_space, fun w hw => (hword w hw).2⟩

def startsIn (toks : List UInt8) : List Token → Bool
  | .op k :: _ => k.byte ∈ toks
  | _ => false

theorem Cur.peek_eq (h : Cur mem es pos ts) (toks : List UInt8) (htoks : ∀ c ∈ toks, c ∈ symbols) :
    ∃ pos', peek mem es pos toks = (startsIn toks ts, pos') ∧ Cur mem es pos' ts ∧ (pos' = es ↔ ts = []) := by
  obtain ⟨s, hl, hts⟩ := h
  have hskip : Left mem es (skipSpace mem es pos) (s.dropWhile isSpace) := hl.skip isSpace
  have hcur : Cur mem es (skipSpace mem es pos) ts := hts ▸ hl.cur_space
  refine ⟨_, ?_, hcur, ?_⟩
  · rw [peek]
    congr 1
    rw [hskip.byte, ← hts, ← tokens_dropWhile]
    cases hs : s.dropWhile isSpace with
    | nil =>
      rw [tokens_none rfl]
      rfl
    | cons c r =>
      rw [hs] at hskip
      obtain ⟨t, r', eq, hlex, -, -, hop, hword⟩ := hskip.scan_cons (dropWhile_eq_cons hs)
      rw [tokens_some hlex]
      have h0 : c ≠ 0 := hskip.here.1
      cases t with
      | op k =>
        rw [startsIn, hop k rfl]
        simp [h0]
      | word w =>
        have hno : c ∉ toks := fun hc => (hword w rfl).1 (htoks c hc)
        simp [startsIn, hno]
  · rw [← hts, ← tokens_dropWhile]
    cases hs : s.dropWhile isSpace with
    | nil =>
      rw [hs] at hskip
      rw [tokens_none rfl]
      exact ⟨fun _ => rfl, fun _ => hskip.stop⟩
    | cons c r =>
      rw [hs] at hskip
      obtain ⟨t, r', eq, hlex, -⟩ := hskip.scan_cons (dropWhile_eq_cons hs)
      rw [tokens_some hlex]
      have := hskip.stop
      rw [length_cons] at this
      exact ⟨fun h => by omega, fun h => by cases h⟩

theorem Cur.shift {k : Op} (h : Cur mem es pos (.op k :: ts)) (toks : List UInt8) (htoks : ∀ c ∈ toks, c ∈ symbols)
    (hk : k.byte ∈ toks) :
    ∃ p q eq p', peek mem es pos toks = (true, p) ∧ Cur mem es p (.op k :: ts) ∧
    gettoken mem es p = (.op k, q, eq, p') ∧
      Cur mem es p' ts := by
  obtain ⟨p, hp, h₁, -⟩ := h.peek_eq toks htoks
  obtain ⟨q, eq, p', hg, h₂, -⟩ := h₁.gettoken_cons
  refine ⟨p, q, eq, p', ?_, h₁, hg, h₂⟩
  rw [hp, startsIn]
  simp [hk]

theorem Cur.stay (h : Cur mem es pos ts) (toks : List UInt8) (htoks : ∀ c ∈ toks, c ∈ symbols)
    (hs : startsIn toks ts = false) : ∃ p, peek mem es pos toks = (false, p) ∧ Cur mem es p ts := by
  obtain ⟨p, hp, h₁, -⟩ := h.peek_eq toks htoks
  exact ⟨p, by rw [hp, hs], h₁⟩

theorem startsIn_true {toks : List UInt8} (h : startsIn toks ts = true) : ∃ k ts', ts = .op k :: ts' ∧
    k.byte ∈ toks := by
  match ts, h with
  | .op k :: ts, h => exact ⟨k, ts, rfl, by simpa [startsIn] using h⟩

end Xv6.Sh
