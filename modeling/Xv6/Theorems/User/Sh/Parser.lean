import Xv6.Theorems.User.Sh.Lexer
import Xv6.Lib.Fail
import Mathlib.Data.List.Induction
import Mathlib.Data.List.Forall2

/-! The parser of the shell against the grammar

    line ::= pipe '&'* [';' line]        pipe ::= exec ['|' pipe]
    exec ::= '(' line ')' redirs | redirs (word redirs)*        redirs ::= (('<' | '>' | '>>') word)*

    It stops on every line, accepts those the grammar derives, and returns the tree of the derivation. -/

namespace Xv6.Sh
open List Except

/-! ### The grammar -/

inductive Dir
  | input
  | output
  | append
  deriving DecidableEq, Repr

def Dir.op : Dir → Op
  | input => .lt
  | output => .gt
  | append => .gtgt

def Dir.mode : Dir → Nat
  | input => O_RDONLY
  | output => O_WRONLY ||| O_CREATE
  | append => O_WRONLY ||| O_CREATE

def Dir.fd : Dir → Nat
  | input => 0
  | output => 1
  | append => 1

inductive Tree
  | exec (argv : List (List UInt8))
  | redir (cmd : Tree) (file : List UInt8) (mode fd : Nat)
  | pipe (left right : Tree)
  | list (left right : Tree)
  | back (cmd : Tree)

def wrap (t : Tree) (rs : List (Dir × List UInt8)) : Tree := rs.foldl (fun t r => .redir t r.2 r.1.mode r.1.fd) t

inductive Redirs : List Token → List (Dir × List UInt8) → Prop
  | nil : Redirs [] []
  | cons {ts rs} (d : Dir) (w : List UInt8) (h : Redirs ts rs) : Redirs (.op d.op :: .word w :: ts) ((d, w) :: rs)

/-- Words with redirections between them. -/
inductive Args : List Token → List (List UInt8) → List (Dir × List UInt8) → Prop
  | nil : Args [] [] []
  | cons {ts ts' rs rs' ws} (w : List UInt8) (h : Redirs ts rs) (h' : Args ts' ws rs') :
    Args (.word w :: (ts ++ ts')) (w :: ws) (rs ++ rs')

inductive Nonterminal
  | line
  | pipe
  | exec
  deriving DecidableEq

inductive Derives : Nonterminal → List Token → Tree → Prop
  | line {ts t} (n : Nat) (h : Derives .pipe ts t) : Derives .line (ts ++ replicate n (.op .amp)) (Tree.back^[n] t)
  | list {ts ts' t t'} (n : Nat) (h : Derives .pipe ts t) (h' : Derives .line ts' t') :
    Derives .line (ts ++ (replicate n (.op .amp) ++ .op .semi :: ts')) (.list (Tree.back^[n] t) t')
  | one {ts t} (h : Derives .exec ts t) : Derives .pipe ts t
  | pipe {ts ts' t t'} (h : Derives .exec ts t) (h' : Derives .pipe ts' t') :
    Derives .pipe (ts ++ .op .bar :: ts') (.pipe t t')
  | block {ts ts' t rs} (h : Derives .line ts t) (h' : Redirs ts' rs) :
    Derives .exec (.op .lpar :: (ts ++ .op .rpar :: ts')) (wrap t rs)
  | simple {ts ts' rs rs' ws} (h : Redirs ts rs) (h' : Args ts' ws rs') (hn : ws.length ≤ MAXARGS - 1) :
    Derives .exec (ts ++ ts') (wrap (.exec ws) (rs ++ rs'))

/-- The command has the shape of the tree, with strings in its places that `R` relates to those of the tree. -/
inductive Shape (R : Nat → Nat → List UInt8 → Prop) : Cmd → Tree → Prop
  | exec {argv ws} (h : List.Forall₂ (fun a w => R a.1 a.2 w) argv ws) : Shape R (.exec argv) (.exec ws)
  | redir {cmd t file efile w mode fd} (h : Shape R cmd t) (hw : R file efile w) :
    Shape R (.redir cmd file efile mode fd) (.redir t w mode fd)
  | pipe {c c' t t'} (h : Shape R c t) (h' : Shape R c' t') : Shape R (.pipe c c') (.pipe t t')
  | list {c c' t t'} (h : Shape R c t) (h' : Shape R c' t') : Shape R (.list c c') (.list t t')
  | back {c t} (h : Shape R c t) : Shape R (.back c) (.back t)

variable {mem : Nat → UInt8} {es pos q eq fuel argc n : Nat} {ts ts' pre post : List Token} {cmd cmd' : Cmd}
  {t t' : Tree}
  {d : Dir} {w : List UInt8} {ws : List (List UInt8)} {rs rs' : List (Dir × List UInt8)}
  {R : Nat → Nat → List UInt8 → Prop}

theorem wrap_append : wrap t (rs ++ rs') = wrap (wrap t rs) rs' := foldl_append

theorem Shape.addArg (h : Shape R cmd (wrap (.exec ws) rs)) (hw : R q eq w) :
    Shape R (cmd.addArg q eq) (wrap (.exec (ws ++ [w])) rs) := by
  induction rs using reverseRecOn generalizing cmd with
  | nil =>
    cases h with
    | exec h => exact .exec (rel_append h (.cons hw .nil))
  | append_singleton rs r ih =>
    rw [wrap_append] at h ⊢
    cases h with
    | redir h hf => exact .redir (ih h) hf

/-! ### Stopping, and soundness -/

def Outcome (Q : Cmd → Nat → Prop) : Except Fail (Cmd × Nat) → Prop
  | .ok (cmd, pos) => Q cmd pos
  | .error (.panic _) => True
  | .error .stuck => False

theorem Outcome.bind {Q Q' : Cmd → Nat → Prop} {x : Except Fail (Cmd × Nat)}
    {g : Cmd × Nat → Except Fail (Cmd × Nat)} (h : Outcome Q x)
    (hg : ∀ cmd pos, Q cmd pos → Outcome Q' (g (cmd, pos))) : Outcome Q' (x >>= g) := by
  match x, h with
  | .ok (cmd, pos), h => exact hg cmd pos h
  | .error (.panic _), _ => trivial

theorem Outcome.mono {Q Q' : Cmd → Nat → Prop} {x : Except Fail (Cmd × Nat)} (h : Outcome Q x)
    (hQ : ∀ cmd pos, Q cmd pos → Q' cmd pos) : Outcome Q' x := by
  match x, h with
  | .ok (cmd, pos), h => exact hQ cmd pos h
  | .error (.panic _), _ => trivial


def redirBytes : List UInt8 := ['<'.toUInt8, '>'.toUInt8]
def stopBytes : List UInt8 := ['|'.toUInt8, ')'.toUInt8, '&'.toUInt8, ';'.toUInt8]

theorem redirBytes_symbols : ∀ c ∈ redirBytes, c ∈ symbols := by
  refine forall_mem_cons.mpr ⟨by decide, forall_mem_singleton.mpr ?_⟩
  decide

theorem stopBytes_symbols : ∀ c ∈ stopBytes, c ∈ symbols := by
  refine forall_mem_cons.mpr ⟨by decide, forall_mem_cons.mpr ⟨by decide, forall_mem_cons.mpr ⟨by decide, ?_⟩⟩⟩
  exact forall_mem_singleton.mpr (by decide)

theorem Op.byte_symbol (k : Op) : ∀ c ∈ [k.byte], c ∈ symbols := by
  rw [forall_mem_singleton]
  cases k <;> decide

theorem dir_of_byte {k : Op} (h : k.byte ∈ redirBytes) : ∃ d : Dir, k = d.op := by
  cases k with
  | lt => exact ⟨.input, rfl⟩
  | gt => exact ⟨.output, rfl⟩
  | gtgt => exact ⟨.append, rfl⟩
  | bar | lpar | rpar | semi | amp => exact absurd h (by decide)

theorem Dir.byte_mem (d : Dir) : d.op.byte ∈ redirBytes := by
  cases d <;> decide

theorem op_of_byte {k k' : Op} (h : k'.byte ∈ [k.byte]) (hk : k ≠ .gt ∧ k ≠ .gtgt) : k' = k := by
  cases k <;> cases k' <;> simp_all [Op.byte] <;> exact absurd h (by decide)

section Redirs

variable (fuel : Nat) (cmd : Cmd)

theorem parseredirs_cons (h : Cur mem es pos (.op d.op :: .word w :: ts)) : ∃ q eq p, Spelled mem q eq w ∧
    Cur mem es p ts ∧
      parseredirs mem es (fuel + 1) cmd pos = parseredirs mem es fuel (.redir cmd q eq d.mode d.fd) p := by
  obtain ⟨p₁, _, _, p₂, hp, -, hg, h₂⟩ := h.shift redirBytes redirBytes_symbols d.byte_mem
  obtain ⟨q, eq, p₃, hg', h₃, hw⟩ := h₂.gettoken_cons
  refine ⟨q, eq, p₃, hw w rfl, h₃, ?_⟩
  rw [parseredirs, show peek mem es pos ['<'.toUInt8, '>'.toUInt8] = _ from hp]
  simp only [if_true, hg, hg']
  cases d <;> rfl

theorem parseredirs_stop (h : Cur mem es pos ts) (hs : startsIn redirBytes ts = false) :
    ∃ p, Cur mem es p ts ∧ parseredirs mem es (fuel + 1) cmd pos = .ok (cmd, p) := by
  obtain ⟨p, hp, h₁⟩ := h.stay redirBytes redirBytes_symbols hs
  refine ⟨p, h₁, ?_⟩
  rw [parseredirs, show peek mem es pos ['<'.toUInt8, '>'.toUInt8] = _ from hp]
  rfl

theorem parseredirs_missing (h : Cur mem es pos (.op d.op :: ts)) (hts : ∀ w ts', ts ≠ .word w :: ts') :
    parseredirs mem es (fuel + 1) cmd pos = .error (.panic "missing file for redirection") := by
  obtain ⟨p₁, _, _, p₂, hp, -, hg, h₂⟩ := h.shift redirBytes redirBytes_symbols d.byte_mem
  rw [parseredirs, show peek mem es pos ['<'.toUInt8, '>'.toUInt8] = _ from hp]
  match ts with
  | [] =>
    obtain ⟨q, eq, p₃, hg', -⟩ := h₂.gettoken_nil
    simp only [if_true, hg, hg']
    rfl
  | .op k :: ts =>
    obtain ⟨q, eq, p₃, hg', -⟩ := h₂.gettoken_cons
    simp only [if_true, hg, hg']
    rfl
  | .word w :: ts => exact absurd rfl (hts w ts)

end Redirs

theorem parseredirs_sound (h : Cur mem es pos ts) (hc : Shape (Spelled mem) cmd t) (hf : ts.length < fuel) :
    Outcome (fun cmd' p => ∃ pre rs post, ts = pre ++ post ∧ Redirs pre rs ∧ Shape (Spelled mem) cmd' (wrap t rs) ∧
      Cur mem es p post) (parseredirs mem es fuel cmd pos) := by
  induction fuel generalizing pos ts cmd t with
  | zero => omega
  | succ fuel ih =>
    cases hs : startsIn redirBytes ts with
    | false =>
      obtain ⟨p₁, h₁, he⟩ := parseredirs_stop fuel cmd h hs
      rw [he]
      exact ⟨[], [], ts, rfl, .nil, hc, h₁⟩
    | true =>
      obtain ⟨k, ts, rfl, hk⟩ := startsIn_true hs
      obtain ⟨d, rfl⟩ := dir_of_byte hk
      by_cases hw : ∃ w ts', ts = .word w :: ts'
      · obtain ⟨w, ts, rfl⟩ := hw
        obtain ⟨q, eq, p₁, hw, h₁, he⟩ := parseredirs_cons fuel cmd h
        rw [he]
        refine (ih h₁ (.redir hc hw) (by simp only [length_cons] at hf; omega)).mono ?_
        rintro cmd' p ⟨pre, rs, post, rfl, hr, hc', hp⟩
        exact ⟨_, _, post, rfl, .cons d w hr, hc', hp⟩
      · rw [parseredirs_missing fuel cmd h fun w ts' he => hw ⟨w, ts', he⟩]
        trivial

section Args

variable (fuel argc : Nat) (cmd : Cmd)

theorem parseargs_word (h : Cur mem es pos (.word w :: ts)) : ∃ q eq p, Spelled mem q eq w ∧ Cur mem es p ts ∧
      parseargs mem es (fuel + 1) argc cmd pos = if argc + 1 ≥ MAXARGS then .error (.panic "too many args")
        else parseredirs mem es fuel (cmd.addArg q eq) p >>= fun r => parseargs mem es fuel (argc + 1) r.1 r.2 := by
  obtain ⟨p₁, hp, h₁⟩ := h.stay stopBytes stopBytes_symbols rfl
  obtain ⟨q, eq, p₂, hg, h₂, hw⟩ := h₁.gettoken_cons
  refine ⟨q, eq, p₂, hw w rfl, h₂, ?_⟩
  rw [parseargs, show peek mem es pos ['|'.toUInt8, ')'.toUInt8, '&'.toUInt8, ';'.toUInt8] = _ from hp]
  simp only [hg]
  rfl

theorem parseargs_stop (h : Cur mem es pos ts) (hs : ts = [] ∨ startsIn stopBytes ts = true) :
    ∃ p, Cur mem es p ts ∧ parseargs mem es (fuel + 1) argc cmd pos = .ok (cmd, p) := by
  obtain ⟨p₁, hp, h₁, -⟩ := h.peek_eq stopBytes stopBytes_symbols
  rw [parseargs, show peek mem es pos ['|'.toUInt8, ')'.toUInt8, '&'.toUInt8, ';'.toUInt8] = _ from hp]
  rcases hs with rfl | hs
  · obtain ⟨q, eq, p₂, hg, h₂⟩ := h₁.gettoken_nil
    exact ⟨p₂, h₂, by simp only [startsIn, hg]; rfl⟩
  · exact ⟨p₁, h₁, by simp only [hs, if_true]⟩

theorem parseargs_op {k : Op} (h : Cur mem es pos (.op k :: ts)) (hk : k.byte ∉ stopBytes) :
    parseargs mem es (fuel + 1) argc cmd pos = .error (.panic "syntax") := by
  obtain ⟨p₁, hp, h₁⟩ := h.stay stopBytes stopBytes_symbols (by simp [startsIn, hk])
  obtain ⟨q, eq, p₂, hg, -⟩ := h₁.gettoken_cons
  rw [parseargs, show peek mem es pos ['|'.toUInt8, ')'.toUInt8, '&'.toUInt8, ';'.toUInt8] = _ from hp]
  simp only [hg]
  rfl

end Args

theorem parseargs_sound (h : Cur mem es pos ts) (hc : Shape (Spelled mem) cmd (wrap (.exec ws) rs))
    (hn : ws.length = argc) (ha : argc < MAXARGS) (hf : ts.length < fuel) :
    Outcome (fun cmd' p => ∃ pre ws' rs' post, ts = pre ++ post ∧ Args pre ws' rs' ∧ (ws ++ ws').length < MAXARGS ∧
      Shape (Spelled mem) cmd' (wrap (.exec (ws ++ ws')) (rs ++ rs')) ∧ Cur mem es p post)
      (parseargs mem es fuel argc cmd pos) := by
  induction fuel generalizing pos ts cmd ws rs argc with
  | zero => omega
  | succ fuel ih =>
    by_cases hs : ts = [] ∨ startsIn stopBytes ts = true
    · obtain ⟨p₁, h₁, he⟩ := parseargs_stop fuel argc cmd h hs
      rw [he]
      exact ⟨[], [], [], ts, rfl, .nil, by rw [append_nil]; omega, by rwa [append_nil, append_nil], h₁⟩
    rw [not_or] at hs
    match ts with
    | [] => exact absurd rfl hs.1
    | .op k :: ts =>
      rw [parseargs_op fuel argc cmd h fun hk => hs.2 (by simp [startsIn, hk])]
      trivial
    | .word w :: ts =>
      obtain ⟨q, eq, p₁, hw, h₁, he⟩ := parseargs_word fuel argc cmd h
      rw [he]
      split
      · trivial
      · rename_i hmax
        rw [length_cons] at hf
        refine (parseredirs_sound h₁ (hc.addArg hw) (by omega)).bind ?_
        rintro cmd₂ p₂ ⟨pre, rs₂, post, rfl, hr, hc₂, h₂⟩
        rw [← wrap_append] at hc₂
        rw [length_append] at hf
        refine (ih h₂ hc₂ (by simp [hn]) (by omega) (by omega)).mono ?_
        rintro cmd₃ p₃ ⟨pre', ws', rs', post', rfl, ha', hlen, hc₃, h₃⟩
        refine ⟨.word w :: (pre ++ pre'), w :: ws', rs₂ ++ rs', post', by simp, .cons w hr ha', ?_, ?_, h₃⟩
        · simpa using hlen
        · simpa using hc₃

section Backs

variable (fuel : Nat) (cmd : Cmd)

theorem parsebacks_amp (h : Cur mem es pos (.op .amp :: ts)) :
    ∃ p, Cur mem es p ts ∧ parsebacks mem es (fuel + 1) cmd pos = parsebacks mem es fuel (.back cmd) p := by
  obtain ⟨p₁, _, _, p₂, hp, -, hg, h₂⟩ := h.shift ['&'.toUInt8] (Op.byte_symbol .amp) (by decide)
  refine ⟨p₂, h₂, ?_⟩
  rw [parsebacks, hp]
  simp only [if_true, hg]

theorem parsebacks_stop (h : Cur mem es pos ts) (hs : startsIn ['&'.toUInt8] ts = false) :
    ∃ p, Cur mem es p ts ∧ parsebacks mem es (fuel + 1) cmd pos = .ok (cmd, p) := by
  obtain ⟨p, hp, h₁⟩ := h.stay ['&'.toUInt8] (Op.byte_symbol .amp) hs
  refine ⟨p, h₁, ?_⟩
  rw [parsebacks, hp]
  rfl

end Backs

theorem parsebacks_sound (h : Cur mem es pos ts) (hc : Shape (Spelled mem) cmd t) (hf : ts.length < fuel) :
    Outcome (fun cmd' p => ∃ n post, ts = replicate n (.op .amp) ++ post ∧
      Shape (Spelled mem) cmd' (Tree.back^[n] t) ∧ Cur mem es p post) (parsebacks mem es fuel cmd pos) := by
  induction fuel generalizing pos ts cmd t with
  | zero => omega
  | succ fuel ih =>
    cases hs : startsIn ['&'.toUInt8] ts with
    | false =>
      obtain ⟨p₁, h₁, he⟩ := parsebacks_stop fuel cmd h hs
      rw [he]
      exact ⟨0, ts, rfl, hc, h₁⟩
    | true =>
      obtain ⟨k, ts, rfl, hk⟩ := startsIn_true hs
      obtain rfl : k = .amp := op_of_byte hk (by decide)
      obtain ⟨p₁, h₁, he⟩ := parsebacks_amp fuel cmd h
      rw [he]
      refine (ih h₁ (.back hc) (by simp only [length_cons] at hf; omega)).mono ?_
      rintro cmd' p ⟨n, post, rfl, hc', hp⟩
      exact ⟨n + 1, post, rfl, hc', hp⟩

def Parsed (mem : Nat → UInt8) (es : Nat) (N : Nonterminal) (ts : List Token) (cmd : Cmd) (p : Nat) : Prop :=
  ∃ pre t post, ts = pre ++ post ∧ Derives N pre t ∧ Shape (Spelled mem) cmd t ∧ Cur mem es p post

/-- With enough fuel each function of the parser stops, and what it returns is derived. -/
theorem parse_sound (mem : Nat → UInt8) (es fuel : Nat) :
    (∀ pos ts, Cur mem es pos ts → 4 * ts.length + 4 ≤ fuel →
    Outcome (Parsed mem es .line ts) (parseline mem es fuel pos)) ∧
    (∀ pos ts, Cur mem es pos ts → 4 * ts.length + 3 ≤ fuel →
    Outcome (Parsed mem es .pipe ts) (parsepipe mem es fuel pos)) ∧
    (∀ pos ts, Cur mem es pos ts → 4 * ts.length + 2 ≤ fuel →
    Outcome (Parsed mem es .exec ts) (parseexec mem es fuel pos)) ∧
    (∀ pos ts, Cur mem es pos ts → 4 * ts.length + 1 ≤ fuel →
    Outcome (Parsed mem es .exec ts) (parseblock mem es fuel pos)) := by
  induction fuel with
  | zero =>
    exact ⟨fun _ _ _ hf => by omega, fun _ _ _ hf => by omega, fun _ _ _ hf => by omega, fun _ _ _ hf => by omega⟩
  | succ fuel ih =>
    obtain ⟨ihline, ihpipe, ihexec, ihblock⟩ := ih
    refine ⟨fun pos ts h hf => ?_, fun pos ts h hf => ?_, fun pos ts h hf => ?_, fun pos ts h hf => ?_⟩
    · rw [parseline]
      refine (ihpipe pos ts h (by omega)).bind ?_
      rintro c₁ p₁ ⟨pre, t, post, rfl, hd, hc₁, h₁⟩
      rw [length_append] at hf
      refine (parsebacks_sound h₁ hc₁ (by omega)).bind ?_
      rintro c₂ p₂ ⟨n, post, rfl, hc₂, h₂⟩
      rw [length_append] at hf
      cases hs : startsIn [';'.toUInt8] post with
      | false =>
        obtain ⟨p₃, hp, h₃⟩ := h₂.stay [';'.toUInt8] (Op.byte_symbol .semi) hs
        simp only [hp]
        exact ⟨_, _, post, (append_assoc ..).symm, .line n hd, hc₂, h₃⟩
      | true =>
        obtain ⟨k, post, rfl, hk⟩ := startsIn_true hs
        obtain rfl : k = .semi := op_of_byte hk (by decide)
        obtain ⟨p₃, _, _, p₄, hp, -, hg, h₄⟩ := h₂.shift [';'.toUInt8] (Op.byte_symbol .semi) (by decide)
        simp only [hp, if_true, hg]
        rw [length_cons] at hf
        refine (ihline p₄ post h₄ (by omega)).bind ?_
        rintro c₅ p₅ ⟨pre', t', post', rfl, hd', hc₅, h₅⟩
        exact ⟨_, _, post', by simp, .list n hd hd', .list hc₂ hc₅, h₅⟩
    · rw [parsepipe]
      refine (ihexec pos ts h (by omega)).bind ?_
      rintro c₁ p₁ ⟨pre, t, post, rfl, hd, hc₁, h₁⟩
      rw [length_append] at hf
      cases hs : startsIn ['|'.toUInt8] post with
      | false =>
        obtain ⟨p₂, hp, h₂⟩ := h₁.stay ['|'.toUInt8] (Op.byte_symbol .bar) hs
        simp only [hp]
        exact ⟨_, _, post, rfl, .one hd, hc₁, h₂⟩
      | true =>
        obtain ⟨k, post, rfl, hk⟩ := startsIn_true hs
        obtain rfl : k = .bar := op_of_byte hk (by decide)
        obtain ⟨p₂, _, _, p₃, hp, -, hg, h₃⟩ := h₁.shift ['|'.toUInt8] (Op.byte_symbol .bar) (by decide)
        simp only [hp, if_true, hg]
        rw [length_cons] at hf
        refine (ihpipe p₃ post h₃ (by omega)).bind ?_
        rintro c₄ p₄ ⟨pre', t', post', rfl, hd', hc₄, h₄⟩
        exact ⟨_, _, post', by simp, .pipe hd hd', .pipe hc₁ hc₄, h₄⟩
    · rw [parseexec]
      obtain ⟨p₁, hp, h₁, -⟩ := h.peek_eq ['('.toUInt8] (Op.byte_symbol .lpar)
      simp only [hp]
      cases hs : startsIn ['('.toUInt8] ts with
      | true => exact ihblock p₁ ts h₁ (by omega)
      | false =>
        refine (parseredirs_sound h₁ (.exec .nil) (by omega)).bind ?_
        rintro c₂ p₂ ⟨pre, rs, post, rfl, hr, hc₂, h₂⟩
        rw [length_append] at hf
        refine (parseargs_sound h₂ hc₂ rfl (by decide) (by omega)).mono ?_
        rintro c₃ p₃ ⟨pre', ws, rs', post', rfl, ha, hlen, hc₃, h₃⟩
        exact ⟨_, _, post', (append_assoc ..).symm, .simple hr ha (Nat.le_sub_one_of_lt hlen), hc₃, h₃⟩
    · rw [parseblock]
      cases hs : startsIn ['('.toUInt8] ts with
      | false =>
        obtain ⟨p₁, hp, -⟩ := h.stay ['('.toUInt8] (Op.byte_symbol .lpar) hs
        simp only [hp]
        trivial
      | true =>
        obtain ⟨k, ts, rfl, hk⟩ := startsIn_true hs
        obtain rfl : k = .lpar := op_of_byte hk (by decide)
        obtain ⟨p₁, _, _, p₂, hp, -, hg, h₂⟩ := h.shift ['('.toUInt8] (Op.byte_symbol .lpar) (by decide)
        simp only [hp, hg]
        rw [length_cons] at hf
        refine (ihline p₂ ts h₂ (by omega)).bind ?_
        rintro c₃ p₃ ⟨pre, t, post, rfl, hd, hc₃, h₃⟩
        rw [length_append] at hf
        cases hs' : startsIn [')'.toUInt8] post with
        | false =>
          obtain ⟨p₄, hp', -⟩ := h₃.stay [')'.toUInt8] (Op.byte_symbol .rpar) hs'
          simp only [hp']
          trivial
        | true =>
          obtain ⟨k, post, rfl, hk⟩ := startsIn_true hs'
          obtain rfl : k = .rpar := op_of_byte hk (by decide)
          obtain ⟨p₄, _, _, p₅, hp', -, hg', h₅⟩ := h₃.shift [')'.toUInt8] (Op.byte_symbol .rpar) (by decide)
          simp only [hp', hg']
          rw [length_cons] at hf
          refine (parseredirs_sound h₅ hc₃ (by omega)).mono ?_
          rintro c₆ p₆ ⟨pre', rs, post', rfl, hr, hc₆, h₆⟩
          exact ⟨_, _, post', by simp, .block hd hr, hc₆, h₆⟩

/-! ### Completeness -/

theorem parseredirs_complete (hr : Redirs pre rs) (h : Cur mem es pos (pre ++ post))
    (hs : startsIn redirBytes post = false) (hc : Shape (Spelled mem) cmd t) (hf : pre.length < fuel) :
    ∃ cmd' p, parseredirs mem es fuel cmd pos = .ok (cmd', p) ∧ Shape (Spelled mem) cmd' (wrap t rs) ∧
    Cur mem es p post := by
  obtain _ | fuel := fuel
  · omega
  induction hr generalizing pos cmd t fuel with
  | nil =>
    obtain ⟨p, h₁, he⟩ := parseredirs_stop fuel cmd h hs
    exact ⟨cmd, p, he, hc, h₁⟩
  | cons d w hr ih =>
    obtain ⟨q, eq, p₁, hw, h₁, he⟩ := parseredirs_cons fuel cmd h
    simp only [length_cons] at hf
    obtain _ | fuel := fuel
    · omega
    rw [he]
    exact ih h₁ (.redir hc hw) fuel (by omega)

theorem Args.startsIn_redir (ha : Args pre ws rs) (hp : startsIn redirBytes post = false) :
    startsIn redirBytes (pre ++ post) = false := by
  cases ha with
  | nil => exact hp
  | cons w h h' => rfl

theorem not_redir_of_stop (hs : post = [] ∨ startsIn stopBytes post = true) : startsIn redirBytes post = false := by
  rcases hs with rfl | hs
  · rfl
  · obtain ⟨k, ts, rfl, hk⟩ := startsIn_true hs
    cases k <;> first | rfl | exact absurd hk (by decide)

theorem parseargs_complete (ha : Args pre ws rs) (h : Cur mem es pos (pre ++ post))
    (hs : post = [] ∨ startsIn stopBytes post = true) {vs : List (List UInt8)} {rs₀ : List (Dir × List UInt8)}
    (hc : Shape (Spelled mem) cmd (wrap (.exec vs) rs₀)) (hmax : argc + ws.length < MAXARGS) (hf : pre.length < fuel) :
    ∃ cmd' p, parseargs mem es fuel argc cmd pos = .ok (cmd', p) ∧
      Shape (Spelled mem) cmd' (wrap (.exec (vs ++ ws)) (rs₀ ++ rs)) ∧ Cur mem es p post := by
  obtain _ | fuel := fuel
  · omega
  induction ha generalizing pos cmd vs rs₀ argc fuel with
  | nil =>
    obtain ⟨p, h₁, he⟩ := parseargs_stop fuel argc cmd h hs
    exact ⟨cmd, p, he, by rwa [append_nil, append_nil], h₁⟩
  | cons w hr ha ih =>
    rw [cons_append, append_assoc] at h
    obtain ⟨q, eq, p₁, hw, h₁, he⟩ := parseargs_word fuel argc cmd h
    simp only [length_cons, length_append] at hf hmax
    obtain ⟨c₂, p₂, he₂, hc₂, h₂⟩ :=
      parseredirs_complete hr h₁ (ha.startsIn_redir (not_redir_of_stop hs)) (hc.addArg hw) (show _ < fuel by omega)
    rw [← wrap_append] at hc₂
    obtain _ | fuel := fuel
    · omega
    obtain ⟨c₃, p₃, he₃, hc₃, h₃⟩ := ih h₂ hc₂ (show argc + 1 + _ < MAXARGS by omega) fuel (by omega)
    refine ⟨c₃, p₃, ?_, by simpa using hc₃, h₃⟩
    rw [he, if_neg (by omega), he₂]
    exact he₃

theorem parsebacks_complete (h : Cur mem es pos (replicate n (.op .amp) ++ post))
    (hs : startsIn ['&'.toUInt8] post = false) (hc : Shape (Spelled mem) cmd t) (hf : n < fuel) :
    ∃ cmd' p, parsebacks mem es fuel cmd pos = .ok (cmd', p) ∧ Shape (Spelled mem) cmd' (Tree.back^[n] t) ∧
      Cur mem es p post := by
  obtain _ | fuel := fuel
  · omega
  induction n generalizing pos cmd t fuel with
  | zero =>
    obtain ⟨p, h₁, he⟩ := parsebacks_stop fuel cmd h hs
    exact ⟨cmd, p, he, hc, h₁⟩
  | succ n ih =>
    rw [replicate_succ, cons_append] at h
    obtain ⟨p₁, h₁, he⟩ := parsebacks_amp fuel cmd h
    obtain _ | fuel := fuel
    · omega
    rw [he]
    exact ih h₁ (.back hc) fuel (by omega)

def Nonterminal.follow : Nonterminal → List Op
  | .line => [.rpar]
  | .pipe => [.rpar, .amp, .semi]
  | .exec => [.rpar, .amp, .semi, .bar]

def Follows (N : Nonterminal) (post : List Token) : Prop := post = [] ∨ ∃ k ∈ N.follow, ∃ ts, post = .op k :: ts

theorem Follows.startsIn_false {N : Nonterminal} (h : Follows N post) {toks : List UInt8}
    (hk : ∀ k ∈ N.follow, k.byte ∉ toks) : startsIn toks post = false := by
  rcases h with rfl | ⟨k, hk', ts, rfl⟩
  · rfl
  · simpa [startsIn] using hk k hk'

theorem Follows.mono {N N' : Nonterminal} (h : Follows N post) (hN : ∀ k ∈ N.follow, k ∈ N'.follow) : Follows N' post :=
  h.imp id fun ⟨k, hk, ts, he⟩ => ⟨k, hN k hk, ts, he⟩

theorem Follows.stop (h : Follows .exec post) : post = [] ∨ startsIn stopBytes post = true := by
  refine h.imp id ?_
  rintro ⟨k, hk, ts, rfl⟩
  have : ∀ k ∈ Nonterminal.exec.follow, k.byte ∈ stopBytes := by decide
  simpa [startsIn] using this k hk

theorem follows_amps (h : Follows .line post) : Follows .pipe (replicate n (.op .amp) ++ post) := by
  cases n with
  | zero => exact h.mono (by decide)
  | succ n => exact .inr ⟨.amp, by decide, _, rfl⟩

theorem follows_amps_semi : Follows .pipe (replicate n (.op .amp) ++ .op .semi :: ts) := by
  cases n with
  | zero => exact .inr ⟨.semi, by decide, _, rfl⟩
  | succ n => exact .inr ⟨.amp, by decide, _, rfl⟩

/-- The function for a nonterminal, and the fuel it needs for `n` tokens. -/
def parse (mem : Nat → UInt8) (es : Nat) : Nonterminal → Nat → Nat → Except Fail (Cmd × Nat)
  | .line => parseline mem es
  | .pipe => parsepipe mem es
  | .exec => parseexec mem es

def Nonterminal.need : Nonterminal → Nat → Nat
  | .line, n => 4 * n + 4
  | .pipe, n => 4 * n + 3
  | .exec, n => 4 * n + 2

theorem simple_not_lpar (hr : Redirs ts rs) (ha : Args ts' ws rs') (hs : post = [] ∨ startsIn stopBytes post = true) :
    startsIn ['('.toUInt8] (ts ++ (ts' ++ post)) = false := by
  cases hr with
  | nil =>
    cases ha with
    | nil =>
      rcases hs with rfl | hs
      · rfl
      · obtain ⟨k, ts, rfl, hk⟩ := startsIn_true hs
        cases k <;> first | rfl | exact absurd hk (by decide)
    | cons w h h' => rfl
  | cons d w h => cases d <;> rfl

theorem parse_complete {N : Nonterminal} (hd : Derives N pre t) (h : Cur mem es pos (pre ++ post)) (hp : Follows N post)
    (hf : N.need pre.length ≤ fuel) :
    ∃ cmd p, parse mem es N fuel pos = .ok (cmd, p) ∧ Shape (Spelled mem) cmd t ∧ Cur mem es p post := by
  induction hd generalizing pos post fuel with
  | line n hd ih =>
    simp only [Nonterminal.need, length_append, length_replicate] at hf ih
    obtain _ | fuel := fuel
    · omega
    rw [append_assoc] at h
    obtain ⟨c₁, p₁, he₁, hc₁, h₁⟩ := ih h (follows_amps hp) (show _ ≤ fuel by omega)
    obtain ⟨c₂, p₂, he₂, hc₂, h₂⟩ := parsebacks_complete h₁ (hp.startsIn_false (by decide)) hc₁ (show n < fuel by omega)
    obtain ⟨p₃, he₃, h₃⟩ := h₂.stay [';'.toUInt8] (Op.byte_symbol .semi) (hp.startsIn_false (by decide))
    refine ⟨c₂, p₃, ?_, hc₂, h₃⟩
    change parseline mem es (fuel + 1) pos = _
    have he₁ : parsepipe mem es fuel pos = _ := he₁
    simp only [parseline, he₁, ok_bind, he₂, he₃]
    rfl
  | list n hd hd' ih ih' =>
    simp only [Nonterminal.need, length_append, length_replicate, length_cons] at hf ih ih'
    obtain _ | fuel := fuel
    · omega
    simp only [append_assoc, cons_append] at h
    obtain ⟨c₁, p₁, he₁, hc₁, h₁⟩ := ih h follows_amps_semi (show _ ≤ fuel by omega)
    obtain ⟨c₂, p₂, he₂, hc₂, h₂⟩ := parsebacks_complete h₁ rfl hc₁ (show n < fuel by omega)
    obtain ⟨p₃, _, _, p₄, he₃, -, he₄, h₄⟩ := h₂.shift [';'.toUInt8] (Op.byte_symbol .semi) (by decide)
    obtain ⟨c₅, p₅, he₅, hc₅, h₅⟩ := ih' h₄ hp (show _ ≤ fuel by omega)
    refine ⟨.list c₂ c₅, p₅, ?_, .list hc₂ hc₅, h₅⟩
    change parseline mem es (fuel + 1) pos = _
    have he₁ : parsepipe mem es fuel pos = _ := he₁
    have he₅ : parseline mem es fuel p₄ = _ := he₅
    simp only [parseline, he₁, ok_bind, he₂, he₃, if_true, he₄, he₅]
  | one hd ih =>
    simp only [Nonterminal.need] at hf ih
    obtain _ | fuel := fuel
    · omega
    obtain ⟨c₁, p₁, he₁, hc₁, h₁⟩ := ih h (hp.mono (by decide)) (show _ ≤ fuel by omega)
    obtain ⟨p₂, he₂, h₂⟩ := h₁.stay ['|'.toUInt8] (Op.byte_symbol .bar) (hp.startsIn_false (by decide))
    refine ⟨c₁, p₂, ?_, hc₁, h₂⟩
    change parsepipe mem es (fuel + 1) pos = _
    have he₁ : parseexec mem es fuel pos = _ := he₁
    simp only [parsepipe, he₁, ok_bind, he₂]
    rfl
  | pipe hd hd' ih ih' =>
    simp only [Nonterminal.need, length_append, length_cons] at hf ih ih'
    obtain _ | fuel := fuel
    · omega
    simp only [append_assoc, cons_append] at h
    obtain ⟨c₁, p₁, he₁, hc₁, h₁⟩ := ih h (.inr ⟨.bar, by decide, _, rfl⟩) (show _ ≤ fuel by omega)
    obtain ⟨p₂, _, _, p₃, he₂, -, he₃, h₃⟩ := h₁.shift ['|'.toUInt8] (Op.byte_symbol .bar) (by decide)
    obtain ⟨c₄, p₄, he₄, hc₄, h₄⟩ := ih' h₃ hp (show _ ≤ fuel by omega)
    refine ⟨.pipe c₁ c₄, p₄, ?_, .pipe hc₁ hc₄, h₄⟩
    change parsepipe mem es (fuel + 1) pos = _
    have he₁ : parseexec mem es fuel pos = _ := he₁
    have he₄ : parsepipe mem es fuel p₃ = _ := he₄
    simp only [parsepipe, he₁, ok_bind, he₂, if_true, he₃, he₄]
  | block hd hr ih =>
    simp only [Nonterminal.need, length_append, length_cons] at hf ih
    obtain _ | fuel := fuel
    · omega
    obtain _ | fuel := fuel
    · omega
    simp only [append_assoc, cons_append] at h
    obtain ⟨p₁, _, _, _, he₁, h₁, -, -⟩ := h.shift ['('.toUInt8] (Op.byte_symbol .lpar) (by decide)
    obtain ⟨p₂, _, _, p₃, he₂, -, he₃, h₃⟩ := h₁.shift ['('.toUInt8] (Op.byte_symbol .lpar) (by decide)
    obtain ⟨c₄, p₄, he₄, hc₄, h₄⟩ := ih h₃ (.inr ⟨.rpar, by decide, _, rfl⟩) (show _ ≤ fuel by omega)
    obtain ⟨p₅, _, _, p₆, he₅, -, he₆, h₆⟩ := h₄.shift [')'.toUInt8] (Op.byte_symbol .rpar) (by decide)
    obtain ⟨c₇, p₇, he₇, hc₇, h₇⟩ := parseredirs_complete hr h₆ (not_redir_of_stop hp.stop) hc₄ (show _ < fuel by omega)
    refine ⟨c₇, p₇, ?_, hc₇, h₇⟩
    change parseexec mem es (fuel + 1 + 1) pos = _
    have he₄ : parseline mem es fuel p₃ = _ := he₄
    simp only [parseexec, he₁, if_true, parseblock, he₂, he₃, not_true_eq_false, if_false, he₄, ok_bind, he₅, he₆, he₇]
  | simple hr ha hn =>
    simp only [Nonterminal.need, length_append] at hf
    obtain _ | fuel := fuel
    · omega
    rw [append_assoc] at h
    obtain ⟨p₁, he₁, h₁⟩ := h.stay ['('.toUInt8] (Op.byte_symbol .lpar) (simple_not_lpar hr ha hp.stop)
    obtain ⟨c₂, p₂, he₂, hc₂, h₂⟩ := parseredirs_complete hr h₁ (ha.startsIn_redir (not_redir_of_stop hp.stop))
      (.exec .nil) (show _ < fuel by omega)
    obtain ⟨c₃, p₃, he₃, hc₃, h₃⟩ :=
      parseargs_complete ha h₂ hp.stop hc₂ (show 0 + _ < MAXARGS by simp only [MAXARGS] at *; omega)
      (show _ < fuel by omega)
    refine ⟨c₃, p₃, ?_, hc₃, h₃⟩
    change parseexec mem es (fuel + 1) pos = _
    simp only [parseexec, he₁, he₂, ok_bind]
    exact he₃

/-! ### The strings -/

def Cmd.ends : Cmd → List Nat
  | .exec argv => argv.map (·.2)
  | .redir cmd _ efile _ _ => cmd.ends ++ [efile]
  | .pipe left right => left.ends ++ right.ends
  | .list left right => left.ends ++ right.ends
  | .back cmd => cmd.ends

theorem foldl_nul (l : List (Nat × Nat)) (i : Nat) :
    l.foldl (fun mem a => Function.update mem a.2 0) mem i = if i ∈ l.map (·.2) then 0 else mem i := by
  induction l generalizing mem with
  | nil => rfl
  | cons a l ih =>
    rw [foldl_cons, ih, Function.update_apply, map_cons]
    by_cases h1 : i ∈ l.map (·.2)
    · rw [if_pos h1, if_pos (mem_cons_of_mem _ h1)]
    · rw [if_neg h1]
      simp only [mem_cons, h1, or_false]

theorem forall_mem_of_forall₂ {α β : Type} {P : α → Prop} {l : List α} {l' : List β}
    (h : List.Forall₂ (fun a _ => P a) l l') : ∀ a ∈ l, P a := by
  induction h with
  | nil => exact fun a ha => by cases ha
  | cons h _ ih => exact forall_mem_cons.mpr ⟨h, ih⟩

theorem nulterminate_eq (mem : Nat → UInt8) (h : Shape (fun q _ _ => q ≠ 0) cmd t) (i : Nat) :
    nulterminate mem cmd i = if i ∈ cmd.ends then 0 else mem i := by
  induction h generalizing mem with
  | @exec argv ws h =>
    have hall : argv.takeWhile (·.1 ≠ 0) = argv := by
      refine takeWhile_eq_self_iff.mpr fun a ha => ?_
      simpa using forall_mem_of_forall₂ h a ha
    rw [nulterminate, hall, foldl_nul]
    rfl
  | redir h hw ih =>
    rw [nulterminate, Function.update_apply, ih, Cmd.ends]
    simp only [mem_append, mem_singleton]
    split <;> simp_all
  | pipe h h' ih ih' =>
    rw [nulterminate, ih', ih, Cmd.ends]
    simp only [mem_append]
    split <;> simp_all
  | list h h' ih ih' =>
    rw [nulterminate, ih', ih, Cmd.ends]
    simp only [mem_append]
    split <;> simp_all
  | back h ih => rw [nulterminate, ih, Cmd.ends]

theorem Shape.mono {R' : Nat → Nat → List UInt8 → Prop} (h : Shape R cmd t) (hR : ∀ q eq w, R q eq w → R' q eq w) :
    Shape R' cmd t := by
  induction h with
  | exec h => exact .exec (List.Forall₂.imp (fun _ _ => hR _ _ _) h)
  | redir h hw ih => exact .redir ih (hR _ _ _ hw)
  | pipe h h' ih ih' => exact .pipe ih ih'
  | list h h' ih ih' => exact .list ih ih'
  | back h ih => exact .back ih

theorem Shape.with_ends (h : Shape R cmd t) {E : List Nat} (hE : ∀ i ∈ cmd.ends, i ∈ E) :
    Shape (fun q eq w => R q eq w ∧ eq ∈ E) cmd t := by
  induction h with
  | exec h =>
    refine .exec ?_
    induction h with
    | nil => exact .nil
    | cons hw h ih =>
      exact .cons ⟨hw, hE _ mem_cons_self⟩ (ih fun i hi => hE i (mem_cons_of_mem _ hi))
  | redir h hw ih =>
    simp only [Cmd.ends, mem_append, mem_singleton] at hE
    exact .redir (ih fun i hi => hE i (.inl hi)) ⟨hw, hE _ (.inr rfl)⟩
  | pipe h h' ih ih' =>
    simp only [Cmd.ends, mem_append] at hE
    exact .pipe (ih fun i hi => hE i (.inl hi)) (ih' fun i hi => hE i (.inr hi))
  | list h h' ih ih' =>
    simp only [Cmd.ends, mem_append] at hE
    exact .list (ih fun i hi => hE i (.inl hi)) (ih' fun i hi => hE i (.inr hi))
  | back h ih => exact .back (ih hE)

theorem Shape.ends_ended (h : Shape (Spelled mem) cmd t) : ∀ i ∈ cmd.ends, mem i = 0 ∨ inWord (mem i) = false := by
  induction h with
  | exec h =>
    rw [Cmd.ends, forall_mem_map]
    refine forall_mem_of_forall₂ (P := fun a => mem a.2 = 0 ∨ inWord (mem a.2) = false)
      (List.Forall₂.imp (fun _ _ hw => ?_) h)
    exact hw.ended
  | redir h hw ih => exact forall_mem_append.mpr ⟨ih, forall_mem_singleton.mpr hw.ended⟩
  | pipe h h' ih ih' => exact forall_mem_append.mpr ⟨ih, ih'⟩
  | list h h' ih ih' => exact forall_mem_append.mpr ⟨ih, ih'⟩
  | back h ih => exact ih

def Reads (mem : Nat → UInt8) : Cmd → Tree → Prop := Shape fun q _ w => Cstr.At mem q w

theorem reads_nulterminate (h : Shape (Spelled mem) cmd t) : Reads (nulterminate mem cmd) cmd t := by
  have hnul := nulterminate_eq mem (h.mono fun q eq w hw => hw.nonnull)
  refine (h.with_ends (E := cmd.ends) fun i hi => hi).mono ?_
  rintro q eq w ⟨hw, hend⟩
  refine Cstr.at_of_bytes (fun h0 => (hw.inWord 0 h0).1 rfl) (fun i hi => ?_) ?_
  · have hbyte := hw.bytes i hi
    obtain ⟨h0, hin⟩ := hw.inWord w[i] (getElem_mem hi)
    rw [hnul, if_neg, hbyte]
    intro hc
    rcases h.ends_ended _ hc with h1 | h1
    · exact h0 (hbyte.symm.trans h1)
    · rw [hbyte, hin] at h1
      cases h1
  · rw [hw.length, hnul, if_pos hend]

theorem forall₂_at_unique {argv : List (Nat × Nat)} {vs : List (List UInt8)}
    (h : List.Forall₂ (fun a w => Cstr.At mem a.1 w) argv ws)
    (h' : List.Forall₂ (fun a w => Cstr.At mem a.1 w) argv vs) : ws = vs := by
  induction h generalizing vs with
  | nil =>
    cases h'
    rfl
  | cons hw h ih =>
    cases h' with
    | cons hw' h' => rw [hw.unique hw', ih h']

theorem Reads.unique (h : Reads mem cmd t) (h' : Reads mem cmd t') : t = t' := by
  induction h generalizing t' with
  | exec h =>
    cases h' with
    | exec h' =>
      congr 1
      exact forall₂_at_unique h h'
  | redir h hw ih =>
    cases h' with
    | redir h' hw' => rw [ih h', hw.unique hw']
  | pipe h₁ h₂ ih₁ ih₂ =>
    cases h' with
    | pipe h₁' h₂' => rw [ih₁ h₁', ih₂ h₂']
  | list h₁ h₂ ih₁ ih₂ =>
    cases h' with
    | list h₁' h₂' => rw [ih₁ h₁', ih₂ h₂']
  | back h ih =>
    cases h' with
    | back h' => rw [ih h']

/-! ### `parsecmd` -/

theorem strlen_eq {s : List UInt8} (h : Cstr.At mem pos s) (hs : s.length < 2 ^ 32) : strlen mem pos = s.length := by
  rw [strlen, h.read_eq hs]

/-- Every line is parsed to the one tree that the grammar derives for its tokens, whose strings then stand in memory, or
    it is refused with a message and the grammar derives none. -/
theorem parsecmd_spec {s : List UInt8} (h : Cstr.At mem pos s) (hpos : pos ≠ 0) (hs : s.length < 2 ^ 32) :
    (∃ cmd mem' t, parsecmd mem pos = .ok (cmd, mem') ∧ Reads mem' cmd t ∧ ∀ u, Derives .line (tokens s) u ↔ u = t) ∨
      ∃ msg, parsecmd mem pos = .error (.panic msg) ∧ ∀ u, ¬Derives .line (tokens s) u := by
  have hlen : pos + s.length - pos = s.length := Nat.add_sub_cancel_left ..
  have hcur : Cur mem (pos + s.length) pos (tokens s) := ⟨s, ⟨h, rfl, hpos⟩, rfl⟩
  have htok := tokens_length s
  -- a derivation of the whole line is parsed
  have hcomplete : ∀ u, Derives .line (tokens s) u →
      ∃ cmd, parsecmd mem pos = .ok (cmd, nulterminate mem cmd) ∧ Shape (Spelled mem) cmd u := by
    intro u hu
    obtain ⟨cmd, p, he, hc, hp⟩ := parse_complete hu (by rwa [append_nil]) (.inl rfl)
      (show _ ≤ 4 * s.length + 4 by simp only [Nonterminal.need]; omega)
    have he : parseline mem (pos + s.length) (4 * s.length + 4) pos = _ := he
    obtain ⟨p', hpk, -, hend⟩ := hp.peek_eq [] (by simp)
    refine ⟨cmd, ?_, hc⟩
    simp only [parsecmd, strlen_eq h hs, hlen, he, ok_bind, hpk, hend.mpr rfl, ne_eq, not_true_eq_false, if_false]
  have hout := (parse_sound mem (pos + s.length) (4 * s.length + 4)).1 pos _ hcur (by omega)
  -- the function's own result
  match hr : parseline mem (pos + s.length) (4 * s.length + 4) pos, hout with
  | .error (.panic msg), _ =>
    refine .inr ⟨msg, ?_, fun u hu => ?_⟩
    · simp only [parsecmd, strlen_eq h hs, hlen, hr]
      rfl
    · obtain ⟨cmd, hok, -⟩ := hcomplete u hu
      simp only [parsecmd, strlen_eq h hs, hlen, hr] at hok
      cases hok
  | .ok (cmd, p), hout =>
    obtain ⟨pre, t, post, hts, hd, hc, hp⟩ := hout
    obtain ⟨p', hpk, -, hend⟩ := hp.peek_eq [] (by simp)
    by_cases hpost : post = []
    · subst hpost
      rw [append_nil] at hts
      have hok : parsecmd mem pos = .ok (cmd, nulterminate mem cmd) := by
        simp only [parsecmd, strlen_eq h hs, hlen, hr, ok_bind, hpk, hend.mpr rfl, ne_eq, not_true_eq_false, if_false]
      refine .inl ⟨cmd, _, t, hok, reads_nulterminate hc, fun u => ⟨fun hu => ?_, fun hu => ?_⟩⟩
      · obtain ⟨cmd', hok', hc'⟩ := hcomplete u hu
        rw [hok] at hok'
        cases hok'
        exact (reads_nulterminate hc').unique (reads_nulterminate hc)
      · rw [hts, hu]
        exact hd
    · have hne : p' ≠ pos + s.length := fun he => hpost (hend.mp he)
      have herr : parsecmd mem pos = .error (.panic "syntax") := by
        simp only [parsecmd, strlen_eq h hs, hlen, hr, ok_bind, hpk, ne_eq, hne, not_false_eq_true, if_true]
      refine .inr ⟨_, herr, fun u hu => ?_⟩
      obtain ⟨cmd', hok', -⟩ := hcomplete u hu
      rw [herr] at hok'
      cases hok'

def redirLine : List UInt8 := ['a'.toUInt8, '>'.toUInt8, 'b'.toUInt8]

def redirMem (i : Nat) : UInt8 := redirLine.getD (i - 1) 0

theorem redirMem_at : Cstr.At redirMem 1 redirLine := by
  refine ⟨by decide, by decide, by decide, by decide, by decide, by decide, ?_⟩
  exact rfl

theorem redirLine_tokens : tokens redirLine = [.word ['a'.toUInt8], .op .gt, .word ['b'.toUInt8]] := by
  have h1 : lex redirLine = some (.word ['a'.toUInt8], ['>'.toUInt8, 'b'.toUInt8]) := by decide
  have h2 : lex ['>'.toUInt8, 'b'.toUInt8] = some (.op .gt, ['b'.toUInt8]) := by decide
  have h3 : lex ['b'.toUInt8] = some (.word ['b'.toUInt8], []) := by decide
  rw [tokens_some h1, tokens_some h2, tokens_some h3, tokens_none rfl]

theorem redirLine_derives : Derives .line (tokens redirLine) (.redir (.exec [['a'.toUInt8]]) ['b'.toUInt8] 513 1) := by
  rw [redirLine_tokens]
  exact .line 0 (.one (.simple .nil (.cons _ (.cons .output _ .nil) .nil) (by decide)))

theorem parsecmd_spec_redir : ∃ cmd mem', parsecmd redirMem 1 = .ok (cmd, mem') ∧
    Reads mem' cmd (.redir (.exec [['a'.toUInt8]]) ['b'.toUInt8] 513 1) := by
  rcases parsecmd_spec redirMem_at (by decide) (by decide) with ⟨cmd, mem', t, hok, hr, hiff⟩ | ⟨msg, -, hno⟩
  · obtain rfl := (hiff _).mp redirLine_derives
    exact ⟨cmd, mem', hok, hr⟩
  · exact absurd redirLine_derives (hno _)

end Xv6.Sh
