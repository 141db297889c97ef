import Xv6.Lib.Cstr

/-! The parser of the shell (sh.c). The line and its tokens are in memory; a command holds pointers to the first byte of
    each string and to the byte after it, where `nulterminate` puts the NULs once the whole line is parsed. -/

namespace Xv6.Sh

def MAXARGS : Nat := 10

def O_RDONLY : Nat := 0
def O_WRONLY : Nat := 1
def O_CREATE : Nat := 512

def whitespace : List UInt8 := [' '.toUInt8, '\t'.toUInt8, '\r'.toUInt8, '\n'.toUInt8, 11]

def symbols : List UInt8 :=
  ['<'.toUInt8, '|'.toUInt8, '>'.toUInt8, '&'.toUInt8, ';'.toUInt8, '('.toUInt8, ')'.toUInt8]

inductive Op
  | bar
  | lpar
  | rpar
  | semi
  | amp
  | lt
  | gt
  | gtgt
  deriving DecidableEq, Repr

/-- What `gettoken` returns: 0, the symbol ('+' for >>), or 'a'. -/
inductive Tok
  | eof
  | op (k : Op)
  | word
  deriving DecidableEq, Repr

/-- The symbols that are a token whatever follows. -/
def Op.single (c : UInt8) : Option Op :=
  if c = '|'.toUInt8 then some .bar
  else if c = '('.toUInt8 then some .lpar
  else if c = ')'.toUInt8 then some .rpar
  else if c = ';'.toUInt8 then some .semi
  else if c = '&'.toUInt8 then some .amp
  else if c = '<'.toUInt8 then some .lt
  else none

def isSpace (c : UInt8) : Bool := c ∈ whitespace

def inWord (c : UInt8) : Bool := c ∉ whitespace ∧ c ∉ symbols

/-- `while(n > 0 && p(*s)) s++`, for `n` bytes at most. -/
def skipWhile (p : UInt8 → Bool) (mem : Nat → UInt8) : Nat → Nat → Nat
  | 0, s => s
  | n + 1, s => if p (mem s) then skipWhile p mem n (s + 1) else s

def skipSpace (mem : Nat → UInt8) (es s : Nat) : Nat := skipWhile isSpace mem (es - s) s

/-- The switch of `gettoken`: the token that starts at `s`, and the byte after it. -/
def scan (mem : Nat → UInt8) (es s : Nat) : Tok × Nat :=
  if mem s = 0 then (.eof, s)
  else
    match Op.single (mem s) with
    | some k => (.op k, s + 1)
    | none =>
      if mem s = '>'.toUInt8 then
        if mem (s + 1) = '>'.toUInt8 then (.op .gtgt, s + 2) else (.op .gt, s + 1)
      else (.word, skipWhile inWord mem (es - s) s)

/-- The token at `s`, its first byte, the byte after it, and where the next one may start. -/
def gettoken (mem : Nat → UInt8) (es s : Nat) : Tok × Nat × Nat × Nat :=
  let q := skipSpace mem es s
  let (ret, eq) := scan mem es q
  (ret, q, eq, skipSpace mem es eq)

def peek (mem : Nat → UInt8) (es s : Nat) (toks : List UInt8) : Bool × Nat :=
  let s := skipSpace mem es s
  (mem s ≠ 0 ∧ mem s ∈ toks, s)

/-- `struct cmd`. The pairs of an `execcmd` are `argv[i]` and `eargv[i]`, up to the null pointer. -/
inductive Cmd
  | exec (argv : List (Nat × Nat))
  | redir (cmd : Cmd) (file efile mode fd : Nat)
  | pipe (left right : Cmd)
  | list (left right : Cmd)
  | back (cmd : Cmd)

/-- `cmd->argv[argc] = q; cmd->eargv[argc] = eq`, where `ret` is what redirections have made of `cmd` so far. -/
def Cmd.addArg (q eq : Nat) : Cmd → Cmd
  | exec argv => exec (argv ++ [(q, eq)])
  | redir cmd file efile mode fd => redir (cmd.addArg q eq) file efile mode fd
  | cmd => cmd

inductive Fail
  /-- `panic(msg)` of the shell: the message, and exit. -/
  | panic (msg : String)
  /-- The fuel is used up. -/
  | stuck
  deriving DecidableEq, Repr

section
variable (mem : Nat → UInt8) (es : Nat)

def parseredirs : Nat → Cmd → Nat → Except Fail (Cmd × Nat)
  | 0, _, _ => .error .stuck
  | fuel + 1, cmd, s =>
    let (more, s) := peek mem es s ['<'.toUInt8, '>'.toUInt8]
    if more then
      let (tok, _, _, s) := gettoken mem es s
      let (tok', q, eq, s) := gettoken mem es s
      if tok' ≠ .word then .error (.panic "missing file for redirection")
      else
        let cmd :=
          match tok with
          | .op .lt => .redir cmd q eq O_RDONLY 0
          | .op .gt => .redir cmd q eq (O_WRONLY ||| O_CREATE) 1
          | .op .gtgt => .redir cmd q eq (O_WRONLY ||| O_CREATE) 1
          | _ => cmd
        parseredirs fuel cmd s
    else .ok (cmd, s)

def parseargs : Nat → Nat → Cmd → Nat → Except Fail (Cmd × Nat)
  | 0, _, _, _ => .error .stuck
  | fuel + 1, argc, ret, s =>
    let (stop, s) := peek mem es s ['|'.toUInt8, ')'.toUInt8, '&'.toUInt8, ';'.toUInt8]
    if stop then .ok (ret, s)
    else
      let (tok, q, eq, s) := gettoken mem es s
      if tok = .eof then .ok (ret, s)
      else if tok ≠ .word then .error (.panic "syntax")
      else
        let ret := ret.addArg q eq
        let argc := argc + 1
        if argc ≥ MAXARGS then .error (.panic "too many args")
        else do
          let (ret, s) ← parseredirs mem es fuel ret s
          parseargs fuel argc ret s

def parsebacks : Nat → Cmd → Nat → Except Fail (Cmd × Nat)
  | 0, _, _ => .error .stuck
  | fuel + 1, cmd, s =>
    let (more, s) := peek mem es s ['&'.toUInt8]
    if more then
      let (_, _, _, s) := gettoken mem es s
      parsebacks fuel (.back cmd) s
    else .ok (cmd, s)

mutual

def parseline : Nat → Nat → Except Fail (Cmd × Nat)
  | 0, _ => .error .stuck
  | fuel + 1, s => do
    let (cmd, s) ← parsepipe fuel s
    let (cmd, s) ← parsebacks mem es fuel cmd s
    let (more, s) := peek mem es s [';'.toUInt8]
    if more then
      let (_, _, _, s) := gettoken mem es s
      let (right, s) ← parseline fuel s
      .ok (.list cmd right, s)
    else .ok (cmd, s)

def parsepipe : Nat → Nat → Except Fail (Cmd × Nat)
  | 0, _ => .error .stuck
  | fuel + 1, s => do
    let (cmd, s) ← parseexec fuel s
    let (more, s) := peek mem es s ['|'.toUInt8]
    if more then
      let (_, _, _, s) := gettoken mem es s
      let (right, s) ← parsepipe fuel s
      .ok (.pipe cmd right, s)
    else .ok (cmd, s)

def parseexec : Nat → Nat → Except Fail (Cmd × Nat)
  | 0, _ => .error .stuck
  | fuel + 1, s => do
    let (block, s) := peek mem es s ['('.toUInt8]
    if block then parseblock fuel s
    else
      let (ret, s) ← parseredirs mem es fuel (.exec []) s
      parseargs mem es fuel 0 ret s

def parseblock : Nat → Nat → Except Fail (Cmd × Nat)
  | 0, _ => .error .stuck
  | fuel + 1, s => do
    let (block, s) := peek mem es s ['('.toUInt8]
    if ¬block then .error (.panic "parseblock")
    else
      let (_, _, _, s) := gettoken mem es s
      let (cmd, s) ← parseline fuel s
      let (close, s) := peek mem es s [')'.toUInt8]
      if ¬close then .error (.panic "syntax - missing )")
      else
        let (_, _, _, s) := gettoken mem es s
        parseredirs mem es fuel cmd s

end

end

def nulterminate (mem : Nat → UInt8) : Cmd → Nat → UInt8
  | .exec argv => (argv.takeWhile (·.1 ≠ 0)).foldl (fun mem a => Function.update mem a.2 0) mem
  | .redir cmd _ efile _ _ => Function.update (nulterminate mem cmd) efile 0
  | .pipe left right => nulterminate (nulterminate mem left) right
  | .list left right => nulterminate (nulterminate mem left) right
  | .back cmd => nulterminate mem cmd

def strlen (mem : Nat → UInt8) (s : Nat) : Nat := (Cstr.read mem (2 ^ 32) s).length

/-- The command, and the memory with its strings terminated. Every call consumes a token or goes down one level of
    the grammar, so the fuel is enough. -/
def parsecmd (mem : Nat → UInt8) (s : Nat) : Except Fail (Cmd × (Nat → UInt8)) := do
  let es := s + strlen mem s
  let (cmd, s) ← parseline mem es (4 * (es - s) + 4) s
  let (_, s) := peek mem es s []
  if s ≠ es then .error (.panic "syntax")
  else .ok (cmd, nulterminate mem cmd)

end Xv6.Sh
