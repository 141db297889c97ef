import Xv6.Lib.Cstr

/-! grep.c. Patterns and texts are strings without their NUL; the buffer is memory. -/

namespace Xv6.Grep
open Cstr

/-- The loop of `matchstar`, with what `matchhere` says about the rest of the expression. -/
def starLoop (here : List UInt8 → Bool) (c : UInt8) : List UInt8 → Bool
  | [] => here []
  | t :: text => here (t :: text) || ((t == c || c == '.'.toUInt8) && starLoop here c text)

def matchhere : List UInt8 → List UInt8 → Bool
  | [], _ => true
  | [c], text =>
    if c = '$'.toUInt8 then text.isEmpty
    else
      match text with
      | [] => false
      | t :: _ => c == '.'.toUInt8 || c == t
  | c :: d :: re, text =>
    if d = '*'.toUInt8 then starLoop (matchhere re) c text
    else
      match text with
      | [] => false
      | t :: text => (c == '.'.toUInt8 || c == t) && matchhere (d :: re) text

def matchstar (c : UInt8) (re text : List UInt8) : Bool := starLoop (matchhere re) c text

def matchLoop (re : List UInt8) : List UInt8 → Bool
  | [] => matchhere re []
  | t :: text => matchhere re (t :: text) || matchLoop re text

def matchText : List UInt8 → List UInt8 → Bool
  | [], text => matchLoop [] text
  | c :: re, text => if c = '^'.toUInt8 then matchhere re text else matchLoop (c :: re) text

def bufSize : Nat := 1024

/-- The buffer, the number of bytes kept in it, and what has been written to the standard output. -/
structure State where
  buf : Nat → UInt8 := fun _ => 0
  m : Nat := 0
  out : List UInt8 := []

def printLines (pattern : List UInt8) : Nat → (Nat → UInt8) → Nat → List UInt8 → (Nat → UInt8) × Nat × List UInt8
  | 0, buf, p, out => (buf, p, out)
  | f + 1, buf, p, out =>
    match strchr buf '\n'.toUInt8 bufSize p with
    | none => (buf, p, out)
    | some q =>
      let buf := Function.update buf q 0
      if matchText pattern (Cstr.read buf bufSize p) then
        let buf := Function.update buf q '\n'.toUInt8
        printLines pattern f buf (q + 1) (out ++ Bytes.slice buf p (q + 1 - p))
      else printLines pattern f buf (q + 1) out

def memmove (buf : Nat → UInt8) (dst src n : Nat) : Nat → UInt8 := Bytes.splice buf dst (Bytes.slice buf src n)

def State.asked (g : State) : Nat := bufSize - g.m - 1

/-- The body of the loop, after a `read` that returned `c`. -/
def turn (pattern : List UInt8) (g : State) (c : List UInt8) : State :=
  let m := g.m + c.length
  let buf := Function.update (Bytes.splice g.buf g.m c) m 0
  let (buf, p, out) := printLines pattern bufSize buf 0 g.out
  let m := if p = 0 then 0 else m
  if 0 < m then ⟨memmove buf 0 p (m - p), m - p, out⟩ else ⟨buf, m, out⟩

/-- What `grep` writes when `read` returns `reads` one after the other, and then 0. -/
def grep (pattern : List UInt8) (reads : List (List UInt8)) : List UInt8 :=
  (reads.foldl (turn pattern) {}).out

end Xv6.Grep
