import Xv6.Lib.Machine
import Xv6.Lib.RingBuf
import Xv6.Syscall

/-! The console (console.c): what `cprintf` prints, and the input buffer between `consoleintr` and `consoleread`. -/

namespace Xv6

/-! ### Output -/

/-- The byte `consputc` is given for a character of the kernel's own strings. -/
def charByte (c : Char) : UInt8 := UInt8.ofNat c.toNat

/-- The loop of `printint`: the digits in `buf`, the lowest first. `buf` has room for `n` more. -/
def printDigits (base : Nat) : Nat → Nat → List UInt8
  | 0, _ => []
  | n + 1, x => charByte (Nat.digitChar (x % base)) :: if x / base ≠ 0 then printDigits base n (x / base) else []

/-- What `printint` prints; `xx` is the 32-bit word it is passed. -/
def printint (xx base : Nat) (sign : Bool) : List UInt8 :=
  if sign = true ∧ xx ≥ 2 ^ 31 then charByte '-' :: (printDigits base 16 (2 ^ 32 - xx)).reverse
  else (printDigits base 16 xx).reverse

/-- The loop of `%s` over the string at `s`, which is at most `n` bytes below the end of the mapped memory;
    `none` where the kernel runs into memory that is not mapped. -/
def putsFrom (c : Caller) : Nat → Nat → Option (List UInt8)
  | 0, _ => none
  | n + 1, s =>
    match c.load s with
    | none => none
    | some 0 => some []
    | some b => (b :: ·) <$> putsFrom c n (s + 1)

/-- `%s` with the pointer `s`. -/
def puts (c : Caller) (s : Nat) : Option (List UInt8) :=
  if s = 0 then some ("(null)".toList.map charByte) else putsFrom c (PGROUNDUP c.sz - s) s

/-- What `cprintf` prints for a format and the words of its arguments; `none` where the kernel traps or the format
    asks for more arguments than there are. -/
def cprintf (c : Caller) : List Char → List Nat → Option (List UInt8)
  | [], _ => some []
  | a :: fmt, argp =>
    if a ≠ '%' then (charByte a :: ·) <$> cprintf c fmt argp
    else
      match fmt, argp with
      | [], _ => some []
      | 'd' :: fmt, x :: argp => (printint x 10 true ++ ·) <$> cprintf c fmt argp
      | 'x' :: fmt, x :: argp | 'p' :: fmt, x :: argp => (printint x 16 false ++ ·) <$> cprintf c fmt argp
      | 's' :: fmt, x :: argp => do
        let text ← puts c x
        let rest ← cprintf c fmt argp
        return text ++ rest
      | 'd' :: _, [] | 'x' :: _, [] | 'p' :: _, [] | 's' :: _, [] => none
      | '%' :: fmt, argp => (charByte '%' :: ·) <$> cprintf c fmt argp
      -- Unknown sequences are printed, to draw attention.
      | b :: fmt, argp => ([charByte '%', charByte b] ++ ·) <$> cprintf c fmt argp

/-- CGA memory, and the cursor position in the ports. -/
structure Cga where
  crt : Nat → UInt16
  pos : Nat

def BACKSPACE : Nat := 0x100

namespace Cga

/-- A character, black on white. -/
def cell (c : Nat) : UInt16 := UInt16.ofNat (c % 256) ||| 0x0700

/-- `cgaputc` up to its check of the position. -/
def put (g : Cga) (c : Nat) : Cga :=
  if c = '\n'.toNat then { g with pos := g.pos + (80 - g.pos % 80) }
  else if c = BACKSPACE then { g with pos := g.pos - 1 }
  else ⟨Function.update g.crt g.pos (cell c), g.pos + 1⟩

/-- The rows move up, and what is behind the new position is cleared. -/
def scroll (g : Cga) : Cga :=
  if 24 ≤ g.pos / 80 then
    ⟨fun j => if g.pos - 80 ≤ j ∧ j < 24 * 80 then 0 else if j < 23 * 80 then g.crt (j + 80) else g.crt j, g.pos - 80⟩
  else g

def cgaputc (g : Cga) (c : Nat) : Except String Cga :=
  if 25 * 80 < (g.put c).pos then .error "pos under/overflow"
  else
    let g := (g.put c).scroll
    .ok { g with crt := Function.update g.crt g.pos (cell ' '.toNat) }

end Cga

/-! ### Input -/

def INPUT_BUF : Nat := 128

instance : NeZero INPUT_BUF := ⟨by decide⟩

def ctrl (x : Char) : UInt8 := charByte x - charByte '@'

structure Input where
  buf : Fin INPUT_BUF → UInt8 := fun _ => 0
  r : BitVec 32 := 0
  w : BitVec 32 := 0
  e : BitVec 32 := 0

/-- A call of `consoleread` that has not returned: `target` and `n`, and what it has stored at `dst`. -/
structure Reader where
  target : Nat
  n : Nat
  dst : List UInt8 := []

/-- How a section of `consoleread` under `cons.lock` ends. -/
inductive ReadEnd
  /-- In `sleep(&input.r, &cons.lock)`. -/
  | sleep (x : Reader)
  /-- The call returns `v`. -/
  | ret (v : Int) (dst : List UInt8)

/-- What such a section does. Nothing reads `taken`: the bytes it has taken out of the buffer for good. -/
structure ReadSection where
  input : Input
  taken : List UInt8
  next : ReadEnd

namespace Input

def char (s : Input) (i : BitVec 32) : UInt8 := s.buf (RingBuf.cell i)

/-- The loop of `C('U')`. It ends when `e` has come down to `w`, if not before. -/
def killLine : Nat → Input → Input
  | 0, s => s
  | n + 1, s =>
    if s.e ≠ s.w ∧ s.char (s.e - 1) ≠ charByte '\n' then killLine n { s with e := s.e - 1 } else s

/-- The body of `consoleintr`'s loop for one character, and whether it calls `wakeup(&input.r)`. -/
def consoleintr (s : Input) (c : UInt8) : Input × Bool :=
  if c = ctrl 'P' then (s, false)
  else if c = ctrl 'U' then (s.killLine (s.e - s.w).toNat, false)
  else if c = ctrl 'H' ∨ c = 0x7f then (if s.e ≠ s.w then { s with e := s.e - 1 } else s, false)
  else if c ≠ 0 ∧ (s.e - s.r).toNat < INPUT_BUF then
    let c := if c = charByte '\r' then charByte '\n' else c
    let s := { s with buf := Function.update s.buf (RingBuf.cell s.e) c, e := s.e + 1 }
    if c = charByte '\n' ∨ c = ctrl 'D' ∨ s.e = s.r + BitVec.ofNat 32 INPUT_BUF then ({ s with w := s.e }, true)
    else (s, false)
  else (s, false)

/-- The loop of `consoleread` from where it has `cons.lock` and `n` bytes to go. -/
def readLoop (killed : Bool) (target : Nat) : Nat → Input → List UInt8 → ReadSection
  | 0, s, dst => ⟨s, [], .ret target dst⟩
  | n + 1, s, dst =>
    if s.r = s.w then
      if killed then ⟨s, [], .ret (-1) dst⟩ else ⟨s, [], .sleep ⟨target, n + 1, dst⟩⟩
    else
      let c := s.char s.r
      let s := { s with r := s.r + 1 }
      if c = ctrl 'D' then
        -- The ^D is left for the next call if this one has bytes to return.
        if n + 1 < target then ⟨{ s with r := s.r - 1 }, [], .ret (target - (n + 1 : Nat)) dst⟩
        else ⟨s, [c], .ret (target - (n + 1 : Nat)) dst⟩
      else if c = charByte '\n' then ⟨s, [c], .ret (target - n) (dst ++ [c])⟩
      else
        let rest := readLoop killed target n s (dst ++ [c])
        { rest with taken := c :: rest.taken }

end Input

/-- The console's input and the processes that read it. Nothing reads the last three fields: the bytes taken out of the
    buffer so far, each with the process that took it, those that the process's call of now has taken, and each call
    that has returned, with its value, what it has stored and what it has taken. -/
structure Console (P : Type) where
  input : Input := {}
  reader : P → Option Reader := fun _ => none
  /-- The process is SLEEPING on `input.r`. -/
  sleeping : P → Bool := fun _ => false
  killed : P → Bool := fun _ => false
  log : List (P × UInt8) := []
  took : P → List UInt8 := fun _ => []
  returned : List (P × Int × List UInt8 × List UInt8) := []

namespace Console

inductive Label (P : Type)
  | intr (c : UInt8)
  /-- Process `p` calls `consoleread` for `n` bytes. -/
  | read (p : P) (n : Int)
  | resume (p : P)
  | kill (p : P)

variable {P : Type} [DecidableEq P]

def copied (s : Console P) : List UInt8 := s.log.map Prod.snd

/-- Process `p` runs its call of `consoleread`, up to a `sleep` or its end. -/
def goOn (s : Console P) (p : P) (x : Reader) : Console P :=
  let t := s.input.readLoop (s.killed p) x.target x.n x.dst
  let took := s.took p ++ t.taken
  let s := { s with input := t.input, log := s.log ++ t.taken.map (p, ·) }
  match t.next with
  | .sleep x =>
    { s with
      reader := Function.update s.reader p (some x), sleeping := Function.update s.sleeping p true,
      took := Function.update s.took p took }
  | .ret v dst =>
    { s with
      reader := Function.update s.reader p none, took := Function.update s.took p [],
      returned := s.returned ++ [(p, v, dst, took)] }

def next (s : Console P) : Label P → Option (Console P)
  | .intr c =>
    let (input, wakes) := s.input.consoleintr c
    some { s with input := input, sleeping := if wakes then fun _ => false else s.sleeping }
  -- For `n ≤ 0` the loop is not entered and the value is 0.
  | .read p n => if s.reader p = none then some (s.goOn p ⟨n.toNat, n.toNat, []⟩) else none
  | .resume p =>
    match s.reader p with
    | some x => if s.sleeping p = false then some (s.goOn p x) else none
    | none => none
  | .kill p =>
    some { s with killed := Function.update s.killed p true, sleeping := Function.update s.sleeping p false }

end Console
end Xv6
