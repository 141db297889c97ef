import Xv6.Lib.Bytes
import Xv6.Vm

/-! The arguments of a system call (syscall.c, sys_exec of sysfile.c), fetched from the memory of the process that makes
    it. -/

namespace Xv6

/-- What a function that fetches from the memory of the process returns, `none` for -1, and the addresses it reads. -/
structure Fetch (α : Type) where
  result : Option α
  reads : List Nat

/-- One fetch after the other, unless the first one fails. -/
def Fetch.bind {α β : Type} (x : Fetch α) (f : α → Fetch β) : Fetch β :=
  match x.result with
  | none => ⟨none, x.reads⟩
  | some a => ⟨(f a).result, x.reads ++ (f a).reads⟩

instance : Monad Fetch where
  pure a := ⟨some a, []⟩
  bind := Fetch.bind

/-- The process in a system call: its memory as the kernel sees it through the process's page table, `sz`, and
    the user stack pointer of its trap frame. -/
structure Caller where
  mem : Nat → UInt8
  sz : Nat
  esp : Nat
  sz_lt : sz < KERNBASE

namespace Caller

/-- The pages below `sz` are mapped and nothing above them is: the kernel traps on reading there. -/
def load (c : Caller) (a : Nat) : Option UInt8 := if a < PGROUNDUP c.sz then some (c.mem a) else none

def fetchint (c : Caller) (addr : Nat) : Option Nat :=
  if addr ≥ c.sz ∨ (addr + 4) % 2 ^ 32 > c.sz then none else some (Bytes.load c.mem addr)

def argint (c : Caller) (n : Nat) : Option Nat := c.fetchint ((c.esp + 4 + 4 * n) % 2 ^ 32)

def argptr (c : Caller) (n : Nat) (size : Int) : Option Nat := do
  let i ← c.argint n
  if size < 0 ∨ i ≥ c.sz ∨ (i + size.toNat) % 2 ^ 32 > c.sz then none else some i

def fetchWord (c : Caller) (addr : Nat) : Fetch Nat :=
  ⟨c.fetchint addr, if (c.fetchint addr).isSome then (List.range 4).map (addr + ·) else []⟩

def argWord (c : Caller) (n : Nat) : Fetch Nat := c.fetchWord ((c.esp + 4 + 4 * n) % 2 ^ 32)

/-- The loop of `fetchstr` from `s` on, for at most so many turns: where the NUL is. -/
def strFrom (c : Caller) : Nat → Nat → Fetch Nat
  | 0, _ => ⟨none, []⟩
  | f + 1, s =>
    if s < c.sz then
      if c.mem s = 0 then ⟨some s, [s]⟩ else ⟨(c.strFrom f (s + 1)).result, s :: (c.strFrom f (s + 1)).reads⟩
    else ⟨none, []⟩

/-- The pointer that is set, and the length. -/
def fetchstr (c : Caller) (addr : Nat) : Fetch (Nat × Nat) :=
  if addr ≥ c.sz then ⟨none, []⟩
  else do
    let s ← c.strFrom c.sz addr
    pure (addr, s - addr)

def argstr (c : Caller) (n : Nat) : Fetch (Nat × Nat) := do
  let addr ← c.argWord n
  c.fetchstr addr

/-- The loop of `sys_exec` from the `i`-th argument on, with the pointers in `argv` before it: `none` if it takes more
    than so many turns. -/
def argvFrom (c : Caller) (uargv : Nat) : Nat → Nat → List Nat → Option (Fetch (List Nat))
  | 0, _, _ => none
  | f + 1, i, argv =>
    if i ≥ MAXARG then some ⟨none, []⟩
    else
      let w := c.fetchWord ((uargv + 4 * i) % 2 ^ 32)
      match w.result with
      | none => some ⟨none, w.reads⟩
      | some 0 => some ⟨some argv, w.reads⟩
      | some uarg =>
        let s := c.fetchstr uarg
        match s.result with
        | none => some ⟨none, w.reads ++ s.reads⟩
        | some (p, _) =>
          (c.argvFrom uargv f (i + 1) (argv ++ [p])).map fun r => ⟨r.result, w.reads ++ s.reads ++ r.reads⟩

/-- The arguments `path` and `argv` that `sys_exec` calls `exec` with: `none` if its loop takes more than so many
    turns. -/
def sysExec (c : Caller) (turns : Nat) : Option (Fetch (Nat × List Nat)) :=
  let args : Fetch (Nat × Nat) := do
    let (path, _) ← c.argstr 0
    let uargv ← c.argWord 1
    pure (path, uargv)
  match args.result with
  | none => some ⟨none, args.reads⟩
  | some (path, uargv) =>
    (c.argvFrom uargv turns 0 []).map fun r => ⟨r.result.map (path, ·), args.reads ++ r.reads⟩

end Caller
end Xv6
