import Mathlib.Algebra.GroupWithZero.Nat
import Mathlib.Logic.Function.Basic

/-! The two functions called `memmove`, of the kernel (string.c) and of the user programs (ulib.c), on the bytes of a
    32-bit address space. -/

namespace Xv6

abbrev Addr := BitVec 32

/-- `while(n-- > 0) *d++ = *s++;` -/
def copyUp : Nat → (Addr → UInt8) → Addr → Addr → Addr → UInt8
  | 0, m, _, _ => m
  | n + 1, m, d, s => copyUp n (Function.update m d (m s)) (d + 1) (s + 1)

/-- `while(n-- > 0) *--d = *--s;` -/
def copyDown : Nat → (Addr → UInt8) → Addr → Addr → Addr → UInt8
  | 0, m, _, _ => m
  | n + 1, m, d, s => copyDown n (Function.update m (d - 1) (m (s - 1))) (d - 1) (s - 1)

/-- The kernel's; `n` is a `uint`. -/
def memmove (m : Addr → UInt8) (dst src : Addr) (n : BitVec 32) : Addr → UInt8 :=
  if src < dst ∧ src + n > dst then copyDown n.toNat m (dst + n) (src + n) else copyUp n.toNat m dst src

/-- The user library's; `n` is an `int`. -/
def Ulib.memmove (m : Addr → UInt8) (dst src : Addr) (n : Int) : Addr → UInt8 := copyUp n.toNat m dst src

end Xv6
