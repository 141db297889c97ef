import Mathlib.Algebra.GroupWithZero.Nat

/-! The constants of param.h, and how a kernel function can fail to return. -/

namespace Xv6

def NPROC : Nat := 64
def NCPU : Nat := 8
def NOFILE : Nat := 16
def NFILE : Nat := 100
def NINODE : Nat := 50
def MAXARG : Nat := 32
/-- Maximum number of blocks any file-system operation writes. -/
def MAXOPBLOCKS : Nat := 10
/-- Maximum number of data blocks in the on-disk log. -/
def LOGSIZE : Nat := MAXOPBLOCKS * 3
def NBUF : Nat := MAXOPBLOCKS * 3
def FSSIZE : Nat := 1000

inductive Stop
  | panic (msg : String)
  /-- The caller has to wait, for a lock or in `sleep`. -/
  | blocked
  /-- A null pointer is dereferenced. -/
  | fault
  deriving DecidableEq, Repr

instance : NeZero NPROC := ⟨by decide⟩
instance : NeZero NCPU := ⟨by decide⟩
instance : NeZero NOFILE := ⟨by decide⟩
instance neZeroTwo : NeZero 2 := ⟨by decide⟩

theorem NOFILE_pos : 0 < NOFILE := by decide
theorem NBUF_pos : 0 < NBUF := by decide
theorem one_lt_NBUF : 1 < NBUF := by decide
theorem two_lt_NBUF : 2 < NBUF := by decide

end Xv6
