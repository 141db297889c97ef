import Xv6.Param
import Xv6.User.Sh

/-! `runcmd` of the shell (sh.c): the processes that it makes of a command, and their descriptors. The calls of one
    process are run in their order; each may fail. -/

namespace Xv6.Sh
open Function

/-- A node of a command: the sides that are taken to it from the root, `true` for the right one. -/
abbrev Place := List Bool

inductive Target
  /-- Something that the shell was started with. -/
  | inherited (n : Nat)
  /-- The file of a redirection. -/
  | file (name mode : Nat)
  /-- An end of the pipe that is made at the node. -/
  | pipe (node : Place) (writable : Bool)
  deriving DecidableEq

abbrev Fds := Fin NOFILE → Option Target

namespace Fds

/-- `close`, whose result the shell does not look at. -/
def close (t : Fds) (fd : Nat) : Fds := if h : fd < NOFILE then update t ⟨fd, h⟩ none else t

def alloc (t : Fds) (x : Target) : Option (Fin NOFILE × Fds) :=
  ((List.finRange NOFILE).find? fun fd => t fd = none).map fun fd => (fd, update t fd (some x))

/-- `dup`, whose result the shell does not look at. -/
def dup (t : Fds) (fd : Fin NOFILE) : Fds := (((t fd).bind t.alloc).map (·.2)).getD t

/-- The descriptors `p[0]` and `p[1]` of a new pipe. -/
def pipe (t : Fds) (node : Place) : Option (Fin NOFILE × Fin NOFILE × Fds) :=
  (t.alloc (.pipe node false)).bind fun r => (r.2.alloc (.pipe node true)).map fun w => (r.1, w.1, w.2)

end Fds

/-- Which calls the kernel can serve: `open`, `pipe`, `exec`, and the first and the second `fork` at a node. -/
structure Served where
  opens : Place → Bool
  pipes : Place → Bool
  execs : Place → Bool
  forks : Place → Bool → Bool

/-- A process: the node that it is at, the program that it has become, if it does not wait for its children, and its
    descriptors. -/
structure Member where
  node : Place
  argv : Option (List (Nat × Nat))
  fds : Fds

/-- The processes that `exec` a program or `wait`. One that fails in a call prints a message and exits. -/
def runcmd (ok : Served) : Cmd → Place → Fds → List Member
  | .exec argv, k, t => if argv = [] then [] else if ok.execs k then [⟨k, some argv, t⟩] else []
  | .redir cmd file _ mode fd, k, t =>
    match (t.close fd).alloc (.file file mode) with
    | some (_, t) => if ok.opens k then runcmd ok cmd (k ++ [false]) t else []
    | none => []
  | .list left right, k, t =>
    if ok.forks k false then runcmd ok left (k ++ [false]) t ++ ⟨k, none, t⟩ :: runcmd ok right (k ++ [true]) t else []
  | .pipe left right, k, t =>
    match t.pipe k with
    | some (p0, p1, t) =>
      if ok.pipes k ∧ ok.forks k false then
        runcmd ok left (k ++ [false]) ((((t.close 1).dup p1).close p0).close p1) ++
          if ok.forks k true then
            runcmd ok right (k ++ [true]) ((((t.close 0).dup p0).close p0).close p1) ++
            [⟨k, none, (t.close p0).close p1⟩]
          else []
      else []
    | none => []
  | .back cmd, k, t => if ok.forks k false then runcmd ok cmd (k ++ [false]) t else []

end Xv6.Sh
