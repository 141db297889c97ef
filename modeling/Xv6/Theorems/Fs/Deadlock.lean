import Xv6.Theorems.Fs.Ownership
import Xv6.Lib.WaitFor

/-! Deadlock over the inode locks: how system calls that run concurrently wait for one another. -/

namespace Xv6.Fs

variable {P : Type} [DecidableEq P] {sb : Superblock} {p q : P}

abbrev Calls (P : Type) := Pool P (Fs P) Halt Int

def pool (P : Type) [DecidableEq P] (sb : Superblock) : Machine (Calls P) (Pool.Label P (Call P)) :=
  Pool.machine (syscall sb) live (Booted sb)

def waits (w : Calls P) (p : P) : Option (Fin NINODE) :=
  match w.stuck p with
  | some (.wait _ i) => some i
  | _ => none

def WaitsFor (w : Calls P) : P → P → Prop := WaitFor (waits w) fun i => (w.state.icache i).lock

/-- The step does not leave a directory open for writing. -/
def KeepsDirs (sb : Superblock) (w : Calls P) (l : Pool.Label P (Call P)) : Prop :=
  ∀ w', w.next (syscall sb) live l = some w' → w'.state.NoDirWritten

/-- A process that holds an inode lock and calls `iput` finds the lock of that inode free. -/
def PutsFree (w : Calls P) : Prop :=
  ∀ p i k, w.stuck p = some (.wait .iput i) → (w.state.icache k).lock ≠ some p

section
variable [Fintype P] {w : Calls P}

theorem syscall_keeps {m : Mode} (hm : m ≠ .alone) :
    Pool.Keeps (discipline sb m) (syscall (P := P) sb) live Idle Rest where
  rely _ q _ _ hq hg := ⟨hm, q, hq, hg⟩
  idle_stable _ := idle_stable
  ready_stable _ := at_stable framed_allOpen
  start _ _ _ h hl := rest_of_idle h hl
  code _ c := syscall_safe c

theorem pool_good (h : (pool P sb).ReachWhere (KeepsDirs sb) w) : w.Good (discipline sb .together) Idle :=
  Pool.reach_good (syscall_keeps (m := .together) nofun) (fun _ hs => ⟨hs.inv, hs.idle⟩)
    (fun _ _ _ hk hn => ⟨fun _ _ _ _ _ => nofun, fun _ => hk _ hn⟩) h

omit [Fintype P] [DecidableEq P] in
theorem waits_inv {i : Fin NINODE} (h : waits w p = some i) : ∃ site, w.stuck p = some (.wait site i) := by
  unfold waits at h
  split at h
  · rename_i site j hs
    cases h
    exact ⟨site, hs⟩
  · cases h

/-- Processes that wait for one another: in every interleaving whose steps leave no directory open for
    writing, the processes of a state in which every `iput` by the holder of a lock finds its lock free do not
    wait for one another in a cycle. -/
theorem no_deadlock (h : (pool P sb).ReachWhere (KeepsDirs sb) w) (hput : PutsFree w) (p : P) :
    ¬Relation.TransGen (WaitsFor w) p p := by
  have hg := pool_good h
  refine WaitFor.acyclic (D := fun k => w.state.typeOf k = .dir) (r := fun k => w.state.born (w.state.icache k).inum)
    (fun p i k hi hk => ?_) p
  obtain ⟨site, hs⟩ := waits_inv hi
  cases site with
  | ilock => exact (hg.stuck hs).wait nofun i rfl k hk
  | iput => exact absurd hk (hput p i k hs)

end

/-! ### Runs -/

abbrev Schedule := List (Pool.Label (Fin 2) (Call (Fin 2)))

def start : Calls (Fin 2) := ⟨boot smallDisk 0, fun _ => none⟩

/-- An interleaving of the two, computed step by step; it ends where a directory is open for writing. -/
def interleave (ls : Schedule) : Option (Calls (Fin 2)) :=
  ls.foldlM (fun w l => (w.next (syscall smallDisk) live l).filter fun w => decide w.state.NoDirWritten) start

theorem interleave_reach {ls : Schedule} {w : Calls (Fin 2)}
    (h : interleave ls = some w) : (pool (Fin 2) smallDisk).ReachWhere (KeepsDirs smallDisk) w := by
  refine Machine.ReachWhere.foldlM (fun w l w' hw => ?_)
    (.init ⟨boot_booted (by decide) (by decide) 0, fun _ => rfl⟩) h
  obtain ⟨hn, hd⟩ := Option.filter_eq_some_iff.mp hw
  refine ⟨fun w'' hw'' => ?_, hn⟩
  rw [hn] at hw''
  cases hw''
  exact of_decide_eq_true hd

/-- Process 0 is about to create "/f" and has the root directory locked, and process 1 is about to look for
    "/f". -/
def createLook : Schedule :=
  [.start 0 (.fork 1), .step 0, .step 0, .start 0 (.open [47, 102] O_CREATE)] ++ List.replicate 5 (.step 0) ++
    [.start 1 (.unlink [47, 102]), .step 1]

theorem no_deadlock_createLook : ∃ w, interleave createLook = some w ∧ WaitsFor w 1 0 ∧
    ¬Relation.TransGen (WaitsFor w) 1 1 := by
  obtain ⟨w, hw, h0, h1, hl⟩ := Option.exists_of_any (o := interleave createLook)
      (p := fun w => w.stuck 0 = none ∧ w.stuck 1 = some (.wait .ilock 0) ∧
        (w.state.icache 0).lock = some 0) (by decide +kernel)
  refine ⟨w, hw, ⟨0, by rw [waits, h1], hl⟩, no_deadlock (interleave_reach hw) (fun p i k hp => ?_) 1⟩
  match p with
  | 0 => rw [h0] at hp; cases hp
  | 1 => rw [h1] at hp; cases hp

/-- Process 0 creates "/f", and then links it to "/.". -/
def linkDot : Schedule :=
  [.start 0 (.open [47, 102] O_CREATE)] ++ List.replicate 21 (.step 0) ++ [.start 0 (.link [47, 102] [47, 46])] ++
    List.replicate 18 (.step 0)

/-- `dirlink` finds the name "." in the root directory, which is locked, and calls `iput` on the root directory:
    the process waits for a lock it holds. -/
theorem link_dot_deadlock : ∃ w, (pool (Fin 2) smallDisk).Reach w ∧ Relation.TransGen (WaitsFor w) 0 0 := by
  obtain ⟨w, hw, h⟩ := Option.exists_of_any (o := interleave linkDot)
      (p := fun w => waits w 0 = some 0 ∧ (w.state.icache 0).lock = some 0) (by decide +kernel)
  exact ⟨w, (interleave_reach hw).reach, .single ⟨0, h⟩⟩

/-- Process 0 creates "/f", up to where `create` is about to put the root directory. Process 1 unlinks "/f". -/
def createUnlink : Schedule :=
  [.start 0 (.fork 1), .step 0, .step 0, .start 0 (.open [47, 102] O_CREATE)] ++ List.replicate 15 (.step 0) ++
    [.start 1 (.unlink [47, 102])] ++ List.replicate 6 (.step 1)

/-- No special name is needed: process 0 waits for the root directory in `iput`, process 1 for the file. -/
theorem create_unlink_deadlock : ∃ w, (pool (Fin 2) smallDisk).Reach w ∧ WaitsFor w 0 1 ∧ WaitsFor w 1 0 := by
  obtain ⟨w, hw, h0, h1, h2, h3⟩ := Option.exists_of_any (o := interleave createUnlink)
      (p := fun w => waits w 0 = some 0 ∧ (w.state.icache 0).lock = some 1 ∧ waits w 1 = some 1 ∧
        (w.state.icache 1).lock = some 0) (by decide +kernel)
  exact ⟨w, (interleave_reach hw).reach, ⟨0, h0, h1⟩, ⟨1, h2, h3⟩⟩

end Xv6.Fs
