import Xv6.File
import Xv6.Vm

/-! `exec` (exec.c), and the memory that processes and pipes hold (proc.c, pipe.c, main.c), with every call run to its
    end. The file that `exec` reads is given by its bytes. -/

namespace Xv6

def ELF_MAGIC : Nat := 0x464C457F
def ELF_PROG_LOAD : Nat := 1

structure ElfHdr where
  magic : Nat
  phoff : Nat
  phnum : Nat

def ElfHdr.size : Nat := 52

def ElfHdr.ofBytes (b : List UInt8) : ElfHdr :=
  let byte := fun i => b.getD i 0
  ⟨Bytes.word byte 0, Bytes.word byte 7, Bytes.half byte 44⟩

structure ProgHdr where
  type : Nat
  off : Nat
  vaddr : Nat
  filesz : Nat
  memsz : Nat

def ProgHdr.size : Nat := 32

def ProgHdr.ofBytes (b : List UInt8) : ProgHdr :=
  let byte := fun i => b.getD i 0
  ⟨Bytes.word byte 0, Bytes.word byte 1, Bytes.word byte 2, Bytes.word byte 4, Bytes.word byte 5⟩

/-- The bytes that `readi` copies, of a file whose size is below `2 ^ 32`. -/
def fileRead (file : List UInt8) (off n : Nat) : List UInt8 := (file.drop off).take n

def Kmem.write (k : Kmem) (pg : Page) (off : Nat) (src : List UInt8) : Kmem :=
  { k with mem := Function.update k.mem pg (Bytes.splice (k.mem pg) off src) }

/-- The loop of `loaduvm` from `i` on, for at most so many turns. An entry without `PTE_P` is 0, and so is the page
    it names. -/
def loadFrom (d : Pgdir) (addr : Nat) (file : List UInt8) (offset sz : Nat) : Nat → Kmem → Nat →
    Except Stop (Bool × Kmem)
  | 0, k, _ => .ok (true, k)
  | f + 1, k, i =>
    if i < sz then
      let va := (addr + i) % 2 ^ 32
      if (d.pde (PDX va)).isNone then .error (.panic "loaduvm: address should exist")
      else
        let n := if sz - i < PGSIZE then sz - i else PGSIZE
        let bytes := fileRead file ((offset + i) % 2 ^ 32) n
        let k := k.write ((d.lookup va).elim 0 Pte.page) 0 bytes
        if bytes.length = n then loadFrom d addr file offset sz f k (i + PGSIZE) else .ok (false, k)
    else .ok (true, k)

def loaduvm (k : Kmem) (d : Pgdir) (addr : Nat) (file : List UInt8) (offset sz : Nat) : Except Stop (Bool × Kmem) :=
  if addr % PGSIZE = 0 then loadFrom d addr file offset sz (sz / PGSIZE + 1) k 0
  else .error (.panic "loaduvm: addr must be page aligned")

def clearpteu (d : Pgdir) (uva : Nat) : Except Stop Pgdir :=
  match d.pde (PDX uva) with
  | none => .error (.panic "clearpteu")
  | some _ =>
    match d.lookup uva with
    | none => .ok d
    | some e => .ok (d.setPte uva (some { e with flags := e.flags - (e.flags &&& PTE_U) }))

/-! ### An entry read through the null pointer

`uva2ka` does not check that there is a page table for the address. Where there is none it reads the entry at address 0,
which is the first word of the calling process. What is then written to the page that this word names is followed if the
page is a page table of the caller; at any other page the model stops. -/

structure NullWrite where
  page : Page
  off : Nat
  bytes : List UInt8

/-- What came of each read through the null pointer: a refusal, or a write. -/
abbrev NullReads := List (Option NullWrite)

def Pte.word (e : Pte) : Nat := e.page * PGSIZE + e.flags + 1

def Pte.ofWord (w : Nat) : Option Pte := if w % 2 = 0 then none else some ⟨w / PGSIZE, w % PGSIZE - 1⟩

def Pgtab.overwrite (t : Pgtab) (w : NullWrite) : Pgtab :=
  { t with pte := fun j =>
      if 4 * j.val + 4 ≤ w.off ∨ w.off + w.bytes.length ≤ 4 * j.val then t.pte j
      else
        let old := Bytes.store (fun _ => 0) (4 * j.val) ((t.pte j).elim 0 Pte.word)
        Pte.ofWord (Bytes.load (Bytes.splice old w.off w.bytes) (4 * j.val)) }

def Pgdir.overwrite (d : Pgdir) (w : NullWrite) : Pgdir :=
  { d with pde := fun i => (d.pde i).map fun t => if t.page = w.page then t.overwrite w else t }

def Pgdir.overwritten (d : Pgdir) (log : NullReads) : Pgdir := log.foldl (fun d w => w.elim d d.overwrite) d

def Pgdir.hasTable (d : Pgdir) (pg : Page) : Bool :=
  (List.finRange NPDENTRIES).any fun i => (d.pde i).any (·.page = pg)

/-- The entry at address 0 of the process whose directory is `cur`. -/
def nullPte (cur : Pgdir) (k : Kmem) : Except Stop (Option Pte) :=
  match cur.lookup 0 with
  | none => .error .fault
  | some e => .ok (Pte.ofWord (Bytes.word (k.mem e.page) 0))

def uva2ka (cur : Pgdir) (k : Kmem) (d : Pgdir) (uva : Nat) : Except Stop (Option Page) := do
  let null := (d.pde (PDX uva)).isNone
  match ← if null then nullPte cur k else .ok (d.lookup uva) with
  | none => .ok none
  | some e =>
    if e.flags &&& PTE_U = 0 then .ok none
    else if null ∧ ¬cur.hasTable e.page then .error .fault
    else .ok (some e.page)

/-- The loop of `copyout`, called by the process whose directory is `cur`, for at most so many turns. -/
def copyoutFrom (cur d : Pgdir) : Nat → Kmem → NullReads → Nat → List UInt8 → Except Stop (Bool × Kmem × NullReads)
  | 0, k, log, _, _ => .ok (true, k, log)
  | f + 1, k, log, va, buf =>
    if buf.isEmpty then .ok (true, k, log)
    else do
      let va0 := PGROUNDDOWN va
      let note := fun w => if (d.pde (PDX va0)).isNone then log ++ [w] else log
      match ← uva2ka (cur.overwritten log) k d va0 with
      | none => .ok (false, k, note none)
      | some pg =>
        let n := min (PGSIZE - (va - va0)) buf.length
        copyoutFrom cur d f (k.write pg (va - va0) (buf.take n)) (note (some ⟨pg, va - va0, buf.take n⟩))
          ((va0 + PGSIZE) % 2 ^ 32) (buf.drop n)

def copyout (cur : Pgdir) (k : Kmem) (log : NullReads) (d : Pgdir) (va : Nat) (buf : List UInt8) :
    Except Stop (Bool × Kmem × NullReads) :=
  copyoutFrom cur d buf.length k log va buf

def usub (x y : Nat) : Nat := (x + 2 ^ 32 - y % 2 ^ 32) % 2 ^ 32

/-- The loop of `exec` over the program headers, of which `n` are left: `none` for `goto bad`. -/
def loadSegments (file : List UInt8) : Nat → Nat → Kmem → Pgdir → Nat → Except Stop (Option Nat × Kmem × Pgdir)
  | 0, _, k, d, sz => .ok (some sz, k, d)
  | n + 1, off, k, d, sz =>
    let bytes := fileRead file off ProgHdr.size
    let ph := ProgHdr.ofBytes bytes
    if bytes.length ≠ ProgHdr.size then .ok (none, k, d)
    else if ph.type ≠ ELF_PROG_LOAD then loadSegments file n ((off + ProgHdr.size) % 2 ^ 32) k d sz
    else if ph.memsz < ph.filesz then .ok (none, k, d)
    else if (ph.vaddr + ph.memsz) % 2 ^ 32 < ph.vaddr then .ok (none, k, d)
    else do
      let (sz, k, d) ← allocuvm k d sz ((ph.vaddr + ph.memsz) % 2 ^ 32)
      if sz = 0 then .ok (none, k, d)
      else if ph.vaddr % PGSIZE ≠ 0 then .ok (none, k, d)
      else do
        let (loaded, k) ← loaduvm k d ph.vaddr file ph.off ph.filesz
        if loaded then loadSegments file n ((off + ProgHdr.size) % 2 ^ 32) k d sz else .ok (none, k, d)

/-- The loop of `exec` over the arguments: the stack pointer and the words pushed for them. -/
def pushArgs (cur d : Pgdir) : List (List UInt8) → Nat → Kmem → NullReads → Nat → List Nat →
    Except Stop (Option (Nat × List Nat) × Kmem × NullReads)
  | [], _, k, log, sp, ustack => .ok (some (sp, ustack), k, log)
  | arg :: argv, argc, k, log, sp, ustack =>
    if MAXARG ≤ argc then .ok (none, k, log)
    else do
      let sp := usub sp (arg.length + 1) / 4 * 4
      let (copied, k, log) ← copyout cur k log d sp (arg ++ [0])
      if copied then pushArgs cur d argv (argc + 1) k log sp (ustack ++ [sp]) else .ok (none, k, log)

def wordBytes (w : Nat) : List UInt8 := (List.range 4).map fun i => UInt8.ofNat (w / 256 ^ i)

/-- The part of `exec` that fills the stack: whether all of it fits. -/
def pushStack (cur : Pgdir) (k : Kmem) (d : Pgdir) (sz : Nat) (argv : List (List UInt8)) :
    Except Stop (Bool × Kmem × NullReads) := do
  match ← pushArgs cur d argv 0 k [] sz [] with
  | (none, k, log) => .ok (false, k, log)
  | (some (sp, args), k, log) =>
    let argc := argv.length
    let ustack := [0xffffffff, argc, usub sp ((argc + 1) * 4)] ++ args ++ [0]
    copyout cur k log d (usub sp ((3 + argc + 1) * 4)) (ustack.flatMap wordBytes)

/-- The stack pointer after the loop over the arguments, from where it starts. -/
def argsSp (argv : List (List UInt8)) (sp : Nat) : Nat := argv.foldl (fun sp arg => usub sp (arg.length + 1) / 4 * 4) sp

/-- What `exec` puts into `tf->esp`: the stack pointer after the arguments and the words for `main`. -/
def execEsp (sz : Nat) (argv : List (List UInt8)) : Nat := usub (argsSp argv sz) ((3 + argv.length + 1) * 4)

/-- The part of `exec` that makes the user stack and fills it: the new size, `none` for `goto bad`. -/
def makeStack (cur : Pgdir) (k : Kmem) (d : Pgdir) (sz : Nat) (argv : List (List UInt8)) :
    Except Stop (Option Nat × Kmem × Pgdir × NullReads) := do
  let sz := PGROUNDUP sz
  let (sz, k, d) ← allocuvm k d sz ((sz + 2 * PGSIZE) % 2 ^ 32)
  if sz = 0 then .ok (none, k, d, [])
  else do
    let d ← clearpteu d (usub sz (2 * PGSIZE))
    let (pushed, k, log) ← pushStack cur k d sz argv
    .ok (if pushed then some sz else none, k, d, log)

/-- The new image of `exec`: `none` for `goto bad`. -/
def makeImage (cur : Pgdir) (k : Kmem) (d : Pgdir) (file : List UInt8) (elf : ElfHdr) (argv : List (List UInt8)) :
    Except Stop (Option Nat × Kmem × Pgdir × NullReads) := do
  match ← loadSegments file elf.phnum elf.phoff k d 0 with
  | (none, k, d) => .ok (none, k, d, [])
  | (some sz, k, d) => makeStack cur k d sz argv

/-- `exec` of a path that names no file, or a file with the given bytes. -/
def exec (kmap : List Kmap) (k : Kmem) (u : Uvm) (file : Option (List UInt8)) (argv : List (List UInt8)) :
    Except Stop (Int × Kmem × Uvm × NullReads) :=
  match file with
  | none => .ok (-1, k, u, [])
  | some file =>
    let bytes := fileRead file 0 ElfHdr.size
    let elf := ElfHdr.ofBytes bytes
    if bytes.length ≠ ElfHdr.size ∨ elf.magic ≠ ELF_MAGIC then .ok (-1, k, u, [])
    else do
      match ← setupkvm kmap k with
      | (none, k) => .ok (-1, k, u, [])
      | (some d, k) =>
        match ← makeImage u.pgdir k d file elf argv with
        | (none, k, d, log) => .ok (-1, freevm k d, ⟨u.pgdir.overwritten log, u.sz⟩, log)
        | (some sz, k, d, log) => .ok (0, freevm k (u.pgdir.overwritten log), ⟨d, sz⟩, log)

/-- The part of `exec` up to the end of the loop over the program headers: the new directory and its size, `none` for
    `goto bad`. Nothing of the calling process is read or written here. -/
def execLoad (kmap : List Kmap) (k : Kmem) (file : List UInt8) : Except Stop (Option (Nat × Pgdir) × Kmem) :=
  let bytes := fileRead file 0 ElfHdr.size
  let elf := ElfHdr.ofBytes bytes
  if bytes.length ≠ ElfHdr.size ∨ elf.magic ≠ ELF_MAGIC then .ok (none, k)
  else do
    match ← setupkvm kmap k with
    | (none, k) => .ok (none, k)
    | (some d, k) =>
      match ← loadSegments file elf.phnum elf.phoff k d 0 with
      | (none, k, d) => .ok (none, freevm k d)
      | (some sz, k, d) => .ok (some (sz, d), k)

/-! ### The memory of processes and pipes -/

structure VmProc where
  life : Life := .unused
  uvm : Option Uvm := none
  kstack : Option Page := none

structure Memory (P : Type) where
  kmem : Kmem
  kpgdir : Pgdir
  /-- The stacks of the CPUs that `startothers` has started. -/
  cpu : List Page
  proc : P → VmProc
  /-- The buffers of the pipes that have an end open. -/
  pipe : List Page

inductive MemCall (P : Type)
  /-- `fork` by the first process, which finds the second slot unused. -/
  | fork (p np : P)
  | exec (p : P) (file : Option (List UInt8)) (argv : List (List UInt8))
  | sbrk (p : P) (n : Int)
  /-- `pipe`, and whether two file structures and two descriptors are left for it. -/
  | pipe (files fds : Bool)
  /-- The last end of a pipe is closed. -/
  | pipeclose (i : Nat)
  | exit (p : P)
  /-- `wait` finds the zombie `p`. -/
  | wait (p : P)

namespace Memory

variable {P : Type} [DecidableEq P]

def setProc (s : Memory P) (k : Kmem) (p : P) (x : VmProc) : Memory P :=
  { s with kmem := k, proc := Function.update s.proc p x }

def running (s : Memory P) (p : P) : Except Stop Uvm :=
  match (s.proc p).life, (s.proc p).uvm with
  | .live, some u => .ok u
  | _, _ => .error .blocked

def fork (kmap : List Kmap) (s : Memory P) (p np : P) : Except Stop (Memory P) := do
  let u ← s.running p
  if (s.proc np).life ≠ .unused then .error .blocked
  else
    match s.kmem.kalloc with
    | (none, k) => .ok (s.setProc k np { s.proc np with kstack := none })
    | (some stack, k) =>
      match ← copyuvm kmap k u.pgdir u.sz with
      | (none, k) => .ok (s.setProc (k.kfree stack) np ⟨.unused, none, none⟩)
      | (some d, k) => .ok (s.setProc k np ⟨.live, some ⟨d, u.sz⟩, some stack⟩)

def sysExec (kmap : List Kmap) (s : Memory P) (p : P) (file : Option (List UInt8)) (argv : List (List UInt8)) :
    Except Stop (Memory P) := do
  let u ← s.running p
  let (_, k, u, _) ← exec kmap s.kmem u file argv
  .ok (s.setProc k p { s.proc p with uvm := some u })

def sbrk (s : Memory P) (p : P) (n : Int) : Except Stop (Memory P) := do
  let u ← s.running p
  let (_, k, u) ← sysSbrk s.kmem u n
  .ok (s.setProc k p { s.proc p with uvm := some u })

/-- `pipealloc` takes the page last. When `sys_pipe` finds no descriptors it closes both ends again. -/
def sysPipe (s : Memory P) (files fds : Bool) : Memory P :=
  if files then
    match s.kmem.kalloc with
    | (none, k) => { s with kmem := k }
    | (some pg, k) => if fds then { s with kmem := k, pipe := pg :: s.pipe } else { s with kmem := k.kfree pg }
  else s

def pipeclose (s : Memory P) (i : Nat) : Except Stop (Memory P) :=
  match s.pipe[i]? with
  | none => .error .blocked
  | some pg => .ok { s with kmem := s.kmem.kfree pg, pipe := s.pipe.eraseIdx i }

def exit (s : Memory P) (p : P) : Except Stop (Memory P) := do
  let _ ← s.running p
  .ok (s.setProc s.kmem p { s.proc p with life := .zombie })

/-- The slot keeps the pointer to the directory that is given back. -/
def wait (s : Memory P) (p : P) : Except Stop (Memory P) :=
  match s.proc p with
  | ⟨.zombie, some u, some stack⟩ => .ok (s.setProc (freevm (s.kmem.kfree stack) u.pgdir) p ⟨.unused, some u, none⟩)
  | _ => .error .blocked

def call (kmap : List Kmap) (s : Memory P) : MemCall P → Except Stop (Memory P)
  | .fork p np => s.fork kmap p np
  | .exec p file argv => s.sysExec kmap p file argv
  | .sbrk p n => s.sbrk p n
  | .pipe files fds => .ok (s.sysPipe files fds)
  | .pipeclose i => s.pipeclose i
  | .exit p => s.exit p
  | .wait p => s.wait p

/-! ### Boot (main.c, proc.c) -/

/-- The stacks of so many CPUs. The kernel does not check that it gets them. -/
def startothers : Nat → Kmem → Except Stop (List Page × Kmem)
  | 0, k => .ok ([], k)
  | n + 1, k =>
    match k.kalloc with
    | (none, _) => .error .fault
    | (some stack, k) => do
      let (others, k) ← startothers n k
      .ok (stack :: others, k)

/-- `userinit` with `inituvm`, which does not check that it gets a page and a page table. -/
def userinit (kmap : List Kmap) (k : Kmem) (init : List UInt8) : Except Stop (VmProc × Kmem) :=
  match k.kalloc with
  | (none, _) => .error .fault
  | (some stack, k) => do
    match ← setupkvm kmap k with
    | (none, _) => .error (.panic "userinit: out of memory?")
    | (some d, k) =>
      if PGSIZE ≤ init.length then .error (.panic "inituvm: more than a page")
      else
        match k.kalloc with
        | (none, _) => .error .fault
        | (some mem, k) =>
          match ← mappages (k.memset mem 0) d 0 PGSIZE mem (PTE_W ||| PTE_U) with
          | (false, _) => .error .fault
          | (true, k, d) => .ok (⟨.live, some ⟨d, PGSIZE⟩, some stack⟩, k.write mem 0 init)

/-- `main`: the page ranges that `kinit1` and `kinit2` give to the allocator, how many CPUs are started, the slot of
    the first process and its code. A boot that runs out of memory does not get this far. -/
def boot (kmap : List Kmap) (low high : List Page) (k : Kmem) (ncpu : Nat) (p : P) (init : List UInt8) :
    Except Stop (Memory P) := do
  match ← setupkvm kmap ({ k with freelist := [] }.freerange low) with
  | (none, _) => .error .fault
  | (some kpgdir, k) =>
    let (cpu, k) ← startothers ncpu k
    let (x, k) ← userinit kmap (k.freerange high) init
    .ok ⟨k, kpgdir, cpu, Function.update (fun _ => {}) p x, []⟩

def machine (P : Type) [DecidableEq P] (kmap : List Kmap) (low high : List Page) : Machine (Memory P) (MemCall P) where
  init s := ∃ k ncpu p init, boot kmap low high k ncpu p init = .ok s
  step s c t := s.call kmap c = .ok t

end Memory

end Xv6
