import Xv6.Lib.CInt
import Xv6.Param

/-! The page allocator (kalloc.c) and page tables (vm.c). A page directory is modelled as the tree that the
    kernel reaches from it, each node with the physical page it is stored in, so a null pointer or an entry without
    `PTE_P` is `none`. Addresses are numbers below `2 ^ 32`. -/

namespace Xv6

/-! ### mmu.h and memlayout.h -/

def PGSIZE : Nat := 4096
def KERNBASE : Nat := 0x80000000
def EXTMEM : Nat := 0x100000
def PHYSTOP : Nat := 0xE000000
def DEVSPACE : Nat := 0xFE000000
def KERNLINK : Nat := KERNBASE + EXTMEM
def V2P (a : Nat) : Nat := a - KERNBASE
def NPDENTRIES : Nat := 1024
def NPTENTRIES : Nat := 1024
def PTE_W : Nat := 2
def PTE_U : Nat := 4

def PDX (va : Nat) : Fin NPDENTRIES := ⟨va / 2 ^ 22 % 1024, Nat.mod_lt _ (by decide)⟩
def PTX (va : Nat) : Fin NPTENTRIES := ⟨va / 2 ^ 12 % 1024, Nat.mod_lt _ (by decide)⟩
-- sums over the entries of a table are not to be unfolded
attribute [irreducible] NPDENTRIES NPTENTRIES

def PGADDR (d t o : Nat) : Nat := (d * 2 ^ 22 + t * 2 ^ 12 + o) % 2 ^ 32
def PGROUNDUP (sz : Nat) : Nat := (sz + PGSIZE - 1) % 2 ^ 32 / PGSIZE * PGSIZE
def PGROUNDDOWN (a : Nat) : Nat := a / PGSIZE * PGSIZE

/-! ### kalloc.c -/

abbrev Page := Nat

structure Kmem where
  freelist : List Page
  /-- The bytes in each page. -/
  mem : Page → Nat → UInt8
  /-- Which of the calls of `kalloc` to come return 0 whatever is on the list. -/
  fails : Nat → Bool

namespace Kmem

def memset (k : Kmem) (pg : Page) (v : UInt8) : Kmem :=
  { k with mem := Function.update k.mem pg fun _ => v }

def memmove (k : Kmem) (dst src : Page) : Kmem :=
  { k with mem := Function.update k.mem dst (k.mem src) }

/-- The page is filled with junk. The link to the next free page is the list itself. -/
def kfree (k : Kmem) (pg : Page) : Kmem := { k.memset pg 1 with freelist := pg :: k.freelist }

def kalloc (k : Kmem) : Option Page × Kmem :=
  let k' := { k with fails := fun n => k.fails (n + 1) }
  match k.fails 0, k.freelist with
  | false, r :: rest => (some r, { k' with freelist := rest })
  | _, _ => (none, k')

def freerange (k : Kmem) (pages : List Page) : Kmem := pages.foldl kfree k

end Kmem

/-! ### vm.c -/

/-- An entry with `PTE_P`: its page and its other flags. -/
structure Pte where
  page : Page
  flags : Nat

structure Pgtab where
  page : Page
  pte : Fin NPTENTRIES → Option Pte

structure Pgdir where
  page : Page
  pde : Fin NPDENTRIES → Option Pgtab

namespace Pgdir

/-- The entry that `walkpgdir(pgdir, va, 0)` points to. -/
def lookup (d : Pgdir) (va : Nat) : Option Pte := (d.pde (PDX va)).bind fun t => t.pte (PTX va)

/-- Writes the entry that `walkpgdir(pgdir, va, 0)` points to. -/
def setPte (d : Pgdir) (va : Nat) (e : Option Pte) : Pgdir :=
  match d.pde (PDX va) with
  | none => d
  | some t => { d with pde := Function.update d.pde (PDX va) (some { t with pte := Function.update t.pte (PTX va) e }) }

end Pgdir

/-- Whether the address of an entry is returned; `alloc` makes the page-table page where there is none. -/
def walkpgdir (k : Kmem) (d : Pgdir) (va : Nat) (alloc : Bool) : Bool × Kmem × Pgdir :=
  match d.pde (PDX va) with
  | some _ => (true, k, d)
  | none =>
    if alloc then
      match k.kalloc with
      | (none, k) => (false, k, d)
      | (some pg, k) =>
        (true, k.memset pg 0, { d with pde := Function.update d.pde (PDX va) (some ⟨pg, fun _ => none⟩) })
    else (false, k, d)

/-- The turns of the loop of `mappages` that are still to come, from address `a` and physical page `pg` on. -/
def mapFrom (perm : Nat) : Nat → Kmem → Pgdir → Nat → Page → Except Stop (Bool × Kmem × Pgdir)
  | 0, k, d, _, _ => .ok (true, k, d)
  | n + 1, k, d, a, pg =>
    match walkpgdir k d a true with
    | (false, k, d) => .ok (false, k, d)
    | (true, k, d) =>
      if (d.lookup a).isSome then .error (.panic "remap")
      else mapFrom perm n k (d.setPte a (some ⟨pg, perm⟩)) (a + PGSIZE) (pg + 1)

def mappages (k : Kmem) (d : Pgdir) (va size : Nat) (pg : Page) (perm : Nat) : Except Stop (Bool × Kmem × Pgdir) :=
  let a := PGROUNDDOWN va
  let last := PGROUNDDOWN ((va + size - 1) % 2 ^ 32)
  mapFrom perm ((last - a) / PGSIZE + 1) k d a pg

def deallocFrom (oldsz : Nat) : Nat → Kmem → Pgdir → Nat → Kmem × Pgdir
  | 0, k, d, _ => (k, d)
  | n + 1, k, d, a =>
    if a < oldsz then
      match walkpgdir k d a false with
      | (false, k, d) => deallocFrom oldsz n k d (PGADDR (PDX a + 1) 0 0)
      | (true, k, d) =>
        match d.lookup a with
        | none => deallocFrom oldsz n k d (a + PGSIZE)
        | some e => deallocFrom oldsz n (k.kfree e.page) (d.setPte a none) (a + PGSIZE)
    else (k, d)

def deallocuvm (k : Kmem) (d : Pgdir) (oldsz newsz : Nat) : Nat × Kmem × Pgdir :=
  if oldsz ≤ newsz then (oldsz, k, d)
  else (newsz, deallocFrom oldsz (oldsz / PGSIZE + 1) k d (PGROUNDUP newsz))

def allocFrom (oldsz newsz : Nat) : Nat → Kmem → Pgdir → Nat → Except Stop (Nat × Kmem × Pgdir)
  | 0, k, d, _ => .ok (newsz, k, d)
  | n + 1, k, d, a =>
    if a < newsz then
      match k.kalloc with
      | (none, k) => .ok (0, (deallocuvm k d newsz oldsz).2)
      | (some mem, k) => do
        let (mapped, k, d) ← mappages (k.memset mem 0) d a PGSIZE mem (PTE_W ||| PTE_U)
        if mapped then allocFrom oldsz newsz n k d (a + PGSIZE)
        else .ok (0, (deallocuvm k d newsz oldsz).2.1.kfree mem, (deallocuvm k d newsz oldsz).2.2)
    else .ok (newsz, k, d)

def allocuvm (k : Kmem) (d : Pgdir) (oldsz newsz : Nat) : Except Stop (Nat × Kmem × Pgdir) :=
  if KERNBASE ≤ newsz then .ok (0, k, d)
  else if newsz < oldsz then .ok (oldsz, k, d)
  else allocFrom oldsz newsz (newsz / PGSIZE + 1) k d (PGROUNDUP oldsz)

def freeTables (k : Kmem) (d : Pgdir) (is : List (Fin NPDENTRIES)) : Kmem :=
  is.foldl (fun k i => match d.pde i with | some t => k.kfree t.page | none => k) k

def freevm (k : Kmem) (d : Pgdir) : Kmem :=
  let (k, d) := (deallocuvm k d KERNBASE 0).2
  (freeTables k d (List.finRange NPDENTRIES)).kfree d.page

structure Kmap where
  virt : Nat
  physStart : Nat
  physEnd : Nat
  perm : Nat

/-- The table `kmap`, for the address that the linker gives to `data`. -/
def kmap (data : Nat) : List Kmap :=
  [⟨KERNBASE, 0, EXTMEM, PTE_W⟩,
   ⟨KERNLINK, V2P KERNLINK, V2P data, 0⟩,
   ⟨data, V2P data, PHYSTOP, PTE_W⟩,
   ⟨DEVSPACE, DEVSPACE, 0, PTE_W⟩]

def mapKernel : List Kmap → Kmem → Pgdir → Except Stop (Option Pgdir × Kmem)
  | [], k, d => .ok (some d, k)
  | e :: es, k, d => do
    let size := (e.physEnd + 2 ^ 32 - e.physStart) % 2 ^ 32
    let (mapped, k, d) ← mappages k d e.virt size (e.physStart / PGSIZE) e.perm
    if mapped then mapKernel es k d else .ok (none, freevm k d)

def setupkvm (kmap : List Kmap) (k : Kmem) : Except Stop (Option Pgdir × Kmem) :=
  match k.kalloc with
  | (none, k) => .ok (none, k)
  | (some pg, k) => mapKernel kmap (k.memset pg 0) ⟨pg, fun _ => none⟩

def copyFrom (parent : Pgdir) (sz : Nat) : Nat → Kmem → Pgdir → Nat → Except Stop (Option Pgdir × Kmem)
  | 0, k, d, _ => .ok (some d, k)
  | n + 1, k, d, i =>
    if i < sz then
      if (parent.pde (PDX i)).isNone then .error (.panic "copyuvm: pte should exist")
      else match parent.lookup i with
        | none => .error (.panic "copyuvm: page not present")
        | some e =>
          match k.kalloc with
          | (none, k) => .ok (none, freevm k d)
          | (some mem, k) => do
            let (mapped, k, d) ← mappages (k.memmove mem e.page) d i PGSIZE mem e.flags
            if mapped then copyFrom parent sz n k d (i + PGSIZE) else .ok (none, freevm (k.kfree mem) d)
    else .ok (some d, k)

def copyuvm (kmap : List Kmap) (k : Kmem) (parent : Pgdir) (sz : Nat) : Except Stop (Option Pgdir × Kmem) := do
  match ← setupkvm kmap k with
  | (none, k) => .ok (none, k)
  | (some d, k) => copyFrom parent sz (sz / PGSIZE + 1) k d 0

/-! ### Growing a process (proc.c, sysproc.c) -/

/-- The address space of a process: `p->pgdir` and `p->sz`. -/
structure Uvm where
  pgdir : Pgdir
  sz : Nat

def Uvm.grown (u : Uvm) (n : Int) : Nat := ((u.sz + n) % 2 ^ 32).toNat

/-- What `growproc` does with the size it gets: 0 is an error. -/
def Uvm.resize (u : Uvm) (k : Kmem) (d : Pgdir) (sz : Nat) : Int × Kmem × Uvm :=
  if sz = 0 then (-1, k, ⟨d, u.sz⟩) else (0, k, ⟨d, sz⟩)

def growproc (k : Kmem) (u : Uvm) (n : Int) : Except Stop (Int × Kmem × Uvm) :=
  if 0 < n then do
    let (sz, k, d) ← allocuvm k u.pgdir u.sz (u.grown n)
    .ok (u.resize k d sz)
  else if n < 0 then
    let (sz, k, d) := deallocuvm k u.pgdir u.sz (u.grown n)
    .ok (u.resize k d sz)
  else .ok (0, k, u)

def sysSbrk (k : Kmem) (u : Uvm) (n : Int) : Except Stop (Int × Kmem × Uvm) := do
  let addr := CInt.wrap 32 u.sz
  let (r, k, u) ← growproc k u n
  .ok (if r < 0 then (-1, k, u) else (addr, k, u))

end Xv6
