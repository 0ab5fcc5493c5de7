import Mathlib.Data.List.Basic
import Mathlib.Logic.Function.Basic
import StrideXv6.Sched.Table

set_option autoImplicit false

/-! # Physical pages

`kalloc.c`, the page tables of `vm.c`, and what `fork`, `exec`, `sbrk`, `exit` and `wait` do with
them. Addresses that are multiples of `PGSIZE` are page numbers: `Page` for physical memory, and a
natural number `v` for the virtual page `v * PGSIZE`.

The contents of a page are kept in two forms: as bytes, and as what its words mean as entries of a
page table (`pt`). Every store changes both; the stores of programs into their memory, and those of
`readi` and `copyout`, are not part of the calls modelled here. `fails` says which of the next calls of `kalloc` find no memory although the free list
may have some, so that every pattern of failures is possible. A panic ends a program with an
error.
-/

namespace StrideXv6.Mem

open Sched (Slot ProcState NPROC)

/-! ## State -/

def PGSIZE : Nat := 4096
/-- `NPDENTRIES` is the same. -/
def NPTENTRIES : Nat := 1024
def KERNBASE : Nat := 0x80000000
/-- The user part of a page directory: `PDX(KERNBASE)`. -/
def userEntries : Nat := 512
/-- `PHYSTOP` in pages. -/
def physPages : Nat := 0xE000

abbrev Page := Nat

/-- An entry of a page table or page directory with `PTE_P` set: the page, `PTE_W`, `PTE_U`. -/
structure Pte where
  page : Page
  w : Bool
  u : Bool
  deriving DecidableEq

/-- What pages contain, read as page tables; `none` is an entry without `PTE_P`. -/
abbrev Pt := Page → Nat → Option Pte

abbrev Bytes := Nat → UInt8

/-- An entry as a word. -/
def pteWord : Option Pte → Nat
  | none => 0
  | some e => e.page * PGSIZE + (if e.u then 4 else 0) + (if e.w then 2 else 0) + 1

/-- A word read as an entry. -/
def pteOf (x : Nat) : Option Pte :=
  if x % 2 = 1 then some ⟨x / PGSIZE, x / 2 % 2 = 1, x / 4 % 2 = 1⟩ else none

def word (b : Bytes) (j : Nat) : Nat :=
  (b (4 * j)).toNat + 2 ^ 8 * (b (4 * j + 1)).toNat + 2 ^ 16 * (b (4 * j + 2)).toNat
    + 2 ^ 24 * (b (4 * j + 3)).toNat

def putWord (b : Bytes) (j x : Nat) : Bytes := fun k =>
  if k / 4 = j then UInt8.ofNat (x / 2 ^ (8 * (k % 4))) else b k

/-- Where the linker has put the kernel: `V2P(data)` and `V2P(end)`, in pages. The kernel has to
fit into the 4 MB that are mapped at boot, with room for the first page directory, the tables of
its kernel part and the stacks of the other CPUs. -/
structure Image where
  data : Nat
  end_ : Nat
  linked : 0x100 < data
  ordered : data ≤ end_
  fits : end_ + 80 ≤ 1024

/-- A kernel of 22 pages from 1 MB on. -/
def smallImage : Image where
  data := 0x10A
  end_ := 0x116
  linked := by decide
  ordered := by decide
  fits := by decide

inductive Panic where
  /-- `"kfree"` -/
  | kfree
  /-- `"remap"` -/
  | remap
  /-- `"loaduvm: addr must be page aligned"` -/
  | loadAlign
  /-- `"loaduvm: address should exist"` -/
  | loadAddr
  /-- `"clearpteu"` -/
  | clearpteu
  /-- `"copyuvm: pte should exist"` -/
  | copyPte
  /-- `"copyuvm: page not present"` -/
  | copyPage
  /-- `"userinit: out of memory?"` -/
  | userinit
  /-- `"trap"`: the kernel has used an address that is not mapped, or written to its text -/
  | trap
  /-- Not a panic: `loaduvm` has been given addresses of the kernel, after an overflow in
  `ph.vaddr + ph.memsz`, and reads the file over it. What happens then is not modelled. -/
  | wild
  deriving DecidableEq

structure Memory where
  freelist : List Page
  pt : Pt
  bytes : Page → Bytes
  fails : List Bool

abbrev M := StateT Memory (Except Panic)

/-! ## kalloc.c -/

/-- The page `p` gets new contents as a whole. -/
def fill (p : Page) (f : Nat → Option Pte) (b : Bytes) : M Unit :=
  modify fun m => { m with
    pt := Function.update m.pt p f
    bytes := Function.update m.bytes p b }

/-- `memset(p, 0, PGSIZE)` -/
def clear (p : Page) : M Unit := fill p (fun _ => none) fun _ => 0

/-- `memmove` of a page. -/
def copyPage (p src : Page) : M Unit := do
  let m ← get
  fill p (m.pt src) (m.bytes src)

/-- The words of a free page: the link of the free list, which is the address of a page or 0, and
then `0x01010101`, which has `PTE_P`. -/
def junk : Nat → Option Pte
  | 0 => none
  | _ + 1 => some ⟨0x1010, false, false⟩

/-- `r->next` -/
def link : List Page → Nat
  | [] => 0
  | p :: _ => KERNBASE + p * PGSIZE

def kfree (img : Image) (p : Page) : M Unit := do
  if p < img.end_ ∨ physPages ≤ p then throw .kfree
  let m ← get
  fill p junk (putWord (fun _ => 1) 0 (link m.freelist))
  modify fun m => { m with freelist := p :: m.freelist }

def kalloc : M (Option Page) := fun m =>
  if m.fails.headD false then .ok (none, { m with fails := m.fails.tail })
  else
    match m.freelist with
    | [] => .ok (none, { m with fails := m.fails.tail })
    | p :: ps => .ok (some p, { m with fails := m.fails.tail, freelist := ps })

/-- The pages from `a` up to `b`, one after the other. -/
def freerange (img : Image) (a b : Page) : M Unit := forM (List.range' a (b - a)) (kfree img)

/-! ## vm.c -/

/-- `PDX` of the virtual page `v` -/
def pdx (v : Nat) : Nat := v / 1024 % 1024
def ptx (v : Nat) : Nat := v % 1024

/-- `*pte = e` -/
def setEntry (t : Page) (j : Nat) (e : Option Pte) : M Unit :=
  modify fun m => { m with
    pt := Function.update m.pt t (Function.update (m.pt t) j e)
    bytes := Function.update m.bytes t (putWord (m.bytes t) j (pteWord e)) }

/-- The page table and the index in it; `none` for a null pointer. -/
def walkpgdir (d : Page) (v : Nat) (alloc : Bool) : M (Option (Page × Nat)) := do
  let m ← get
  match m.pt d (pdx v) with
  | some e => return some (e.page, ptx v)
  | none =>
    if alloc then
      match ← kalloc with
      | none => return none
      | some t =>
        clear t
        setEntry d (pdx v) (some ⟨t, true, true⟩)
        return some (t, ptx v)
    else return none

/-- `n` pages from `v` on, mapped to the pages from `pa` on; `false` for -1. -/
def mappages (d : Page) (w u : Bool) : Nat → Nat → Page → M Bool
  | 0, _, _ => return true
  | n + 1, v, pa => do
    match ← walkpgdir d v true with
    | none => return false
    | some (t, j) =>
      let m ← get
      if (m.pt t j).isSome then throw .remap
      setEntry t j (some ⟨pa, w, u⟩)
      mappages d w u n (v + 1) (pa + 1)

structure Kmap where
  virt : Nat
  physStart : Page
  physEnd : Page
  w : Bool

/-- `phys_end - phys_start` is an unsigned difference of addresses: 20 bits in pages. -/
def Kmap.pages (k : Kmap) : Nat := (k.physEnd + 2 ^ 20 - k.physStart) % 2 ^ 20

def kmap (img : Image) : List Kmap :=
  [⟨0x80000, 0, 0x100, true⟩, ⟨0x80100, 0x100, img.data, false⟩,
    ⟨0x80000 + img.data, img.data, physPages, true⟩, ⟨0xFE000, 0xFE000, 0, true⟩]

/-- The loop of `setupkvm`. -/
def mapKernel (d : Page) : List Kmap → M Bool
  | [] => return true
  | k :: ks => do
    if ← mappages d k.w false k.pages k.virt k.physStart then mapKernel d ks
    else return false

def setupkvm (img : Image) : M (Option Page) := do
  match ← kalloc with
  | none => return none
  | some d =>
    clear d
    if ← mapKernel d (kmap img) then return some d else return none

/-- `PGROUNDUP` in pages. -/
def pgroundup (sz : Nat) : Nat := (sz + PGSIZE - 1) / PGSIZE

/-- The loop of `deallocuvm` with at most `n` iterations. -/
def deallocLoop (img : Image) (d : Page) (oldsz : Nat) : Nat → Nat → M Unit
  | 0, _ => return ()
  | n + 1, v => do
    if oldsz ≤ v * PGSIZE then return ()
    else
      match ← walkpgdir d v false with
      | none => deallocLoop img d oldsz n (v + NPTENTRIES)
      | some (t, j) =>
        let m ← get
        match m.pt t j with
        | some e => do
          if e.page = 0 then throw .kfree
          kfree img e.page
          setEntry t j none
          deallocLoop img d oldsz n (v + 1)
        | none => deallocLoop img d oldsz n (v + 1)

/-- Every iteration goes on by a page at least, so `pgroundup oldsz` of them are enough. -/
def deallocuvm (img : Image) (d : Page) (oldsz newsz : Nat) : M Nat := do
  if oldsz ≤ newsz then return oldsz
  deallocLoop img d oldsz (pgroundup oldsz) (pgroundup newsz)
  return newsz

/-- The page tables of `freevm`. -/
def freeTable (img : Image) (d : Page) (i : Nat) : M Unit := do
  let m ← get
  match m.pt d i with
  | some e => kfree img e.page
  | none => return ()

def freevm (img : Image) (d : Page) : M Unit := do
  let _ ← deallocuvm img d KERNBASE 0
  forM (List.range NPTENTRIES) (freeTable img d)
  kfree img d

/-- The loop of `allocuvm` over `n` pages. -/
def allocLoop (img : Image) (d : Page) (oldsz newsz : Nat) : Nat → Nat → M Nat
  | 0, _ => return newsz
  | n + 1, v => do
    match ← kalloc with
    | none =>
      let _ ← deallocuvm img d newsz oldsz
      return 0
    | some mem =>
      clear mem
      let _ ← mappages d true true 1 v mem
      allocLoop img d oldsz newsz n (v + 1)

def allocuvm (img : Image) (d : Page) (oldsz newsz : Nat) : M Nat := do
  if KERNBASE ≤ newsz then return 0
  else if newsz < oldsz then return oldsz
  else allocLoop img d oldsz newsz (pgroundup newsz - pgroundup oldsz) (pgroundup oldsz)

/-- The loop of `copyuvm`, with its `bad`. -/
def copyLoop (img : Image) (pgdir d : Page) : Nat → Nat → M (Option Page)
  | 0, _ => return some d
  | n + 1, v => do
    match ← walkpgdir pgdir v false with
    | none => throw .copyPte
    | some (t, j) =>
      let m ← get
      match m.pt t j with
      | none => throw .copyPage
      | some e =>
        match ← kalloc with
        | none => freevm img d; return none
        | some mem =>
          copyPage mem e.page
          if ← mappages d e.w e.u 1 v mem then copyLoop img pgdir d n (v + 1)
          else freevm img d; return none

def copyuvm (img : Image) (pgdir : Page) (sz : Nat) : M (Option Page) := do
  match ← setupkvm img with
  | none => return none
  | some d => copyLoop img pgdir d (pgroundup sz) 0

/-- `inituvm`; a failure of `kalloc` would make it write through a null pointer. The program that is
copied into the page is not modelled. -/
def inituvm (d : Page) : M Unit := do
  match ← kalloc with
  | none => throw .userinit
  | some mem =>
    clear mem
    let _ ← mappages d true true 1 0 mem
    return ()

/-- The loop of `loaduvm` over `n` pages, of which `readi` can read `read`; what it reads is not
modelled. -/
def loadLoop (d : Page) : Nat → Nat → Nat → M Bool
  | 0, _, _ => return true
  | n + 1, v, read => do
    match ← walkpgdir d v false with
    | none => throw .loadAddr
    | some _ =>
      if userEntries ≤ pdx v then throw .wild
      else if read = 0 then return false
      else loadLoop d n (v + 1) (read - 1)

def loaduvm (d : Page) (vaddr filesz read : Nat) : M Bool := do
  if vaddr % PGSIZE ≠ 0 then throw .loadAlign
  loadLoop d (pgroundup filesz) (vaddr / PGSIZE) read

def clearpteu (d : Page) (v : Nat) : M Unit := do
  match ← walkpgdir d v false with
  | none => throw .clearpteu
  | some (t, j) =>
    let m ← get
    setEntry t j ((m.pt t j).map fun e => { e with u := false })

/-! ## exec -/

/-- A program header as `exec` finds it; `read` is how many pages `loaduvm` can read. -/
inductive Proghdr where
  /-- `readi` returns too little -/
  | unreadable
  /-- not `ELF_PROG_LOAD` -/
  | other
  /-- `memsz < filesz` -/
  | short
  | load (vaddr memsz filesz read : Nat)

/-- What `exec` finds in the file system and in its arguments: whether the file is there with an
ELF header, the program headers, and whether the arguments fit on the stack. -/
structure ExecFile where
  elf : Bool
  headers : List Proghdr
  argsFit : Bool

/-- The loop over the program headers; `none` for `goto bad`. -/
def loadSegments (img : Image) (d : Page) : List Proghdr → Nat → M (Option Nat)
  | [], sz => return some sz
  | .unreadable :: _, _ => return none
  | .other :: hs, sz => loadSegments img d hs sz
  | .short :: _, _ => return none
  | .load vaddr memsz filesz read :: hs, sz => do
    let sz ← allocuvm img d sz ((vaddr + memsz) % 2 ^ 32)
    if sz = 0 then return none
    else if ← loaduvm d vaddr filesz read then loadSegments img d hs sz
    else return none

/-- The user stack, with the page below it made inaccessible. -/
def makeStack (img : Image) (d : Page) (sz : Nat) : M (Option Nat) := do
  let sz := pgroundup sz * PGSIZE
  let sz ← allocuvm img d sz (sz + 2 * PGSIZE)
  if sz = 0 then return none
  else
    clearpteu d (sz / PGSIZE - 2)
    return some sz

/-- The new page directory and size; `none` for -1. -/
def exec (img : Image) (f : ExecFile) (oldpgdir : Page) : M (Option (Page × Nat)) := do
  if ¬ f.elf then return none
  else
    match ← setupkvm img with
    | none => return none
    | some d =>
      match ← loadSegments img d f.headers 0 with
      | none => freevm img d; return none
      | some sz =>
        match ← makeStack img d sz with
        | none => freevm img d; return none
        | some sz =>
          if f.argsFit then
            freevm img oldpgdir
            return some (d, sz)
          else freevm img d; return none

/-! ## Processes -/

/-- The fields of `struct proc` that concern memory, and those that say who is whose parent. -/
structure Proc where
  state : ProcState
  parent : Option Slot
  kstack : Page
  pgdir : Page
  sz : Nat

/-- The state between calls. `pipes` are the pages of pipes, `kernel` those the kernel took at
boot. -/
structure Sys where
  mem : Memory
  proc : Slot → Proc
  pipes : List Page
  kernel : List Page

def Sys.setProc (s : Sys) (p : Slot) (r : Proc) : Sys :=
  { s with proc := Function.update s.proc p r }

/-- The first `UNUSED` slot. -/
def findUnused (t : Slot → Proc) : Option Slot :=
  (List.finRange NPROC).find? fun p => decide ((t p).state = .unused)

/-- `kstack` and `pgdir` of the child, or `none` when `fork` fails: `allocproc` and `copyuvm`. -/
def forkPages (img : Image) (p : Proc) : M (Option (Page × Page)) := do
  match ← kalloc with
  | none => return none
  | some stack =>
    match ← copyuvm img p.pgdir p.sz with
    | none => kfree img stack; return none
    | some d => return some (stack, d)

/-- `growproc(n)` as `sbrk` calls it: the size then, if it succeeds. -/
def growproc (img : Image) (p : Proc) (n : Int) : M (Option Nat) := do
  if 0 < n then
    let sz ← allocuvm img p.pgdir p.sz (p.sz + n.toNat)
    return if sz = 0 then none else some sz
  else if n < 0 then
    -- sz + n is computed as an unsigned number
    let sz ← deallocuvm img p.pgdir p.sz ((p.sz + n) % 2 ^ 32).toNat
    return if sz = 0 then none else some sz
  else return some p.sz

/-- What `wait` frees of a child. -/
def reap (img : Image) (p : Proc) : M Unit := do
  kfree img p.kstack
  freevm img p.pgdir

inductive Event where
  | fork (p : Slot) (fails : List Bool)
  | exec (p : Slot) (f : ExecFile) (fails : List Bool)
  | sbrk (p : Slot) (n : Int) (fails : List Bool)
  | exit (p : Slot)
  /-- `killed` is the flag of the process that waits -/
  | wait (p : Slot) (killed : Bool)
  /-- the allocation of `pipealloc` -/
  | pipealloc (fails : List Bool)
  /-- the `kfree` of `pipeclose` -/
  | pipeclose (pg : Page)

/-- A process that can make calls. -/
def Proc.runs (p : Proc) : Bool := p.state ≠ .unused ∧ p.state ≠ .embryo ∧ p.state ≠ .zombie

/-- Run a program on the memory, with the given failures of `kalloc` to come; a panic is no
state. -/
def run {α : Type} (s : Sys) (fails : List Bool) (m : M α) : Option (α × Memory) :=
  match m { s.mem with fails := fails } with
  | .ok r => some r
  | .error _ => none

def initproc : Slot := 0

def forkStep (img : Image) (s : Sys) (p : Slot) (fails : List Bool) : Option Sys :=
  match findUnused s.proc with
  | none => some s
  | some np =>
    (run s fails (forkPages img (s.proc p))).map fun r =>
      match r.1 with
      | none => { s with mem := r.2 }
      | some (stack, d) =>
        { s with mem := r.2 }.setProc np
          { state := .runnable, parent := some p, kstack := stack, pgdir := d
            sz := (s.proc p).sz }

def execStep (img : Image) (s : Sys) (p : Slot) (f : ExecFile) (fails : List Bool) : Option Sys :=
  (run s fails (exec img f (s.proc p).pgdir)).map fun r =>
    match r.1 with
    | none => { s with mem := r.2 }
    | some (d, sz) => { s with mem := r.2 }.setProc p { s.proc p with pgdir := d, sz := sz }

def sbrkStep (img : Image) (s : Sys) (p : Slot) (n : Int) (fails : List Bool) : Option Sys :=
  (run s fails (growproc img (s.proc p) n)).map fun r =>
    match r.1 with
    | none => { s with mem := r.2 }
    | some sz => { s with mem := r.2 }.setProc p { s.proc p with sz := sz }

/-- The children of `p` are passed on to `init`. -/
def exitStep (s : Sys) (p : Slot) : Option Sys :=
  if p = initproc then none
  else
    let adopt (q : Proc) : Proc := if q.parent = some p then { q with parent := some initproc } else q
    let s := { s with proc := fun q => adopt (s.proc q) }
    some (s.setProc p { s.proc p with state := .zombie })

def findZombie (s : Sys) (p : Slot) : Option Slot :=
  (List.finRange NPROC).find? fun q =>
    decide ((s.proc q).parent = some p) && decide ((s.proc q).state = .zombie)

/-- `wait` returns when it has found a child, or when there is nothing to wait for. -/
def waitStep (img : Image) (s : Sys) (p : Slot) (killed : Bool) : Option Sys :=
  match findZombie s p with
  | some q =>
    (run s [] (reap img (s.proc q))).map fun r =>
      { s with mem := r.2 }.setProc q { s.proc q with state := .unused, parent := none }
  | none =>
    if killed ∨ ∀ q, (s.proc q).parent ≠ some p then some s else none

def pipeallocStep (s : Sys) (fails : List Bool) : Option Sys :=
  (run s fails kalloc).map fun r =>
    match r.1 with
    | none => { s with mem := r.2 }
    | some pg => { s with mem := r.2, pipes := pg :: s.pipes }

def pipecloseStep (img : Image) (s : Sys) (pg : Page) : Option Sys :=
  if pg ∈ s.pipes then
    (run s [] (kfree img pg)).map fun r => { s with mem := r.2, pipes := s.pipes.erase pg }
  else none

/-- One call, from its start to its end. -/
def step (img : Image) (s : Sys) : Event → Option Sys
  | .fork p fails => if (s.proc p).runs then forkStep img s p fails else none
  | .exec p f fails => if (s.proc p).runs then execStep img s p f fails else none
  | .sbrk p n fails => if (s.proc p).runs then sbrkStep img s p n fails else none
  | .exit p => if (s.proc p).runs then exitStep s p else none
  | .wait p killed => if (s.proc p).runs then waitStep img s p killed else none
  | .pipealloc fails => pipeallocStep s fails
  | .pipeclose pg => pipecloseStep img s pg

/-! ## Boot -/

/-- `startothers` takes a stack for each of the other CPUs; there is memory for them. -/
def cpuStacks : Nat → M (List Page)
  | 0 => return []
  | n + 1 => do
    match ← kalloc with
    | none => throw .userinit
    | some p => return p :: (← cpuStacks n)

/-- The tables of a page directory. -/
def tables (pt : Pt) (d : Page) : List Page :=
  (List.range NPTENTRIES).filterMap fun i => (pt d i).map Pte.page

/-- `main` up to `userinit`, on a machine with `n` more CPUs: what the kernel keeps, and the
kernel stack and page directory of the first process. -/
def bootPages (img : Image) (n : Nat) : M (List Page × Page × Page) := do
  freerange img img.end_ 1024
  match ← setupkvm img with
  | none => throw .userinit
  | some kpgdir =>
    let m ← get
    let kernel := kpgdir :: tables m.pt kpgdir
    let cpus ← cpuStacks n
    freerange img 1024 physPages
    match ← kalloc with
    | none => throw .userinit
    | some stack =>
      match ← setupkvm img with
      | none => throw .userinit
      | some d =>
        inituvm d
        return (kernel ++ cpus, stack, d)

/-- The zero-initialised table but for the first process. -/
def bootTable (stack d : Page) (p : Slot) : Proc :=
  if p = initproc then { state := .runnable, parent := none, kstack := stack, pgdir := d, sz := PGSIZE }
  else { state := .unused, parent := none, kstack := 0, pgdir := 0, sz := 0 }

/-- Memory before `kinit1`. -/
def Memory.start : Memory :=
  { freelist := [], pt := fun _ _ => none, bytes := fun _ _ => 0, fails := [] }

/-- The system after boot. -/
def boot (img : Image) (n : Nat) : Option Sys :=
  match bootPages img n Memory.start with
  | .ok ((kernel, stack, d), m) =>
    some { mem := m, proc := bootTable stack d, pipes := [], kernel := kernel }
  | .error _ => none

end StrideXv6.Mem
