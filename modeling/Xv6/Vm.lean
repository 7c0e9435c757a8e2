import Xv6.TraceMonad
import Xv6.BitField

/-! The page allocator (kernel/kalloc.c) and the page tables of an address space
(kernel/vm.c, kernel/vm64.c) in the default X64 build. Physical memory is a list of
free page numbers and the contents of every page, so a page table is read and
written as the words of a page. A kernel pointer `p2v(pa)` to the start of a page is
that page's number; it can be dereferenced when the kernel's linear map covers it.
User addresses are the numbers the C code computes with, truncated where the source
does so. -/
namespace Xv6.Vm
open TraceMonad BitField

def pgsize : Nat := 4096
def npdentries : Nat := 512
def nptentries : Nat := 512
def kernbase : Nat := 0xFFFFFFFF80000000
/-- PHYSTOP / PGSIZE. -/
def physPages : Nat := 0xE000
/-- Pages that kvmalloc maps at KERNBASE: two page directories of 2 MB pages. -/
def linearPages : Nat := 0x80000
/-- The end of the addresses that freevm clears. -/
def userTop : Nat := 0x3fa00000

def pteP : Nat := 1
def pteW : Nat := 2
def pteU : Nat := 4

def pdx (va : Nat) : Nat := va / 2 ^ 21 % 512

def ptx (va : Nat) : Nat := va / 2 ^ 12 % 512

def pgroundup (size : Nat) : Nat := (size + (pgsize - 1)) % 2 ^ 64 / pgsize * pgsize

def pgrounddown (a : Nat) : Nat := a / pgsize * pgsize

/-- `pte & PTE_P` and `pte & PTE_U`. -/
def present (pte : Nat) : Bool := pte.testBit 0

def user (pte : Nat) : Bool := pte.testBit 2

/-- `v2p(page) | flags`. -/
def entry (page flags : Nat) : Nat := page * pgsize ||| flags

/-- The page at `p2v(PTE_ADDR(pte))`. -/
def pteAddr (pte : Nat) : Nat := pte / pgsize

def pteFlags (pte : Nat) : Nat := pte % pgsize

abbrev Page := BitVec 32768

/-- A page after `memset(v, 1, PGSIZE)`. -/
def junk : Page := BitVec.ofNat 32768 ((2 ^ 32768 - 1) / 255)

/-- The page number of `end`, the shared kernel pdpt, the page directory in use, the
free list and the contents of memory. -/
structure Memory where
  kend : Nat
  kpdpt : Nat
  cr3 : Nat
  freelist : List Nat
  page : Nat → Page

def word (m : Memory) (page i : Nat) : Nat := field (m.page page) (64 * i) 64

def Memory.setPage (m : Memory) (page : Nat) (content : Page) : Memory :=
  { m with page := fun other => if other = page then content else m.page other }

def Memory.setWord (m : Memory) (page i value : Nat) : Memory :=
  m.setPage page (setField (m.page page) (64 * i) 64 value)

/-- The function whose dereference faults. -/
inductive Access where
  | setupkvm
  | mappages
  | deallocuvm
  | clearpteu
  | copyuvm
  | loaduvm
  | uva2ka
  | copyout
  deriving DecidableEq

/-- The panics; a page fault inside the kernel ends in trap's panic. -/
inductive Panic where
  | kfree
  | remap
  | clearpteu
  | addrMustBePageAligned
  | addressShouldExist
  | pteShouldExist
  | pageNotPresent
  | trap (access : Access)
  deriving DecidableEq

/-- What a run reports: whether the page that loaduvm fills is mapped at its address,
to which directory index uva2ka is applied and whether a page table is there, and
whether copyout succeeded and left all its bytes in user pages. -/
inductive Event where
  | load (mapped : Bool)
  | uva2ka (index : Nat) (table : Bool)
  | copyout (succeeded complete : Bool)
  deriving DecidableEq

abbrev VmM := Action Memory Event Panic

def setPage (page : Nat) (content : Page) : VmM Unit := change (·.setPage page content)

def setWord (page i value : Nat) : VmM Unit := change (·.setWord page i value)

/-- Read through a pointer into a page. -/
def load (access : Access) (page i : Nat) : VmM Nat :=
  if linearPages ≤ page then halt (.trap access) else inspect (word · page i)

def store (access : Access) (page i value : Nat) : VmM Unit :=
  if linearPages ≤ page then halt (.trap access) else setWord page i value

/-- Address 0 in the address space in use: where the kernel's null pointer leads. -/
def nullPage (access : Access) : VmM Nat := do
  let pde ← inspect fun m => word m m.cr3 0
  if !present pde then halt (.trap access) else
  let pte ← load access (pteAddr pde) 0
  if !present pte then halt (.trap access) else
  pure (pteAddr pte)

/-! kalloc.c -/

def kfree (page : Nat) : VmM Unit := do
  let low ← inspect (·.kend)
  if page < low ∨ physPages ≤ page then halt .kfree else
  setPage page junk
  change fun m => { m with freelist := page :: m.freelist }

def kalloc : VmM (Option Nat) := do
  match ← inspect (·.freelist) with
  | [] => pure none
  | page :: rest => do
    change fun m => { m with freelist := rest }
    pure (some page)

/-! vm.c and vm64.c -/

/-- The page table and the index in it of the PTE for va. -/
def walkpgdir (pgdir va : Nat) (alloc : Bool) : VmM (Option (Nat × Nat)) := do
  let pde ← inspect (word · pgdir (pdx va))
  if present pde then pure (some (pteAddr pde, ptx va)) else
  if !alloc then pure none else
  match ← kalloc with
  | none => pure none
  | some pgtab => do
    setPage pgtab 0
    setWord pgdir (pdx va) (entry pgtab (pteP ||| pteW ||| pteU))
    pure (some (pgtab, ptx va))

/-- The pages from a on, `more` of them after the first. -/
def mapFrom (pgdir perm : Nat) : (more a page : Nat) → VmM Bool
  | more, a, page => do
    match ← walkpgdir pgdir a true with
    | none => pure false
    | some (pgtab, i) => do
      let pte ← load .mappages pgtab i
      if present pte then halt .remap else
      store .mappages pgtab i (entry page (perm ||| pteP))
      match more with
      | 0 => pure true
      | more + 1 => mapFrom pgdir perm more (a + pgsize) (page + 1)

def mappages (pgdir va size page perm : Nat) : VmM Bool :=
  let a := pgrounddown va
  let last := pgrounddown (va + size - 1)
  mapFrom pgdir perm ((last - a) / pgsize) a page

/-- The page a pointer returned by kalloc leads to, null or not. -/
def target (pointer : Option Nat) : VmM Nat :=
  match pointer with
  | some page => pure page
  | none => nullPage .setupkvm

/-- The pointer itself, as a kernel address. -/
def address (pointer : Option Nat) : Nat :=
  match pointer with
  | some page => kernbase + page * pgsize
  | none => 0

/-- `v2p`: the subtraction wraps for the null pointer. -/
def v2p (pointer : Option Nat) : Nat := (address pointer + 2 ^ 64 - kernbase) % 2 ^ 64

/-- kalloc's result is not checked: without memory the writes go to address 0. -/
def setupkvm : VmM (Option Nat) := do
  let pml4 ← kalloc
  let pdpt ← kalloc
  let pgdir ← kalloc
  let pml4Page ← target pml4
  setPage pml4Page 0
  let pdptPage ← target pdpt
  setPage pdptPage 0
  let pgdirPage ← target pgdir
  setPage pgdirPage 0
  let kpdpt ← inspect (·.kpdpt)
  setWord pml4Page 511 (entry kpdpt (pteP ||| pteW ||| pteU))
  setWord pml4Page 0 (v2p pdpt ||| (pteP ||| pteW ||| pteU))
  setWord pdptPage 0 (v2p pgdir ||| (pteP ||| pteW ||| pteU))
  setWord pgdirPage 511 (address pml4 ||| pteP)
  setWord pgdirPage 510 (address pdpt ||| pteP)
  pure pgdir

/-- The loop of deallocuvm. It has `fuel` pages left at most. -/
def deallocLoop (pgdir oldsz : Nat) : (fuel a : Nat) → VmM Unit
  | 0, _ => pure ()
  | fuel + 1, a =>
    if oldsz ≤ a then pure () else do
    match ← walkpgdir pgdir a false with
    | none => deallocLoop pgdir oldsz fuel (a + (nptentries - 1) * pgsize + pgsize)
    | some (pgtab, i) => do
      let pte ← load .deallocuvm pgtab i
      whenever (present pte) do
        let page := pteAddr pte
        whenever (page = 0) (halt .kfree)
        kfree page
        store .deallocuvm pgtab i 0
      deallocLoop pgdir oldsz fuel (a + pgsize)

def deallocuvm (pgdir oldsz newsz : Nat) : VmM Nat :=
  if oldsz ≤ newsz then pure oldsz else do
  let a := pgroundup newsz
  deallocLoop pgdir oldsz ((oldsz - a + (pgsize - 1)) / pgsize) a
  pure newsz

/-- The loop of allocuvm over `count` pages from a on. -/
def allocLoop (pgdir oldsz newsz : Nat) : (count a : Nat) → VmM Nat
  | 0, _ => pure newsz
  | count + 1, a => do
    match ← kalloc with
    | none => do
      let _ ← deallocuvm pgdir newsz oldsz
      pure 0
    | some mem => do
      setPage mem 0
      -- allocuvm ignores the result of mappages.
      let _ ← mappages pgdir a pgsize mem (pteW ||| pteU)
      allocLoop pgdir oldsz newsz count (a + pgsize)

/-- Sizes are `uint`. -/
def allocuvm (pgdir oldsz newsz : Nat) : VmM Nat :=
  if kernbase ≤ newsz then pure 0 else
  if newsz < oldsz then pure oldsz else
  let a := pgroundup oldsz
  allocLoop pgdir oldsz newsz ((newsz - a + (pgsize - 1)) / pgsize) a

/-- The loop of freevm over the entries from i on. -/
def freeTables (pgdir : Nat) : (count i : Nat) → VmM Unit
  | 0, _ => pure ()
  | count + 1, i => do
    let pde ← inspect (word · pgdir i)
    whenever (present pde) (kfree (pteAddr pde))
    freeTables pgdir count (i + 1)

def freevm (pgdir : Nat) : VmM Unit := do
  let _ ← deallocuvm pgdir userTop 0
  freeTables pgdir (npdentries - 2) 0
  kfree pgdir

def clearpteu (pgdir uva : Nat) : VmM Unit := do
  match ← walkpgdir pgdir uva false with
  | none => halt .clearpteu
  | some (pgtab, i) => do
    let pte ← load .clearpteu pgtab i
    store .clearpteu pgtab i (if user pte then pte - pteU else pte)

/-- The loop of copyuvm over `count` pages from i on. -/
def copyLoop (pgdir d : Nat) : (count i : Nat) → VmM (Option Nat)
  | 0, _ => pure (some d)
  | count + 1, i => do
    match ← walkpgdir pgdir i false with
    | none => halt .pteShouldExist
    | some (pgtab, j) => do
      let pte ← load .copyuvm pgtab j
      if !present pte then halt .pageNotPresent else
      match ← kalloc with
      | none => do
        freevm d
        pure none
      | some mem => do
        if linearPages ≤ pteAddr pte then halt (.trap .copyuvm) else
        let content ← inspect (·.page (pteAddr pte))
        setPage mem content
        if ← mappages d i pgsize mem (pteFlags pte) then
          copyLoop pgdir d count (i + pgsize)
        else do
          freevm d
          pure none

def copyuvm (pgdir size : Nat) : VmM (Option Nat) := do
  match ← setupkvm with
  | none => pure none
  | some d => copyLoop pgdir d ((size + (pgsize - 1)) / pgsize) 0

/-- The page table of the directory entry i and the page a PTE maps, as the code
reads them. -/
def tableAt (m : Memory) (pgdir i : Nat) : Option Nat :=
  if present (word m pgdir i) then some (pteAddr (word m pgdir i)) else none

def pteAt (m : Memory) (pgdir k : Nat) : Option Nat :=
  (tableAt m pgdir (k / 512)).map fun pgtab => word m pgtab (k % 512)

def leafAt (m : Memory) (pgdir k : Nat) : Option Nat :=
  (pteAt m pgdir k).bind fun pte => if present pte then some (pteAddr pte) else none

/-- The page that a user access to page k of the address space reaches. -/
def userAt (m : Memory) (pgdir k : Nat) : Option Nat :=
  (pteAt m pgdir k).bind fun pte =>
    if present pte && user pte then some (pteAddr pte) else none

/-- A file is the bytes that readi returns; a short read returns fewer than n. -/
def readi (file : List UInt8) (off n : Nat) : Option (List UInt8) :=
  if file.length < off ∨ (off + n) % 2 ^ 32 < off then none else some ((file.drop off).take n)

/-- The loop of loaduvm over `count` pages from i on. The counter i cannot wrap: readi
falls short at the end of the file. -/
def loadLoop (pgdir addr : Nat) (file : List UInt8) (offset size : Nat) : (count i : Nat) → VmM Bool
  | 0, _ => pure true
  | count + 1, i => do
    let va := (addr + i) % 2 ^ 64
    match ← walkpgdir pgdir va false with
    | none => halt .addressShouldExist
    | some (pgtab, j) => do
      let pte ← load .loaduvm pgtab j
      let page := pteAddr pte % 2 ^ 20
      let n := min (size - i) pgsize
      match readi file ((offset + i) % 2 ^ 32) n with
      | none => pure false
      | some bytes => do
        whenever (bytes ≠ []) do
          if linearPages ≤ page then halt (.trap .loaduvm) else
          emit (.load (← inspect fun m => leafAt m pgdir (va / pgsize % 2 ^ 18) == some page))
          let content ← inspect (·.page page)
          setPage page (setBytes content 0 bytes)
        if bytes.length ≠ n then pure false else
        loadLoop pgdir addr file offset size count (i + pgsize)

/-- The offset and the size are truncated to `uint`. -/
def loaduvm (pgdir addr : Nat) (file : List UInt8) (offset size : Nat) : VmM Bool :=
  if addr % pgsize ≠ 0 then halt .addrMustBePageAligned else
  loadLoop pgdir addr file (offset % 2 ^ 32) (size % 2 ^ 32)
    ((size % 2 ^ 32 + (pgsize - 1)) / pgsize) 0

def uva2ka (pgdir uva : Nat) : VmM (Option Nat) := do
  let pde ← inspect (word · pgdir (pdx uva))
  emit (.uva2ka (pdx uva) (present pde))
  match ← walkpgdir pgdir uva false with
  | some (pgtab, i) => do
    let pte ← load .uva2ka pgtab i
    pure (if present pte && user pte then some (pteAddr pte) else none)
  | none => do
    -- The null pointer is dereferenced: the PTE is read at address 0.
    let page ← nullPage .uva2ka
    let pte ← load .uva2ka page 0
    pure (if present pte && user pte then some (pteAddr pte) else none)

/-- The loop of copyout. Each round copies at least one byte. -/
def copyoutLoop (pgdir : Nat) : (fuel va : Nat) → List UInt8 → VmM Bool
  | 0, _, _ => pure true
  | fuel + 1, va, bytes =>
    if bytes = [] then pure true else do
    let va0 := pgrounddown va
    match ← uva2ka pgdir va0 with
    | none => pure false
    | some page => do
      let n := min (pgsize - (va - va0)) bytes.length
      if linearPages ≤ page then halt (.trap .copyout) else
      let content ← inspect (·.page page)
      setPage page (setBytes content (va - va0) (bytes.take n))
      copyoutLoop pgdir fuel ((va0 + pgsize) % 2 ^ 32) (bytes.drop n)

/-- Whether the bytes stand in user pages at va. -/
def standsAt (m : Memory) (pgdir va : Nat) : List UInt8 → Bool
  | [] => true
  | byte :: rest =>
    (match userAt m pgdir (va / pgsize % 2 ^ 18) with
      | some page => byteAt (m.page page) (va % pgsize) == byte
      | none => false) && standsAt m pgdir ((va + 1) % 2 ^ 32) rest

def copyout (pgdir va : Nat) (bytes : List UInt8) : VmM Bool := do
  let succeeded ← copyoutLoop pgdir bytes.length (va % 2 ^ 32) bytes
  let complete ← inspect fun m => standsAt m pgdir (va % 2 ^ 32) bytes
  emit (.copyout succeeded complete)
  pure succeeded

end Xv6.Vm
