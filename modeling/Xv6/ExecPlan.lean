import Xv6.Exec

/-! What exec needs of a file and of the free memory, in numbers only: how many pages
are mapped, the size of the image and the number of free pages. The conditions under
which the loading loop and the argument copy stay inside the image are predicates on
the bytes of the file, the arguments and these numbers. -/
namespace Xv6.ExecPlan
open Vm Exec

def pages (size : Nat) : Nat := (size + 4095) / 4096

/-- The pages below `mapped` are mapped. -/
structure Plan where
  mapped : Nat
  size : Nat
  free : Nat
  deriving DecidableEq

/-- Map `count` more pages: each takes one free page, and one more when it is the
first of its page table. Without a page for the page table the last page is
silently left out. -/
def growLoop : (count mapped free : Nat) → Option (Nat × Nat)
  | 0, mapped, free => some (mapped, free)
  | count + 1, mapped, free =>
    if free = 0 then none else
    if mapped % 512 ≠ 0 then growLoop count (mapped + 1) (free - 1) else
    if free = 1 then if count = 0 then some (mapped, 0) else none else
    growLoop count (mapped + 1) (free - 2)

def grow (plan : Plan) (newsz : Nat) : Option Plan :=
  if newsz < plan.size then some plan else
  (growLoop (pages newsz - pages plan.size) plan.mapped plan.free).map fun (mapped, free) =>
    ⟨mapped, newsz, free⟩

/-- Out of memory, deallocuvm walks up to newsz; beyond this limit it dereferences a
back-pointer. The walk is one page off when the last page was left out. -/
def walkLimit (plan : Plan) : Nat :=
  if plan.mapped = pages plan.size then 0x3fc00000 else 0x3fc01000

/-- The end of the pages that have a page table. -/
def tableEnd (mapped : Nat) : Nat := (mapped + 511) / 512 * 512

/-- Page i of a segment that is read at addr: the page table must be there, and the
page too when bytes are written. -/
def Covered (mapped addr i : Nat) : Option (List UInt8) → Prop
  | none | some [] => (addr + i) % 2 ^ 64 / pgsize % 2 ^ 18 < tableEnd mapped
  | some _ => (addr + i) % 2 ^ 64 / pgsize % 2 ^ 18 < mapped

/-- The page that loaduvm reads into offset i. -/
def chunk (file : List UInt8) (offset size i : Nat) : Option (List UInt8) :=
  readi file ((offset + i) % 2 ^ 32) (min (size - i) pgsize)

/-- Whether loaduvm goes on after that page. -/
def fullChunk (file : List UInt8) (offset size i : Nat) : Bool :=
  (chunk file offset size i).any fun bytes => bytes.length == min (size - i) pgsize

/-- Every page that loaduvm touches is covered. -/
def PagesFit (mapped addr : Nat) (file : List UInt8) (offset size : Nat) : (count i : Nat) → Prop
  | 0, _ => True
  | count + 1, i =>
    Covered mapped addr i (chunk file offset size i) ∧
      (fullChunk file offset size i = true →
        PagesFit mapped addr file offset size count (i + pgsize))

/-- Whether loaduvm reads the segment to its end. -/
def pagesRead (mapped addr : Nat) (file : List UInt8) (offset size : Nat) : (count i : Nat) → Bool
  | 0, _ => true
  | count + 1, i =>
    decide ((addr + i) % 2 ^ 64 / pgsize % 2 ^ 18 < tableEnd mapped) &&
      fullChunk file offset size i && pagesRead mapped addr file offset size count (i + pgsize)

/-- The segment of a program header fits into the image. -/
def SegmentFits (plan : Plan) (file : List UInt8) (ph : Proghdr) : Prop :=
  ph.vaddr % pgsize = 0 ∧ PagesFit plan.mapped ph.vaddr file (ph.off % 2 ^ 32) (ph.filesz % 2 ^ 32)
    (pages (ph.filesz % 2 ^ 32)) 0

def segmentRead (plan : Plan) (file : List UInt8) (ph : Proghdr) : Bool :=
  decide (ph.vaddr % pgsize = 0) && pagesRead plan.mapped ph.vaddr file (ph.off % 2 ^ 32)
    (ph.filesz % 2 ^ 32) (pages (ph.filesz % 2 ^ 32)) 0

/-- The program header at off, when there is one. -/
def headerAt (file : List UInt8) (off : Nat) : Option Proghdr :=
  (readi file off proghdrSize).bind fun bytes =>
    if bytes.length = proghdrSize then some (readProghdr bytes) else none

def newSize (ph : Proghdr) : Nat := (ph.vaddr + ph.memsz) % 2 ^ 32

/-- The plan after the program headers, or none when exec gives up or panics. -/
def planSegments (file : List UInt8) : (count off : Nat) → Plan → Option Plan
  | 0, _, plan => some plan
  | count + 1, off, plan =>
    (headerAt file off).bind fun ph =>
      if ph.type ≠ elfProgLoad then
        planSegments file count ((off + proghdrSize) % 2 ^ 32) plan
      else if ph.memsz < ph.filesz then none
      else (grow plan (newSize ph)).bind fun next =>
        if next.size = 0 then none else
        if segmentRead next file ph then
          planSegments file count ((off + proghdrSize) % 2 ^ 32) next
        else none

/-- Every segment that exec loads fits into the image that allocuvm made for it, and
a size that memory cannot hold stays below the limit of deallocuvm's walk. -/
def SegmentsFit (file : List UInt8) : (count off : Nat) → Plan → Prop
  | 0, _, _ => True
  | count + 1, off, plan =>
    match headerAt file off with
    | none => True
    | some ph =>
      if ph.type ≠ elfProgLoad then
        SegmentsFit file count ((off + proghdrSize) % 2 ^ 32) plan
      else if ph.memsz < ph.filesz then True
      else match grow plan (newSize ph) with
        | none => newSize ph ≤ walkLimit plan
        | some next => next.size = 0 ∨ SegmentFits next file ph ∧
            (segmentRead next file ph = true →
              SegmentsFit file count ((off + proghdrSize) % 2 ^ 32) next)

/-- The ELF header that exec accepts. -/
def elfHeader (file : List UInt8) : Option Elfhdr :=
  (readi file 0 elfhdrSize).bind fun bytes =>
    if bytes.length < elfhdrSize then none else
    if (readElfhdr bytes).magic = elfMagic then some (readElfhdr bytes) else none

/-- The image of an executable file fits: setupkvm takes three of the free pages. -/
def ImageFits (file : List UInt8) (free : Nat) : Prop :=
  ∀ elf ∈ elfHeader file, 3 ≤ free →
    SegmentsFit file elf.phnum (elf.phoff % 2 ^ 32) ⟨0, 0, free - 3⟩

/-- The image that exec loads, if it gets that far. -/
def imagePlan (file : List UInt8) (free : Nat) : Option Plan :=
  (elfHeader file).bind fun elf =>
    if free < 3 then none else planSegments file elf.phnum (elf.phoff % 2 ^ 32) ⟨0, 0, free - 3⟩

/-- The strings go down from sp. A string that does not fit above bottom makes exec
fail, which is safe as long as it does not reach below address 0. -/
def ArgsFit (bottom : Nat) (stack : Bool) : (sp : Nat) → List (List UInt8) → Prop
  | _, [] => stack = true
  | sp, arg :: rest =>
    arg.length + 1 ≤ sp ∧
      ((sp - (arg.length + 1)) / 8 * 8 < bottom ∨
        stack = true ∧ ArgsFit bottom stack ((sp - (arg.length + 1)) / 8 * 8) rest)

/-- The arguments fit above the image that was loaded. The stack page is left out when
it is the first page of a page table and one page is missing. -/
def StackFits (plan : Plan) (argv : List (List UInt8)) : Prop :=
  match growLoop 2 plan.mapped plan.free with
  | none => True
  | some (mapped, _) =>
    ArgsFit ((plan.mapped + 1) * pgsize) (decide (mapped = plan.mapped + 2))
      ((plan.mapped + 2) * pgsize) argv

end Xv6.ExecPlan
