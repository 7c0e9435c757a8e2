import Xv6.Vm

/-! exec (kernel/exec.c) over the page tables: the file is the bytes that readi
returns, the arguments are the strings that sys_exec fetched. The register and name
fields of the process that exec sets at its end are not modelled; the old page
directory is the one in use. -/
namespace Xv6.Exec
open TraceMonad BitField Vm

def elfMagic : Nat := 0x464C457F
def elfProgLoad : Nat := 1
def maxarg : Nat := 32
/-- sizeof(struct elfhdr) and sizeof(struct proghdr). -/
def elfhdrSize : Nat := 64
def proghdrSize : Nat := 56

/-- A little-endian number. -/
def number (bytes : List UInt8) : Nat := bytes.foldr (fun byte high => byte.toNat + 256 * high) 0

def numberAt (bytes : List UInt8) (off len : Nat) : Nat := number ((bytes.drop off).take len)

structure Elfhdr where
  magic : Nat
  phoff : Nat
  phnum : Nat
deriving DecidableEq

def readElfhdr (bytes : List UInt8) : Elfhdr :=
  { magic := numberAt bytes 0 4
    phoff := numberAt bytes 32 8
    phnum := numberAt bytes 56 2 }

structure Proghdr where
  type : Nat
  off : Nat
  vaddr : Nat
  filesz : Nat
  memsz : Nat
deriving DecidableEq

def readProghdr (bytes : List UInt8) : Proghdr :=
  { type := numberAt bytes 0 4
    off := numberAt bytes 8 8
    vaddr := numberAt bytes 16 8
    filesz := numberAt bytes 32 8
    memsz := numberAt bytes 40 8 }

/-- An `int` assigned to a `uintp`. -/
def signExtend (value : Nat) : Nat := if value < 2 ^ 31 then value else value + (2 ^ 64 - 2 ^ 32)

/-- The loop over the program headers; `none` is the label bad. -/
def loadSegments (pgdir : Nat) (file : List UInt8) : (count off size : Nat) → VmM (Option Nat)
  | 0, _, size => pure (some size)
  | count + 1, off, size =>
    match readi file off proghdrSize with
    | none => pure none
    | some bytes =>
      if bytes.length ≠ proghdrSize then pure none else
      let ph := readProghdr bytes
      if ph.type ≠ elfProgLoad then
        loadSegments pgdir file count ((off + proghdrSize) % 2 ^ 32) size
      else if ph.memsz < ph.filesz then pure none
      else do
        let grown ← allocuvm pgdir (size % 2 ^ 32) ((ph.vaddr + ph.memsz) % 2 ^ 32)
        if grown = 0 then pure none else
        if ← loaduvm pgdir ph.vaddr file ph.off ph.filesz then
          loadSegments pgdir file count ((off + proghdrSize) % 2 ^ 32) (signExtend grown)
        else pure none

/-- `(sp - (strlen(arg) + 1)) & ~(sizeof(uintp)-1)`. -/
def pushed (sp : Nat) (arg : List UInt8) : Nat :=
  (sp + 2 ^ 64 - (arg.length + 1)) % 2 ^ 64 / 8 * 8

/-- The loop over argv: the stack pointer and the addresses of the strings, or bad. -/
def pushArgs (pgdir : Nat) : (argc sp : Nat) → List (List UInt8) → VmM (Option (Nat × List Nat))
  | _, sp, [] => pure (some (sp, []))
  | argc, sp, arg :: rest =>
    if maxarg ≤ argc then pure none else do
    if ← copyout pgdir (pushed sp arg) (arg ++ [0]) then do
      match ← pushArgs pgdir (argc + 1) (pushed sp arg) rest with
      | some (last, addresses) => pure (some (last, pushed sp arg :: addresses))
      | none => pure none
    else pure none

/-- The bytes of a `uintp`. -/
def wordBytes (value : Nat) : List UInt8 :=
  (List.range 8).map fun i => UInt8.ofNat (value / 256 ^ i)

/-- ustack: a fake return address, argc, argv and the addresses with a null. -/
def ustack (sp : Nat) (addresses : List Nat) : List Nat :=
  [0xffffffff, addresses.length, (sp + 2 ^ 64 - (addresses.length + 1) * 8) % 2 ^ 64] ++
    addresses ++ [0]

/-- The two stack pages, the arguments and ustack. -/
def setupStack (pgdir size : Nat) (argv : List (List UInt8)) : VmM Bool := do
  let grown ← allocuvm pgdir (size % 2 ^ 32) ((size + 2 * pgsize) % 2 ^ 32)
  if grown = 0 then pure false else
  let top := signExtend grown
  clearpteu pgdir (top - 2 * pgsize)
  match ← pushArgs pgdir 0 top argv with
  | none => pure false
  | some (sp, addresses) =>
    let words := ustack sp addresses
    copyout pgdir ((sp + 2 ^ 64 - words.length * 8) % 2 ^ 64) (words.flatMap wordBytes)

/-- From the check of the ELF header on. The result is 0 or -1. -/
def exec (file : List UInt8) (argv : List (List UInt8)) : VmM Int := do
  let header := (readi file 0 elfhdrSize).getD []
  if header.length < elfhdrSize then pure (-1) else
  let elf := readElfhdr header
  if elf.magic ≠ elfMagic then pure (-1) else do
  match ← setupkvm with
  | none => pure (-1)
  | some pgdir => do
    match ← loadSegments pgdir file elf.phnum (elf.phoff % 2 ^ 32) 0 with
    | none => do
      freevm pgdir
      pure (-1)
    | some size => do
      if ← setupStack pgdir (pgroundup size) argv then do
        let oldpgdir ← inspect (·.cr3)
        change fun m => { m with cr3 := pgdir }
        freevm oldpgdir
        pure 0
      else do
        freevm pgdir
        pure (-1)

end Xv6.Exec
