import Xv6.Syscall

/-! tools/mkfs.c, and the kernel's way from the image it writes to the first
system call. `main` is none where an assert of the source fails. The globals
nblocks, nlog, ninodes and size are parameters; `stock` has their values. -/
namespace Xv6.Mkfs
open TraceMonad RedoLog Layout BitField Bio Fs Syscall

structure Params where
  nblocks : Nat
  nlog : Nat
  ninodes : Nat
  size : Nat

def stock : Params := ⟨985, logsize, 200, 1024⟩

def superblock (params : Params) : Superblock :=
  ⟨params.size, params.nblocks, params.ninodes, params.nlog⟩

structure Image where
  sect : Nat → Block
  freeblock : Nat
  usedblocks : Nat
  freeinode : Nat

def wsect (image : Image) (sec : Nat) (data : Block) : Image :=
  { image with sect := store image.sect sec data }

def winode (image : Image) (inum : Nat) (din : Dinode) : Image :=
  wsect image (iblock inum) (putDinode (image.sect (iblock inum)) (inum % ipb) din)

def rinode (image : Image) (inum : Nat) : Dinode :=
  getDinode (image.sect (iblock inum)) (inum % ipb)

def ialloc (image : Image) (type : Nat) : Nat × Image :=
  (image.freeinode,
    winode { image with freeinode := image.freeinode + 1 } image.freeinode
      { Dinode.zero with type := type, nlink := 1 })

/-- `freeblock++` together with `usedblocks++`. -/
def takeBlock (image : Image) : Image :=
  { image with freeblock := image.freeblock + 1, usedblocks := image.usedblocks + 1 }

/-- The block for index `fbn` of the file, allocated where there is none. -/
def blockFor (image : Image) (din : Dinode) (fbn : Nat) : Image × Dinode × Nat :=
  if fbn < ndirect then
    if din.addrs fbn = 0 then
      (takeBlock image, setAddr din fbn image.freeblock, image.freeblock)
    else (image, din, din.addrs fbn)
  else
    let (image, din) :=
      if din.addrs ndirect = 0 then (takeBlock image, setAddr din ndirect image.freeblock)
      else (image, din)
    let indirect := image.sect (din.addrs ndirect)
    if getUint indirect (fbn - ndirect) = 0 then
      (wsect (takeBlock image) (din.addrs ndirect)
        (putUint indirect (fbn - ndirect) image.freeblock), din, image.freeblock)
    else (image, din, getUint indirect (fbn - ndirect))

def iappendLoop : Nat → Image → Dinode → Nat → List UInt8 → Option (Image × Dinode × Nat)
  | 0, image, din, off, _ => some (image, din, off)
  | fuel + 1, image, din, off, p =>
    if p.length = 0 then some (image, din, off)
    else
      let fbn := off / 512
      if maxfile ≤ fbn then none
      else
        let (image, din, x) := blockFor image din fbn
        let n1 := min p.length ((fbn + 1) * 512 - off)
        iappendLoop fuel
          (wsect image x (setBytes (image.sect x) (off - fbn * 512) (p.take n1)))
          din (off + n1) (p.drop n1)

def iappend (image : Image) (inum : Nat) (p : List UInt8) : Option Image := do
  let din := rinode image inum
  let (image, din, off) ← iappendLoop p.length image din din.size p
  return winode image inum { din with size := off }

/-- The reads of a file's bytes, 512 at a time. -/
def chunks : Nat → List UInt8 → List (List UInt8)
  | 0, _ => []
  | fuel + 1, data =>
    if data.length = 0 then [] else data.take 512 :: chunks fuel (data.drop 512)

def appendAll (inum : Nat) : List (List UInt8) → Image → Option Image
  | [], image => some image
  | chunk :: rest, image => do
    let image ← iappend image inum chunk
    appendAll inum rest image

/-- The argument with a leading "fs/" removed. -/
def stripped (arg : List UInt8) : List UInt8 :=
  if arg.take 3 = [102, 115, 47] then arg.drop 3 else arg

def addFile (image : Image) (arg data : List UInt8) : Option Image := do
  let name := stripped arg
  if slash ∈ name then none
  else do
    let (inum, image) := ialloc image tFile
    let image ← iappend image rootino (encodeDirent ⟨inum, strncpy name dirsiz⟩)
    appendAll inum (chunks data.length data) image

def addFiles : List (List UInt8 × List UInt8) → Image → Option Image
  | [], image => some image
  | (arg, data) :: rest, image => do
    let image ← addFile image arg data
    addFiles rest image

def usedBits : Nat → Block
  | 0 => 0
  | n + 1 => markUsed (usedBits n) n

def balloc (params : Params) (image : Image) : Option Image :=
  if image.usedblocks < 512 * 8 then
    some (wsect image (params.ninodes / ipb + 3) (usedBits image.usedblocks))
  else none

/-- "fix size of root inode dir". -/
def fixRoot (image : Image) : Image :=
  let din := rinode image rootino
  winode image rootino { din with size := (din.size / bsize + 1) * bsize }

def emptyImage (params : Params) : Image :=
  { sect := store (fun _ => 0) 1 (putSuperblock 0 (superblock params))
    freeblock := dataStart (superblock params)
    usedblocks := dataStart (superblock params)
    freeinode := 1 }

def main (params : Params) (files : List (List UInt8 × List UInt8)) : Option Image :=
  if params.nblocks + dataStart (superblock params) + params.nlog ≠ params.size then none
  else do
    let (root, image) := ialloc (emptyImage params) tDir
    let image ← iappend image root (encodeDirent ⟨root, strncpy dot dirsiz⟩)
    let image ← iappend image root (encodeDirent ⟨root, strncpy dotdot dirsiz⟩)
    let image ← addFiles files image
    balloc params (fixRoot image)

/-! Booting from an image. -/

/-- Memory as the boot loader leaves it: all tables zero, the cache after binit. -/
def powerOn (disk : Nat → Block) : Kernel :=
  { fs :=
      { dev := { disk := disk, bcache := binit, log := ⟨0, 0, false, []⟩ }
        icache := fun _ => ⟨0, 0, false, false, Dinode.zero⟩
        console := fun _ => none }
    ftable := fun _ => ⟨.none, 0, false, false, 0, 0⟩
    proc := fun _ => ⟨.unused, initproc, fun _ => none, none⟩ }

/-- userinit's lookup of "/" and the first forkret's initlog. -/
def boot : KernelM Unit := do
  let ip ← onFs (namei 0 [slash])
  setProc initproc fun q => { q with state := .runnable, cwd := ip }
  onFs (onDev initlog)

end Xv6.Mkfs
