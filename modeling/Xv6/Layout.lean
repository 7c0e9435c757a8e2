import Xv6.BitField

/-! The on-disk format of include/fs.h with the constants of include/param.h.
A block is its 512 bytes read as one little-endian word, so a C field at byte
offset `o` is the bit field at `8 * o`. Machine integers are naturals below the
power of two their C type has; `short` and `int` values keep their raw bits and
are compared as signed where the source does so. -/
namespace Xv6.Layout
open BitField

def bsize : Nat := 512
def ndirect : Nat := 12
def nindirect : Nat := 128
def maxfile : Nat := 140
def dirsiz : Nat := 14
/-- Inodes per block: 512 / sizeof(struct dinode), with a 64-byte dinode. -/
def ipb : Nat := 8
/-- Bitmap bits per block. -/
def bpb : Nat := 4096
def rootino : Nat := 1
def tDir : Nat := 1
def tFile : Nat := 2
def tDev : Nat := 3
def nbuf : Nat := 10
def ninode : Nat := 50
def nfile : Nat := 100
def nofile : Nat := 16
def nproc : Nat := 64
def ndev : Nat := 10
def logsize : Nat := 10
/-- sizeof(struct dirent). -/
def direntSize : Nat := 16

abbrev Block := BitVec 4096

def iblock (inum : Nat) : Nat := inum / ipb + 2

def bblock (b ninodes : Nat) : Nat := b / bpb + ninodes / ipb + 3

def u32 (x : Nat) : Nat := x % 2 ^ 32

structure Superblock where
  size : Nat
  nblocks : Nat
  ninodes : Nat
  nlog : Nat
  deriving DecidableEq

def getSuperblock (block : Block) : Superblock :=
  { size := field block 0 32
    nblocks := field block 32 32
    ninodes := field block 64 32
    nlog := field block 96 32 }

def putSuperblock (block : Block) (sb : Superblock) : Block :=
  setField (setField (setField (setField block 0 32 sb.size) 32 32 sb.nblocks)
    64 32 sb.ninodes) 96 32 sb.nlog

/-- struct dinode. Entry `ndirect` of `addrs` is the indirect block. -/
structure Dinode where
  type : Nat
  major : Nat
  minor : Nat
  nlink : Nat
  size : Nat
  addrs : Nat → Nat

def Dinode.zero : Dinode := ⟨0, 0, 0, 0, 0, fun _ => 0⟩

def setAddr (din : Dinode) (i addr : Nat) : Dinode :=
  { din with addrs := fun j => if j = i then addr else din.addrs j }

/-- The dinode at `(struct dinode*)bp->data + n`. -/
def getDinode (block : Block) (n : Nat) : Dinode :=
  { type := field block (512 * n) 16
    major := field block (512 * n + 16) 16
    minor := field block (512 * n + 32) 16
    nlink := field block (512 * n + 48) 16
    size := field block (512 * n + 64) 32
    addrs := fun j => if j < 13 then field block (512 * n + 96 + 32 * j) 32 else 0 }

def putAddrs (block : Block) (n : Nat) (addrs : Nat → Nat) : Nat → Block
  | 0 => block
  | k + 1 => setField (putAddrs block n addrs k) (512 * n + 96 + 32 * k) 32 (addrs k)

def putDinode (block : Block) (n : Nat) (din : Dinode) : Block :=
  putAddrs
    (setField (setField (setField (setField (setField block
      (512 * n) 16 din.type) (512 * n + 16) 16 din.major) (512 * n + 32) 16 din.minor)
      (512 * n + 48) 16 din.nlink) (512 * n + 64) 32 din.size)
    n din.addrs 13

/-- `bp->data[bi/8] & (1 << bi%8)`: bit `bi` of the little-endian block. -/
def bitSet (block : Block) (bi : Nat) : Bool := field block bi 1 == 1

def markUsed (block : Block) (bi : Nat) : Block := setField block bi 1 1

def markFree (block : Block) (bi : Nat) : Block := setField block bi 1 0

/-- `((uint*)bp->data)[i]`. -/
def getUint (block : Block) (i : Nat) : Nat := field block (32 * i) 32

def putUint (block : Block) (i value : Nat) : Block := setField block (32 * i) 32 value

structure Dirent where
  inum : Nat
  name : List UInt8
  deriving DecidableEq

def encodeDirent (de : Dirent) : List UInt8 :=
  UInt8.ofNat de.inum :: UInt8.ofNat (de.inum / 256) :: de.name

def decodeDirent (bytes : List UInt8) : Dirent :=
  { inum := (bytes.getD 0 0).toNat + 256 * (bytes.getD 1 0).toNat
    name := bytes.drop 2 }

/-- A NUL-terminated string in memory is the bytes before its first NUL. -/
def cstr (bytes : List UInt8) : List UInt8 := bytes.takeWhile (· != 0)

-- Past the end of a list the string functions read the terminating NUL.
def strncmp : List UInt8 → List UInt8 → Nat → Int
  | _, _, 0 => 0
  | p, q, n + 1 =>
    if p.headD 0 ≠ 0 ∧ p.headD 0 = q.headD 0 then strncmp p.tail q.tail n
    else (p.headD 0).toNat - (q.headD 0).toNat

def strncpy : List UInt8 → Nat → List UInt8
  | _, 0 => []
  | t, n + 1 =>
    if t.headD 0 = 0 then List.replicate (n + 1) 0 else t.headD 0 :: strncpy t.tail n

def namecmp (s t : List UInt8) : Int := strncmp s t dirsiz

def slash : UInt8 := 47
def dot : List UInt8 := [46]
def dotdot : List UInt8 := [46, 46]

end Xv6.Layout
