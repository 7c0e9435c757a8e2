import Xv6.Layout
import Xv6.RedoLog
import Xv6.TraceMonad

/-! kernel/bio.c over the disk of kernel/ide.c, and kernel/log.c. All calls name
the one file-system device ROOTDEV, so a buffer is identified by its sector
while it is held. The list order is the MRU list from head.next to head.prev.
A call that would sleep for something only its own process could release never
returns; with one system call active at a time that is the halt `asleep`. -/
namespace Xv6.Bio
open TraceMonad Layout BitField RedoLog

inductive Halt where
  | asleep
  | bgetNoBuffers
  | bwrite
  | brelse
  | iderwNotBusy
  | iderwNothingToDo
  | tooBigTransaction
  | writeOutsideOfTrans
  | ballocOutOfBlocks
  | freeingFreeBlock
  | iallocNoInodes
  | igetNoInodes
  | ilock
  | ilockNoType
  | iunlock
  | iputBusy
  | bmapOutOfRange
  | dirlookupNotDir
  | dirlinkRead
  | dirlink
  | isdiremptyReadi
  | unlinkNlink
  | unlinkWritei
  | createDots
  | createDirlink
  | filedup
  | fileclose
  | fileread
  | filewrite
  | shortFilewrite
  | initExiting
  deriving DecidableEq

/-- The text the kernel prints; a sleeping call prints none. -/
def Halt.text : Halt → Option String
  | .asleep => none
  | .bgetNoBuffers => some "bget: no buffers"
  | .bwrite => some "bwrite"
  | .brelse => some "brelse"
  | .iderwNotBusy => some "iderw: buf not busy"
  | .iderwNothingToDo => some "iderw: nothing to do"
  | .tooBigTransaction => some "too big a transaction"
  | .writeOutsideOfTrans => some "write outside of trans"
  | .ballocOutOfBlocks => some "balloc: out of blocks"
  | .freeingFreeBlock => some "freeing free block"
  | .iallocNoInodes => some "ialloc: no inodes"
  | .igetNoInodes => some "iget: no inodes"
  | .ilock => some "ilock"
  | .ilockNoType => some "ilock: no type"
  | .iunlock => some "iunlock"
  | .iputBusy => some "iput busy"
  | .bmapOutOfRange => some "bmap: out of range"
  | .dirlookupNotDir => some "dirlookup not DIR"
  | .dirlinkRead => some "dirlink read"
  | .dirlink => some "dirlink"
  | .isdiremptyReadi => some "isdirempty: readi"
  | .unlinkNlink => some "unlink: nlink < 1"
  | .unlinkWritei => some "unlink: writei"
  | .createDots => some "create dots"
  | .createDirlink => some "create: dirlink"
  | .filedup => some "filedup"
  | .fileclose => some "fileclose"
  | .fileread => some "fileread"
  | .filewrite => some "filewrite"
  | .shortFilewrite => some "short filewrite"
  | .initExiting => some "init exiting"

/-- What a run reports: a sector reaching the disk, a `log_write` entered with
`log.lh.n = n`, a block chosen by `balloc` together with whether the data area
still had a free block when the call started, and a working directory given up
by chdir or exit together with whether that was the last reference to an
unlinked inode. -/
inductive Event where
  | write (sector : Nat) (data : Block)
  | logged (n : Nat)
  | alloc (b : Nat) (dataFree : Bool)
  | cwdDrop (last : Bool)

/-- struct buf. `sector = none` is the dev -1 that binit leaves in every buffer. -/
structure Buf where
  sector : Option Nat
  busy : Bool
  valid : Bool
  dirty : Bool
  data : Block
  deriving DecidableEq

/-- struct log; `lh` lists `sector[0..n)` of the in-memory header. -/
structure Log where
  start : Nat
  size : Nat
  busy : Bool
  lh : List Nat

structure Dev where
  disk : Nat → Block
  bcache : List Buf
  log : Log

abbrev DevM (α : Type) := Action Dev Event Halt α

def binit : List Buf := List.replicate nbuf ⟨none, false, false, false, 0⟩

def lookupBuf (bcache : List Buf) (sector : Nat) : Option Buf :=
  bcache.find? (fun b => b.sector == some sector)

def updateBuf (bcache : List Buf) (sector : Nat) (f : Buf → Buf) : List Buf :=
  bcache.map fun b => if b.sector == some sector then f b else b

/-- Take the buffer nearest head.prev that is neither busy nor dirty. -/
def recycle (sector : Nat) : List Buf → Option (List Buf)
  | [] => none
  | b :: rest =>
    match recycle sector rest with
    | some rest' => some (b :: rest')
    | none =>
      if b.busy || b.dirty then none
      else some (⟨some sector, true, false, false, b.data⟩ :: rest)

/-- What bread would return: the cached copy, else the sector itself. -/
def content (s : Dev) (sector : Nat) : Block :=
  match lookupBuf s.bcache sector with
  | some b => if b.valid then b.data else s.disk sector
  | none => s.disk sector

def setBuf (sector : Nat) (f : Buf → Buf) : DevM Unit :=
  change fun s => { s with bcache := updateBuf s.bcache sector f }

def bget (sector : Nat) : DevM Unit := do
  let bcache ← inspect Dev.bcache
  match lookupBuf bcache sector with
  | some b =>
    if b.busy then halt .asleep
    else setBuf sector fun b => { b with busy := true }
  | none =>
    match recycle sector bcache with
    | some bcache' => change fun s => { s with bcache := bcache' }
    | none => halt .bgetNoBuffers

def getBuf (sector : Nat) : DevM Buf := do
  let bcache ← inspect Dev.bcache
  return (lookupBuf bcache sector).getD ⟨none, false, false, false, 0⟩

def iderw (sector : Nat) : DevM Unit := do
  let b ← getBuf sector
  if !b.busy then halt .iderwNotBusy
  else if b.valid && !b.dirty then halt .iderwNothingToDo
  else if b.dirty then do
    emit (.write sector b.data)
    change fun s => { s with disk := store s.disk sector b.data }
    setBuf sector fun b => { b with dirty := false, valid := true }
  else do
    let disk ← inspect Dev.disk
    setBuf sector fun b => { b with data := disk sector, valid := true }

/-- Returns the buffer's contents; the caller holds the buffer until brelse. -/
def bread (sector : Nat) : DevM Block := do
  bget sector
  let b ← getBuf sector
  whenever (b.valid = false) (iderw sector)
  let b ← getBuf sector
  return b.data

/-- The holder's assignment to b->data. -/
def bmodify (sector : Nat) (data : Block) : DevM Unit :=
  setBuf sector fun b => { b with data := data }

def bwrite (sector : Nat) : DevM Unit := do
  let b ← getBuf sector
  if !b.busy then halt .bwrite
  else do
    setBuf sector fun b => { b with dirty := true }
    iderw sector

def toFront (bcache : List Buf) (sector : Nat) : List Buf :=
  match lookupBuf bcache sector with
  | some b => { b with busy := false } :: bcache.filter (fun b => b.sector != some sector)
  | none => bcache

def brelse (sector : Nat) : DevM Unit := do
  let b ← getBuf sector
  if !b.busy then halt .brelse
  else change fun s => { s with bcache := toFront s.bcache sector }

/-! The redo log of kernel/log.c. -/

/-- The header block: n, then sector[0..n). Entries past n keep their bytes. -/
def putHeader (block : Block) (lh : List Nat) : Block :=
  (lh.zipIdx 1).foldl (fun b entry => putUint b entry.2 entry.1) (putUint block 0 lh.length)

/-- `n` is a C int: a negative count makes both of the source's loops empty. -/
def getHeader (block : Block) : List Nat :=
  if getUint block 0 < 2 ^ 31 then
    (List.range (getUint block 0)).map fun i => getUint block (i + 1)
  else []

def copyLog (start : Nat) : List (Nat × Nat) → DevM Unit
  | [] => return ()
  | (sector, tail) :: rest => do
    let data ← bread (start + tail + 1)
    let _ ← bread sector
    bmodify sector data
    bwrite sector
    brelse (start + tail + 1)
    brelse sector
    copyLog start rest

def installTrans : DevM Unit := do
  let log ← inspect Dev.log
  copyLog log.start log.lh.zipIdx

def setLh (lh : List Nat) : DevM Unit :=
  change fun s => { s with log := { s.log with lh := lh } }

def readHead : DevM Unit := do
  let log ← inspect Dev.log
  let data ← bread log.start
  setLh (getHeader data)
  brelse log.start

def writeHead : DevM Unit := do
  let log ← inspect Dev.log
  let data ← bread log.start
  bmodify log.start (putHeader data log.lh)
  bwrite log.start
  brelse log.start

def recoverFromLog : DevM Unit := do
  readHead
  installTrans
  setLh []
  writeHead

def setBusy (busy : Bool) : DevM Unit :=
  change fun s => { s with log := { s.log with busy := busy } }

def beginTrans : DevM Unit := do
  let log ← inspect Dev.log
  if log.busy then halt .asleep else setBusy true

def commitTrans : DevM Unit := do
  let log ← inspect Dev.log
  whenever (log.lh.length > 0) do
    writeHead
    installTrans
    setLh []
    writeHead
  setBusy false

/-- The slot absorbing `sector`, or the next free one. -/
def logSlot (lh : List Nat) (sector : Nat) : Nat := lh.idxOf sector

def logWrite (sector : Nat) : DevM Unit := do
  let log ← inspect Dev.log
  if log.lh.length ≥ logsize ∨ log.lh.length + 1 ≥ log.size then halt .tooBigTransaction
  else if !log.busy then halt .writeOutsideOfTrans
  else do
    emit (.logged log.lh.length)
    let i := logSlot log.lh sector
    let b ← getBuf sector
    let _ ← bread (log.start + i + 1)
    bmodify (log.start + i + 1) b.data
    bwrite (log.start + i + 1)
    brelse (log.start + i + 1)
    whenever (i = log.lh.length) (setLh (log.lh ++ [sector]))
    setBuf sector fun b => { b with dirty := true }

/-- The idiom of every caller: modify b->data, then log_write(b). -/
def logModify (sector : Nat) (data : Block) : DevM Unit := do
  bmodify sector data
  logWrite sector

def readsb : DevM Superblock := do
  let data ← bread 1
  brelse 1
  return getSuperblock data

def initlog : DevM Unit := do
  let sb ← readsb
  change fun s => { s with log := { s.log with start := u32 (sb.size + 2 ^ 32 - sb.nlog), size := sb.nlog } }
  recoverFromLog

end Xv6.Bio
