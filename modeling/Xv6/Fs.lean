import Xv6.Bio

/-! kernel/fs.c: the block allocator, inodes, inode contents, directories and
path names, followed by the directory operations of kernel/sysfile.c that need
no descriptor table. A pointer to a cached inode is its index in
icache.inode[]. Loops of the source that walk offsets are recursions over the
number of iterations left. -/
namespace Xv6.Fs
open TraceMonad Layout BitField Bio

/-! Blocks. -/

def bzero (bno : Nat) : DevM Unit := do
  let _ ← bread bno
  logModify bno 0
  brelse bno

/-- First data block: mkfs's initial `usedblocks`. -/
def dataStart (sb : Superblock) : Nat := sb.ninodes / ipb + 3 + sb.size / bpb + 1

/-- First block of the log. -/
def logStart (sb : Superblock) : Nat := sb.size - sb.nlog

def usedIn (blocks : Nat → Block) (sb : Superblock) (b : Nat) : Bool :=
  bitSet (blocks (bblock b sb.ninodes)) (b % bpb)

/-- Some block of the data area is free. -/
def dataFree (blocks : Nat → Block) (sb : Superblock) : Bool :=
  (List.range' (dataStart sb) (logStart sb - dataStart sb)).any fun b => !usedIn blocks sb b

def ballocScan (sb : Superblock) (before : Bool) : List Nat → DevM Nat
  | [] => halt .ballocOutOfBlocks
  | b :: rest => do
    let data ← bread (bblock b sb.ninodes)
    match (List.range (min bpb (sb.size - b))).find? (fun bi => !bitSet data bi) with
    | some bi => do
      emit (.alloc (b + bi) before)
      logModify (bblock b sb.ninodes) (markUsed data bi)
      brelse (bblock b sb.ninodes)
      bzero (b + bi)
      return b + bi
    | none => do
      brelse (bblock b sb.ninodes)
      ballocScan sb before rest

def balloc : DevM Nat := do
  let entry ← inspect id
  let sb ← readsb
  ballocScan sb (dataFree (content entry) sb)
    ((List.range ((sb.size + bpb - 1) / bpb)).map (· * bpb))

def bfree (b : Nat) : DevM Unit := do
  let sb ← readsb
  let data ← bread (bblock b sb.ninodes)
  if !bitSet data (b % bpb) then halt .freeingFreeBlock
  else do
    logModify (bblock b sb.ninodes) (markFree data (b % bpb))
    brelse (bblock b sb.ninodes)

/-! Inodes. -/

/-- struct inode; `din` holds the copy of the disk inode. -/
structure Inode where
  inum : Nat
  ref : Nat
  busy : Bool
  valid : Bool
  din : Dinode

/-- `console n` is what devsw[CONSOLE].read returns for n bytes: none is -1. -/
structure State where
  dev : Dev
  icache : Nat → Inode
  console : Nat → Option (List UInt8)

abbrev FsM (α : Type) := Action State Event Halt α

def onDev {α : Type} (action : DevM α) : FsM α :=
  within State.dev (fun s dev => { s with dev := dev }) action

def getInode (ip : Nat) : FsM Inode := inspect fun s => s.icache ip

def setInode (ip : Nat) (f : Inode → Inode) : FsM Unit :=
  change fun s => { s with icache := fun k => if k = ip then f (s.icache k) else s.icache k }

def setDin (ip : Nat) (f : Dinode → Dinode) : FsM Unit :=
  setInode ip fun i => { i with din := f i.din }

def iget (inum : Nat) : FsM Nat := do
  let icache ← inspect State.icache
  match (List.range ninode).find? (fun k => 0 < (icache k).ref ∧ (icache k).inum = inum) with
  | some ip => do
    setInode ip fun i => { i with ref := i.ref + 1 }
    return ip
  | none =>
    match (List.range ninode).find? (fun k => (icache k).ref = 0) with
    | some ip => do
      setInode ip fun i => { i with inum := inum, ref := 1, busy := false, valid := false }
      return ip
    | none => halt .igetNoInodes

def iallocScan (type : Nat) : List Nat → FsM Nat
  | [] => halt .iallocNoInodes
  | inum :: rest => do
    let data ← onDev (bread (iblock inum))
    if (getDinode data (inum % ipb)).type = 0 then do
      onDev (logModify (iblock inum)
        (putDinode data (inum % ipb) { Dinode.zero with type := type }))
      onDev (brelse (iblock inum))
      iget inum
    else do
      onDev (brelse (iblock inum))
      iallocScan type rest

def ialloc (type : Nat) : FsM Nat := do
  let sb ← onDev readsb
  iallocScan type (List.range' 1 (sb.ninodes - 1))

def iupdate (ip : Nat) : FsM Unit := do
  let i ← getInode ip
  let data ← onDev (bread (iblock i.inum))
  onDev (logModify (iblock i.inum) (putDinode data (i.inum % ipb) i.din))
  onDev (brelse (iblock i.inum))

def idup (ip : Nat) : FsM Nat := do
  setInode ip fun i => { i with ref := i.ref + 1 }
  return ip

def ilock (ip : Nat) : FsM Unit := do
  let i ← getInode ip
  if i.ref < 1 then halt .ilock
  else if i.busy then halt .asleep
  else do
    setInode ip fun i => { i with busy := true }
    whenever (i.valid = false) do
      let data ← onDev (bread (iblock i.inum))
      onDev (brelse (iblock i.inum))
      setInode ip fun i => { i with valid := true, din := getDinode data (i.inum % ipb) }
      whenever ((getDinode data (i.inum % ipb)).type = 0) (halt .ilockNoType)

def iunlock (ip : Nat) : FsM Unit := do
  let i ← getInode ip
  if !i.busy ∨ i.ref < 1 then halt .iunlock
  else setInode ip fun i => { i with busy := false }

/-! Inode content. -/

/-- ip->addrs[k], allocated where it is zero. -/
def bmapAddr (ip k : Nat) : FsM Nat := do
  let i ← getInode ip
  if i.din.addrs k = 0 then do
    let addr ← onDev balloc
    setDin ip fun d => setAddr d k addr
    return addr
  else return i.din.addrs k

/-- Entry `k` of the indirect block `ind` read as `data`, allocated where it is zero. -/
def bmapEntry (ind : Nat) (data : Block) (k : Nat) : DevM Nat :=
  if getUint data k = 0 then do
    let addr ← balloc
    logModify ind (putUint data k addr)
    return addr
  else return getUint data k

def bmap (ip bn : Nat) : FsM Nat :=
  if bn < ndirect then bmapAddr ip bn
  else if bn - ndirect < nindirect then do
    let ind ← bmapAddr ip ndirect
    let data ← onDev (bread ind)
    let addr ← onDev (bmapEntry ind data (bn - ndirect))
    onDev (brelse ind)
    return addr
  else halt .bmapOutOfRange

def freeDirect (ip : Nat) : List Nat → FsM Unit
  | [] => return ()
  | i :: rest => do
    let node ← getInode ip
    whenever (node.din.addrs i ≠ 0) do
      onDev (bfree (node.din.addrs i))
      setDin ip fun d => setAddr d i 0
    freeDirect ip rest

def freeIndirect (data : Block) : List Nat → FsM Unit
  | [] => return ()
  | j :: rest => do
    whenever (getUint data j ≠ 0) (onDev (bfree (getUint data j)))
    freeIndirect data rest

def itrunc (ip : Nat) : FsM Unit := do
  freeDirect ip (List.range ndirect)
  let node ← getInode ip
  whenever (node.din.addrs ndirect ≠ 0) do
    let data ← onDev (bread (node.din.addrs ndirect))
    freeIndirect data (List.range nindirect)
    onDev (brelse (node.din.addrs ndirect))
    onDev (bfree (node.din.addrs ndirect))
    setDin ip fun d => setAddr d ndirect 0
  setDin ip fun d => { d with size := 0 }
  iupdate ip

/-- "inode has no links: truncate and free inode." -/
def ifree (ip : Nat) : FsM Unit := do
  setInode ip fun i => { i with busy := true }
  itrunc ip
  setDin ip fun d => { d with type := 0 }
  iupdate ip
  setInode ip fun i => { i with busy := false, valid := false }

/-- iput is about to free the inode. -/
def Inode.lastUnlinked (i : Inode) : Bool := i.ref == 1 && i.valid && i.din.nlink == 0

def iput (ip : Nat) : FsM Unit := do
  let i ← getInode ip
  whenever (i.lastUnlinked = true) do
    if i.busy then halt .iputBusy else ifree ip
  setInode ip fun i => { i with ref := i.ref - 1 }

def iunlockput (ip : Nat) : FsM Unit := do
  iunlock ip
  iput ip

/-- The device switch holds the console only; `major` is a C short. -/
def hasDevice (major : Nat) : Bool := major < ndev && major == 1

def readiLoop (ip : Nat) : Nat → Nat → Nat → FsM (List UInt8)
  | 0, _, _ => return []
  | fuel + 1, off, left =>
    if left = 0 then return []
    else do
      let addr ← bmap ip (off / bsize)
      let data ← onDev (bread addr)
      let m := min left (bsize - off % bsize)
      onDev (brelse addr)
      let later ← readiLoop ip fuel (off + m) (left - m)
      return getBytes data (off % bsize) m ++ later

/-- The bytes stored at dst, whose number the source returns; none is -1. -/
def readi (ip off n : Nat) : FsM (Option (List UInt8)) := do
  let i ← getInode ip
  if i.din.type = tDev then
    if hasDevice i.din.major then inspect fun s => s.console n
    else return none
  else if off > i.din.size ∨ u32 (off + n) < off then return none
  else do
    let n := if u32 (off + n) > i.din.size then i.din.size - off else n
    let bytes ← readiLoop ip n off n
    return some bytes

def writeiLoop (ip : Nat) : Nat → Nat → List UInt8 → FsM Unit
  | 0, _, _ => return ()
  | fuel + 1, off, src =>
    if src.length = 0 then return ()
    else do
      let addr ← bmap ip (off / bsize)
      let data ← onDev (bread addr)
      let m := min src.length (bsize - off % bsize)
      onDev (logModify addr (setBytes data (off % bsize) (src.take m)))
      onDev (brelse addr)
      writeiLoop ip fuel (off + m) (src.drop m)

/-- `src` holds the n bytes to write; none is -1. -/
def writei (ip : Nat) (src : List UInt8) (off : Nat) : FsM (Option Nat) := do
  let i ← getInode ip
  if i.din.type = tDev then
    return if hasDevice i.din.major then some src.length else none
  else if off > i.din.size ∨ u32 (off + src.length) < off then return none
  else if u32 (off + src.length) > maxfile * bsize then return none
  else do
    writeiLoop ip src.length off src
    whenever (0 < src.length ∧ off + src.length > i.din.size) do
      setDin ip fun d => { d with size := off + src.length }
      iupdate ip
    return some src.length

/-! Directories. -/

def readDirent (dp off : Nat) (failed : Halt) : FsM Dirent := do
  match ← readi dp off direntSize with
  | some bytes => if bytes.length = direntSize then return decodeDirent bytes else halt failed
  | none => halt failed

/-- Both loops of the directory code: the first slot at or after `off` whose
entry satisfies `wanted`. -/
def scanDir (dp : Nat) (failed : Halt) (wanted : Dirent → Bool) :
    Nat → Nat → FsM (Option (Nat × Dirent))
  | 0, _ => return none
  | fuel + 1, off => do
    let i ← getInode dp
    if off < i.din.size then do
      let de ← readDirent dp off failed
      if wanted de then return some (off, de)
      else scanDir dp failed wanted fuel (off + direntSize)
    else return none

def slots (size : Nat) : Nat := (size + 15) / 16

def dirlookup (dp : Nat) (name : List UInt8) : FsM (Option (Nat × Nat)) := do
  let i ← getInode dp
  if i.din.type ≠ tDir then halt .dirlookupNotDir
  else
    match ← scanDir dp .dirlinkRead
        (fun de => de.inum != 0 && namecmp name de.name == 0) (slots i.din.size) 0 with
    | some (off, de) => do
      let ip ← iget de.inum
      return some (ip, off)
    | none => return none

/-- false is -1: the name is present. -/
def dirlink (dp : Nat) (name : List UInt8) (inum : Nat) : FsM Bool := do
  match ← dirlookup dp name with
  | some (ip, _) => do
    iput ip
    return false
  | none => do
    let i ← getInode dp
    let found ← scanDir dp .dirlinkRead (fun de => de.inum == 0) (slots i.din.size) 0
    let off := match found with
      | some (off, _) => off
      | none => direntSize * slots i.din.size
    let wrote ← writei dp (encodeDirent ⟨inum, strncpy name dirsiz⟩) off
    if wrote = some direntSize then return true else halt .dirlink

/-! Paths. -/

/-- The next path element, cut to DIRSIZ bytes, and the path after it. -/
def skipelem (path : List UInt8) : Option (List UInt8 × List UInt8) :=
  let s := path.dropWhile (· == slash)
  if s.isEmpty then none
  else some ((s.takeWhile (· != slash)).take dirsiz,
    (s.dropWhile (· != slash)).dropWhile (· == slash))

/-- Each element consumes at least one byte, so the path's length is enough fuel. -/
def namexLoop (nameiparent : Bool) :
    Nat → Nat → List UInt8 → List UInt8 → FsM (Option (Nat × List UInt8))
  | 0, _, _, _ => return none
  | fuel + 1, ip, path, name =>
    match skipelem path with
    | none =>
      if nameiparent then do
        iput ip
        return none
      else return some (ip, name)
    | some (name, path) => do
      ilock ip
      let i ← getInode ip
      if i.din.type ≠ tDir then do
        iunlockput ip
        return none
      else if nameiparent ∧ path.isEmpty then do
        iunlock ip
        return some (ip, name)
      else
        match ← dirlookup ip name with
        | none => do
          iunlockput ip
          return none
        | some (next, _) => do
          iunlockput ip
          namexLoop nameiparent fuel next path name

/-- Where a path starts: at the root or at the process's cwd. -/
def namexStart (cwd : Nat) (path : List UInt8) : FsM Nat :=
  if path.head? = some slash then iget rootino else idup cwd

def namex (cwd : Nat) (path : List UInt8) (nameiparent : Bool) :
    FsM (Option (Nat × List UInt8)) := do
  let ip ← namexStart cwd path
  namexLoop nameiparent (path.length + 1) ip path []

def namei (cwd : Nat) (path : List UInt8) : FsM (Option Nat) := do
  match ← namex cwd path false with
  | some (ip, _) => return some ip
  | none => return none

def nameiparent (cwd : Nat) (path : List UInt8) : FsM (Option (Nat × List UInt8)) :=
  namex cwd path true

/-! The directory operations of kernel/sysfile.c. -/

def setNlink (ip : Nat) (f : Nat → Nat) : FsM Unit :=
  setDin ip fun d => { d with nlink := f d.nlink }

/-- `nlink++` and `nlink--` on a C short. -/
def incr (nlink : Nat) : Nat := (nlink + 1) % 2 ^ 16
def decr (nlink : Nat) : Nat := (nlink + (2 ^ 16 - 1)) % 2 ^ 16

/-- `nlink < 1` on a C short. -/
def belowOne (nlink : Nat) : Bool := nlink == 0 || 2 ^ 15 ≤ nlink

def isdiremptyScan (dp : Nat) (size : Nat) : FsM Bool := do
  match ← scanDir dp .isdiremptyReadi (fun de => de.inum != 0)
      (slots size - 2) (2 * direntSize) with
  | some _ => return false
  | none => return true

def isdirempty (dp : Nat) : FsM Bool := do
  let i ← getInode dp
  isdiremptyScan dp i.din.size

def linkBad (ip : Nat) : FsM Int := do
  ilock ip
  setNlink ip decr
  iupdate ip
  iunlockput ip
  onDev commitTrans
  return -1

def sysLink (cwd : Nat) (old new : List UInt8) : FsM Int := do
  match ← namei cwd old with
  | none => return -1
  | some ip => do
    onDev beginTrans
    ilock ip
    let i ← getInode ip
    if i.din.type = tDir then do
      iunlockput ip
      onDev commitTrans
      return -1
    else do
      setNlink ip incr
      iupdate ip
      iunlock ip
      match ← nameiparent cwd new with
      | none => linkBad ip
      | some (dp, name) => do
        ilock dp
        -- dp->dev != ip->dev cannot hold: there is one device.
        if ← dirlink dp name i.inum then do
          iunlockput dp
          iput ip
          onDev commitTrans
          return 0
        else do
          iunlockput dp
          linkBad ip

def unlinkBad (dp : Nat) : FsM Int := do
  iunlockput dp
  onDev commitTrans
  return -1

/-- Whether the inode is a directory with entries of its own. -/
def inUse (ip : Nat) : FsM Bool := do
  let i ← getInode ip
  if i.din.type = tDir then do
    let empty ← isdirempty ip
    return !empty
  else return false

def unlinkEntry (dp ip off : Nat) : FsM Int := do
  ilock ip
  let i ← getInode ip
  if belowOne i.din.nlink then halt .unlinkNlink
  else if ← inUse ip then do
    iunlockput ip
    unlinkBad dp
  else do
    let wrote ← writei dp (List.replicate direntSize 0) off
    whenever (wrote ≠ some direntSize) (halt .unlinkWritei)
    whenever (i.din.type = tDir) do
      setNlink dp decr
      iupdate dp
    iunlockput dp
    setNlink ip decr
    iupdate ip
    iunlockput ip
    onDev commitTrans
    return 0

def sysUnlink (cwd : Nat) (path : List UInt8) : FsM Int := do
  match ← nameiparent cwd path with
  | none => return -1
  | some (dp, name) => do
    onDev beginTrans
    ilock dp
    if namecmp name dot = 0 ∨ namecmp name dotdot = 0 then unlinkBad dp
    else
      match ← dirlookup dp name with
      | none => unlinkBad dp
      | some (ip, off) => unlinkEntry dp ip off

/-- "Create . and .. entries." -/
def createDots (dp ip : Nat) : FsM Unit := do
  setNlink dp incr
  iupdate dp
  let i ← getInode ip
  let d ← getInode dp
  if ← dirlink ip dot i.inum then do
    let linked ← dirlink ip dotdot d.inum
    whenever (linked = false) (halt .createDots)
  else halt .createDots

/-- The part of create after dirlookup has found no entry. -/
def createNew (dp : Nat) (name : List UInt8) (type major minor : Nat) : FsM Nat := do
  let ip ← ialloc type
  ilock ip
  setDin ip fun d => { d with major := major, minor := minor, nlink := 1 }
  iupdate ip
  whenever (type = tDir) (createDots dp ip)
  let i ← getInode ip
  let linked ← dirlink dp name i.inum
  whenever (linked = false) (halt .createDirlink)
  iunlockput dp
  return ip

def create (cwd : Nat) (path : List UInt8) (type major minor : Nat) : FsM (Option Nat) := do
  match ← nameiparent cwd path with
  | none => return none
  | some (dp, name) => do
    ilock dp
    match ← dirlookup dp name with
    | some (ip, _) => do
      iunlockput dp
      ilock ip
      let i ← getInode ip
      if type = tFile ∧ i.din.type = tFile then return some ip
      else do
        iunlockput ip
        return none
    | none => do
      let ip ← createNew dp name type major minor
      return some ip

/-- sys_mkdir and sys_mknod after their arguments are fetched. -/
def makeNode (cwd : Nat) (path : List UInt8) (type major minor : Nat) : FsM Int := do
  onDev beginTrans
  match ← create cwd path type major minor with
  | none => do
    onDev commitTrans
    return -1
  | some ip => do
    iunlockput ip
    onDev commitTrans
    return 0

def sysMkdir (cwd : Nat) (path : List UInt8) : FsM Int := makeNode cwd path tDir 0 0

def sysMknod (cwd : Nat) (path : List UInt8) (major minor : Nat) : FsM Int :=
  makeNode cwd path tDev (major % 2 ^ 16) (minor % 2 ^ 16)

end Xv6.Fs
