import Xv6.Fs

/-! Open files (kernel/file.c), descriptors and system calls (kernel/sysfile.c)
and the file side of fork, exit and wait (kernel/proc.c). One `Call` runs at a
time; `Run` interleaves the calls of any processes in any order. Pipes are not
part of this model, so a struct file is FD_NONE or FD_INODE. Fetching arguments
from user memory is modelled as having succeeded. -/
namespace Xv6.Syscall
open TraceMonad Layout Bio Fs

inductive FdType where
  | none
  | inode
  deriving DecidableEq

structure File where
  type : FdType
  ref : Nat
  readable : Bool
  writable : Bool
  ip : Nat
  off : Nat

/-- The states a process can be in between two system calls. -/
inductive ProcState where
  | unused
  | runnable
  | zombie
  deriving DecidableEq

structure Proc where
  state : ProcState
  parent : Nat
  ofile : Nat → Option Nat
  cwd : Option Nat

structure Kernel where
  fs : State
  ftable : Nat → File
  proc : Nat → Proc

abbrev KernelM (α : Type) := Action Kernel Event Halt α

def onFs {α : Type} (action : FsM α) : KernelM α :=
  within Kernel.fs (fun s fs => { s with fs := fs }) action

def setFile (f : Nat) (g : File → File) : KernelM Unit :=
  change fun s => { s with ftable := fun k => if k = f then g (s.ftable k) else s.ftable k }

def setProc (p : Nat) (g : Proc → Proc) : KernelM Unit :=
  change fun s => { s with proc := fun k => if k = p then g (s.proc k) else s.proc k }

def setOfile (p fd : Nat) (file : Option Nat) : KernelM Unit :=
  setProc p fun q => { q with ofile := fun d => if d = fd then file else q.ofile d }

/-! File structures. -/

def filealloc : KernelM (Option Nat) := do
  let ftable ← inspect Kernel.ftable
  match (List.range nfile).find? (fun f => (ftable f).ref = 0) with
  | some f => do
    setFile f fun file => { file with ref := 1 }
    return some f
  | none => return none

def filedup (f : Nat) : KernelM Unit := do
  let ftable ← inspect Kernel.ftable
  if (ftable f).ref < 1 then halt .filedup
  else setFile f fun file => { file with ref := file.ref + 1 }

def fileclose (f : Nat) : KernelM Unit := do
  let ftable ← inspect Kernel.ftable
  let ff := ftable f
  if ff.ref < 1 then halt .fileclose
  else if ff.ref - 1 > 0 then setFile f fun file => { file with ref := file.ref - 1 }
  else do
    setFile f fun file => { file with ref := 0, type := .none }
    whenever (ff.type = .inode) <| onFs do
      onDev beginTrans
      iput ff.ip
      onDev commitTrans

/-- `if((r = ...) > 0) f->off += r`. -/
def advance (f : Nat) : Option Nat → KernelM Unit
  | some count => setFile f fun file => { file with off := u32 (file.off + count) }
  | none => return ()

def fileread (f n : Nat) : KernelM (Option (List UInt8)) := do
  let ftable ← inspect Kernel.ftable
  let file := ftable f
  if !file.readable then return none
  else if file.type = .inode then do
    onFs (ilock file.ip)
    let r ← onFs (readi file.ip file.off n)
    advance f (r.map List.length)
    onFs (iunlock file.ip)
    return r
  else halt .fileread

/-- ((LOGSIZE-1-1-2) / 2) * 512 -/
def maxChunk : Nat := (logsize - 1 - 1 - 2) / 2 * 512

/-- One transaction of filewrite's loop. -/
def writeChunk (f : Nat) (chunk : List UInt8) : KernelM (Option Nat) := do
  let ftable ← inspect Kernel.ftable
  let file := ftable f
  onFs (onDev beginTrans)
  onFs (ilock file.ip)
  let r ← onFs (writei file.ip chunk file.off)
  advance f r
  onFs (iunlock file.ip)
  onFs (onDev commitTrans)
  return r

/-- Whether all bytes were written. -/
def filewriteLoop (f : Nat) : Nat → List UInt8 → KernelM Bool
  | 0, _ => return true
  | fuel + 1, data =>
    if data.length = 0 then return true
    else do
      let chunk := data.take maxChunk
      match ← writeChunk f chunk with
      | none => return false
      | some r =>
        if r ≠ chunk.length then halt .shortFilewrite
        else filewriteLoop f fuel (data.drop maxChunk)

def filewrite (f : Nat) (data : List UInt8) : KernelM Int := do
  let ftable ← inspect Kernel.ftable
  let file := ftable f
  if !file.writable then return -1
  else if file.type = .inode then do
    let all ← filewriteLoop f data.length data
    return if all then data.length else -1
  else halt .filewrite

/-! Descriptors. -/

def argfd (p fd : Nat) : KernelM (Option Nat) :=
  inspect fun s => if fd < nofile then (s.proc p).ofile fd else none

def fdalloc (p f : Nat) : KernelM (Option Nat) := do
  let proc ← inspect Kernel.proc
  match (List.range nofile).find? (fun fd => (proc p).ofile fd = none) with
  | some fd => do
    setOfile p fd (some f)
    return some fd
  | none => return none

def getCwd (p : Nat) : KernelM Nat := inspect fun s => ((s.proc p).cwd).getD 0

/-! System calls of process `p`. The value is what the call returns in eax. -/

def sysDup (p fd : Nat) : KernelM Int := do
  match ← argfd p fd with
  | none => return -1
  | some f =>
    match ← fdalloc p f with
    | none => return -1
    | some new => do
      filedup f
      return new

def sysRead (p fd n : Nat) : KernelM Int := do
  match ← argfd p fd with
  | none => return -1
  | some f =>
    match ← fileread f (u32 n) with
    | some bytes => return bytes.length
    | none => return -1

def sysWrite (p fd : Nat) (data : List UInt8) : KernelM Int := do
  match ← argfd p fd with
  | none => return -1
  | some f => filewrite f data

def sysClose (p fd : Nat) : KernelM Int := do
  match ← argfd p fd with
  | none => return -1
  | some f => do
    setOfile p fd none
    fileclose f
    return 0

def sysFstat (p fd : Nat) : KernelM Int := do
  match ← argfd p fd with
  | none => return -1
  | some f => do
    let ftable ← inspect Kernel.ftable
    if (ftable f).type = .inode then do
      onFs (ilock (ftable f).ip)
      onFs (iunlock (ftable f).ip)
      return 0
    else return -1

def oWronly : Nat := 0x001
def oRdwr : Nat := 0x002
def oCreate : Nat := 0x200

def hasMode (omode mode : Nat) : Bool := omode &&& mode != 0

/-- The inode to open, locked. -/
def openInode (cwd : Nat) (path : List UInt8) (omode : Nat) : FsM (Option Nat) := do
  if hasMode omode oCreate then do
    onDev beginTrans
    let ip ← create cwd path tFile 0 0
    onDev commitTrans
    return ip
  else
    match ← namei cwd path with
    | none => return none
    | some ip => do
      ilock ip
      let i ← getInode ip
      if i.din.type = tDir ∧ omode ≠ 0 then do
        iunlockput ip
        return none
      else return some ip

def openFile (p ip omode : Nat) : KernelM Int := do
  match ← filealloc with
  | none => do
    onFs (iunlockput ip)
    return -1
  | some f =>
    match ← fdalloc p f with
    | none => do
      fileclose f
      onFs (iunlockput ip)
      return -1
    | some fd => do
      onFs (iunlock ip)
      setFile f fun file =>
        { file with
          type := .inode
          ip := ip
          off := 0
          readable := !hasMode omode oWronly
          writable := hasMode omode oWronly || hasMode omode oRdwr }
      return fd

def sysOpen (p : Nat) (path : List UInt8) (omode : Nat) : KernelM Int := do
  let cwd ← getCwd p
  match ← onFs (openInode cwd path omode) with
  | none => return -1
  | some ip => openFile p ip omode

/-- The link count of a cached inode, wherever its current copy is. -/
def linkCount (fs : State) (i : Inode) : Nat :=
  if i.valid then i.din.nlink
  else (getDinode (content fs.dev (iblock i.inum)) (i.inum % ipb)).nlink

/-- `iput(proc->cwd)` of chdir and exit, which both run outside a transaction. -/
def dropCwd (cwd : Nat) : KernelM Unit := do
  let fs ← inspect Kernel.fs
  emit (.cwdDrop ((fs.icache cwd).ref == 1 && linkCount fs (fs.icache cwd) == 0))
  onFs (iput cwd)

def sysChdir (p : Nat) (path : List UInt8) : KernelM Int := do
  let cwd ← getCwd p
  match ← onFs (namei cwd path) with
  | none => return -1
  | some ip => do
    onFs (ilock ip)
    let i ← onFs (getInode ip)
    if i.din.type ≠ tDir then do
      onFs (iunlockput ip)
      return -1
    else do
      onFs (iunlock ip)
      dropCwd cwd
      setProc p fun q => { q with cwd := some ip }
      return 0

def readAll (ip : Nat) : List (Nat × Nat) → FsM Unit
  | [] => return ()
  | (off, n) :: rest => do
    let _ ← readi ip off n
    readAll ip rest

/-- The file side of exec: `reads` are the (offset, length) pairs that the ELF
headers and loaduvm ask for before the inode is released. -/
def sysExec (p : Nat) (path : List UInt8) (reads : List (Nat × Nat)) : KernelM Int := do
  let cwd ← getCwd p
  match ← onFs (namei cwd path) with
  | none => return -1
  | some ip => do
    onFs (ilock ip)
    onFs (readAll ip (reads.map fun r => (u32 r.1, u32 r.2)))
    onFs (iunlockput ip)
    return 0

def dupFile (np fd : Nat) : Option Nat → KernelM Unit
  | some f => do
    filedup f
    setOfile np fd (some f)
  | none => return ()

def dupFiles (np : Nat) (ofile : Nat → Option Nat) : List Nat → KernelM Unit
  | [] => return ()
  | fd :: rest => do
    dupFile np fd (ofile fd)
    dupFiles np ofile rest

/-- `memory` says whether kalloc and copyuvm succeed. -/
def sysFork (p : Nat) (memory : Bool) : KernelM Int := do
  let proc ← inspect Kernel.proc
  match (List.range nproc).find? (fun q => (proc q).state = .unused) with
  | none => return -1
  | some np =>
    if !memory then return -1
    else do
      setProc np fun q => { q with parent := p }
      dupFiles np (proc p).ofile (List.range nofile)
      let cwd ← getCwd p
      let ip ← onFs (idup cwd)
      setProc np fun q => { q with cwd := some ip, state := .runnable }
      return np

def closeFile (p fd : Nat) : Option Nat → KernelM Unit
  | some f => do
    fileclose f
    setOfile p fd none
  | none => return ()

def closeFiles (p : Nat) : List Nat → KernelM Unit
  | [] => return ()
  | fd :: rest => do
    let proc ← inspect Kernel.proc
    closeFile p fd ((proc p).ofile fd)
    closeFiles p rest

/-- initproc is slot 0. -/
def initproc : Nat := 0

def sysExit (p : Nat) : KernelM Int := do
  if p = initproc then halt .initExiting
  else do
    closeFiles p (List.range nofile)
    let cwd ← getCwd p
    dropCwd cwd
    setProc p fun q => { q with cwd := none }
    change fun s =>
      { s with proc := fun k =>
          if (s.proc k).parent = p then { s.proc k with parent := initproc } else s.proc k }
    setProc p fun q => { q with state := .zombie }
    return 0

/-- Reaps one zombie child; a caller with none to reap does not change the state. -/
def sysWait (p : Nat) : KernelM Int := do
  let proc ← inspect Kernel.proc
  match (List.range nproc).find? (fun q => (proc q).state = .zombie ∧ (proc q).parent = p) with
  | none => return -1
  | some q => do
    setProc q fun r => { r with state := .unused }
    return q

def onCwd (p : Nat) (call : Nat → FsM Int) : KernelM Int := do
  let cwd ← getCwd p
  onFs (call cwd)

/-- `console` is the keyboard: it changes what the next console read returns. -/
inductive Call where
  | dup (fd : Nat)
  | read (fd n : Nat)
  | write (fd : Nat) (data : List UInt8)
  | close (fd : Nat)
  | fstat (fd : Nat)
  | link (old new : List UInt8)
  | unlink (path : List UInt8)
  | open (path : List UInt8) (omode : Nat)
  | mkdir (path : List UInt8)
  | mknod (path : List UInt8) (major minor : Nat)
  | chdir (path : List UInt8)
  | exec (path : List UInt8) (reads : List (Nat × Nat))
  | fork (memory : Bool)
  | exit
  | wait
  | console (input : Nat → Option (List UInt8))

def syscall (p : Nat) : Call → KernelM Int
  | .dup fd => sysDup p fd
  | .read fd n => sysRead p fd n
  | .write fd data => sysWrite p fd data
  | .close fd => sysClose p fd
  | .fstat fd => sysFstat p fd
  | .link old new => onCwd p fun cwd => sysLink cwd (cstr old) (cstr new)
  | .unlink path => onCwd p fun cwd => sysUnlink cwd (cstr path)
  | .open path omode => sysOpen p (cstr path) omode
  | .mkdir path => onCwd p fun cwd => sysMkdir cwd (cstr path)
  | .mknod path major minor => onCwd p fun cwd => sysMknod cwd (cstr path) major minor
  | .chdir path => sysChdir p (cstr path)
  | .exec path reads => sysExec p (cstr path) reads
  | .fork memory => sysFork p memory
  | .exit => sysExit p
  | .wait => sysWait p
  | .console input => do
    change fun s => { s with fs := { s.fs with console := input } }
    return 0

/-- Calls made one after another, each by a runnable process. -/
def runCalls : List (Nat × Call) → KernelM Unit
  | [] => return ()
  | (p, call) :: rest => do
    let proc ← inspect Kernel.proc
    if (proc p).state = .runnable then do
      let _ ← syscall p call
      runCalls rest
    else runCalls rest

end Xv6.Syscall
