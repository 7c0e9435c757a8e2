import Xv6.Transition

/-! The process table and the scheduler, kernel/proc.c, on any number of CPUs. A
critical section of ptable.lock that does not switch is one step. Where the lock is
handed over by swtch, the change of state, the switch and the release are steps of
their own. What fork, exit and the timer interrupt do outside the lock are steps too.
The history lists what calls returned and which interrupts came, newest first. -/
namespace Xv6.ProcTable

def nproc : Nat := 64

inductive ProcState
  | unused
  | embryo
  | sleeping
  | runnable
  | running
  | zombie
  deriving DecidableEq, Repr

/-- An address that a process sleeps on: its own slot in wait, others elsewhere. -/
inductive Chan
  | proc (i : Nat)
  | other (address : Nat)
  deriving DecidableEq, Repr

/-- struct proc without memory, files, names and tickets. -/
structure Proc where
  state : ProcState
  pid : Int
  parent : Option Nat
  chan : Option Chan
  killed : Bool
  inuse : Bool
  ticks : Int
  deriving DecidableEq, Repr

def Proc.empty : Proc := ⟨.unused, 0, none, none, false, false, 0⟩

/-- Increment of a C int. -/
def succInt (n : Int) : Int := if n = 2 ^ 31 - 1 then -2 ^ 31 else n + 1

abbrev Table := Nat → Proc

def update (t : Table) (i : Nat) (f : Proc → Proc) : Table := fun j => if j = i then f (t j) else t j

def wakeOne (chan : Option Chan) (p : Proc) : Proc :=
  if p.state = .sleeping ∧ p.chan = chan then { p with state := .runnable } else p

def wakeup1 (t : Table) (chan : Option Chan) : Table :=
  fun i => if i < nproc then wakeOne chan (t i) else t i

/-- The first slot with the property. -/
def firstSlot (t : Table) (wanted : Proc → Bool) : Option Nat :=
  (List.range nproc).find? fun i => wanted (t i)

/-- The loop of exit over the slots. -/
def reparent (t : Table) (p initproc : Nat) : Table :=
  (List.range nproc).foldl
    (fun t i =>
      if (t i).parent = some p then
        let adopted := update t i fun q => { q with parent := some initproc }
        if (t i).state = .zombie then wakeup1 adopted (some (.proc initproc)) else adopted
      else t)
    t

def killTarget (t : Table) (pid : Int) : Option Nat := firstSlot t fun p => decide (p.pid = pid)

def killOne (p : Proc) : Proc :=
  { p with killed := true, state := if p.state = .sleeping then .runnable else p.state }

/-- kill: the returned value and the table. -/
def kill (t : Table) (pid : Int) : Int × Table :=
  match killTarget t pid with
  | some i => (0, update t i killOne)
  | none => (-1, t)

/-- What a process does outside ptable.lock. -/
inductive Work
  | user
  /-- in fork, with this slot from allocproc -/
  | building (np : Nat)
  /-- in fork, after np->parent = proc -/
  | adopted (np : Nat)
  /-- in exit, after proc->inuse = 0 -/
  | exiting
  deriving DecidableEq, Repr

/-- Where a process goes on when it is switched to. -/
inductive Resume
  | forkret
  | yield
  | sleep
  | wait
  | exit
  deriving DecidableEq, Repr

inductive Stage
  /-- without ptable.lock -/
  | free
  /-- in the loop of wait, with ptable.lock -/
  | scanning
  /-- in sched before swtch, or switched out -/
  | switching (resume : Resume)
  /-- in sched after swtch, with ptable.lock -/
  | returning (resume : Resume)
  deriving DecidableEq, Repr

/-- Where the scheduler of a CPU stands. -/
inductive Sched
  | idle
  | scan (i : Nat)
  /-- slot i is RUNNING, before swtch -/
  | launch (i : Nat)
  /-- on the kernel stack of slot i -/
  | inside (i : Nat)
  /-- swtch has returned from slot i -/
  | back (i : Nat)
  deriving DecidableEq, Repr

structure Cpu where
  proc : Option Nat
  sched : Sched
  deriving DecidableEq, Repr

inductive Event
  | allocated (slot : Nat) (pid : Int)
  /-- fork in the process with the first pid returned the second -/
  | forked (parent child : Int)
  /-- wait in the process with the first pid returned the second -/
  | waited (waiter child : Int)
  | killCall (pid : Int)
  /-- a timer interrupt came while the slot's process ran in user mode -/
  | userTick (slot : Nat)
  deriving DecidableEq, Repr

structure Machine where
  table : Table
  nextpid : Int
  initproc : Nat
  /-- the CPU that has ptable.lock -/
  lock : Option Nat
  cpu : Nat → Cpu
  work : Nat → Work
  stage : Nat → Stage
  history : List Event

def Machine.setProc (m : Machine) (i : Nat) (f : Proc → Proc) : Machine :=
  { m with table := update m.table i f }

def Machine.setStage (m : Machine) (i : Nat) (stage : Stage) : Machine :=
  { m with stage := fun j => if j = i then stage else m.stage j }

def Machine.setWork (m : Machine) (i : Nat) (work : Work) : Machine :=
  { m with work := fun j => if j = i then work else m.work j }

def Machine.setCpu (m : Machine) (c : Nat) (cpu : Cpu) : Machine :=
  { m with cpu := fun d => if d = c then cpu else m.cpu d }

def Machine.setLock (m : Machine) (lock : Option Nat) : Machine := { m with lock := lock }

def Machine.log (m : Machine) (event : Event) : Machine := { m with history := event :: m.history }

section Setters
variable (m : Machine) (i j c d : Nat)

@[simp] theorem setProc_table (f : Proc → Proc) :
    (m.setProc i f).table j = if j = i then f (m.table j) else m.table j := rfl

@[simp] theorem setProc_rest (f : Proc → Proc) :
    (m.setProc i f).nextpid = m.nextpid ∧ (m.setProc i f).initproc = m.initproc ∧
      (m.setProc i f).lock = m.lock ∧ (m.setProc i f).cpu = m.cpu ∧
      (m.setProc i f).work = m.work ∧ (m.setProc i f).stage = m.stage ∧
      (m.setProc i f).history = m.history :=
  ⟨rfl, rfl, rfl, rfl, rfl, rfl, rfl⟩

@[simp] theorem setStage_stage (stage : Stage) :
    (m.setStage i stage).stage j = if j = i then stage else m.stage j := rfl

@[simp] theorem setStage_rest (stage : Stage) :
    (m.setStage i stage).table = m.table ∧ (m.setStage i stage).nextpid = m.nextpid ∧
      (m.setStage i stage).initproc = m.initproc ∧ (m.setStage i stage).lock = m.lock ∧
      (m.setStage i stage).cpu = m.cpu ∧ (m.setStage i stage).work = m.work ∧
      (m.setStage i stage).history = m.history :=
  ⟨rfl, rfl, rfl, rfl, rfl, rfl, rfl⟩

@[simp] theorem setWork_work (work : Work) :
    (m.setWork i work).work j = if j = i then work else m.work j := rfl

@[simp] theorem setWork_rest (work : Work) :
    (m.setWork i work).table = m.table ∧ (m.setWork i work).nextpid = m.nextpid ∧
      (m.setWork i work).initproc = m.initproc ∧ (m.setWork i work).lock = m.lock ∧
      (m.setWork i work).cpu = m.cpu ∧ (m.setWork i work).stage = m.stage ∧
      (m.setWork i work).history = m.history :=
  ⟨rfl, rfl, rfl, rfl, rfl, rfl, rfl⟩

@[simp] theorem setCpu_cpu (cpu : Cpu) :
    (m.setCpu c cpu).cpu d = if d = c then cpu else m.cpu d := rfl

@[simp] theorem setCpu_rest (cpu : Cpu) :
    (m.setCpu c cpu).table = m.table ∧ (m.setCpu c cpu).nextpid = m.nextpid ∧
      (m.setCpu c cpu).initproc = m.initproc ∧ (m.setCpu c cpu).lock = m.lock ∧
      (m.setCpu c cpu).work = m.work ∧ (m.setCpu c cpu).stage = m.stage ∧
      (m.setCpu c cpu).history = m.history :=
  ⟨rfl, rfl, rfl, rfl, rfl, rfl, rfl⟩

@[simp] theorem setLock_lock (lock : Option Nat) : (m.setLock lock).lock = lock := rfl

@[simp] theorem setLock_rest (lock : Option Nat) :
    (m.setLock lock).table = m.table ∧ (m.setLock lock).nextpid = m.nextpid ∧
      (m.setLock lock).initproc = m.initproc ∧ (m.setLock lock).cpu = m.cpu ∧
      (m.setLock lock).work = m.work ∧ (m.setLock lock).stage = m.stage ∧
      (m.setLock lock).history = m.history :=
  ⟨rfl, rfl, rfl, rfl, rfl, rfl, rfl⟩

@[simp] theorem log_history (event : Event) : (m.log event).history = event :: m.history := rfl

@[simp] theorem log_rest (event : Event) :
    (m.log event).table = m.table ∧ (m.log event).nextpid = m.nextpid ∧
      (m.log event).initproc = m.initproc ∧ (m.log event).lock = m.lock ∧
      (m.log event).cpu = m.cpu ∧ (m.log event).work = m.work ∧ (m.log event).stage = m.stage :=
  ⟨rfl, rfl, rfl, rfl, rfl, rfl, rfl⟩

end Setters

/-- The process that CPU c executes, if it executes one without ptable.lock. -/
def freeOn (m : Machine) (c : Nat) : Option Nat :=
  match (m.cpu c).sched with
  | .inside p => if m.stage p = .free then some p else none
  | _ => none

inductive Act
  | scheduler (c : Nat)
  | swtch (c : Nat)
  | resume (c : Nat)
  | yield (c : Nat)
  | timer (c : Nat) (user : Bool)
  | sleep (c address : Nat)
  | wakeup (address : Nat)
  | kill (pid : Int)
  | fault (c : Nat)
  | allocproc (c : Nat)
  | failFork (c : Nat)
  | adopt (c : Nat)
  | fork (c : Nat)
  | startExit (c : Nat)
  | exit (c : Nat)
  | wait (c : Nat)
  | rescan (c : Nat)

/-- One step of the loop of scheduler. -/
def scheduler (m : Machine) (c : Nat) : Option Machine :=
  match (m.cpu c).sched with
  | .idle =>
    if m.lock = none then some ((m.setLock (some c)).setCpu c ⟨none, .scan 0⟩) else none
  | .scan i =>
    if i < nproc then
      if (m.table i).state = .runnable then
        some ((m.setProc i fun p => { p with state := .running, inuse := true }).setCpu c
          ⟨some i, .launch i⟩)
      else some (m.setCpu c ⟨none, .scan (i + 1)⟩)
    else some ((m.setLock none).setCpu c ⟨none, .idle⟩)
  | .launch i =>
    match m.stage i with
    | .switching resume => some ((m.setStage i (.returning resume)).setCpu c ⟨some i, .inside i⟩)
    | _ => none
  | .inside _ => none
  | .back i => some (m.setCpu c ⟨none, .scan (i + 1)⟩)

/-- swtch(&proc->context, cpu->scheduler) in sched. -/
def swtch (m : Machine) (c : Nat) : Option Machine :=
  match (m.cpu c).sched with
  | .inside p =>
    match m.stage p with
    | .switching _ => some (m.setCpu c ⟨some p, .back p⟩)
    | _ => none
  | _ => none

/-- After swtch in sched: forkret and yield release the lock, sleep clears chan first,
and sleep in wait goes on with the lock. exit does not return. -/
def resume (m : Machine) (c : Nat) : Option Machine :=
  match (m.cpu c).sched with
  | .inside p =>
    match m.stage p with
    | .returning .forkret => some ((m.setStage p .free).setLock none)
    | .returning .yield => some ((m.setStage p .free).setLock none)
    | .returning .sleep =>
      some (((m.setProc p fun q => { q with chan := none }).setStage p .free).setLock none)
    | .returning .wait =>
      some ((m.setProc p fun q => { q with chan := none }).setStage p .scanning)
    | _ => none
  | _ => none

/-- The scan of wait by slot p, with the lock. -/
def waitScan (m : Machine) (c p : Nat) : Machine :=
  match firstSlot m.table fun q => decide (q.parent = some p ∧ q.state = .zombie) with
  | some z =>
    ((((m.setProc z fun q =>
      { q with state := .unused, pid := 0, parent := none, killed := false }).setStage p
        .free).setLock none).log (.waited (m.table p).pid (m.table z).pid))
  | none =>
    if (firstSlot m.table fun q => decide (q.parent = some p)).isNone ∨ (m.table p).killed then
      (m.setStage p .free).setLock none
    else
      ((m.setProc p fun q => { q with chan := some (.proc p), state := .sleeping }).setStage p
        (.switching .wait)).setLock (some c)

/-- The locked part of exit. -/
def exitTable (m : Machine) (p : Nat) : Table :=
  update (reparent (wakeup1 m.table ((m.table p).parent.map .proc)) p m.initproc) p
    fun q => { q with state := .zombie }

def step (m : Machine) : Act → Option Machine
  | .scheduler c => scheduler m c
  | .swtch c => swtch m c
  | .resume c => resume m c
  | .yield c =>
    (freeOn m c).bind fun p =>
      if m.lock = none then
        some (((m.setProc p fun q => { q with state := .runnable }).setStage p
          (.switching .yield)).setLock (some c))
      else none
  -- CPU 0 counts ticks and wakes the sleepers on &ticks
  | .timer c user =>
    if c = 0 ∧ m.lock ≠ none then none
    else
      let woken := if c = 0 then { m with table := wakeup1 m.table (some (.other 0)) } else m
      if user then
        (freeOn m c).bind fun p =>
          if m.work p = .user then
            some ((if c = 0 then woken.setProc p fun q => { q with ticks := succInt q.ticks }
              else woken).log (.userTick p))
          else none
      else some woken
  | .sleep c address =>
    (freeOn m c).bind fun p =>
      if m.lock = none ∧ m.work p = .user then
        some (((m.setProc p fun q =>
          { q with chan := some (.other address), state := .sleeping }).setStage p
            (.switching .sleep)).setLock (some c))
      else none
  | .wakeup address =>
    if m.lock = none then some { m with table := wakeup1 m.table (some (.other address)) } else none
  | .kill pid =>
    if m.lock = none then
      some ({ m with table := (kill m.table pid).2 }.log (.killCall pid))
    else none
  | .fault c =>
    (freeOn m c).bind fun p =>
      if m.work p = .user then some (m.setProc p fun q => { q with killed := true }) else none
  | .allocproc c =>
    (freeOn m c).bind fun p =>
      if m.lock = none ∧ m.work p = .user then
        (firstSlot m.table fun q => decide (q.state = .unused)).map fun np =>
          ({ (m.setProc np fun q =>
            { q with state := .embryo, pid := m.nextpid, ticks := 0 }).setWork p (.building np) with
              nextpid := succInt m.nextpid }).log (.allocated np m.nextpid)
      else none
  -- kalloc in allocproc or copyuvm in fork fails
  | .failFork c =>
    (freeOn m c).bind fun p =>
      match m.work p with
      | .building np =>
        some ((m.setProc np fun q => { q with state := .unused }).setWork p .user)
      | _ => none
  | .adopt c =>
    (freeOn m c).bind fun p =>
      match m.work p with
      | .building np =>
        some ((m.setProc np fun q => { q with parent := some p }).setWork p (.adopted np))
      | _ => none
  | .fork c =>
    (freeOn m c).bind fun p =>
      match m.work p with
      | .adopted np =>
        some (((((m.setProc np fun q => { q with state := .runnable }).setWork p .user).setWork
          np .user).setStage np (.switching .forkret)).log
            (.forked (m.table p).pid (m.table np).pid))
      | _ => none
  -- init does not exit
  | .startExit c =>
    (freeOn m c).bind fun p =>
      if m.work p = .user ∧ p ≠ m.initproc then
        some ((m.setProc p fun q => { q with inuse := false }).setWork p .exiting)
      else none
  | .exit c =>
    (freeOn m c).bind fun p =>
      if m.lock = none ∧ m.work p = .exiting then
        some ((({ m with table := exitTable m p }.setWork p .user).setStage p
          (.switching .exit)).setLock (some c))
      else none
  | .wait c =>
    (freeOn m c).bind fun p =>
      if m.lock = none ∧ m.work p = .user then some (waitScan m c p) else none
  | .rescan c =>
    match (m.cpu c).sched with
    | .inside p => if m.stage p = .scanning then some (waitScan m c p) else none
    | _ => none

/-- After userinit. -/
def start : Machine where
  table := fun i => if i = 0 then { Proc.empty with state := .runnable, pid := 1 } else Proc.empty
  nextpid := 2
  initproc := 0
  lock := none
  cpu := fun _ => ⟨none, .idle⟩
  work := fun _ => .user
  stage := fun i => if i = 0 then .switching .forkret else .free
  history := [.allocated 0 1]

end Xv6.ProcTable
