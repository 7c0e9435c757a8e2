import Xv6.WaitSpec

/-! The fields of a slot that survive in it or are kept apart from its state: inuse and
ticks, which getpinfo reports, and killed. -/
namespace Xv6.ProcFlags
open Transition ProcTable SchedSpec Lifecycle

/-- What sys_getpinfo copies out for a slot. -/
structure Pinfo where
  inuse : Bool
  pid : Int
  ticks : Int
  deriving DecidableEq

def getpinfo (m : Machine) (i : Nat) : Pinfo :=
  ⟨(m.table i).inuse, (m.table i).pid, (m.table i).ticks⟩

section Fields
variable (chan : Option Chan) (p : Proc)

@[simp] theorem inuse_wakeOne : (wakeOne chan p).inuse = p.inuse := by
  unfold wakeOne
  split <;> rfl

@[simp] theorem ticks_wakeOne : (wakeOne chan p).ticks = p.ticks := by
  unfold wakeOne
  split <;> rfl

@[simp] theorem killed_wakeOne : (wakeOne chan p).killed = p.killed := by
  unfold wakeOne
  split <;> rfl

end Fields

/-- Timer interrupts in user mode since the slot was allocated. -/
def delivered (i : Nat) : List Event → Nat
  | [] => 0
  | .userTick j :: earlier => if j = i then delivered i earlier + 1 else delivered i earlier
  | .allocated j _ :: earlier => if j = i then 0 else delivered i earlier
  | .forked _ _ :: earlier => delivered i earlier
  | .waited _ _ :: earlier => delivered i earlier
  | .killCall _ :: earlier => delivered i earlier

/-- Timer interrupts in user mode come to CPU 0. -/
def OnBootCpu (_ : Machine) : Act → Prop
  | .timer c true => c = 0
  | _ => True

/-- The counter as far as an int goes. -/
def TickInv (m : Machine) : Prop :=
  ∀ i, delivered i m.history < 2 ^ 31 → (m.table i).ticks = delivered i m.history

section Ticks
variable {m next : Machine} {c p : Nat} {act : Act}

theorem ticks_keep (inv : TickInv m) (same : ∀ i, (next.table i).ticks = (m.table i).ticks)
    (history : ∀ i, delivered i next.history = delivered i m.history) : TickInv next := by
  intro i fits
  rw [history] at fits ⊢
  rw [same]
  exact inv i fits

theorem ticks_wakeup1 (t : Table) (chan : Option Chan) (i : Nat) :
    (wakeup1 t chan i).ticks = (t i).ticks := by
  unfold wakeup1
  split <;> simp

theorem ticks_kill (t : Table) (pid : Int) (i : Nat) : ((kill t pid).2 i).ticks = (t i).ticks := by
  unfold kill
  split
  · simp only [update, killOne]
    split <;> rfl
  · rfl

theorem ticks_scanned (inv : TickInv m) (scan : Scanned m c p next) : TickInv next := by
  cases scan with
  | reap z inside child zombie =>
    refine ticks_keep inv (fun i => ?_) fun i => by simp [delivered]
    simp only [log_rest, setLock_rest, setStage_rest, setProc_table]
    split <;> rfl
  | giveUp => exact ticks_keep inv (fun i => by simp) fun i => by simp
  | sleep childless =>
    refine ticks_keep inv (fun i => ?_) fun i => by simp
    simp only [setLock_rest, setStage_rest, setProc_table]
    split <;> rfl

theorem ticks_step (inv : TickInv m) (first : OnBootCpu m act) (took : Took m act next) :
    TickInv next := by
  cases took with
  | acquire | skip | release | launch | back | swtch | resume | idleTimer =>
    exact ticks_keep inv (fun i => by simp) fun i => by simp
  | dispatch | wake | wakeWait | yield | sleep | fault | failFork | adopt | startExit =>
    refine ticks_keep inv (fun i => ?_) fun i => by simp
    simp only [setCpu_rest, setWork_rest, setLock_rest, setStage_rest, setProc_table]
    split <;> rfl
  | timer c chan => exact ticks_keep inv (ticks_wakeup1 m.table chan) fun i => rfl
  | wakeup address free => exact ticks_keep inv (ticks_wakeup1 m.table _) fun i => rfl
  | kill pid free => exact ticks_keep inv (ticks_kill m.table pid) fun i => by simp [delivered]
  | fork c p np on adopted =>
    refine ticks_keep inv (fun i => ?_) fun i => by simp [delivered]
    simp only [log_rest, setWork_rest, setStage_rest, setProc_table]
    split <;> rfl
  | exit c p on free exiting =>
    exact ticks_keep inv (fun i => ((exited m p).rest i).2.2.2.2) fun i => by simp
  | wait c p on free user => exact ticks_scanned inv (scanned m c p)
  | rescan c p inside stage => exact ticks_scanned inv (scanned m c p)
  | loseTick c p other on user => exact absurd first other
  | countTick p on user =>
    intro i fits
    simp only [log_history, log_rest, setProc_table, setProc_rest, delivered] at fits ⊢
    by_cases here : i = p
    · subst here
      simp only [if_pos] at fits ⊢
      have before := inv i (by omega)
      rw [ticks_wakeup1, before, succInt, if_neg (by omega)]
      rfl
    · simp only [if_neg here, if_neg (Ne.symm here)] at fits ⊢
      rw [ticks_wakeup1]
      exact inv i fits
  | allocproc c p np on free user inside unused =>
    intro i fits
    simp only [log_history, log_rest, setWork_rest, setProc_table, setProc_rest, delivered] at fits ⊢
    by_cases here : i = np
    · subst here
      simp
    · simp only [if_neg here, if_neg (Ne.symm here)] at fits ⊢
      exact inv i fits

end Ticks

/-- Where the timer interrupts in user mode come to CPU 0, getpinfo reports their number
since the slot was allocated. -/
theorem ticks_counted (acts : List Act) (m : Machine)
    (first : Along step OnBootCpu start acts) (run : exec step start acts = some m) (i : Nat)
    (fits : delivered i m.history < 2 ^ 31) : (getpinfo m i).ticks = delivered i m.history := by
  have inv := exec_invariant TickInv
    (fun m act next inv allowed stepped => ticks_step inv allowed (took_of_step stepped))
    (fun i _ => by by_cases here : i = 0 <;> simp [start, here, Proc.empty, delivered]) first run
  exact inv i fits

/-- init on CPU 0, interrupted in user mode. -/
def tickRun : List Act := [.scheduler 0, .scheduler 0, .scheduler 0, .resume 0, .timer 0 true]

theorem tick_counted_on_cpu0 :
    ∃ m, exec step start tickRun = some m ∧ delivered 0 m.history = 1 ∧
      (getpinfo m 0).ticks = delivered 0 m.history := by
  refine ⟨_, rfl, rfl, ticks_counted tickRun _ ?_ rfl 0 (by decide)⟩
  exact ⟨trivial, trivial, trivial, trivial, rfl, trivial⟩

/-- The same on CPU 1. -/
def lostTickRun : List Act := [.scheduler 1, .scheduler 1, .scheduler 1, .resume 1, .timer 1 true]

theorem tick_lost_on_cpu1 :
    ∃ m, exec step start lostTickRun = some m ∧ (m.table 0).state = .running ∧
      delivered 0 m.history = 1 ∧ (getpinfo m 0).ticks = 0 :=
  ⟨_, rfl, rfl, rfl, rfl⟩

/-- No timer interrupt takes the CPU from a process between proc->inuse = 0 and ZOMBIE. -/
def Unpreempted (m : Machine) : Act → Prop
  | .yield c => ∀ p, (m.cpu c).sched = .inside p → m.work p ≠ .exiting
  | _ => True

/-- A child that fork has made RUNNABLE and no scheduler has chosen yet. -/
def Fresh (m : Machine) (i : Nat) : Prop :=
  (m.table i).state = .runnable ∧ m.stage i = .switching .forkret

/-- The flag of a slot, and what keeps it right: a process in the last part of exit is
RUNNING, and who sleeps has been chosen before. -/
structure InuseSlot (m : Machine) (i : Nat) : Prop where
  flag : (m.table i).inuse = true ↔ kindAt m i = .alive ∧ ¬ Fresh m i ∧ m.work i ≠ .exiting
  leaving : m.work i = .exiting → (m.table i).state = .running ∧ m.stage i = .free
  sleeper : (m.table i).state = .sleeping → m.stage i ≠ .switching .forkret

def InuseInv (m : Machine) : Prop := ∀ i, InuseSlot m i

section Inuse
variable {m next : Machine} {c p : Nat} {act : Act}

theorem inuse_wakeup1 (inv : InuseInv m) (chan : Option Chan) :
    InuseInv { m with table := wakeup1 m.table chan } := by
  intro i
  obtain ⟨flag, leaving, sleeper⟩ := inv i
  constructor <;> simp only [Fresh, kindAt, wakeup1, wakeOne] at * <;> grind [kindOf]

theorem inuse_scanned (inv : InuseInv m) (scan : Scanned m c p next)
    (running : (m.table p).state = .running) (stays : m.work p ≠ .exiting) : InuseInv next := by
  intro i
  obtain ⟨flag, leaving, sleeper⟩ := inv i
  cases scan <;> constructor <;>
    simp only [Fresh, kindAt, log_rest, setLock_rest, setStage_stage, setStage_rest, setProc_table,
      setProc_rest] at * <;> grind [kindOf]

theorem inuse_step (sound : Sound m) (inv : InuseInv m) (kept : Unpreempted m act)
    (took : Took m act next) : InuseInv next := by
  have runs := fun c p => on_running (c := c) (p := p) sound.sched
  cases took with
  | acquire | skip | release | back | swtch | idleTimer | loseTick =>
    exact fun i => ⟨(inv i).flag, (inv i).leaving, (inv i).sleeper⟩
  | timer c chan => exact inuse_wakeup1 inv chan
  | wakeup address free => exact inuse_wakeup1 inv _
  | wait c p on free user =>
    exact inuse_scanned inv (scanned m c p) (runs c p on) (by simp [user])
  | rescan c p inside stage =>
    refine inuse_scanned inv (scanned m c p)
      (running_of_inside sound.sched inside (by simp [stage])) fun leaves => ?_
    have free := ((inv p).leaving leaves).2
    rw [stage] at free
    cases free
  | countTick p on user =>
    have woken := inuse_wakeup1 inv (some (.other 0))
    intro i
    obtain ⟨flag, leaving, sleeper⟩ := woken i
    constructor <;> simp only [Fresh, kindAt, log_rest, setProc_table, setProc_rest] at * <;>
      grind
  | kill pid free =>
    intro i
    obtain ⟨flag, leaving, sleeper⟩ := inv i
    constructor <;> simp only [Fresh, kindAt, log_rest, ProcTable.kill] at * <;>
      split <;> simp only [update, killOne] <;> grind [kindOf]
  | yield c p on free =>
    have stays := kept p on.sched
    have running := runs c p on
    intro i
    obtain ⟨flag, leaving, sleeper⟩ := inv i
    constructor <;> simp only [Fresh, kindAt, setLock_rest, setStage_stage, setStage_rest, setProc_table,
      setProc_rest] at * <;>
      grind [kindOf]
  | exit c p on free exiting =>
    have running := runs c p on
    have out := exited m p
    intro i
    obtain ⟨flag, leaving, sleeper⟩ := inv i
    have state := out.state i
    have rest := (out.rest i).2.2.2.1
    have gone := out.self
    constructor <;> simp only [Fresh, kindAt, setLock_rest, setStage_stage, setStage_rest, setWork_work,
      setWork_rest] at * <;>
      grind [kindOf]
  | fork c p np on adopted =>
    have embryo := state_embryo (sound.family.maker p np (by rw [adopted]; rfl)).1
    have running := runs c p on
    intro i
    obtain ⟨flag, leaving, sleeper⟩ := inv i
    constructor <;> simp only [Fresh, kindAt, log_rest, setStage_stage, setStage_rest, setWork_work, setWork_rest,
      setProc_table, setProc_rest] at * <;>
      grind [kindOf]
  | dispatch c q scan inside runnable =>
    intro i
    obtain ⟨flag, leaving, sleeper⟩ := inv i
    constructor <;> simp only [Fresh, kindAt, setCpu_rest, setProc_table, setProc_rest] at * <;>
      grind [kindOf]
  | launch c q r launch stage =>
    have running := (sound.sched.launched c q launch).1
    intro i
    obtain ⟨flag, leaving, sleeper⟩ := inv i
    constructor <;> simp only [Fresh, kindAt, setCpu_rest, setStage_stage, setStage_rest] at * <;>
      grind [kindOf]
  | resume c p r inside stage quick =>
    have running := running_of_inside sound.sched inside (by simp [stage])
    intro i
    obtain ⟨flag, leaving, sleeper⟩ := inv i
    constructor <;> simp only [Fresh, kindAt, setLock_rest, setStage_stage, setStage_rest] at * <;>
      grind [kindOf]
  | wake c p inside stage =>
    have running := running_of_inside sound.sched inside (by simp [stage])
    intro i
    obtain ⟨flag, leaving, sleeper⟩ := inv i
    constructor <;> simp only [Fresh, kindAt, setLock_rest, setStage_stage, setStage_rest, setProc_table,
      setProc_rest] at * <;>
      grind [kindOf]
  | wakeWait c p inside stage =>
    have running := running_of_inside sound.sched inside (by simp [stage])
    intro i
    obtain ⟨flag, leaving, sleeper⟩ := inv i
    constructor <;> simp only [Fresh, kindAt, setStage_stage, setStage_rest, setProc_table, setProc_rest] at * <;>
      grind [kindOf]
  | sleep c p address on free user =>
    have running := runs c p on
    intro i
    obtain ⟨flag, leaving, sleeper⟩ := inv i
    constructor <;> simp only [Fresh, kindAt, setLock_rest, setStage_stage, setStage_rest, setProc_table,
      setProc_rest] at * <;>
      grind [kindOf]
  | fault c p on user =>
    intro i
    obtain ⟨flag, leaving, sleeper⟩ := inv i
    constructor <;> simp only [Fresh, kindAt, setProc_table, setProc_rest] at * <;>
      grind
  | allocproc c p np on free user inside unused =>
    have running := runs c p on
    intro i
    obtain ⟨flag, leaving, sleeper⟩ := inv i
    constructor <;> simp only [Fresh, kindAt, log_rest, setWork_work, setWork_rest, setProc_table,
      setProc_rest] at * <;>
      grind [kindOf]
  | failFork c p np on building =>
    have embryo := state_embryo (sound.family.maker p np (by rw [building]; rfl)).1
    intro i
    obtain ⟨flag, leaving, sleeper⟩ := inv i
    constructor <;> simp only [Fresh, kindAt, setWork_work, setWork_rest, setProc_table, setProc_rest] at * <;>
      grind [kindOf]
  | adopt c p np on building =>
    intro i
    obtain ⟨flag, leaving, sleeper⟩ := inv i
    constructor <;> simp only [Fresh, kindAt, setWork_work, setWork_rest, setProc_table, setProc_rest] at * <;>
      grind
  | startExit c p on user other =>
    have running := runs c p on
    have free := on.free
    intro i
    obtain ⟨flag, leaving, sleeper⟩ := inv i
    constructor <;> simp only [Fresh, kindAt, setWork_work, setWork_rest, setProc_table, setProc_rest] at * <;>
      grind [kindOf]

end Inuse

theorem inuse_start : InuseInv start := by
  intro i
  by_cases first : i = 0
  · subst first
    constructor <;> simp [start, Proc.empty, Fresh]
  · constructor <;> simp [start, first, Proc.empty, kindAt, kindOf]

/-- In a run without a preemption between proc->inuse = 0 and ZOMBIE, while no process is
there, the flag says which processes are alive and have been chosen by a scheduler. -/
theorem inuse_iff_started (acts : List Act) (m : Machine)
    (kept : Along step Unpreempted start acts) (run : exec step start acts = some m)
    (calm : ∀ i, m.work i ≠ .exiting) (i : Nat) :
    (getpinfo m i).inuse = true ↔ ((m.table i).state = .runnable ∨ (m.table i).state = .sleeping ∨
      (m.table i).state = .running) ∧ ¬ Fresh m i := by
  have inv := exec_invariant (fun m => Sound m ∧ InuseInv m)
    (fun m act next inv allowed stepped =>
      ⟨sound_step inv.1 stepped, inuse_step inv.1 inv.2 allowed (took_of_step stepped)⟩)
    ⟨sound_start, inuse_start⟩ kept run
  have flag := (inv.2 i).flag
  have stays := calm i
  simp only [getpinfo, flag, kindAt]
  cases (m.table i).state <;> simp [kindOf, stays]

/-- init has been chosen, its child has not. -/
def childRun : List Act :=
  [.scheduler 0, .scheduler 0, .scheduler 0, .resume 0, .allocproc 0, .adopt 0, .fork 0]

theorem inuse_of_init :
    ∃ m, exec step start childRun = some m ∧ (getpinfo m 0).inuse = true := by
  refine ⟨_, rfl, (inuse_iff_started childRun _ ?_ rfl ?_ 0).mpr ⟨.inr (.inr rfl), ?_⟩⟩
  · exact ⟨trivial, trivial, trivial, trivial, trivial, trivial, trivial, trivial⟩
  · intro i
    by_cases first : i = 0
    · subst first
      decide
    · by_cases second : i = 1
      · subst second
        decide
      · simp [start, first, second]
  · rintro ⟨runnable, _⟩
    cases runnable

/-- The child is chosen, loses the CPU in exit after proc->inuse = 0, is chosen again and
becomes ZOMBIE. -/
def preemptedExitRun : List Act :=
  childRun ++ [.yield 0, .swtch 0, .scheduler 0, .scheduler 0, .scheduler 0, .resume 0,
    .startExit 0, .yield 0, .swtch 0] ++ List.replicate 64 (.scheduler 0) ++
  [.scheduler 0, .scheduler 0, .scheduler 0, .resume 0, .yield 0, .swtch 0, .scheduler 0,
    .scheduler 0, .scheduler 0, .resume 0, .exit 0, .swtch 0]

set_option maxRecDepth 100000 in
/-- A RUNNABLE child without the flag, and a ZOMBIE with it. -/
theorem inuse_wrong :
    (∃ m, exec step start childRun = some m ∧
      ((m.table 1).state = .runnable ∧ (getpinfo m 1).inuse = false)) ∧
    ∃ m, exec step start preemptedExitRun = some m ∧
      ((m.table 1).state = .zombie ∧ (getpinfo m 1).inuse = true ∧
        ∀ i < nproc, m.work i ≠ .exiting) :=
  ⟨exec_reaches (by decide +kernel), exec_reaches (by decide +kernel)⟩

/-- kill was called with the pid since the slot was allocated. -/
def hitSince (i : Nat) (pid : Int) : List Event → Bool
  | [] => false
  | .killCall q :: earlier => decide (q = pid) || hitSince i pid earlier
  | .allocated j _ :: earlier => decide (j ≠ i) && hitSince i pid earlier
  | .forked _ _ :: earlier => hitSince i pid earlier
  | .waited _ _ :: earlier => hitSince i pid earlier
  | .userTick _ :: earlier => hitSince i pid earlier

/-- kill finds no UNUSED slot, and a fork that fails gives back no killed slot. -/
def Aimed (m : Machine) : Act → Prop
  | .kill pid => ∀ i, killTarget m.table pid = some i → (m.table i).state ≠ .unused
  | .failFork c => ∀ p np, (m.cpu c).sched = .inside p → m.work p = .building np →
      (m.table np).killed = false
  | _ => True

structure KillSlot (m : Machine) (i : Nat) : Prop where
  unused : (m.table i).state = .unused → (m.table i).killed = false
  embryo : (m.table i).state = .embryo → (m.table i).killed = true →
    hitSince i (m.table i).pid m.history = true

def KillInv (m : Machine) : Prop := ∀ i, KillSlot m i

section Killed
variable {m next : Machine} {c p : Nat} {act : Act}

theorem killed_wakeup1 (inv : KillInv m) (chan : Option Chan) :
    KillInv { m with table := wakeup1 m.table chan } := by
  intro i
  obtain ⟨unused, embryo⟩ := inv i
  constructor <;> simp only [wakeup1, wakeOne] <;> grind

theorem killed_scanned (inv : KillInv m) (scan : Scanned m c p next) : KillInv next := by
  intro i
  obtain ⟨unused, embryo⟩ := inv i
  cases scan <;> constructor <;>
    simp only [log_history, log_rest, setLock_rest, setStage_rest, setProc_table, setProc_rest] <;>
    grind [hitSince]

theorem killTarget_some {t : Table} {pid : Int} {i : Nat} (found : killTarget t pid = some i) :
    (t i).pid = pid := by
  have hit := (firstSlot_some found).2
  simpa using hit

theorem killed_step (sound : Sound m) (inv : KillInv m) (aimed : Aimed m act)
    (took : Took m act next) : KillInv next := by
  cases took with
  | acquire | skip | release | launch | back | swtch | resume | idleTimer =>
    exact fun i => ⟨(inv i).unused, (inv i).embryo⟩
  | timer c chan => exact killed_wakeup1 inv chan
  | wakeup address free => exact killed_wakeup1 inv _
  | wait c p on free user => exact killed_scanned inv (scanned m c p)
  | rescan c p inside stage => exact killed_scanned inv (scanned m c p)
  | loseTick c p other on user =>
    exact fun i => ⟨(inv i).unused, fun embryo killed => (inv i).embryo embryo killed⟩
  | dispatch | wake | wakeWait | sleep | adopt | startExit =>
    intro i
    obtain ⟨unused, embryo⟩ := inv i
    constructor <;>
      simp only [setCpu_rest, setWork_rest, setLock_rest, setStage_rest, setProc_table,
        setProc_rest] <;> grind
  | yield c p on free =>
    intro i
    obtain ⟨unused, embryo⟩ := inv i
    constructor <;>
      simp only [setLock_rest, setStage_rest, setProc_table, setProc_rest] <;> grind
  | countTick p on user =>
    intro i
    obtain ⟨unused, embryo⟩ := killed_wakeup1 inv (some (.other 0)) i
    constructor <;> simp only [log_history, log_rest, setProc_table, setProc_rest] <;>
      grind [hitSince]
  | kill pid free =>
    intro i
    obtain ⟨unused, embryo⟩ := inv i
    have target : killTarget m.table pid = some i → (m.table i).pid = pid := killTarget_some
    have alive := aimed i
    constructor <;> simp only [log_history, log_rest, ProcTable.kill] <;> split <;>
      simp only [update, killOne] <;> grind [hitSince]
  | fault c p on user =>
    have running := on_running sound.sched on
    intro i
    obtain ⟨unused, embryo⟩ := inv i
    constructor <;> simp only [setProc_table, setProc_rest] <;> grind
  | allocproc c p np on free user inside blank =>
    have clear := (inv np).unused blank
    intro i
    obtain ⟨unused, embryo⟩ := inv i
    constructor <;>
      simp only [log_history, log_rest, setWork_rest, setProc_table, setProc_rest] <;>
      grind [hitSince]
  | failFork c p np on building =>
    have clear := aimed p np on.sched building
    intro i
    obtain ⟨unused, embryo⟩ := inv i
    constructor <;> simp only [setWork_rest, setProc_table, setProc_rest] <;> grind
  | fork c p np on adopted =>
    intro i
    obtain ⟨unused, embryo⟩ := inv i
    constructor <;>
      simp only [log_history, log_rest, setStage_rest, setWork_rest, setProc_table, setProc_rest] <;>
      grind [hitSince]
  | exit c p on free exiting =>
    have out := exited m p
    have running := on_running sound.sched on
    intro i
    obtain ⟨unused, embryo⟩ := inv i
    have state := out.state i
    have rest := out.rest i
    have gone := out.self
    constructor <;> simp only [setLock_rest, setStage_rest, setWork_rest] <;> grind

theorem runnable_by_fork {np : Nat} (sound : Sound m) (took : Took m act next)
    (embryo : (m.table np).state = .embryo) (runnable : (next.table np).state = .runnable) :
    (next.table np).pid = (m.table np).pid ∧ (next.table np).killed = (m.table np).killed ∧
      ∃ parent child, next.history = .forked parent child :: m.history := by
  rcases took_moves sound.sched took with moves | ⟨neutral, _⟩
  · cases moves with
    | fork c p other on adopted =>
      simp only [log_history, log_rest, setStage_rest, setWork_rest, setProc_table, setProc_rest]
        at runnable ⊢
      split <;> exact ⟨rfl, rfl, _, _, rfl⟩
    | exit c p on free exiting =>
      have same := (exited m p).state np
      have zombie := (exited m p).self
      simp only [setLock_rest, setStage_rest, setWork_rest] at runnable
      grind
    | allocproc | failFork | adopt | startExit | reap =>
      simp only [log_rest, setLock_rest, setStage_rest, setWork_rest, setProc_table] at runnable
      grind
  · have kind := neutral.kind np
    simp [kindAt, embryo, runnable, kindOf] at kind

end Killed

theorem killed_start : KillInv start := by
  intro i
  by_cases first : i = 0 <;> constructor <;> simp [start, first, Proc.empty]

/-- kill(pid) hits a process: it returns 0 for a slot in use with that pid and marks no
other slot. -/
def HitsProcess (t : Table) (pid : Int) : Prop :=
  (kill t pid).1 = 0 → ∃ i, (t i).state ≠ .unused ∧ (t i).pid = pid ∧
    ∀ j, ((kill t pid).2 j).killed = true → (t j).killed = true ∨ j = i

/-- Where no slot that is UNUSED is killed, and no killed slot is given back by a fork
that fails, kill hits a process exactly if the first slot with its pid is in use, and a
new child is killed only by its own pid. -/
theorem kill_hits_target (acts : List Act) (m : Machine) (aimed : Along step Aimed start acts)
    (run : exec step start acts = some m) :
    (∀ pid, HitsProcess m.table pid ↔
      ∀ i, killTarget m.table pid = some i → (m.table i).state ≠ .unused) ∧
    ∀ act next np, step m act = some next → (m.table np).state = .embryo →
      (next.table np).state = .runnable → (next.table np).killed = true →
        hitSince np (next.table np).pid next.history = true := by
  obtain ⟨sound, inv⟩ := exec_invariant (fun m => Sound m ∧ KillInv m)
    (fun m act next inv allowed stepped =>
      ⟨sound_step inv.1 stepped, killed_step inv.1 inv.2 allowed (took_of_step stepped)⟩)
    ⟨sound_start, killed_start⟩ aimed run
  constructor
  · intro pid
    constructor
    · intro hits i found unused
      have zero : (kill m.table pid).1 = 0 := by simp [kill, found]
      obtain ⟨j, used, _, only⟩ := hits zero
      have marked : ((kill m.table pid).2 i).killed = true := by simp [kill, found, update, killOne]
      rcases only i marked with before | same
      · rw [(inv i).unused unused] at before
        cases before
      · exact used (same ▸ unused)
    · intro inUse zero
      cases found : killTarget m.table pid with
      | none => simp [kill, found] at zero
      | some i =>
        refine ⟨i, inUse i found, killTarget_some found, fun j marked => ?_⟩
        by_cases here : j = i
        · exact .inr here
        · left
          simpa [kill, found, update, here] using marked
  · intro act next np stepped embryo runnable killed
    obtain ⟨pid, marked, parent, child, history⟩ :=
      runnable_by_fork sound (took_of_step stepped) embryo runnable
    rw [marked] at killed
    rw [pid, history, hitSince]
    exact (inv np).embryo embryo killed

/-- init forks, and the child is killed before it is RUNNABLE. -/
def killedChildRun : List Act :=
  [.scheduler 0, .scheduler 0, .scheduler 0, .resume 0, .allocproc 0, .kill 2, .adopt 0]

theorem child_killed_by_its_pid :
    ∃ m next, exec step start killedChildRun = some m ∧ step m (.fork 0) = some next ∧
      HitsProcess m.table 2 ∧ hitSince 1 2 next.history = true := by
  have aimed : Along step Aimed start killedChildRun := by
    refine ⟨trivial, trivial, trivial, trivial, trivial, fun i found => ?_, trivial, trivial⟩
    cases found
    decide
  obtain ⟨hits, own⟩ := kill_hits_target killedChildRun _ aimed rfl
  refine ⟨_, _, rfl, rfl, (hits 2).mpr fun i found => ?_, own (.fork 0) _ 1 rfl rfl rfl rfl⟩
  cases found
  decide

/-- kill(0) finds the slot that init's child will get. -/
def killZeroRun : List Act :=
  [.kill 0, .scheduler 0, .scheduler 0, .scheduler 0, .resume 0, .allocproc 0, .adopt 0]

/-- kill(0) returns 0 with no such process, and the next child is born killed. -/
theorem kill_hits_unused_slot :
    (kill start.table 0).1 = 0 ∧ (∀ i, (start.table i).state ≠ .unused → (start.table i).pid ≠ 0) ∧
    ∃ m next, exec step start killZeroRun = some m ∧ step m (.fork 0) = some next ∧
      (m.table 1).state = .embryo ∧ (next.table 1).state = .runnable ∧
      (next.table 1).killed = true ∧ hitSince 1 (next.table 1).pid next.history = false := by
  refine ⟨rfl, fun i used => ?_, _, _, rfl, rfl, rfl, rfl, rfl, rfl⟩
  by_cases first : i = 0
  · subst first
    decide
  · simp [start, first, Proc.empty] at used

end Xv6.ProcFlags
