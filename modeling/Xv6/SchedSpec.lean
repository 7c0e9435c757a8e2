import Xv6.ProcTable

/-! Which process a CPU executes. ptable.lock is handed from the scheduler to the process
and back by swtch; the invariant says for every slot and every CPU how the state, the
saved context and the lock go together. -/
namespace Xv6.SchedSpec
open Transition ProcTable

/-- CPU c executes the process in slot p without ptable.lock. -/
structure On (m : Machine) (c p : Nat) : Prop where
  sched : (m.cpu c).sched = .inside p
  free : m.stage p = .free

/-- The steps of the machine, one rule for each branch of `step`. -/
inductive Took (m : Machine) : Act → Machine → Prop
  | acquire (c : Nat) (idle : (m.cpu c).sched = .idle) (free : m.lock = none) :
      Took m (.scheduler c) ((m.setLock (some c)).setCpu c ⟨none, .scan 0⟩)
  | dispatch (c i : Nat) (scan : (m.cpu c).sched = .scan i) (inside : i < nproc)
      (runnable : (m.table i).state = .runnable) :
      Took m (.scheduler c) ((m.setProc i fun p => { p with state := .running, inuse := true }).setCpu
        c ⟨some i, .launch i⟩)
  | skip (c i : Nat) (scan : (m.cpu c).sched = .scan i) :
      Took m (.scheduler c) (m.setCpu c ⟨none, .scan (i + 1)⟩)
  | release (c i : Nat) (scan : (m.cpu c).sched = .scan i) :
      Took m (.scheduler c) ((m.setLock none).setCpu c ⟨none, .idle⟩)
  | launch (c i : Nat) (r : Resume) (launch : (m.cpu c).sched = .launch i)
      (stage : m.stage i = .switching r) :
      Took m (.scheduler c) ((m.setStage i (.returning r)).setCpu c ⟨some i, .inside i⟩)
  | back (c i : Nat) (back : (m.cpu c).sched = .back i) :
      Took m (.scheduler c) (m.setCpu c ⟨none, .scan (i + 1)⟩)
  | swtch (c p : Nat) (r : Resume) (inside : (m.cpu c).sched = .inside p)
      (stage : m.stage p = .switching r) : Took m (.swtch c) (m.setCpu c ⟨some p, .back p⟩)
  | resume (c p : Nat) (r : Resume) (inside : (m.cpu c).sched = .inside p)
      (stage : m.stage p = .returning r) (quick : r = .forkret ∨ r = .yield) :
      Took m (.resume c) ((m.setStage p .free).setLock none)
  | wake (c p : Nat) (inside : (m.cpu c).sched = .inside p)
      (stage : m.stage p = .returning .sleep) :
      Took m (.resume c)
        (((m.setProc p fun q => { q with chan := none }).setStage p .free).setLock none)
  | wakeWait (c p : Nat) (inside : (m.cpu c).sched = .inside p)
      (stage : m.stage p = .returning .wait) :
      Took m (.resume c) ((m.setProc p fun q => { q with chan := none }).setStage p .scanning)
  | yield (c p : Nat) (on : On m c p) (free : m.lock = none) :
      Took m (.yield c) (((m.setProc p fun q => { q with state := .runnable }).setStage p
        (.switching .yield)).setLock (some c))
  | timer (c : Nat) (chan : Option Chan) (away : ∀ i, chan ≠ some (.proc i)) :
      Took m (.timer c false) { m with table := wakeup1 m.table chan }
  | idleTimer (c : Nat) : Took m (.timer c false) m
  | countTick (p : Nat) (on : On m 0 p) (user : m.work p = .user) :
      Took m (.timer 0 true) (({ m with table := wakeup1 m.table (some (.other 0)) }.setProc p
        fun q => { q with ticks := succInt q.ticks }).log (.userTick p))
  | loseTick (c p : Nat) (other : c ≠ 0) (on : On m c p) (user : m.work p = .user) :
      Took m (.timer c true) (m.log (.userTick p))
  | sleep (c p address : Nat) (on : On m c p) (free : m.lock = none) (user : m.work p = .user) :
      Took m (.sleep c address) (((m.setProc p fun q =>
        { q with chan := some (.other address), state := .sleeping }).setStage p
          (.switching .sleep)).setLock (some c))
  | wakeup (address : Nat) (free : m.lock = none) :
      Took m (.wakeup address) { m with table := wakeup1 m.table (some (.other address)) }
  | kill (pid : Int) (free : m.lock = none) :
      Took m (.kill pid) ({ m with table := (ProcTable.kill m.table pid).2 }.log (.killCall pid))
  | fault (c p : Nat) (on : On m c p) (user : m.work p = .user) :
      Took m (.fault c) (m.setProc p fun q => { q with killed := true })
  | allocproc (c p np : Nat) (on : On m c p) (free : m.lock = none) (user : m.work p = .user)
      (inside : np < nproc) (unused : (m.table np).state = .unused) :
      Took m (.allocproc c) (({ (m.setProc np fun q =>
        { q with state := .embryo, pid := m.nextpid, ticks := 0 }).setWork p (.building np) with
          nextpid := succInt m.nextpid }).log (.allocated np m.nextpid))
  | failFork (c p np : Nat) (on : On m c p) (building : m.work p = .building np) :
      Took m (.failFork c) ((m.setProc np fun q => { q with state := .unused }).setWork p .user)
  | adopt (c p np : Nat) (on : On m c p) (building : m.work p = .building np) :
      Took m (.adopt c) ((m.setProc np fun q => { q with parent := some p }).setWork p (.adopted np))
  | fork (c p np : Nat) (on : On m c p) (adopted : m.work p = .adopted np) :
      Took m (.fork c) (((((m.setProc np fun q => { q with state := .runnable }).setWork p
        .user).setWork np .user).setStage np (.switching .forkret)).log
          (.forked (m.table p).pid (m.table np).pid))
  | startExit (c p : Nat) (on : On m c p) (user : m.work p = .user) (other : p ≠ m.initproc) :
      Took m (.startExit c) ((m.setProc p fun q => { q with inuse := false }).setWork p .exiting)
  | exit (c p : Nat) (on : On m c p) (free : m.lock = none) (exiting : m.work p = .exiting) :
      Took m (.exit c) ((({ m with table := exitTable m p }.setWork p .user).setStage p
        (.switching .exit)).setLock (some c))
  | wait (c p : Nat) (on : On m c p) (free : m.lock = none) (user : m.work p = .user) :
      Took m (.wait c) (waitScan m c p)
  | rescan (c p : Nat) (inside : (m.cpu c).sched = .inside p) (stage : m.stage p = .scanning) :
      Took m (.rescan c) (waitScan m c p)

section Inversion
variable {m next : Machine} {c p : Nat} {act : Act}

theorem on_of_freeOn (executes : freeOn m c = some p) : On m c p := by
  unfold freeOn at executes
  split at executes
  · rename_i q inside
    split at executes
    · rename_i free
      cases executes
      exact ⟨inside, free⟩
    · cases executes
  · cases executes

theorem firstSlot_some {t : Table} {wanted : Proc → Bool} {i : Nat}
    (found : firstSlot t wanted = some i) : i < nproc ∧ wanted (t i) = true := by
  have member := List.mem_of_find?_eq_some found
  have hit := List.find?_some (p := fun i => wanted (t i)) found
  exact ⟨List.mem_range.mp member, hit⟩

theorem firstSlot_none {t : Table} {wanted : Proc → Bool} {i : Nat}
    (missed : firstSlot t wanted = none) (inside : i < nproc) : wanted (t i) = false := by
  have miss := List.find?_eq_none.mp missed i (List.mem_range.mpr inside)
  simpa using miss

theorem took_scheduler (stepped : scheduler m c = some next) : Took m (.scheduler c) next := by
  unfold scheduler at stepped
  split at stepped
  case h_1 idle =>
    split at stepped
    · rename_i free
      cases stepped
      exact .acquire c idle free
    · cases stepped
  case h_2 i scan =>
    split at stepped
    · rename_i inside
      split at stepped
      · rename_i runnable
        cases stepped
        exact .dispatch c i scan inside runnable
      · cases stepped
        exact .skip c i scan
    · cases stepped
      exact .release c i scan
  case h_3 i launch =>
    split at stepped
    · rename_i r stage
      cases stepped
      exact .launch c i r launch stage
    · cases stepped
  case h_4 => cases stepped
  case h_5 i back =>
    cases stepped
    exact .back c i back

theorem took_resume (stepped : resume m c = some next) : Took m (.resume c) next := by
  unfold resume at stepped
  split at stepped
  case h_1 p inside =>
    split at stepped
    case h_1 stage =>
      cases stepped
      exact .resume c p .forkret inside stage (.inl rfl)
    case h_2 stage =>
      cases stepped
      exact .resume c p .yield inside stage (.inr rfl)
    case h_3 stage =>
      cases stepped
      exact .wake c p inside stage
    case h_4 stage =>
      cases stepped
      exact .wakeWait c p inside stage
    case h_5 => cases stepped
  case h_2 => cases stepped

theorem took_of_step (stepped : step m act = some next) : Took m act next := by
  cases act with
  | scheduler c => exact took_scheduler stepped
  | resume c => exact took_resume stepped
  | swtch c =>
    simp only [step, swtch] at stepped
    split at stepped
    · rename_i p inside
      split at stepped
      · rename_i r stage
        cases stepped
        exact .swtch c p r inside stage
      · cases stepped
    · cases stepped
  | wakeup address =>
    simp only [step] at stepped
    split at stepped
    · rename_i free
      cases stepped
      exact .wakeup address free
    · cases stepped
  | kill pid =>
    simp only [step] at stepped
    split at stepped
    · rename_i free
      cases stepped
      exact .kill pid free
    · cases stepped
  | rescan c =>
    simp only [step] at stepped
    split at stepped
    · rename_i p inside
      split at stepped
      · rename_i stage
        cases stepped
        exact .rescan c p inside stage
      · cases stepped
    · cases stepped
  | timer c user =>
    simp only [step] at stepped
    split at stepped
    · cases stepped
    cases user with
    | false =>
      simp only [Bool.false_eq_true, if_false] at stepped
      cases stepped
      split
      · exact .timer c _ (fun i => by simp)
      · exact .idleTimer c
    | true =>
      simp only [if_true] at stepped
      obtain ⟨p, executes, stepped⟩ := Option.bind_eq_some_iff.mp stepped
      have on := on_of_freeOn executes
      split at stepped
      · rename_i user
        cases stepped
        by_cases first : c = 0
        · subst first
          simpa using Took.countTick p on user
        · simpa [first] using Took.loseTick c p first on user
      · cases stepped
  | allocproc c =>
    obtain ⟨p, executes, stepped⟩ := Option.bind_eq_some_iff.mp stepped
    split at stepped
    · rename_i guard
      obtain ⟨np, found, rfl⟩ := Option.map_eq_some_iff.mp stepped
      obtain ⟨inside, unused⟩ := firstSlot_some found
      exact .allocproc c p np (on_of_freeOn executes) guard.1 guard.2 inside (by simpa using unused)
    · cases stepped
  | yield c =>
    obtain ⟨p, executes, stepped⟩ := Option.bind_eq_some_iff.mp stepped
    split at stepped
    · rename_i free
      cases stepped
      exact .yield c p (on_of_freeOn executes) free
    · cases stepped
  | sleep c address =>
    obtain ⟨p, executes, stepped⟩ := Option.bind_eq_some_iff.mp stepped
    split at stepped
    · rename_i guard
      cases stepped
      exact .sleep c p address (on_of_freeOn executes) guard.1 guard.2
    · cases stepped
  | fault c =>
    obtain ⟨p, executes, stepped⟩ := Option.bind_eq_some_iff.mp stepped
    split at stepped
    · rename_i user
      cases stepped
      exact .fault c p (on_of_freeOn executes) user
    · cases stepped
  | failFork c =>
    obtain ⟨p, executes, stepped⟩ := Option.bind_eq_some_iff.mp stepped
    split at stepped
    · rename_i np building
      cases stepped
      exact .failFork c p np (on_of_freeOn executes) building
    · cases stepped
  | adopt c =>
    obtain ⟨p, executes, stepped⟩ := Option.bind_eq_some_iff.mp stepped
    split at stepped
    · rename_i np building
      cases stepped
      exact .adopt c p np (on_of_freeOn executes) building
    · cases stepped
  | fork c =>
    obtain ⟨p, executes, stepped⟩ := Option.bind_eq_some_iff.mp stepped
    split at stepped
    · rename_i np adopted
      cases stepped
      exact .fork c p np (on_of_freeOn executes) adopted
    · cases stepped
  | startExit c =>
    obtain ⟨p, executes, stepped⟩ := Option.bind_eq_some_iff.mp stepped
    split at stepped
    · rename_i guard
      cases stepped
      exact .startExit c p (on_of_freeOn executes) guard.1 guard.2
    · cases stepped
  | exit c =>
    obtain ⟨p, executes, stepped⟩ := Option.bind_eq_some_iff.mp stepped
    split at stepped
    · rename_i guard
      cases stepped
      exact .exit c p (on_of_freeOn executes) guard.1 guard.2
    · cases stepped
  | wait c =>
    obtain ⟨p, executes, stepped⟩ := Option.bind_eq_some_iff.mp stepped
    split at stepped
    · rename_i guard
      cases stepped
      exact .wait c p (on_of_freeOn executes) guard.1 guard.2
    · cases stepped

end Inversion

/-- The scan of wait reaps a zombie, gives up, or goes to sleep. -/
inductive Scanned (m : Machine) (c p : Nat) : Machine → Prop
  | reap (z : Nat) (inside : z < nproc) (child : (m.table z).parent = some p)
      (zombie : (m.table z).state = .zombie) :
      Scanned m c p ((((m.setProc z fun q =>
        { q with state := .unused, pid := 0, parent := none, killed := false }).setStage p
          .free).setLock none).log (.waited (m.table p).pid (m.table z).pid))
  | giveUp : Scanned m c p ((m.setStage p .free).setLock none)
  | sleep (childless : ∀ i < nproc, (m.table i).parent = some p → (m.table i).state ≠ .zombie) :
      Scanned m c p (((m.setProc p fun q =>
        { q with chan := some (.proc p), state := .sleeping }).setStage p
          (.switching .wait)).setLock (some c))

theorem scanned (m : Machine) (c p : Nat) : Scanned m c p (waitScan m c p) := by
  unfold waitScan
  split
  · rename_i z found
    obtain ⟨inside, hit⟩ := firstSlot_some found
    have both : (m.table z).parent = some p ∧ (m.table z).state = .zombie := by simpa using hit
    exact .reap z inside both.1 both.2
  · rename_i missed
    split
    · exact .giveUp
    · refine .sleep fun i inside child => ?_
      have miss := firstSlot_none missed inside
      simpa [child] using miss

/-- The slot that a CPU has as its current process. -/
def current : Sched → Option Nat
  | .idle => none
  | .scan _ => none
  | .launch i => some i
  | .inside i => some i
  | .back i => some i

def needsLock : Sched → Bool
  | .idle => false
  | .scan _ => true
  | .launch _ => true
  | .inside _ => false
  | .back _ => true

/-- The process has given up the CPU. -/
def Halted (state : ProcState) : Prop := state = .runnable ∨ state = .sleeping ∨ state = .zombie

structure SchedInv (m : Machine) : Prop where
  proc : ∀ c, (m.cpu c).proc = current (m.cpu c).sched
  locked : ∀ c, needsLock (m.cpu c).sched = true → m.lock = some c
  inner : ∀ c p, (m.cpu c).sched = .inside p → m.stage p ≠ .free → m.lock = some c
  unique : ∀ c d p, current (m.cpu c).sched = some p → current (m.cpu d).sched = some p → c = d
  parked : ∀ p, (m.table p).state = .runnable ∨ (m.table p).state = .sleeping →
    ∃ r, m.stage p = .switching r ∧ r ≠ .exit
  dead : ∀ p, (m.table p).state = .zombie → m.stage p = .switching .exit
  running : ∀ p, (m.table p).state = .running →
    ∃ c, (m.cpu c).sched = .launch p ∨ (m.cpu c).sched = .inside p
  launched : ∀ c p, (m.cpu c).sched = .launch p → (m.table p).state = .running ∧
    ∃ r, m.stage p = .switching r ∧ r ≠ .exit
  inside : ∀ c p, (m.cpu c).sched = .inside p →
    ((m.table p).state = .running ∧ ∀ r, m.stage p ≠ .switching r) ∨ Halted (m.table p).state
  back : ∀ c p, (m.cpu c).sched = .back p → Halted (m.table p).state

/-- What the other processes may do to the state of a slot. -/
inductive Drift : ProcState → ProcState → Prop
  | same (s : ProcState) : Drift s s
  | wake : Drift .sleeping .runnable
  | take : Drift .unused .embryo
  | drop : Drift .embryo .unused

section Keep
variable {m next : Machine} {c p : Nat}

theorem drift_running {s s' : ProcState} (drift : Drift s s') : s' = .running ↔ s = .running := by
  cases drift <;> simp

theorem drift_zombie {s s' : ProcState} (drift : Drift s s') : s' = .zombie ↔ s = .zombie := by
  cases drift <;> simp

theorem drift_halted {s s' : ProcState} (drift : Drift s s') : Halted s' ↔ Halted s := by
  cases drift <;> simp [Halted]

theorem drift_parked {s s' : ProcState} (drift : Drift s s')
    (parked : s' = .runnable ∨ s' = .sleeping) : s = .runnable ∨ s = .sleeping := by
  cases drift <;> simp_all

theorem halted_stage (inv : SchedInv m) (halted : Halted (m.table p).state) :
    ∃ r, m.stage p = .switching r := by
  rcases halted with runnable | sleeping | zombie
  · obtain ⟨r, stage, _⟩ := inv.parked p (.inl runnable)
    exact ⟨r, stage⟩
  · obtain ⟨r, stage, _⟩ := inv.parked p (.inr sleeping)
    exact ⟨r, stage⟩
  · exact ⟨_, inv.dead p zombie⟩

theorem running_of_inside (inv : SchedInv m) (inside : (m.cpu c).sched = .inside p)
    (outside : ∀ r, m.stage p ≠ .switching r) : (m.table p).state = .running := by
  rcases inv.inside c p inside with ⟨running, _⟩ | halted
  · exact running
  · obtain ⟨r, stage⟩ := halted_stage inv halted
    exact absurd stage (outside r)

theorem on_running (inv : SchedInv m) (on : On m c p) : (m.table p).state = .running :=
  running_of_inside inv on.sched fun r same => by
    rw [on.free] at same
    cases same

theorem sched_drift (inv : SchedInv m) (cpu : next.cpu = m.cpu) (lock : next.lock = m.lock)
    (stage : next.stage = m.stage)
    (drift : ∀ p, Drift (m.table p).state (next.table p).state) : SchedInv next := by
  constructor
  · rw [cpu]
    exact inv.proc
  · rw [cpu, lock]
    exact inv.locked
  · rw [cpu, lock, stage]
    exact inv.inner
  · rw [cpu]
    exact inv.unique
  · intro p parked
    rw [stage]
    exact inv.parked p (drift_parked (drift p) parked)
  · intro p zombie
    rw [stage]
    exact inv.dead p ((drift_zombie (drift p)).mp zombie)
  · intro p running
    rw [cpu]
    exact inv.running p ((drift_running (drift p)).mp running)
  · intro c p launch
    rw [cpu] at launch
    rw [stage, drift_running (drift p)]
    exact inv.launched c p launch
  · intro c p inside
    rw [cpu] at inside
    rw [stage, drift_running (drift p), drift_halted (drift p)]
    exact inv.inside c p inside
  · intro c p back
    rw [cpu] at back
    rw [drift_halted (drift p)]
    exact inv.back c p back

theorem only_cpu (inv : SchedInv m) (inside : (m.cpu c).sched = .inside p) {d : Nat}
    (there : current (m.cpu d).sched = some p) : (m.cpu d).sched = .inside p := by
  have same : d = c := inv.unique d c p there (by rw [inside]; rfl)
  rw [same]
  exact inside

theorem no_other_lock (lock : m.lock = none ∨ m.lock = some c) {d : Nat}
    (need : m.lock = some d) : d = c := by
  rcases lock with free | mine
  · rw [free] at need
    cases need
  · rw [mine] at need
    exact (Option.some.inj need).symm

theorem sched_halt {r : Resume} (inv : SchedInv m) (inside : (m.cpu c).sched = .inside p)
    (lock : m.lock = none ∨ m.lock = some c) (cpu : next.cpu = m.cpu)
    (locked : next.lock = some c) (here : next.stage p = .switching r)
    (stage : ∀ q, q ≠ p → next.stage q = m.stage q)
    (state : r ≠ .exit ∧ ((next.table p).state = .runnable ∨ (next.table p).state = .sleeping) ∨
      r = .exit ∧ (next.table p).state = .zombie)
    (drift : ∀ q, q ≠ p → Drift (m.table q).state (next.table q).state) : SchedInv next := by
  have halted : Halted (next.table p).state := by
    rcases state with ⟨_, runnable | sleeping⟩ | ⟨_, zombie⟩
    · exact .inl runnable
    · exact .inr (.inl sleeping)
    · exact .inr (.inr zombie)
  have apart : ∀ d q, current (m.cpu d).sched = some q → d ≠ c → q ≠ p := by
    rintro d q there other rfl
    exact other (inv.unique d c q there (by rw [inside]; rfl))
  constructor
  · rw [cpu]
    exact inv.proc
  · intro d need
    rw [cpu] at need
    rw [locked, no_other_lock lock (inv.locked d need)]
  · intro d q there busy
    rw [cpu] at there
    by_cases same : d = c
    · rw [same, locked]
    · have other : q ≠ p := apart d q (by rw [there]; rfl) same
      rw [stage q other] at busy
      rw [locked, no_other_lock lock (inv.inner d q there busy)]
  · rw [cpu]
    exact inv.unique
  · intro q parked
    by_cases same : q = p
    · subst same
      rcases state with ⟨returns, _⟩ | ⟨_, zombie⟩
      · exact ⟨r, here, returns⟩
      · rw [zombie] at parked
        simp at parked
    · rw [stage q same]
      exact inv.parked q (drift_parked (drift q same) parked)
  · intro q zombie
    by_cases same : q = p
    · subst same
      rcases state with ⟨_, runnable | sleeping⟩ | ⟨exits, _⟩
      · rw [runnable] at zombie
        cases zombie
      · rw [sleeping] at zombie
        cases zombie
      · rw [here, exits]
    · rw [stage q same]
      exact inv.dead q ((drift_zombie (drift q same)).mp zombie)
  · intro q running
    by_cases same : q = p
    · subst same
      rw [running] at halted
      simp [Halted] at halted
    · rw [cpu]
      exact inv.running q ((drift_running (drift q same)).mp running)
  · intro d q launch
    rw [cpu] at launch
    by_cases same : q = p
    · subst same
      have := only_cpu inv inside (d := d) (by rw [launch]; rfl)
      rw [launch] at this
      cases this
    · rw [stage q same, drift_running (drift q same)]
      exact inv.launched d q launch
  · intro d q there
    rw [cpu] at there
    by_cases same : q = p
    · rw [same]
      exact .inr halted
    · rw [stage q same, drift_running (drift q same), drift_halted (drift q same)]
      exact inv.inside d q there
  · intro d q back
    rw [cpu] at back
    by_cases same : q = p
    · rw [same]
      exact halted
    · rw [drift_halted (drift q same)]
      exact inv.back d q back

theorem runnable_nowhere {i : Nat} (inv : SchedInv m) (scan : (m.cpu c).sched = .scan i)
    (runnable : (m.table p).state = .runnable) (d : Nat) : current (m.cpu d).sched ≠ some p := by
  have mine : m.lock = some c := inv.locked c (by rw [scan]; rfl)
  have stage := halted_stage inv (.inl runnable)
  intro there
  have launched := inv.launched d p
  have inner := inv.inner d p
  have locked := inv.locked d
  cases place : (m.cpu d).sched <;> rw [place] at there locked <;> grind [current, needsLock]

theorem sched_acquire (inv : SchedInv m) (idle : (m.cpu c).sched = .idle) (free : m.lock = none) :
    SchedInv ((m.setLock (some c)).setCpu c ⟨none, .scan 0⟩) := by
  obtain ⟨proc, locked, inner, unique, parked, dead, running, launched, inside, back⟩ := inv
  constructor <;> simp only [Machine.setLock, Machine.setCpu] <;> grind [current, needsLock]

theorem sched_dispatch {i : Nat} (inv : SchedInv m) (scan : (m.cpu c).sched = .scan i)
    (runnable : (m.table i).state = .runnable) :
    SchedInv ((m.setProc i fun p => { p with state := .running, inuse := true }).setCpu
      c ⟨some i, .launch i⟩) := by
  have away := runnable_nowhere inv scan runnable
  obtain ⟨proc, locked, inner, unique, parked, dead, running, launched, inside, back⟩ := inv
  constructor <;> simp only [Machine.setProc, update, Machine.setCpu] <;>
    grind [current, needsLock, Halted]

/-- The loop goes on to the next slot: this one is not RUNNABLE, or its process has come back. -/
theorem sched_next {i : Nat} (inv : SchedInv m)
    (here : (m.cpu c).sched = .scan i ∨ (m.cpu c).sched = .back i) :
    SchedInv (m.setCpu c ⟨none, .scan (i + 1)⟩) := by
  obtain ⟨proc, locked, inner, unique, parked, dead, running, launched, inside, back⟩ := inv
  constructor <;> simp only [Machine.setCpu] <;> grind [current, needsLock, Halted]

theorem sched_release {i : Nat} (inv : SchedInv m) (scan : (m.cpu c).sched = .scan i) :
    SchedInv ((m.setLock none).setCpu c ⟨none, .idle⟩) := by
  obtain ⟨proc, locked, inner, unique, parked, dead, running, launched, inside, back⟩ := inv
  constructor <;> simp only [Machine.setLock, Machine.setCpu] <;> grind [current, needsLock]

theorem sched_launch {i : Nat} {r : Resume} (inv : SchedInv m)
    (launch : (m.cpu c).sched = .launch i) (stage : m.stage i = .switching r) :
    SchedInv ((m.setStage i (.returning r)).setCpu c ⟨some i, .inside i⟩) := by
  obtain ⟨proc, locked, inner, unique, parked, dead, running, launched, inside, back⟩ := inv
  constructor <;> simp only [Machine.setStage, Machine.setCpu] <;>
    grind [current, needsLock, Halted]

theorem sched_swtch {r : Resume} (inv : SchedInv m) (there : (m.cpu c).sched = .inside p)
    (switching : m.stage p = .switching r) : SchedInv (m.setCpu c ⟨some p, .back p⟩) := by
  obtain ⟨proc, locked, inner, unique, parked, dead, running, launched, inside, back⟩ := inv
  constructor <;> simp only [Machine.setCpu] <;> grind [current, needsLock, Halted]

theorem sched_leave (inv : SchedInv m) (there : (m.cpu c).sched = .inside p)
    (outside : ∀ r, m.stage p ≠ .switching r) (lock : m.lock = none ∨ m.lock = some c)
    (cpu : next.cpu = m.cpu) (here : next.stage p = .free ∨
      next.stage p = .scanning ∧ next.lock = some c)
    (stage : ∀ q, q ≠ p → next.stage q = m.stage q)
    (mine : (next.table p).state = .running)
    (state : ∀ q, q ≠ p → (next.table q).state = (m.table q).state ∨
      (next.table q).state = .unused ∧ ∀ d, current (m.cpu d).sched ≠ some q) :
    SchedInv next := by
  have alone := fun d => only_cpu (d := d) inv there
  have kept : ∀ d q, current (m.cpu d).sched = some q → q ≠ p →
      (next.table q).state = (m.table q).state := by
    intro d q executes other
    rcases state q other with same | ⟨_, nowhere⟩
    · exact same
    · exact absurd executes (nowhere d)
  constructor
  · rw [cpu]
    exact inv.proc
  · intro d need
    rw [cpu] at need
    obtain rfl := no_other_lock lock (inv.locked d need)
    rw [there] at need
    cases need
  · intro d q inside busy
    rw [cpu] at inside
    by_cases same : q = p
    · subst same
      obtain rfl : d = c := inv.unique d c q (by rw [inside]; rfl) (by rw [there]; rfl)
      rcases here with free | scanning
      · exact absurd free busy
      · exact scanning.2
    · rw [stage q same] at busy
      obtain rfl := no_other_lock lock (inv.inner d q inside busy)
      rw [there] at inside
      exact absurd (Sched.inside.inj inside).symm same
  · rw [cpu]
    exact inv.unique
  · intro q parked
    by_cases same : q = p
    · rw [same, mine] at parked
      simp at parked
    · rcases state q same with before | ⟨unused, _⟩
      · rw [before] at parked
        rw [stage q same]
        exact inv.parked q parked
      · rw [unused] at parked
        simp at parked
  · intro q zombie
    by_cases same : q = p
    · rw [same, mine] at zombie
      cases zombie
    · rcases state q same with before | ⟨unused, _⟩
      · rw [before] at zombie
        rw [stage q same]
        exact inv.dead q zombie
      · rw [unused] at zombie
        cases zombie
  · intro q running
    rw [cpu]
    by_cases same : q = p
    · exact ⟨c, .inr (same ▸ there)⟩
    · rcases state q same with before | ⟨unused, _⟩
      · rw [before] at running
        exact inv.running q running
      · rw [unused] at running
        cases running
  · intro d q launch
    rw [cpu] at launch
    by_cases same : q = p
    · subst same
      have clash := alone d (by rw [launch]; rfl)
      rw [launch] at clash
      cases clash
    · rw [kept d q (by rw [launch]; rfl) same, stage q same]
      exact inv.launched d q launch
  · intro d q inside
    rw [cpu] at inside
    by_cases same : q = p
    · subst same
      left
      refine ⟨mine, fun r switching => ?_⟩
      rw [switching] at here
      simp at here
    · rw [kept d q (by rw [inside]; rfl) same, stage q same]
      exact inv.inside d q inside
  · intro d q back
    rw [cpu] at back
    by_cases same : q = p
    · subst same
      have clash := alone d (by rw [back]; rfl)
      rw [back] at clash
      cases clash
    · rw [kept d q (by rw [back]; rfl) same]
      exact inv.back d q back

theorem sched_fork {np : Nat} (inv : SchedInv m) (embryo : (m.table np).state = .embryo)
    (cpu : next.cpu = m.cpu) (lock : next.lock = m.lock)
    (here : next.stage np = .switching .forkret) (stage : ∀ q, q ≠ np → next.stage q = m.stage q)
    (runnable : (next.table np).state = .runnable)
    (state : ∀ q, q ≠ np → (next.table q).state = (m.table q).state) : SchedInv next := by
  -- an embryo is on no CPU
  have apart : ∀ d q, current (m.cpu d).sched = some q → q ≠ np := by
    rintro d q there rfl
    have launched := inv.launched d q
    have inside := inv.inside d q
    have back := inv.back d q
    cases place : (m.cpu d).sched <;> rw [place] at there <;> grind [current, Halted]
  constructor
  · rw [cpu]
    exact inv.proc
  · rw [cpu, lock]
    exact inv.locked
  · intro d q inside busy
    rw [cpu] at inside
    rw [stage q (apart d q (by rw [inside]; rfl))] at busy
    rw [lock]
    exact inv.inner d q inside busy
  · rw [cpu]
    exact inv.unique
  · intro q parked
    by_cases same : q = np
    · exact ⟨.forkret, same ▸ here, by decide⟩
    · rw [state q same] at parked
      rw [stage q same]
      exact inv.parked q parked
  · intro q zombie
    by_cases same : q = np
    · rw [same, runnable] at zombie
      cases zombie
    · rw [state q same] at zombie
      rw [stage q same]
      exact inv.dead q zombie
  · intro q runs
    by_cases same : q = np
    · rw [same, runnable] at runs
      cases runs
    · rw [state q same] at runs
      rw [cpu]
      exact inv.running q runs
  · intro d q launch
    rw [cpu] at launch
    have other := apart d q (by rw [launch]; rfl)
    rw [state q other, stage q other]
    exact inv.launched d q launch
  · intro d q inside
    rw [cpu] at inside
    have other := apart d q (by rw [inside]; rfl)
    rw [state q other, stage q other]
    exact inv.inside d q inside
  · intro d q back
    rw [cpu] at back
    rw [state q (apart d q (by rw [back]; rfl))]
    exact inv.back d q back

end Keep

end Xv6.SchedSpec
