import Mathlib.Data.List.Nodup
import Xv6.Lifecycle

/-! fork, exit and wait over whole runs: who sleeps in wait has no zombie child, pids of
slots in use are distinct, and every child is waited for at most once, by its parent or
by init. -/
namespace Xv6.WaitSpec
open Transition ProcTable SchedSpec Lifecycle

/-- SLEEPING in the loop of wait. -/
structure InWait (m : Machine) (i : Nat) : Prop where
  asleep : (m.table i).state = .sleeping
  stage : m.stage i = .switching .wait

structure WaitInv (m : Machine) : Prop where
  chan : ∀ i, InWait m i → (m.table i).chan = some (.proc i)
  childless : ∀ i z, InWait m i → (m.table z).parent = some i → (m.table z).state ≠ .zombie

section Wait
variable {m next : Machine} {c p : Nat} {act : Act}

theorem wait_keep (inv : WaitInv m)
    (asleep : ∀ i, InWait next i → InWait m i ∧ (next.table i).chan = (m.table i).chan)
    (zombies : ∀ z, (next.table z).state = .zombie → (m.table z).state = .zombie ∧
      (next.table z).parent = (m.table z).parent) : WaitInv next := by
  constructor
  · intro i waits
    obtain ⟨before, same⟩ := asleep i waits
    rw [same]
    exact inv.chan i before
  · intro i z waits child zombie
    obtain ⟨dead, same⟩ := zombies z zombie
    rw [same] at child
    exact inv.childless i z (asleep i waits).1 child dead

theorem wakeOne_asleep {chan : Option Chan} {q : Proc} (asleep : (wakeOne chan q).state = .sleeping) :
    wakeOne chan q = q := by
  unfold wakeOne at asleep ⊢
  split at asleep
  · cases asleep
  · rename_i other
    rw [if_neg other]

theorem wakeOne_zombie {chan : Option Chan} {q : Proc} (zombie : (wakeOne chan q).state = .zombie) :
    wakeOne chan q = q := by
  unfold wakeOne at zombie ⊢
  split at zombie
  · cases zombie
  · rename_i other
    rw [if_neg other]

theorem wait_wakeup (inv : WaitInv m) (chan : Option Chan) :
    WaitInv { m with table := wakeup1 m.table chan } := by
  refine wait_keep inv (fun i waits => ?_) fun z zombie => ?_
  · obtain ⟨asleep, stage⟩ := waits
    simp only [wakeup1] at asleep ⊢
    split at asleep
    · rename_i inside
      rw [wakeOne_asleep asleep] at asleep
      rw [if_pos inside]
      refine ⟨⟨asleep, stage⟩, ?_⟩
      unfold wakeOne
      split <;> rfl
    · rename_i outside
      rw [if_neg outside]
      exact ⟨⟨asleep, stage⟩, rfl⟩
  · simp only [wakeup1] at zombie ⊢
    split at zombie
    · rename_i inside
      rw [if_pos inside, wakeOne_zombie zombie]
      rw [wakeOne_zombie zombie] at zombie
      exact ⟨zombie, rfl⟩
    · rename_i outside
      rw [if_neg outside]
      exact ⟨zombie, rfl⟩

theorem wait_slot (i : Nat) (inv : WaitInv m)
    (others : ∀ j, j ≠ i → next.table j = m.table j ∧ next.stage j = m.stage j)
    (awake : ¬ InWait next i ∨ InWait m i ∧ (next.table i).chan = (m.table i).chan)
    (zombie : (next.table i).state = .zombie → (m.table i).state = .zombie ∧
      (next.table i).parent = (m.table i).parent) : WaitInv next := by
  refine wait_keep inv (fun j waits => ?_) fun z dead => ?_
  · by_cases here : j = i
    · rw [here] at waits ⊢
      rcases awake with not | same
      · exact absurd waits not
      · exact same
    · obtain ⟨table, stage⟩ := others j here
      obtain ⟨asleep, place⟩ := waits
      rw [table] at asleep ⊢
      rw [stage] at place
      exact ⟨⟨asleep, place⟩, rfl⟩
  · by_cases here : z = i
    · rw [here] at dead ⊢
      exact zombie dead
    · rw [(others z here).1] at dead ⊢
      exact ⟨dead, rfl⟩

theorem wait_exit (sound : Sound m) (inv : WaitInv m) (on : On m c p) :
    WaitInv ((({ m with table := exitTable m p }.setWork p .user).setStage p
      (.switching .exit)).setLock (some c)) := by
  have out := exited m p
  have running := on_running sound.sched on
  have waits : ∀ i, InWait ((({ m with table := exitTable m p }.setWork p .user).setStage p
      (.switching .exit)).setLock (some c)) i →
        i ≠ p ∧ (exitTable m p i).state = .sleeping ∧ InWait m i := by
    rintro i ⟨asleep, stage⟩
    simp only [setLock_rest, setStage_stage, setStage_rest, setWork_rest] at asleep stage
    by_cases here : i = p
    · simp [here] at stage
    · rw [if_neg here] at stage
      have state := out.state i here
      exact ⟨here, asleep, by grind, stage⟩
  constructor
  · intro i sleeps
    obtain ⟨_, _, before⟩ := waits i sleeps
    simp only [setLock_rest, setStage_rest, setWork_rest]
    rw [(out.rest i).2.1]
    exact inv.chan i before
  · intro i z sleeps child zombie
    obtain ⟨other, asleep, before⟩ := waits i sleeps
    simp only [setLock_rest, setStage_rest, setWork_rest] at child zombie
    have inside : i < nproc := sound.family.bound i (by simp [kindAt, before.asleep, kindOf])
    have chan : (exitTable m p i).chan = some (.proc i) := by
      rw [(out.rest i).2.1]
      exact inv.chan i before
    obtain ⟨stranger, orphans⟩ := out.woken i inside other asleep chan
    by_cases self : z = p
    · -- the new zombie has woken its parent
      subst self
      have parent := out.parent z
      have other := sound.family.self z
      grind
    · have state := out.state z self
      have dead : (m.table z).state = .zombie := by grind
      rcases out.parent z with ⟨passed, low, mine⟩ | ⟨same, _⟩
      · -- the zombies that init takes over have woken it
        rw [passed] at child
        exact orphans (Option.some.inj child).symm z low mine dead
      · rw [same] at child
        exact inv.childless i z before child dead

theorem wait_scanned (sound : Sound m) (inv : WaitInv m) (scan : Scanned m c p next) :
    WaitInv next := by
  cases scan with
  | reap z inside child zombie =>
    refine wait_keep inv (fun i waits => ?_) fun y dead => ?_
    · obtain ⟨asleep, stage⟩ := waits
      simp only [log_rest, setLock_rest, setStage_stage, setStage_rest, setProc_table] at asleep stage ⊢
      have other : i ≠ p := by
        rintro rfl
        simp at stage
      have apart : i ≠ z := by
        rintro rfl
        simp at asleep
      simp only [if_neg other] at stage
      simp only [if_neg apart] at asleep ⊢
      exact ⟨⟨asleep, stage⟩, trivial⟩
    · simp only [log_rest, setLock_rest, setStage_rest, setProc_table] at dead ⊢
      split at dead
      · cases dead
      · rename_i other
        rw [if_neg other]
        exact ⟨dead, rfl⟩
  | giveUp =>
    refine wait_slot p inv ?_ (.inl ?_) ?_
    · simp +contextual
    · rintro ⟨_, stage⟩
      simp at stage
    · simp
  | sleep childless =>
    constructor
    · rintro i ⟨asleep, stage⟩
      simp only [setLock_rest, setStage_stage, setStage_rest, setProc_table] at asleep stage ⊢
      by_cases here : i = p
      · simp [here]
      · simp only [if_neg here] at asleep stage ⊢
        exact inv.chan i ⟨asleep, stage⟩
    · rintro i z ⟨asleep, stage⟩ child zombie
      simp only [setLock_rest, setStage_stage, setStage_rest, setProc_table] at *
      have other : z ≠ p := by
        rintro rfl
        simp at zombie
      simp only [if_neg other] at child zombie
      by_cases here : i = p
      · subst here
        exact childless z (sound.family.bound z (by simp [kindAt, zombie, kindOf])) child zombie
      · simp only [if_neg here] at asleep stage
        exact inv.childless i z ⟨asleep, stage⟩ child zombie

theorem wait_step (sound : Sound m) (inv : WaitInv m) (took : Took m act next) : WaitInv next := by
  cases took with
  | acquire | skip | release | back | swtch | idleTimer | loseTick =>
    exact ⟨fun i waits => inv.chan i ⟨waits.asleep, waits.stage⟩,
      fun i z waits => inv.childless i z ⟨waits.asleep, waits.stage⟩⟩
  | dispatch c i scan inside runnable =>
    exact wait_slot i inv (by simp +contextual) (.inl fun waits => by simpa using waits.asleep)
      (by simp)
  | launch c i r launch stage =>
    exact wait_slot i inv (by simp +contextual) (.inl fun waits => by simpa using waits.stage)
      (by simp)
  | resume c p r inside stage quick =>
    exact wait_slot p inv (by simp +contextual) (.inl fun waits => by simpa using waits.stage)
      (by simp)
  | wake c p inside stage =>
    exact wait_slot p inv (by simp +contextual) (.inl fun waits => by simpa using waits.stage)
      (by simp)
  | wakeWait c p inside stage =>
    exact wait_slot p inv (by simp +contextual) (.inl fun waits => by simpa using waits.stage)
      (by simp)
  | yield c p on free =>
    exact wait_slot p inv (by simp +contextual) (.inl fun waits => by simpa using waits.stage)
      (by simp)
  | sleep c p address on free user =>
    exact wait_slot p inv (by simp +contextual) (.inl fun waits => by simpa using waits.stage)
      (by simp)
  | timer c chan => exact wait_wakeup inv chan
  | wakeup address free => exact wait_wakeup inv _
  | countTick p on user =>
    have woken := wait_wakeup inv (some (.other 0))
    exact wait_slot p woken (by simp +contextual)
      (.inl fun waits => by simpa [on.free] using waits.stage) (by simp)
  | kill pid free =>
    simp only [ProcTable.kill]
    split
    · rename_i i found
      refine wait_slot i inv ?_ ?_ ?_
      · simp +contextual [update]
      · left
        rintro ⟨asleep, _⟩
        simp only [log_rest, update, if_pos, killOne] at asleep
        grind
      · simp only [log_rest, update, if_pos, killOne]
        grind
    · exact ⟨fun i waits => inv.chan i ⟨waits.asleep, waits.stage⟩,
        fun i z waits => inv.childless i z ⟨waits.asleep, waits.stage⟩⟩
  | fault c p on user =>
    exact wait_slot p inv (by simp +contextual)
      (.inl fun waits => by simpa [on.free] using waits.stage) (by simp)
  | allocproc c p np on free user inside unused =>
    exact wait_slot np inv (by simp +contextual) (.inl fun waits => by simpa using waits.asleep)
      (by simp)
  | failFork c p np on building =>
    exact wait_slot np inv (by simp +contextual) (.inl fun waits => by simpa using waits.asleep)
      (by simp)
  | adopt c p np on building =>
    have embryo := state_embryo (sound.family.maker p np (by rw [building]; rfl)).1
    exact wait_slot np inv (by simp +contextual)
      (.inl fun waits => by simpa [embryo] using waits.asleep) (by simp [embryo])
  | fork c p np on adopted =>
    exact wait_slot np inv (by simp +contextual) (.inl fun waits => by simpa using waits.asleep)
      (by simp)
  | startExit c p on user other =>
    exact wait_slot p inv (by simp +contextual)
      (.inl fun waits => by simpa [on.free] using waits.stage) (by simp)
  | exit c p on free exiting => exact wait_exit sound inv on
  | wait c p on free user =>
    exact wait_scanned sound inv (scanned m c p)
  | rescan c p inside stage =>
    exact wait_scanned sound inv (scanned m c p)

end Wait

def isAllocation : Event → Bool
  | .allocated _ _ => true
  | _ => false

def allocations (history : List Event) : Nat := history.countP isAllocation

theorem allocations_allocated (i : Nat) (pid : Int) (history : List Event) :
    allocations (.allocated i pid :: history) = allocations history + 1 :=
  List.countP_cons_of_pos rfl

/-- The pid that a call of wait returned. -/
def waitedChild : Event → Option Int
  | .waited _ child => some child
  | _ => none

structure PidInv (m : Machine) : Prop where
  next : m.nextpid = allocations m.history + 1
  range : ∀ i, kindAt m i ≠ .unused → 1 ≤ (m.table i).pid ∧ (m.table i).pid < m.nextpid
  distinct : ∀ i j, kindAt m i ≠ .unused → kindAt m j ≠ .unused →
    (m.table i).pid = (m.table j).pid → i = j
  gone : ∀ w child, .waited w child ∈ m.history → child < m.nextpid ∧
    ∀ i, kindAt m i ≠ .unused → (m.table i).pid ≠ child
  once : (m.history.filterMap waitedChild).Nodup
  kin : ∀ i q, kindAt m i = .alive ∨ kindAt m i = .zombie → (m.table i).parent = some q →
    q = m.initproc ∨ .forked (m.table q).pid (m.table i).pid ∈ m.history
  init : (m.table m.initproc).pid = 1
  waiter : ∀ w child, .waited w child ∈ m.history → w = 1 ∨ .forked w child ∈ m.history

/-- Fewer pids than an int can count. -/
def Few (m : Machine) : Prop := allocations m.history < 2 ^ 31 - 1

section Pids
variable {m next : Machine} {c p : Nat} {act : Act}

/-- The history as far as the pids depend on it. -/
structure SameCalls (h h' : List Event) : Prop where
  count : allocations h' = allocations h
  waited : ∀ w child, .waited w child ∈ h' ↔ .waited w child ∈ h
  forked : ∀ parent child, .forked parent child ∈ h' ↔ .forked parent child ∈ h
  children : h'.filterMap waitedChild = h.filterMap waitedChild

theorem sameCalls_cons (h : List Event) {event : Event}
    (quiet : (∃ pid, event = .killCall pid) ∨ ∃ i, event = .userTick i) :
    SameCalls h (event :: h) := by
  rcases quiet with ⟨pid, rfl⟩ | ⟨i, rfl⟩
  · exact ⟨by simp [allocations, isAllocation], by simp, by simp, rfl⟩
  · exact ⟨by simp [allocations, isAllocation], by simp, by simp, rfl⟩

theorem sameCalls_refl (h : List Event) : SameCalls h h :=
  ⟨rfl, fun _ _ => Iff.rfl, fun _ _ => Iff.rfl, rfl⟩

theorem pid_neutral (inv : PidInv m) (neutral : Neutral m next)
    (calls : SameCalls m.history next.history) : PidInv next := by
  obtain ⟨kind, parent, pid, initproc, nextpid, _⟩ := neutral
  obtain ⟨count, waited, forked, children⟩ := calls
  constructor
  · rw [nextpid, count]
    exact inv.next
  · intro i used
    rw [kind] at used
    rw [pid, nextpid]
    exact inv.range i used
  · intro i j first second same
    rw [kind] at first second
    rw [pid, pid] at same
    exact inv.distinct i j first second same
  · intro w child call
    rw [waited] at call
    rw [nextpid]
    refine ⟨(inv.gone w child call).1, fun i used => ?_⟩
    rw [kind] at used
    rw [pid]
    exact (inv.gone w child call).2 i used
  · rw [children]
    exact inv.once
  · intro i q settled child
    rw [kind] at settled
    rw [parent] at child
    rw [initproc, pid, pid, forked]
    exact inv.kin i q settled child
  · rw [initproc, pid]
    exact inv.init
  · intro w child call
    rw [waited] at call
    rw [forked]
    exact inv.waiter w child call

theorem few_moves (moves : Moves m act next) (few : Few next) : Few m := by
  unfold Few allocations at *
  cases moves <;>
    simp only [log_history, setLock_rest, setStage_rest, setWork_rest, setProc_rest,
      List.countP_cons] at few <;> omega

theorem pid_allocproc {np : Nat} (inv : PidInv m) (family : Family m)
    (unused : (m.table np).state = .unused)
    (few : Few (({ (m.setProc np fun q =>
      { q with state := .embryo, pid := m.nextpid, ticks := 0 }).setWork p (.building np) with
        nextpid := succInt m.nextpid }).log (.allocated np m.nextpid))) :
    PidInv (({ (m.setProc np fun q =>
      { q with state := .embryo, pid := m.nextpid, ticks := 0 }).setWork p (.building np) with
        nextpid := succInt m.nextpid }).log (.allocated np m.nextpid)) := by
  obtain ⟨next, range, distinct, gone, once, kin, init, waiter⟩ := inv
  have room : (allocations m.history : Int) + 1 < 2 ^ 31 - 1 := by
    have more : allocations (.allocated np m.nextpid :: m.history) < 2 ^ 31 - 1 := few
    rw [allocations_allocated] at more
    omega
  have succ : succInt m.nextpid = m.nextpid + 1 := by
    unfold succInt
    rw [if_neg]
    omega
  have used := family.init
  have parents := family.parent
  simp only [kindAt] at *
  have blank : kindOf (m.table np).state = .unused := by rw [unused]; rfl
  constructor <;>
    simp only [kindAt, log_history, log_rest, setWork_rest, setProc_table, setProc_rest, succ,
      List.mem_cons]
  · rw [allocations_allocated, next]
    omega
  · grind [kindOf]
  · grind [kindOf]
  · grind [kindOf]
  · exact once
  · grind [kindOf]
  · grind [kindOf]
  · grind

theorem pid_moves (sound : Sound m) (inv : PidInv m) (few : Few next) (moves : Moves m act next) :
    PidInv next := by
  obtain ⟨sched, family⟩ := sound
  cases moves with
  | allocproc c p np on user inside unused => exact pid_allocproc inv family unused few
  | failFork c p np on building =>
    have embryo := (family.maker p np (by rw [building]; rfl)).1
    obtain ⟨init', bound, parent, child, blank, maker, fresh, adopted, single, exiting, root, self⟩ := family
    obtain ⟨next, range, distinct, gone, once, kin, init, waiter⟩ := inv
    simp only [kindAt] at *
    constructor <;> simp only [kindAt, setWork_rest, setProc_table, setProc_rest] <;>
      grind [kindOf]
  | adopt c p np on building =>
    have embryo := (family.maker p np (by rw [building]; rfl)).1
    obtain ⟨next, range, distinct, gone, once, kin, init, waiter⟩ := inv
    simp only [kindAt] at *
    constructor <;> simp only [kindAt, setWork_rest, setProc_table, setProc_rest] <;>
      grind [kindOf]
  | fork c p np on adopts =>
    have embryo := (family.maker p np (by rw [adopts]; rfl)).1
    have mine := family.adopted p np adopts
    obtain ⟨next, range, distinct, gone, once, kin, init, waiter⟩ := inv
    simp only [kindAt] at *
    constructor <;>
      simp only [kindAt, log_history, log_rest, setStage_rest, setWork_rest, setProc_table,
        setProc_rest, List.mem_cons]
    · simpa [allocations, isAllocation] using next
    · grind [kindOf]
    · grind [kindOf]
    · grind [kindOf]
    · exact once
    · grind [kindOf]
    · grind [kindOf]
    · grind
  | startExit c p on user other =>
    obtain ⟨next, range, distinct, gone, once, kin, init, waiter⟩ := inv
    simp only [kindAt] at *
    constructor <;> simp only [kindAt, setWork_rest, setProc_table, setProc_rest] <;>
      grind [kindOf]
  | exit c p on free leaves =>
    have running := on_running sched on
    obtain ⟨gone', state, passed, rest, _⟩ := exited m p
    obtain ⟨next, range, distinct, gone, once, kin, init, waiter⟩ := inv
    generalize exitTable m p = final at *
    simp only [kindAt] at *
    have kind : ∀ i, i ≠ p → kindOf (final i).state = kindOf (m.table i).state := by
      intro i other
      rcases state i other with same | ⟨asleep, woken⟩
      · rw [same]
      · rw [asleep, woken]
        rfl
    have alive : kindOf (m.table p).state = .alive := by rw [running]; rfl
    have used : ∀ i, kindOf (final i).state ≠ .unused → kindOf (m.table i).state ≠ .unused := by
      intro i there
      by_cases here : i = p
      · rw [here, alive]
        decide
      · rwa [← kind i here]
    constructor <;> simp only [kindAt, setLock_rest, setStage_rest, setWork_rest]
    · exact next
    · grind
    · grind
    · grind
    · exact once
    · grind
    · grind
    · exact waiter
  | reap _ c p z there outside lock inside born zombie =>
    have running := running_of_inside sched there outside
    obtain ⟨next, range, distinct, gone, once, kin, init, waiter⟩ := inv
    have root := family.init
    have parents := family.parent
    simp only [kindAt] at *
    constructor <;>
      simp only [kindAt, log_history, log_rest, setLock_rest, setStage_rest, setProc_table,
        setProc_rest, List.mem_cons]
    · simpa [allocations, isAllocation] using next
    · grind [kindOf]
    · grind [kindOf]
    · grind [kindOf]
    · rw [List.filterMap_cons]
      simp only [waitedChild, List.nodup_cons]
      refine ⟨fun again => ?_, once⟩
      obtain ⟨event, member, child⟩ := List.mem_filterMap.mp again
      cases event with
      | waited w returned =>
        have same : returned = (m.table z).pid := Option.some.inj child
        exact (gone w returned member).2 z (by simp [zombie, kindOf]) same.symm
      | _ => cases child
    · grind [kindOf]
    · grind [kindOf]
    · grind [kindOf]

theorem pid_step (sound : Sound m) (inv : Few m → PidInv m) (took : Took m act next)
    (few : Few next) : PidInv next := by
  rcases took_moves sound.sched took with moves | ⟨neutral, history⟩
  · exact pid_moves sound (inv (few_moves moves few)) few moves
  · have calls : SameCalls m.history next.history := by
      rcases history with same | ⟨pid, killed⟩ | ⟨i, ticked⟩
      · rw [same]
        exact sameCalls_refl _
      · rw [killed]
        exact sameCalls_cons _ (.inl ⟨pid, rfl⟩)
      · rw [ticked]
        exact sameCalls_cons _ (.inr ⟨i, rfl⟩)
    refine pid_neutral (inv ?_) neutral calls
    rw [Few, ← calls.count]
    exact few

end Pids

theorem wait_start : WaitInv start := by
  have awake : ∀ i, ¬ InWait start i := by
    rintro i ⟨asleep, _⟩
    rcases start_slot i with ⟨_, runnable, _⟩ | ⟨_, unused⟩
    · rw [runnable] at asleep
      cases asleep
    · rw [unused] at asleep
      cases asleep
  exact ⟨fun i waits => absurd waits (awake i), fun i _ waits => absurd waits (awake i)⟩

theorem pid_start : PidInv start := by
  have only : ∀ i, kindAt start i ≠ .unused → i = 0 := by
    intro i used
    rcases start_slot i with ⟨first, _⟩ | ⟨_, unused⟩
    · exact first
    · simp [kindAt, unused, kindOf] at used
  have orphan := sound_start.family.root
  constructor
  · rfl
  · intro i used
    rw [only i used]
    decide
  · intro i j first second _
    rw [only i first, only j second]
  · simp [start]
  · exact List.nodup_nil
  · intro i q settled child
    rw [only i (by rcases settled with kind | kind <;> simp [kind])] at child
    cases child
  · rfl
  · simp [start]

theorem run_inv {m : Machine} {acts : List Act} (run : exec step start acts = some m) :
    Sound m ∧ WaitInv m ∧ (Few m → PidInv m) := by
  refine exec_preserves (fun m => Sound m ∧ WaitInv m ∧ (Few m → PidInv m)) ?_
    ⟨sound_start, wait_start, fun _ => pid_start⟩ run
  rintro m act next ⟨sound, wait, pids⟩ stepped
  have took := took_of_step stepped
  exact ⟨sound_step sound stepped, wait_step sound wait took, fun few => pid_step sound pids took few⟩

/-- The life of processes. With fewer than 2^31 - 1 allocations, while ptable.lock is
free every process but init has a parent that can wait for it, pids are distinct and
nobody sleeps in wait beside a zombie child; and over the whole run each child is waited
for at most once, by its parent or by init. -/
theorem process_lifecycle (acts : List Act) (m : Machine) (run : exec step start acts = some m)
    (few : Few m) :
    (m.lock = none →
      (∀ i, i ≠ m.initproc → (m.table i).state = .sleeping ∨ (m.table i).state = .runnable ∨
        (m.table i).state = .running ∨ (m.table i).state = .zombie →
          ∃ q, (m.table i).parent = some q ∧ (m.table q).state ≠ .unused ∧
            (m.table q).state ≠ .zombie) ∧
      (∀ i j, (m.table i).state ≠ .unused → (m.table j).state ≠ .unused →
        (m.table i).pid = (m.table j).pid → i = j) ∧
      ∀ i z, InWait m i → (m.table z).parent = some i → (m.table z).state ≠ .zombie) ∧
    (m.history.filterMap waitedChild).Nodup ∧
    ∀ w child, .waited w child ∈ m.history → .forked w child ∈ m.history ∨
      w = (m.table m.initproc).pid := by
  obtain ⟨⟨_, family⟩, wait, pids⟩ := run_inv run
  have pid := pids few
  have used : ∀ i, (m.table i).state ≠ .unused → kindAt m i ≠ .unused := by
    intro i there kind
    cases state : (m.table i).state <;> simp_all [kindAt, kindOf]
  refine ⟨fun _ => ⟨?_, ?_, wait.childless⟩, pid.once, ?_⟩
  · intro i other settled
    have kind : kindAt m i = .alive ∨ kindAt m i = .zombie := by
      rcases settled with state | state | state | state <;> simp [kindAt, state, kindOf]
    cases born : (m.table i).parent with
    | none => exact absurd born (family.child i kind other)
    | some q =>
      have alive := family.parent i q born
      refine ⟨q, rfl, ?_, ?_⟩ <;> intro state <;> simp [kindAt, state, kindOf] at alive
  · exact fun i j first second same => pid.distinct i j (used i first) (used j second) same
  · intro w child call
    rw [pid.init]
    exact (pid.waiter w child call).symm

instance (m : Machine) : Decidable (Few m) := inferInstanceAs (Decidable (_ < _))

/-- init forks a child and waits, the child exits, and init reaps it, all on CPU 0. -/
def familyRun : List Act :=
  [.scheduler 0, .scheduler 0, .scheduler 0, .resume 0, .allocproc 0, .adopt 0, .fork 0, .wait 0,
    .swtch 0, .scheduler 0, .scheduler 0, .scheduler 0, .resume 0, .startExit 0, .exit 0, .swtch 0] ++
  List.replicate 64 (.scheduler 0) ++
  [.scheduler 0, .scheduler 0, .scheduler 0, .resume 0, .rescan 0]

set_option maxRecDepth 100000 in
theorem child_waited_for_once :
    ∃ m, exec step start familyRun = some m ∧ .waited 1 2 ∈ m.history ∧
      (m.history.filterMap waitedChild).Nodup := by
  have reached : ∃ m, exec step start familyRun = some m ∧ (Few m ∧ .waited 1 2 ∈ m.history) :=
    exec_reaches (by decide +kernel)
  obtain ⟨m, run, few, call⟩ := reached
  exact ⟨m, run, call, (process_lifecycle familyRun m run few).2.1⟩

end Xv6.WaitSpec
