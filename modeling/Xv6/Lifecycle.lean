import Mathlib.Logic.ExistsUnique
import Xv6.SchedSpec

/-! Parents, pids and wait. Most steps are neutral: they change no parent, no pid and
no slot's place in its life. The others are allocproc, the two ends of fork, exit and
the reaping by wait. -/
namespace Xv6.Lifecycle
open Transition ProcTable SchedSpec

def Alive (state : ProcState) : Prop := state = .runnable ∨ state = .sleeping ∨ state = .running

instance (state : ProcState) : Decidable (Alive state) := inferInstanceAs (Decidable (_ ∨ _))

/-- A place in the life of a slot. -/
inductive Kind
  | unused
  | embryo
  | alive
  | zombie
  deriving DecidableEq

def kindOf : ProcState → Kind
  | .unused => .unused
  | .embryo => .embryo
  | .sleeping => .alive
  | .runnable => .alive
  | .running => .alive
  | .zombie => .zombie

theorem state_embryo {state : ProcState} (kind : kindOf state = .embryo) : state = .embryo := by
  cases state <;> first | rfl | cases kind

abbrev kindAt (m : Machine) (i : Nat) : Kind := kindOf (m.table i).state

/-- The embryo that a process in fork works on. -/
def embryoOf : Work → Option Nat
  | .building np => some np
  | .adopted np => some np
  | _ => none

structure Family (m : Machine) : Prop where
  init : kindAt m m.initproc = .alive
  bound : ∀ i, kindAt m i ≠ .unused → i < nproc
  parent : ∀ i q, (m.table i).parent = some q → kindAt m q = .alive
  child : ∀ i, kindAt m i = .alive ∨ kindAt m i = .zombie → i ≠ m.initproc →
    (m.table i).parent ≠ none
  unused : ∀ i, kindAt m i = .unused → (m.table i).parent = none
  maker : ∀ p np, embryoOf (m.work p) = some np → kindAt m np = .embryo ∧ kindAt m p = .alive
  fresh : ∀ p np, m.work p = .building np → (m.table np).parent = none
  adopted : ∀ p np, m.work p = .adopted np → (m.table np).parent = some p
  single : ∀ p q np, embryoOf (m.work p) = some np → embryoOf (m.work q) = some np → p = q
  exiting : ∀ p, m.work p = .exiting → p ≠ m.initproc
  root : (m.table m.initproc).parent = none
  self : ∀ i, (m.table i).parent ≠ some i

/-- Steps that move nobody along in its life. -/
structure Neutral (m next : Machine) : Prop where
  kind : ∀ i, kindAt next i = kindAt m i
  parent : ∀ i, (next.table i).parent = (m.table i).parent
  pid : ∀ i, (next.table i).pid = (m.table i).pid
  initproc : next.initproc = m.initproc
  nextpid : next.nextpid = m.nextpid
  work : next.work = m.work

section Family
variable {m next : Machine} {c p : Nat}

theorem family_neutral (family : Family m) (neutral : Neutral m next) : Family next := by
  obtain ⟨kind, parent, _, initproc, _, work⟩ := neutral
  constructor
  · rw [initproc, kind]
    exact family.init
  · intro i there
    rw [kind] at there
    exact family.bound i there
  · intro i q child
    rw [parent] at child
    rw [kind]
    exact family.parent i q child
  · intro i settled other
    rw [kind] at settled
    rw [initproc] at other
    rw [parent]
    exact family.child i settled other
  · intro i unused
    rw [kind] at unused
    rw [parent]
    exact family.unused i unused
  · intro p np makes
    rw [work] at makes
    rw [kind, kind]
    exact family.maker p np makes
  · intro p np building
    rw [work] at building
    rw [parent]
    exact family.fresh p np building
  · intro p np adopts
    rw [work] at adopts
    rw [parent]
    exact family.adopted p np adopts
  · rw [work]
    exact family.single
  · intro p exits
    rw [work] at exits
    rw [initproc]
    exact family.exiting p exits
  · rw [initproc, parent]
    exact family.root
  · intro i
    rw [parent]
    exact family.self i

theorem kind_wakeOne (chan : Option Chan) (p : Proc) :
    kindOf (wakeOne chan p).state = kindOf p.state := by
  unfold wakeOne
  split
  · rename_i asleep
    simp [asleep.1, kindOf]
  · rfl

@[simp] theorem parent_wakeOne (chan : Option Chan) (p : Proc) :
    (wakeOne chan p).parent = p.parent := by
  unfold wakeOne
  split <;> rfl

@[simp] theorem pid_wakeOne (chan : Option Chan) (p : Proc) : (wakeOne chan p).pid = p.pid := by
  unfold wakeOne
  split <;> rfl

theorem neutral_wakeup (m : Machine) (chan : Option Chan) :
    Neutral m { m with table := wakeup1 m.table chan } := by
  constructor <;> intros <;> first | rfl | skip
  all_goals
    simp only [kindAt, wakeup1]
    split
    · simp [kind_wakeOne]
    · rfl

theorem neutral_slot (i : Nat) (kind : kindAt next i = kindAt m i)
    (parent : (next.table i).parent = (m.table i).parent)
    (pid : (next.table i).pid = (m.table i).pid) (others : ∀ j, j ≠ i → next.table j = m.table j)
    (initproc : next.initproc = m.initproc) (nextpid : next.nextpid = m.nextpid)
    (work : next.work = m.work) : Neutral m next := by
  refine ⟨fun j => ?_, fun j => ?_, fun j => ?_, initproc, nextpid, work⟩ <;>
    by_cases here : j = i
  · rwa [here]
  · rw [kindAt, others j here]
  · rwa [here]
  · rw [others j here]
  · rwa [here]
  · rw [others j here]

theorem neutral_frame {middle : Machine} (neutral : Neutral m middle)
    (table : next.table = middle.table) (initproc : next.initproc = middle.initproc)
    (nextpid : next.nextpid = middle.nextpid) (work : next.work = middle.work) :
    Neutral m next := by
  constructor
  · intro i
    rw [kindAt, table]
    exact neutral.kind i
  · intro i
    rw [table]
    exact neutral.parent i
  · intro i
    rw [table]
    exact neutral.pid i
  · rw [initproc, neutral.initproc]
  · rw [nextpid, neutral.nextpid]
  · rw [work, neutral.work]

theorem neutral_refl (m : Machine) : Neutral m m :=
  ⟨fun _ => rfl, fun _ => rfl, fun _ => rfl, rfl, rfl, rfl⟩

theorem neutral_trans {middle : Machine} (first : Neutral m middle) (second : Neutral middle next) :
    Neutral m next := by
  constructor
  · intro i
    rw [second.kind, first.kind]
  · intro i
    rw [second.parent, first.parent]
  · intro i
    rw [second.pid, first.pid]
  · rw [second.initproc, first.initproc]
  · rw [second.nextpid, first.nextpid]
  · rw [second.work, first.work]

theorem neutral_kill (m : Machine) (pid : Int) :
    Neutral m { m with table := (ProcTable.kill m.table pid).2 } := by
  unfold ProcTable.kill
  split
  · rename_i i found
    apply neutral_slot i <;> simp +contextual [kindAt, update, killOne]
    split
    · rename_i asleep
      rw [asleep]
      rfl
    · rfl
  · exact neutral_refl m

/-- The steps that move a slot along in its life. -/
inductive Moves (m : Machine) : Act → Machine → Prop
  | allocproc (c p np : Nat) (on : On m c p) (user : m.work p = .user) (inside : np < nproc)
      (unused : (m.table np).state = .unused) :
      Moves m (.allocproc c) (({ (m.setProc np fun q =>
        { q with state := .embryo, pid := m.nextpid, ticks := 0 }).setWork p (.building np) with
          nextpid := succInt m.nextpid }).log (.allocated np m.nextpid))
  | failFork (c p np : Nat) (on : On m c p) (building : m.work p = .building np) :
      Moves m (.failFork c) ((m.setProc np fun q => { q with state := .unused }).setWork p .user)
  | adopt (c p np : Nat) (on : On m c p) (building : m.work p = .building np) :
      Moves m (.adopt c) ((m.setProc np fun q => { q with parent := some p }).setWork p (.adopted np))
  | fork (c p np : Nat) (on : On m c p) (adopted : m.work p = .adopted np) :
      Moves m (.fork c) (((((m.setProc np fun q => { q with state := .runnable }).setWork p
        .user).setWork np .user).setStage np (.switching .forkret)).log
          (.forked (m.table p).pid (m.table np).pid))
  | startExit (c p : Nat) (on : On m c p) (user : m.work p = .user) (other : p ≠ m.initproc) :
      Moves m (.startExit c) ((m.setProc p fun q => { q with inuse := false }).setWork p .exiting)
  | exit (c p : Nat) (on : On m c p) (free : m.lock = none) (exiting : m.work p = .exiting) :
      Moves m (.exit c) ((({ m with table := exitTable m p }.setWork p .user).setStage p
        (.switching .exit)).setLock (some c))
  | reap (act : Act) (c p z : Nat) (there : (m.cpu c).sched = .inside p)
      (outside : ∀ r, m.stage p ≠ .switching r) (lock : m.lock = none ∨ m.lock = some c)
      (inside : z < nproc) (child : (m.table z).parent = some p)
      (zombie : (m.table z).state = .zombie) : Moves m act ((((m.setProc z fun q =>
        { q with state := .unused, pid := 0, parent := none, killed := false }).setStage p
          .free).setLock none).log (.waited (m.table p).pid (m.table z).pid))

theorem neutral_scanned (running : (m.table p).state = .running) (scan : Scanned m c p next)
    (there : (m.cpu c).sched = .inside p) (outside : ∀ r, m.stage p ≠ .switching r)
    (lock : m.lock = none ∨ m.lock = some c) (act : Act) :
    Moves m act next ∨ Neutral m next ∧ next.history = m.history := by
  cases scan with
  | reap z inside child zombie =>
    exact .inl (.reap act c p z there outside lock inside child zombie)
  | giveUp => exact .inr ⟨neutral_frame (neutral_refl m) rfl rfl rfl rfl, rfl⟩
  | sleep childless =>
    refine .inr ⟨?_, rfl⟩
    apply neutral_slot p <;> simp +contextual [kindAt, running, kindOf]

theorem took_moves {act : Act} (inv : SchedInv m) (took : Took m act next) :
    Moves m act next ∨ Neutral m next ∧ (next.history = m.history ∨
      (∃ pid, next.history = .killCall pid :: m.history) ∨
      ∃ i, next.history = .userTick i :: m.history) := by
  cases took with
  | acquire | skip | release | launch | back | swtch | resume | idleTimer =>
    exact .inr ⟨neutral_frame (neutral_refl m) rfl rfl rfl rfl, .inl rfl⟩
  | dispatch c i scan inside runnable =>
    refine .inr ⟨?_, .inl rfl⟩
    apply neutral_slot i <;> simp +contextual [kindAt, runnable, kindOf]
  | wake c p inside stage =>
    refine .inr ⟨?_, .inl rfl⟩
    apply neutral_slot p <;> simp +contextual [kindAt]
  | wakeWait c p inside stage =>
    refine .inr ⟨?_, .inl rfl⟩
    apply neutral_slot p <;> simp +contextual [kindAt]
  | yield c p on free =>
    refine .inr ⟨?_, .inl rfl⟩
    apply neutral_slot p <;> simp +contextual [kindAt, on_running inv on, kindOf]
  | sleep c p address on free user =>
    refine .inr ⟨?_, .inl rfl⟩
    apply neutral_slot p <;> simp +contextual [kindAt, on_running inv on, kindOf]
  | timer c chan => exact .inr ⟨neutral_wakeup m chan, .inl rfl⟩
  | countTick p on user =>
    refine .inr ⟨neutral_trans (neutral_wakeup m (some (.other 0))) ?_, .inr (.inr ⟨p, rfl⟩)⟩
    apply neutral_slot p <;> simp +contextual [kindAt]
  | loseTick c p other on user =>
    exact .inr ⟨neutral_frame (neutral_refl m) rfl rfl rfl rfl, .inr (.inr ⟨p, rfl⟩)⟩
  | wakeup address free => exact .inr ⟨neutral_wakeup m _, .inl rfl⟩
  | kill pid free =>
    exact .inr ⟨neutral_frame (neutral_kill m pid) rfl rfl rfl rfl, .inr (.inl ⟨pid, rfl⟩)⟩
  | fault c p on user =>
    refine .inr ⟨?_, .inl rfl⟩
    apply neutral_slot p <;> simp +contextual [kindAt]
  | allocproc c p np on free user inside unused =>
    exact .inl (.allocproc c p np on user inside unused)
  | failFork c p np on building => exact .inl (.failFork c p np on building)
  | adopt c p np on building => exact .inl (.adopt c p np on building)
  | fork c p np on adopted => exact .inl (.fork c p np on adopted)
  | startExit c p on user other => exact .inl (.startExit c p on user other)
  | exit c p on free exiting => exact .inl (.exit c p on free exiting)
  | wait c p on free user =>
    have outside : ∀ r, m.stage p ≠ .switching r := fun r same => by
      rw [on.free] at same
      cases same
    exact (neutral_scanned (on_running inv on) (scanned m c p) on.sched outside (.inl free)
      _).imp id fun both => ⟨both.1, .inl both.2⟩
  | rescan c p inside stage =>
    have outside : ∀ r, m.stage p ≠ .switching r := fun r same => by
      rw [stage] at same
      cases same
    have mine := inv.inner c p inside (by simp [stage])
    exact (neutral_scanned (running_of_inside inv inside outside) (scanned m c p) inside outside
      (.inr mine) _).imp id fun both => ⟨both.1, .inl both.2⟩

end Family

section Exit
variable {t : Table} {p init : Nat}

/-- One turn of the loop of exit. -/
def passOn (p init : Nat) (t : Table) (i : Nat) : Table :=
  if (t i).parent = some p then
    let adopted := update t i fun q => { q with parent := some init }
    if (t i).state = .zombie then wakeup1 adopted (some (.proc init)) else adopted
  else t

/-- What the loop may do to a slot: a new parent for the listed children, and a wakeup
of who sleeps on init. -/
structure PassedOn (p init : Nat) (listed : Nat → Prop) (t t' : Table) : Prop where
  parent : ∀ i, (t' i).parent = some init ∧ listed i ∧ (t i).parent = some p ∨
    (t' i).parent = (t i).parent ∧ ¬ (listed i ∧ (t i).parent = some p)
  state : ∀ i, (t' i).state = (t i).state ∨
    (t i).state = .sleeping ∧ (t i).chan = some (.proc init) ∧ (t' i).state = .runnable
  rest : ∀ i, (t' i).pid = (t i).pid ∧ (t' i).chan = (t i).chan ∧ (t' i).killed = (t i).killed ∧
    (t' i).inuse = (t i).inuse ∧ (t' i).ticks = (t i).ticks
  woken : (∃ z, listed z ∧ (t z).parent = some p ∧ (t z).state = .zombie) →
    ∀ i < nproc, (t' i).chan = some (.proc init) → (t' i).state ≠ .sleeping

theorem passedOn_one (i : Nat) :
    PassedOn p init (fun j => j = i) t (passOn p init t i) := by
  unfold passOn
  split
  · rename_i child
    split
    · rename_i zombie
      constructor <;> simp only [wakeup1, wakeOne, update]
      · grind
      · grind
      · grind
      · grind
    · rename_i alive
      constructor <;> simp only [update]
      · grind
      · grind
      · grind
      · grind
  · rename_i stranger
    constructor
    · grind
    · grind
    · grind
    · grind

theorem passedOn_trans {listed listed' : Nat → Prop} {t' t'' : Table}
    (first : PassedOn p init listed t t') (second : PassedOn p init listed' t' t'') :
    PassedOn p init (fun i => listed i ∨ listed' i) t t'' := by
  constructor
  · intro i
    have before := first.parent i
    have after := second.parent i
    grind
  · intro i
    have before := first.state i
    have after := second.state i
    have kept := (first.rest i).2.1
    grind
  · intro i
    have before := first.rest i
    have after := second.rest i
    grind
  · rintro ⟨z, member, child, zombie⟩ i inside asleep
    have state := second.state i
    have chan := (second.rest i).2.1
    by_cases early : listed z
    · have quiet := first.woken ⟨z, early, child, zombie⟩ i inside (by rw [← chan]; exact asleep)
      grind
    · -- z is still a zombie child when the second part starts
      have parent := first.parent z
      have same := first.state z
      exact second.woken ⟨z, by grind, by grind, by grind⟩ i inside asleep

theorem passedOn_list (slots : List Nat) :
    PassedOn p init (fun i => i ∈ slots) t (slots.foldl (passOn p init) t) := by
  induction slots generalizing t with
  | nil => constructor <;> simp
  | cons i rest ih =>
    have both := passedOn_trans (passedOn_one (t := t) i) (ih (t := passOn p init t i))
    simpa [List.mem_cons] using both

theorem passedOn_reparent (t : Table) (p init : Nat) :
    PassedOn p init (fun i => i < nproc) t (reparent t p init) := by
  have all := @passedOn_list t p init (List.range nproc)
  simp only [List.mem_range] at all
  exact all

/-- What the locked part of exit does to the table. -/
structure Exited (m : Machine) (p : Nat) (t' : Table) : Prop where
  self : (t' p).state = .zombie
  state : ∀ i, i ≠ p → (t' i).state = (m.table i).state ∨
    (m.table i).state = .sleeping ∧ (t' i).state = .runnable
  parent : ∀ i, (t' i).parent = some m.initproc ∧ i < nproc ∧ (m.table i).parent = some p ∨
    (t' i).parent = (m.table i).parent ∧ ¬ (i < nproc ∧ (m.table i).parent = some p)
  rest : ∀ i, (t' i).pid = (m.table i).pid ∧ (t' i).chan = (m.table i).chan ∧
    (t' i).killed = (m.table i).killed ∧ (t' i).inuse = (m.table i).inuse ∧
    (t' i).ticks = (m.table i).ticks
  woken : ∀ i < nproc, i ≠ p → (t' i).state = .sleeping → (t' i).chan = some (.proc i) →
    (m.table p).parent ≠ some i ∧ (i = m.initproc →
      ∀ z < nproc, (m.table z).parent = some p → (m.table z).state ≠ .zombie)

theorem exited (m : Machine) (p : Nat) : Exited m p (exitTable m p) := by
  have passed := passedOn_reparent (wakeup1 m.table ((m.table p).parent.map .proc)) p m.initproc
  -- the wakeup of the parent comes first
  have woke : ∀ i, wakeup1 m.table ((m.table p).parent.map .proc) i =
      if i < nproc then wakeOne ((m.table p).parent.map .proc) (m.table i) else m.table i :=
    fun i => rfl
  have here : ∀ i, exitTable m p i =
      if i = p then { reparent (wakeup1 m.table ((m.table p).parent.map .proc)) p m.initproc i with
        state := .zombie }
      else reparent (wakeup1 m.table ((m.table p).parent.map .proc)) p m.initproc i := fun i => rfl
  generalize reparent (wakeup1 m.table ((m.table p).parent.map .proc)) p m.initproc = final at *
  generalize wakeup1 m.table ((m.table p).parent.map .proc) = middle at *
  constructor
  · rw [here, if_pos rfl]
  · intro i other
    have state := passed.state i
    rw [here, if_neg other]
    rw [woke] at state
    grind [wakeOne]
  · intro i
    have parent := passed.parent i
    rw [woke] at parent
    rw [here]
    grind [wakeOne]
  · intro i
    have rest := passed.rest i
    rw [woke] at rest
    rw [here]
    grind [wakeOne]
  · intro i inside other asleep chan
    rw [here, if_neg other] at asleep chan
    have state := passed.state i
    have same := (passed.rest i).2.1
    rw [woke, if_pos inside] at state same
    constructor
    · intro mine
      rw [mine] at state same
      grind [wakeOne]
    · rintro rfl z bound child zombie
      refine passed.woken ⟨z, bound, ?_, ?_⟩ _ inside chan asleep <;> rw [woke] <;> grind [wakeOne]

end Exit

section Step
variable {m next : Machine} {c p : Nat} {act : Act}

theorem family_exit (inv : SchedInv m) (family : Family m) (on : On m c p)
    (leaves : m.work p = .exiting) :
    Family ((({ m with table := exitTable m p }.setWork p .user).setStage p
      (.switching .exit)).setLock (some c)) := by
  have running := on_running inv on
  obtain ⟨gone, state, passed, rest, _⟩ := exited m p
  obtain ⟨init, bound, parent, child, blank, maker, fresh, adopted, single, exiting, root, self⟩ := family
  generalize exitTable m p = final at *
  simp only [kindAt] at *
  have kind : ∀ i, i ≠ p → kindOf (final i).state = kindOf (m.table i).state := by
    intro i other
    rcases state i other with same | ⟨asleep, woken⟩
    · rw [same]
    · rw [asleep, woken]
      rfl
  have dead : kindOf (final p).state = .zombie := by rw [gone]; rfl
  have alive : kindOf (m.table p).state = .alive := by rw [running]; rfl
  constructor <;>
    simp only [kindAt, setLock_rest, setStage_rest, setWork_rest, setWork_work]
  · grind
  · grind
  · grind
  · grind
  · grind
  · grind [embryoOf]
  · grind [embryoOf]
  · grind [embryoOf]
  · grind [embryoOf]
  · grind
  · grind
  · grind

theorem family_moves (inv : SchedInv m) (family : Family m) (moves : Moves m act next) :
    Family next := by
  cases moves with
  | exit c p on free exiting => exact family_exit inv family on exiting
  | allocproc c p np on user inside unused =>
    have running := on_running inv on
    obtain ⟨init, bound, parent, child, blank, maker, fresh, adopted, single, exiting, root, self⟩ := family
    simp only [kindAt] at *
    constructor <;>
      simp only [kindAt, log_rest, setWork_rest, setWork_work, setProc_table, setProc_rest] <;>
      grind [kindOf, embryoOf]
  | failFork c p np on building =>
    have running := on_running inv on
    obtain ⟨init, bound, parent, child, blank, maker, fresh, adopted, single, exiting, root, self⟩ := family
    simp only [kindAt] at *
    constructor <;>
      simp only [kindAt, setWork_rest, setWork_work, setProc_table, setProc_rest] <;>
      grind [kindOf, embryoOf]
  | adopt c p np on building =>
    have running := on_running inv on
    obtain ⟨init, bound, parent, child, blank, maker, fresh, adopted, single, exiting, root, self⟩ := family
    simp only [kindAt] at *
    constructor <;>
      simp only [kindAt, setWork_rest, setWork_work, setProc_table, setProc_rest] <;>
      grind [kindOf, embryoOf]
  | fork c p np on adopts =>
    have running := on_running inv on
    obtain ⟨init, bound, parent, child, blank, maker, fresh, adopted, single, exiting, root, self⟩ := family
    simp only [kindAt] at *
    constructor <;>
      simp only [kindAt, log_rest, setStage_rest, setWork_rest, setWork_work, setProc_table,
        setProc_rest] <;>
      grind [kindOf, embryoOf]
  | startExit c p on user other =>
    have running := on_running inv on
    obtain ⟨init, bound, parent, child, blank, maker, fresh, adopted, single, exiting, root, self⟩ := family
    simp only [kindAt] at *
    constructor <;>
      simp only [kindAt, setWork_rest, setWork_work, setProc_table, setProc_rest] <;>
      grind [kindOf, embryoOf]
  | reap _ c p z there outside lock inside born zombie =>
    have running := running_of_inside inv there outside
    obtain ⟨init, bound, parent, child, blank, maker, fresh, adopted, single, exiting, root, self⟩ := family
    simp only [kindAt] at *
    constructor <;>
      simp only [kindAt, log_rest, setLock_rest, setStage_rest, setProc_table, setProc_rest] <;>
      grind [kindOf, embryoOf]

theorem family_step (inv : SchedInv m) (family : Family m) (took : Took m act next) :
    Family next := by
  rcases took_moves inv took with moves | ⟨neutral, _⟩
  · exact family_moves inv family moves
  · exact family_neutral family neutral

theorem drift_wakeOne (chan : Option Chan) (p : Proc) : Drift p.state (wakeOne chan p).state := by
  unfold wakeOne
  split
  · rename_i asleep
    rw [asleep.1]
    exact .wake
  · exact .same _

theorem drift_wakeup1 (t : Table) (chan : Option Chan) (i : Nat) :
    Drift (t i).state (wakeup1 t chan i).state := by
  unfold wakeup1
  split
  · exact drift_wakeOne chan _
  · exact .same _

theorem outside_of_free {q : Nat} (free : m.stage q = .free) (r : Resume) :
    m.stage q ≠ .switching r := by
  rw [free]
  simp

theorem zombie_nowhere {z : Nat} (inv : SchedInv m) (there : (m.cpu c).sched = .inside p)
    (lock : m.lock = none ∨ m.lock = some c) (zombie : (m.table z).state = .zombie)
    (other : z ≠ p) (d : Nat) : current (m.cpu d).sched ≠ some z := by
  intro executes
  have dead := inv.dead z zombie
  have launched := inv.launched d z
  have inner := inv.inner d z
  have locked := inv.locked d
  cases place : (m.cpu d).sched <;> rw [place] at executes locked <;> grind [current, needsLock]

theorem sched_scanned (inv : SchedInv m) (scan : Scanned m c p next)
    (there : (m.cpu c).sched = .inside p) (outside : ∀ r, m.stage p ≠ .switching r)
    (lock : m.lock = none ∨ m.lock = some c) : SchedInv next := by
  have running := running_of_inside inv there outside
  cases scan with
  | reap z inside child zombie =>
    have other : z ≠ p := by
      rintro rfl
      rw [zombie] at running
      cases running
    have nowhere := zombie_nowhere inv there lock zombie other
    refine sched_leave inv there outside lock rfl ?_ ?_ ?_ ?_
    · simp
    · simp +contextual
    · simp [other.symm, running]
    · intro q apart
      by_cases same : q = z
      · right
        subst same
        simp [nowhere]
      · left
        simp [same]
  | giveUp =>
    refine sched_leave inv there outside lock rfl ?_ ?_ ?_ ?_ <;> simp +contextual [running]
  | sleep childless =>
    refine sched_halt (r := .wait) inv there lock rfl rfl ?_ ?_ ?_ ?_ <;>
      simp +contextual [Drift.same]

theorem sched_step (inv : SchedInv m) (family : Family m) (took : Took m act next) :
    SchedInv next := by
  cases took with
  | acquire c idle free => exact sched_acquire inv idle free
  | dispatch c i scan inside runnable => exact sched_dispatch inv scan runnable
  | skip c i scan => exact sched_next inv (.inl scan)
  | release c i scan => exact sched_release inv scan
  | launch c i r launch stage => exact sched_launch inv launch stage
  | back c i back => exact sched_next inv (.inr back)
  | swtch c p r inside stage => exact sched_swtch inv inside stage
  | resume c p r inside stage quick =>
    have outside : ∀ r, m.stage p ≠ .switching r := by simp [stage]
    have mine := inv.inner c p inside (by simp [stage])
    have running := running_of_inside inv inside outside
    refine sched_leave inv inside outside (.inr mine) rfl ?_ ?_ ?_ ?_ <;> simp +contextual [running]
  | wake c p inside stage =>
    have outside : ∀ r, m.stage p ≠ .switching r := by simp [stage]
    have mine := inv.inner c p inside (by simp [stage])
    have running := running_of_inside inv inside outside
    refine sched_leave inv inside outside (.inr mine) rfl ?_ ?_ ?_ ?_ <;> simp +contextual [running]
  | wakeWait c p inside stage =>
    have outside : ∀ r, m.stage p ≠ .switching r := by simp [stage]
    have mine := inv.inner c p inside (by simp [stage])
    have running := running_of_inside inv inside outside
    refine sched_leave inv inside outside (.inr mine) rfl ?_ ?_ ?_ ?_ <;> simp +contextual [running, mine]
  | yield c p on free =>
    refine sched_halt (r := .yield) inv on.sched (.inl free) rfl rfl ?_ ?_ ?_ ?_ <;>
      simp +contextual [Drift.same]
  | sleep c p address on free user =>
    refine sched_halt (r := .sleep) inv on.sched (.inl free) rfl rfl ?_ ?_ ?_ ?_ <;>
      simp +contextual [Drift.same]
  | timer c chan => exact sched_drift inv rfl rfl rfl (drift_wakeup1 m.table chan)
  | idleTimer => exact inv
  | countTick p on user =>
    refine sched_drift inv rfl rfl rfl fun q => ?_
    have woken := drift_wakeup1 m.table (some (.other 0)) q
    simp only [log_rest, setProc_table]
    split <;> exact woken
  | loseTick c p other on user => exact sched_drift inv rfl rfl rfl fun q => .same _
  | wakeup address free => exact sched_drift inv rfl rfl rfl (drift_wakeup1 m.table _)
  | kill pid free =>
    refine sched_drift inv rfl rfl rfl fun q => ?_
    simp only [log_rest, ProcTable.kill]
    split
    · simp only [update]
      split
      · simp only [killOne]
        split
        · rename_i asleep
          rw [asleep]
          exact .wake
        · exact .same _
      · exact .same _
    · exact .same _
  | fault c p on user =>
    refine sched_drift inv rfl rfl rfl fun q => ?_
    simp only [setProc_table]
    split <;> exact .same _
  | allocproc c p np on free user inside unused =>
    refine sched_drift inv rfl rfl rfl fun q => ?_
    simp only [log_rest, setWork_rest, setProc_table]
    split
    · rename_i same
      rw [same, unused]
      exact .take
    · exact .same _
  | failFork c p np on building =>
    have embryo : kindAt m np = .embryo := (family.maker p np (by rw [building]; rfl)).1
    refine sched_drift inv rfl rfl rfl fun q => ?_
    simp only [setWork_rest, setProc_table]
    split
    · rename_i same
      rw [same, state_embryo embryo]
      exact .drop
    · exact .same _
  | adopt c p np on building =>
    refine sched_drift inv rfl rfl rfl fun q => ?_
    simp only [setWork_rest, setProc_table]
    split <;> exact .same _
  | fork c p np on adopted =>
    have embryo : kindAt m np = .embryo := (family.maker p np (by rw [adopted]; rfl)).1
    refine sched_fork inv (state_embryo embryo) rfl rfl ?_ ?_ ?_ ?_ <;> simp +contextual
  | startExit c p on user other =>
    refine sched_drift inv rfl rfl rfl fun q => ?_
    simp only [setWork_rest, setProc_table]
    split <;> exact .same _
  | exit c p on free exiting =>
    have out := exited m p
    refine sched_halt (r := .exit) inv on.sched (.inl free) rfl rfl ?_ ?_ ?_ ?_
    · simp
    · simp +contextual
    · exact .inr ⟨rfl, out.self⟩
    · intro q other
      simp only [setLock_rest, setStage_rest, setWork_rest]
      rcases out.state q other with same | ⟨asleep, woken⟩
      · rw [same]
        exact .same _
      · rw [asleep, woken]
        exact .wake
  | wait c p on free user =>
    exact sched_scanned inv (scanned m c p) on.sched (outside_of_free on.free) (.inl free)
  | rescan c p inside stage =>
    have outside : ∀ r, m.stage p ≠ .switching r := by simp [stage]
    have mine := inv.inner c p inside (by simp [stage])
    exact sched_scanned inv (scanned m c p) inside outside (.inr mine)

theorem freed_nowhere {z : Nat} (inv : SchedInv m) (family : Family m) (took : Took m act next)
    (zombie : (m.table z).state = .zombie) (unused : (next.table z).state = .unused) (d : Nat) :
    current (m.cpu d).sched ≠ some z := by
  rcases took_moves inv took with moves | ⟨neutral, _⟩
  · cases moves with
    | reap _ c p y there outside lock inside born dead =>
      have running := running_of_inside inv there outside
      by_cases same : z = y
      · subst same
        refine zombie_nowhere inv there lock zombie ?_ d
        rintro rfl
        rw [zombie] at running
        cases running
      · simp [same, zombie] at unused
    | exit c p on free exiting =>
      have running := on_running inv on
      have other : z ≠ p := by
        rintro rfl
        rw [zombie] at running
        cases running
      simp only [setLock_rest, setStage_rest, setWork_rest] at unused
      have state := (exited m p).state z other
      grind
    | allocproc c p np on user inside free =>
      simp only [log_rest, setWork_rest, setProc_table] at unused
      grind
    | failFork c p np on building =>
      have embryo := state_embryo (family.maker p np (by rw [building]; rfl)).1
      simp only [setWork_rest, setProc_table] at unused
      grind
    | adopt c p np on building =>
      simp only [setWork_rest, setProc_table] at unused
      grind
    | fork c p np on adopted =>
      simp only [log_rest, setStage_rest, setWork_rest, setProc_table] at unused
      grind
    | startExit c p on user other =>
      simp only [setWork_rest, setProc_table] at unused
      grind
  · have kind := neutral.kind z
    rw [kindAt, kindAt, unused, zombie] at kind
    cases kind

end Step

structure Sound (m : Machine) : Prop where
  sched : SchedInv m
  family : Family m

theorem start_slot (i : Nat) :
    i = 0 ∧ (start.table i).state = .runnable ∧ start.stage i = .switching .forkret ∨
      i ≠ 0 ∧ (start.table i).state = .unused := by
  by_cases first : i = 0
  · subst first
    exact .inl ⟨rfl, rfl, rfl⟩
  · exact .inr ⟨first, by simp [start, first, Proc.empty]⟩

theorem sound_start : Sound start := by
  have orphan : ∀ i, (start.table i).parent = none := by
    intro i
    by_cases first : i = 0 <;> simp [start, first, Proc.empty]
  constructor
  · constructor
    case parked =>
      intro p parked
      rcases start_slot p with ⟨_, _, stage⟩ | ⟨_, unused⟩
      · exact ⟨.forkret, stage, by decide⟩
      · simp [unused] at parked
    case dead => grind [start_slot]
    case running => grind [start_slot]
    all_goals simp [start, current, needsLock]
  · constructor
    case init => rfl
    case bound =>
      intro i used
      rcases start_slot i with ⟨first, _⟩ | ⟨_, unused⟩
      · rw [first]
        decide
      · simp [kindAt, unused, kindOf] at used
    case parent => simp [orphan]
    case child =>
      intro i settled other
      rcases start_slot i with ⟨first, _⟩ | ⟨_, unused⟩
      · exact absurd first other
      · simp [kindAt, unused, kindOf] at settled
    case unused => exact fun i _ => orphan i
    case root => rfl
    case self => simp [orphan]
    all_goals simp [start, embryoOf]

theorem sound_step {m next : Machine} {act : Act} (sound : Sound m)
    (stepped : step m act = some next) : Sound next :=
  have took := took_of_step stepped
  ⟨sched_step sound.sched sound.family took, family_step sound.sched sound.family took⟩

theorem sound_run {m : Machine} {acts : List Act} (run : exec step start acts = some m) : Sound m :=
  exec_preserves Sound (fun _ _ _ sound stepped => sound_step sound stepped) sound_start run

/-- While ptable.lock is free, RUNNING means to be the process of exactly one CPU; and
wait frees the kernel stack of a process that no CPU executes. -/
theorem running_on_one_cpu (acts : List Act) (m : Machine) (run : exec step start acts = some m) :
    (m.lock = none →
      (∀ p, (m.table p).state = .running ↔ ∃! c, (m.cpu c).proc = some p) ∧
      ∀ c d p, (m.cpu c).proc = some p → (m.cpu d).proc = some p → c = d) ∧
    ∀ act next z, step m act = some next → (m.table z).state = .zombie →
      (next.table z).state = .unused → ∀ d, (m.cpu d).sched ≠ .inside z ∧ (m.cpu d).proc ≠ some z := by
  obtain ⟨inv, family⟩ := sound_run run
  have unique : ∀ c d p, (m.cpu c).proc = some p → (m.cpu d).proc = some p → c = d := by
    intro c d p first second
    rw [inv.proc] at first second
    exact inv.unique c d p first second
  constructor
  · intro free
    refine ⟨fun p => ⟨fun running => ?_, ?_⟩, unique⟩
    · obtain ⟨c, launch | inside⟩ := inv.running p running
      · have held := inv.locked c (by rw [launch]; rfl)
        rw [free] at held
        cases held
      · have here : (m.cpu c).proc = some p := by
          rw [inv.proc, inside]
          rfl
        exact ⟨c, here, fun d there => unique d c p there here⟩
    · rintro ⟨c, here, _⟩
      rw [inv.proc] at here
      -- without the lock the CPU can only be inside p, outside sched
      have locked := inv.locked c
      have inner := inv.inner c p
      cases place : (m.cpu c).sched <;> rw [place] at here locked <;>
        simp only [current, needsLock, reduceCtorEq, Option.some.injEq] at here locked
      case inside q =>
        subst here
        refine running_of_inside inv place fun r switching => ?_
        have held := inner place (by simp [switching])
        rw [free] at held
        cases held
      all_goals
        rw [free] at locked
        simp at locked
  · intro act next z stepped zombie unused d
    have nowhere := freed_nowhere inv family (took_of_step stepped) zombie unused d
    constructor
    · intro inside
      exact nowhere (by rw [inside]; rfl)
    · rw [inv.proc]
      exact nowhere

/-- The scheduler of CPU 1 starts init. -/
def bootRun : List Act := [.scheduler 1, .scheduler 1, .scheduler 1, .resume 1]

theorem init_on_one_cpu :
    ∃ m, exec step start bootRun = some m ∧ (m.table 0).state = .running ∧
      ∃! c, (m.cpu c).proc = some 0 :=
  ⟨_, rfl, rfl, (((running_on_one_cpu bootRun _ rfl).1 rfl).1 0).mp rfl⟩

end Xv6.Lifecycle
