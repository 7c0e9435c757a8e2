import Xv6.Transition

/-! sleep, wakeup and kill of kernel/proc.c, at the level of lock operations. Any
number of processes run a loop of the form

    acquire(lk); while(not ready) sleep(chan, lk); ...; release(lk)

where lk is ptable.lock itself or another lock. Between two steps of one process the
others may do what their locks let them. -/
namespace Xv6.Sleep
open Transition

/-- Where a process stands. SLEEPING on the channel is `parked` or `asleep`. -/
inductive Phase
  | idle
  /-- holds lk, at the test of the loop -/
  | testing (owes : Bool)
  /-- holds lk, about to wake another channel before it sleeps -/
  | nudging
  /-- holds lk, in sleep before acquire(&ptable.lock) -/
  | entering
  /-- holds lk and ptable.lock -/
  | both
  /-- holds ptable.lock, has released lk -/
  | falling
  /-- in sched; its CPU still holds ptable.lock -/
  | parked
  | asleep
  | runnable
  /-- switched to by the scheduler, holds ptable.lock -/
  | resumed
  /-- at the end of sleep, before acquire(lk) -/
  | returning
  /-- holds lk outside the loop; owes a wakeup if it made the condition true -/
  | working (owes : Bool)
  /-- in wakeup, holds lk and ptable.lock -/
  | waking
  deriving DecidableEq, Repr

/-- What the blocking loops of the kernel differ in. -/
structure Loop (δ : Type) where
  /-- lk is &ptable.lock -/
  underPtable : Bool
  /-- the loop's test fails: nothing to wait for -/
  ready : δ → Bool
  /-- the test next to proc->killed that makes the call return -1 -/
  refused : δ → Bool
  /-- proc->killed is tested before sleep -/
  interruptible : Bool
  /-- another channel is woken between the tests and sleep -/
  nudges : Bool

structure System (δ : Type) where
  lk : Option Nat
  pt : Option Nat
  data : δ
  phase : Nat → Phase
  killed : Nat → Bool

inductive Act (δ : Type)
  | enter (p : Nat)
  | lock (p : Nat)
  | test (p : Nat)
  | nudge (p : Nat)
  | lockTable (p : Nat)
  | unlock (p : Nat)
  | fall (p : Nat)
  | park (p : Nat)
  | switchTo (p q : Nat)
  | dispatch (q : Nat)
  | leaveSleep (p : Nat)
  | regain (p : Nat)
  | change (p : Nat) (d : δ)
  | wakeup (p : Nat)
  | wake (p : Nat)
  | again (p : Nat)
  | leave (p : Nat)
  | kill (q : Nat)

variable {δ : Type}

def System.move (s : System δ) (p : Nat) (phase : Phase) : System δ :=
  { s with phase := fun q => if q = p then phase else s.phase q }

def lockFree (loop : Loop δ) (s : System δ) : Bool :=
  if loop.underPtable then s.pt.isNone else s.lk.isNone

def acquire (loop : Loop δ) (s : System δ) (p : Nat) : System δ :=
  if loop.underPtable then { s with pt := some p } else { s with lk := some p }

def release (loop : Loop δ) (s : System δ) : System δ :=
  if loop.underPtable then { s with pt := none } else { s with lk := none }

def wakePhase : Phase → Phase
  | .asleep => .runnable
  | phase => phase

/-- wakeup1 on the channel. With ptable.lock held by the caller nobody is parked. -/
def wakeup1 (s : System δ) : System δ := { s with phase := fun q => wakePhase (s.phase q) }

def step (loop : Loop δ) (s : System δ) : Act δ → Option (System δ)
  | .enter p =>
    if s.phase p = .idle ∧ lockFree loop s then
      some ((acquire loop s p).move p (.testing false)) else none
  -- a waker takes lk without going through the loop
  | .lock p =>
    if s.phase p = .idle ∧ lockFree loop s then
      some ((acquire loop s p).move p (.working false)) else none
  | .test p =>
    match s.phase p with
    | .testing owes =>
      if loop.ready s.data then some (s.move p (.working owes))
      else if loop.refused s.data || loop.interruptible && s.killed p then
        some ((release loop s).move p .idle)
      else some (s.move p (if loop.nudges then .nudging else .entering))
    | _ => none
  | .nudge p =>
    if s.phase p = .nudging ∧ s.pt = none then some (s.move p .entering) else none
  -- sleep with another lock: acquire(&ptable.lock), then release(lk)
  | .lockTable p =>
    if s.phase p = .entering ∧ loop.underPtable = false ∧ s.pt = none then
      some ({ s with pt := some p }.move p .both) else none
  | .unlock p =>
    if s.phase p = .both ∧ loop.underPtable = false then
      some ({ s with lk := none }.move p .falling) else none
  -- proc->chan = chan; proc->state = SLEEPING; sched()
  | .fall p =>
    if s.phase p = .falling ∨ s.phase p = .entering ∧ loop.underPtable then
      some (s.move p .parked) else none
  -- the scheduler finds nothing more to run and releases ptable.lock, or goes on to q
  | .park p =>
    if s.phase p = .parked then some ({ s with pt := none }.move p .asleep) else none
  | .switchTo p q =>
    if s.phase p = .parked ∧ s.phase q = .runnable then
      some (({ s with pt := some q }.move p .asleep).move q .resumed) else none
  | .dispatch q =>
    if s.phase q = .runnable ∧ s.pt = none then
      some ({ s with pt := some q }.move q .resumed) else none
  | .leaveSleep p =>
    if s.phase p = .resumed then
      if loop.underPtable then some (s.move p (.testing false))
      else some ({ s with pt := none }.move p .returning)
    else none
  | .regain p =>
    if s.phase p = .returning ∧ loop.underPtable = false ∧ s.lk = none then
      some ({ s with lk := some p }.move p (.testing false)) else none
  | .change p d =>
    match s.phase p with
    | .working owes =>
      some ({ s with data := d }.move p
        (.working (loop.ready d && (!loop.ready s.data || owes))))
    | _ => none
  | .wakeup p =>
    match s.phase p with
    | .working _ =>
      if loop.underPtable then some ((wakeup1 s).move p (.working false))
      else if s.pt = none then some ({ s with pt := some p }.move p .waking) else none
    | _ => none
  | .wake p =>
    if s.phase p = .waking ∧ loop.underPtable = false then
      some ({ wakeup1 s with pt := none }.move p (.working false)) else none
  | .again p =>
    match s.phase p with
    | .working owes => some (s.move p (.testing owes))
    | _ => none
  | .leave p =>
    match s.phase p with
    | .working _ => some ((release loop s).move p .idle)
    | _ => none
  -- kill takes and releases ptable.lock
  | .kill q =>
    if s.pt = none then
      some { s with
        killed := fun p => p = q || s.killed p
        phase := fun p => if p = q then wakePhase (s.phase p) else s.phase p }
    else none

def start (data : δ) : System δ := ⟨none, none, data, fun _ => .idle, fun _ => false⟩

/-- p->state == SLEEPING and p->chan == chan. -/
def sleeping : Phase → Bool
  | .parked | .asleep => true
  | _ => false

/-- From the tests of the loop to the wakeup. -/
def committed : Phase → Bool
  | .nudging | .entering | .both | .falling | .parked | .asleep => true
  | _ => false

def owing : Phase → Bool
  | .testing owes | .working owes => owes
  | .waking => true
  | _ => false

def holdsTable (loop : Loop δ) : Phase → Bool
  | .both | .falling | .parked | .resumed | .waking => true
  | .testing _ | .nudging | .entering | .working _ => loop.underPtable
  | _ => false

def holdsOwn (loop : Loop δ) : Phase → Bool
  | .testing _ | .nudging | .entering | .both | .working _ | .waking => !loop.underPtable
  | _ => false

section Moves
variable {s : System δ} {loop : Loop δ} {p q : Nat} {phase : Phase}

@[simp] theorem move_lk : (s.move p phase).lk = s.lk := rfl
@[simp] theorem move_pt : (s.move p phase).pt = s.pt := rfl
@[simp] theorem move_data : (s.move p phase).data = s.data := rfl
@[simp] theorem move_killed : (s.move p phase).killed = s.killed := rfl

@[simp] theorem move_phase : (s.move p phase).phase q = if q = p then phase else s.phase q := rfl

@[simp] theorem wakeup1_phase : (wakeup1 s).phase q = wakePhase (s.phase q) := rfl

@[simp] theorem acquire_phase : (acquire loop s p).phase = s.phase := by
  unfold acquire
  split <;> rfl

@[simp] theorem acquire_data : (acquire loop s p).data = s.data := by
  unfold acquire
  split <;> rfl

@[simp] theorem acquire_killed : (acquire loop s p).killed = s.killed := by
  unfold acquire
  split <;> rfl

@[simp] theorem release_phase : (release loop s).phase = s.phase := by
  unfold release
  split <;> rfl

@[simp] theorem release_data : (release loop s).data = s.data := by
  unfold release
  split <;> rfl

@[simp] theorem release_killed : (release loop s).killed = s.killed := by
  unfold release
  split <;> rfl

end Moves

/-- A waker does not release lk while it owes a wakeup. -/
def Disciplined (s : System δ) : Act δ → Prop
  | .leave p => s.phase p ≠ .working true
  | _ => True

/-- The locks are with the processes whose phase says so. -/
structure Held (loop : Loop δ) (s : System δ) : Prop where
  own : ∀ p, holdsOwn loop (s.phase p) = true → s.lk = some p
  table : ∀ p, holdsTable loop (s.phase p) = true → s.pt = some p

/-- A condition that holds is owed a wakeup, or nobody is on the way to sleep. -/
def Awake (loop : Loop δ) (s : System δ) : Prop :=
  loop.ready s.data = true →
    (∃ q, owing (s.phase q) = true) ∨ ∀ p, committed (s.phase p) = false

/-- A step in which only `p` moves and the data stay. -/
structure Shift (loop : Loop δ) (s next : System δ) (act : Act δ) (p : Nat) : Prop where
  others : ∀ q, q ≠ p → next.phase q = s.phase q
  lk : ∀ q, s.lk = some q → q = p ∨ next.lk = some q
  pt : ∀ q, s.pt = some q → q = p ∨ next.pt = some q
  own : holdsOwn loop (next.phase p) = true → next.lk = some p
  table : holdsTable loop (next.phase p) = true → next.pt = some p
  data : next.data = s.data
  calm : loop.ready s.data = true → committed (next.phase p) = true → committed (s.phase p) = true
  owed : Disciplined s act → loop.ready s.data = true → owing (s.phase p) = true →
    owing (next.phase p) = true
  fresh : committed (next.phase p) = true → committed (s.phase p) = true ∨
    (loop.interruptible = true → s.killed p = false)
  killed : ∀ q, next.killed q = true → s.killed q = true ∨ act = .kill q

/-- The holder of lk and ptable.lock wakes the sleepers. -/
structure Wake (loop : Loop δ) (s next : System δ) (p : Nat) : Prop where
  lk : loop.underPtable = false → s.lk = some p
  pt : s.pt = some p
  others : ∀ q, q ≠ p → next.phase q = wakePhase (s.phase q)
  here : next.phase p = .working false
  sameLk : next.lk = s.lk
  samePt : loop.underPtable = true → next.pt = s.pt
  killed : next.killed = s.killed

/-- The holder of lk changes the data. -/
structure Change (loop : Loop δ) (s next : System δ) (p : Nat) : Prop where
  phase : ∃ owes, s.phase p = .working owes ∧
    next.phase p = .working (loop.ready next.data && (!loop.ready s.data || owes))
  others : ∀ q, q ≠ p → next.phase q = s.phase q
  sameLk : next.lk = s.lk
  samePt : next.pt = s.pt
  killed : next.killed = s.killed

section Wakes
variable {loop : Loop δ} {phase : Phase}

theorem holdsOwn_under (under : loop.underPtable = true) (phase : Phase) :
    holdsOwn loop phase = false := by
  cases phase <;> simp [holdsOwn, under]

theorem holdsOwn_wake (phase : Phase) : holdsOwn loop (wakePhase phase) = holdsOwn loop phase := by
  cases phase <;> rfl

theorem holdsTable_wake (phase : Phase) :
    holdsTable loop (wakePhase phase) = holdsTable loop phase := by
  cases phase <;> rfl

theorem owing_wake (phase : Phase) : owing (wakePhase phase) = owing phase := by
  cases phase <;> rfl

theorem committed_of_wake (still : committed (wakePhase phase) = true) : committed phase = true := by
  cases phase <;> simp_all [wakePhase, committed]

theorem committed_wake (own : holdsOwn loop phase = false)
    (table : holdsTable loop phase = false) : committed (wakePhase phase) = false := by
  revert own table
  cases under : loop.underPtable <;> cases phase <;>
    simp [wakePhase, holdsOwn, holdsTable, committed, under]

end Wakes

section Steps
variable {loop : Loop δ} {s next : System δ} {act : Act δ}

theorem shift_park {p : Nat} (held : Held loop s) (parked : s.phase p = .parked) :
    Shift loop s ({ s with pt := none }.move p .asleep) (.park p) p := by
  have table := held.table p
  constructor <;> simp_all [holdsOwn, holdsTable, committed, owing]

theorem shift_dispatch {q : Nat} (runnable : s.phase q = .runnable) (free : s.pt = none) :
    Shift loop s ({ s with pt := some q }.move q .resumed) (.dispatch q) q := by
  constructor <;> simp_all [holdsOwn, holdsTable, committed, owing]

theorem step_cases (held : Held loop s) (stepped : step loop s act = some next) :
    (∃ p, Shift loop s next act p) ∨ (∃ p, Wake loop s next p) ∨ (∃ p, Change loop s next p) ∨
      ∃ p q middle, Shift loop s middle (.park p) p ∧ Shift loop middle next (.dispatch q) q := by
  cases act <;> simp only [step] at stepped
  case enter p =>
    split at stepped
    · cases stepped
      left
      refine ⟨p, ?_⟩
      cases under : loop.underPtable <;> constructor <;>
        simp_all [acquire, lockFree, holdsOwn, holdsTable, committed, owing]
    · cases stepped
  case lock p =>
    split at stepped
    · cases stepped
      left
      refine ⟨p, ?_⟩
      cases under : loop.underPtable <;> constructor <;>
        simp_all [acquire, lockFree, holdsOwn, holdsTable, committed, owing]
    · cases stepped
  case test p =>
    have own := held.own p
    have table := held.table p
    left
    refine ⟨p, ?_⟩
    split at stepped
    · split at stepped
      · cases stepped
        constructor <;> simp_all [holdsOwn, holdsTable, committed, owing]
      split at stepped
      · cases stepped
        cases under : loop.underPtable <;> constructor <;>
          simp_all [release, holdsOwn, holdsTable, committed, owing]
      · cases stepped
        cases nudges : loop.nudges <;> constructor <;>
          simp_all [holdsOwn, holdsTable, committed, owing]
    · cases stepped
  case nudge p =>
    have own := held.own p
    have table := held.table p
    split at stepped
    · cases stepped
      left
      refine ⟨p, ?_⟩
      constructor <;> simp_all [holdsOwn, holdsTable, committed, owing]
    · cases stepped
  case lockTable p =>
    have own := held.own p
    split at stepped
    · cases stepped
      left
      refine ⟨p, ?_⟩
      constructor <;> simp_all [holdsOwn, holdsTable, committed, owing]
    · cases stepped
  case unlock p =>
    have own := held.own p
    have table := held.table p
    split at stepped
    · cases stepped
      left
      refine ⟨p, ?_⟩
      constructor <;> simp_all [holdsOwn, holdsTable, committed, owing]
    · cases stepped
  case fall p =>
    have table := held.table p
    split at stepped
    · rename_i guard
      cases stepped
      left
      refine ⟨p, ?_⟩
      rcases guard with phase | ⟨phase, under⟩ <;> constructor <;>
        simp_all [holdsOwn, holdsTable, committed, owing]
    · cases stepped
  case park p =>
    split at stepped
    · rename_i parked
      cases stepped
      exact .inl ⟨p, shift_park held parked⟩
    · cases stepped
  case switchTo p q =>
    split at stepped
    · rename_i guard
      obtain ⟨parked, runnable⟩ := guard
      have apart : q ≠ p := by
        rintro rfl
        rw [parked] at runnable
        cases runnable
      cases stepped
      have later : ({ s with pt := none }.move p .asleep).phase q = .runnable := by
        simp [apart, runnable]
      exact .inr (.inr (.inr ⟨p, q, _, shift_park held parked, shift_dispatch later rfl⟩))
    · cases stepped
  case dispatch q =>
    split at stepped
    · rename_i guard
      cases stepped
      exact .inl ⟨q, shift_dispatch guard.1 guard.2⟩
    · cases stepped
  case leaveSleep p =>
    have table := held.table p
    split at stepped
    · left
      refine ⟨p, ?_⟩
      split at stepped <;> cases stepped <;> constructor <;>
        simp_all [holdsOwn, holdsTable, committed, owing]
    · cases stepped
  case regain p =>
    split at stepped
    · cases stepped
      left
      refine ⟨p, ?_⟩
      constructor <;> simp_all [holdsOwn, holdsTable, committed, owing]
    · cases stepped
  case change p d =>
    split at stepped
    · rename_i owes phase
      cases stepped
      refine .inr (.inr (.inl ⟨p, ⟨⟨owes, phase, by simp⟩, ?_, rfl, rfl, rfl⟩⟩))
      intro q other
      simp [other]
    · cases stepped
  case wakeup p =>
    have own := held.own p
    have table := held.table p
    split at stepped
    · split at stepped
      · cases stepped
        refine .inr (.inl ⟨p, ?_⟩)
        constructor <;> simp_all [holdsTable, wakeup1]
      split at stepped
      · cases stepped
        left
        refine ⟨p, ?_⟩
        constructor <;> simp_all [holdsOwn, holdsTable, committed, owing]
      · cases stepped
    · cases stepped
  case wake p =>
    have own := held.own p
    have table := held.table p
    split at stepped
    · cases stepped
      refine .inr (.inl ⟨p, ?_⟩)
      constructor <;> simp_all [holdsOwn, holdsTable, wakeup1]
    · cases stepped
  case again p =>
    have own := held.own p
    have table := held.table p
    split at stepped
    · cases stepped
      left
      refine ⟨p, ?_⟩
      constructor <;> simp_all [holdsOwn, holdsTable, committed, owing]
    · cases stepped
  case leave p =>
    have own := held.own p
    have table := held.table p
    split at stepped
    · rename_i owes phase
      cases stepped
      left
      refine ⟨p, ?_⟩
      cases under : loop.underPtable <;> cases owes <;> constructor <;>
        simp_all [release, holdsOwn, holdsTable, committed, owing, Disciplined]
    · cases stepped
  case kill q =>
    have own := held.own q
    have table := held.table q
    split at stepped
    · cases stepped
      left
      refine ⟨q, ?_⟩
      constructor
      case calm => exact fun _ still => committed_of_wake (by simpa using still)
      case fresh => exact fun still => .inl (committed_of_wake (by simpa using still))
      case killed =>
        intro p killed
        simp only [Bool.or_eq_true, decide_eq_true_eq] at killed
        rcases killed with same | before
        · exact .inr (by rw [same])
        · exact .inl before
      all_goals simp_all [holdsOwn_wake, holdsTable_wake, owing_wake]
    · cases stepped

theorem held_shift {p : Nat} (held : Held loop s) (shift : Shift loop s next act p) :
    Held loop next := by
  constructor
  · intro q mine
    by_cases here : q = p
    · subst here
      exact shift.own mine
    · rw [shift.others q here] at mine
      exact (shift.lk q (held.own q mine)).resolve_left here
  · intro q mine
    by_cases here : q = p
    · subst here
      exact shift.table mine
    · rw [shift.others q here] at mine
      exact (shift.pt q (held.table q mine)).resolve_left here

theorem awake_shift {p : Nat} (awake : Awake loop s) (shift : Shift loop s next act p)
    (disciplined : Disciplined s act) : Awake loop next := by
  intro ready
  rw [shift.data] at ready
  rcases awake ready with ⟨q, debt⟩ | quiet
  · left
    by_cases here : q = p
    · subst here
      exact ⟨q, shift.owed disciplined ready debt⟩
    · exact ⟨q, by rwa [shift.others q here]⟩
  · right
    intro q
    by_cases here : q = p
    · subst here
      refine Bool.eq_false_iff.mpr fun now => ?_
      have before := shift.calm ready now
      rw [quiet q] at before
      cases before
    · rw [shift.others q here]
      exact quiet q

theorem wake_alone {p q : Nat} (held : Held loop s) (wake : Wake loop s next p) (other : q ≠ p) :
    holdsOwn loop (s.phase q) = false ∧ holdsTable loop (s.phase q) = false := by
  have away : s.pt ≠ some q := by
    rw [wake.pt]
    exact fun same => other (Option.some.inj same).symm
  refine ⟨?_, Bool.eq_false_iff.mpr fun mine => away (held.table q mine)⟩
  cases under : loop.underPtable with
  | true => exact holdsOwn_under under _
  | false =>
    refine Bool.eq_false_iff.mpr fun mine => other ?_
    have first := wake.lk under
    rw [held.own q mine] at first
    exact Option.some.inj first

theorem held_wake {p : Nat} (held : Held loop s) (wake : Wake loop s next p) : Held loop next := by
  constructor
  · intro q mine
    by_cases here : q = p
    · subst here
      rw [wake.sameLk]
      apply wake.lk
      simpa [wake.here, holdsOwn] using mine
    · rw [wake.others q here, holdsOwn_wake, (wake_alone held wake here).1] at mine
      cases mine
  · intro q mine
    by_cases here : q = p
    · subst here
      rw [wake.samePt, wake.pt]
      simpa [wake.here, holdsTable] using mine
    · rw [wake.others q here, holdsTable_wake, (wake_alone held wake here).2] at mine
      cases mine

theorem quiet_wake {p : Nat} (held : Held loop s) (wake : Wake loop s next p) (q : Nat) :
    committed (next.phase q) = false := by
  by_cases here : q = p
  · rw [here, wake.here]
    rfl
  · obtain ⟨own, table⟩ := wake_alone held wake here
    rw [wake.others q here]
    exact committed_wake own table

theorem held_change {p : Nat} (held : Held loop s) (change : Change loop s next p) :
    Held loop next := by
  obtain ⟨owes, before, after⟩ := change.phase
  constructor
  · intro q mine
    rw [change.sameLk]
    apply held.own q
    by_cases here : q = p
    · subst here
      simpa [before, after, holdsOwn] using mine
    · rwa [change.others q here] at mine
  · intro q mine
    rw [change.samePt]
    apply held.table q
    by_cases here : q = p
    · subst here
      simpa [before, after, holdsTable] using mine
    · rwa [change.others q here] at mine

theorem awake_change {p : Nat} (awake : Awake loop s) (change : Change loop s next p) :
    Awake loop next := by
  obtain ⟨owes, before, after⟩ := change.phase
  intro ready
  by_cases already : loop.ready s.data = true
  · rcases awake already with ⟨q, debt⟩ | quiet
    · left
      refine ⟨q, ?_⟩
      by_cases here : q = p
      · subst here
        rw [before] at debt
        have owed : owes = true := debt
        simp [after, owing, ready, owed]
      · rwa [change.others q here]
    · right
      intro q
      by_cases here : q = p
      · rw [here, after]
        rfl
      · rw [change.others q here]
        exact quiet q
  · left
    refine ⟨p, ?_⟩
    simp [after, owing, ready, already]

theorem held_step (held : Held loop s) (stepped : step loop s act = some next) :
    Held loop next := by
  rcases step_cases held stepped with ⟨p, shift⟩ | ⟨p, wake⟩ | ⟨p, change⟩ | ⟨p, q, middle, first, second⟩
  · exact held_shift held shift
  · exact held_wake held wake
  · exact held_change held change
  · exact held_shift (held_shift held first) second

theorem awake_step (held : Held loop s) (awake : Awake loop s) (disciplined : Disciplined s act)
    (stepped : step loop s act = some next) : Awake loop next := by
  rcases step_cases held stepped with ⟨p, shift⟩ | ⟨p, wake⟩ | ⟨p, change⟩ | ⟨p, q, middle, first, second⟩
  · exact awake_shift awake shift disciplined
  · exact fun _ => .inr (quiet_wake held wake)
  · exact awake_change awake change
  · exact awake_shift (awake_shift awake first trivial) second trivial

end Steps

theorem held_start (loop : Loop δ) (data : δ) : Held loop (start data) := by
  constructor <;> simp [start, holdsOwn, holdsTable]

theorem awake_start (loop : Loop δ) (data : δ) : Awake loop (start data) :=
  fun _ => .inr fun _ => rfl

theorem owing_held {loop : Loop δ} {s : System δ} {q : Nat} (held : Held loop s)
    (debt : owing (s.phase q) = true) : lockFree loop s = false := by
  have own := held.own q
  have table := held.table q
  revert debt own table
  cases under : loop.underPtable <;> cases s.phase q <;>
    simp +contextual [owing, holdsOwn, holdsTable, lockFree, under]

/-- No wakeup is lost: while lk is free and the condition holds, nobody sleeps on the
channel. -/
theorem awake_when_ready (loop : Loop δ) (data : δ) (acts : List (Act δ)) (s : System δ)
    (disciplined : Along (step loop) Disciplined (start data) acts)
    (run : exec (step loop) (start data) acts = some s) (free : lockFree loop s = true)
    (ready : loop.ready s.data = true) (p : Nat) : sleeping (s.phase p) = false := by
  have inv := exec_invariant (fun s => Held loop s ∧ Awake loop s)
    (fun s act next inv allowed stepped =>
      ⟨held_step inv.1 stepped, awake_step inv.1 inv.2 allowed stepped⟩)
    ⟨held_start loop data, awake_start loop data⟩ disciplined run
  rcases inv.2 ready with ⟨q, debt⟩ | quiet
  · rw [owing_held inv.1 debt] at free
    cases free
  · have calm := quiet p
    revert calm
    cases s.phase p <;> simp [committed, sleeping]

/-- A flag under a lock of its own. -/
def flag : Loop Bool := ⟨false, id, fun _ => false, false, false⟩

/-- Process 0 goes to sleep and process 1 wakes it. -/
def handoverRun : List (Act Bool) :=
  [.enter 0, .test 0, .lockTable 0, .unlock 0, .fall 0, .park 0, .lock 1, .change 1 true,
    .wakeup 1, .wake 1, .leave 1]

theorem awake_after_handover :
    ∃ s, exec (step flag) (start false) handoverRun = some s ∧ s.data = true ∧
      s.phase 0 = .runnable ∧ ∀ p, sleeping (s.phase p) = false := by
  refine ⟨_, rfl, rfl, rfl, fun p => ?_⟩
  refine awake_when_ready flag false handoverRun _ ?_ rfl rfl rfl p
  exact ⟨trivial, trivial, trivial, trivial, trivial, trivial, trivial, trivial, trivial, trivial,
    show Phase.working false ≠ Phase.working true by decide, trivial⟩

section Killed
variable {loop : Loop δ} {s next : System δ} {act : Act δ}

/-- No killed process is between its test of killed and the wakeup. -/
def Spared (s : System δ) : Prop := ∀ p, s.killed p = true → committed (s.phase p) = false

/-- kill does not hit a process that has tested killed and is not SLEEPING yet. -/
def OutsideWindow (s : System δ) : Act δ → Prop
  | .kill q => committed (wakePhase (s.phase q)) = false
  | _ => True

theorem outside_of_under (held : Held loop s) (under : loop.underPtable = true)
    (stepped : step loop s act = some next) : OutsideWindow s act := by
  cases act with
  | kill q =>
    simp only [step] at stepped
    split at stepped
    · rename_i free
      refine committed_wake (holdsOwn_under under _) (Bool.eq_false_iff.mpr fun mine => ?_)
      rw [held.table q mine] at free
      cases free
    · cases stepped
  | _ => trivial

theorem spared_shift {p : Nat} (interruptible : loop.interruptible = true) (spared : Spared s)
    (shift : Shift loop s next act p) (unhit : ∀ q, act = .kill q → committed (next.phase q) = false) :
    Spared next := by
  intro q killed
  rcases shift.killed q killed with before | hit
  · by_cases here : q = p
    · subst here
      refine Bool.eq_false_iff.mpr fun now => ?_
      rcases shift.fresh now with old | alive
      · rw [spared q before] at old
        cases old
      · rw [alive interruptible] at before
        cases before
    · rw [shift.others q here]
      exact spared q before
  · exact unhit q hit

theorem spared_step (interruptible : loop.interruptible = true) (held : Held loop s)
    (spared : Spared s) (outside : OutsideWindow s act) (stepped : step loop s act = some next) :
    Spared next := by
  rcases step_cases held stepped with ⟨p, shift⟩ | ⟨p, wake⟩ | ⟨p, change⟩ | ⟨p, q, middle, first, second⟩
  · refine spared_shift interruptible spared shift fun q hit => ?_
    subst hit
    simp only [step] at stepped
    split at stepped
    · cases stepped
      simpa [OutsideWindow] using outside
    · cases stepped
  · exact fun q _ => quiet_wake held wake q
  · intro q killed
    rw [change.killed] at killed
    obtain ⟨owes, _, after⟩ := change.phase
    by_cases here : q = p
    · rw [here, after]
      rfl
    · rw [change.others q here]
      exact spared q killed
  · have middleSpared := spared_shift interruptible spared first fun q hit => nomatch hit
    exact spared_shift interruptible middleSpared second fun q hit => nomatch hit

end Killed

/-- The data that the blocking loops of the kernel test. -/
structure Shared where
  /-- what the scan of wait finds -/
  havekids : Bool
  zombieChild : Bool
  /-- a pipe -/
  nread : UInt32
  nwrite : UInt32
  readopen : Bool
  writeopen : Bool
  /-- the console's input buffer -/
  r : UInt32
  w : UInt32
  ticks : UInt32

def pipesize : UInt32 := 512

def wait : Loop Shared :=
  ⟨true, fun d => d.zombieChild, fun d => !d.havekids, true, false⟩

def piperead : Loop Shared :=
  ⟨false, fun d => !(d.nread == d.nwrite && d.writeopen), fun _ => false, true, false⟩

/-- pipewrite wakes the readers before it sleeps. -/
def pipewrite : Loop Shared :=
  ⟨false, fun d => d.nwrite != d.nread + pipesize, fun d => !d.readopen, true, true⟩

def consoleread : Loop Shared :=
  ⟨false, fun d => d.r != d.w, fun _ => false, true, false⟩

def sysSleep (ticks0 n : UInt32) : Loop Shared :=
  ⟨false, fun d => !decide (d.ticks - ticks0 < n), fun _ => false, true, false⟩

inductive Call
  | wait
  | piperead
  | pipewrite
  | consoleread
  | sysSleep (ticks0 n : UInt32)

def Call.loop : Call → Loop Shared
  | .wait => Sleep.wait
  | .piperead => Sleep.piperead
  | .pipewrite => Sleep.pipewrite
  | .consoleread => Sleep.consoleread
  | .sysSleep ticks0 n => Sleep.sysSleep ticks0 n

theorem loop_interruptible (call : Call) : call.loop.interruptible = true := by
  cases call <;> rfl

/-- wait is safe in every run; the other loops are where kill stays out of the window
between the test of killed and SLEEPING. -/
theorem killed_not_asleep (call : Call) (data : Shared) (acts : List (Act Shared))
    (s : System Shared)
    (outside : call ≠ .wait → Along (step call.loop) OutsideWindow (start data) acts)
    (run : exec (step call.loop) (start data) acts = some s) (p : Nat)
    (killed : s.killed p = true) : sleeping (s.phase p) = false := by
  have inv : Held call.loop s ∧ Spared s := by
    have initial : Held call.loop (start data) ∧ Spared (start data) :=
      ⟨held_start _ _, fun _ dead => nomatch dead⟩
    by_cases isWait : call = .wait
    · have under : call.loop.underPtable = true := by
        subst isWait
        rfl
      refine exec_preserves (fun s => Held call.loop s ∧ Spared s) ?_ initial run
      intro s act next inv stepped
      exact ⟨held_step inv.1 stepped, spared_step (loop_interruptible call) inv.1 inv.2
        (outside_of_under inv.1 under stepped) stepped⟩
    · refine exec_invariant (fun s => Held call.loop s ∧ Spared s) ?_ initial (outside isWait) run
      intro s act next inv allowed stepped
      exact ⟨held_step inv.1 stepped,
        spared_step (loop_interruptible call) inv.1 inv.2 allowed stepped⟩
  have calm := inv.2 p killed
  revert calm
  cases s.phase p <;> simp [committed, sleeping]

def emptyPipe : Shared := ⟨true, false, 0, 0, true, true, 0, 0, 0⟩

def fullPipe : Shared := ⟨true, false, 0, 512, true, true, 0, 0, 0⟩

/-- kill of a process that sleeps in piperead. -/
def killedReader : List (Act Shared) :=
  [.enter 0, .test 0, .lockTable 0, .unlock 0, .fall 0, .park 0, .kill 0]

theorem killed_reader_awake :
    ∃ s, exec (step Call.piperead.loop) (start emptyPipe) killedReader = some s ∧
      s.killed 0 = true ∧ sleeping (s.phase 0) = false := by
  refine ⟨_, rfl, rfl, ?_⟩
  refine killed_not_asleep .piperead emptyPipe killedReader _ (fun _ => ?_) rfl 0 rfl
  exact ⟨trivial, trivial, trivial, trivial, trivial, trivial, rfl, trivial⟩

/-- kill in the window: the target has read killed = 0 and calls sleep. -/
def windowRun : List (Act Shared) :=
  [.enter 0, .test 0, .kill 0, .lockTable 0, .unlock 0, .fall 0, .park 0]

/-- In the four loops that test killed under another lock than ptable.lock a process
that is killed in the window sleeps on. -/
theorem killed_in_window_asleep :
    (∃ s, exec (step Call.piperead.loop) (start emptyPipe) windowRun = some s ∧
      s.killed 0 = true ∧ s.phase 0 = .asleep) ∧
    (∃ s, exec (step Call.pipewrite.loop) (start fullPipe)
        [.enter 0, .test 0, .kill 0, .nudge 0, .lockTable 0, .unlock 0, .fall 0, .park 0] = some s ∧
      s.killed 0 = true ∧ s.phase 0 = .asleep) ∧
    (∃ s, exec (step Call.consoleread.loop) (start emptyPipe) windowRun = some s ∧
      s.killed 0 = true ∧ s.phase 0 = .asleep) ∧
    (∃ s, exec (step (Call.sysSleep 0 10).loop) (start emptyPipe) windowRun = some s ∧
      s.killed 0 = true ∧ s.phase 0 = .asleep) :=
  ⟨⟨_, rfl, rfl, rfl⟩, ⟨_, rfl, rfl, rfl⟩, ⟨_, rfl, rfl, rfl⟩, ⟨_, rfl, rfl, rfl⟩⟩

end Xv6.Sleep
