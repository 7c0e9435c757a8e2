import Xv6.RingBuffer
import Xv6.Transition

/-! Pipes, kernel/pipe.c. Any number of processes call pipewrite, piperead and
pipeclose on one pipe, and kill may hit any of them at any time. A step is one turn of
a loop by the process that has the pipe's lock; sleep releases the lock and changes the
state in one step, which is what ptable.lock is for. -/
namespace Xv6.Pipe
open Transition RingBuffer

def pipesize : Nat := 512

/-- The range of a C uint. -/
def uintRange : Nat := 2 ^ 32

inductive Chan
  | nread
  | nwrite
  deriving DecidableEq

/-- Where a process stands in a call on the pipe. -/
inductive Phase
  | idle
  /-- in pipewrite with these bytes left, before acquire or woken -/
  | writing (todo : List UInt8)
  /-- has the lock, in the loop of pipewrite -/
  | storing (todo : List UInt8)
  /-- has the lock, before sleep(&p->nwrite, &p->lock) -/
  | fullWait (todo : List UInt8)
  /-- SLEEPING on &p->nwrite -/
  | writeAsleep (todo : List UInt8)
  | reading (n : Nat)
  /-- has the lock, at the test for an empty pipe -/
  | testing (n : Nat)
  | emptyWait (n : Nat)
  /-- SLEEPING on &p->nread -/
  | readAsleep (n : Nat)
  /-- has the lock, with n bytes left to copy -/
  | copying (n : Nat)
  | closing (writable : Bool)
  | shutting (writable : Bool)
  deriving DecidableEq

structure System where
  ring : Buffer UInt8
  readopen : Bool
  writeopen : Bool
  lock : Option Nat
  phase : Nat → Phase
  killed : Nat → Bool
  /-- the bytes stored by pipewrite so far, in lock order -/
  stored : List UInt8
  /-- the bytes handed out by piperead so far, in lock order -/
  delivered : List UInt8

def System.move (s : System) (p : Nat) (phase : Phase) : System :=
  { s with phase := fun q => if q = p then phase else s.phase q }

def System.unlock (s : System) (p : Nat) (phase : Phase) : System :=
  { s.move p phase with lock := none }

def wakePhase : Chan → Phase → Phase
  | .nread, .readAsleep n => .reading n
  | .nwrite, .writeAsleep todo => .writing todo
  | _, phase => phase

def wakeup (s : System) (chan : Chan) : System :=
  { s with phase := fun q => wakePhase chan (s.phase q) }

def full (s : System) : Prop := s.ring.nwrite = (s.ring.nread + pipesize) % uintRange

def empty (s : System) : Prop := s.ring.nread = s.ring.nwrite

instance (s : System) : Decidable (full s) := inferInstanceAs (Decidable (_ = _))

instance (s : System) : Decidable (empty s) := inferInstanceAs (Decidable (_ = _))

inductive Call
  | pipewrite (bytes : List UInt8)
  | piperead (n : Nat)
  | pipeclose (writable : Bool)

inductive Act
  | call (p : Nat) (call : Call)
  | acquire (p : Nat)
  | advance (p : Nat)
  | kill (q : Nat)

def enter : Call → Phase
  | .pipewrite bytes => .writing bytes
  | .piperead n => .reading n
  | .pipeclose writable => .closing writable

/-- After acquire(&p->lock). -/
def locked : Phase → Option Phase
  | .writing todo => some (.storing todo)
  | .reading n => some (.testing n)
  | .closing writable => some (.shutting writable)
  | _ => none

def close (s : System) (writable : Bool) : System :=
  if writable then wakeup { s with writeopen := false } .nread
  else wakeup { s with readopen := false } .nwrite

/-- The next step of the process with the lock. -/
def advance (s : System) (p : Nat) : Option System :=
  match s.phase p with
  | .storing [] => some ((wakeup s .nread).unlock p .idle)
  | .storing (b :: rest) =>
    if full s then
      if s.readopen = false ∨ s.killed p then some (s.unlock p .idle)
      else some ((wakeup s .nread).move p (.fullWait (b :: rest)))
    else
      some ({ s with ring := push pipesize uintRange s.ring b, stored := s.stored ++ [b] }.move p
        (.storing rest))
  | .fullWait todo => some (s.unlock p (.writeAsleep todo))
  | .testing n =>
    if empty s ∧ s.writeopen then
      if s.killed p then some (s.unlock p .idle) else some (s.move p (.emptyWait n))
    else some (s.move p (.copying n))
  | .emptyWait n => some (s.unlock p (.readAsleep n))
  | .copying 0 => some ((wakeup s .nwrite).unlock p .idle)
  | .copying (n + 1) =>
    if empty s then some ((wakeup s .nwrite).unlock p .idle)
    else
      some ({ s with
        ring := pop uintRange s.ring
        delivered := s.delivered ++ [front pipesize s.ring] }.move p (.copying n))
  | .shutting writable => some ((close s writable).unlock p .idle)
  | _ => none

/-- Once both ends are closed the page is given back and the lock with it. -/
def step (s : System) : Act → Option System
  | .call p call => if s.phase p = .idle then some (s.move p (enter call)) else none
  | .acquire p =>
    if s.lock = none ∧ (s.readopen ∨ s.writeopen) then
      (locked (s.phase p)).map fun phase => { s.move p phase with lock := some p }
    else none
  | .advance p => advance s p
  | .kill q =>
    some { s with
      killed := fun p => p = q || s.killed p
      phase := fun p =>
        if p = q then wakePhase .nread (wakePhase .nwrite (s.phase p)) else s.phase p }

/-- pipealloc; the data of the page are arbitrary. -/
def start (cells : Nat → UInt8) : System where
  ring := ⟨cells, 0, 0⟩
  readopen := true
  writeopen := true
  lock := none
  phase := fun _ => .idle
  killed := fun _ => false
  stored := []
  delivered := []

section Fields
variable (s : System) (p q : Nat) (phase : Phase) (c : Chan)

@[simp] theorem move_phase : (s.move p phase).phase q = if q = p then phase else s.phase q := rfl
@[simp] theorem unlock_phase : (s.unlock p phase).phase q = if q = p then phase else s.phase q := rfl
@[simp] theorem wakeup_phase : (wakeup s c).phase q = wakePhase c (s.phase q) := rfl
@[simp] theorem move_ring : (s.move p phase).ring = s.ring := rfl
@[simp] theorem move_lock : (s.move p phase).lock = s.lock := rfl
@[simp] theorem wakeup_lock : (wakeup s c).lock = s.lock := rfl
@[simp] theorem move_readopen : (s.move p phase).readopen = s.readopen := rfl
@[simp] theorem unlock_readopen : (s.unlock p phase).readopen = s.readopen := rfl
@[simp] theorem wakeup_readopen : (wakeup s c).readopen = s.readopen := rfl
@[simp] theorem move_writeopen : (s.move p phase).writeopen = s.writeopen := rfl
@[simp] theorem unlock_writeopen : (s.unlock p phase).writeopen = s.writeopen := rfl
@[simp] theorem wakeup_writeopen : (wakeup s c).writeopen = s.writeopen := rfl
@[simp] theorem full_move : full (s.move p phase) ↔ full s := Iff.rfl
@[simp] theorem full_unlock : full (s.unlock p phase) ↔ full s := Iff.rfl
@[simp] theorem full_wakeup : full (wakeup s c) ↔ full s := Iff.rfl
@[simp] theorem empty_move : empty (s.move p phase) ↔ empty s := Iff.rfl
@[simp] theorem empty_unlock : empty (s.unlock p phase) ↔ empty s := Iff.rfl
@[simp] theorem empty_wakeup : empty (wakeup s c) ↔ empty s := Iff.rfl

end Fields

section Flow
variable {s next : System} {act : Act}

/-- What a step does to the bytes. -/
inductive Flow (s next : System) : Prop
  | same (ring : next.ring = s.ring) (stored : next.stored = s.stored)
      (delivered : next.delivered = s.delivered)
  | store (b : UInt8) (room : ¬ full s) (ring : next.ring = push pipesize uintRange s.ring b)
      (stored : next.stored = s.stored ++ [b]) (delivered : next.delivered = s.delivered)
  | copy (some : ¬ empty s) (ring : next.ring = pop uintRange s.ring)
      (stored : next.stored = s.stored)
      (delivered : next.delivered = s.delivered ++ [front pipesize s.ring])

theorem step_flow (stepped : step s act = some next) : Flow s next := by
  cases act with
  | call p call =>
    simp only [step] at stepped
    split at stepped
    · cases stepped
      exact .same rfl rfl rfl
    · cases stepped
  | acquire p =>
    simp only [step] at stepped
    split at stepped
    · obtain ⟨phase, _, rfl⟩ := Option.map_eq_some_iff.mp stepped
      exact .same rfl rfl rfl
    · cases stepped
  | kill q =>
    cases stepped
    exact .same rfl rfl rfl
  | advance p =>
    simp only [step, advance] at stepped
    split at stepped
    case h_2 b rest phase =>
      split at stepped
      · split at stepped <;> cases stepped <;> exact .same rfl rfl rfl
      · rename_i room
        cases stepped
        exact .store b room rfl rfl rfl
    case h_4 n phase =>
      split at stepped
      · split at stepped <;> cases stepped <;> exact .same rfl rfl rfl
      · cases stepped
        exact .same rfl rfl rfl
    case h_7 n phase =>
      split at stepped
      · cases stepped
        exact .same rfl rfl rfl
      · rename_i some
        cases stepped
        exact .copy some rfl rfl rfl
    case h_8 writable phase =>
      cases stepped
      cases writable <;> exact .same rfl rfl rfl
    all_goals cases stepped <;> exact .same rfl rfl rfl

/-- Nothing is lost, duplicated or reordered. -/
structure Fifo (s : System) : Prop where
  fits : Fits pipesize uintRange s.ring
  order : s.stored = s.delivered ++ content pipesize uintRange s.ring

theorem fifo_start (cells : Nat → UInt8) : Fifo (start cells) where
  fits := ⟨show 0 < uintRange by decide, 0, by decide, rfl⟩
  order := by simp [start, content, used]

theorem fifo_step (fifo : Fifo s) (stepped : step s act = some next) : Fifo next := by
  have room : pipesize < uintRange := by decide
  have divides : pipesize ∣ uintRange := by decide
  cases step_flow stepped with
  | same ring stored delivered =>
    constructor
    · rw [ring]
      exact fifo.fits
    · rw [ring, stored, delivered]
      exact fifo.order
  | store b notFull ring stored delivered =>
    have less := used_lt fifo.fits room notFull
    constructor
    · rw [ring]
      exact (fits_push fifo.fits room less b).1
    · rw [ring, stored, delivered, content_push fifo.fits room divides less b, fifo.order,
        List.append_assoc]
  | copy some ring stored delivered =>
    have more := used_pos fifo.fits room some
    constructor
    · rw [ring]
      exact (fits_pop fifo.fits room more).1
    · rw [ring, stored, delivered, fifo.order, content_pop fifo.fits room divides more,
        List.append_assoc, List.singleton_append]

/-- What piperead delivers is what pipewrite stored, in order; the rest is buffered. -/
theorem delivered_then_buffered (cells : Nat → UInt8) (acts : List Act) (s : System)
    (run : exec step (start cells) acts = some s) :
    s.stored = s.delivered ++ content pipesize uintRange s.ring ∧
      used uintRange s.ring ≤ pipesize := by
  have fifo := exec_preserves Fifo (fun s act next held stepped => fifo_step held stepped)
    (fifo_start cells) run
  exact ⟨fifo.order, used_le fifo.fits (by decide)⟩

/-- Two bytes written, one of them read. -/
def shortRun : List Act :=
  [.call 0 (.pipewrite [1, 2]), .acquire 0, .advance 0, .advance 0, .advance 0,
    .call 1 (.piperead 1), .acquire 1, .advance 1, .advance 1, .advance 1]

theorem delivered_after_shortRun :
    ∃ s, exec step (start fun _ => 0) shortRun = some s ∧ s.delivered = [1] ∧
      s.stored = s.delivered ++ content pipesize uintRange s.ring ∧
      used uintRange s.ring ≤ pipesize :=
  ⟨_, rfl, rfl, delivered_then_buffered (fun _ => 0) shortRun _ rfl⟩

end Flow

/-- Has the pipe's lock. -/
def holds : Phase → Bool
  | .storing _ => true
  | .fullWait _ => true
  | .testing _ => true
  | .emptyWait _ => true
  | .copying _ => true
  | .shutting _ => true
  | .idle => false
  | .writing _ => false
  | .writeAsleep _ => false
  | .reading _ => false
  | .readAsleep _ => false
  | .closing _ => false

def isStoring : Phase → Bool
  | .storing _ => true
  | _ => false

def isCopying : Phase → Bool
  | .copying _ => true
  | _ => false

/-- The channel that the process is SLEEPING on. -/
def chanOf : Phase → Option Chan
  | .readAsleep _ => some .nread
  | .writeAsleep _ => some .nwrite
  | _ => none

/-- A sleeper has something to wait for, unless the process with the lock is about to
wake it. -/
structure Inv (s : System) : Prop where
  held : ∀ p, holds (s.phase p) = true → s.lock = some p
  readers : ∀ q, chanOf (s.phase q) = some .nread →
    (empty s ∧ s.writeopen = true) ∨ ∃ p, isStoring (s.phase p) = true
  writers : ∀ q, chanOf (s.phase q) = some .nwrite →
    (full s ∧ s.readopen = true) ∨ ∃ p, isCopying (s.phase p) = true
  emptyWait : ∀ p n, s.phase p = .emptyWait n → empty s ∧ s.writeopen = true
  fullWait : ∀ p todo, s.phase p = .fullWait todo → full s ∧ s.readopen = true

theorem inv_start (cells : Nat → UInt8) : Inv (start cells) := by
  constructor <;> simp [start, holds, chanOf]

/-- pipewrite returns early only while nobody sleeps on &p->nread. -/
def Prompt (s : System) : Act → Prop
  | .advance p => ∀ b rest, s.phase p = .storing (b :: rest) → full s →
      s.readopen = false ∨ s.killed p = true → ∀ q, chanOf (s.phase q) ≠ some .nread
  | _ => True

section Wake
variable (c c' : Chan) (phase : Phase)

@[simp] theorem holds_wake : holds (wakePhase c phase) = holds phase := by
  cases c <;> cases phase <;> rfl

@[simp] theorem chanOf_wake :
    chanOf (wakePhase c phase) = some c' ↔ c ≠ c' ∧ chanOf phase = some c' := by
  cases c <;> cases c' <;> cases phase <;> simp [wakePhase, chanOf]

@[simp] theorem chanOf_values :
    chanOf .idle = none ∧ (∀ todo, chanOf (.storing todo) = none) ∧
      (∀ todo, chanOf (.fullWait todo) = none) ∧ (∀ n, chanOf (.emptyWait n) = none) ∧
      (∀ n, chanOf (.copying n) = none) ∧ (∀ n, chanOf (.readAsleep n) = some .nread) ∧
      ∀ todo, chanOf (.writeAsleep todo) = some .nwrite := by
  simp [chanOf]

theorem isStoring_holds {phase : Phase} (storing : isStoring phase = true) : holds phase = true := by
  cases phase <;> first | rfl | cases storing

theorem isCopying_holds {phase : Phase} (copying : isCopying phase = true) : holds phase = true := by
  cases phase <;> first | rfl | cases copying

end Wake

section Turns
variable {s next : System} {p : Nat}

theorem alone (inv : Inv s) (mine : holds (s.phase p) = true) {q : Nat} (other : q ≠ p) :
    holds (s.phase q) = false := by
  refine Bool.eq_false_iff.mpr fun yours => other ?_
  have first := inv.held p mine
  rw [inv.held q yours] at first
  exact Option.some.inj first

theorem readers_of (inv : Inv s) (mine : holds (s.phase p) = true) {q : Nat}
    (asleep : chanOf (s.phase q) = some .nread) :
    (empty s ∧ s.writeopen = true) ∨ isStoring (s.phase p) = true := by
  refine (inv.readers q asleep).imp id ?_
  rintro ⟨r, storing⟩
  by_cases here : r = p
  · rwa [here] at storing
  · have := alone inv mine here
    rw [isStoring_holds storing] at this
    cases this

theorem writers_of (inv : Inv s) (mine : holds (s.phase p) = true) {q : Nat}
    (asleep : chanOf (s.phase q) = some .nwrite) :
    (full s ∧ s.readopen = true) ∨ isCopying (s.phase p) = true := by
  refine (inv.writers q asleep).imp id ?_
  rintro ⟨r, copying⟩
  by_cases here : r = p
  · rwa [here] at copying
  · have := alone inv mine here
    rw [isCopying_holds copying] at this
    cases this

theorem inv_turn (inv : Inv s) (mine : holds (s.phase p) = true)
    (others : ∀ q, q ≠ p → next.phase q = s.phase q ∨ ∃ c, next.phase q = wakePhase c (s.phase q))
    (lock : holds (next.phase p) = true → next.lock = some p)
    (reader : chanOf (next.phase p) = some .nread → empty next ∧ next.writeopen = true)
    (writer : chanOf (next.phase p) = some .nwrite → full next ∧ next.readopen = true)
    (readers : ∀ q, q ≠ p → chanOf (next.phase q) = some .nread →
      (empty next ∧ next.writeopen = true) ∨ isStoring (next.phase p) = true)
    (writers : ∀ q, q ≠ p → chanOf (next.phase q) = some .nwrite →
      (full next ∧ next.readopen = true) ∨ isCopying (next.phase p) = true)
    (emptyWait : ∀ n, next.phase p = .emptyWait n → empty next ∧ next.writeopen = true)
    (fullWait : ∀ todo, next.phase p = .fullWait todo → full next ∧ next.readopen = true) :
    Inv next := by
  have away : ∀ q, q ≠ p → holds (next.phase q) = false := by
    intro q other
    have before := alone inv mine other
    rcases others q other with same | ⟨c, woken⟩
    · rwa [same]
    · rwa [woken, holds_wake]
  constructor
  · intro q yours
    by_cases here : q = p
    · rw [here] at yours ⊢
      exact lock yours
    · rw [away q here] at yours
      cases yours
  · intro q asleep
    by_cases here : q = p
    · exact .inl (reader (here ▸ asleep))
    · exact (readers q here asleep).imp id fun storing => ⟨p, storing⟩
  · intro q asleep
    by_cases here : q = p
    · exact .inl (writer (here ▸ asleep))
    · exact (writers q here asleep).imp id fun copying => ⟨p, copying⟩
  · intro q n waits
    by_cases here : q = p
    · exact emptyWait n (here ▸ waits)
    · have := away q here
      rw [waits] at this
      cases this
  · intro q todo waits
    by_cases here : q = p
    · exact fullWait todo (here ▸ waits)
    · have := away q here
      rw [waits] at this
      cases this

theorem inv_advance (inv : Inv s) (prompt : Prompt s (.advance p))
    (stepped : advance s p = some next) : Inv next := by
  have readers := fun mine q => readers_of (p := p) (q := q) inv mine
  have writers := fun mine q => writers_of (p := p) (q := q) inv mine
  have emptyWait := inv.emptyWait p
  have fullWait := inv.fullWait p
  have held := inv.held p
  simp only [Prompt] at prompt
  simp only [advance] at stepped
  split at stepped
  case h_1 phase =>
    cases stepped
    apply inv_turn (p := p) inv
    case others => exact fun q other => .inr ⟨.nread, by simp [other]⟩
    all_goals simp_all +contextual [holds, isStoring, isCopying]
    exact fun q _ => writers q
  case h_2 b rest phase =>
    split at stepped
    · split at stepped
      · cases stepped
        apply inv_turn (p := p) inv
        case others => exact fun q other => .inl (by simp [other])
        all_goals simp_all +contextual [holds, isStoring, isCopying]
        exact fun q _ => writers q
      · cases stepped
        apply inv_turn (p := p) inv
        case others => exact fun q other => .inr ⟨.nread, by simp [other]⟩
        all_goals simp_all +contextual [holds, isStoring, isCopying]
    · cases stepped
      apply inv_turn (p := p) inv
      case others => exact fun q other => .inl (by simp [other])
      all_goals simp_all +contextual [holds, isStoring, isCopying]
  case h_3 todo phase =>
    cases stepped
    apply inv_turn (p := p) inv
    case others => exact fun q other => .inl (by simp [other])
    all_goals simp_all +contextual [holds, isStoring, isCopying]
    exact fun q _ => readers q
  case h_4 n phase =>
    split at stepped
    · split at stepped <;> cases stepped <;> apply inv_turn (p := p) inv
      case others => exact fun q other => .inl (by simp [other])
      all_goals simp_all +contextual [holds, isStoring, isCopying]
      all_goals exact fun q _ => writers q
    · cases stepped
      apply inv_turn (p := p) inv
      case others => exact fun q other => .inl (by simp [other])
      all_goals simp_all +contextual [holds, isStoring, isCopying]
  case h_5 n phase =>
    cases stepped
    apply inv_turn (p := p) inv
    case others => exact fun q other => .inl (by simp [other])
    all_goals simp_all +contextual [holds, isStoring, isCopying]
    exact fun q _ => writers q
  case h_6 phase =>
    cases stepped
    apply inv_turn (p := p) inv
    case others => exact fun q other => .inr ⟨.nwrite, by simp [other]⟩
    all_goals simp_all +contextual [holds, isStoring, isCopying]
    exact fun q _ => readers q
  case h_7 n phase =>
    split at stepped
    · cases stepped
      apply inv_turn (p := p) inv
      case others => exact fun q other => .inr ⟨.nwrite, by simp [other]⟩
      all_goals simp_all +contextual [holds, isStoring, isCopying]
      exact fun q _ => readers q
    · cases stepped
      apply inv_turn (p := p) inv
      case others => exact fun q other => .inl (by simp [other])
      all_goals simp_all +contextual [holds, isStoring, isCopying]
  case h_8 writable phase =>
    cases stepped
    cases writable
    · apply inv_turn (p := p) inv
      case others => exact fun q other => .inr ⟨.nwrite, by simp [other, close]⟩
      all_goals simp_all +contextual [holds, isStoring, isCopying, close]
      exact fun q _ => readers q
    · apply inv_turn (p := p) inv
      case others => exact fun q other => .inr ⟨.nread, by simp [other, close]⟩
      all_goals simp_all +contextual [holds, isStoring, isCopying, close]
      exact fun q _ => writers q
  case h_9 => cases stepped

/-- A step of a process without the lock, after which it has the lock or does not
sleep. -/
theorem inv_outside (inv : Inv s) (apart : holds (s.phase p) = false)
    (others : ∀ q, q ≠ p → next.phase q = s.phase q) (ring : next.ring = s.ring)
    (readopen : next.readopen = s.readopen) (writeopen : next.writeopen = s.writeopen)
    (lock : ∀ q, q ≠ p → s.lock = some q → next.lock = some q)
    (mine : holds (next.phase p) = true → next.lock = some p)
    (quiet : chanOf (next.phase p) = none) (noEmpty : ∀ n, next.phase p ≠ .emptyWait n)
    (noFull : ∀ todo, next.phase p ≠ .fullWait todo) : Inv next := by
  have sameEmpty : empty next ↔ empty s := by rw [empty, empty, ring]
  have sameFull : full next ↔ full s := by rw [full, full, ring]
  -- whoever has the lock is another process, and it keeps its phase
  have keeps : ∀ r, holds (s.phase r) = true → next.phase r = s.phase r := by
    intro r yours
    apply others
    rintro rfl
    rw [apart] at yours
    cases yours
  constructor
  · intro q yours
    by_cases here : q = p
    · rw [here] at yours ⊢
      exact mine yours
    · rw [others q here] at yours
      exact lock q here (inv.held q yours)
  · intro q asleep
    by_cases here : q = p
    · rw [here, quiet] at asleep
      cases asleep
    · rw [others q here] at asleep
      rw [sameEmpty, writeopen]
      refine (inv.readers q asleep).imp id ?_
      rintro ⟨r, storing⟩
      exact ⟨r, by rwa [keeps r (isStoring_holds storing)]⟩
  · intro q asleep
    by_cases here : q = p
    · rw [here, quiet] at asleep
      cases asleep
    · rw [others q here] at asleep
      rw [sameFull, readopen]
      refine (inv.writers q asleep).imp id ?_
      rintro ⟨r, copying⟩
      exact ⟨r, by rwa [keeps r (isCopying_holds copying)]⟩
  · intro q n waits
    by_cases here : q = p
    · exact absurd (here ▸ waits) (noEmpty n)
    · rw [sameEmpty, writeopen]
      exact inv.emptyWait q n (by rwa [others q here] at waits)
  · intro q todo waits
    by_cases here : q = p
    · exact absurd (here ▸ waits) (noFull todo)
    · rw [sameFull, readopen]
      exact inv.fullWait q todo (by rwa [others q here] at waits)

theorem inv_kill (inv : Inv s) (q : Nat) (stepped : step s (.kill q) = some next) : Inv next := by
  cases stepped
  cases phase : s.phase q
  case readAsleep n =>
    apply inv_outside (p := q) inv <;> simp +contextual [phase, holds, chanOf, wakePhase]
  case writeAsleep todo =>
    apply inv_outside (p := q) inv <;> simp +contextual [phase, holds, chanOf, wakePhase]
  -- nobody else is woken, so all phases stay
  all_goals
    have same : (fun p => if p = q then wakePhase .nread (wakePhase .nwrite (s.phase p))
        else s.phase p) = s.phase := by
      funext p
      split
      · rename_i here
        rw [here, phase]
        rfl
      · rfl
    rw [same]
    exact ⟨inv.held, inv.readers, inv.writers, inv.emptyWait, inv.fullWait⟩

theorem inv_step {act : Act} (inv : Inv s) (prompt : Prompt s act) (stepped : step s act = some next) :
    Inv next := by
  cases act with
  | advance p => exact inv_advance inv prompt stepped
  | kill q => exact inv_kill inv q stepped
  | call p call =>
    simp only [step] at stepped
    split at stepped
    · rename_i idle
      cases stepped
      cases call <;> apply inv_outside (p := p) inv <;>
        simp +contextual [idle, holds, chanOf, enter]
    · cases stepped
  | acquire p =>
    simp only [step] at stepped
    split at stepped
    · rename_i free
      obtain ⟨phase, there, rfl⟩ := Option.map_eq_some_iff.mp stepped
      cases before : s.phase p <;> simp only [before, locked, reduceCtorEq, Option.some.injEq] at there
      all_goals
        subst there
        apply inv_outside (p := p) inv <;> simp +contextual [before, free.1, holds, chanOf]
    · cases stepped

end Turns

/-- In a run in which pipewrite returns early only while nobody sleeps on &p->nread, who
sleeps on a pipe whose lock is free has something to wait for. -/
theorem sleepers_wait (cells : Nat → UInt8) (acts : List Act) (s : System)
    (prompt : Along step Prompt (start cells) acts) (run : exec step (start cells) acts = some s)
    (free : s.lock = none) (q : Nat) :
    (chanOf (s.phase q) = some .nread → empty s ∧ s.writeopen = true) ∧
      (chanOf (s.phase q) = some .nwrite → full s ∧ s.readopen = true) := by
  have inv := exec_invariant Inv (fun s act next held allowed stepped => inv_step held allowed stepped)
    (inv_start cells) prompt run
  have nobody : ∀ p, holds (s.phase p) ≠ true := by
    intro p mine
    rw [inv.held p mine] at free
    cases free
  constructor
  · intro asleep
    refine (inv.readers q asleep).resolve_right ?_
    rintro ⟨p, storing⟩
    exact nobody p (isStoring_holds storing)
  · intro asleep
    refine (inv.writers q asleep).resolve_right ?_
    rintro ⟨p, copying⟩
    exact nobody p (isCopying_holds copying)

/-- A reader that finds the pipe empty. -/
def readerRun : List Act := [.call 0 (.piperead 1), .acquire 0, .advance 0, .advance 0]

theorem reader_waits :
    ∃ s, exec step (start fun _ => 0) readerRun = some s ∧ chanOf (s.phase 0) = some .nread ∧
      empty s ∧ s.writeopen = true := by
  refine ⟨_, rfl, rfl, (sleepers_wait (fun _ => 0) readerRun _ ?_ rfl rfl 0).1 rfl⟩
  refine ⟨trivial, trivial, ?_, ?_, trivial⟩
  · exact fun b rest phase => nomatch (show Phase.testing 1 = .storing (b :: rest) from phase)
  · exact fun b rest phase => nomatch (show Phase.emptyWait 1 = .storing (b :: rest) from phase)

/-- Then a killed writer fills the pipe and leaves at the test for a full pipe. -/
def killedWriterRun : List Act :=
  readerRun ++ [.kill 1, .call 1 (.pipewrite (List.replicate 513 0)), .acquire 1] ++
    List.replicate 513 (.advance 1)

set_option maxRecDepth 100000 in
/-- The reader sleeps on while the pipe is full. -/
theorem killed_writer_loses_wakeup :
    ∃ s, exec step (start fun _ => 0) killedWriterRun = some s ∧
      (s.lock = none ∧ chanOf (s.phase 0) = some .nread ∧ full s ∧ ¬ empty s) :=
  exec_reaches (by decide +kernel)

end Xv6.Pipe
