import Mathlib.Data.List.Basic

/-! Stateful programs that may halt and that leave a trace. An action runs from
a state, ends in a value or in a halt, and reports the events it emitted in
order. A halted action keeps the state in which it stopped. `Ensures` is the
program logic of the development: events the environment promises (`rely`) are
assumed, events the program promises (`guar`) and the reasons for which it may
halt (`halts`) are obligations. -/
namespace Xv6.TraceMonad

inductive Outcome (σ ε α : Type) where
  | done (value : α) (state : σ)
  | halt (reason : ε) (state : σ)

def Outcome.state {σ ε α : Type} : Outcome σ ε α → σ
  | .done _ state => state
  | .halt _ state => state

/-- If the run ended well, its last state has the property. -/
def Outcome.Leads {σ ε α : Type} (next : σ → Prop) : Outcome σ ε α → Prop
  | .done _ state => next state
  | .halt _ _ => True

/-- Whether a run ended well in a state that passes a test. -/
def Outcome.passes {σ ε α : Type} (test : σ → Bool) : Outcome σ ε α → Bool
  | .done _ state => test state
  | .halt _ _ => false

def Outcome.stopsFor {σ ε α : Type} [DecidableEq ε] (reason : ε) : Outcome σ ε α → Bool
  | .done _ _ => false
  | .halt stopped _ => decide (stopped = reason)

/-- Whether a run ended well with this result. -/
def Outcome.returns {σ ε α : Type} [DecidableEq α] (value : α) : Outcome σ ε α → Bool
  | .done result _ => decide (result = value)
  | .halt _ _ => false

section Outcomes
variable {σ ε α : Type} {outcome : Outcome σ ε α}

theorem Outcome.leads_done {next : σ → Prop} {value : α} {after : σ} (leads : outcome.Leads next)
    (done : outcome = .done value after) : next after := by
  rwa [done] at leads

theorem Outcome.leads_of_forall {next : σ → Prop} (all : ∀ state, next state) :
    outcome.Leads next := by
  cases outcome with
  | done value state => exact all state
  | halt reason state => trivial

instance {next : σ → Prop} [DecidablePred next] : Decidable (outcome.Leads next) :=
  match outcome with
  | .done _ state => inferInstanceAs (Decidable (next state))
  | .halt _ _ => isTrue trivial

theorem Outcome.passes_iff {test : σ → Bool} :
    outcome.passes test = true ↔ ∃ value after, outcome = .done value after ∧ test after = true := by
  cases outcome <;> simp [Outcome.passes]

theorem Outcome.returns_iff [DecidableEq α] {value : α} :
    outcome.returns value = true ↔ ∃ after, outcome = .done value after := by
  cases outcome <;> simp [Outcome.returns]

theorem returned {ω : Type} [DecidableEq α] {value : α} {run : Outcome σ ε α × List ω}
    (returns : run.1.returns value = true) : ∃ after, run = (.done value after, run.2) := by
  obtain ⟨after, is⟩ := Outcome.returns_iff.1 returns
  exact ⟨after, Prod.ext is rfl⟩

theorem Outcome.stopsFor_iff [DecidableEq ε] {reason : ε} :
    outcome.stopsFor reason = true ↔ ∃ stopped, outcome = .halt reason stopped := by
  cases outcome <;> simp [Outcome.stopsFor]

end Outcomes

def Action (σ ω ε α : Type) := σ → Outcome σ ε α × List ω

section Actions
variable {σ τ ω ε α β : Type}

def Action.pure (value : α) : Action σ ω ε α := fun state => (.done value state, [])

def Action.bind (first : Action σ ω ε α) (next : α → Action σ ω ε β) : Action σ ω ε β :=
  fun state =>
    match first state with
    | (.halt reason stopped, events) => (.halt reason stopped, events)
    | (.done value middle, events) =>
      match next value middle with
      | (outcome, later) => (outcome, events ++ later)

instance : Monad (Action σ ω ε) where
  pure := Action.pure
  bind := Action.bind

def inspect (f : σ → α) : Action σ ω ε α := fun state => (.done (f state) state, [])

def change (f : σ → σ) : Action σ ω ε Unit := fun state => (.done () (f state), [])

def halt (reason : ε) : Action σ ω ε α := fun state => (.halt reason state, [])

def emit (event : ω) : Action σ ω ε Unit := fun state => (.done () state, [event])

/-- A statement guarded by a condition. -/
def whenever (condition : Prop) [Decidable condition] (action : Action σ ω ε Unit) :
    Action σ ω ε Unit :=
  if condition then action else pure ()

/-- Run an action on one component of a larger state. -/
def within (get : τ → σ) (set : τ → σ → τ) (action : Action σ ω ε α) : Action τ ω ε α :=
  fun state =>
    match action (get state) with
    | (.halt reason part, events) => (.halt reason (set state part), events)
    | (.done value part, events) => (.done value (set state part), events)

theorem pure_run (value : α) (state : σ) :
    (Pure.pure value : Action σ ω ε α) state = (.done value state, []) := rfl

theorem whenever_true {condition : Prop} [Decidable condition] {action : Action σ ω ε Unit}
    (holds : condition) : whenever condition action = action := if_pos holds

theorem whenever_false {condition : Prop} [Decidable condition] {action : Action σ ω ε Unit}
    (fails : ¬ condition) (state : σ) : whenever condition action state = (.done () state, []) := by
  rw [whenever, if_neg fails]
  rfl

theorem bind_run (first : Action σ ω ε α) (next : α → Action σ ω ε β) (state : σ) :
    (first >>= next) state =
      match first state with
      | (.halt reason stopped, events) => (.halt reason stopped, events)
      | (.done value middle, events) =>
        match next value middle with
        | (outcome, later) => (outcome, events ++ later) := rfl

theorem bind_done {first : Action σ ω ε α} {next : α → Action σ ω ε β} {state middle : σ}
    {value : α} {events : List ω} (run : first state = (.done value middle, events)) :
    (first >>= next) state = ((next value middle).1, events ++ (next value middle).2) := by
  change Action.bind first next state = _
  simp [Action.bind, run]

theorem bind_quiet {first : Action σ ω ε α} {next : α → Action σ ω ε β} {state middle : σ}
    {value : α} (run : first state = (.done value middle, [])) :
    (first >>= next) state = next value middle := by
  rw [bind_done run]
  rfl

theorem bind_inspect (f : σ → α) (next : α → Action σ ω ε β) (state : σ) :
    (inspect f >>= next) state = next (f state) state := bind_quiet rfl

theorem bind_halt {first : Action σ ω ε α} {next : α → Action σ ω ε β} {state stopped : σ}
    {reason : ε} {events : List ω} (run : first state = (.halt reason stopped, events)) :
    (first >>= next) state = (.halt reason stopped, events) := by
  change Action.bind first next state = _
  simp [Action.bind, run]

theorem bind_assoc_action {γ : Type} (action : Action σ ω ε α) (next : α → Action σ ω ε β)
    (later : β → Action σ ω ε γ) :
    (action >>= next) >>= later = action >>= fun value => next value >>= later := by
  funext state
  change Action.bind (Action.bind action next) later state =
    Action.bind action (fun value => Action.bind (next value) later) state
  unfold Action.bind
  rcases action state with ⟨outcome, events⟩
  cases outcome with
  | halt reason stopped => rfl
  | done value middle =>
    dsimp only
    rcases next value middle with ⟨outcome, more⟩
    cases outcome <;> simp

theorem bind_done_done {first : Action σ ω ε α} {next : α → Action σ ω ε β}
    {state middle after : σ} {value : α} {result : β} {events later : List ω}
    (run : first state = (.done value middle, events))
    (run' : next value middle = (.done result after, later)) :
    (first >>= next) state = (.done result after, events ++ later) := by
  rw [bind_done run, run']

theorem bind_inv {first : Action σ ω ε α} {next : α → Action σ ω ε β} {state after : σ}
    {result : β} {events : List ω}
    (run : (first >>= next) state = (.done result after, events)) :
    ∃ value middle early later, first state = (.done value middle, early) ∧
      next value middle = (.done result after, later) ∧ events = early ++ later := by
  change Action.bind first next state = _ at run
  unfold Action.bind at run
  rcases split : first state with ⟨outcome, early⟩
  rw [split] at run
  cases outcome with
  | halt reason stopped => simp at run
  | done value middle =>
    rcases tail : next value middle with ⟨rest, later⟩
    simp only [tail, Prod.mk.injEq] at run
    refine ⟨value, middle, early, later, rfl, ?_, run.2.symm⟩
    rw [tail, run.1]

end Actions

/-! The same program with other reports. -/

section Erasure
variable {σ ω ω' ε α β : Type}

/-- The two actions have the same outcomes. -/
def Erases (probed : Action σ ω ε α) (plain : Action σ ω' ε α) : Prop :=
  ∀ state, (probed state).1 = (plain state).1

theorem fst_bind (first : Action σ ω ε α) (next : α → Action σ ω ε β) (state : σ) :
    ((first >>= next) state).1 =
      match (first state).1 with
      | .done value middle => (next value middle).1
      | .halt reason stopped => .halt reason stopped := by
  rw [bind_run]
  rcases first state with ⟨outcome | outcome, events⟩ <;> rfl

theorem erases_bind {first : Action σ ω ε α} {first' : Action σ ω' ε α}
    {next : α → Action σ ω ε β} {next' : α → Action σ ω' ε β} (now : Erases first first')
    (later : ∀ value, Erases (next value) (next' value)) :
    Erases (first >>= next) (first' >>= next') := by
  intro state
  rw [fst_bind, fst_bind, now state]
  rcases (first' state).1 with ⟨value, middle⟩ | ⟨reason, stopped⟩
  · exact later value middle
  · rfl

theorem erases_emit {event : ω} {probed : Action σ ω ε α} {plain : Action σ ω' ε α}
    (erases : Erases probed plain) : Erases (emit event >>= fun _ => probed) plain := by
  intro state
  rw [fst_bind]
  exact erases state

theorem erases_ite {condition : Prop} [Decidable condition] {probed probed' : Action σ ω ε α}
    {plain plain' : Action σ ω' ε α} (yes : Erases probed plain) (no : Erases probed' plain') :
    Erases (if condition then probed else probed') (if condition then plain else plain') := by
  split
  · exact yes
  · exact no

theorem erases_whenever {condition : Prop} [Decidable condition] {probed : Action σ ω ε Unit}
    {plain : Action σ ω' ε Unit} (erases : Erases probed plain) :
    Erases (whenever condition probed) (whenever condition plain) :=
  erases_ite erases fun _ => rfl

/-- An action without its reports. -/
def silent (plain : Action σ ω' ε α) : Action σ ω ε α := fun state => ((plain state).1, [])

theorem erases_silent (plain : Action σ ω' ε α) :
    Erases (silent plain : Action σ ω ε α) plain := fun _ => rfl

end Erasure

structure Contract (ω ε : Type) where
  rely : ω → Prop
  guar : ω → Prop
  halts : ε → Prop

section Logic
variable {σ τ ω ε α β : Type} {contract : Contract ω ε}

def Ensures (contract : Contract ω ε) (action : Action σ ω ε α) (state : σ)
    (post : α → σ → Prop) : Prop :=
  (∀ event ∈ (action state).2, contract.rely event) →
    (∀ event ∈ (action state).2, contract.guar event) ∧
      match (action state).1 with
      | .done value after => post value after
      | .halt reason _ => contract.halts reason

theorem ensures_outcome {action : Action σ ω ε α} {state : σ} {post : α → σ → Prop}
    (holds : Ensures contract action state post)
    (relied : ∀ event ∈ (action state).2, contract.rely event) :
    (∀ event ∈ (action state).2, contract.guar event) ∧
      (∀ value after, (action state).1 = .done value after → post value after) ∧
      ∀ reason stopped, (action state).1 = .halt reason stopped → contract.halts reason := by
  obtain ⟨promised, ends⟩ := holds relied
  refine ⟨promised, fun value after done => ?_, fun reason stopped halted => ?_⟩
  · rwa [done] at ends
  · rwa [halted] at ends

theorem ensures_pure {value : α} {state : σ} {post : α → σ → Prop}
    (holds : post value state) :
    Ensures contract (Pure.pure value : Action σ ω ε α) state post := by
  intro _
  exact ⟨fun _ member => (List.not_mem_nil member).elim, holds⟩

theorem ensures_inspect {f : σ → α} {state : σ} {post : α → σ → Prop}
    (holds : post (f state) state) :
    Ensures contract (inspect f : Action σ ω ε α) state post := by
  intro _
  exact ⟨fun _ member => (List.not_mem_nil member).elim, holds⟩

theorem ensures_change {f : σ → σ} {state : σ} {post : Unit → σ → Prop}
    (holds : post () (f state)) :
    Ensures contract (change f : Action σ ω ε Unit) state post := by
  intro _
  exact ⟨fun _ member => (List.not_mem_nil member).elim, holds⟩

theorem ensures_halt {reason : ε} {state : σ} {post : α → σ → Prop}
    (allowed : contract.halts reason) :
    Ensures contract (halt reason : Action σ ω ε α) state post := by
  intro _
  exact ⟨fun _ member => (List.not_mem_nil member).elim, allowed⟩

theorem ensures_emit {event : ω} {state : σ} {post : Unit → σ → Prop}
    (promised : contract.rely event → contract.guar event)
    (holds : contract.rely event → post () state) :
    Ensures contract (emit event : Action σ ω ε Unit) state post := by
  intro relied
  have now := relied event (by simp [emit])
  refine ⟨?_, holds now⟩
  intro other member
  simp only [emit, List.mem_singleton] at member
  subst member
  exact promised now

theorem ensures_whenever {condition : Prop} [Decidable condition] {action : Action σ ω ε Unit}
    {state : σ} {post : Unit → σ → Prop}
    (taken : condition → Ensures contract action state post)
    (skipped : ¬ condition → post () state) :
    Ensures contract (whenever condition action) state post := by
  by_cases holds : condition
  · rw [whenever_true holds]
    exact taken holds
  · rw [whenever, if_neg holds]
    exact ensures_pure (skipped holds)

theorem ensures_bind {first : Action σ ω ε α} {next : α → Action σ ω ε β} {state : σ}
    {post : β → σ → Prop}
    (holds : Ensures contract first state
      (fun value middle => Ensures contract (next value) middle post)) :
    Ensures contract (first >>= next) state post := by
  change Ensures contract (Action.bind first next) state post
  unfold Ensures Action.bind at *
  -- The halting branch of `first` is the halting branch of the whole.
  rcases split : first state with ⟨outcome, events⟩
  rw [split] at holds
  cases outcome with
  | halt reason stopped => exact holds
  | done value middle =>
    rcases tail : next value middle with ⟨rest, later⟩
    simp only [tail] at holds ⊢
    intro relied
    obtain ⟨promised, continues⟩ :=
      holds (fun event member => relied event (List.mem_append_left later member))
    obtain ⟨promisedLater, ends⟩ :=
      continues (fun event member => relied event (List.mem_append_right events member))
    refine ⟨?_, ends⟩
    intro event member
    rcases List.mem_append.mp member with old | new
    · exact promised event old
    · exact promisedLater event new

theorem ensures_within {get : τ → σ} {set : τ → σ → τ} {action : Action σ ω ε α} {state : τ}
    {post : α → τ → Prop}
    (holds : Ensures contract action (get state)
      (fun value part => post value (set state part))) :
    Ensures contract (within get set action) state post := by
  unfold Ensures within at *
  rcases split : action (get state) with ⟨outcome, events⟩
  rw [split] at holds
  cases outcome <;> exact holds

theorem ensures_weaken {action : Action σ ω ε α} {state : σ} {weak strong : α → σ → Prop}
    (holds : Ensures contract action state strong)
    (implies : ∀ value after, strong value after → weak value after) :
    Ensures contract action state weak := by
  intro relied
  obtain ⟨promised, ends⟩ := holds relied
  refine ⟨promised, ?_⟩
  cases outcome : (action state).1 with
  | halt reason stopped => simpa [outcome] using ends
  | done value after =>
    simp only [outcome] at ends ⊢
    exact implies value after ends

theorem ensures_ran {action : Action σ ω ε α} {state : σ} {post : α → σ → Prop}
    (holds : Ensures contract action state post) :
    Ensures contract action state (fun value after =>
      post value after ∧ (action state).1 = .done value after) := by
  intro relied
  obtain ⟨promised, ends⟩ := holds relied
  refine ⟨promised, ?_⟩
  cases outcome : (action state).1 with
  | halt reason stopped => simpa [outcome] using ends
  | done value after =>
    simp only [outcome] at ends ⊢
    exact ⟨ends, trivial⟩

theorem ensures_of_done {action : Action σ ω ε α} {state after : σ} {value : α}
    {events : List ω} {post : α → σ → Prop} (run : action state = (.done value after, events))
    (promised : ∀ event ∈ events, contract.rely event → contract.guar event)
    (holds : post value after) : Ensures contract action state post := by
  unfold Ensures
  rw [run]
  exact fun relied => ⟨fun event member => promised event member (relied event member), holds⟩

theorem ensures_of_halt {action : Action σ ω ε α} {state stopped : σ} {reason : ε}
    {events : List ω} {post : α → σ → Prop} (run : action state = (.halt reason stopped, events))
    (promised : ∀ event ∈ events, contract.rely event → contract.guar event)
    (allowed : contract.halts reason) : Ensures contract action state post := by
  unfold Ensures
  rw [run]
  exact fun relied => ⟨fun event member => promised event member (relied event member), allowed⟩

theorem ensures_of_eq {action action' : Action σ ω ε α} {state state' : σ} {post : α → σ → Prop}
    (same : action state = action' state') (holds : Ensures contract action' state' post) :
    Ensures contract action state post := by
  unfold Ensures at *
  rwa [same]

/-- Sequencing through a postcondition of the first action: the form in which
every specification lemma is used. -/
theorem ensures_then {first : Action σ ω ε α} {next : α → Action σ ω ε β} {state : σ}
    {between : α → σ → Prop} {post : β → σ → Prop}
    (holds : Ensures contract first state between)
    (continues : ∀ value middle, between value middle →
      Ensures contract (next value) middle post) :
    Ensures contract (first >>= next) state post :=
  ensures_bind (ensures_weaken holds continues)

theorem ensures_inspect_then {f : σ → α} {next : α → Action σ ω ε β} {state : σ}
    {post : β → σ → Prop} (holds : Ensures contract (next (f state)) state post) :
    Ensures contract (inspect f >>= next) state post :=
  ensures_bind (ensures_inspect holds)

theorem ensures_change_then {f : σ → σ} {next : Unit → Action σ ω ε β} {state : σ}
    {post : β → σ → Prop} (holds : Ensures contract (next ()) (f state) post) :
    Ensures contract (change f >>= next) state post :=
  ensures_bind (ensures_change holds)

theorem ensures_emit_then {event : ω} {next : Unit → Action σ ω ε β} {state : σ}
    {post : β → σ → Prop} (promised : contract.rely event → contract.guar event)
    (continues : contract.rely event → Ensures contract (next ()) state post) :
    Ensures contract (emit event >>= next) state post :=
  ensures_bind (ensures_emit promised continues)

theorem ensures_quiet_then {first : Action σ ω ε α} {next : α → Action σ ω ε β} {state middle : σ}
    {value : α} {post : β → σ → Prop} (run : first state = (.done value middle, []))
    (holds : Ensures contract (next value) middle post) :
    Ensures contract (first >>= next) state post :=
  ensures_bind (ensures_of_done run (fun _ member => (List.not_mem_nil member).elim) holds)

theorem ensures_both_then {γ : Type} {first : Action σ ω ε α} {second : α → Action σ ω ε β}
    {next : β → Action σ ω ε γ} {state : σ} {between : β → σ → Prop} {post : γ → σ → Prop}
    (holds : Ensures contract (first >>= second) state between)
    (continues : ∀ value middle, between value middle → Ensures contract (next value) middle post) :
    Ensures contract (first >>= fun value => second value >>= next) state post := by
  rw [← bind_assoc_action]
  exact ensures_then holds continues

theorem ensures_within_then {get : τ → σ} {set : τ → σ → τ} {first : Action σ ω ε α}
    {next : α → Action τ ω ε β} {state : τ} {between : α → σ → Prop} {post : β → τ → Prop}
    (holds : Ensures contract first (get state) between)
    (continues : ∀ value part, between value part →
      Ensures contract (next value) (set state part) post) :
    Ensures contract (within get set first >>= next) state post :=
  ensures_bind (ensures_within (ensures_weaken holds continues))

theorem ensures_within_quiet_then {get : τ → σ} {set : τ → σ → τ} {first : Action σ ω ε α}
    {next : α → Action τ ω ε β} {state : τ} {part : σ} {value : α} {post : β → τ → Prop}
    (run : first (get state) = (.done value part, []))
    (holds : Ensures contract (next value) (set state part) post) :
    Ensures contract (within get set first >>= next) state post :=
  ensures_bind (ensures_within
    (ensures_of_done run (fun _ member => (List.not_mem_nil member).elim) holds))

end Logic

end Xv6.TraceMonad
