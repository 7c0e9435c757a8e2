import Mathlib.Algebra.Order.Ring.Int
import Mathlib.Logic.Basic
import Mathlib.Tactic.TypeStar

/-! Runs of a transition system given by a partial step function on labelled
actions. `exec` runs a list of actions, `Along` says that every action of a run is
taken in a state that allows it, and an invariant of the allowed steps holds in
every state that such a run reaches. -/
namespace Xv6.Transition

universe u v
variable {State : Type u} {Label : Type v}

def exec (step : State → Label → Option State) : State → List Label → Option State
  | s, [] => some s
  | s, label :: rest => (step s label).bind fun next => exec step next rest

def Along (step : State → Label → Option State) (allowed : State → Label → Prop) :
    State → List Label → Prop
  | _, [] => True
  | s, label :: rest =>
    allowed s label ∧
      match step s label with
      | some next => Along step allowed next rest
      | none => True

section Rules
variable {step : State → Label → Option State} {allowed : State → Label → Prop}
  {s final : State} {labels : List Label}

theorem exec_cons {label : Label} (run : exec step s (label :: labels) = some final) :
    ∃ next, step s label = some next ∧ exec step next labels = some final :=
  Option.bind_eq_some_iff.mp run

theorem along_tail {label : Label} {next : State} (along : Along step allowed s (label :: labels))
    (stepped : step s label = some next) : Along step allowed next labels := by
  have rest := along.2
  rwa [stepped] at rest

theorem exec_invariant (inv : State → Prop)
    (keeps : ∀ s label next, inv s → allowed s label → step s label = some next → inv next)
    (start : inv s) (along : Along step allowed s labels)
    (run : exec step s labels = some final) : inv final := by
  induction labels generalizing s with
  | nil =>
    cases run
    exact start
  | cons label rest ih =>
    obtain ⟨next, stepped, tail⟩ := exec_cons run
    exact ih (keeps s label next start along.1 stepped) (along_tail along stepped) tail

theorem exec_preserves (inv : State → Prop)
    (keeps : ∀ s label next, inv s → step s label = some next → inv next)
    (start : inv s) (run : exec step s labels = some final) : inv final := by
  induction labels generalizing s with
  | nil =>
    cases run
    exact start
  | cons label rest ih =>
    obtain ⟨next, stepped, tail⟩ := exec_cons run
    exact ih (keeps s label next start stepped) tail

theorem exec_reaches {property : State → Prop} [DecidablePred property]
    (holds : ((exec step s labels).any fun final => decide (property final)) = true) :
    ∃ final, exec step s labels = some final ∧ property final := by
  cases run : exec step s labels with
  | none =>
    rw [run] at holds
    cases holds
  | some final =>
    rw [run] at holds
    exact ⟨final, rfl, of_decide_eq_true holds⟩

end Rules

instance decidableAlong (step : State → Label → Option State) (allowed : State → Label → Prop)
    [decide : ∀ s label, Decidable (allowed s label)] :
    (labels : List Label) → (s : State) → Decidable (Along step allowed s labels)
  | [], _ => .isTrue trivial
  | label :: rest, s =>
    match h : step s label with
    | some next =>
      have := decidableAlong step allowed rest next
      decidable_of_iff (allowed s label ∧ Along step allowed next rest) (by simp [Along, h])
    | none => decidable_of_iff (allowed s label) (by simp [Along, h])

end Xv6.Transition
