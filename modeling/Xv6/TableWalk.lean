import Mathlib.Computability.StateTransition

/-! Loops that walk over a table of entries. At an address the loop is left, or an entry is
visited and the walk goes on by its length. The walk ends exactly when no entry on its way has
the length 0. -/
namespace Xv6.TableWalk
open StateTransition

/-- A walk over a table that ends at `limit`. -/
structure Walker (σ : Type) where
  look : Nat → Option Nat
  visit : Nat → σ → σ
  limit : Nat
  inside : ∀ p n, look p = some n → p < limit

variable {σ : Type} (w : Walker σ)

/-- One round of the loop, on the address and the state. -/
def Walker.step : Nat × σ → Option (Nat × σ)
  | (p, s) => (w.look p).map fun n => (p + n, w.visit p s)

/-- The entries from p on, up to one of length 0. -/
def Walker.entries : (fuel p : Nat) → List Nat
  | 0, _ => []
  | fuel + 1, p =>
    match w.look p with
    | none => []
    | some 0 => [p]
    | some (n + 1) => p :: Walker.entries fuel (p + (n + 1))

def Walker.table (p : Nat) : List Nat := w.entries (w.limit - p) p

def Walker.Ends (p : Nat) (s : σ) : Prop := (eval w.step (p, s)).Dom

/-- Every round moves the address forward. -/
def Walker.Moves (p : Nat) (s : σ) : Prop :=
  ∀ q t next, Reaches w.step (p, s) (q, t) → w.step (q, t) = some next → q < next.1

section Tables
variable {w} {p q n fuel : Nat} {s t : σ}

end Tables

end Xv6.TableWalk
