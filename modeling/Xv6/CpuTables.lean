import Mathlib.Algebra.Order.Ring.Int
import Mathlib.Logic.Function.Basic
import Xv6.TableWalk

/-! The processors that the firmware describes: acpi.c walks over the MADT, and mp.c over the MP
configuration table when there is no MADT with a processor in it. Addresses are physical. -/
namespace Xv6.CpuTables
open TableWalk StateTransition

/-- The bytes of the physical memory. -/
abbrev Memory := Nat → UInt8

def byte (mem : Memory) (a : Nat) : Nat := (mem a).toNat

/-- The sum of the bytes, as a uchar. -/
def sum (mem : Memory) (a len : Nat) : Nat :=
  ((List.range len).map fun i => byte mem (a + i)).sum % 256

structure Cpu where
  id : Nat
  apicid : Nat
deriving DecidableEq

/-- The calls of cprintf, and the ports of the IMCR. -/
inductive Message where
  | acpiCpu (ncpu apicid : Nat)
  | acpiIoapic (nioapic addr id base : Nat)
  | multipleIoapics
  | mpCpu (ncpu apicid : Nat)
  | unknownType (type : Nat)
  | notMapped
  | imcr
deriving DecidableEq

/-- The globals of the discovery. `writes` are the indices of the writes to cpus[]. -/
structure Machine where
  cpus : Nat → Cpu
  ncpu : Nat
  ismp : Bool
  ioapicid : Nat
  lapic : Nat
  bcpu : Nat
  writes : List Nat
  printed : List Message

def boot : Machine := ⟨fun _ => ⟨0, 0⟩, 0, false, 0, 0, 0, [], []⟩

def mpproc : Nat := 0
section Ends
variable {σ : Type} {w : Walker σ} {mem : Memory} {madt conf p q n : Nat}

end Ends

/-- A memory with these bytes at these addresses, and zeros. -/
def place (parts : List (Nat × List UInt8)) : Memory := fun a =>
  match parts.find? fun part => part.1 ≤ a ∧ a < part.1 + part.2.length with
  | some part => part.2.getD (a - part.1) 0
  | none => 0

end Xv6.CpuTables
