import Xv6.CpuTables

/-! The entries of cpus[] that the discovery writes: one for each processor entry of the table,
and nothing stops it at NCPU. -/
namespace Xv6.Processors
open TableWalk StateTransition CpuTables

section Counting
variable {σ : Type} {w : Walker σ} {machine : σ → Machine} {isCpu : Nat → Bool} {p q : Nat} {s t : σ}

end Counting

/-! The two tables. -/

/-- A processor entry of the MP table. -/
def mpCpu (mem : Memory) (p : Nat) : Bool := byte mem p = mpproc

section Discovery
variable {mem : Memory} {m : Machine} {result : Int} {madt : Nat}

end Discovery

end Xv6.Processors
