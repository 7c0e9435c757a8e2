import Xv6.UserMemory

/-! The image that exec loads, byte by byte. With enough memory allocuvm adds zeroed pages
at the end of the image, and loaduvm lays the bytes of a segment over it. -/
namespace Xv6.ProgramImage
open TraceMonad BitField Vm VmSpec PageTables AddressSpaces ExecPlan Growth Allocation Loading
open Exec UserMemory

def plain (_ : Nat) : Nat := allFlags

theorem flagged_plain : Flagged plain := by
  intro k
  rw [plain]
  decide

section Growing
variable {m : Memory} {role : Nat → Role} {d newsz count mapped free : Nat} {plan : Plan}
  {img : Nat → UInt8}

theorem dense_pte {n e k : Nat} (dense : Dense m role d n e) (inside : k < n) :
    ∃ p, pteAt m d k = some (entry p allFlags) := by
  obtain ⟨p, is⟩ := dense.mapped k inside
  have ordered := dense.ordered
  have bound := dense.bound
  have isPresent := (dense.tables (k / 512) (by omega)).2 (by omega)
  refine ⟨p, ?_⟩
  rw [pteAt, tableAt, if_pos isPresent, Option.map_some, is]

end Growing

/-! loaduvm -/

section Loading
variable {m next : Memory} {role : Nat → Role} {d n addr offset size count i : Nat}
  {file : List UInt8} {img : Nat → UInt8} {events : List Event}

theorem pteAt_some {k pte : Nat} (is : pteAt m d k = some pte) :
    present (word m d (k / 512)) = true ∧ word m (pteAddr (word m d (k / 512))) (k % 512) = pte := by
  unfold pteAt tableAt at is
  split_ifs at is with isPresent
  · exact ⟨isPresent, Option.some.inj is⟩
  · cases is

end Loading

/-! The program headers. -/

end Xv6.ProgramImage
