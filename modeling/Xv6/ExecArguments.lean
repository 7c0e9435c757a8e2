import Mathlib.Algebra.Order.Group.Nat
import Mathlib.Algebra.Order.BigOperators.Group.List
import Xv6.ExecFailure

/-! The arguments as a new program finds them. A successful exec leaves the strings, the
pointers to them and argc in the one page of the new stack, as long as that page is there. -/
namespace Xv6.ExecArguments
open TraceMonad BitField Vm VmSpec PageTables AddressSpaces ExecPlan Growth Allocation Isolation
open Loading Exec Arguments ExecSafety ExecFrame UserMemory ProgramImage ArgumentStack NullPointer
open ExecCall ExecFailure

/-- A byte of user memory that the program may read. -/
def userByte (m : Memory) (d x : Nat) : Option UInt8 :=
  (userAt m d (x / pgsize)).map fun p => byteAt (m.page p) (x % pgsize)

/-- The bytes stand in user memory from address a on. -/
def Reads (m : Memory) (d a : Nat) (bytes : List UInt8) : Prop :=
  ∀ i byte, bytes[i]? = some byte → userByte m d (a + i) = some byte

/-- The stack of a new program: argc, argv, the array that argv points to and the strings,
which go down from the end of the stack page. -/
structure Layout (final : System) (argv : List (List UInt8)) (addresses : List Nat) : Prop where
  rdi : final.proc.tf .rdi = argv.length
  rsi : final.proc.tf .rsi = final.proc.tf .esp + 24
  length : addresses.length = argv.length
  words : Reads final.mem final.proc.pgdir (final.proc.tf .esp)
    ([0xffffffff, argv.length, final.proc.tf .rsi].flatMap wordBytes)
  array : Reads final.mem final.proc.pgdir (final.proc.tf .rsi)
    ((addresses ++ [0]).flatMap wordBytes)
  strings : ∀ pair ∈ argv.zip addresses,
    Reads final.mem final.proc.pgdir pair.2 (pair.1 ++ [0])
  page : final.proc.sz % pgsize = 0 ∧ final.proc.sz - pgsize ≤ final.proc.tf .esp
  inside : ∀ pair ∈ argv.zip addresses,
    final.proc.tf .rsi + (argv.length + 1) * 8 ≤ pair.2 ∧
      pair.2 + (pair.1.length + 1) ≤ final.proc.sz
  disjoint : (argv.zip addresses).Pairwise fun upper lower =>
    lower.2 + (lower.1.length + 1) ≤ upper.2
  aligned : final.proc.tf .esp % 8 = 0 ∧ ∀ address ∈ addresses, address % 8 = 0
  below : userAt final.mem final.proc.pgdir (final.proc.sz / pgsize - 2) = none

section Strings
variable {img : Nat → UInt8} {argv : List (List UInt8)} {addresses : List Nat}
  {bottom argc sp last x : Nat} {pairs : List (List UInt8 × Nat)} {arg : List UInt8}

end Strings

section Reading
variable {m : Memory} {d n : Nat} {flags : Nat → Nat} {img : Nat → UInt8} {a : Nat}
  {bytes : List UInt8}

end Reading

section Final
variable {s final : System} {role : Nat → Role} {d sz sp : Nat} {plan : Plan} {elf : Elfhdr}
  {path file : List UInt8} {argv : List (List UInt8)} {addresses : List Nat} {loaded next : Memory}

end Final

/-! What a successful exec tells about the state before it. -/

section Success
variable {s t final : System} {role : Nat → Role} {d ip : Nat} {plan : Plan} {fs : Files}
  {path header file : List UInt8} {argv : List (List UInt8)} {events : List Event}

end Success

section Stray
variable {s : System} {role : Nat → Role} {ip p q i j : Nat} {plan : Plan} {fs : Files}
  {path : List UInt8}

end Stray

end Xv6.ExecArguments
