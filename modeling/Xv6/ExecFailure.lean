import Xv6.ExecCall

/-! A failing exec. All of its exits give back what they took, but rdi and rsi are set before
the last copy onto the new stack, which can still fail. -/
namespace Xv6.ExecFailure
open TraceMonad BitField Vm VmSpec PageTables AddressSpaces ExecPlan Loading Exec Arguments
open ExecSafety UserMemory ArgumentStack NullPointer ExecCall

/-- When exec returns -1 the process, its user memory and all inodes are as before. -/
def Restores (fs : Files) (path : List UInt8) (argv : List (List UInt8)) (s : System) : Prop :=
  ∀ final events, ExecCall.exec fs path argv s = (.done (-1) final, events) →
    final.proc = s.proc ∧ Kept s.mem final.mem s.proc.pgdir ∧ final.inode = s.inode

/-- The arguments do not lead uva2ka to a null pointer, or it does not lead to a user page,
or the strings reach so little below address 0 that a back-pointer stops them. -/
def Contained (fs : Files) (path : List UInt8) (argv : List (List UInt8)) (s : System) : Prop :=
  ∀ ip, fs.namei s.proc.cwd path = some ip →
    ∀ plan, imagePlan (fs.content ip) s.mem.freelist.length = some plan →
      StackFits plan (argv.take maxarg) ∨ Blocked s.mem ∨ Modest plan argv

section Failure
variable {s : System} {role : Nat → Role} {fs : Files} {path : List UInt8}
  {argv : List (List UInt8)}

theorem exec_cases (ready : Ready fs path s role)
    (short : ∀ arg ∈ argv, arg.length + 1 ≤ physPages * pgsize)
    (contained : Contained fs path argv s) :
    (∃ mem events, ExecCall.exec fs path argv s =
        (.done (-1) ⟨mem, s.proc.stored (spill fs path argv s), s.inode⟩, events) ∧
      Unchanged s.mem mem) ∨
    spill fs path argv s = none ∧
      (Halts (ExecCall.exec fs path argv s) ∨
        ∃ ip final events elf plan role' d sz sp addresses loaded next,
          fs.namei s.proc.cwd path = some ip ∧
          ExecCall.exec fs path argv s = (.done 0 final, events) ∧
          Replaced path (fs.content ip) argv s final elf plan role' d sz sp addresses loaded
            next) := by
  rw [spill]
  cases found : fs.namei s.proc.cwd path with
  | none => exact .inl ⟨s.mem, [], exec_missing found, unchanged_refl s.mem⟩
  | some ip =>
    obtain ⟨idle, counted⟩ := ready.idle ip found
    rw [exec_opened found idle counted, Option.bind_some]
    rcases load_cases ready found short (contained ip found) with
      failed | ⟨none_, halts | ⟨final, events, elf, plan, role', d, sz, sp, addresses, loaded, next,
        run, replaced⟩⟩
    · exact .inl failed
    · exact .inr ⟨none_, .inl halts⟩
    · exact .inr ⟨none_, .inr ⟨ip, final, events, elf, plan, role', d, sz, sp, addresses, loaded,
        next, rfl, run, replaced⟩⟩

theorem spilled_registers (ready : Ready fs path s role)
    (short : ∀ arg ∈ argv, arg.length + 1 ≤ physPages * pgsize)
    (contained : Contained fs path argv s) (restores : Restores fs path argv s) :
    ∀ pair, spill fs path argv s = some pair →
      s.proc.tf .rdi = pair.1 ∧ s.proc.tf .rsi = pair.2 := by
  intro pair isSpill
  rcases exec_cases ready short contained with ⟨mem, events, run, -⟩ | ⟨none_, -⟩
  · obtain ⟨same, -, -⟩ := restores _ _ run
    rw [isSpill] at same
    have registers : (s.proc.stored (some pair)).tf = s.proc.tf := congrArg Proc.tf same
    rw [← registers]
    simp [Proc.stored, Proc.withRegister]
  · rw [none_] at isSpill
    cases isSpill

theorem stored_same {proc : Proc} {pair : Option (Nat × Nat)}
    (same : ∀ values, pair = some values → proc.tf .rdi = values.1 ∧ proc.tf .rsi = values.2) :
    proc.stored pair = proc := by
  cases pair with
  | none => rfl
  | some values =>
    obtain ⟨rdi, rsi⟩ := same values rfl
    simp [Proc.stored, Proc.withRegister, ← rdi, ← rsi]

/-- A failing exec restores the process exactly when it does not give up after it set rdi
and rsi, or when they had these values. -/
theorem exec_restores_iff (ready : Ready fs path s role)
    (short : ∀ arg ∈ argv, arg.length + 1 ≤ physPages * pgsize)
    (contained : Contained fs path argv s) :
    Restores fs path argv s ↔ ∀ pair, spill fs path argv s = some pair →
      s.proc.tf .rdi = pair.1 ∧ s.proc.tf .rsi = pair.2 := by
  refine ⟨spilled_registers ready short contained, fun same final events run => ?_⟩
  rcases exec_cases ready short contained with ⟨mem, events', run', kept, -⟩ |
    ⟨-, ⟨reason, stopped, ran⟩ | ⟨ip, final', events', -, -, -, -, -, -, -, -, -, -, run', -⟩⟩
  · rw [run'] at run
    cases run
    exact ⟨stored_same same, by rw [ready.current]; exact kept, rfl⟩
  · rw [run] at ran
    cases ran
  · rw [run'] at run
    cases run

end Failure

/-! A process of two pages. -/

/-- The process in the address space 102, with all registers 0. -/
def smallProc : Proc := ⟨8192, 102, fun _ => 0, fun _ => none, 1, []⟩

def small (spaces : Spaces) : System := ⟨inUse spaces, smallProc, fun _ => ⟨0, false⟩⟩

/-- One executable file without segments. -/
def oneFile : Files := ⟨fun _ _ => some 2, fun _ => elfBytes 0⟩

theorem ready_small {spaces : Spaces} {role : Nat → Role} (caller : Caller (inUse spaces) role)
    (enough : 3 ≤ spaces.mem.freelist.length) : Ready oneFile [97] (small spaces) role :=
  ⟨caller, rfl, enough, fun _ _ => ⟨rfl, Int.le_refl 0⟩⟩

/-- The strings go into the stack page, the words do not fit below them. -/
def longArgument : List (List UInt8) := [List.replicate 4080 97]

theorem plan_empty : imagePlan (elfBytes 0) 10 = some ⟨0, 0, 7⟩ := by rfl

theorem fits_one {arg : List UInt8} (fits : arg.length < 8192) :
    StackFits ⟨0, 0, 7⟩ (List.take maxarg [arg]) := by
  refine ⟨fits, .inr ⟨rfl, rfl⟩⟩

theorem spilled_long : spilled ⟨0, 0, 7⟩ longArgument = some (1, 4088) := by
  decide +kernel

theorem contained_one {spaces : Spaces} {arg : List UInt8} (fits : arg.length < 8192)
    (free : spaces.mem.freelist.length = 10) : Contained oneFile [97] [arg] (small spaces) := by
  intro ip _ plan isPlan
  have plan_ : imagePlan (elfBytes 0) 10 = some plan := by
    rw [← isPlan, show (small spaces).mem.freelist.length = 10 from free]
    rfl
  rw [plan_empty, Option.some.injEq] at plan_
  subst plan_
  exact .inl (fits_one fits)

theorem short_one {arg : List UInt8} (fits : arg.length < 8192) :
    ∀ other ∈ [arg], other.length + 1 ≤ physPages * pgsize := by
  intro other member
  rw [List.mem_singleton.1 member]
  simp only [physPages, pgsize]
  omega

theorem exec_restores_short : ∃ final role,
    Transition.exec step sixteenPages twoPages = some final ∧
      Ready oneFile [97] (small final) role ∧ Contained oneFile [97] [[97]] (small final) ∧
      (Restores oneFile [97] [[97]] (small final) ↔
        ∀ pair, spill oneFile [97] [[97]] (small final) = some pair →
          (small final).proc.tf .rdi = pair.1 ∧ (small final).proc.tf .rsi = pair.2) := by
  obtain ⟨final, role, run, caller, free⟩ := reach_caller
    (P := fun final => final.mem.freelist.length = 10) (by decide +kernel)
  have ready := ready_small caller (by rw [free]; decide)
  have contained : Contained oneFile [97] [[97]] (small final) := contained_one (by decide) free
  exact ⟨final, role, run, ready, contained,
    exec_restores_iff ready (short_one (by decide)) contained⟩

/-- A string of 4080 bytes leaves no room for argc, argv and the pointers: exec fails with
rdi and rsi changed. -/
theorem exec_long_argument_spills : ∃ final role,
    Transition.exec step sixteenPages twoPages = some final ∧
      Ready oneFile [97] (small final) role ∧
      ¬ Restores oneFile [97] longArgument (small final) := by
  obtain ⟨final, role, run, caller, free⟩ := reach_caller
    (P := fun final => final.mem.freelist.length = 10) (by decide +kernel)
  have ready := ready_small caller (by rw [free]; decide)
  have length : (List.replicate 4080 (97 : UInt8)).length < 8192 := by
    rw [List.length_replicate]
    decide
  refine ⟨final, role, run, ready, fun restores => ?_⟩
  have isSpill : spill oneFile [97] longArgument (small final) = some (1, 4088) := by
    have free' : (small final).mem.freelist.length = 10 := free
    simp only [spill, oneFile, Option.bind_some, free', plan_empty, spilled_long]
  have same := spilled_registers ready (short_one length) (contained_one length free) restores _
    isSpill
  exact Nat.zero_ne_one same.1

end Xv6.ExecFailure
