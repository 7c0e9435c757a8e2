import Xv6.Arguments

/-! exec on an arbitrary file with arbitrary arguments. From any memory of a process
that calls exec, the loading part is safe exactly for the files whose image fits, and
the argument part exactly for the arguments that fit above the image. -/
namespace Xv6.ExecSafety
open TraceMonad BitField Vm VmSpec PageTables AddressSpaces Exec ExecPlan Growth Loading Arguments

/-! No part of exec but loaduvm reports a load. -/

def noLoads : Contract Event Panic :=
  ⟨fun _ => True, fun event => ∀ mapped, event ≠ .load mapped, fun _ => True⟩

def Quiet {α : Type} (action : VmM α) : Prop := ∀ m, Ensures noLoads action m fun _ _ => True

section Quiet
variable {α β : Type}

theorem quiet_pure (value : α) : Quiet (pure value) := fun _ => ensures_pure trivial

theorem quiet_halt (reason : Panic) : Quiet (halt reason : VmM α) := fun _ => ensures_halt trivial

theorem quiet_inspect (f : Memory → α) : Quiet (inspect f) := fun _ => ensures_inspect trivial

theorem quiet_change (f : Memory → Memory) : Quiet (change f) := fun _ => ensures_change trivial

theorem quiet_emit {event : Event} (other : ∀ mapped, event ≠ .load mapped) : Quiet (emit event) :=
  fun _ => ensures_emit (fun _ => other) fun _ => trivial

theorem quiet_bind {first : VmM α} {next : α → VmM β} (one : Quiet first)
    (two : ∀ value, Quiet (next value)) : Quiet (first >>= next) :=
  fun m => ensures_then (one m) fun value middle _ => two value middle

theorem quiet_whenever {condition : Prop} [Decidable condition] {action : VmM Unit}
    (quiet : Quiet action) : Quiet (whenever condition action) :=
  fun m => ensures_whenever (fun _ => quiet m) fun _ => trivial

theorem quiet_ite {condition : Prop} [Decidable condition] {one two : VmM α} (first : Quiet one)
    (second : Quiet two) : Quiet (if condition then one else two) := by
  split
  · exact first
  · exact second

theorem quiet_load {access : Access} {page i : Nat} : Quiet (load access page i) :=
  quiet_ite (quiet_halt _) (quiet_inspect _)

theorem quiet_store {access : Access} {page i value : Nat} : Quiet (store access page i value) :=
  quiet_ite (quiet_halt _) (quiet_change _)

theorem quiet_nullPage {access : Access} : Quiet (nullPage access) :=
  quiet_bind (quiet_inspect _) fun _ => quiet_ite (quiet_halt _)
    (quiet_bind quiet_load fun _ => quiet_ite (quiet_halt _) (quiet_pure _))

theorem quiet_kfree {page : Nat} : Quiet (kfree page) :=
  quiet_bind (quiet_inspect _) fun _ => quiet_ite (quiet_halt _)
    (quiet_bind (quiet_change _) fun _ => quiet_change _)

theorem quiet_kalloc : Quiet kalloc := by
  refine quiet_bind (quiet_inspect _) fun list => ?_
  cases list with
  | nil => exact quiet_pure _
  | cons page rest => exact quiet_bind (quiet_change _) fun _ => quiet_pure _

theorem quiet_walkpgdir {d va : Nat} {alloc : Bool} : Quiet (walkpgdir d va alloc) := by
  refine quiet_bind (quiet_inspect _) fun pde => quiet_ite (quiet_pure _) (quiet_ite (quiet_pure _) ?_)
  refine quiet_bind quiet_kalloc fun page => ?_
  cases page with
  | none => exact quiet_pure _
  | some page =>
    exact quiet_bind (quiet_change _) fun _ => quiet_bind (quiet_change _) fun _ => quiet_pure _

theorem quiet_mapFrom {d perm more a page : Nat} : Quiet (mapFrom d perm more a page) := by
  induction more generalizing a page with
  | zero =>
    rw [mapFrom]
    refine quiet_bind quiet_walkpgdir fun found => ?_
    cases found with
    | none => exact quiet_pure _
    | some pair =>
      exact quiet_bind quiet_load fun _ => quiet_ite (quiet_halt _)
        (quiet_bind quiet_store fun _ => quiet_pure _)
  | succ more ih =>
    rw [mapFrom]
    refine quiet_bind quiet_walkpgdir fun found => ?_
    cases found with
    | none => exact quiet_pure _
    | some pair =>
      exact quiet_bind quiet_load fun _ => quiet_ite (quiet_halt _)
        (quiet_bind quiet_store fun _ => ih)

theorem quiet_deallocLoop {d oldsz fuel a : Nat} : Quiet (deallocLoop d oldsz fuel a) := by
  induction fuel generalizing a with
  | zero => exact quiet_pure _
  | succ fuel ih =>
    refine quiet_ite (quiet_pure _) (quiet_bind quiet_walkpgdir fun found => ?_)
    cases found with
    | none => exact ih
    | some pair =>
      refine quiet_bind quiet_load fun pte => quiet_bind (quiet_whenever ?_) fun _ => ih
      exact quiet_bind (quiet_whenever (quiet_halt _)) fun _ =>
        quiet_bind quiet_kfree fun _ => quiet_store

theorem quiet_deallocuvm {d oldsz newsz : Nat} : Quiet (deallocuvm d oldsz newsz) :=
  quiet_ite (quiet_pure _) (quiet_bind quiet_deallocLoop fun _ => quiet_pure _)

theorem quiet_allocLoop {d oldsz newsz count a : Nat} : Quiet (allocLoop d oldsz newsz count a) := by
  induction count generalizing a with
  | zero => exact quiet_pure _
  | succ count ih =>
    refine quiet_bind quiet_kalloc fun page => ?_
    cases page with
    | none => exact quiet_bind quiet_deallocuvm fun _ => quiet_pure _
    | some page => exact quiet_bind (quiet_change _) fun _ => quiet_bind quiet_mapFrom fun _ => ih

theorem quiet_freeTables {d count i : Nat} : Quiet (freeTables d count i) := by
  induction count generalizing i with
  | zero => exact quiet_pure _
  | succ count ih =>
    exact quiet_bind (quiet_inspect _) fun _ => quiet_bind (quiet_whenever quiet_kfree) fun _ => ih

theorem quiet_freevm {d : Nat} : Quiet (freevm d) :=
  quiet_bind quiet_deallocuvm fun _ => quiet_bind quiet_freeTables fun _ => quiet_kfree

theorem quiet_clearpteu {d uva : Nat} : Quiet (clearpteu d uva) := by
  refine quiet_bind quiet_walkpgdir fun found => ?_
  cases found with
  | none => exact quiet_halt _
  | some pair => exact quiet_bind quiet_load fun _ => quiet_store

theorem quiet_uva2ka {d uva : Nat} : Quiet (uva2ka d uva) := by
  refine quiet_bind (quiet_inspect _) fun pde => quiet_bind (quiet_emit (by simp)) fun _ => ?_
  refine quiet_bind quiet_walkpgdir fun found => ?_
  cases found with
  | none => exact quiet_bind quiet_nullPage fun _ => quiet_bind quiet_load fun _ => quiet_pure _
  | some pair => exact quiet_bind quiet_load fun _ => quiet_pure _

theorem quiet_copyoutLoop {d fuel va : Nat} {bytes : List UInt8} :
    Quiet (copyoutLoop d fuel va bytes) := by
  induction fuel generalizing va bytes with
  | zero => exact quiet_pure _
  | succ fuel ih =>
    refine quiet_ite (quiet_pure _) (quiet_bind quiet_uva2ka fun page => ?_)
    cases page with
    | none => exact quiet_pure _
    | some page =>
      exact quiet_ite (quiet_halt _) (quiet_bind (quiet_inspect _) fun _ =>
        quiet_bind (quiet_change _) fun _ => ih)

theorem quiet_copyout {d va : Nat} {bytes : List UInt8} : Quiet (copyout d va bytes) :=
  quiet_bind quiet_copyoutLoop fun _ => quiet_bind (quiet_inspect _) fun _ =>
    quiet_bind (quiet_emit (by simp)) fun _ => quiet_pure _

theorem quiet_pushArgs {d argc sp : Nat} {argv : List (List UInt8)} :
    Quiet (pushArgs d argc sp argv) := by
  induction argv generalizing argc sp with
  | nil => exact quiet_pure _
  | cons arg rest ih =>
    refine quiet_ite (quiet_pure _) (quiet_bind quiet_copyout fun copied => quiet_ite ?_
      (quiet_pure _))
    refine quiet_bind ih fun result => ?_
    cases result with
    | none => exact quiet_pure _
    | some pair => exact quiet_pure _

theorem quiet_allocuvm {d oldsz newsz : Nat} : Quiet (allocuvm d oldsz newsz) :=
  quiet_ite (quiet_pure _) (quiet_ite (quiet_pure _) quiet_allocLoop)

theorem quiet_setupStack {d size : Nat} {argv : List (List UInt8)} :
    Quiet (setupStack d size argv) := by
  refine quiet_bind quiet_allocuvm fun grown => quiet_ite (quiet_pure _) ?_
  refine quiet_bind quiet_clearpteu fun _ => quiet_bind quiet_pushArgs fun result => ?_
  cases result with
  | none => exact quiet_pure _
  | some pair => exact quiet_copyout

end Quiet

/-! The whole of exec. -/

section Exec
variable {m : Memory} {role : Nat → Role} {d : Nat} {plan : Plan} {file : List UInt8}
  {argv : List (List UInt8)}

/-- The memory of a process that calls exec: the page directory in use is an address
space with its first page. -/
structure Caller (m : Memory) (role : Nat → Role) : Prop where
  roles : Roles m role
  dir : role m.cr3 = .dir
  first : (leafAt m m.cr3 0).isSome

/-- From the two stack pages on. -/
def finish (d size : Nat) (argv : List (List UInt8)) : VmM Int := do
  if ← setupStack d (pgroundup size) argv then do
    let oldpgdir ← inspect (·.cr3)
    change fun m => { m with cr3 := d }
    freevm oldpgdir
    pure 0
  else do
    freevm d
    pure (-1)

theorem quiet_finish {size : Nat} : Quiet (finish d size argv) :=
  quiet_bind quiet_setupStack fun _ => quiet_ite
    (quiet_bind (quiet_inspect _) fun _ => quiet_bind (quiet_change _) fun _ =>
      quiet_bind quiet_freevm fun _ => quiet_pure _)
    (quiet_bind quiet_freevm fun _ => quiet_pure _)

theorem finish_run (holds : Holds plan m role d) (current : role m.cr3 = .dir)
    (accepted : Accepted argv) :
    Copies (StackFits plan argv) (fun result : Int => decide (result = 0))
      (fun result _ => result = 0 ∨ result = -1) (finish d plan.size argv m) := by
  refine copies_then (setupStack_run holds accepted) (and_true _).symm.to_iff ?_ ?_
  · rintro - (_ | _) middle ⟨role', roles, change, fixed⟩
    · obtain ⟨after, run, -⟩ := freevm_run roles (local_dir change holds.filled.dense.dir)
      exact copies_quiet run (copies_pure trivial (.inr rfl))
    · have old : role' middle.cr3 = .dir := by
        rw [fixed.cr3]
        exact local_dir change current
      have roles' : Roles { middle with cr3 := d } role' := roles_congr roles rfl rfl fun _ _ _ => rfl
      obtain ⟨after, run, -⟩ := freevm_run roles' old
      exact copies_quiet rfl (copies_quiet rfl (copies_quiet run (copies_pure trivial (.inl rfl))))
  · rintro (_ | _) middle result after ⟨role', roles, change, fixed⟩ failed run
    · obtain ⟨last, gone, -⟩ := freevm_run roles (local_dir change holds.filled.dense.dir)
      have ends : (freevm d >>= fun _ => pure (-1 : Int)) middle = (.done (-1) last, [] ++ []) :=
        bind_done_done gone rfl
      change ((freevm d >>= fun _ => pure (-1 : Int)) middle).1 = _ at run
      rw [ends] at run
      cases run
      rfl
    · cases failed

theorem holds_fresh {u v : Nat} {rest : List Nat} (roles : Roles m role)
    (freelist : m.freelist = u :: v :: d :: rest) :
    Holds ⟨0, 0, rest.length⟩ (withSpace m u v d rest) (created role u v d) d := by
  obtain ⟨roles', isFree, dir, -⟩ := created_space roles freelist
  have bound := free_bound roles
  rw [freelist] at bound
  simp only [List.length_cons] at bound
  have none : ∀ t i, created role u v d t ≠ .table d i := by
    intro t i table
    unfold created at table
    split_ifs at table
    have known := (pde_of_role roles table).1
    rw [isFree] at known
    cases known
  refine ⟨⟨⟨roles', dir, fun i low => ?_, fun k low => (Nat.not_lt_zero k low).elim,
    fun q i j leaf => ?_, le_rfl, Nat.zero_le _⟩, rfl, by simp only; omega⟩, .inl (by simp [pages])⟩
  · exact iff_of_false (fun isPresent => none _ _ (role_of_pde roles' dir low isPresent))
      (Nat.not_lt_zero _)
  · obtain ⟨t, table, -⟩ := pte_of_role roles' leaf
    exact (none t i table).elim

/-- Address 0 of the address space in use is mapped: to page p, through the page table t. -/
structure Null (m : Memory) (t p : Nat) : Prop where
  pde : present (word m m.cr3 0) = true
  table : pteAddr (word m m.cr3 0) = t
  near : t < linearPages
  pte : present (word m t 0) = true
  page : pteAddr (word m t 0) = p

theorem null_write {t p q : Nat} {content : Page} (null : Null m t p) (notDir : q ≠ m.cr3)
    (notTable : q ≠ t) : Null (m.setPage q content) t p := by
  have top : word (m.setPage q content) m.cr3 0 = word m m.cr3 0 :=
    word_setPage_other notDir.symm
  have low : word (m.setPage q content) t 0 = word m t 0 := word_setPage_other notTable.symm
  obtain ⟨pde, table, near, pte, page⟩ := null
  exact ⟨by rw [← pde, ← top]; rfl, by rw [← table, ← top]; rfl, near, by rw [low, pte],
    by rw [low, page]⟩

theorem nullPage_run {t p : Nat} {access : Access} (null : Null m t p) :
    nullPage access m = (.done p m, []) := by
  obtain ⟨pde, rfl, near, pte, rfl⟩ := null
  simp [nullPage, bind_run, inspect, pde, load_run near, pte, pure_run]

theorem target_run {t p : Nat} {pointer : Option Nat} (null : Null m t p) (notDir : p ≠ m.cr3)
    (notTable : p ≠ t) (apart : ∀ page ∈ pointer, page ≠ m.cr3 ∧ page ≠ t) :
    ∃ page, target pointer m = (.done page m, []) ∧ page ≠ m.cr3 ∧ page ≠ t := by
  cases pointer with
  | none => exact ⟨p, nullPage_run null, notDir, notTable⟩
  | some page => exact ⟨page, rfl, apart page rfl⟩

theorem fillSpace_run {t p : Nat} {pml4 pdpt : Option Nat} (null : Null m t p)
    (notDir : p ≠ m.cr3) (notTable : p ≠ t)
    (apart : ∀ page, pml4 = some page ∨ pdpt = some page → page ≠ m.cr3 ∧ page ≠ t) :
    ∃ next, fillSpace pml4 pdpt none m = (.done none next, []) := by
  obtain ⟨u, first, uDir, uTable⟩ := target_run null notDir notTable
    fun page is => apart page (.inl is)
  have null1 : Null (m.setPage u 0) t p := null_write null uDir uTable
  obtain ⟨v, second, vDir, vTable⟩ := target_run null1 notDir notTable
    fun page is => apart page (.inr is)
  have null2 : Null ((m.setPage u 0).setPage v 0) t p := null_write null1 vDir vTable
  have third : target none ((m.setPage u 0).setPage v 0) = _ := nullPage_run null2
  simp only [fillSpace, bind_run, first, setPage, setWord, change, second, third, inspect, pure_run,
    List.nil_append]
  exact ⟨_, rfl⟩

theorem null_of_caller (caller : Caller m role) : ∃ t p, leafAt m m.cr3 0 = some p ∧
    role p = .leaf m.cr3 0 0 ∧ role t = .table m.cr3 0 ∧ Null m t p := by
  obtain ⟨roles, dir, first⟩ := caller
  obtain ⟨p, found⟩ := Option.isSome_iff_exists.mp first
  have leaf := (leafAt_iff roles dir (by decide)).mp found
  obtain ⟨t, table, -, pte, page⟩ := pte_of_role roles leaf
  obtain ⟨-, low, pde, is⟩ := pde_of_role roles table
  obtain ⟨-, near⟩ := table_inside roles dir low pde
  rw [is] at near
  exact ⟨t, p, found, leaf, table, pde, is, near, pte, page⟩

theorem setupkvm_none (caller : Caller m role) (short : m.freelist.length < 3) :
    ∃ next, setupkvm m = (.done none next, []) := by
  obtain ⟨t, p, -, leaf, table, pde, is, near, pte, page⟩ := null_of_caller caller
  obtain ⟨roles, dir, -⟩ := caller
  obtain ⟨pml4, pdpt, run, taken⟩ := setupkvm_fill short
  have apart : ∀ q, role q ≠ .dir → (∀ e i, role q ≠ .table e i) → q ≠ m.cr3 ∧ q ≠ t := by
    intro q notDir notTable
    constructor
    · rintro rfl
      exact notDir dir
    · rintro rfl
      exact notTable _ _ table
  have null : Null { m with freelist := [] } t p := ⟨pde, is, near, pte, page⟩
  obtain ⟨notDir, notTable⟩ := apart p (by simp [leaf]) (by simp [leaf])
  rw [run]
  refine fillSpace_run null notDir notTable fun q is => ?_
  have free := (roles.free q).mp (taken q is)
  exact apart q (by simp [free]) (by simp [free])

/-- exec returns 0 or -1 unless the argument copying went wrong, and loaduvm fills
mapped pages only. -/
def LoadSafe (run : Outcome Memory Panic Int × List Event) : Prop :=
  ((∃ result next, run.1 = .done result next ∧ (result = 0 ∨ result = -1)) ∨ Faulty run.2) ∧
    AllMapped run.2

/-- uva2ka finds a page table below the back-pointers, a copyout that succeeds is
complete, and one that fails makes exec return -1. -/
def CopySafe (run : Outcome Memory Panic Int × List Event) : Prop :=
  Sound run.2 ∧ (Failed run.2 → ∃ next, run.1 = .done (-1) next)

theorem sound_loads {trace : List Event} (only : OnlyLoads trace) : Sound trace := by
  constructor
  · intro index table member
    obtain ⟨mapped, is⟩ := only _ member
    cases is
  · intro complete member
    obtain ⟨mapped, is⟩ := only _ member
    cases is

theorem failed_loads {trace : List Event} (only : OnlyLoads trace) : ¬ Failed trace := by
  rintro ⟨complete, member⟩
  obtain ⟨mapped, is⟩ := only _ member
  cases is

theorem faulty_loads {trace : List Event} (only : OnlyLoads trace) : ¬ Faulty trace := by
  rintro ⟨index, table, member, -⟩
  obtain ⟨mapped, is⟩ := only _ member
  cases is

theorem allMapped_quiet {α : Type} {action : VmM α} (quiet : Quiet action) :
    AllMapped (action m).2 := by
  intro mapped member
  exact ((ensures_outcome (quiet m) fun _ _ => trivial).1 _ member mapped rfl).elim

theorem safe_early {trace : List Event} (next : Memory) (only : OnlyLoads trace) :
    (LoadSafe (.done (-1) next, trace) ↔ AllMapped trace) ∧ CopySafe (.done (-1) next, trace) := by
  refine ⟨⟨fun safe => safe.2, fun mapped => ⟨.inl ⟨-1, next, rfl, .inr rfl⟩, mapped⟩⟩,
    sound_loads only, fun failed => (failed_loads only failed).elim⟩

theorem safe_late {trace : List Event} (only : OnlyLoads trace) (holds : Holds plan m role d)
    (current : role m.cr3 = .dir) (accepted : Accepted argv) :
    (LoadSafe ((finish d plan.size argv m).1, trace ++ (finish d plan.size argv m).2) ↔
        AllMapped trace) ∧
      (CopySafe ((finish d plan.size argv m).1, trace ++ (finish d plan.size argv m).2) ↔
        StackFits plan argv) := by
  have copies := finish_run holds current accepted
  have silent : AllMapped (finish d plan.size argv m).2 := allMapped_quiet quiet_finish
  generalize finish d plan.size argv m = run at copies silent ⊢
  have mapped : AllMapped (trace ++ run.2) ↔ AllMapped trace := by
    rw [allMapped_append]
    exact and_iff_left silent
  by_cases fits : StackFits plan argv
  · obtain ⟨result, next, ran, sound, failed, ends⟩ := copies.clean fits
    refine ⟨⟨fun safe => mapped.mp safe.2, fun all => ⟨.inl ⟨result, next, ran, ends⟩,
      mapped.mpr all⟩⟩, iff_of_true ⟨sound_append (sound_loads only) sound, fun any => ?_⟩ fits⟩
    have late := (failed_append.mp any).resolve_left (failed_loads only)
    have not0 := of_decide_eq_false (failed late)
    rw [ends.resolve_left not0] at ran
    exact ⟨next, ran⟩
  · obtain ⟨index, table, member, bad⟩ := copies.faulty fits
    have faulty : Faulty (trace ++ run.2) := ⟨index, table, List.mem_append_right _ member, bad⟩
    refine ⟨⟨fun safe => mapped.mp safe.2, fun all => ⟨.inr faulty, mapped.mpr all⟩⟩,
      iff_of_false (fun safe => ?_) fits⟩
    obtain ⟨low, there⟩ := safe.1.1 index table (List.mem_append_right _ member)
    rcases bad with high | absent
    · omega
    · rw [there] at absent
      cases absent

/-- exec after the program headers. -/
def afterLoad (pgdir : Nat) (argv : List (List UInt8)) : Option Nat → VmM Int
  | none => freevm pgdir >>= fun _ => pure (-1)
  | some size => finish pgdir size argv

theorem exec_header : exec file argv =
    match elfHeader file with
    | none => pure (-1)
    | some elf => setupkvm >>= fun made =>
      match made with
      | none => pure (-1)
      | some pgdir => loadSegments pgdir file elf.phnum (elf.phoff % 2 ^ 32) 0 >>=
          afterLoad pgdir argv := by
  rw [exec, elfHeader]
  cases readi file 0 elfhdrSize with
  | none => rfl
  | some bytes =>
    simp only [Option.getD_some, Option.bind_some]
    by_cases short : bytes.length < elfhdrSize
    · rw [if_pos short, if_pos short]
    · rw [if_neg short, if_neg short]
      by_cases magic : (readElfhdr bytes).magic = elfMagic
      · rw [if_neg (by simp [magic]), if_pos magic]
        rfl
      · rw [if_pos magic, if_neg magic]

theorem load_safety {count off : Nat} (holds : Holds plan m role d)
    (current : role m.cr3 = .dir) (accepted : Accepted argv) :
    (LoadSafe ((loadSegments d file count off plan.size >>= afterLoad d argv) m) ↔
        SegmentsFit file count off plan) ∧
      (CopySafe ((loadSegments d file count off plan.size >>= afterLoad d argv) m) ↔
        ∀ final ∈ planSegments file count off plan, StackFits final argv) := by
  obtain ⟨only, ends⟩ : Loads (SegmentsFit file count off plan) _ _ _ := loadSegments_run holds
  rcases run : loadSegments d file count off plan.size m with ⟨outcome, trace⟩
  rw [run] at only ends
  cases outcome with
  | halt reason stopped =>
    obtain ⟨fails, broken⟩ := ends
    rw [bind_halt run, broken]
    refine ⟨iff_of_false (fun safe => ?_) fails, iff_of_true ⟨sound_loads only, fun failed =>
      (failed_loads only failed).elim⟩ (by simp)⟩
    rcases safe.1 with ⟨result, next, returned, -⟩ | faulty
    · cases returned
    · exact faulty_loads only faulty
  | done loaded middle =>
    obtain ⟨fits, role', change, fixed, planned⟩ := ends
    rw [bind_done run, fits]
    cases final : planSegments file count off plan with
    | none =>
      rw [final] at planned
      obtain ⟨rfl, roles⟩ := planned
      obtain ⟨next, gone, -⟩ := freevm_run roles (local_dir change holds.filled.dense.dir)
      have ended : afterLoad d argv none middle = (.done (-1) next, []) := bind_quiet gone
      rw [ended, List.append_nil]
      obtain ⟨load, copy⟩ := safe_early next only
      exact ⟨load, iff_of_true copy (by simp)⟩
    | some final =>
      rw [final] at planned
      obtain ⟨rfl, holds'⟩ := planned
      have current' : role' middle.cr3 = .dir := by
        rw [fixed.cr3]
        exact local_dir change current
      obtain ⟨load, copy⟩ := safe_late only holds' current' accepted
      exact ⟨load, copy.trans (by simp)⟩

/-- From the memory of a caller: the loading part is safe when the image fits, the
argument part when the arguments fit above it. -/
theorem exec_safety (caller : Caller m role) (accepted : Accepted argv) :
    (LoadSafe (exec file argv m) ↔ ImageFits file m.freelist.length) ∧
      (CopySafe (exec file argv m) ↔
        ∀ plan ∈ imagePlan file m.freelist.length, StackFits plan argv) := by
  rw [exec_header, ImageFits, imagePlan]
  cases elfHeader file with
  | none =>
    obtain ⟨load, copy⟩ := safe_early m onlyLoads_nil
    exact ⟨iff_of_true (load.mpr allMapped_nil) (by simp), iff_of_true copy (by simp)⟩
  | some elf =>
    simp only [Option.mem_def, Option.some.injEq, forall_eq', Option.bind_some]
    by_cases short : m.freelist.length < 3
    · obtain ⟨next, run⟩ := setupkvm_none caller short
      rw [bind_quiet run, if_pos short]
      obtain ⟨load, copy⟩ := safe_early next onlyLoads_nil
      exact ⟨iff_of_true (load.mpr allMapped_nil) (by omega), iff_of_true copy (by simp)⟩
    · match freelist : m.freelist with
      | [] | [_] | [_, _] => simp [freelist] at short
      | u :: v :: d :: rest =>
        have holds := holds_fresh caller.roles freelist
        have current : created role u v d (withSpace m u v d rest).cr3 = .dir := by
          obtain ⟨-, -, -, change⟩ := created_space caller.roles freelist
          rcases change m.cr3 with same | ⟨free, -⟩
          · exact same.trans caller.dir
          · rw [caller.dir] at free
            cases free
        rw [bind_quiet (setupkvm_run freelist), if_neg (by simp)]
        have enough : 3 ≤ (u :: v :: d :: rest).length := by simp
        have left : (u :: v :: d :: rest).length - 3 = rest.length := by simp
        rw [left]
        obtain ⟨load, copy⟩ := load_safety holds current accepted
        exact ⟨load.trans ⟨fun fits _ => fits, fun fits => fits enough⟩, copy⟩

end Exec

/-! A caller of two pages with ten more free pages. -/

def sixteenPages : Spaces :=
  ⟨⟨50, 49, 0, [100, 101, 102, 103, 104, 105, 106, 107, 108, 109, 110, 111, 112, 113, 114, 115],
    fun _ => 0⟩, [], fun _ => none⟩

/-- An address space with two pages, in use. -/
def twoPages : List Call := [.setupkvm, .allocuvm 102 0 8192]

def inUse (s : Spaces) : Memory := { s.mem with cr3 := 102 }

/-- A caller of two pages for the concrete runs. -/
theorem reach_caller {P : Spaces → Prop} [DecidablePred P]
    (holds : ((Transition.exec step sixteenPages twoPages).any fun final => decide (P final)) = true) :
    ∃ final role, Transition.exec step sixteenPages twoPages = some final ∧
      Caller (inUse final) role ∧ P final := by
  obtain ⟨final, run, more⟩ := Transition.exec_reaches holds
  obtain ⟨reached, run', live, first⟩ : ∃ reached,
      Transition.exec step sixteenPages twoPages = some reached ∧ 102 ∈ reached.live ∧
        (leafAt (inUse reached) 102 0).isSome := Transition.exec_reaches (by decide +kernel)
  obtain rfl : final = reached := Option.some.inj (run.symm.trans run')
  have start : Start sixteenPages := ⟨by decide, by decide, by decide, rfl, fun _ => rfl⟩
  obtain ⟨role, inv⟩ := run_inv start run
  have roles : Roles (inUse final) role := roles_congr inv.roles rfl rfl fun _ _ _ => rfl
  exact ⟨final, role, run, ⟨roles, (inv.live 102).mp live, first⟩, more⟩

/-- An ELF header with its program headers at 64, and a program header. -/
def elfBytes (phnum : Nat) : List UInt8 :=
  wordBytes elfMagic ++ List.replicate 24 0 ++ wordBytes 64 ++ List.replicate 16 0 ++
    wordBytes phnum

/-- exec copies its arguments safely exactly when they fit above the image. -/
theorem exec_copy_safe_iff {m : Memory} {role : Nat → Role} {argv : List (List UInt8)}
    (file : List UInt8) (caller : Caller m role) (accepted : Accepted argv) :
    CopySafe (exec file argv m) ↔
      ∀ plan ∈ imagePlan file m.freelist.length, StackFits plan argv :=
  (exec_safety caller accepted).2

theorem exec_copy_safe_empty : ∃ final role,
    Transition.exec step sixteenPages twoPages = some final ∧ Caller (inUse final) role ∧
      Accepted [[97]] ∧ (CopySafe (exec (elfBytes 0) [[97]] (inUse final)) ↔
        ∀ plan ∈ imagePlan (elfBytes 0) 10, StackFits plan [[97]]) := by
  obtain ⟨final, role, run, caller, free⟩ := reach_caller
    (P := fun final => final.mem.freelist.length = 10) (by decide +kernel)
  have accepted : Accepted [[97]] := ⟨by decide, by simp [physPages, pgsize]⟩
  have safe := exec_copy_safe_iff (elfBytes 0) caller accepted
  exact ⟨final, role, run, caller, accepted, by rwa [show (inUse final).freelist.length = 10 from free]
    at safe⟩

/-- An argument longer than the image and its stack wraps below address 0. -/
theorem exec_long_argument_wraps : ∃ final role,
    Transition.exec step sixteenPages twoPages = some final ∧ Caller (inUse final) role ∧
      Accepted [List.replicate 8192 97] ∧
      ¬ CopySafe (exec (elfBytes 0) [List.replicate 8192 97] (inUse final)) := by
  obtain ⟨final, role, run, caller, trace⟩ := reach_caller (P := fun final =>
      (exec (elfBytes 0) [List.replicate 8192 97] (inUse final)).2 = [.uva2ka 511 true])
    (by decide +kernel)
  refine ⟨final, role, run, caller, ⟨?_, ?_⟩, fun safe => ?_⟩
  · rw [List.length_singleton]
    decide
  · intro arg member
    rw [List.mem_singleton.mp member, List.length_replicate]
    decide
  · have low := (safe.1.1 511 true (by rw [trace]; exact List.mem_singleton_self _)).1
    omega

end Xv6.ExecSafety
