import Xv6.CopyMemory
import Xv6.ExecSafety
import Xv6.ProcTable
import Xv6.Layout

/-! fork (kernel/proc.c) and what it does when memory runs out. The trap frame and the
context on the new kernel stack and the name of the process are left out; null pointers
to pages are 0. -/
namespace Xv6.Fork
open TraceMonad Vm VmSpec PageTables AddressSpaces ExecPlan Growth Allocation Probe GrowProc CopyMemory
open ProcTable (ProcState succInt)
open Layout (nofile nproc)

structure Slot where
  state : ProcState
  pid : Int
  ticks : Int
  kstack : Nat
  pgdir : Nat
  sz : Nat
  parent : Option Nat
  ofile : Nat → Option Nat
  cwd : Nat

/-- The process table, nextpid and the reference counts of files and inodes. -/
structure Kernel where
  mem : Memory
  slot : Nat → Slot
  nextpid : Int
  fileRef : Nat → Int
  inodeRef : Nat → Int

inductive Stop where
  | vm (reason : Panic)
  | filedup

abbrev ForkM := Action Kernel Report Stop

/-- An action on memory. -/
def memory {α : Type} (action : ProbeM α) : ForkM α := fun k =>
  match action k.mem with
  | (.done value next, reports) => (.done value { k with mem := next }, reports)
  | (.halt reason stopped, reports) => (.halt (.vm reason) { k with mem := stopped }, reports)

def Kernel.setSlot (k : Kernel) (i : Nat) (f : Slot → Slot) : Kernel :=
  { k with slot := fun j => if j = i then f (k.slot j) else k.slot j }

def setSlot (i : Nat) (f : Slot → Slot) : ForkM Unit := change (·.setSlot i f)

def unusedSlot (k : Kernel) : Option Nat :=
  (List.range nproc).find? fun i => (k.slot i).state = .unused

def allocproc : ForkM (Option Nat) := do
  match ← inspect unusedSlot with
  | none => pure none
  | some i => do
    let pid ← inspect (·.nextpid)
    setSlot i fun np => { np with state := .embryo, pid, ticks := 0 }
    change fun k => { k with nextpid := succInt k.nextpid }
    match ← memory Probe.kalloc with
    | none => do
      setSlot i fun np => { np with kstack := 0, state := .unused }
      pure none
    | some kstack => do
      setSlot i fun np => { np with kstack }
      pure (some i)

def filedup (f : Nat) : ForkM Unit := do
  let ref ← inspect (·.fileRef f)
  if ref < 1 then halt .filedup else
  change fun k => { k with fileRef := fun g => if g = f then k.fileRef g + 1 else k.fileRef g }

def idup (ip : Nat) : ForkM Unit :=
  change fun k => { k with inodeRef := fun g => if g = ip then k.inodeRef g + 1 else k.inodeRef g }

/-- The loop of fork over the descriptors. -/
def dupFiles (p np : Nat) : List Nat → ForkM Unit
  | [] => pure ()
  | fd :: rest => do
    match ← inspect fun k => (k.slot p).ofile fd with
    | none => dupFiles p np rest
    | some f => do
      filedup f
      setSlot np fun s => { s with ofile := fun g => if g = fd then some f else s.ofile g }
      dupFiles p np rest

/-- fork once copyuvm has failed. -/
def abandon (np : Nat) : ForkM (Option Int) := do
  let kstack ← inspect fun k => (k.slot np).kstack
  memory (silent (kfree kstack))
  setSlot np fun s => { s with kstack := 0, state := .unused }
  pure none

/-- fork once copyuvm has succeeded. -/
def adopt (p np : Nat) : ForkM (Option Int) := do
  let proc ← inspect (·.slot p)
  setSlot np fun s => { s with sz := proc.sz, parent := some p }
  dupFiles p np (List.range nofile)
  idup proc.cwd
  setSlot np fun s => { s with cwd := proc.cwd }
  let pid ← inspect fun k => (k.slot np).pid
  setSlot np fun s => { s with state := .runnable }
  pure (some pid)

/-- fork after allocproc. -/
def build (p np : Nat) : ForkM (Option Int) := do
  let proc ← inspect (·.slot p)
  let pgdir ← memory (Probe.copyuvm proc.pgdir proc.sz)
  setSlot np fun s => { s with pgdir := pgdir.getD 0 }
  match pgdir with
  | none => abandon np
  | some _ => adopt p np

/-- The pid of the child, or none for -1. -/
def fork (p : Nat) : ForkM (Option Int) := do
  match ← allocproc with
  | none => pure none
  | some np => build p np

/-- The memory of the address space d is as before. -/
structure Untouched (m next : Memory) (d : Nat) : Prop where
  dir : next.page d = m.page d
  tables : ∀ i < 510, ∀ t, tableAt m d i = some t → next.page t = m.page t
  pages : ∀ j < 510 * 512, ∀ p, leafAt m d j = some p → next.page p = m.page p

structure Nothing (k next : Kernel) (p : Nat) : Prop where
  memory : Untouched k.mem next.mem (k.slot p).pgdir
  free : ∀ q, q ∈ next.mem.freelist ↔ q ∈ k.mem.freelist
  files : next.fileRef = k.fileRef
  inodes : next.inodeRef = k.inodeRef
  states : ∀ i, (next.slot i).state = (k.slot i).state

/-- fork returns the next pid or -1, the latter without a trace, and writes only to pages
that kalloc gave it. -/
def AllOrNothing (k : Kernel) (p : Nat) : Prop :=
  ∃ result next, (fork p k).1 = .done result next ∧ Clean [] (fork p k).2 ∧
    match result with
    | some pid => pid = k.nextpid
    | none => Nothing k next p

/-- The process that calls fork. -/
structure Parent (k : Kernel) (role : Nat → Role) (p : Nat) : Prop where
  roles : Roles k.mem role
  dir : role (k.slot p).pgdir = .dir
  current : k.mem.cr3 = (k.slot p).pgdir
  running : (k.slot p).state = .running
  files : ∀ fd < nofile, ∀ f, (k.slot p).ofile fd = some f → 1 ≤ k.fileRef f

/-- No slot is free, or no page is, or there are pages for the kernel stack, for the three
upper levels of the page table, for every page of the parent and for its page tables. -/
def Enough (k : Kernel) (p : Nat) : Prop :=
  (∀ i < nproc, (k.slot i).state ≠ .unused) ∨ k.mem.freelist = [] ∨
    (∀ j < pages (k.slot p).sz, (userPte k.mem (k.slot p).pgdir j).isSome) ∧
      4 + pages (k.slot p).sz + (pages (k.slot p).sz + 511) / 512 ≤ k.mem.freelist.length

section Runs
variable {k : Kernel} {role : Nat → Role} {p i stack : Nat} {rest : List Nat}

theorem memory_done {α : Type} {action : ProbeM α} {value : α} {next : Memory}
    {reports : List Report} (run : action k.mem = (.done value next, reports)) :
    memory action k = (.done value { k with mem := next }, reports) := by
  rw [memory, run]

theorem memory_halt {α : Type} {action : ProbeM α} {reason : Panic} {stopped : Memory}
    {reports : List Report} (run : action k.mem = (.halt reason stopped, reports)) :
    memory action k = (.halt (.vm reason) { k with mem := stopped }, reports) := by
  rw [memory, run]

/-- The kernel after allocproc has taken slot i. -/
def embryo (k : Kernel) (i : Nat) : Kernel :=
  { k.setSlot i fun np => { np with state := .embryo, pid := k.nextpid, ticks := 0 } with
    nextpid := succInt k.nextpid }

/-- The kernel after allocproc. -/
def allocated (k : Kernel) (i stack : Nat) (rest : List Nat) : Kernel :=
  ({ embryo k i with mem := { k.mem with freelist := rest } }).setSlot i
    fun np => { np with kstack := stack }

theorem fork_full (full : unusedSlot k = none) : fork p k = (.done none k, []) := by
  have run : allocproc k = (.done none k, []) := by
    simp [allocproc, bind_run, inspect, full, pure_run]
  rw [fork, bind_quiet run]
  rfl

theorem fork_nothing (found : unusedSlot k = some i) (empty : k.mem.freelist = []) :
    fork p k = (.done none ((embryo k i).setSlot i fun np =>
      { np with kstack := 0, state := .unused }), []) := by
  have none : memory Probe.kalloc (embryo k i) = (.done .none (embryo k i), []) :=
    memory_done (probe_kalloc_nil empty)
  have run : allocproc k = (.done .none ((embryo k i).setSlot i fun np =>
      { np with kstack := 0, state := .unused }), []) := by
    rw [allocproc, bind_quiet (rfl : inspect unusedSlot k = _), found]
    exact (bind_quiet none).trans rfl
  rw [fork, bind_quiet run]
  rfl

theorem fork_build (found : unusedSlot k = some i) (freelist : k.mem.freelist = stack :: rest) :
    fork p k = ((build p i (allocated k i stack rest)).1,
      .took stack :: (build p i (allocated k i stack rest)).2) := by
  have some_ : memory Probe.kalloc (embryo k i) =
      (.done (some stack) { embryo k i with mem := { k.mem with freelist := rest } }, [.took stack]) :=
    memory_done (probe_kalloc_cons freelist)
  have run : allocproc k = (.done (some i) (allocated k i stack rest), [.took stack]) := by
    rw [allocproc, bind_quiet (rfl : inspect unusedSlot k = _), found]
    exact (bind_done some_).trans rfl
  rw [fork, bind_done run]
  rfl

theorem slot_other {j : Nat} (other : j ≠ i) : (allocated k i stack rest).slot j = k.slot j := by
  simp [allocated, embryo, Kernel.setSlot, other]

theorem dupFiles_run {fds : List Nat} (other : p ≠ i)
    (files : ∀ fd ∈ fds, ∀ f, (k.slot p).ofile fd = some f → 1 ≤ k.fileRef f) :
    ∃ next, dupFiles p i fds k = (.done () next, []) ∧ (next.slot i).pid = (k.slot i).pid := by
  induction fds generalizing k with
  | nil => exact ⟨k, rfl, rfl⟩
  | cons fd fds ih =>
    rw [dupFiles, bind_quiet (rfl : inspect _ k = _)]
    cases found : (k.slot p).ofile fd with
    | none => exact ih fun fd' member => files fd' (List.mem_cons_of_mem _ member)
    | some f =>
      have ref := files fd List.mem_cons_self f found
      have run : filedup f k = (.done () { k with
          fileRef := fun g => if g = f then k.fileRef g + 1 else k.fileRef g }, []) := by
        rw [filedup, bind_quiet (rfl : inspect _ k = _), if_neg (by omega)]
        rfl
      dsimp only
      rw [bind_quiet run, bind_quiet (rfl : setSlot i _ _ = _)]
      obtain ⟨next, ran, pid⟩ := ih (k := ({ k with
          fileRef := fun g => if g = f then k.fileRef g + 1 else k.fileRef g }).setSlot i _)
        fun fd' member f' is => by
          simp only [Kernel.setSlot, if_neg other] at is ⊢
          have old := files fd' (List.mem_cons_of_mem _ member) f' is
          split <;> omega
      refine ⟨next, ran, pid.trans ?_⟩
      simp [Kernel.setSlot]

theorem adopt_run (other : p ≠ i)
    (files : ∀ fd < nofile, ∀ f, (k.slot p).ofile fd = some f → 1 ≤ k.fileRef f) :
    ∃ next, adopt p i k = (.done (some (k.slot i).pid) next, []) := by
  have files' : ∀ fd ∈ List.range nofile, ∀ f, ((k.setSlot i fun s =>
      { s with sz := (k.slot p).sz, parent := some p }).slot p).ofile fd = some f →
      1 ≤ (k.setSlot i fun s => { s with sz := (k.slot p).sz, parent := some p }).fileRef f := by
    intro fd member f is
    simp only [Kernel.setSlot, if_neg other] at is ⊢
    exact files fd (List.mem_range.mp member) f is
  obtain ⟨next, dup, pid⟩ := dupFiles_run other files'
  have same : (next.slot i).pid = (k.slot i).pid := by
    rw [pid]
    simp [Kernel.setSlot]
  rw [adopt, bind_quiet (rfl : inspect _ k = _), bind_quiet (rfl : setSlot i _ k = _),
    bind_quiet dup, bind_quiet (rfl : idup _ next = _), bind_quiet (rfl : setSlot i _ _ = _),
    bind_quiet (rfl : inspect _ _ = _), bind_quiet (rfl : setSlot i _ _ = _)]
  refine ⟨_, Prod.ext (congrArg₂ Outcome.done (congrArg some ?_) rfl) rfl⟩
  simpa [Kernel.setSlot] using same

theorem abandon_frees {next : Kernel} {result : Option Int}
    (run : (abandon i k).1 = .done result next) :
    result = none ∧ next.mem.freelist = (k.slot i).kstack :: k.mem.freelist := by
  rw [abandon, bind_quiet (rfl : inspect _ k = _)] at run
  by_cases valid : k.mem.kend ≤ (k.slot i).kstack ∧ (k.slot i).kstack < physPages
  · have freed : (silent (kfree (k.slot i).kstack) : ProbeM Unit) k.mem =
        (.done () (VmSpec.freed k.mem (k.slot i).kstack), []) := by
      rw [silent, kfree_run valid.1 valid.2]
    rw [bind_quiet (memory_done freed), bind_quiet (rfl : setSlot i _ _ = _)] at run
    cases run
    exact ⟨rfl, rfl⟩
  · have halted : (silent (kfree (k.slot i).kstack) : ProbeM Unit) k.mem =
        (.halt .kfree k.mem, []) := by
      rw [silent, kfree, bind_quiet (rfl : inspect _ _ = _), if_pos (by omega)]
      rfl
    rw [bind_halt (memory_halt halted)] at run
    cases run

theorem build_bind {pgdir : Option Nat} {last : Memory} {reports : List Report}
    (run : Probe.copyuvm (k.slot p).pgdir (k.slot p).sz k.mem = (.done pgdir last, reports)) :
    build p i k =
      let start := ({ k with mem := last }).setSlot i fun s => { s with pgdir := pgdir.getD 0 }
      let later := (match pgdir with
        | none => abandon i
        | some _ => adopt p i) start
      (later.1, reports ++ later.2) := by
  rw [build, bind_quiet (rfl : inspect _ k = _), bind_done (memory_done run)]
  dsimp only
  rw [bind_quiet (rfl : setSlot i _ _ = _)]

theorem build_some {c : Nat} {last : Memory} {reports : List Report} (other : p ≠ i)
    (files : ∀ fd < nofile, ∀ f, (k.slot p).ofile fd = some f → 1 ≤ k.fileRef f)
    (run : Probe.copyuvm (k.slot p).pgdir (k.slot p).sz k.mem = (.done (some c) last, reports)) :
    ∃ next, build p i k = (.done (some (k.slot i).pid) next, reports) := by
  rw [build_bind run]
  obtain ⟨next, ran⟩ := adopt_run (i := i)
    (k := ({ k with mem := last }).setSlot i fun s => { s with pgdir := c }) other
    fun fd low f is => by
      simp only [Kernel.setSlot, if_neg other] at is ⊢
      exact files fd low f is
  refine ⟨next, ?_⟩
  dsimp only [Option.getD]
  rw [ran]
  simp [Kernel.setSlot]

theorem build_none {next : Kernel} {result : Option Int}
    (fails : ∀ page last, (Probe.copyuvm (k.slot p).pgdir (k.slot p).sz k.mem).1 ≠
      .done (some page) last)
    (run : (build p i k).1 = .done result next) :
    result = none ∧ ∃ last, (Probe.copyuvm (k.slot p).pgdir (k.slot p).sz k.mem).1 =
      .done none last ∧ next.mem.freelist = (k.slot i).kstack :: last.freelist := by
  rcases split : Probe.copyuvm (k.slot p).pgdir (k.slot p).sz k.mem with ⟨outcome, reports⟩
  rw [split] at fails
  rcases outcome with ⟨_ | page, last⟩ | ⟨reason, stopped⟩
  · rw [build_bind split] at run
    obtain ⟨isNone, list⟩ := abandon_frees run
    refine ⟨isNone, last, rfl, ?_⟩
    rw [list]
    simp [Kernel.setSlot]
  · exact (fails page last rfl).elim
  · rw [build, bind_quiet (rfl : inspect _ k = _), bind_halt (memory_halt split)] at run
    cases run

theorem build_reports :
    ∃ later, (build p i k).2 = (Probe.copyuvm (k.slot p).pgdir (k.slot p).sz k.mem).2 ++ later := by
  rcases split : Probe.copyuvm (k.slot p).pgdir (k.slot p).sz k.mem with ⟨outcome, reports⟩
  rcases outcome with ⟨page, last⟩ | ⟨reason, stopped⟩
  · rw [build_bind split]
    exact ⟨_, rfl⟩
  · rw [build, bind_quiet (rfl : inspect _ k = _), bind_halt (memory_halt split)]
    exact ⟨[], (List.append_nil _).symm⟩

end Runs

section Whole
variable {k : Kernel} {role : Nat → Role} {p i stack : Nat} {rest : List Nat}

theorem unusedSlot_none (full : unusedSlot k = none) : ∀ i < nproc, (k.slot i).state ≠ .unused := by
  intro i low unused
  have none := List.find?_eq_none.mp full i (List.mem_range.mpr low)
  simp [unused] at none

theorem unusedSlot_some (found : unusedSlot k = some i) : i < nproc ∧ (k.slot i).state = .unused := by
  have here := List.find?_some found
  exact ⟨List.mem_range.mp (List.mem_of_find?_eq_some found), by simpa using here⟩

theorem untouched_refl {m : Memory} {d : Nat} : Untouched m m d :=
  ⟨rfl, fun _ _ _ _ => rfl, fun _ _ _ _ => rfl⟩

theorem nothing_refl : Nothing k k p := ⟨untouched_refl, fun _ => Iff.rfl, rfl, rfl, fun _ => rfl⟩

theorem nothing_slot (unused : (k.slot i).state = .unused) :
    Nothing k ((embryo k i).setSlot i fun np => { np with kstack := 0, state := .unused }) p := by
  refine ⟨untouched_refl, fun _ => Iff.rfl, rfl, rfl, fun j => ?_⟩
  by_cases self : j = i
  · simp [embryo, Kernel.setSlot, self, unused]
  · simp [embryo, Kernel.setSlot, self]

/-- A page that does not come back, or a write to a page that was not free. -/
def Marked (stack : Nat) (rest : List Nat) (run : Outcome Memory Panic (Option Nat) × List Report) :
    Prop :=
  ∀ last, run.1 = .done none last → (∃ q ∈ rest, q ∉ last.freelist) ∨
    ∃ q later, run.2 = .wrote q :: later ∧ q ≠ stack

theorem parent_apart (parent : Parent k role p) (found : unusedSlot k = some i) : p ≠ i := by
  rintro rfl
  have unused := (unusedSlot_some found).2
  rw [parent.running] at unused
  cases unused

theorem marked_fails (parent : Parent k role p) (found : unusedSlot k = some i)
    (freelist : k.mem.freelist = stack :: rest)
    (fails : ∀ page last, (Probe.copyuvm (k.slot p).pgdir (k.slot p).sz
      { k.mem with freelist := rest }).1 ≠ .done (some page) last)
    (marked : Marked stack rest (Probe.copyuvm (k.slot p).pgdir (k.slot p).sz
      { k.mem with freelist := rest })) : ¬ AllOrNothing k p := by
  have other := parent_apart parent found
  have same : (allocated k i stack rest).slot p = k.slot p := slot_other other
  have own : ((allocated k i stack rest).slot i).kstack = stack := by
    simp [allocated, Kernel.setSlot]
  rintro ⟨result, next, run, clean, nothing⟩
  rw [fork_build found freelist] at run clean
  obtain ⟨rfl, last, gaveUp, list⟩ := build_none (by rw [same]; exact fails) run
  rw [own] at list
  rw [same] at gaveUp
  rcases marked last gaveUp with ⟨q, inRest, lost⟩ | ⟨q, later, dirty, away⟩
  · have nodup := parent.roles.nodup
    rw [freelist, List.nodup_cons] at nodup
    have back := (nothing.free q).mpr (by rw [freelist]; exact List.mem_cons_of_mem _ inRest)
    rw [list, List.mem_cons] at back
    rcases back with rfl | back
    · exact nodup.1 inRest
    · exact lost back
  · obtain ⟨more, reports⟩ := build_reports (p := p) (i := i) (k := allocated k i stack rest)
    rw [same] at reports
    rw [reports, show (Probe.copyuvm (k.slot p).pgdir (k.slot p).sz
      (allocated k i stack rest).mem).2 = _ from dirty] at clean
    exact away (List.mem_singleton.mp clean.1)

theorem built_iff (parent : Parent k role p) (found : unusedSlot k = some i)
    (freelist : k.mem.freelist = stack :: rest) :
    AllOrNothing k p ↔
      (∀ j < pages (k.slot p).sz, (userPte k.mem (k.slot p).pgdir j).isSome) ∧
        4 + pages (k.slot p).sz + (pages (k.slot p).sz + 511) / 512 ≤ rest.length + 1 := by
  have other := parent_apart parent found
  have isFree : role stack = .free := (parent.roles.free stack).mp (by simp [freelist])
  have roles : Roles { k.mem with freelist := rest } (Function.update role stack (.held 0)) :=
    roles_take parent.roles freelist
  have dir : Function.update role stack (.held 0) (k.slot p).pgdir = .dir := by
    rw [Function.update_of_ne (dir_ne_free parent.dir isFree), parent.dir]
  by_cases short : rest.length < 3
  · refine iff_of_false (marked_fails parent found freelist ?_ ?_) (by omega)
    · intro page last run
      cases (copyuvm_short short run).1
    · intro last run
      cases rest with
      | cons u rest =>
        refine .inl ⟨u, List.mem_cons_self, ?_⟩
        rw [(copyuvm_short short run).2]
        exact List.not_mem_nil
      | nil =>
        have current : Function.update role stack (.held 0) k.mem.cr3 = .dir := by
          rw [parent.current, dir]
        obtain ⟨q, later, dirty, leaf⟩ := copyuvm_null roles current rfl run
        refine .inr ⟨q, later, dirty, ?_⟩
        rintro rfl
        rw [Function.update_self] at leaf
        cases leaf
  · obtain ⟨u, v, c, free, rfl⟩ : ∃ u v c free, rest = u :: v :: c :: free := by
      rcases rest with _ | ⟨u, _ | ⟨v, _ | ⟨c, free⟩⟩⟩
      · simp at short
      · simp at short
      · simp at short
      · exact ⟨u, v, c, free, rfl⟩
    have ends := @copyuvm_ends _ _ _ u v c (k.slot p).sz free [stack] roles dir rfl
    split_ifs at ends with enough
    · obtain ⟨last, reports, run, clean, -⟩ := ends
      refine iff_of_true ?_ ⟨enough.1, by simp only [List.length_cons]; omega⟩
      have same : (allocated k i stack (u :: v :: c :: free)).slot p = k.slot p := slot_other other
      obtain ⟨next, built⟩ := build_some (k := allocated k i stack (u :: v :: c :: free)) other
        (by rw [same]; exact parent.files) (by rw [same]; exact run)
      refine ⟨_, next, by rw [fork_build found freelist, built], ?_, ?_⟩
      · rw [fork_build found freelist, built]
        exact clean
      · simp [allocated, embryo, Kernel.setSlot]
    · refine iff_of_false (marked_fails parent found freelist ends ?_) ?_
      · intro last run
        exact .inl ⟨u, List.mem_cons_self, copyuvm_leaks roles rfl run⟩
      · rintro ⟨all, fits⟩
        simp only [List.length_cons] at fits
        exact enough ⟨all, by omega⟩

/-- fork is all or nothing if and only if it fails at once, for want of a slot or of a page
for the kernel stack, or succeeds: everything that runs out later leaves its mark. -/
theorem fork_all_or_nothing_iff (parent : Parent k role p) : AllOrNothing k p ↔ Enough k p := by
  cases found : unusedSlot k with
  | none =>
    refine iff_of_true ⟨none, k, ?_, ?_, nothing_refl⟩ (.inl (unusedSlot_none found))
    · rw [fork_full found]
    · rw [fork_full found]
      trivial
  | some i =>
    obtain ⟨low, unused⟩ := unusedSlot_some found
    cases freelist : k.mem.freelist with
    | nil =>
      refine iff_of_true ⟨none, _, ?_, ?_, nothing_slot unused⟩ (.inr (.inl freelist))
      · rw [fork_nothing found freelist]
      · rw [fork_nothing found freelist]
        trivial
    | cons stack rest =>
      rw [built_iff parent found freelist, Enough, freelist]
      simp only [List.length_cons]
      constructor
      · exact fun enough => .inr (.inr enough)
      · rintro (full | empty | enough)
        · exact (full i low unused).elim
        · cases empty
        · exact enough

end Whole

/-- A process in slot 0 with two pages and no open files. -/
def oneProcess (m : Memory) : Kernel :=
  ⟨{ m with cr3 := 102 }, fun i => ⟨if i = 0 then .running else .unused, 1, 0, 0, 102, 8192, none,
    fun _ => none, 0⟩, 2, fun _ => 0, fun _ => 0⟩

theorem parent_oneProcess {start final : Spaces} {calls : List Call} (fresh : Start start)
    (run : Transition.exec step start calls = some final) (live : 102 ∈ final.live) :
    ∃ role, Parent (oneProcess final.mem) role 0 := by
  obtain ⟨role, inv⟩ := run_inv fresh run
  exact ⟨role, roles_congr inv.roles rfl rfl fun _ _ _ => rfl, (inv.live 102).mp live, rfl, rfl,
    fun _ _ _ is => by cases is⟩

/-- With ten free pages fork succeeds. -/
theorem fork_enough : ∃ final role,
    Transition.exec step ExecSafety.sixteenPages ExecSafety.twoPages = some final ∧
      Parent (oneProcess final.mem) role 0 ∧ AllOrNothing (oneProcess final.mem) 0 := by
  obtain ⟨final, run, live, first, second, free⟩ : ∃ final,
      Transition.exec step ExecSafety.sixteenPages ExecSafety.twoPages = some final ∧
        102 ∈ final.live ∧ (userPte final.mem 102 0).isSome ∧ (userPte final.mem 102 1).isSome ∧
        final.mem.freelist.length = 10 :=
    Transition.exec_reaches (by decide +kernel)
  obtain ⟨role, parent⟩ := parent_oneProcess
    ⟨by decide, by decide, by decide, rfl, fun _ => rfl⟩ run live
  refine ⟨final, role, run, parent, (fork_all_or_nothing_iff parent).mpr (.inr (.inr ⟨?_, ?_⟩))⟩
  · intro j low
    have cases : j = 0 ∨ j = 1 := by
      simp only [oneProcess, pages] at low
      omega
    rcases cases with rfl | rfl
    · exact first
    · exact second
  · change 4 + pages 8192 + (pages 8192 + 511) / 512 ≤ final.mem.freelist.length
    rw [free]
    decide

/-- With four free pages fork returns -1 and loses two of them. -/
theorem fork_loses_pages : ∃ final role,
    Transition.exec step tenPages [.setupkvm, .allocuvm 102 0 8192] = some final ∧
      Parent (oneProcess final.mem) role 0 ∧ ¬ AllOrNothing (oneProcess final.mem) 0 := by
  obtain ⟨final, run, live, freelist, failed, lost⟩ : ∃ final,
      Transition.exec step tenPages [.setupkvm, .allocuvm 102 0 8192] = some final ∧
        102 ∈ final.live ∧ final.mem.freelist = [106, 107, 108, 109] ∧
        (fork 0 (oneProcess final.mem)).1.returns none = true ∧
        (fork 0 (oneProcess final.mem)).1.passes (·.mem.freelist == [106, 109]) = true :=
    Transition.exec_reaches (by decide +kernel)
  obtain ⟨role, parent⟩ := parent_oneProcess
    ⟨by decide, by decide, by decide, rfl, fun _ => rfl⟩ run live
  refine ⟨final, role, run, parent, ?_⟩
  rintro ⟨result, next, ran, -, rest⟩
  rw [ran] at failed lost
  obtain rfl : result = none := by simpa [Outcome.returns] using failed
  have list : next.mem.freelist = [106, 109] := by simpa [Outcome.passes] using lost
  have back := (rest.free 107).mpr (by
    change 107 ∈ final.mem.freelist
    rw [freelist]
    decide)
  rw [list] at back
  simp at back

end Xv6.Fork
