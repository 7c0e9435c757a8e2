import Xv6.Isolation

/-! sys_getpinfo (kernel/sysproc.c). The kernel stores through the page table in use; what
a sequence of stores does to the memory of the process is a patch, a partial function from
addresses to bytes. The value of the local variable that argptr does not set when it
fails is a parameter: it is whatever the kernel stack holds there. -/
namespace Xv6.GetPinfo
open TraceMonad BitField Vm VmSpec PageTables AddressSpaces ExecPlan Growth GrowProc Shrinking Isolation
open Allocation (userPte)

def nproc : Nat := 64

/-- The fields of a slot of the process table that are reported. They are C ints. -/
structure Slot where
  inuse : Int
  tickets : Int
  pid : Int
  ticks : Int

/-- sizeof(struct pstat): the arrays inuse, tickets, pid and ticks, in this order. -/
def pstatSize : Nat := 4 * (4 * nproc)

/-- A kernel access that no page table entry allows. -/
inductive Fault where
  | pageFault
  deriving DecidableEq

abbrev KernelM := Action Memory Empty Fault

/-- The page that a store of the kernel reaches at va: through the page directory in use
below the back-pointers (the kernel runs with write protection), or in the linear map. -/
def kernelPage (m : Memory) (va : Nat) : Option Nat :=
  if va < 0x3fc00000 then
    (pteAt m m.cr3 (va / pgsize)).bind fun pte =>
      if present pte && writable pte && writable (word m m.cr3 (pdx va)) then some (pteAddr pte)
      else none
  else if kernbase ≤ va ∧ (va - kernbase) / pgsize < linearPages then
    some ((va - kernbase) / pgsize)
  else none

def storeBytes : (va : Nat) → List UInt8 → KernelM Unit
  | _, [] => pure ()
  | va, byte :: rest => do
    match ← inspect (kernelPage · (va % 2 ^ 64)) with
    | none => halt .pageFault
    | some page => do
      change fun m => m.setPage page (setBytes (m.page page) (va % pgsize) [byte])
      storeBytes (va + 1) rest

/-- The bytes of an int. -/
def intBytes (value : Int) : List UInt8 :=
  (List.range 4).map fun i => UInt8.ofNat ((value % 2 ^ 32).toNat / 256 ^ i)

/-- The loop over the slots from i on. -/
def fill (table : Nat → Slot) (pstat : Nat) : (count i : Nat) → KernelM Unit
  | 0, _ => pure ()
  | count + 1, i => do
    storeBytes (pstat + 4 * i) (intBytes (table i).inuse)
    storeBytes (pstat + 512 + 4 * i) (intBytes (table i).pid)
    storeBytes (pstat + 768 + 4 * i) (intBytes (table i).ticks)
    storeBytes (pstat + 256 + 4 * i) (intBytes (table i).tickets)
    fill table pstat count (i + 1)

/-- The pointer that argptr assigns; none is -1, and then nothing is assigned. -/
def argptr (sz i size : Nat) : Option Nat :=
  if sz ≤ i ∨ sz < (i + size) % 2 ^ 64 then none else some i

/-- The result of argptr is not tested. -/
def sysGetpinfo (table : Nat → Slot) (sz arg stale : Nat) : KernelM Int := do
  let pstat := (argptr sz arg pstatSize).getD stale
  if pstat = 0 then pure (-1) else do
  fill table pstat nproc 0
  pure 0

/-! Stores as patches. -/

abbrev Patch := Nat → Option UInt8

section Patches
variable {m middle next : Memory} {role : Nat → Role} {va a b p q off : Nat} {byte : UInt8}
  {bytes : List UInt8} {patch patch' : Patch}

/-- The memory differs by a patch of user addresses. -/
structure Patched (m next : Memory) (role : Nat → Role) (patch : Patch) : Prop where
  roles : Roles next role
  cr3 : next.cr3 = m.cr3
  pages : ∀ a < 0x3fc00000, kernelPage next a = kernelPage m a
  written : ∀ a byte, patch a = some byte →
    ∃ p, a < 0x3fc00000 ∧ kernelPage m a = some p ∧ byteAt (next.page p) (a % pgsize) = byte
  others : ∀ q off, off < pgsize →
    (∀ a, (patch a).isSome → kernelPage m a = some q → a % pgsize ≠ off) →
    byteAt (next.page q) off = byteAt (m.page q) off

theorem patched_refl (roles : Roles m role) : Patched m m role fun _ => none :=
  ⟨roles, rfl, fun _ _ => rfl, fun _ _ found => (by cases found), fun _ _ _ _ => rfl⟩

theorem kernelPage_leaf (low : a < 0x3fc00000) (found : kernelPage m a = some p) :
    a / pgsize < 510 * 512 ∧ leafAt m m.cr3 (a / pgsize) = some p := by
  refine ⟨by simp only [pgsize]; omega, ?_⟩
  rw [kernelPage, if_pos low] at found
  rw [leafAt]
  cases pte : pteAt m m.cr3 (a / pgsize) with
  | none => simp [pte] at found
  | some pte =>
    simp only [pte, Option.bind_some, Option.ite_none_right_eq_some, Option.some.injEq,
      Bool.and_eq_true] at found ⊢
    exact ⟨found.1.1.1, found.2⟩

theorem kernelPage_congr (cr3 : next.cr3 = m.cr3) (low : a < 0x3fc00000)
    (pde : word next m.cr3 (pdx a) = word m m.cr3 (pdx a))
    (pte : pteAt next m.cr3 (a / pgsize) = pteAt m m.cr3 (a / pgsize)) :
    kernelPage next a = kernelPage m a := by
  rw [kernelPage, kernelPage, if_pos low, if_pos low, cr3, pte, pde]

theorem kernelPage_role (roles : Roles m role) (dir : role m.cr3 = .dir) (low : a < 0x3fc00000)
    (found : kernelPage m a = some p) :
    role p = .leaf m.cr3 (a / pgsize / 512) (a / pgsize % 512) := by
  obtain ⟨small, leaf⟩ := kernelPage_leaf low found
  exact (leafAt_iff roles dir small).1 leaf

theorem address_unique (roles : Roles m role) (dir : role m.cr3 = .dir) (low : a < 0x3fc00000)
    (low' : b < 0x3fc00000) (found : kernelPage m a = some p) (found' : kernelPage m b = some p)
    (same : a % pgsize = b % pgsize) : a = b := by
  have leaf := kernelPage_role roles dir low found
  rw [kernelPage_role roles dir low' found', Role.leaf.injEq] at leaf
  simp only [pgsize] at *
  omega

/-- One patch after another. -/
def Patch.after (late early : Patch) : Patch := fun a => (late a).or (early a)

theorem patched_trans (roles : Roles m role) (dir : role m.cr3 = .dir)
    (first : Patched m middle role patch) (second : Patched middle next role patch') :
    Patched m next role (patch'.after patch) where
  roles := second.roles
  cr3 := second.cr3.trans first.cr3
  pages a low := (second.pages a low).trans (first.pages a low)
  written a byte found := by
    rw [Patch.after] at found
    cases late : patch' a with
    | some other =>
      obtain ⟨p, low, page, stored⟩ := second.written a other late
      rw [late, Option.some_or, Option.some.injEq] at found
      exact ⟨p, low, by rw [← first.pages a low, page], by rw [stored, found]⟩
    | none =>
      rw [late, Option.none_or] at found
      obtain ⟨p, low, page, stored⟩ := first.written a byte found
      refine ⟨p, low, page, ?_⟩
      rw [second.others p (a % pgsize) (Nat.mod_lt _ (by decide)), stored]
      intro b isLate found' same
      obtain ⟨other, late'⟩ := Option.isSome_iff_exists.1 isLate
      obtain ⟨-, low', -⟩ := second.written b other late'
      rw [first.pages b low'] at found'
      rw [address_unique roles dir low' low found' page same, late] at isLate
      cases isLate
  others q off small away := by
    have away' : ∀ a, (patch' a).isSome ∨ (patch a).isSome → kernelPage m a = some q →
        a % pgsize ≠ off := by
      intro a is
      refine away a ?_
      rw [Patch.after, Option.isSome_or]
      simpa using is
    rw [second.others q off small, first.others q off small]
    · exact fun a is => away' a (.inr is)
    · intro a is found
      obtain ⟨byte, late⟩ := Option.isSome_iff_exists.1 is
      obtain ⟨-, low, -⟩ := second.written a byte late
      exact away' a (.inl is) (by rw [← first.pages a low, found])

theorem page_setPage_self {content : Page} : (m.setPage p content).page p = content := if_pos rfl

theorem byteAt_stored {content : Page} (small : off < pgsize) :
    byteAt (setBytes content off [byte]) off = byte := by
  rw [setBytes, setBytes, byteAt_setField_same]
  simp only [pgsize] at small
  omega

theorem patched_byte (roles : Roles m role) (dir : role m.cr3 = .dir) (low : va < 0x3fc00000)
    (found : kernelPage m va = some p) :
    Patched m (m.setPage p (setBytes (m.page p) (va % pgsize) [byte])) role
      fun a => if a = va then some byte else none := by
  have leaf := kernelPage_role roles dir low found
  have words : ∀ q, role q = .dir ∨ (∃ d i, role q = .table d i) →
      ∀ j, word (m.setPage p (setBytes (m.page p) (va % pgsize) [byte])) q j = word m q j := by
    intro q is j
    refine word_setPage_other ?_
    rintro rfl
    simp [leaf] at is
  refine ⟨roles_congr roles rfl rfl words, rfl, fun a small => ?_, fun a other is => ?_,
    fun q off small away => ?_⟩
  · refine kernelPage_congr rfl small (words _ (.inl dir) _) ?_
    refine pteAt_congr roles dir (by simp only [pgsize]; omega) fun q is j => words q ?_ j
    exact is.imp (fun (same : q = m.cr3) => same ▸ dir) (Exists.intro _)
  · by_cases here : a = va
    · rw [if_pos here, Option.some.injEq] at is
      subst here is
      refine ⟨p, low, found, ?_⟩
      rw [page_setPage_self]
      exact byteAt_stored (Nat.mod_lt _ (by decide))
    · rw [if_neg here] at is
      cases is
  · by_cases here : q = p
    · subst here
      have other : off ≠ va % pgsize := fun same => away va (by simp) found same.symm
      rw [page_setPage_self, byteAt_setBytes_outside]
      simp only [List.length_singleton]
      omega
    · rw [Memory.setPage]
      exact congrArg (byteAt · off) (if_neg here)

/-- A string of bytes at va. -/
def bytesPatch (va : Nat) (bytes : List UInt8) : Patch := fun a =>
  if va ≤ a then bytes[a - va]? else none

theorem bytesPatch_cons :
    (bytesPatch (va + 1) bytes).after (fun a => if a = va then some byte else none) =
      bytesPatch va (byte :: bytes) := by
  funext a
  rw [Patch.after, bytesPatch, bytesPatch]
  rcases Nat.lt_trichotomy a va with less | rfl | more
  · rw [if_neg (by omega), if_neg (by omega), if_neg (by omega)]
    rfl
  · rw [if_neg (by omega), if_pos rfl, if_pos (Nat.le_refl a), Nat.sub_self]
    rfl
  · rw [if_pos (by omega), if_neg (by omega), if_pos (by omega), Option.or_none,
      show a - va = a - (va + 1) + 1 by omega, List.getElem?_cons_succ]

theorem storeBytes_cons (low : va < 0x3fc00000) (found : kernelPage m va = some p) :
    storeBytes va (byte :: bytes) m =
      storeBytes (va + 1) bytes (m.setPage p (setBytes (m.page p) (va % pgsize) [byte])) := by
  have page : (inspect (kernelPage · (va % 2 ^ 64)) : KernelM (Option Nat)) m =
      (.done (some p) m, []) := by
    rw [inspect, Nat.mod_eq_of_lt (by omega), found]
  rw [storeBytes, bind_quiet page]
  exact bind_quiet rfl

theorem storeBytes_run (roles : Roles m role) (dir : role m.cr3 = .dir)
    (low : va + bytes.length ≤ 0x3fc00000)
    (mapped : ∀ a, va ≤ a → a < va + bytes.length → (kernelPage m a).isSome) :
    ∃ next, storeBytes va bytes m = (.done () next, []) ∧
      Patched m next role (bytesPatch va bytes) := by
  induction bytes generalizing va m with
  | nil =>
    have nothing : bytesPatch va [] = fun _ => none := by
      funext a
      simp [bytesPatch]
    exact ⟨m, rfl, nothing ▸ patched_refl roles⟩
  | cons byte rest ih =>
    rw [List.length_cons] at low mapped
    obtain ⟨p, found⟩ := Option.isSome_iff_exists.1 (mapped va (by omega) (by omega))
    have first : Patched m _ role fun a => if a = va then some byte else none :=
      patched_byte roles dir (by omega) found
    obtain ⟨next, run, later⟩ := ih first.roles (by rw [first.cr3]; exact dir)
      (by omega : va + 1 + rest.length ≤ 0x3fc00000) (by
        intro a atLeast below
        rw [first.pages a (by omega)]
        exact mapped a (by omega) (by omega))
    refine ⟨next, ?_, bytesPatch_cons ▸ patched_trans roles dir first later⟩
    rw [storeBytes_cons (by omega) found]
    exact run

theorem storeBytes_done {events : List Empty} (roles : Roles m role) (dir : role m.cr3 = .dir)
    (low : va + bytes.length ≤ 0x3fc00000) (run : storeBytes va bytes m = (.done () next, events)) :
    ∀ a, va ≤ a → a < va + bytes.length → (kernelPage m a).isSome := by
  induction bytes generalizing va m with
  | nil =>
    intro a atLeast below
    simp only [List.length_nil] at below
    omega
  | cons byte rest ih =>
    rw [List.length_cons] at low
    intro a atLeast below
    rw [List.length_cons] at below
    cases found : kernelPage m va with
    | none =>
      have page : (inspect (kernelPage · (va % 2 ^ 64)) : KernelM (Option Nat)) m =
          (.done none m, []) := by
        rw [inspect, Nat.mod_eq_of_lt (by omega), found]
      rw [storeBytes, bind_quiet page] at run
      cases run
    | some p =>
      rw [storeBytes_cons (by omega) found] at run
      have first : Patched m _ role fun a => if a = va then some byte else none :=
        patched_byte roles dir (by omega) found
      by_cases here : a = va
      · rw [here, found]
        rfl
      · rw [← first.pages a (by omega)]
        exact ih first.roles (by rw [first.cr3]; exact dir) (by omega) run a (by omega) (by omega)

end Patches

/-! The loop over the process table. -/

section Fill
variable {m start next : Memory} {role : Nat → Role} {table : Nat → Slot} {pstat sz arg stale : Nat}
  {count i o s : Nat} {value : Int}

/-- The int at index s of the structure. -/
def intAt (table : Nat → Slot) (s : Nat) : Int :=
  if s < 64 then (table s).inuse else if s < 128 then (table (s - 64)).tickets
  else if s < 192 then (table (s - 128)).pid else (table (s - 192)).ticks

/-- The structure at pstat with the slots below n filled in. -/
def filled (table : Nat → Slot) (pstat n : Nat) : Patch := fun a =>
  if pstat ≤ a ∧ (a - pstat) / 4 < 256 ∧ (a - pstat) / 4 % 64 < n then
    (intBytes (intAt table ((a - pstat) / 4)))[(a - pstat) % 4]?
  else none

theorem length_intBytes : (intBytes value).length = 4 := by
  rw [intBytes, List.length_map, List.length_range]

theorem bytesPatch_int : bytesPatch (pstat + 4 * s) (intBytes value) (pstat + o) =
    if o / 4 = s then (intBytes value)[o % 4]? else none := by
  rw [bytesPatch]
  by_cases here : o / 4 = s
  · rw [if_pos here, if_pos (by omega), show pstat + o - (pstat + 4 * s) = o % 4 by omega]
  · rw [if_neg here]
    by_cases after : pstat + 4 * s ≤ pstat + o
    · rw [if_pos after, List.getElem?_eq_none]
      rw [length_intBytes]
      omega
    · rw [if_neg after]

theorem int_or {other : Option UInt8} :
    ((intBytes value)[o % 4]?).or other = (intBytes value)[o % 4]? := by
  rw [List.getElem?_eq_getElem (by rw [length_intBytes]; omega)]
  rfl

theorem filled_succ (inside : i < 64) :
    (bytesPatch (pstat + 4 * (64 + i)) (intBytes (table i).tickets)).after
      ((bytesPatch (pstat + 4 * (192 + i)) (intBytes (table i).ticks)).after
        ((bytesPatch (pstat + 4 * (128 + i)) (intBytes (table i).pid)).after
          ((bytesPatch (pstat + 4 * i) (intBytes (table i).inuse)).after (filled table pstat i)))) =
      filled table pstat (i + 1) := by
  funext a
  by_cases above : pstat ≤ a
  · obtain ⟨o, rfl⟩ := Nat.exists_eq_add_of_le above
    simp only [Patch.after, bytesPatch_int, filled, Nat.add_sub_cancel_left, Nat.le_add_right,
      true_and]
    generalize o / 4 = s
    by_cases isInuse : s = i
    · rw [if_neg (by omega), if_neg (by omega), if_neg (by omega), if_pos isInuse, int_or,
        if_pos (by omega), intAt, if_pos (by omega), isInuse]
      rfl
    by_cases isTickets : s = 64 + i
    · rw [if_pos isTickets, int_or, if_pos (by omega), intAt, if_neg (by omega), if_pos (by omega),
        show s - 64 = i by omega]
    by_cases isPid : s = 128 + i
    · rw [if_neg isTickets, if_neg (by omega), if_pos isPid, int_or, if_pos (by omega), intAt,
        if_neg (by omega), if_neg (by omega), if_pos (by omega), show s - 128 = i by omega]
      rfl
    by_cases isTicks : s = 192 + i
    · rw [if_neg isTickets, if_pos isTicks, int_or, if_pos (by omega), intAt, if_neg (by omega),
        if_neg (by omega), if_neg (by omega), show s - 192 = i by omega]
      rfl
    rw [if_neg isTickets, if_neg isTicks, if_neg isPid, if_neg isInuse]
    by_cases old : s < 256 ∧ s % 64 < i
    · rw [if_pos old, if_pos (by omega)]
      rfl
    · rw [if_neg old, if_neg (by omega)]
      rfl
  · simp only [Patch.after, bytesPatch, filled]
    rw [if_neg (by omega), if_neg (by omega), if_neg (by omega), if_neg (by omega), if_neg (by omega),
      if_neg (by omega)]
    rfl

/-- The pages of the structure are there for the kernel to write. -/
def Reachable (m : Memory) (pstat : Nat) : Prop :=
  ∀ a, pstat ≤ a → a < pstat + pstatSize → (kernelPage m a).isSome

theorem store_next {patch : Patch} {va : Nat} (value : Int) (roles : Roles start role)
    (dir : role start.cr3 = .dir) (low : pstat + pstatSize ≤ 0x3fc00000)
    (reachable : Reachable start pstat) (early : Patched start m role patch) (small : s < 256)
    (is : va = pstat + 4 * s) :
    ∃ next, storeBytes va (intBytes value) m = (.done () next, []) ∧
      Patched start next role ((bytesPatch (pstat + 4 * s) (intBytes value)).after patch) := by
  have within : va + (intBytes value).length ≤ pstat + pstatSize := by
    rw [length_intBytes, pstatSize, nproc]
    omega
  obtain ⟨next, run, later⟩ := @storeBytes_run m role va (intBytes value) early.roles
    (by rw [early.cr3]; exact dir) (by omega) (by
      intro a atLeast below
      rw [early.pages a (by omega)]
      exact reachable a (by omega) (by omega))
  exact ⟨next, run, is ▸ patched_trans roles dir early later⟩

theorem fill_run (roles : Roles start role) (dir : role start.cr3 = .dir)
    (low : pstat + pstatSize ≤ 0x3fc00000) (reachable : Reachable start pstat)
    (early : Patched start m role (filled table pstat i)) (inside : i + count ≤ 64) :
    ∃ next, fill table pstat count i m = (.done () next, []) ∧
      Patched start next role (filled table pstat (i + count)) := by
  induction count generalizing i m with
  | zero => exact ⟨m, rfl, early⟩
  | succ count ih =>
    obtain ⟨m₁, run₁, patched₁⟩ := store_next (table i).inuse roles dir low reachable
      early (by omega : i < 256) rfl
    obtain ⟨m₂, run₂, patched₂⟩ := store_next (table i).pid roles dir low reachable
      patched₁ (by omega : 128 + i < 256) (by omega : pstat + 512 + 4 * i = _)
    obtain ⟨m₃, run₃, patched₃⟩ := store_next (table i).ticks roles dir low reachable
      patched₂ (by omega : 192 + i < 256) (by omega : pstat + 768 + 4 * i = _)
    obtain ⟨m₄, run₄, patched₄⟩ := store_next (table i).tickets roles dir low reachable
      patched₃ (by omega : 64 + i < 256) (by omega : pstat + 256 + 4 * i = _)
    rw [filled_succ (by omega)] at patched₄
    obtain ⟨next, run, patched⟩ := ih patched₄ (by omega)
    refine ⟨next, ?_, by rwa [show i + (count + 1) = i + 1 + count by omega]⟩
    rw [fill, bind_quiet run₁, bind_quiet run₂, bind_quiet run₃, bind_quiet run₄, run]

theorem fill_done {patch : Patch} {events : List Empty} (roles : Roles start role)
    (dir : role start.cr3 = .dir) (low : pstat + pstatSize ≤ 0x3fc00000)
    (early : Patched start m role patch) (inside : i + count ≤ 64)
    (run : fill table pstat count i m = (.done () next, events)) :
    ∀ s < 256, i ≤ s % 64 → s % 64 < i + count →
      ∀ r < 4, (kernelPage start (pstat + 4 * s + r)).isSome := by
  induction count generalizing i m events patch with
  | zero =>
    intro s _ atLeast below
    omega
  | succ count ih =>
    rw [pstatSize, nproc] at low
    -- Each of the four stores ended, from a memory that differs by a patch.
    have ended : ∀ {m after : Memory} {patch : Patch} {value : Int} {va s : Nat} {events : List Empty},
        Patched start m role patch → s < 256 → va = pstat + 4 * s →
        storeBytes va (intBytes value) m = (.done () after, events) →
        (∀ r < 4, (kernelPage start (pstat + 4 * s + r)).isSome) ∧
          Patched start after role ((bytesPatch va (intBytes value)).after patch) := by
      intro m after patch value va s events early small is run
      subst is
      have dir' : role m.cr3 = .dir := by rw [early.cr3, dir]
      have fits : pstat + 4 * s + (intBytes value).length ≤ 0x3fc00000 := by
        rw [length_intBytes]
        omega
      have mapped := storeBytes_done early.roles dir' fits run
      obtain ⟨after', run', later⟩ := storeBytes_run early.roles dir' fits mapped
      rw [run] at run'
      cases run'
      refine ⟨fun r inside => ?_, patched_trans roles dir early later⟩
      rw [← early.pages _ (by omega)]
      exact mapped _ (by omega) (by rw [length_intBytes]; omega)
    rw [fill] at run
    obtain ⟨_, m₁, _, _, run₁, run, -⟩ := bind_inv run
    obtain ⟨inuse, patched₁⟩ := ended early (by omega : i < 256) rfl run₁
    obtain ⟨_, m₂, _, _, run₂, run, -⟩ := bind_inv run
    obtain ⟨pid, patched₂⟩ := ended patched₁ (by omega : 128 + i < 256) (by omega) run₂
    obtain ⟨_, m₃, _, _, run₃, run, -⟩ := bind_inv run
    obtain ⟨ticks, patched₃⟩ := ended patched₂ (by omega : 192 + i < 256) (by omega) run₃
    obtain ⟨_, m₄, _, _, run₄, run, -⟩ := bind_inv run
    obtain ⟨tickets, patched₄⟩ := ended patched₃ (by omega : 64 + i < 256) (by omega) run₄
    intro s small atLeast below
    by_cases here : s % 64 = i
    · rcases (by omega : s = i ∨ s = 128 + i ∨ s = 192 + i ∨ s = 64 + i) with rfl | rfl | rfl | rfl
      · exact inuse
      · exact pid
      · exact ticks
      · exact tickets
    · exact ih patched₄ (by omega) run s small (by omega) (by omega)

/-! The call. -/

/-- The bytes stand at va for the process. -/
def Stands (m : Memory) (va : Nat) (bytes : List UInt8) : Prop :=
  ∀ j byte, bytes[j]? = some byte →
    ∃ p, kernelPage m (va + j) = some p ∧ byteAt (m.page p) ((va + j) % pgsize) = byte

/-- The structure at pstat tells the process table, and no other byte of memory changed. -/
structure Reported (table : Nat → Slot) (pstat : Nat) (m next : Memory) : Prop where
  inuse : ∀ i < nproc, Stands next (pstat + 4 * i) (intBytes (table i).inuse)
  tickets : ∀ i < nproc, Stands next (pstat + 256 + 4 * i) (intBytes (table i).tickets)
  pid : ∀ i < nproc, Stands next (pstat + 512 + 4 * i) (intBytes (table i).pid)
  ticks : ∀ i < nproc, Stands next (pstat + 768 + 4 * i) (intBytes (table i).ticks)
  others : ∀ q off, off < pgsize →
    (∀ a, pstat ≤ a → a < pstat + pstatSize → kernelPage m a = some q → a % pgsize ≠ off) →
    byteAt (next.page q) off = byteAt (m.page q) off

/-- getpinfo rejects exactly the arguments whose structure is not inside the process,
without writing, and reports the process table otherwise. -/
def Validates (table : Nat → Slot) (sz arg stale : Nat) (m : Memory) : Prop :=
  ∃ result next, sysGetpinfo table sz arg stale m = (.done result next, []) ∧
    (sz < arg + pstatSize → result = -1 ∧ next = m) ∧
    (arg + pstatSize ≤ sz → result = 0 ∧ Reported table arg m next)

theorem stands_filled {va : Nat} (patched : Patched m next role (filled table pstat 64))
    (small : s < 256) (is : va = pstat + 4 * s) : Stands next va (intBytes (intAt table s)) := by
  subst is
  intro j byte found
  have inside : j < 4 := by
    have := (List.getElem?_eq_some_iff.1 found).1
    rwa [length_intBytes] at this
  have here : filled table pstat 64 (pstat + 4 * s + j) = some byte := by
    rw [filled, if_pos (by omega), show (pstat + 4 * s + j - pstat) / 4 = s by omega,
      show (pstat + 4 * s + j - pstat) % 4 = j by omega, found]
  obtain ⟨p, low, page, stored⟩ := patched.written _ byte here
  exact ⟨p, by rw [patched.pages _ low, page], stored⟩

theorem reported_filled (patched : Patched m next role (filled table pstat 64)) :
    Reported table pstat m next := by
  refine ⟨fun i inside => ?_, fun i inside => ?_, fun i inside => ?_, fun i inside => ?_,
    fun q off small away => ?_⟩
  · rw [nproc] at inside
    have stands := stands_filled patched (by omega : i < 256) rfl
    rwa [intAt, if_pos inside] at stands
  · rw [nproc] at inside
    have stands := stands_filled patched (by omega : 64 + i < 256)
      (by omega : pstat + 256 + 4 * i = _)
    rwa [intAt, if_neg (by omega), if_pos (by omega), show 64 + i - 64 = i by omega] at stands
  · rw [nproc] at inside
    have stands := stands_filled patched (by omega : 128 + i < 256)
      (by omega : pstat + 512 + 4 * i = _)
    rwa [intAt, if_neg (by omega), if_neg (by omega), if_pos (by omega),
      show 128 + i - 128 = i by omega] at stands
  · rw [nproc] at inside
    have stands := stands_filled patched (by omega : 192 + i < 256)
      (by omega : pstat + 768 + 4 * i = _)
    rwa [intAt, if_neg (by omega), if_neg (by omega), if_neg (by omega),
      show 192 + i - 192 = i by omega] at stands
  · refine patched.others q off small fun a is => ?_
    rw [filled] at is
    split_ifs at is with inside
    · exact away a inside.1 (by rw [pstatSize, nproc]; omega)
    · cases is

theorem argptr_inside (fits : arg + pstatSize ≤ sz) (small : sz < 2 ^ 63) :
    argptr sz arg pstatSize = some arg := by
  simp only [pstatSize, nproc] at *
  rw [argptr, if_neg (by omega)]

theorem argptr_outside (beyond : sz < arg + pstatSize) (small : sz < 2 ^ 63) :
    argptr sz arg pstatSize = none := by
  simp only [pstatSize, nproc] at *
  rw [argptr, if_pos]
  by_cases late : sz ≤ arg
  · exact .inl late
  · exact .inr (by rw [Nat.mod_eq_of_lt (by omega)]; exact beyond)

theorem process_small (process : Process m role m.cr3 sz) : sz ≤ 0x3fc00000 := by
  have bound := process_bound process
  simp only [pages, physPages] at bound
  omega

theorem not_validates_stale (process : Process m role m.cr3 sz) (beyond : sz < arg + pstatSize)
    (nonzero : stale ≠ 0) : ¬ Validates table sz arg stale m := by
  rintro ⟨result, next, run, rejected, -⟩
  have small := process_small process
  rw [sysGetpinfo, argptr_outside beyond (by omega), Option.getD_none, if_neg nonzero] at run
  obtain ⟨_, middle, _, _, -, done, -⟩ := bind_inv run
  cases done
  cases (rejected beyond).1

/-- sys_getpinfo keeps the law exactly when an argument inside the process is not 0 and
its pages are there, and the stale pointer is 0 for an argument outside. -/
theorem getpinfo_validates_iff (process : Process m role m.cr3 sz) :
    Validates table sz arg stale m ↔
      (sz < arg + pstatSize → stale = 0) ∧
        (arg + pstatSize ≤ sz → arg ≠ 0 ∧ Reachable m arg) := by
  have small := process_small process
  constructor
  · intro law
    refine ⟨fun beyond => by_contra fun nonzero => not_validates_stale process beyond nonzero law,
      fun fits => ?_⟩
    obtain ⟨result, next, run, -, accepted⟩ := law
    rw [sysGetpinfo, argptr_inside fits (by omega), Option.getD_some] at run
    by_cases zero : arg = 0
    · -- Address 0 is inside, but it is taken for a null pointer.
      rw [if_pos zero] at run
      cases run
      cases (accepted fits).1
    · rw [if_neg zero] at run
      obtain ⟨_, middle, _, _, loop, -, -⟩ := bind_inv run
      refine ⟨zero, fun a atLeast below => ?_⟩
      have found := fill_done process.roles process.dir (by omega) (patched_refl process.roles)
        (by decide : 0 + nproc ≤ 64) loop ((a - arg) / 4)
        (by rw [pstatSize, nproc] at below; omega) (Nat.zero_le _)
        (by rw [Nat.zero_add, nproc]; omega) ((a - arg) % 4) (by omega)
      rwa [show arg + 4 * ((a - arg) / 4) + (a - arg) % 4 = a by omega] at found
  · rintro ⟨rejected, accepted⟩
    by_cases fits : arg + pstatSize ≤ sz
    · obtain ⟨nonzero, reachable⟩ := accepted fits
      have empty : filled table arg 0 = fun _ => none := by
        funext a
        rw [filled, if_neg (by omega)]
      obtain ⟨next, run, patched⟩ := @fill_run m m role table arg nproc 0 process.roles process.dir
        (by omega) reachable (empty ▸ patched_refl process.roles) (by decide)
      refine ⟨0, next, ?_, fun beyond => by omega, fun _ => ⟨rfl, reported_filled patched⟩⟩
      rw [sysGetpinfo, argptr_inside fits (by omega), Option.getD_some, if_neg nonzero,
        bind_quiet run]
      rfl
    · refine ⟨-1, m, ?_, fun _ => ⟨rfl, rfl⟩, fun inside => absurd inside fits⟩
      rw [sysGetpinfo, argptr_outside (by omega) (by omega), Option.getD_none,
        rejected (by omega), if_pos rfl]
      rfl

end Fill

theorem process_current {m : Memory} {role : Nat → Role} {d sz : Nat} (process : Process m role d sz) :
    Process { m with cr3 := d } role d sz :=
  ⟨roles_congr process.roles rfl rfl fun _ _ _ => rfl, process.dir, process.mapped, process.above⟩

theorem kernelPage_same {m : Memory} {a b : Nat} (low : a < 0x3fc00000) (low' : b < 0x3fc00000)
    (same : a / pgsize = b / pgsize) : kernelPage m a = kernelPage m b := by
  have index : pdx a = pdx b := by
    simp only [pgsize, pdx] at *
    omega
  rw [kernelPage, kernelPage, if_pos low, if_pos low', same, index]

/-- A process table with a single process. -/
def oneSlot : Nat → Slot := fun i => if i = 0 then ⟨1, 10, 1, 0⟩ else ⟨0, 0, 0, 0⟩

/-- A structure at 4096 in a process of two pages. -/
theorem getpinfo_validates_page : ∃ final role,
    Transition.exec step tenPages [.setupkvm, .allocuvm 102 0 8192] = some final ∧
      Process { final.mem with cr3 := 102 } role 102 8192 ∧
      Validates oneSlot 8192 4096 0 { final.mem with cr3 := 102 } := by
  obtain ⟨final, role, run, process, pages⟩ := reach_process
    (P := fun final => (kernelPage { final.mem with cr3 := 102 } 4096).isSome) (by decide +kernel)
  refine ⟨final, role, run, process_current process, ?_⟩
  refine (getpinfo_validates_iff (process_current process)).2
    ⟨fun beyond => absurd beyond (by decide), fun _ => ⟨by decide, fun a atLeast below => ?_⟩⟩
  rw [pstatSize, nproc] at below
  rwa [kernelPage_same (by omega) (by decide : 4096 < 0x3fc00000)
    (by simp only [pgsize]; omega)]

/-- An argument at the end of the process, with the stack slot pointing into it. -/
theorem getpinfo_writes_stale : ∃ final role,
    Transition.exec step tenPages [.setupkvm, .allocuvm 102 0 8192] = some final ∧
      Process { final.mem with cr3 := 102 } role 102 8192 ∧
      ¬ Validates oneSlot 8192 8192 4096 { final.mem with cr3 := 102 } := by
  obtain ⟨final, role, run, process, -⟩ := reach_process (P := fun _ => True) (by decide +kernel)
  exact ⟨final, role, run, process_current process,
    not_validates_stale (process_current process) (by decide) (by decide)⟩

end Xv6.GetPinfo
