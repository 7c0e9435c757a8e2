import Xv6.ProgramImage

/-! The argument stack of exec, byte by byte. The strings go down from the top of the stack
page, each at an address that is a multiple of 8, and below them stand the words of ustack. -/
namespace Xv6.ArgumentStack
open TraceMonad BitField Vm VmSpec PageTables AddressSpaces ExecPlan Growth Loading Arguments
open Exec ExecFrame UserMemory ProgramImage

/-- Where a string goes. -/
def slot (sp : Nat) (arg : List UInt8) : Nat := (sp - (arg.length + 1)) / 8 * 8

/-- Where the strings go, or none when one of them does not fit above bottom or there are
too many. -/
def place (bottom : Nat) : (argc sp : Nat) → List (List UInt8) → Option (Nat × List Nat)
  | _, sp, [] => some (sp, [])
  | argc, sp, arg :: rest =>
    if maxarg ≤ argc then none else
    if slot sp arg < bottom then none else
    (place bottom (argc + 1) (slot sp arg) rest).map fun (last, addresses) =>
      (last, slot sp arg :: addresses)

/-- The flags of the new image: page g is inaccessible. -/
def guarded (g k : Nat) : Nat := if k = g then pteW ||| pteP else allFlags

theorem flagged_guarded (g : Nat) : Flagged (guarded g) := by
  intro k
  rw [guarded]
  split <;> decide

/-- The strings laid over an image. -/
def strings (img : Nat → UInt8) (argv : List (List UInt8)) (addresses : List Nat) : Nat → UInt8 :=
  (argv.zip addresses).foldl (fun img pair => overlay img pair.2 (pair.1 ++ [0])) img

section Push
variable {m : Memory} {role : Nat → Role} {d k sp argc va : Nat} {arg bytes : List UInt8}
  {argv : List (List UInt8)} {img : Nat → UInt8}

theorem userAt_entry {flags : Nat → Nat} {j p : Nat} (flagged : Flagged flags)
    (pte : pteAt m d j = some (entry p (flags j))) :
    userAt m d j = if (flags j).testBit 2 then some p else none := by
  rw [userAt, pte, Option.bind_some, present_entry (flagged j).2, Bool.true_and, user,
    testBit_entry (by decide), pteAddr_entry (flagged j).1]

theorem copy_inside (stacked : Stacked m role d k true)
    (image : Image m d (guarded k) (k + 2) img) (above : (k + 1) * pgsize ≤ va)
    (inside : va + bytes.length ≤ (k + 2) * pgsize) (more : bytes ≠ []) :
    ∃ next trace, copyout d va bytes m = (.done true next, trace) ∧ Sound trace ∧
      Stacked next role d k true ∧ Fixed m next ∧
      Image next d (guarded k) (k + 2) (overlay img va bytes) := by
  have bound := stacked.bound
  simp only [physPages] at bound
  obtain ⟨p, found, plain, run⟩ := copyout_inside stacked above inside more (Nat.le_refl _)
  have small : va % 2 ^ 32 = va := by
    refine Nat.mod_eq_of_lt ?_
    have some_ := List.length_pos_iff.2 more
    simp only [pgsize] at inside
    omega
  obtain ⟨q, pte, -⟩ := image (k + 1) (by omega)
  have flags : guarded k (k + 1) = allFlags := if_neg (by omega)
  have same : q = p := by
    rw [userAt_entry (flagged_guarded k) pte, flags, if_pos (by decide)] at found
    exact Option.some.inj found
  subst same
  have copied : copyout d va bytes m = _ := copyout_eq (by rw [small]; exact run)
  rw [small, copyout_stands stacked above inside found plain] at copied
  refine ⟨_, _, copied, sound_copyout (walked_one (by omega)) fun _ => rfl,
    stacked_write stacked plain _, ⟨rfl, rfl, rfl⟩, ?_⟩
  have fits : va - (k + 1) * pgsize + bytes.length ≤ pgsize := by
    simp only [pgsize] at inside above ⊢
    omega
  have wrote := image_write image stacked.roles stacked.dir (flagged_guarded k) (by omega)
    (by omega : k + 1 < k + 2) pte fits
  rw [Nat.add_sub_cancel' above] at wrote
  exact wrote

theorem pushArgs_place (stacked : Stacked m role d k true) (pointer : Pointer k sp)
    (limit : argc ≤ maxarg) (short : ∀ arg ∈ argv, arg.length + 1 ≤ physPages * pgsize)
    (fits : ArgsFit ((k + 1) * pgsize) true sp (argv.take (maxarg - argc)))
    (image : Image m d (guarded k) (k + 2) img) :
    ∃ next trace, pushArgs d argc sp argv m =
        (.done (place ((k + 1) * pgsize) argc sp argv) next, trace) ∧ Sound trace ∧
      Stacked next role d k true ∧ Fixed m next ∧
      ∀ last addresses, place ((k + 1) * pgsize) argc sp argv = some (last, addresses) →
        Pointer k last ∧ addresses.length = argv.length ∧ argc + argv.length ≤ maxarg ∧
        Image next d (guarded k) (k + 2) (strings img argv addresses) := by
  induction argv generalizing m sp argc img with
  | nil =>
    refine ⟨m, [], rfl, sound_nil, stacked, fixed_refl m, ?_⟩
    rintro last addresses ⟨⟩
    exact ⟨pointer, rfl, limit, image⟩
  | cons arg rest ih =>
    rw [pushArgs, place]
    by_cases many : maxarg ≤ argc
    · rw [if_pos many, if_pos many]
      refine ⟨m, [], rfl, sound_nil, stacked, fixed_refl m, ?_⟩
      rintro last addresses ⟨⟩
    · rw [if_neg many, if_neg many]
      have bound := stacked.bound
      have top := pointer.inside
      simp only [physPages, pgsize] at bound top
      rw [show maxarg - argc = maxarg - (argc + 1) + 1 by omega, List.take_succ_cons] at fits
      obtain ⟨fit, later⟩ := fits
      have here : pushed sp arg = slot sp arg := pushed_eq fit (by omega)
      by_cases below : slot sp arg < (k + 1) * pgsize
      · -- The string reaches into the inaccessible page.
        rw [if_pos below]
        have push := push_run stacked pointer (short arg List.mem_cons_self)
        obtain ⟨copied, next, ran, sound, -, -, isCopied, stacked', fixed⟩ :=
          push.clean ⟨fit, .inl below⟩
        rw [isCopied, ← slot, decide_eq_false (Nat.not_le.2 below)] at ran
        refine ⟨next, _, bind_done (Prod.ext ran rfl), ?_, stacked', fixed, ?_⟩
        · exact sound_append sound sound_nil
        · rintro last addresses ⟨⟩
      · rw [if_neg below]
        have inside : slot sp arg + (arg ++ [0]).length ≤ (k + 2) * pgsize := by
          rw [slot, List.length_append, List.length_singleton]
          simp only [pgsize]
          omega
        obtain ⟨middle, early, copied, sound, stacked', fixed, image'⟩ :=
          copy_inside stacked image (Nat.le_of_not_lt below) inside (by simp)
        obtain ⟨next, trace, run, sound', stacked'', fixed', placed⟩ :=
          ih stacked' (pointer_pushed pointer (Nat.le_of_not_lt below)) (by omega)
            (fun other member => short other (List.mem_cons_of_mem _ member))
            ((later.resolve_left below).2) image'
        rw [← slot] at run placed
        rw [here]
        cases found : place ((k + 1) * pgsize) (argc + 1) (slot sp arg) rest with
        | none =>
          rw [found] at run
          refine ⟨next, _, bind_done_done copied (bind_done_done run rfl),
            sound_append sound (sound_append sound' sound_nil), stacked'',
            fixed_trans fixed fixed', ?_⟩
          rintro last addresses ⟨⟩
        | some pair =>
          obtain ⟨last, addresses⟩ := pair
          rw [found] at run
          refine ⟨next, _, bind_done_done copied (bind_done_done run rfl),
            sound_append sound (sound_append sound' sound_nil), stacked'',
            fixed_trans fixed fixed', ?_⟩
          rintro last' addresses' ⟨⟩
          obtain ⟨pointer', length, few, image''⟩ := placed last addresses found
          refine ⟨pointer', by rw [List.length_cons, List.length_cons, length], ?_, image''⟩
          rw [List.length_cons]
          omega

end Push

/-! The two stack pages and the strings. -/

/-- The part of exec from the stack pages to the end of the loop over argv: the new size,
the stack pointer and the addresses of the strings, or bad. -/
def buildStack (pgdir size : Nat) (argv : List (List UInt8)) :
    VmM (Option (Nat × Nat × List Nat)) := do
  let grown ← allocuvm pgdir (size % 2 ^ 32) ((size + 2 * pgsize) % 2 ^ 32)
  if grown = 0 then pure none else
  let sz := signExtend grown
  clearpteu pgdir (sz - 2 * pgsize)
  match ← pushArgs pgdir 0 sz argv with
  | none => pure none
  | some (sp, addresses) => pure (some (sz, sp, addresses))

/-- The stack page was left out because there was no page for its page table. -/
def stackLost (plan : Plan) : Bool :=
  (growLoop 2 plan.mapped plan.free).any fun (n, _) => n ≠ plan.mapped + 2

/-- What it returns, by the plan. Without a stack page a string cannot be copied. -/
def built (plan : Plan) (argv : List (List UInt8)) : Option (Nat × Nat × List Nat) :=
  (growLoop 2 plan.mapped plan.free).bind fun (n, _) =>
    if n = plan.mapped + 2 then
      (place ((plan.mapped + 1) * pgsize) 0 ((plan.mapped + 2) * pgsize) argv).map
        fun (sp, addresses) => ((plan.mapped + 2) * pgsize, sp, addresses)
    else if argv = [] then some ((plan.mapped + 2) * pgsize, (plan.mapped + 2) * pgsize, [])
    else none

section Build
variable {m next : Memory} {role : Nat → Role} {d k n f : Nat} {plan : Plan}
  {argv : List (List UInt8)} {img : Nat → UInt8}

theorem dense_image (dense : Dense m role d n n) : ∃ img, Image m d plain n img := by
  refine ⟨fun x => (leafAt m d (x / pgsize)).elim 0 fun p => byteAt (m.page p) (x % pgsize),
    fun k inside => ?_⟩
  obtain ⟨p, pte⟩ := dense_pte dense inside
  refine ⟨p, pte, fun i small => ?_⟩
  have page : (k * pgsize + i) / pgsize = k := by
    simp only [pgsize] at small ⊢
    omega
  have offset : (k * pgsize + i) % pgsize = i := by
    simp only [pgsize] at small ⊢
    omega
  dsimp only
  rw [page, offset, leafAt_entry flagged_plain pte, Option.elim_some]

theorem clear_image {p : Nat} (dense : Dense m role d (k + 2) (k + 2))
    (is : word m (pteAddr (word m d (k / 512))) (k % 512) = entry p allFlags)
    (image : Image m d plain (k + 2) img) :
    Image (m.setWord (pteAddr (word m d (k / 512))) (k % 512) (entry p (pteW ||| pteP))) d
      (guarded k) (k + 2) img := by
  have bound := dense.bound
  have table : role (pteAddr (word m d (k / 512))) = .table d (k / 512) :=
    table_of_dense dense (by omega)
  have isPresent : ∀ j < k + 2, present (word m d (j / 512)) = true :=
    fun j inside => (dense.tables _ (by omega)).2 (by omega)
  obtain ⟨p', pte, -⟩ := image k (by omega)
  have same : p' = p := by
    have entries := (pteAt_some pte).2
    rw [is] at entries
    have pages := congrArg pteAddr entries
    rw [plain, pteAddr_entry (by decide), pteAddr_entry (by decide)] at pages
    exact pages.symm
  subst same
  have leaf := role_entry dense.roles dense.dir flagged_plain (by omega) pte
  have high := (dense.roles.range p' (by simp [leaf])).2
  generalize next_ : m.setWord (pteAddr (word m d (k / 512))) (k % 512) (entry p' (pteW ||| pteP)) =
    next
  have read : ∀ q j, word next q j = if q = pteAddr (word m d (k / 512)) ∧ j = k % 512 then
      entry p' (pteW ||| pteP) else word m q j := by
    intro q j
    rw [← next_]
    exact word_setWord (Nat.mod_lt _ (by decide)) (entry_lt (by decide) high)
  have top : ∀ i, word next d i = word m d i := by
    intro i
    rw [read, if_neg]
    rintro ⟨isTable, -⟩
    rw [← isTable, dense.dir] at table
    cases table
  intro j inside
  obtain ⟨q, pte', shown⟩ := image j inside
  have leaf' := role_entry dense.roles dense.dir flagged_plain (by omega) pte'
  refine ⟨q, ?_, ?_⟩
  · rw [pteAt, tableAt, top, if_pos (isPresent j inside), Option.map_some, read]
    by_cases here : j = k
    · subst here
      have unique := leaf_unique dense.roles leaf leaf'
      rw [if_pos ⟨rfl, rfl⟩, guarded, if_pos rfl, unique]
    · rw [if_neg, guarded, if_neg here, (pteAt_some pte').2]
      · rfl
      · rintro ⟨isTable, index⟩
        have theirs := table_of_dense dense inside
        rw [isTable, table, Role.table.injEq] at theirs
        omega
  · have apart : q ≠ pteAddr (word m d (k / 512)) := by
      rintro rfl
      rw [table] at leaf'
      cases leaf'
    have content : next.page q = m.page q := by
      rw [← next_]
      exact if_neg apart
    rw [content]
    exact shown

/-- The new stack with the strings on it. -/
structure Built (plan : Plan) (m : Memory) (role : Nat → Role) (d : Nat)
    (argv : List (List UInt8)) (next : Memory) (sz sp : Nat) (addresses : List Nat) : Prop where
  size : sz = (plan.mapped + 2) * pgsize
  pointer : Pointer plan.mapped sp
  length : addresses.length = argv.length
  few : argv.length ≤ maxarg
  whole : stackLost plan = false
  stacked : ∃ role', Stacked next role' d plan.mapped true ∧ Local d role role' ∧
    ∀ q i j, role' q = .leaf d i j → 512 * i + j < plan.mapped + 2
  image : ∃ after, allocuvm d (pages plan.size * pgsize) (pages plan.size * pgsize + 2 * pgsize) m =
      (.done (pages plan.size * pgsize + 2 * pgsize) after, []) ∧
    (∃ img, Image after d plain (plan.mapped + 2) img) ∧
    ∀ img, Image after d plain (plan.mapped + 2) img →
      Image next d (guarded plan.mapped) (plan.mapped + 2) (strings img argv addresses)

theorem buildStack_push {size : Nat} {after cleared : Memory} (small : size + 2 * pgsize < 2 ^ 31)
    (grown : allocuvm d size (size + 2 * pgsize) m = (.done (size + 2 * pgsize) after, []))
    (clear : clearpteu d size after = (.done () cleared, [])) :
    buildStack d size argv m = (pushArgs d 0 (size + 2 * pgsize) argv >>= fun result =>
      pure (result.map fun (sp, addresses) => (size + 2 * pgsize, sp, addresses))) cleared := by
  have extended : signExtend (size + 2 * pgsize) = size + 2 * pgsize := if_pos small
  have zero : size + 2 * pgsize ≠ 0 := by
    simp only [pgsize]
    omega
  rw [buildStack, Nat.mod_eq_of_lt (by omega : size < 2 ^ 32),
    Nat.mod_eq_of_lt (by omega : size + 2 * pgsize < 2 ^ 32), bind_quiet grown, if_neg zero]
  simp only [extended, Nat.add_sub_cancel]
  rw [bind_quiet clear]
  refine congrArg (fun later => (pushArgs d 0 (size + 2 * pgsize) argv >>= later) cleared)
    (funext fun result => ?_)
  cases result <;> rfl

/-- The two stack pages as far as memory lasts, the first of them inaccessible. -/
structure Opened (plan : Plan) (m : Memory) (role : Nat → Role) (d n : Nat) (after cleared : Memory)
    (role' : Nat → Role) : Prop where
  small : pages plan.size * pgsize + 2 * pgsize < 2 ^ 31
  top : (plan.mapped + 2) * pgsize = pages plan.size * pgsize + 2 * pgsize
  grown : allocuvm d (pages plan.size * pgsize) (pages plan.size * pgsize + 2 * pgsize) m =
    (.done (pages plan.size * pgsize + 2 * pgsize) after, [])
  clear : clearpteu d (pages plan.size * pgsize) after = (.done () cleared, [])
  dense : Dense after role' d n n
  stacked : Stacked cleared role' d plan.mapped (decide (n = plan.mapped + 2))
  guard : ∃ p, word after (pteAddr (word after d (plan.mapped / 512))) (plan.mapped % 512) =
      entry p allFlags ∧
    cleared = after.setWord (pteAddr (word after d (plan.mapped / 512))) (plan.mapped % 512)
      (entry p (pteW ||| pteP))
  change : Local d role role'
  fixed : Fixed m cleared
  spared : Spared m cleared role d

theorem holds_rounded (holds : Holds plan m role d) :
    Holds { plan with size := pages plan.size * pgsize } m role d := by
  have same : pages (pages plan.size * pgsize) = pages plan.size := by
    simp only [pages, pgsize]
    omega
  exact ⟨holds.filled, by rw [same]; exact holds.size⟩

theorem opened_run (holds : Holds plan m role d)
    (grown : growLoop 2 plan.mapped plan.free = some (n, f)) :
    ∃ after cleared role', Opened plan m role d n after cleared role' := by
  obtain ⟨bound, alloc⟩ := stackPages_run (holds_rounded holds) (Nat.mul_mod_left ..)
  dsimp only at bound alloc
  rw [grown] at alloc
  obtain ⟨after, role', run, filled, change, fixed, whole, last, edge⟩ := alloc
  obtain ⟨cleared, clear, stacked, fixed', p, is, isCleared⟩ := clearpteu_run filled.dense
    (le_trans (Nat.le_add_right n f) filled.total) last edge
  obtain ⟨-, -, -, -, spared⟩ :=
    reached_run (allocuvm_spares holds.filled.dense.roles holds.filled.dense.dir) run
  have spared' := reached_run (clearpteu_spared filled.dense.roles filled.dense.dir) clear
  refine ⟨after, cleared, role', ?_, ?_, run, by rw [whole]; exact clear, filled.dense, stacked,
    ⟨p, is, isCleared⟩, change, fixed_trans fixed fixed',
    spared_trans change spared spared'⟩
  · omega
  · rw [whole, Nat.add_mul]

section Opened
variable {after cleared : Memory} {role' : Nat → Role}

theorem opened_pointer : Pointer k ((k + 2) * pgsize) := by
  constructor <;> simp only [pgsize] <;> omega

theorem opened_push (opened : Opened plan m role d n after cleared role') :
    buildStack d (pages plan.size * pgsize) argv m =
      (pushArgs d 0 ((plan.mapped + 2) * pgsize) argv >>= fun result =>
        pure (result.map fun (sp, addresses) => ((plan.mapped + 2) * pgsize, sp, addresses)))
        cleared := by
  rw [opened.top]
  exact buildStack_push opened.small opened.grown opened.clear

theorem opened_build {result : Option (Nat × List Nat)} {trace : List Event}
    (opened : Opened plan m role d n after cleared role')
    (pushed : pushArgs d 0 ((plan.mapped + 2) * pgsize) argv cleared = (.done result next, trace)) :
    buildStack d (pages plan.size * pgsize) argv m = (.done (result.map fun (sp, addresses) =>
      ((plan.mapped + 2) * pgsize, sp, addresses)) next, trace) := by
  rw [opened_push opened, bind_done pushed]
  simp [pure_run]

theorem opened_spares (opened : Opened plan m role d n after cleared role')
    (spares : Spares cleared role' d next) : Spares m role d next :=
  spares_trans opened.change opened.fixed opened.spared spares

theorem opened_whole (opened : Opened plan m role d n after cleared role')
    (isWhole : n = plan.mapped + 2) (lost : stackLost plan = false)
    (short : ∀ arg ∈ argv, arg.length + 1 ≤ physPages * pgsize)
    (fits : ArgsFit ((plan.mapped + 1) * pgsize) true ((plan.mapped + 2) * pgsize)
      (argv.take maxarg)) :
    ∃ next trace, buildStack d (pages plan.size * pgsize) argv m =
        (.done ((place ((plan.mapped + 1) * pgsize) 0 ((plan.mapped + 2) * pgsize) argv).map
          fun (sp, addresses) => ((plan.mapped + 2) * pgsize, sp, addresses)) next, trace) ∧
      Sound trace ∧ Spares m role d next ∧
      ∀ sp addresses,
        place ((plan.mapped + 1) * pgsize) 0 ((plan.mapped + 2) * pgsize) argv =
          some (sp, addresses) →
        Built plan m role d argv next ((plan.mapped + 2) * pgsize) sp addresses := by
  have stacked := opened.stacked
  have dense := opened.dense
  rw [decide_eq_true isWhole] at stacked
  rw [isWhole] at dense
  obtain ⟨p, is, isCleared⟩ := opened.guard
  -- What pushArgs does, from any bytes in the new pages.
  have push : ∀ img, Image after d plain (plan.mapped + 2) img → ∃ next trace, _ :=
    fun img image => pushArgs_place stacked opened_pointer (Nat.zero_le _) short fits
      (isCleared ▸ clear_image dense is image)
  obtain ⟨img, image⟩ := dense_image dense
  obtain ⟨next, trace, pushed, sound, stacked', -, placed⟩ := push img image
  refine ⟨next, trace, opened_build opened pushed, sound, opened_spares opened
    (reached_sound (pushArgs_spares stacked.roles stacked.dir) pushed sound), ?_⟩
  intro sp addresses found
  obtain ⟨pointer', length, few, -⟩ := placed sp addresses found
  refine ⟨rfl, pointer', length, by omega, lost, ⟨role', stacked', opened.change, dense.below⟩,
    after, opened.grown, ⟨img, image⟩, fun img' image' => ?_⟩
  obtain ⟨next', trace', pushed', -, -, -, placed'⟩ := push img' image'
  rw [pushed] at pushed'
  cases pushed'
  exact (placed' sp addresses found).2.2.2

theorem opened_lost {arg : List UInt8} (opened : Opened plan m role d n after cleared role')
    (lost : n ≠ plan.mapped + 2) (short : arg.length + 1 ≤ physPages * pgsize)
    (fits : ArgsFit ((plan.mapped + 1) * pgsize) false ((plan.mapped + 2) * pgsize)
      (arg :: argv)) {rest : List (List UInt8)} :
    ∃ next trace, buildStack d (pages plan.size * pgsize) (arg :: rest) m =
      (.done none next, trace) ∧ Sound trace ∧ Spares m role d next := by
  have stacked := opened.stacked
  rw [decide_eq_false lost] at stacked
  obtain ⟨fit, low | ⟨missing, -⟩⟩ := fits
  · have push : Copies _ _ _ (pushArgs d 0 ((plan.mapped + 2) * pgsize) (arg :: rest) cleared) :=
      pushArgs_short stacked opened_pointer (by decide) short
    obtain ⟨result, next, ran, sound, -, none, -⟩ := push.clean ⟨fit, .inl low⟩
    subst none
    have pushed : pushArgs d 0 ((plan.mapped + 2) * pgsize) (arg :: rest) cleared =
        (.done none next, _) := Prod.ext ran rfl
    exact ⟨next, _, opened_build opened pushed, sound, opened_spares opened
      (reached_sound (pushArgs_spares stacked.roles stacked.dir) pushed sound)⟩
  · cases missing

end Opened

theorem pgroundup_pages (holds : Holds plan m role d) :
    pgroundup plan.size = pages plan.size * pgsize :=
  pgroundup_eq (by have := holds_small holds; omega)

theorem stackLost_some (grown : growLoop 2 plan.mapped plan.free = some (n, f)) :
    stackLost plan = decide (n ≠ plan.mapped + 2) := by
  rw [stackLost, grown, Option.any_some]

theorem buildStack_none (holds : Holds plan m role d)
    (grown : growLoop 2 plan.mapped plan.free = none) :
    ∃ next, buildStack d (pages plan.size * pgsize) argv m = (.done none next, []) ∧
      Spares m role d next := by
  obtain ⟨bound, alloc⟩ := stackPages_run (holds_rounded holds) (Nat.mul_mod_left ..)
  dsimp only at bound alloc
  rw [grown] at alloc
  obtain ⟨next, run, -⟩ := alloc
  refine ⟨next, ?_, reached_run (allocuvm_spares holds.filled.dense.roles
    holds.filled.dense.dir) run⟩
  rw [buildStack, Nat.mod_eq_of_lt (by omega), Nat.mod_eq_of_lt (by omega)]
  exact bind_quiet run

theorem buildStack_run (holds : Holds plan m role d)
    (short : ∀ arg ∈ argv, arg.length + 1 ≤ physPages * pgsize)
    (fits : StackFits plan (argv.take maxarg)) :
    ∃ next trace, buildStack d (pgroundup plan.size) argv m =
        (.done (built plan argv) next, trace) ∧ Sound trace ∧ Spares m role d next ∧
      ∀ sz sp addresses, built plan argv = some (sz, sp, addresses) →
        Built plan m role d argv next sz sp addresses := by
  rw [pgroundup_pages holds, built]
  rw [StackFits] at fits
  cases grown : growLoop 2 plan.mapped plan.free with
  | none =>
    obtain ⟨next, run, spares⟩ := buildStack_none holds grown
    exact ⟨next, [], run, sound_nil, spares, by rintro sz sp addresses ⟨⟩⟩
  | some pair =>
    obtain ⟨n, f⟩ := pair
    rw [grown] at fits
    dsimp only at fits
    obtain ⟨after, cleared, role', opened⟩ := opened_run holds grown
    have lost := stackLost_some grown
    rw [Option.bind_some]
    dsimp only
    by_cases stack : n = plan.mapped + 2
    · rw [decide_eq_true stack] at fits
      rw [decide_eq_false (not_not.2 stack)] at lost
      rw [if_pos stack]
      obtain ⟨next, trace, run, sound, spares, placed⟩ :=
        opened_whole opened stack lost short fits
      refine ⟨next, trace, run, sound, spares, fun sz sp addresses isBuilt => ?_⟩
      obtain ⟨⟨sp', addresses'⟩, found, is⟩ := Option.map_eq_some_iff.1 isBuilt
      cases is
      exact placed sp' addresses' found
    · rw [decide_eq_false stack] at fits
      rw [if_neg stack]
      cases argv with
      | nil => cases fits
      | cons arg rest =>
        rw [if_neg (List.cons_ne_nil arg rest)]
        obtain ⟨next, trace, run, sound, spares⟩ :=
          opened_lost opened stack (short arg List.mem_cons_self) fits
        exact ⟨next, trace, run, sound, spares, by rintro sz sp addresses ⟨⟩⟩

end Build

end Xv6.ArgumentStack
