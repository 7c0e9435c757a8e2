import Xv6.GrowProc

/-! deallocuvm page by page, and what growproc makes of it. The plain loop visits every
page of the range; the loop of the source jumps over the rest of an absent page table
from wherever it stands. The two agree as long as nothing is mapped above an absent page
table that the walk can meet. -/
namespace Xv6.Shrinking
open TraceMonad BitField Vm VmSpec PageTables AddressSpaces ExecPlan Growth Allocation GrowProc

/-- What deallocuvm does with the page at a. -/
def visit (pgdir a : Nat) : VmM Unit := do
  match ← walkpgdir pgdir a false with
  | none => pure ()
  | some (pgtab, i) => do
    let pte ← load .deallocuvm pgtab i
    whenever (present pte) do
      let page := pteAddr pte
      whenever (page = 0) (halt .kfree)
      kfree page
      store .deallocuvm pgtab i 0

/-- The loop without the jump. -/
def plainLoop (pgdir oldsz : Nat) : (fuel a : Nat) → VmM Unit
  | 0, _ => pure ()
  | fuel + 1, a =>
    if oldsz ≤ a then pure () else do
    visit pgdir a
    plainLoop pgdir oldsz fuel (a + pgsize)

def plainDealloc (pgdir oldsz newsz : Nat) : VmM Nat :=
  if oldsz ≤ newsz then pure oldsz else do
  let a := pgroundup newsz
  plainLoop pgdir oldsz ((oldsz - a + (pgsize - 1)) / pgsize) a
  pure newsz

section Page
variable {m next last : Memory} {role : Nat → Role} {d k l lo hi oldsz newsz fuel p q : Nat}

/-- The page table of page k. -/
def tablePage (m : Memory) (d k : Nat) : Nat := pteAddr (word m d (k / 512))

/-- The memory after page k is unmapped and freed. -/
def unmapped (m : Memory) (d k : Nat) : Memory :=
  freed (m.setWord (tablePage m d k) (k % 512) 0) (pteAddr (word m (tablePage m d k) (k % 512)))

theorem pteAt_eq : pteAt m d k =
    if present (word m d (k / 512)) then some (word m (tablePage m d k) (k % 512)) else none := by
  unfold pteAt tableAt tablePage
  cases present (word m d (k / 512)) <;> rfl

/-- A page that is mapped, with its place in the forest. -/
structure At (m : Memory) (role : Nat → Role) (d k p : Nat) : Prop where
  isPresent : present (word m d (k / 512)) = true
  table : role (tablePage m d k) = .table d (k / 512)
  near : tablePage m d k < linearPages
  full : present (word m (tablePage m d k) (k % 512)) = true
  page : pteAddr (word m (tablePage m d k) (k % 512)) = p
  leaf : role p = .leaf d (k / 512) (k % 512)
  low : m.kend ≤ p
  high : p < physPages

theorem at_of_leafAt (roles : Roles m role) (dir : role d = .dir) (low : k < 510 * 512)
    (mapped : leafAt m d k = some p) : At m role d k p := by
  rw [leafAt, pteAt_eq] at mapped
  by_cases isPresent : present (word m d (k / 512)) = true
  · obtain ⟨table, near⟩ := table_inside roles dir (by omega : k / 512 < 510) isPresent
    by_cases full : present (word m (tablePage m d k) (k % 512)) = true
    · have page : pteAddr (word m (tablePage m d k) (k % 512)) = p := by
        simpa [isPresent, full] using mapped
      have leaf := role_of_pte roles table (Nat.mod_lt _ (by decide)) full
      rw [← tablePage, page] at leaf
      obtain ⟨atLeast, below⟩ := roles.range p (by simp [leaf])
      exact ⟨isPresent, table, near, full, page, leaf, atLeast, below⟩
    · simp [isPresent, full] at mapped
  · simp [isPresent] at mapped

theorem leafAt_of_leaf {i j : Nat} (roles : Roles m role) (leaf : role p = .leaf d i j) :
    512 * i + j < 510 * 512 ∧ leafAt m d (512 * i + j) = some p := by
  obtain ⟨t, table, small, -, -⟩ := pte_of_role roles leaf
  obtain ⟨dir, low, -, -⟩ := pde_of_role roles table
  refine ⟨by omega, (leafAt_iff roles dir (by omega)).2 ?_⟩
  rw [leaf, show (512 * i + j) / 512 = i by omega, show (512 * i + j) % 512 = j by omega]

theorem table_ne_page (here : At m role d k p) : tablePage m d k ≠ p := by
  intro same
  have table := here.table
  rw [same, here.leaf] at table
  cases table

theorem unmapped_eq (here : At m role d k p) :
    unmapped m d k = freed (m.setWord (tablePage m d k) (k % 512) 0) p := by
  rw [unmapped, here.page]

theorem roles_unmapped (roles : Roles m role) (here : At m role d k p) :
    Roles (unmapped m d k) (Function.update role p .free) := by
  have given := roles_give (roles_detachLeaf roles here.leaf here.table) (Function.update_self ..)
  rwa [Function.update_idem, ← unmapped_eq here] at given

theorem dir_unmapped (dir : role d = .dir) (here : At m role d k p) :
    Function.update role p .free d = .dir := by
  rw [Function.update_of_ne, dir]
  rintro rfl
  have leaf := here.leaf
  rw [dir] at leaf
  cases leaf

theorem word_unmapped (here : At m role d k p) (other : q ≠ p) (j : Nat) :
    word (unmapped m d k) q j =
      if q = tablePage m d k ∧ j = k % 512 then 0 else word m q j := by
  rw [unmapped_eq here]
  refine (word_setPage_other other).trans ?_
  exact word_setWord (Nat.mod_lt _ (by decide)) (by decide)

theorem page_unmapped (here : At m role d k p) (other : q ≠ p) (notTable : q ≠ tablePage m d k) :
    (unmapped m d k).page q = m.page q := by
  rw [unmapped_eq here]
  simp [freed, Memory.setWord, Memory.setPage, other, notTable]

theorem pde_unmapped (dir : role d = .dir) (here : At m role d k p) (i : Nat) :
    word (unmapped m d k) d i = word m d i := by
  have other : d ≠ p := by
    rintro rfl
    have leaf := here.leaf
    rw [dir] at leaf
    cases leaf
  rw [word_unmapped here other, if_neg]
  rintro ⟨same, -⟩
  have table := here.table
  rw [← same, dir] at table
  cases table

theorem tablePage_unmapped (dir : role d = .dir) (here : At m role d k p) :
    tablePage (unmapped m d k) d l = tablePage m d l := by
  rw [tablePage, pde_unmapped dir here, tablePage]

theorem pteAt_unmapped (roles : Roles m role) (dir : role d = .dir) (here : At m role d k p)
    (low : l < 510 * 512) :
    pteAt (unmapped m d k) d l = if l = k then some 0 else pteAt m d l := by
  rw [pteAt_eq, pteAt_eq, pde_unmapped dir here, tablePage_unmapped dir here]
  by_cases isPresent : present (word m d (l / 512)) = true
  · have table : role (tablePage m d l) = .table d (l / 512) :=
      role_of_pde roles dir (by omega) isPresent
    have other : tablePage m d l ≠ p := by
      intro same
      rw [same, here.leaf] at table
      cases table
    rw [word_unmapped here other, if_pos isPresent]
    by_cases same : l = k
    · subst same
      simp
    · have apart : ¬ (tablePage m d l = tablePage m d k ∧ l % 512 = k % 512) := by
        rintro ⟨tables, slots⟩
        rw [tables, here.table, Role.table.injEq] at table
        omega
      simp [same, apart, isPresent]
  · have other : l ≠ k := by
      rintro rfl
      exact isPresent here.isPresent
    simp [isPresent, other]

theorem leafAt_unmapped (roles : Roles m role) (dir : role d = .dir) (here : At m role d k p)
    (low : l < 510 * 512) :
    leafAt (unmapped m d k) d l = if l = k then none else leafAt m d l := by
  rw [leafAt, pteAt_unmapped roles dir here low]
  by_cases same : l = k
  · simp [same, present]
  · simp [same, leafAt]

/-! One round of either loop. -/

theorem visit_leaf (positive : 0 < m.kend) (low : k < 510 * 512) (here : At m role d k p) :
    visit d (k * pgsize) m = (.done () (unmapped m d k), []) := by
  have isPresent : present (word m d (pdx (k * pgsize))) = true := by
    rw [pdx_page low]
    exact here.isPresent
  have nonzero : p ≠ 0 := by
    have := here.low
    omega
  rw [visit, bind_run, walk_present isPresent, pdx_page low, ptx_page, ← tablePage, unmapped_eq here]
  simp [bind_run, load_run here.near, whenever, here.full, pure_run, here.page, nonzero,
    kfree_run here.low here.high, store_run here.near, freed_setWord (table_ne_page here)]

theorem visit_blank (roles : Roles m role) (dir : role d = .dir) (low : k < 510 * 512)
    (absent : leafAt m d k = none) : visit d (k * pgsize) m = (.done () m, []) := by
  rw [leafAt, pteAt_eq] at absent
  by_cases isPresent : present (word m d (k / 512)) = true
  · have near := (table_inside roles dir (by omega : k / 512 < 510) isPresent).2
    rw [visit, bind_run, walk_present (by rw [pdx_page low]; exact isPresent), pdx_page low, ptx_page]
    simp only [isPresent, if_true, Option.bind_some, ite_eq_right_iff, reduceCtorEq, imp_false,
      tablePage] at absent
    simp [bind_run, load_run near, whenever, absent, pure_run]
  · rw [visit, bind_run, walk_absent (by rw [pdx_page low]; simpa using isPresent)]
    rfl

theorem plain_done (finished : oldsz ≤ k) : plainLoop d oldsz fuel k m = (.done () m, []) := by
  cases fuel with
  | zero => rfl
  | succ fuel =>
    rw [plainLoop, if_pos finished]
    rfl

theorem plain_round (more : k * pgsize < oldsz)
    (run : visit d (k * pgsize) m = (.done () next, [])) :
    plainLoop d oldsz (fuel + 1) (k * pgsize) m = plainLoop d oldsz fuel ((k + 1) * pgsize) next := by
  rw [plainLoop, if_neg (by omega), bind_quiet run, Nat.add_mul, Nat.one_mul]

theorem dealloc_round_leaf (positive : 0 < m.kend) (low : k < 510 * 512) (more : k * pgsize < oldsz)
    (here : At m role d k p) :
    deallocLoop d oldsz (fuel + 1) (k * pgsize) m =
      deallocLoop d oldsz fuel ((k + 1) * pgsize) (unmapped m d k) := by
  have atTable : pteAddr (word m d (pdx (k * pgsize))) = tablePage m d k := by
    rw [pdx_page low, tablePage]
  rw [dealloc_leaf more (by rw [pdx_page low]; exact here.isPresent) (by rw [atTable]; exact here.near)
    (by rw [atTable, ptx_page]; exact here.full) (by rw [atTable, ptx_page]; exact here.page)
    here.low positive here.high (by rw [atTable]; exact table_ne_page here), atTable, ptx_page,
    Nat.add_mul, Nat.one_mul, unmapped_eq here]

theorem dealloc_round_blank (roles : Roles m role) (dir : role d = .dir) (low : k < 510 * 512)
    (more : k * pgsize < oldsz) (isPresent : present (word m d (k / 512)) = true)
    (absent : leafAt m d k = none) :
    deallocLoop d oldsz (fuel + 1) (k * pgsize) m = deallocLoop d oldsz fuel ((k + 1) * pgsize) m := by
  have near := (table_inside roles dir (by omega : k / 512 < 510) isPresent).2
  rw [leafAt, pteAt_eq] at absent
  simp only [isPresent, if_true, Option.bind_some, ite_eq_right_iff, reduceCtorEq, imp_false,
    tablePage, Bool.not_eq_true] at absent
  rw [dealloc_blank more (by rw [pdx_page low]; exact isPresent) (by rw [pdx_page low]; exact near)
    (by rw [pdx_page low, ptx_page]; exact absent), Nat.add_mul, Nat.one_mul]

end Page

/-! The whole range. -/

section Range
variable {m next last : Memory} {role : Nat → Role} {d k lo hi oldsz newsz fuel p q : Nat}

/-- The pages mapped from page lo on and below page hi, in the order of their addresses. -/
def mappedBetween (m : Memory) (d lo hi : Nat) : List Nat :=
  (List.range' lo (hi - lo)).filterMap (leafAt m d)

/-- The pages from lo on and below hi are unmapped and freed, each once, and nothing else
changes. -/
structure Cleared (m next : Memory) (d lo hi : Nat) : Prop where
  directory : ∀ i, word next d i = word m d i
  gone : ∀ k < 510 * 512, lo ≤ k → k < hi → (leafAt m d k).isSome → pteAt next d k = some 0
  others : ∀ k < 510 * 512, ¬ (lo ≤ k ∧ k < hi ∧ (leafAt m d k).isSome) →
    pteAt next d k = pteAt m d k
  freelist : next.freelist = (mappedBetween m d lo hi).reverse ++ m.freelist
  nodup : next.freelist.Nodup
  pages : ∀ q, q ∉ mappedBetween m d lo hi → (∀ i < 510, tableAt m d i ≠ some q) →
    next.page q = m.page q
  fixed : Fixed m next

theorem mem_mappedBetween : q ∈ mappedBetween m d lo hi ↔
    ∃ k, lo ≤ k ∧ k < hi ∧ leafAt m d k = some q := by
  simp only [mappedBetween, List.mem_filterMap, List.mem_range'_1]
  constructor
  · rintro ⟨k, inside, mapped⟩
    exact ⟨k, by omega, by omega, mapped⟩
  · rintro ⟨k, atLeast, below, mapped⟩
    exact ⟨k, by omega, mapped⟩

theorem mappedBetween_cons (less : lo < hi) :
    mappedBetween m d lo hi = (leafAt m d lo).toList ++ mappedBetween m d (lo + 1) hi := by
  rw [mappedBetween, mappedBetween, show hi - lo = hi - (lo + 1) + 1 by omega, List.range'_succ,
    List.filterMap_cons]
  cases leafAt m d lo <;> rfl

theorem cleared_refl (roles : Roles m role)
    (absent : ∀ k < 510 * 512, lo ≤ k → k < hi → leafAt m d k = none) (bound : hi ≤ 510 * 512) :
    Cleared m m d lo hi := by
  have empty : mappedBetween m d lo hi = [] := by
    rw [List.eq_nil_iff_forall_not_mem]
    intro q member
    obtain ⟨k, atLeast, below, mapped⟩ := mem_mappedBetween.1 member
    rw [absent k (by omega) atLeast below] at mapped
    cases mapped
  refine ⟨fun _ => rfl, ?_, fun _ _ _ => rfl, by rw [empty]; rfl, roles.nodup, fun _ _ _ => rfl,
    fixed_refl m⟩
  intro k low atLeast below mapped
  rw [absent k low atLeast below] at mapped
  cases mapped

theorem cleared_skip (absent : leafAt m d lo = none) (cleared : Cleared m next d (lo + 1) hi) :
    Cleared m next d lo hi := by
  have same : mappedBetween m d lo hi = mappedBetween m d (lo + 1) hi := by
    by_cases less : lo < hi
    · rw [mappedBetween_cons less, absent]
      rfl
    · rw [mappedBetween, mappedBetween, show hi - lo = 0 by omega, show hi - (lo + 1) = 0 by omega]
      rfl
  have later : ∀ k, (leafAt m d k).isSome → lo ≤ k → lo + 1 ≤ k := by
    intro k mapped atLeast
    rcases Nat.eq_or_lt_of_le atLeast with rfl | more
    · rw [absent] at mapped
      cases mapped
    · exact more
  refine ⟨cleared.directory, ?_, ?_, by rw [same]; exact cleared.freelist, cleared.nodup,
    by rw [same]; exact cleared.pages, cleared.fixed⟩
  · intro k low atLeast below mapped
    exact cleared.gone k low (later k mapped atLeast) below mapped
  · intro k low outside
    exact cleared.others k low fun ⟨atLeast, rest⟩ => outside ⟨by omega, rest⟩

theorem cleared_step (roles : Roles m role) (dir : role d = .dir) (bound : hi ≤ 510 * 512)
    (less : lo < hi) (mapped : leafAt m d lo = some p)
    (cleared : Cleared (unmapped m d lo) last d (lo + 1) hi) : Cleared m last d lo hi := by
  have here := at_of_leafAt roles dir (by omega) mapped
  have leaves : ∀ {k : Nat}, k < 510 * 512 → k ≠ lo →
      leafAt (unmapped m d lo) d k = leafAt m d k := by
    intro k low other
    rw [leafAt_unmapped roles dir here low, if_neg other]
  have tail : mappedBetween (unmapped m d lo) d (lo + 1) hi = mappedBetween m d (lo + 1) hi := by
    refine List.filterMap_congr fun k member => ?_
    rw [List.mem_range'_1] at member
    exact leaves (by omega) (by omega)
  have split : mappedBetween m d lo hi = p :: mappedBetween m d (lo + 1) hi := by
    rw [mappedBetween_cons less, mapped]
    rfl
  have ptes : ∀ {k : Nat}, k < 510 * 512 →
      pteAt (unmapped m d lo) d k = if k = lo then some 0 else pteAt m d k :=
    pteAt_unmapped roles dir here
  refine ⟨?_, ?_, ?_, ?_, cleared.nodup, ?_, fixed_trans ?_ cleared.fixed⟩
  · intro i
    rw [cleared.directory, pde_unmapped dir here]
  · intro k low atLeast below was
    by_cases first : k = lo
    · subst first
      rw [cleared.others k low (by omega), ptes low, if_pos rfl]
    · exact cleared.gone k low (by omega) below (by rw [leaves low first]; exact was)
  · intro k low outside
    have other : k ≠ lo := by
      rintro rfl
      exact outside ⟨le_refl _, less, by rw [mapped]; rfl⟩
    rw [cleared.others k low, ptes low, if_neg other]
    rintro ⟨atLeast, below, was⟩
    rw [leaves low other] at was
    exact outside ⟨by omega, below, was⟩
  · rw [cleared.freelist, tail, split, List.reverse_cons, List.append_assoc, unmapped_eq here]
    rfl
  · intro q outside notTable
    rw [split, List.mem_cons, not_or] at outside
    have notHere : q ≠ tablePage m d lo := by
      rintro rfl
      refine notTable (lo / 512) (by omega) ?_
      rw [tableAt, if_pos here.isPresent]
      rfl
    rw [cleared.pages q (by rw [tail]; exact outside.2), page_unmapped here outside.1 notHere]
    intro i low
    unfold tableAt
    rw [pde_unmapped dir here]
    exact notTable i low
  · rw [unmapped_eq here]
    exact ⟨rfl, rfl, rfl⟩

/-- Nothing is mapped from a page on whose page table is absent. -/
def Settled (m : Memory) (d lo hi : Nat) : Prop :=
  ∀ l, lo ≤ l → l < hi → present (word m d (l / 512)) = false →
    ∀ k < 510 * 512, l ≤ k → leafAt m d k = none

theorem settled_unmapped (roles : Roles m role) (dir : role d = .dir) (here : At m role d lo p)
    (settled : Settled m d lo hi) : Settled (unmapped m d lo) d (lo + 1) hi := by
  intro l atLeast below absent k low later
  rw [pde_unmapped dir here] at absent
  rw [leafAt_unmapped roles dir here low, settled l (by omega) below absent k low later]
  exact ite_self none

theorem plain_blank (roles : Roles m role) (dir : role d = .dir) (bound : pages oldsz ≤ 510 * 512)
    (absent : ∀ k < 510 * 512, lo ≤ k → leafAt m d k = none) :
    plainLoop d oldsz fuel (lo * pgsize) m = (.done () m, []) := by
  induction fuel generalizing lo with
  | zero => rfl
  | succ fuel ih =>
    by_cases finished : oldsz ≤ lo * pgsize
    · exact plain_done finished
    · have low : lo < 510 * 512 := by
        simp only [pages, pgsize] at *
        omega
      rw [plain_round (by omega) (visit_blank roles dir low (absent lo low (le_refl _)))]
      exact ih fun k small atLeast => absent k small (by omega)

theorem loops_clear (roles : Roles m role) (dir : role d = .dir) (bound : pages oldsz ≤ 510 * 512)
    (enough : pages oldsz ≤ lo + fuel) (settled : Settled m d lo (pages oldsz)) :
    ∃ next, deallocLoop d oldsz fuel (lo * pgsize) m = (.done () next, []) ∧
      plainLoop d oldsz fuel (lo * pgsize) m = (.done () next, []) ∧
      Cleared m next d lo (pages oldsz) := by
  induction fuel generalizing lo m role with
  | zero =>
    exact ⟨m, rfl, rfl, cleared_refl roles (fun k _ atLeast below => by omega) bound⟩
  | succ fuel ih =>
    by_cases finished : oldsz ≤ lo * pgsize
    · have past : pages oldsz ≤ lo := by
        simp only [pages, pgsize] at *
        omega
      exact ⟨m, dealloc_done finished, plain_done finished,
        cleared_refl roles (fun k _ atLeast below => by omega) bound⟩
    · have more : lo * pgsize < oldsz := by omega
      have less : lo < pages oldsz := by
        simp only [pages, pgsize] at *
        omega
      have low : lo < 510 * 512 := by omega
      by_cases isPresent : present (word m d (lo / 512)) = true
      · cases mapped : leafAt m d lo with
        | none =>
          obtain ⟨next, run, plain, cleared⟩ := ih roles dir
            (by omega : pages oldsz ≤ lo + 1 + fuel) fun l atLeast => settled l (by omega)
          refine ⟨next, ?_, ?_, cleared_skip mapped cleared⟩
          · rw [dealloc_round_blank roles dir low more isPresent mapped, run]
          · rw [plain_round more (visit_blank roles dir low mapped), plain]
        | some p =>
          have here := at_of_leafAt roles dir low mapped
          obtain ⟨next, run, plain, cleared⟩ := ih (roles_unmapped roles here)
            (dir_unmapped dir here) (by omega : pages oldsz ≤ lo + 1 + fuel)
            (settled_unmapped roles dir here settled)
          refine ⟨next, ?_, ?_, cleared_step roles dir bound less mapped cleared⟩
          · rw [dealloc_round_leaf roles.positive low more here, run]
          · rw [plain_round more (visit_leaf roles.positive low here), plain]
      · -- The jump lands anywhere in the page tables above, which are empty.
        have none := settled lo (le_refl _) less (by simpa using isPresent)
        refine ⟨m, ?_, plain_blank roles dir bound none,
          cleared_refl roles (fun k small atLeast _ => none k small atLeast) bound⟩
        refine deallocLoop_blank roles dir ?_ (Nat.mul_mod_left lo pgsize) ?_
        · intro q i j leaf
          obtain ⟨small, mapped⟩ := leafAt_of_leaf roles leaf
          refine Nat.mul_lt_mul_of_pos_right (Nat.lt_of_not_le fun late => ?_) (by decide)
          rw [none _ small late] at mapped
          cases mapped
        · simp only [pages] at bound
          omega

theorem leafAt_cleared (cleared : Cleared m next d lo hi) (low : k < 510 * 512) :
    leafAt next d k = if lo ≤ k ∧ k < hi then none else leafAt m d k := by
  by_cases inside : lo ≤ k ∧ k < hi
  · rw [if_pos inside]
    cases mapped : leafAt m d k with
    | none =>
      rw [leafAt, cleared.others k low (by simp [mapped]), ← leafAt, mapped]
    | some p =>
      rw [leafAt, cleared.gone k low inside.1 inside.2 (by simp [mapped])]
      simp [present]
  · rw [if_neg inside, leafAt, cleared.others k low (by tauto), ← leafAt]

theorem deallocuvm_clears (roles : Roles m role) (dir : role d = .dir)
    (bound : pages oldsz ≤ 510 * 512) (less : newsz < oldsz)
    (settled : Settled m d (pages newsz) (pages oldsz)) :
    ∃ next, deallocuvm d oldsz newsz m = (.done newsz next, []) ∧
      plainDealloc d oldsz newsz m = (.done newsz next, []) ∧
      Cleared m next d (pages newsz) (pages oldsz) := by
  have start : pgroundup newsz = pages newsz * pgsize := by
    rw [pgroundup_eq (by simp only [pages] at bound; omega)]
    rfl
  have enough : pages oldsz ≤
      pages newsz + (oldsz - pages newsz * pgsize + (pgsize - 1)) / pgsize := by
    simp only [pages, pgsize]
    omega
  obtain ⟨next, run, plain, cleared⟩ := loops_clear roles dir bound enough settled
  refine ⟨next, ?_, ?_, cleared⟩
  · rw [deallocuvm, if_neg (by omega), start, bind_quiet run]
    rfl
  · rw [plainDealloc, if_neg (by omega), start, bind_quiet plain]
    rfl

/-- When the mapped pages are exactly those below some bound, deallocuvm agrees with the
plain loop: it unmaps and frees every mapped page from PGROUNDUP(newsz) on below oldsz
once, and returns newsz. Page k stands at the address k * PGSIZE. -/
theorem deallocuvm_eq_plain {bound : Nat} (roles : Roles m role) (dir : role d = .dir)
    (exactly : ∀ k < 510 * 512, (leafAt m d k).isSome ↔ k < bound) (less : newsz < oldsz)
    (top : oldsz ≤ userTop) :
    deallocuvm d oldsz newsz m = plainDealloc d oldsz newsz m ∧
      ∃ next, deallocuvm d oldsz newsz m = (.done newsz next, []) ∧
        Cleared m next d (pages newsz) (pages oldsz) := by
  have small : pages oldsz ≤ 510 * 512 := by
    simp only [userTop, pages] at *
    omega
  have settled : Settled m d (pages newsz) (pages oldsz) := by
    intro l atLeast below absent k low later
    -- Page l is not mapped, so the mapped pages end at or below it.
    have notHere : ¬ l < bound := by
      rw [← exactly l (by omega), leafAt, pteAt_eq, absent]
      simp
    rw [← Option.not_isSome_iff_eq_none, exactly k low]
    omega
  obtain ⟨next, run, plain, cleared⟩ := deallocuvm_clears roles dir small less settled
  exact ⟨run.trans plain.symm, next, run, cleared⟩

end Range

theorem exactly_twoPages {final : Spaces} {role : Nat → Role}
    (process : Process final.mem role 102 8192) (first : (leafAt final.mem 102 0).isSome) :
    ∀ k < 510 * 512, (leafAt final.mem 102 k).isSome ↔ k < 2 := by
  intro k low
  constructor
  · intro mapped
    obtain ⟨p, found⟩ := Option.isSome_iff_exists.1 mapped
    have below := process.above p _ _ ((leafAt_iff process.roles process.dir low).1 found)
    simp only [pages] at below
    omega
  · intro early
    rcases (by omega : k = 0 ∨ k = 1) with rfl | rfl
    · exact first
    · obtain ⟨p, leaf⟩ := process.mapped 1 (by decide) (by decide)
      exact Option.isSome_iff_exists.2 ⟨p, (leafAt_iff process.roles process.dir low).2 leaf⟩

/-- From two pages to one. -/
theorem deallocuvm_eq_plain_page : ∃ final role,
    Transition.exec step tenPages [.setupkvm, .allocuvm 102 0 8192] = some final ∧
      Roles final.mem role ∧ role 102 = .dir ∧
      (∀ k < 510 * 512, (leafAt final.mem 102 k).isSome ↔ k < 2) ∧
      deallocuvm 102 8192 4096 final.mem = plainDealloc 102 8192 4096 final.mem := by
  obtain ⟨final, role, run, process, first⟩ := reach_process
    (P := fun final => (leafAt final.mem 102 0).isSome) (by decide +kernel)
  have exactly := exactly_twoPages process first
  exact ⟨final, role, run, process.roles, process.dir, exactly,
    (deallocuvm_eq_plain process.roles process.dir exactly (by decide) (by decide)).1⟩

/-! growproc with a negative increment. -/

section Shrink
variable {m next : Memory} {role : Nat → Role} {d sz : Nat} {n : Int}

/-- What growproc returns and the size it leaves in the process. -/
def outcome (sz : Nat) : Option Nat → Int × Nat
  | some size => (0, size)
  | none => (-1, sz)

/-- The law of sbrk with a negative increment: an n that the process can give back is
taken off its size and exactly the pages below the new size stay, unchanged; otherwise
the call fails; and a call that fails changes nothing. -/
structure Shrinks (m : Memory) (d sz : Nat) (n : Int) (result : Int × Nat) (next : Memory) : Prop where
  within : -n ≤ sz → result.1 = 0 ∧ (result.2 : Int) = sz + n ∧
    (∀ k < 510 * 512, (leafAt next d k).isSome ↔ k < pages (sz + n).toNat) ∧
    ∀ k < pages (sz + n).toNat, pteAt next d k = pteAt m d k ∧
      ∀ p, leafAt m d k = some p → next.page p = m.page p
  beyond : sz < -n → result.1 = -1
  failed : result.1 = -1 → result.2 = sz ∧ (∀ i, word next d i = word m d i) ∧
    ∀ k < 510 * 512, pteAt next d k = pteAt m d k

def Lawful (m : Memory) (d sz : Nat) (n : Int) : Prop :=
  ∃ result next, (growproc d sz n m).1 = .done result next ∧
    Shrinks m d sz n (outcome sz result) next

theorem growproc_negative {newsz result : Nat} (negative : n < 0)
    (is : ((sz + n) % 2 ^ 32).toNat = newsz)
    (run : deallocuvm d sz newsz m = (.done result next, [])) :
    (growproc d sz n m).1 = .done (if result = 0 then none else some result) next := by
  have erased : (Probe.deallocuvm d sz newsz m).1 = (deallocuvm d sz newsz m).1 :=
    Probe.deallocuvm_erases m
  rw [run] at erased
  rw [growproc, if_neg (by omega), if_pos negative, is, fst_bind, erased]
  rfl

theorem process_settled (process : Process m role d sz) (lo : Nat) : Settled m d lo (pages sz) := by
  intro l _ below absent k low later
  rw [Option.eq_none_iff_forall_ne_some]
  intro p mapped
  have leaf := (leafAt_iff process.roles process.dir low).1 mapped
  have inside := process.above p _ _ leaf
  have bound := process_bound process
  -- Page l or its successor is not the first of its page table, which would be there.
  have isThere : ∃ j, j < pages sz ∧ j / 512 = l / 512 ∧ (j = k ∨ j % 512 ≠ 0) := by
    by_cases same : k / 512 = l / 512
    · exact ⟨k, by omega, same, .inl rfl⟩
    · exact ⟨l / 512 * 512 + 511, by omega, by omega, .inr (by omega)⟩
  obtain ⟨j, small, same, which⟩ := isThere
  have there : ∃ q, role q = .leaf d (j / 512) (j % 512) := by
    rcases which with rfl | inner
    · exact ⟨p, leaf⟩
    · exact process.mapped j small inner
  obtain ⟨q, found⟩ := there
  obtain ⟨t, table, -, -, -⟩ := pte_of_role process.roles found
  have isPresent := (pde_of_role process.roles table).2.2.1
  rw [same, absent] at isPresent
  cases isPresent

theorem shrink_beyond (process : Process m role d sz) (low : -2 ^ 31 ≤ n) (more : sz < -n) :
    (growproc d sz n m).1 = .done (if sz = 0 then none else some sz) m := by
  have bound := process_bound process
  simp only [pages, physPages] at bound
  refine growproc_negative (by omega) rfl ?_
  rw [deallocuvm, if_pos (by omega)]
  rfl

theorem shrink_within (process : Process m role d sz) (negative : n < 0) (less : -n ≤ sz) :
    ∃ next, (growproc d sz n m).1 =
        .done (if (sz + n).toNat = 0 then none else some (sz + n).toNat) next ∧
      Cleared m next d (pages (sz + n).toNat) (pages sz) := by
  have bound := process_bound process
  simp only [physPages] at bound
  have small : sz < 2 ^ 31 := by
    simp only [pages] at bound
    omega
  obtain ⟨next, run, -, cleared⟩ := deallocuvm_clears process.roles process.dir (by omega)
    (by omega : (sz + n).toNat < sz) (process_settled process _)
  exact ⟨next, growproc_negative negative (by omega) run, cleared⟩

theorem leafAt_cut {newsz k : Nat} (process : Process m role d sz)
    (cleared : Cleared m next d (pages newsz) (pages sz)) (low : k < 510 * 512) :
    (leafAt next d k).isSome ↔ k < pages newsz ∧ (leafAt m d k).isSome := by
  rw [leafAt_cleared cleared low]
  by_cases inside : pages newsz ≤ k ∧ k < pages sz
  · rw [if_pos inside]
    simp only [Option.isSome_none, Bool.false_eq_true, false_iff]
    omega
  · rw [if_neg inside]
    refine ⟨fun mapped => ⟨?_, mapped⟩, fun kept => kept.2⟩
    obtain ⟨p, found⟩ := Option.isSome_iff_exists.1 mapped
    have below := process.above p _ _ ((leafAt_iff process.roles process.dir low).1 found)
    omega

theorem page_cut {newsz k p : Nat} (process : Process m role d sz)
    (cleared : Cleared m next d (pages newsz) (pages sz)) (low : k < 510 * 512)
    (kept : k < pages newsz) (mapped : leafAt m d k = some p) : next.page p = m.page p := by
  have leaf := (leafAt_iff process.roles process.dir low).1 mapped
  have bound := process_bound process
  simp only [physPages] at bound
  refine cleared.pages p (fun member => ?_) fun i small table => ?_
  · obtain ⟨j, atLeast, below, found⟩ := mem_mappedBetween.1 member
    have leaf' := (leafAt_iff process.roles process.dir (by omega)).1 found
    rw [leaf, Role.leaf.injEq] at leaf'
    omega
  · unfold tableAt at table
    by_cases isPresent : present (word m d i) = true
    · rw [if_pos isPresent, Option.some.injEq] at table
      have isTable := role_of_pde process.roles process.dir small isPresent
      rw [table, leaf] at isTable
      cases isTable
    · simp [isPresent] at table

theorem not_lawful_zero (process : Process m role d sz) (positive : sz ≠ 0) :
    ¬ Lawful m d sz (-sz) := by
  rintro ⟨result, next, run, law⟩
  obtain ⟨next', run', -⟩ := shrink_within process (by omega : -(sz : Int) < 0) (by omega)
  rw [if_pos (by omega), run] at run'
  cases run'
  cases (law.within (by omega)).1

/-- sbrk(n) with n < 0 keeps the law exactly when the process has no memory or keeps some,
and no page is missing in what it keeps. -/
theorem growproc_lawful_iff (process : Process m role d sz) (negative : n < 0) (low : -2 ^ 31 ≤ n) :
    Lawful m d sz n ↔
      sz = 0 ∨ -n < sz ∧ ∀ k < pages (sz + n).toNat, (leafAt m d k).isSome := by
  have bound := process_bound process
  simp only [physPages] at bound
  constructor
  · intro lawful
    by_cases zero : n = -sz
    · subst zero
      exact .inl (by_contra fun positive => not_lawful_zero process positive lawful)
    obtain ⟨result, next, run, law⟩ := lawful
    rcases Int.lt_or_le (sz : Int) (-n) with more | less
    · -- The old size comes back as a success, unless it is 0.
      rw [shrink_beyond process low more] at run
      by_contra other
      rw [not_or] at other
      rw [if_neg other.1] at run
      cases run
      cases law.beyond more
    · obtain ⟨next', run', cleared⟩ := shrink_within process negative less
      obtain ⟨-, -, present, -⟩ := law.within less
      rw [run', if_neg (by omega)] at run
      cases run
      refine .inr ⟨by omega, fun k small => ?_⟩
      have within : k < 510 * 512 := by
        simp only [pages] at bound small
        omega
      exact ((leafAt_cut process cleared within).1 ((present k within).2 small)).2
  · rintro (rfl | ⟨less, mapped⟩)
    · refine ⟨none, m, shrink_beyond process low (by omega), fun less => by omega, fun _ => rfl, ?_⟩
      exact fun _ => ⟨rfl, fun _ => rfl, fun _ _ => rfl⟩
    · obtain ⟨next, run, cleared⟩ := shrink_within process negative (by omega)
      rw [if_neg (by omega)] at run
      refine ⟨_, next, run, fun _ => ⟨rfl, ?_, fun k small => ?_, fun k kept => ?_⟩,
        fun more => by omega, fun failed => by cases failed⟩
      · simp only [outcome]
        omega
      · rw [leafAt_cut process cleared small]
        exact ⟨fun kept => kept.1, fun kept => ⟨kept, mapped k kept⟩⟩
      · have within : k < 510 * 512 := by
          simp only [pages] at bound kept
          omega
        refine ⟨cleared.others k within (by omega), fun p found => ?_⟩
        exact page_cut process cleared within kept found

end Shrink

/-- sbrk(-4096) of a process with two pages. -/
theorem growproc_lawful_page : ∃ final role,
    Transition.exec step tenPages [.setupkvm, .allocuvm 102 0 8192] = some final ∧
      Process final.mem role 102 8192 ∧ Lawful final.mem 102 8192 (-4096) := by
  obtain ⟨final, role, run, process, first⟩ := reach_process
    (P := fun final => (leafAt final.mem 102 0).isSome) (by decide +kernel)
  refine ⟨final, role, run, process, (growproc_lawful_iff process (by decide) (by decide)).2 ?_⟩
  refine .inr ⟨by decide, fun k kept => ?_⟩
  obtain rfl : k = 0 := by
    have one : pages ((8192 : Nat) + (-4096) : Int).toNat = 1 := by decide
    omega
  exact first

/-- sbrk(-8192) returns -1 after both pages were freed: the new size 0 is taken for
deallocuvm's failure. -/
theorem growproc_to_zero_fails : ∃ final role,
    Transition.exec step tenPages [.setupkvm, .allocuvm 102 0 8192] = some final ∧
      Process final.mem role 102 8192 ∧ ¬ Lawful final.mem 102 8192 (-8192) ∧
      (growproc 102 8192 (-8192) final.mem).1.passes (fun next => leafAt next 102 0 == none) = true := by
  obtain ⟨final, role, run, process, gone⟩ := reach_process
    (P := fun final => (growproc 102 8192 (-8192) final.mem).1.passes
      (fun next => leafAt next 102 0 == none) = true) (by decide +kernel)
  exact ⟨final, role, run, process, not_lawful_zero process (by decide), gone⟩

end Xv6.Shrinking
