import Xv6.VmSpec

/-! What the functions of vm.c do to the roles of the pages. -/
namespace Xv6.PageTables
open TraceMonad BitField Vm VmSpec RoleForest

section Runs
variable {m : Memory} {d a p t i rest page value : Nat} {access : Access}

theorem load_run (inside : page < linearPages) :
    load access page i m = (.done (word m page i) m, []) := by
  rw [load, if_neg (by omega)]
  rfl

theorem load_trap (outside : linearPages ≤ page) :
    load access page i m = (.halt (.trap access) m, []) := by
  rw [load, if_pos outside]
  rfl

theorem store_run (inside : page < linearPages) :
    store access page i value m = (.done () (m.setWord page i value), []) := by
  rw [store, if_neg (by omega)]
  rfl

theorem kalloc_nil (freelist : m.freelist = []) : kalloc m = (.done none m, []) := by
  simp [kalloc, bind_run, inspect, freelist, pure_run]

theorem kalloc_cons {rest : List Nat} (freelist : m.freelist = p :: rest) :
    kalloc m = (.done (some p) { m with freelist := rest }, []) := by
  simp [kalloc, bind_run, inspect, change, freelist, pure_run]

theorem kfree_run (low : m.kend ≤ p) (high : p < physPages) :
    kfree p m = (.done () (freed m p), []) := by
  simp [kfree, bind_run, inspect, setPage, change, show ¬ p < m.kend by omega,
    show ¬ physPages ≤ p by omega, freed]
  rfl

theorem walk_present {alloc : Bool} (isPresent : present (word m d (pdx a)) = true) :
    walkpgdir d a alloc m = (.done (some (pteAddr (word m d (pdx a)), ptx a)) m, []) := by
  simp [walkpgdir, bind_run, inspect, isPresent, pure_run]

theorem walk_absent (absent : present (word m d (pdx a)) = false) :
    walkpgdir d a false m = (.done none m, []) := by
  simp [walkpgdir, bind_run, inspect, absent, pure_run]

theorem walk_none (absent : present (word m d (pdx a)) = false) (freelist : m.freelist = []) :
    walkpgdir d a true m = (.done none m, []) := by
  simp [walkpgdir, bind_run, inspect, absent, pure_run, kalloc_nil freelist]

/-- A new page table for the directory entry i. -/
def addTable (m : Memory) (d i t : Nat) (rest : List Nat) : Memory :=
  (({ m with freelist := rest }).setPage t 0).setWord d i (entry t (pteP ||| pteW ||| pteU))

theorem walk_fresh {rest : List Nat} (absent : present (word m d (pdx a)) = false)
    (freelist : m.freelist = t :: rest) :
    walkpgdir d a true m = (.done (some (t, ptx a)) (addTable m d (pdx a) t rest), []) := by
  simp [walkpgdir, bind_run, inspect, absent, pure_run, kalloc_cons freelist, setPage, setWord,
    change, addTable]

theorem ptx_lt : ptx a < 512 := Nat.mod_lt _ (by decide)

theorem pdx_lt : pdx a < 512 := Nat.mod_lt _ (by decide)

theorem word_addTable_new {rest : List Nat} (apart : t ≠ d) (low : t < physPages) {j : Nat} :
    word (addTable m d (pdx a) t rest) t j = 0 := by
  rw [addTable, word_setWord pdx_lt (entry_lt (by decide) low), if_neg (by simp [apart])]
  exact word_setPage_zero

theorem mappages_one {perm : Nat} (aligned : a % pgsize = 0) :
    mappages d a pgsize p perm = mapFrom d perm 0 a p := by
  simp only [pgsize] at aligned
  have here : pgrounddown a = a := by
    simp only [pgrounddown, pgsize]
    omega
  have last : pgrounddown (a + pgsize - 1) = a := by
    simp only [pgrounddown, pgsize]
    omega
  rw [mappages, here, last, Nat.sub_self, Nat.zero_div]

theorem map_table {perm : Nat} (aligned : a % pgsize = 0)
    (isPresent : present (word m d (pdx a)) = true)
    (inside : pteAddr (word m d (pdx a)) < linearPages)
    (empty : present (word m (pteAddr (word m d (pdx a))) (ptx a)) = false) :
    mappages d a pgsize p perm m =
      (.done true (m.setWord (pteAddr (word m d (pdx a))) (ptx a) (entry p (perm ||| pteP))), []) := by
  rw [mappages_one aligned, mapFrom]
  simp [bind_run, walk_present isPresent, load_run inside, store_run inside, empty, pure_run]

theorem map_remap {perm : Nat} (aligned : a % pgsize = 0)
    (isPresent : present (word m d (pdx a)) = true)
    (inside : pteAddr (word m d (pdx a)) < linearPages)
    (full : present (word m (pteAddr (word m d (pdx a))) (ptx a)) = true) :
    mappages d a pgsize p perm m = (.halt .remap m, []) := by
  rw [mappages_one aligned, mapFrom]
  simp [bind_run, walk_present isPresent, load_run inside, full, halt]

theorem map_trap {perm : Nat} (aligned : a % pgsize = 0)
    (isPresent : present (word m d (pdx a)) = true)
    (outside : linearPages ≤ pteAddr (word m d (pdx a))) :
    mappages d a pgsize p perm m = (.halt (.trap .mappages) m, []) := by
  rw [mappages_one aligned, mapFrom]
  simp [bind_run, walk_present isPresent, load_trap outside]

theorem map_none {perm : Nat} (aligned : a % pgsize = 0)
    (absent : present (word m d (pdx a)) = false) (freelist : m.freelist = []) :
    mappages d a pgsize p perm m = (.done false m, []) := by
  rw [mappages_one aligned, mapFrom]
  simp [bind_run, walk_none absent freelist, pure_run]

theorem map_fresh {perm : Nat} {rest : List Nat} (aligned : a % pgsize = 0)
    (absent : present (word m d (pdx a)) = false) (freelist : m.freelist = t :: rest)
    (apart : t ≠ d) (low : t < physPages) :
    mappages d a pgsize p perm m = (.done true ((addTable m d (pdx a) t rest).setWord t (ptx a)
      (entry p (perm ||| pteP))), []) := by
  have inside : t < linearPages := by
    simp only [physPages, linearPages] at *
    omega
  have empty : present (word (addTable m d (pdx a) t rest) t (ptx a)) = false := by
    rw [word_addTable_new apart low]
    rfl
  rw [mappages_one aligned, mapFrom]
  simp [bind_run, walk_fresh absent freelist, load_run inside, store_run inside, empty, pure_run]

end Runs

/-! deallocuvm -/

section Dealloc
variable {m : Memory} {role : Nat → Role} {d a oldsz fuel t p : Nat}

theorem dealloc_done (finished : oldsz ≤ a) : deallocLoop d oldsz fuel a m = (.done () m, []) := by
  cases fuel with
  | zero => rfl
  | succ fuel =>
    rw [deallocLoop, if_pos finished]
    rfl

theorem dealloc_absent (more : a < oldsz) (absent : present (word m d (pdx a)) = false) :
    deallocLoop d oldsz (fuel + 1) a m = deallocLoop d oldsz fuel (a + 512 * pgsize) m := by
  rw [deallocLoop, if_neg (by omega), bind_run, walk_absent absent]
  simp [nptentries, pgsize, Nat.add_assoc]

theorem dealloc_trap (more : a < oldsz) (isPresent : present (word m d (pdx a)) = true)
    (outside : linearPages ≤ pteAddr (word m d (pdx a))) :
    deallocLoop d oldsz (fuel + 1) a m = (.halt (.trap .deallocuvm) m, []) := by
  rw [deallocLoop, if_neg (by omega), bind_run, walk_present isPresent]
  simp [bind_run, load_trap outside]

theorem dealloc_blank (more : a < oldsz) (isPresent : present (word m d (pdx a)) = true)
    (inside : pteAddr (word m d (pdx a)) < linearPages)
    (empty : present (word m (pteAddr (word m d (pdx a))) (ptx a)) = false) :
    deallocLoop d oldsz (fuel + 1) a m = deallocLoop d oldsz fuel (a + pgsize) m := by
  rw [deallocLoop, if_neg (by omega), bind_run, walk_present isPresent]
  simp [bind_run, load_run inside, whenever, empty, pure_run]

theorem freed_setWord {j value : Nat} (apart : t ≠ p) :
    (freed m p).setWord t j value = freed (m.setWord t j value) p := by
  simp only [freed, Memory.setWord, Memory.setPage, Memory.mk.injEq, true_and]
  funext q
  by_cases isT : q = t
  · subst isT
    simp [apart]
  · simp [isT]

theorem dealloc_leaf (more : a < oldsz) (isPresent : present (word m d (pdx a)) = true)
    (inside : pteAddr (word m d (pdx a)) < linearPages)
    (full : present (word m (pteAddr (word m d (pdx a))) (ptx a)) = true)
    (is : pteAddr (word m (pteAddr (word m d (pdx a))) (ptx a)) = p)
    (low : m.kend ≤ p) (positive : 0 < m.kend) (high : p < physPages)
    (apart : pteAddr (word m d (pdx a)) ≠ p) :
    deallocLoop d oldsz (fuel + 1) a m = deallocLoop d oldsz fuel (a + pgsize)
      (freed (m.setWord (pteAddr (word m d (pdx a))) (ptx a) 0) p) := by
  rw [deallocLoop, if_neg (by omega), bind_run, walk_present isPresent]
  simp [bind_run, load_run inside, whenever, full, pure_run, is, show p ≠ 0 by omega,
    kfree_run low high, store_run inside, freed_setWord apart]

/-- The roles after the user pages of d from address lo to address hi are freed. -/
def shrunk (role : Nat → Role) (d lo hi q : Nat) : Role :=
  match role q with
  | .leaf e i j =>
    if e = d ∧ lo ≤ (512 * i + j) * pgsize ∧ (512 * i + j) * pgsize < hi then .free
    else .leaf e i j
  | r => r

/-- What no function of vm.c changes. -/
structure Fixed (m next : Memory) : Prop where
  kend : next.kend = m.kend
  kpdpt : next.kpdpt = m.kpdpt
  cr3 : next.cr3 = m.cr3

theorem fixed_refl (m : Memory) : Fixed m m := ⟨rfl, rfl, rfl⟩

theorem fixed_trans {m middle next : Memory} (first : Fixed m middle) (second : Fixed middle next) :
    Fixed m next :=
  ⟨second.kend.trans first.kend, second.kpdpt.trans first.kpdpt, second.cr3.trans first.cr3⟩

theorem fixed_freed : Fixed m (freed m p) := ⟨rfl, rfl, rfl⟩

theorem table_inside (roles : Roles m role) (dir : role d = .dir) {i : Nat} (low : i < 510)
    (isPresent : present (word m d i) = true) :
    role (pteAddr (word m d i)) = .table d i ∧ pteAddr (word m d i) < linearPages := by
  have table := role_of_pde roles dir low isPresent
  have bound := (roles.range (pteAddr (word m d i)) (by simp [table])).2
  refine ⟨table, ?_⟩
  simp only [physPages, linearPages] at *
  omega

theorem back_outside (roles : Roles m role) (dir : role d = .dir) {i : Nat} (high : 510 ≤ i)
    (small : i < 512) :
    present (word m d i) = true ∧ linearPages ≤ pteAddr (word m d i) := by
  obtain ⟨isPresent, far⟩ := roles.back d i dir high small
  refine ⟨isPresent, le_trans ?_ far⟩
  simp only [linearPages, kernbase, pgsize]
  decide

/-- What freeing the page p at a leaves as it was. -/
structure Unmapped (m next : Memory) (role : Nat → Role) (d a p : Nat) : Prop where
  words : ∀ q, (role q = .dir ∨ ∃ e i, role q = .table e i) → ∀ j,
    ¬ (role q = .table d (pdx a) ∧ j = ptx a) → word next q j = word m q j
  pages : ∀ q, q ≠ p → (∀ i, role q ≠ .table d i) → next.page q = m.page q
  freelist : next.freelist = p :: m.freelist

theorem unmapped_freed (table : role t = .table d (pdx a)) (leaf : role p = .leaf d (pdx a) (ptx a)) :
    Unmapped m (freed (m.setWord t (ptx a) 0) p) role d a p where
  words q is j other := by
    have notPage : q ≠ p := by
      rintro rfl
      rw [leaf] at is
      simp at is
    rw [show word (freed _ p) q j = _ from word_setPage_other notPage,
      word_setWord ptx_lt (by decide), if_neg]
    rintro ⟨rfl, slot⟩
    exact other ⟨table, slot⟩
  pages q notPage notTable := by
    have away : q ≠ t := by
      rintro rfl
      exact notTable _ table
    simp [freed, Memory.setWord, Memory.setPage, notPage, away]
  freelist := rfl

theorem unmapped_dir {next : Memory} (unmapped : Unmapped m next role d a p) (dir : role d = .dir)
    (i : Nat) : word next d i = word m d i :=
  unmapped.words d (.inl dir) i (by simp [dir])

theorem dealloc_cases (fuel : Nat) (roles : Roles m role) (dir : role d = .dir) (more : a < oldsz) :
    (510 ≤ pdx a ∧ deallocLoop d oldsz (fuel + 1) a m = (.halt (.trap .deallocuvm) m, [])) ∨
    (pdx a < 510 ∧ present (word m d (pdx a)) = false ∧
      deallocLoop d oldsz (fuel + 1) a m = deallocLoop d oldsz fuel (a + 512 * pgsize) m) ∨
    (pdx a < 510 ∧ present (word m d (pdx a)) = true ∧ (∀ q, role q ≠ .leaf d (pdx a) (ptx a)) ∧
      deallocLoop d oldsz (fuel + 1) a m = deallocLoop d oldsz fuel (a + pgsize) m) ∨
    (pdx a < 510 ∧ present (word m d (pdx a)) = true ∧ ∃ p next, role p = .leaf d (pdx a) (ptx a) ∧
      Roles next (Function.update role p .free) ∧ Fixed m next ∧
      Unmapped m next role d a p ∧
      deallocLoop d oldsz (fuel + 1) a m = deallocLoop d oldsz fuel (a + pgsize) next) := by
  by_cases low : pdx a < 510
  · cases isPresent : present (word m d (pdx a)) with
    | false => exact .inr (.inl ⟨low, rfl, dealloc_absent more isPresent⟩)
    | true =>
      obtain ⟨table, inside⟩ := table_inside roles dir low isPresent
      cases full : present (word m (pteAddr (word m d (pdx a))) (ptx a)) with
      | false =>
        refine .inr (.inr (.inl ⟨low, rfl, fun q leaf => ?_, dealloc_blank more isPresent
          inside full⟩))
        obtain ⟨t, table', -, full', -⟩ := pte_of_role roles leaf
        rw [← table_unique roles table table', full] at full'
        cases full'
      | true =>
        have leaf := role_of_pte roles table ptx_lt full
        obtain ⟨atLeast, below⟩ := roles.range
          (pteAddr (word m (pteAddr (word m d (pdx a))) (ptx a))) (by simp [leaf])
        have apart : pteAddr (word m d (pdx a)) ≠
            pteAddr (word m (pteAddr (word m d (pdx a))) (ptx a)) := by
          intro same
          rw [← same, table] at leaf
          cases leaf
        refine .inr (.inr (.inr ⟨low, rfl, _, freed (m.setWord (pteAddr (word m d (pdx a)))
          (ptx a) 0) _, leaf, ?_, ⟨rfl, rfl, rfl⟩, unmapped_freed table leaf,
          dealloc_leaf more isPresent inside full rfl atLeast roles.positive below apart⟩))
        have given := roles_give (roles_detachLeaf roles leaf table) (Function.update_self ..)
        rwa [Function.update_idem] at given
  · obtain ⟨isPresent, outside⟩ := back_outside roles dir (by omega : 510 ≤ pdx a) pdx_lt
    exact .inl ⟨by omega, dealloc_trap more isPresent outside⟩

theorem shrunk_past (finished : oldsz ≤ a) : shrunk role d a oldsz = role := by
  funext q
  unfold shrunk
  split
  next e i j is => rw [if_neg (by omega), is]
  next => rfl

theorem shrunk_skip {b : Nat} (le : a ≤ b)
    (none : ∀ q i j, role q = .leaf d i j → a ≤ (512 * i + j) * pgsize →
      (512 * i + j) * pgsize < b → False) :
    shrunk role d b oldsz = shrunk role d a oldsz := by
  funext q
  unfold shrunk
  split
  next e i j is =>
    by_cases mine : e = d
    · subst mine
      have clear := none q i j is
      congr 1
      simp only [true_and, eq_iff_iff]
      constructor
      · rintro ⟨ge, lt⟩
        exact ⟨by omega, lt⟩
      · rintro ⟨ge, lt⟩
        refine ⟨?_, lt⟩
        by_contra early
        exact clear ge (by omega)
    · simp [mine]
  next => rfl

theorem shrunk_update {i j : Nat} (leaf : role p = .leaf d i j)
    (address : a = (512 * i + j) * pgsize) (more : a < oldsz)
    (only : ∀ q i j, role q = .leaf d i j → a ≤ (512 * i + j) * pgsize →
      (512 * i + j) * pgsize < a + pgsize → q = p) :
    shrunk (Function.update role p .free) d (a + pgsize) oldsz = shrunk role d a oldsz := by
  funext q
  by_cases self : q = p
  · rw [self, shrunk, shrunk, Function.update_self, leaf]
    exact (if_pos ⟨rfl, address.le, address ▸ more⟩).symm
  · have rest : shrunk (Function.update role p .free) d (a + pgsize) oldsz =
        shrunk (Function.update role p .free) d a oldsz := by
      refine shrunk_skip (Nat.le_add_right a pgsize) fun q i j leaf' ge lt => ?_
      by_cases again : q = p
      · rw [again, Function.update_self] at leaf'
        cases leaf'
      · rw [Function.update_of_ne again] at leaf'
        exact again (only q i j leaf' ge lt)
    rw [rest, shrunk, shrunk, Function.update_of_ne self]

theorem tidy_next {next : Memory} (aligned : a % pgsize = 0)
    (same : ∀ i, word next d i = word m d i)
    (isPresent : present (word m d (pdx a)) = true) :
    (a + pgsize) % 2 ^ 21 = 0 ∨ present (word next d (pdx (a + pgsize))) = true := by
  by_cases crosses : (a + pgsize) % 2 ^ 21 = 0
  · exact .inl crosses
  · have here : pdx (a + pgsize) = pdx a := by
      simp only [pdx, pgsize] at aligned crosses ⊢
      omega
    exact .inr (by rw [here, same, isPresent])

/-- The directory, the entries below a and the contents of all other pages are as
before. -/
structure Kept (m next : Memory) (role : Nat → Role) (d a : Nat) : Prop where
  dir : ∀ i, word next d i = word m d i
  entries : ∀ t i j, role t = .table d i → (512 * i + j) * pgsize < a → word next t j = word m t j
  pages : ∀ q, (∀ i, role q ≠ .table d i) → (∀ i j, role q ≠ .leaf d i j) → next.page q = m.page q

theorem kept_refl : Kept m m role d a := ⟨fun _ => rfl, fun _ _ _ _ _ => rfl, fun _ _ _ => rfl⟩

theorem kept_before {next : Memory} {b : Nat} (le : a ≤ b) (kept : Kept m next role d b) :
    Kept m next role d a :=
  ⟨kept.dir, fun t i j table low => kept.entries t i j table (lt_of_lt_of_le low le), kept.pages⟩

theorem kept_unmapped {next last : Memory} (dir : role d = .dir)
    (leaf : role p = .leaf d (pdx a) (ptx a)) (address : a = (512 * pdx a + ptx a) * pgsize)
    (unmapped : Unmapped m next role d a p)
    (kept : Kept next last (Function.update role p .free) d (a + pgsize)) : Kept m last role d a where
  dir i := (kept.dir i).trans (unmapped_dir unmapped dir i)
  entries t i j table low := by
    have notPage : t ≠ p := by
      rintro rfl
      rw [leaf] at table
      cases table
    have early : (512 * i + j) * pgsize < a + pgsize := lt_of_lt_of_le low (Nat.le_add_right ..)
    rw [kept.entries t i j (by rw [Function.update_of_ne notPage, table]) early]
    refine unmapped.words t (.inr ⟨d, i, table⟩) j ?_
    rintro ⟨here, slot⟩
    rw [table] at here
    injection here with _ here
    rw [here, slot, ← address] at low
    exact lt_irrefl a low
  pages q notTable notLeaf := by
    have notPage : q ≠ p := by
      rintro rfl
      exact notLeaf _ _ leaf
    rw [kept.pages q, unmapped.pages q notPage notTable]
    · intro i
      rw [Function.update_of_ne notPage]
      exact notTable i
    · intro i j
      rw [Function.update_of_ne notPage]
      exact notLeaf i j

/-- The loop of deallocuvm frees the user pages from a to oldsz, provided that it does
not start inside an absent page table. -/
theorem deallocLoop_run (roles : Roles m role) (dir : role d = .dir) (aligned : a % pgsize = 0)
    (bound : oldsz ≤ 0x3fc00000) (enough : oldsz ≤ a + fuel * pgsize)
    (tidy : a % 2 ^ 21 = 0 ∨ present (word m d (pdx a)) = true) :
    ∃ next, deallocLoop d oldsz fuel a m = (.done () next, []) ∧
      Roles next (shrunk role d a oldsz) ∧ Fixed m next ∧ Kept m next role d a := by
  induction fuel generalizing m role a with
  | zero =>
    rw [dealloc_done (by omega), shrunk_past (by omega)]
    exact ⟨m, rfl, roles, fixed_refl m, kept_refl⟩
  | succ fuel ih =>
    by_cases finished : oldsz ≤ a
    · rw [dealloc_done finished, shrunk_past finished]
      exact ⟨m, rfl, roles, fixed_refl m, kept_refl⟩
    · simp only [pgsize] at aligned
      have address : a = (512 * pdx a + ptx a) * pgsize := by
        simp only [pdx, ptx, pgsize]
        omega
      have low : pdx a < 510 := by
        simp only [pdx]
        omega
      have onlyHere : ∀ q i j, role q = .leaf d i j → a ≤ (512 * i + j) * pgsize →
          (512 * i + j) * pgsize < a + pgsize → role q = .leaf d (pdx a) (ptx a) := by
        intro q i j leaf ge lt
        obtain ⟨t, table, small, -, -⟩ := pte_of_role roles leaf
        have here : 512 * i + j = 512 * pdx a + ptx a := by
          simp only [pgsize] at ge lt address
          omega
        have ptxSmall := ptx_lt (a := a)
        rw [leaf, show i = pdx a by omega, show j = ptx a by omega]
      rcases dealloc_cases fuel roles dir (by omega : a < oldsz) with ⟨high, -⟩ |
        ⟨-, absent, run⟩ | ⟨-, isPresent, none, run⟩ | ⟨-, isPresent, p, next, leaf, roles', fixed,
          unmapped, run⟩
      · omega
      · have start : a % 2 ^ 21 = 0 := by
          rcases tidy with start | isPresent
          · exact start
          · rw [absent] at isPresent
            cases isPresent
        obtain ⟨next, run', roles', fixed, kept⟩ := ih (a := a + 512 * pgsize) roles dir
          (by simp only [pgsize]; omega) (by simp only [pgsize] at enough ⊢; omega)
          (.inl (by simp only [pgsize]; omega))
        refine ⟨next, by rw [run, run'], ?_, fixed, kept_before (by omega) kept⟩
        rwa [shrunk_skip (a := a) (by omega)] at roles'
        intro q i j leaf ge lt
        obtain ⟨t, table, small, -, -⟩ := pte_of_role roles leaf
        obtain ⟨-, -, isPresent, -⟩ := pde_of_role roles table
        have here : i = pdx a := by
          simp only [pgsize, pdx] at ge lt ⊢
          omega
        rw [here, absent] at isPresent
        cases isPresent
      · obtain ⟨next, run', roles', fixed, kept⟩ := ih (a := a + pgsize) roles dir
          (by simp only [pgsize]; omega) (by simp only [pgsize] at enough ⊢; omega)
          (tidy_next aligned (fun _ => rfl) isPresent)
        refine ⟨next, by rw [run, run'], ?_, fixed, kept_before (by omega) kept⟩
        rwa [shrunk_skip (a := a) (by omega)] at roles'
        intro q i j leaf ge lt
        exact none q (onlyHere q i j leaf ge lt)
      · have dir' : Function.update role p .free d = .dir := by
          rw [Function.update_of_ne, dir]
          rintro rfl
          rw [dir] at leaf
          cases leaf
        obtain ⟨last, run', roles'', fixed', kept⟩ := ih (a := a + pgsize) roles' dir'
          (by simp only [pgsize]; omega) (by simp only [pgsize] at enough ⊢; omega)
          (tidy_next aligned (unmapped_dir unmapped dir) isPresent)
        refine ⟨last, by rw [run, run'], ?_, fixed_trans fixed fixed',
          kept_unmapped dir leaf address unmapped kept⟩
        rwa [shrunk_update leaf address (by omega) fun q i j leaf' ge lt =>
          leaf_unique roles (onlyHere q i j leaf' ge lt) leaf] at roles''

/-- How far the loop of deallocuvm can be sent from a on: up to the directory entry 510,
which it reaches at the offset of a if it meets no page table on the way. -/
def walkEnd (m : Memory) (d a : Nat) : Nat :=
  if a % 2 ^ 21 = 0 ∨ ∃ i < 510, pdx a ≤ i ∧ present (word m d i) = true then 0x3fc00000
  else 0x3fc00000 + a % 2 ^ 21

theorem walkEnd_bounds : 0x3fc00000 ≤ walkEnd m d a ∧ walkEnd m d a ≤ 0x3fc00000 + a % 2 ^ 21 := by
  unfold walkEnd
  split <;> omega

theorem walkEnd_tidy (tidy : a % 2 ^ 21 = 0 ∨ present (word m d (pdx a)) = true)
    (low : pdx a < 510) : walkEnd m d a = 0x3fc00000 :=
  if_pos (tidy.imp_right fun isPresent => ⟨pdx a, low, le_rfl, isPresent⟩)

theorem walkEnd_absent (low : a < 0x3fc00000) (absent : present (word m d (pdx a)) = false) :
    walkEnd m d (a + 512 * pgsize) = walkEnd m d a := by
  have offset : (a + 512 * pgsize) % 2 ^ 21 = a % 2 ^ 21 := by
    simp only [pgsize]
    omega
  have up : pdx (a + 512 * pgsize) = pdx a + 1 := by
    simp only [pdx, pgsize]
    omega
  have same : (∃ i < 510, pdx a + 1 ≤ i ∧ present (word m d i) = true) ↔
      ∃ i < 510, pdx a ≤ i ∧ present (word m d i) = true := by
    constructor
    · rintro ⟨i, inside, above, isPresent⟩
      exact ⟨i, inside, by omega, isPresent⟩
    · rintro ⟨i, inside, above, isPresent⟩
      refine ⟨i, inside, Nat.lt_of_le_of_ne above ?_, isPresent⟩
      rintro rfl
      rw [absent] at isPresent
      cases isPresent
  rw [walkEnd, walkEnd, offset, up, if_congr (or_congr_right same) rfl rfl]

theorem walkEnd_absent_le (low : a < 0x3fc00000) (absent : present (word m d (pdx a)) = false) :
    a + 512 * pgsize ≤ walkEnd m d a := by
  have high : 0x3fc00000 ≤ walkEnd m d a := walkEnd_bounds.1
  by_cases last : pdx a = 509
  · by_cases start : a % 2 ^ 21 = 0
    · simp only [pdx, pgsize] at last ⊢
      omega
    · rw [walkEnd, if_neg]
      · simp only [pdx, pgsize] at last ⊢
        omega
      · rintro (first | ⟨i, inside, above, isPresent⟩)
        · exact start first
        · rw [show i = pdx a by omega, absent] at isPresent
          cases isPresent
  · simp only [pdx, pgsize] at last ⊢
    omega

theorem dealloc_finished {limit : Nat} (finished : oldsz ≤ a) (start : a ≤ limit) :
    if oldsz ≤ limit then ∃ next, deallocLoop d oldsz fuel a m = (.done () next, [])
    else ∃ stopped, deallocLoop d oldsz fuel a m = (.halt (.trap .deallocuvm) stopped, []) := by
  rw [if_pos (finished.trans start)]
  exact ⟨m, dealloc_done finished⟩

/-- The loop comes to an end unless it is sent beyond that point, where it dereferences a
back-pointer. -/
theorem deallocLoop_ends (roles : Roles m role) (dir : role d = .dir) (aligned : a % pgsize = 0)
    (start : a ≤ walkEnd m d a) (enough : oldsz ≤ a + fuel * pgsize) :
    if oldsz ≤ walkEnd m d a then ∃ next, deallocLoop d oldsz fuel a m = (.done () next, [])
    else ∃ stopped, deallocLoop d oldsz fuel a m = (.halt (.trap .deallocuvm) stopped, []) := by
  induction fuel generalizing m role a with
  | zero => exact dealloc_finished (by omega) start
  | succ fuel ih =>
    by_cases finished : oldsz ≤ a
    · exact dealloc_finished finished start
    have bounds := walkEnd_bounds (m := m) (d := d) (a := a)
    simp only [pgsize] at aligned
    -- From a page table on, the next page is reached at the start of one or inside it.
    have step : ∀ {next : Memory} {role' : Nat → Role}, Roles next role' → role' d = .dir →
        pdx a < 510 → present (word m d (pdx a)) = true → (∀ i, word next d i = word m d i) →
        if oldsz ≤ walkEnd m d a then
          ∃ last, deallocLoop d oldsz fuel (a + pgsize) next = (.done () last, [])
        else ∃ stopped, deallocLoop d oldsz fuel (a + pgsize) next =
          (.halt (.trap .deallocuvm) stopped, []) := by
      intro next role' roles' dir' low isPresent same
      have tidy := tidy_next aligned same isPresent
      have here : walkEnd m d a = 0x3fc00000 := walkEnd_tidy (.inr isPresent) low
      have there : walkEnd next d (a + pgsize) = 0x3fc00000 := by
        rcases tidy with first | isPresent'
        · exact if_pos (.inl first)
        · by_cases inside : pdx (a + pgsize) < 510
          · exact walkEnd_tidy (.inr isPresent') inside
          · refine if_pos (.inl ?_)
            simp only [pdx, pgsize] at inside low ⊢
            omega
      have fits : a + pgsize ≤ 0x3fc00000 := by
        simp only [pdx, pgsize] at low ⊢
        omega
      have later := ih roles' dir' (a := a + pgsize) (by simp only [pgsize]; omega)
        (by rw [there]; exact fits) (by simp only [pgsize] at enough ⊢; omega)
      rwa [there, ← here] at later
    rcases dealloc_cases fuel roles dir (by omega : a < oldsz) with ⟨high, run⟩ |
      ⟨low, absent, run⟩ | ⟨low, isPresent, -, run⟩ |
        ⟨low, isPresent, p, after, leaf, roles', -, unmapped, run⟩
    · rw [if_neg]
      · exact ⟨m, run⟩
      · unfold walkEnd at start ⊢
        simp only [pdx] at high
        split_ifs at start ⊢ <;> omega
    · have below : a < 0x3fc00000 := by
        simp only [pdx] at low
        omega
      have same := walkEnd_absent below absent
      have fits := walkEnd_absent_le below absent
      have later := ih roles dir (a := a + 512 * pgsize) (by simp only [pgsize]; omega)
        (by rw [same]; exact fits) (by simp only [pgsize] at enough ⊢; omega)
      rw [same] at later
      rwa [run]
    · rw [run]
      exact step roles dir low isPresent fun _ => rfl
    · rw [run]
      refine step roles' ?_ low isPresent (unmapped_dir unmapped dir)
      rw [Function.update_of_ne, dir]
      rintro rfl
      rw [dir] at leaf
      cases leaf

theorem deallocLoop_trap (roles : Roles m role) (dir : role d = .dir) (aligned : a % pgsize = 0)
    (start : a < 0x3fc00000) (beyond : 0x3fc00000 < oldsz) (enough : oldsz ≤ a + fuel * pgsize)
    (tidy : a % 2 ^ 21 = 0 ∨ present (word m d (pdx a)) = true) :
    ∃ stopped, deallocLoop d oldsz fuel a m = (.halt (.trap .deallocuvm) stopped, []) := by
  have here : walkEnd m d a = 0x3fc00000 := walkEnd_tidy tidy (by simp only [pdx]; omega)
  have ends := deallocLoop_ends roles dir aligned (by omega) enough
  rwa [here, if_neg (by omega)] at ends

/-- From inside an absent page table on, with nothing mapped above, the loop only
walks, at the same offset in every page table. -/
theorem deallocLoop_empty (roles : Roles m role) (dir : role d = .dir)
    (absent : ∀ i < 510, pdx a ≤ i → present (word m d i) = false)
    (start : a ≤ 0x3fc00000 + a % 2 ^ 21) (enough : oldsz ≤ a + fuel * pgsize) :
    deallocLoop d oldsz fuel a m =
      if oldsz ≤ 0x3fc00000 + a % 2 ^ 21 then (.done () m, [])
      else (.halt (.trap .deallocuvm) m, []) := by
  induction fuel generalizing a with
  | zero =>
    rw [if_pos (by omega)]
    rfl
  | succ fuel ih =>
    by_cases finished : oldsz ≤ a
    · rw [dealloc_done finished, if_pos (by omega)]
    · rcases dealloc_cases fuel roles dir (by omega : a < oldsz) with ⟨high, run⟩ | ⟨low, -, run⟩ |
        ⟨low, isPresent, -, -⟩ | ⟨low, isPresent, -⟩
      · rw [run, if_neg]
        simp only [pdx] at high
        omega
      · have up : pdx (a + 512 * pgsize) = pdx a + 1 := by
          simp only [pdx, pgsize] at low ⊢
          omega
        have offset : (a + 512 * pgsize) % 2 ^ 21 = a % 2 ^ 21 := by
          simp only [pgsize]
          omega
        rw [run, ih (fun i inside ge => absent i inside (by omega)) ?_ ?_, offset]
        · simp only [pdx] at low
          rw [offset]
          simp only [pgsize]
          omega
        · simp only [pgsize] at enough ⊢
          omega
      · rw [absent _ low le_rfl] at isPresent
        cases isPresent
      · rw [absent _ low le_rfl] at isPresent
        cases isPresent

theorem pgroundup_eq {size : Nat} (small : size < 2 ^ 63) :
    pgroundup size = (size + 4095) / 4096 * 4096 := by
  simp only [pgroundup, pgsize]
  omega

theorem deallocuvm_run {newsz : Nat} (roles : Roles m role) (dir : role d = .dir)
    (bound : oldsz ≤ 0x3fc00000) (small : newsz < 2 ^ 63)
    (tidy : pgroundup newsz % 2 ^ 21 = 0 ∨ present (word m d (pdx (pgroundup newsz))) = true) :
    ∃ next, deallocuvm d oldsz newsz m = (.done (min oldsz newsz) next, []) ∧
      Roles next (shrunk role d (pgroundup newsz) oldsz) ∧ Fixed m next := by
  rw [deallocuvm]
  rw [pgroundup_eq small] at tidy ⊢
  by_cases done : oldsz ≤ newsz
  · rw [if_pos done, shrunk_past (by omega), Nat.min_eq_left done]
    exact ⟨m, rfl, roles, fixed_refl m⟩
  · have enough : oldsz ≤ (newsz + 4095) / 4096 * 4096 +
        (oldsz - (newsz + 4095) / 4096 * 4096 + 4095) / 4096 * pgsize := by
      simp only [pgsize]
      omega
    obtain ⟨next, run, roles', fixed, -⟩ := deallocLoop_run roles dir
      (by simp only [pgsize]; omega) bound enough tidy
    refine ⟨next, ?_, roles', fixed⟩
    rw [if_neg done, Nat.min_eq_right (by omega)]
    simp only [pgsize, bind_run, run, pure_run, List.append_nil, Nat.add_one_sub_one]

end Dealloc

/-! freevm -/

section Free
variable {m before : Memory} {role : Nat → Role} {d i t : Nat}

/-- The roles after the page tables below entry n are freed. -/
def partway (role : Nat → Role) (d n q : Nat) : Role :=
  match role q with
  | .table e i => if e = d ∧ i < n then .free else retired role d q
  | _ => retired role d q

theorem partway_zero : partway role d 0 = retired role d := by
  funext q
  unfold partway
  split <;> simp

theorem partway_absent (none : ∀ q, role q ≠ .table d i) :
    partway role d (i + 1) = partway role d i := by
  funext q
  unfold partway
  split
  next e k is =>
    have away : ¬ (e = d ∧ k = i) := by
      rintro ⟨rfl, rfl⟩
      exact none q is
    by_cases mine : e = d
    · have other : k ≠ i := fun same => away ⟨mine, same⟩
      simp [mine, show k < i + 1 ↔ k < i by omega]
    · simp [mine]
  next => rfl

theorem partway_table (table : role t = .table d i) (unique : ∀ q, role q = .table d i → q = t) :
    Function.update (partway role d i) t .free = partway role d (i + 1) := by
  funext q
  by_cases self : q = t
  · rw [self, Function.update_self, partway, table]
    simp
  · rw [Function.update_of_ne self]
    unfold partway
    split
    next e k is =>
      have away : ¬ (e = d ∧ k = i) := by
        rintro ⟨rfl, rfl⟩
        exact self (unique q is)
      by_cases mine : e = d
      · have other : k ≠ i := fun same => away ⟨mine, same⟩
        simp [mine, show k < i + 1 ↔ k < i by omega]
      · simp [mine]
    next => rfl

theorem freeTables_run {count : Nat} (known : Roles before role) (dir : role d = .dir)
    (inside : i + count ≤ 510) (roles : Roles m (partway role d i))
    (same : ∀ j, word m d j = word before d j) :
    ∃ next, freeTables d count i m = (.done () next, []) ∧
      Roles next (partway role d (i + count)) ∧ Fixed m next := by
  induction count generalizing m i with
  | zero => exact ⟨m, rfl, roles, fixed_refl m⟩
  | succ count ih =>
    rw [freeTables, bind_run]
    simp only [inspect, List.nil_append, bind_run]
    cases isPresent : present (word m d i) with
    | false =>
      have skipped : partway role d (i + 1) = partway role d i := by
        refine partway_absent fun q table => ?_
        obtain ⟨-, -, there, -⟩ := pde_of_role known table
        rw [← same, isPresent] at there
        cases there
      obtain ⟨next, run, roles', fixed⟩ := ih (i := i + 1) (by omega) (skipped ▸ roles) same
      rw [show i + 1 + count = i + (count + 1) by omega] at roles'
      refine ⟨next, ?_, roles', fixed⟩
      simp [whenever, pure_run, run]
    | true =>
      have table := role_of_pde known dir (by omega : i < 510) (same i ▸ isPresent)
      rw [← same] at table
      have isHeld : partway role d i (pteAddr (word m d i)) = .held 0 := by
        simp [partway, table, retired, belongs]
      obtain ⟨low, high⟩ := roles.range (pteAddr (word m d i)) (by simp [isHeld])
      have given := roles_give roles isHeld
      rw [partway_table table fun q is => table_unique known is table] at given
      have apart : d ≠ pteAddr (word m d i) := by
        intro self
        rw [← self, dir] at table
        cases table
      obtain ⟨next, run, roles', fixed⟩ := ih (i := i + 1) (by omega) given
        fun j => (word_setPage_other apart).trans (same j)
      rw [show i + 1 + count = i + (count + 1) by omega] at roles'
      refine ⟨next, ?_, roles', fixed_trans fixed_freed fixed⟩
      simp [whenever, kfree_run low high, run]

/-- The roles after freevm: the two upper levels and the user pages of the directory
entry 509 are not freed. -/
def destroyed (role : Nat → Role) (d q : Nat) : Role :=
  match role q with
  | .dir => if q = d then .free else .dir
  | .table e i => if e = d then .free else .table e i
  | .leaf e i j => if e = d then if i < 509 then .free else .held 0 else .leaf e i j
  | .pml4 e => if e = d then .held 0 else .pml4 e
  | .pdpt e => if e = d then .held 0 else .pdpt e
  | r => r

theorem destroyed_eq (roles : Roles m role) (dir : role d = .dir) :
    Function.update (partway (shrunk role d 0 userTop) d 510) d .free = destroyed role d := by
  funext q
  by_cases self : q = d
  · rw [self, Function.update_self, destroyed, dir]
    simp
  · rw [Function.update_of_ne self]
    cases is : role q with
    | table e i =>
      obtain ⟨-, low, -, -⟩ := pde_of_role roles is
      by_cases mine : e = d <;> simp [partway, shrunk, destroyed, is, mine, low, retired, belongs,
        self]
    | leaf e i j =>
      obtain ⟨-, -, small, -, -⟩ := pte_of_role roles is
      by_cases mine : e = d
      · have range : (512 * i + j) * pgsize < userTop ↔ i < 509 := by
          simp only [pgsize, userTop]
          omega
        by_cases low : i < 509 <;> simp [partway, shrunk, destroyed, is, mine, range, low, retired,
          belongs, self]
      · simp [partway, shrunk, destroyed, is, mine, retired, belongs, self]
    | _ => simp [partway, shrunk, destroyed, is, retired, belongs, self]

theorem freevm_run (roles : Roles m role) (dir : role d = .dir) :
    ∃ next, freevm d m = (.done () next, []) ∧ Roles next (destroyed role d) ∧ Fixed m next := by
  obtain ⟨first, run1, roles1, fixed1⟩ := deallocuvm_run roles dir
    (by decide : userTop ≤ 0x3fc00000) (by decide : 0 < 2 ^ 63) (.inl rfl)
  rw [show pgroundup 0 = 0 from rfl] at roles1
  have dir1 : shrunk role d 0 userTop d = .dir := by simp [shrunk, dir]
  have start : Roles first (partway (shrunk role d 0 userTop) d 0) := by
    rw [partway_zero]
    exact roles_retire roles1 dir1
  obtain ⟨second, run2, roles2, fixed2⟩ := freeTables_run roles1 dir1 (by decide : 0 + 510 ≤ 510)
    start fun _ => rfl
  have isHeld : partway (shrunk role d 0 userTop) d (0 + 510) d = .held 0 := by
    simp [partway, dir1, retired]
  obtain ⟨low, high⟩ := roles2.range d (by simp [isHeld])
  have given := roles_give roles2 isHeld
  rw [destroyed_eq roles dir] at given
  refine ⟨freed second d, ?_, given, fixed_trans fixed1 (fixed_trans fixed2 fixed_freed)⟩
  rw [freevm, show npdentries - 2 = 510 from rfl, bind_done run1, bind_done run2,
    kfree_run low high]
  rfl

end Free

/-! setupkvm -/

section Setup
variable {m : Memory} {role : Nat → Role} {u v d : Nat} {rest : List Nat}

/-- The memory after setupkvm. -/
def withSpace (m : Memory) (u v d : Nat) (rest : List Nat) : Memory :=
  ((((((({ m with freelist := rest }.setPage u 0).setPage v 0).setPage d 0).setWord u 511
    (entry m.kpdpt (pteP ||| pteW ||| pteU))).setWord u 0
    (v2p (some v) ||| (pteP ||| pteW ||| pteU))).setWord v 0
    (v2p (some d) ||| (pteP ||| pteW ||| pteU))).setWord d 511 (backPointer u)).setWord d 510
    (backPointer v)

theorem withSpace_cr3 : (withSpace m u v d rest).cr3 = m.cr3 := by
  simp only [withSpace, Memory.setWord, Memory.setPage]

theorem setupkvm_run (freelist : m.freelist = u :: v :: d :: rest) :
    setupkvm m = (.done (some d) (withSpace m u v d rest), []) := by
  have first := kalloc_cons freelist
  have second := kalloc_cons (m := { m with freelist := v :: d :: rest }) rfl
  have third := kalloc_cons (m := { m with freelist := d :: rest }) rfl
  simp only [setupkvm, bind_run, first, second, third, target, pure_run, setPage, setWord, change,
    inspect, List.nil_append]
  rfl

/-- The roles after setupkvm. -/
def created (role : Nat → Role) (u v d q : Nat) : Role :=
  if q = v then .pdpt d else if q = u then .pml4 d else if q = d then .dir else role q

theorem word_setWord_other {m : Memory} {p q i j value : Nat} (other : q ≠ p) :
    word (m.setWord p i value) q j = word m q j := word_setPage_other other

theorem roles_withSpace (roles : Roles m role) (freelist : m.freelist = u :: v :: d :: rest) :
    Roles (withSpace m u v d rest) (created role u v d) ∧ u ≠ v ∧ u ≠ d ∧ v ≠ d := by
  have nodup := roles.nodup
  rw [freelist] at nodup
  simp only [List.nodup_cons, List.mem_cons, not_or] at nodup
  obtain ⟨⟨uv, ud, -⟩, ⟨vd, -⟩, -, -⟩ := nodup
  have taken := roles_take (roles_take (roles_take roles freelist) rfl) rfl
  have low := (roles.range u (by simp [(roles.free u).mp (by simp [freelist])])).2
  have low' := (roles.range v (by simp [(roles.free v).mp (by simp [freelist])])).2
  have small : ∀ p < physPages, backPointer p < 2 ^ 64 := by
    intro p inside
    rw [backPointer_eq]
    simp only [kernbase, physPages] at *
    omega
  have same : created role u v d = Function.update (Function.update (Function.update
      (Function.update (Function.update (Function.update role u (.held 0)) v (.held 0)) d (.held 0))
      d .dir) u (.pml4 d)) v (.pdpt d) := by
    funext q
    simp only [created, Function.update_apply]
    split_ifs <;> rfl
  rw [same]
  refine ⟨roles_space taken (by simp [uv, ud]) (by simp [vd]) (by simp) uv ud vd rfl rfl ?_ ?_ ?_
    ?_, uv, ud, vd⟩
  · rw [withSpace, word_setWord (by decide) (small v low'), if_neg (by simp),
      word_setWord (by decide) (small u low), if_pos ⟨rfl, rfl⟩]
  · rw [withSpace, word_setWord (by decide) (small v low'), if_pos ⟨rfl, rfl⟩]
  · intro j lowJ
    rw [withSpace, word_setWord (by decide) (small v low'), if_neg (by omega),
      word_setWord (by decide) (small u low), if_neg (by omega), word_setWord_other (Ne.symm vd),
      word_setWord_other (Ne.symm ud), word_setWord_other (Ne.symm ud)]
    exact word_setPage_zero
  · intro q notU notV notD j
    rw [withSpace, word_setWord_other notD, word_setWord_other notD, word_setWord_other notV,
      word_setWord_other notU, word_setWord_other notU, word_setPage_other notD,
      word_setPage_other notV, word_setPage_other notU]

end Setup

/-! mappages of one page, allocuvm and copyuvm -/

section Map
variable {m : Memory} {role : Nat → Role} {d a p perm : Nat}

theorem roles_setPage {holder : Nat} {content : Page} (roles : Roles m role)
    (isHeld : role p = .held holder) : Roles (m.setPage p content) role := by
  refine roles_congr roles rfl rfl fun q is j => word_setPage_other ?_
  rintro rfl
  rw [isHeld] at is
  simp at is

/-- How mappages enters a PTE for a: in a page table that exists, or in a new one. -/
def Written (m next : Memory) (d a pte : Nat) : Prop :=
  (present (word m d (pdx a)) = true ∧
    present (word m (pteAddr (word m d (pdx a))) (ptx a)) = false ∧
    next = m.setWord (pteAddr (word m d (pdx a))) (ptx a) pte) ∨
  ∃ t rest, present (word m d (pdx a)) = false ∧ m.freelist = t :: rest ∧
    next = (addTable m d (pdx a) t rest).setWord t (ptx a) pte

theorem map_cases (roles : Roles m role) (dir : role d = .dir) (isHeld : role p = .held 0)
    (aligned : a % pgsize = 0) (small : perm < 4096) :
    (510 ≤ pdx a ∧ mappages d a pgsize p perm m = (.halt (.trap .mappages) m, [])) ∨
    (pdx a < 510 ∧ (∃ q, role q = .leaf d (pdx a) (ptx a)) ∧
      mappages d a pgsize p perm m = (.halt .remap m, [])) ∨
    (pdx a < 510 ∧ present (word m d (pdx a)) = false ∧ m.freelist = [] ∧
      mappages d a pgsize p perm m = (.done false m, [])) ∨
    (pdx a < 510 ∧ ∃ next role', mappages d a pgsize p perm m = (.done true next, []) ∧
      Roles next role' ∧ Fixed m next ∧ role' p = .leaf d (pdx a) (ptx a) ∧
      (∀ q, q ≠ p → role' q = role q ∨ role q = .free ∧ role' q = .table d (pdx a)) ∧
      Written m next d a (entry p (perm ||| pteP))) := by
  have fits : perm ||| pteP < 4096 := Nat.or_lt_two_pow (n := 12) small (by decide)
  have flagged : (perm ||| pteP).testBit 0 = true := by simp [pteP]
  by_cases low : pdx a < 510
  · cases isPresent : present (word m d (pdx a)) with
    | true =>
      obtain ⟨table, inside⟩ := table_inside roles dir low isPresent
      cases full : present (word m (pteAddr (word m d (pdx a))) (ptx a)) with
      | true =>
        exact .inr (.inl ⟨low, ⟨_, role_of_pte roles table ptx_lt full⟩,
          map_remap aligned isPresent inside full⟩)
      | false =>
        refine .inr (.inr (.inr ⟨low, _, _, map_table aligned isPresent inside full,
          roles_attachLeaf roles isHeld table ptx_lt full flagged fits, ⟨rfl, rfl, rfl⟩,
          Function.update_self .., fun q other => .inl (Function.update_of_ne other ..),
          .inl ⟨isPresent, full, rfl⟩⟩))
    | false =>
      cases freelist : m.freelist with
      | nil => exact .inr (.inr (.inl ⟨low, rfl, rfl, map_none aligned isPresent freelist⟩))
      | cons t rest =>
        have isFree : role t = .free := (roles.free t).mp (by simp [freelist])
        have bound := (roles.range t (by simp [isFree])).2
        have notDir : t ≠ d := by
          rintro rfl
          rw [dir] at isFree
          cases isFree
        have notPage : p ≠ t := by
          rintro rfl
          rw [isHeld] at isFree
          cases isFree
        have dir' : Function.update role t (.held 0) d = .dir := by
          rw [Function.update_of_ne notDir.symm, dir]
        have zeroed : Roles (({ m with freelist := rest }).setPage t 0)
            (Function.update role t (.held 0)) :=
          roles_setPage (roles_take roles freelist) (Function.update_self ..)
        have attached : Roles (addTable m d (pdx a) t rest)
            (Function.update role t (.table d (pdx a))) := by
          have new := roles_attachTable zeroed (Function.update_self ..)
            (fun j => word_setPage_zero) dir' low
            (by rw [word_setPage_other notDir.symm]; exact isPresent)
            (by decide : (pteP ||| pteW ||| pteU).testBit 0 = true) (by decide)
          rwa [Function.update_idem] at new
        have empty : present (word (addTable m d (pdx a) t rest) t (ptx a)) = false := by
          rw [word_addTable_new notDir bound]
          rfl
        have mapped := roles_attachLeaf attached
          (by rw [Function.update_of_ne notPage]; exact isHeld) (Function.update_self ..) ptx_lt
          empty flagged fits
        refine .inr (.inr (.inr ⟨low, _, _, map_fresh aligned isPresent freelist notDir bound,
          mapped, ⟨rfl, rfl, rfl⟩, Function.update_self .., fun q other => ?_,
          .inr ⟨t, rest, isPresent, freelist, rfl⟩⟩))
        rw [Function.update_of_ne other]
        by_cases self : q = t
        · exact .inr ⟨self ▸ isFree, self ▸ Function.update_self ..⟩
        · exact .inl (Function.update_of_ne self ..)
  · obtain ⟨isPresent, outside⟩ := back_outside roles dir (by omega : 510 ≤ pdx a) pdx_lt
    exact .inl ⟨by omega, map_trap aligned isPresent outside⟩

end Map

end Xv6.PageTables
