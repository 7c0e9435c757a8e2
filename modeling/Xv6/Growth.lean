import Xv6.AddressSpaces
import Xv6.ExecPlan
import Mathlib.Data.List.Perm.Subperm

/-! allocuvm on an image without gaps. `Dense` says that the pages below n are mapped
with all permissions and that exactly the page tables below e exist. allocuvm maps the
next pages as long as the free list lasts; the plan in numbers says how far it gets. -/
namespace Xv6.Growth
open TraceMonad BitField Vm VmSpec PageTables AddressSpaces ExecPlan

/-- The flags of a page that allocuvm maps. -/
def allFlags : Nat := pteW ||| pteU ||| pteP

structure Dense (m : Memory) (role : Nat → Role) (d n e : Nat) : Prop where
  roles : Roles m role
  dir : role d = .dir
  tables : ∀ i < 510, present (word m d i) = true ↔ 512 * i < e
  mapped : ∀ k < n, ∃ p, word m (pteAddr (word m d (k / 512))) (k % 512) = entry p allFlags
  below : ∀ q i j, role q = .leaf d i j → 512 * i + j < n
  ordered : n ≤ e
  bound : e ≤ 510 * 512

section Next
variable {m next : Memory} {role role' : Nat → Role} {d n e p t : Nat} {rest : List Nat}

theorem free_bound (roles : Roles m role) : m.freelist.length ≤ physPages := by
  have inside : m.freelist ⊆ List.range physPages := by
    intro p free
    exact List.mem_range.mpr (roles.range p (by simp [(roles.free p).mp free])).2
  simpa using (List.Nodup.subperm roles.nodup inside).length_le

theorem pdx_page (low : n < 510 * 512) : pdx (n * pgsize) = n / 512 := by
  simp only [pdx, pgsize]
  omega

theorem ptx_page : ptx (n * pgsize) = n % 512 := by
  simp only [ptx, pgsize]
  omega

theorem table_of_dense (dense : Dense m role d n e) {k : Nat} (inside : k < e) :
    role (pteAddr (word m d (k / 512))) = .table d (k / 512) := by
  have bound := dense.bound
  exact role_of_pde dense.roles dense.dir (by omega)
    ((dense.tables (k / 512) (by omega)).mpr (by omega))

/-- The page table for the page at the end does not exist when that page would be its
first. -/
theorem absent_table (dense : Dense m role d n n) (first : n % 512 = 0) (low : n < 510 * 512) :
    present (word m d (n / 512)) = false := by
  cases isPresent : present (word m d (n / 512)) with
  | false => rfl
  | true =>
    have early := (dense.tables (n / 512) (by omega)).mp isPresent
    omega

theorem absent_page (dense : Dense m role d n (n + 1)) :
    present (word m (pteAddr (word m d (n / 512))) (n % 512)) = false := by
  cases full : present (word m (pteAddr (word m d (n / 512))) (n % 512)) with
  | false => rfl
  | true =>
    have table := table_of_dense dense (Nat.lt_succ_self n)
    have late := dense.below _ _ _ (role_of_pte dense.roles table (Nat.mod_lt _ (by decide)) full)
    omega

theorem dense_congr (dense : Dense m role d n e) (roles : Roles next role') (dir : role' d = .dir)
    (below : ∀ q i j, role' q = .leaf d i j → role q = .leaf d i j)
    (same : ∀ q, role q = .dir ∨ (∃ d i, role q = .table d i) → ∀ j, word next q j = word m q j) :
    Dense next role' d n e := by
  have top : ∀ i, word next d i = word m d i := same d (.inl dense.dir)
  refine ⟨roles, dir, fun i inside => by rw [top, dense.tables i inside], fun k inside => ?_,
    fun q i j leaf => dense.below q i j (below q i j leaf), dense.ordered, dense.bound⟩
  obtain ⟨page, is⟩ := dense.mapped k inside
  have early : k < e := lt_of_lt_of_le inside dense.ordered
  refine ⟨page, ?_⟩
  rw [top, same _ (.inr ⟨d, k / 512, table_of_dense dense early⟩), is]

theorem dense_take (dense : Dense m role d n e) (freelist : m.freelist = p :: rest)
    (content : Page) :
    Dense (({ m with freelist := rest }).setPage p content) (Function.update role p (.held 0)) d n e ∧
      role p = .free ∧ p ≠ d := by
  have isFree : role p = .free := (dense.roles.free p).mp (by simp [freelist])
  have notDir : p ≠ d := by
    rintro rfl
    rw [dense.dir] at isFree
    cases isFree
  refine ⟨dense_congr dense (roles_setPage (roles_take dense.roles freelist)
    (Function.update_self ..)) ?_ ?_ ?_, isFree, notDir⟩
  · rw [Function.update_of_ne notDir.symm, dense.dir]
  · intro q i j leaf
    rw [Function.update_apply] at leaf
    split_ifs at leaf
    exact leaf
  · intro q is j
    refine word_setPage_other ?_
    rintro rfl
    rw [isFree] at is
    simp at is

theorem dense_map (dense : Dense m role d n (n + 1)) (isHeld : role p = .held 0) :
    Dense (m.setWord (pteAddr (word m d (n / 512))) (n % 512) (entry p allFlags))
      (Function.update role p (.leaf d (n / 512) (n % 512))) d (n + 1) (n + 1) := by
  have small : n % 512 < 512 := Nat.mod_lt _ (by decide)
  have bound := dense.bound
  have table := table_of_dense dense (Nat.lt_succ_self n)
  have low := (dense.roles.range p (by simp [isHeld])).2
  have empty := absent_page dense
  have read : ∀ q j, word (m.setWord (pteAddr (word m d (n / 512))) (n % 512) (entry p allFlags))
      q j = if q = pteAddr (word m d (n / 512)) ∧ j = n % 512 then entry p allFlags else
        word m q j :=
    fun q j => word_setWord small (entry_lt (by decide) low)
  have notTable : d ≠ pteAddr (word m d (n / 512)) := by
    intro same
    rw [← same, dense.dir] at table
    cases table
  have notPage : d ≠ p := by
    rintro rfl
    rw [dense.dir] at isHeld
    cases isHeld
  have top : ∀ i, word (m.setWord (pteAddr (word m d (n / 512))) (n % 512) (entry p allFlags)) d i =
      word m d i := fun i => by rw [read, if_neg (by simp [notTable])]
  refine ⟨roles_attachLeaf dense.roles isHeld table small empty (by decide) (by decide), ?_,
    fun i inside => by rw [top, dense.tables i inside], fun k inside => ?_, fun q i j leaf => ?_,
    le_rfl, bound⟩
  · rw [Function.update_of_ne notPage, dense.dir]
  · rw [top, read]
    by_cases last : k = n
    · exact ⟨p, by rw [last, if_pos ⟨rfl, rfl⟩]⟩
    · obtain ⟨page, is⟩ := dense.mapped k (by omega)
      refine ⟨page, ?_⟩
      rw [if_neg, is]
      rintro ⟨same, slot⟩
      have theirs := table_of_dense dense (by omega : k < n + 1)
      rw [same, table] at theirs
      injection theirs with _ same
      omega
  · rw [Function.update_apply] at leaf
    split_ifs at leaf with self
    · injection leaf with _ isI isJ
      omega
    · have early := dense.below q i j leaf
      omega

theorem dense_table (dense : Dense m role d n n) (first : n % 512 = 0) (low : n < 510 * 512)
    (freelist : m.freelist = t :: rest) :
    Dense (addTable m d (n / 512) t rest) (Function.update role t (.table d (n / 512))) d n (n + 1) ∧
      pteAddr (word (addTable m d (n / 512) t rest) d (n / 512)) = t := by
  have index : n / 512 < 510 := by omega
  obtain ⟨taken, isFree, notDir⟩ := dense_take dense freelist 0
  have bound := (dense.roles.range t (by simp [isFree])).2
  have absent := absent_table taken first low
  have read : ∀ q j, word (addTable m d (n / 512) t rest) q j =
      if q = d ∧ j = n / 512 then entry t (pteP ||| pteW ||| pteU) else
        word (({ m with freelist := rest }).setPage t 0) q j :=
    fun q j => word_setWord (by omega) (entry_lt (by decide) bound)
  have attached := roles_attachTable taken.roles (Function.update_self ..)
    (fun j => word_setPage_zero) taken.dir index absent
    (by decide : (pteP ||| pteW ||| pteU).testBit 0 = true) (by decide)
  rw [Function.update_idem] at attached
  refine ⟨⟨attached, ?_, fun i inside => ?_, fun k inside => ?_, fun q i j leaf => ?_, by omega,
    by omega⟩, ?_⟩
  · rw [Function.update_of_ne notDir.symm, dense.dir]
  · rw [read]
    by_cases self : i = n / 512
    · rw [if_pos ⟨rfl, self⟩, present_entry (by decide)]
      simp only [true_iff]
      omega
    · rw [if_neg (by simp [self]), taken.tables i inside]
      omega
  · obtain ⟨page, is⟩ := taken.mapped k inside
    refine ⟨page, ?_⟩
    have notD : pteAddr (word (({ m with freelist := rest }).setPage t 0) d (k / 512)) ≠ d := by
      intro same
      have theirs := table_of_dense taken inside
      rw [same, taken.dir] at theirs
      cases theirs
    rw [read d, if_neg (by omega), read, if_neg fun both => notD both.1, is]
  · refine taken.below q i j ?_
    rw [Function.update_apply] at leaf ⊢
    split_ifs at leaf ⊢
    exact leaf
  · rw [read, if_pos ⟨rfl, rfl⟩, pteAddr_entry (by decide)]

theorem map_next (dense : Dense m role d n n) (low : n < 510 * 512)
    (freelist : m.freelist = p :: rest) (enough : n % 512 = 0 → rest ≠ []) :
    ∃ next role', mappages d (n * pgsize) pgsize p (pteW ||| pteU)
        (({ m with freelist := rest }).setPage p 0) = (.done true next, []) ∧
      Dense next role' d (n + 1) (n + 1) ∧ Local d role role' ∧ Fixed m next ∧
      next.freelist = if n % 512 = 0 then rest.tail else rest := by
  obtain ⟨taken, isFree, notDir⟩ := dense_take dense freelist 0
  have aligned : n * pgsize % pgsize = 0 := Nat.mul_mod_left ..
  have localLeaf : Local d role (Function.update (Function.update role p (.held 0)) p
      (.leaf d (n / 512) (n % 512))) := by
    intro q
    rw [Function.update_idem]
    by_cases self : q = p
    · exact .inr ⟨by simp [self, isFree, own], .inl (by simp [self, own])⟩
    · exact .inl (Function.update_of_ne self ..)
  by_cases first : n % 512 = 0
  · obtain ⟨t, rest', rfl⟩ := List.exists_cons_of_ne_nil (enough first)
    obtain ⟨dense', there⟩ := dense_table taken first low rfl
    obtain ⟨-, isFreeT, notDirT⟩ := dense_take taken rfl 0
    have apart : p ≠ t := by
      rintro rfl
      rw [Function.update_self] at isFreeT
      cases isFreeT
    rw [Function.update_of_ne apart.symm] at isFreeT
    have bound := (dense.roles.range t (by simp [isFreeT])).2
    have absent : present (word (({ m with freelist := t :: rest' }).setPage p 0) d
        (pdx (n * pgsize))) = false := by
      rw [pdx_page low]
      exact absent_table taken first low
    have run : mappages d (n * pgsize) pgsize p (pteW ||| pteU)
        (({ m with freelist := t :: rest' }).setPage p 0) = _ :=
      map_fresh aligned absent rfl notDirT bound
    have isHeld : Function.update (Function.update role p (.held 0)) t (.table d (n / 512)) p =
        .held 0 := by
      rw [Function.update_of_ne apart, Function.update_self]
    have final := dense_map dense' isHeld
    rw [there] at final
    rw [pdx_page low, ptx_page] at run
    refine ⟨_, _, run, final, ?_, ⟨rfl, rfl, rfl⟩, by simp [first]; rfl⟩
    intro q
    by_cases isP : q = p
    · exact .inr ⟨by simp [isP, isFree, own], .inl (by simp [isP, own])⟩
    · rw [Function.update_of_ne isP]
      by_cases isT : q = t
      · exact .inr ⟨by simp [isT, isFreeT, own], .inl (by simp [isT, own])⟩
      · exact .inl (by rw [Function.update_of_ne isT, Function.update_of_ne isP])
  · have e : Dense (({ m with freelist := rest }).setPage p 0) (Function.update role p (.held 0)) d
        n (n + 1) := by
      refine ⟨taken.roles, taken.dir, fun i inside => ?_, taken.mapped, taken.below, by omega,
        by omega⟩
      rw [taken.tables i inside]
      omega
    have final := dense_map e (Function.update_self ..)
    have isPresent := (e.tables (n / 512) (by omega)).mpr (by omega)
    rw [← pdx_page low] at isPresent
    obtain ⟨-, inside⟩ := table_inside e.roles e.dir (by rw [pdx_page low]; omega) isPresent
    have empty : present (word (({ m with freelist := rest }).setPage p 0)
        (pteAddr (word (({ m with freelist := rest }).setPage p 0) d (pdx (n * pgsize))))
        (ptx (n * pgsize))) = false := by
      rw [pdx_page low, ptx_page]
      exact absent_page e
    have run : mappages d (n * pgsize) pgsize p (pteW ||| pteU)
        (({ m with freelist := rest }).setPage p 0) = _ :=
      map_table aligned isPresent inside empty
    rw [pdx_page low, ptx_page] at run
    exact ⟨_, _, run, final, localLeaf, ⟨rfl, rfl, rfl⟩, by simp [first]; rfl⟩

theorem map_lost (dense : Dense m role d n n) (low : n < 510 * 512) (freelist : m.freelist = [p])
    (first : n % 512 = 0) :
    mappages d (n * pgsize) pgsize p (pteW ||| pteU) (({ m with freelist := [] }).setPage p 0) =
      (.done false (({ m with freelist := [] }).setPage p 0), []) := by
  obtain ⟨taken, -, -⟩ := dense_take dense freelist 0
  refine map_none (Nat.mul_mod_left ..) ?_ rfl
  rw [pdx_page low]
  exact absent_table taken first low

end Next

/-! The loop of allocuvm. -/

section Loop
variable {m : Memory} {role : Nat → Role} {d n f oldsz newsz count : Nat}

/-- The pages below n are mapped and f pages are free. -/
structure Filled (m : Memory) (role : Nat → Role) (d n f : Nat) : Prop where
  dense : Dense m role d n n
  free : m.freelist.length = f
  total : n + f ≤ physPages

/-- The loop gets as far as the numbers say, or ends up in deallocuvm. -/
def LoopRuns (m : Memory) (role : Nat → Role) (d n oldsz newsz count : Nat)
    (run : Outcome Memory Panic Nat × List Event) : Option (Nat × Nat) → Prop
  | some (n', f') => ∃ next role', run = (.done newsz next, []) ∧ Filled next role' d n' f' ∧
      Local d role role' ∧ Fixed m next ∧
      (n' = n + count ∨ n' + 1 = n + count ∧ n' % 512 = 0 ∧ f' = 0)
  | none => ∃ after role' n', run = (deallocuvm d newsz oldsz >>= fun _ => pure 0) after ∧
      Dense after role' d n' n' ∧ n ≤ n' ∧ n' ≤ physPages ∧ Local d role role' ∧ Fixed m after

theorem runs_later {middle : Memory} {role' : Nat → Role} {n' count' : Nat} {result : Option (Nat × Nat)}
    {run : Outcome Memory Panic Nat × List Event} (change : Local d role role')
    (fixed : Fixed m middle) (le : n ≤ n') (same : n' + count' = n + count)
    (later : LoopRuns middle role' d n' oldsz newsz count' run result) :
    LoopRuns m role d n oldsz newsz count run result := by
  cases result with
  | none =>
    obtain ⟨after, last, k, ran, dense, ge, bound, change', fixed'⟩ := later
    exact ⟨after, last, k, ran, dense, by omega, bound, local_trans change change',
      fixed_trans fixed fixed'⟩
  | some result =>
    obtain ⟨next, last, ran, filled, change', fixed', ends⟩ := later
    exact ⟨next, last, ran, filled, local_trans change change', fixed_trans fixed fixed', by omega⟩

theorem allocLoop_run (filled : Filled m role d n f) :
    LoopRuns m role d n oldsz newsz count (allocLoop d oldsz newsz count (n * pgsize) m)
      (growLoop count n f) := by
  induction count generalizing m role n f with
  | zero =>
    exact ⟨m, role, rfl, filled, local_refl, fixed_refl m, .inl rfl⟩
  | succ count ih =>
    obtain ⟨dense, free, total⟩ := filled
    have low : n ≤ physPages := by omega
    simp only [physPages] at total low
    rw [growLoop]
    cases freelist : m.freelist with
    | nil =>
      rw [freelist] at free
      simp only [← free, List.length_nil, if_true]
      refine ⟨m, role, n, ?_, dense, le_rfl, low, local_refl, fixed_refl m⟩
      rw [allocLoop, bind_done (kalloc_nil freelist)]
      rfl
    | cons p rest =>
      rw [freelist, List.length_cons] at free
      have next : (n + 1) * pgsize = n * pgsize + pgsize := Nat.succ_mul ..
      have start : ∀ {mapped : Bool} {after : Memory},
          mappages d (n * pgsize) pgsize p (pteW ||| pteU)
            (({ m with freelist := rest }).setPage p 0) = (.done mapped after, []) →
          allocLoop d oldsz newsz (count + 1) (n * pgsize) m =
            allocLoop d oldsz newsz count (n * pgsize + pgsize) after := by
        intro mapped after run
        rw [allocLoop, bind_done (kalloc_cons freelist)]
        simp only [bind_run, setPage, change, run, List.nil_append]
      rw [if_neg (by omega)]
      by_cases first : n % 512 = 0
      · rw [if_neg (by simp [first])]
        cases rest with
        | nil =>
          rw [if_pos (by simpa using free.symm)]
          obtain ⟨taken, isFree, notDir⟩ := dense_take dense freelist 0
          have change : Local d role (Function.update role p (.held 0)) := by
            intro q
            by_cases self : q = p
            · exact .inr ⟨by simp [self, isFree, own], .inr (by simp [self])⟩
            · exact .inl (Function.update_of_ne self ..)
          rw [start (map_lost dense (by omega) freelist first)]
          cases count with
          | zero =>
            rw [if_pos rfl]
            exact ⟨_, _, rfl, ⟨taken, rfl, by simpa [physPages] using low⟩, change,
              ⟨rfl, rfl, rfl⟩, .inr ⟨rfl, first, rfl⟩⟩
          | succ count =>
            rw [if_neg (by omega)]
            refine ⟨_, _, n, ?_, taken, le_rfl, low, change, ⟨rfl, rfl, rfl⟩⟩
            rw [allocLoop, bind_done (kalloc_nil rfl)]
            rfl
        | cons t rest =>
          obtain ⟨after, role', run, dense', change, fixed, list⟩ :=
            map_next dense (by omega) freelist (by simp)
          rw [if_neg (by simp at free; omega), start run, ← next]
          simp only [first, if_true, List.tail_cons] at list
          refine runs_later change fixed (by omega) (by omega) (ih ⟨dense', ?_, ?_⟩)
          · rw [list]
            simp at free
            omega
          · simp only [physPages]
            omega
      · obtain ⟨after, role', run, dense', change, fixed, list⟩ :=
          map_next dense (by omega) freelist (by simp [first])
        rw [if_pos first, start run, ← next]
        rw [if_neg first] at list
        refine runs_later change fixed (by omega) (by omega) (ih ⟨dense', ?_, ?_⟩)
        · rw [list]
          omega
        · simp only [physPages]
          omega

end Loop

/-! allocuvm from a size that was planned. -/

section Sizes
variable {m : Memory} {role : Nat → Role} {d n oldsz newsz : Nat} {plan : Plan}

theorem local_shrunk {lo hi : Nat} : Local d role (shrunk role d lo hi) := by
  intro q
  unfold shrunk
  split
  next e i j is =>
    split_ifs with mine
    · exact .inr ⟨by simp [is, own, mine.1], .inl rfl⟩
    · exact .inl is.symm
  next => exact .inl rfl

/-- The run ended well without events. -/
def Returns (m : Memory) (role : Nat → Role) (d result : Nat)
    (run : Outcome Memory Panic Nat × List Event) : Prop :=
  ∃ next, run = (.done result next, []) ∧ Changed m role d next

def Faults (run : Outcome Memory Panic Nat × List Event) : Prop :=
  ∃ stopped, run = (.halt (.trap .deallocuvm) stopped, [])

theorem rollback_run (newsz : Nat) (dense : Dense m role d n n) (bound : n ≤ physPages)
    (enough : pages oldsz ≤ n) :
    if newsz ≤ 0x3fc00000 then
      Returns m role d 0 ((deallocuvm d newsz oldsz >>= fun _ => pure 0) m)
    else Faults ((deallocuvm d newsz oldsz >>= fun _ => pure 0) m) := by
  simp only [physPages, pages] at bound enough
  have tidy : pgroundup oldsz % 2 ^ 21 = 0 ∨
      present (word m d (pdx (pgroundup oldsz))) = true := by
    rw [pgroundup_eq (by omega)]
    by_cases first : (oldsz + 4095) / 4096 * 4096 % 2 ^ 21 = 0
    · exact .inl first
    · refine .inr ((dense.tables _ ?_).mpr ?_)
      · simp only [pdx]
        omega
      · simp only [pdx]
        omega
  split_ifs with within
  · obtain ⟨next, run, roles, fixed⟩ := deallocuvm_run dense.roles dense.dir within (by omega) tidy
    refine ⟨next, ?_, _, roles, local_shrunk, fixed⟩
    rw [bind_done run]
    rfl
  · rw [pgroundup_eq (by omega)] at tidy
    have trap : ∃ stopped, deallocLoop d newsz ((newsz - (oldsz + 4095) / 4096 * 4096 +
        (pgsize - 1)) / pgsize) ((oldsz + 4095) / 4096 * 4096) m =
          (.halt (.trap .deallocuvm) stopped, []) :=
      deallocLoop_trap dense.roles dense.dir (by simp only [pgsize]; omega) (by omega) (by omega)
        (by simp only [pgsize]; omega) tidy
    obtain ⟨stopped, run⟩ := trap
    refine ⟨stopped, ?_⟩
    rw [deallocuvm, if_neg (by omega), pgroundup_eq (by omega), bind_assoc_action]
    exact bind_halt run

/-- The image that a plan describes. When its last page was left out, that page is the
first of a page table and no memory is left. -/
structure Holds (plan : Plan) (m : Memory) (role : Nat → Role) (d : Nat) : Prop where
  filled : Filled m role d plan.mapped plan.free
  size : pages plan.size = plan.mapped ∨
    pages plan.size = plan.mapped + 1 ∧ plan.mapped % 512 = 0 ∧ plan.free = 0

theorem rollback_short (dense : Dense m role d n n) (bound : n ≤ physPages) (first : n % 512 = 0)
    (size : pages oldsz = n + 1) :
    if newsz ≤ 0x3fc01000 then
      Returns m role d 0 ((deallocuvm d newsz oldsz >>= fun _ => pure 0) m)
    else Faults ((deallocuvm d newsz oldsz >>= fun _ => pure 0) m) := by
  simp only [physPages, pages] at bound size
  by_cases more : newsz ≤ oldsz
  · rw [if_pos (by omega)]
    refine ⟨m, ?_, changed_refl dense.roles⟩
    rw [deallocuvm, if_pos more]
    rfl
  · have start : pgroundup oldsz = (n + 1) * 4096 := by rw [pgroundup_eq (by omega), size]
    have offset : (n + 1) * 4096 % 2 ^ 21 = 4096 := by omega
    have absent : ∀ i < 510, pdx ((n + 1) * 4096) ≤ i → present (word m d i) = false := by
      intro i inside ge
      cases isPresent : present (word m d i) with
      | false => rfl
      | true =>
        have early := (dense.tables i inside).mp isPresent
        simp only [pdx] at ge
        omega
    have walk : deallocLoop d newsz ((newsz - (n + 1) * 4096 + (pgsize - 1)) / pgsize)
        ((n + 1) * 4096) m = _ :=
      deallocLoop_empty dense.roles dense.dir absent (by omega) (by simp only [pgsize]; omega)
    rw [offset] at walk
    rw [deallocuvm, if_neg more, start, bind_assoc_action]
    by_cases within : newsz ≤ 0x3fc01000
    · rw [if_pos within] at walk ⊢
      refine ⟨m, ?_, changed_refl dense.roles⟩
      rw [bind_done walk]
      rfl
    · rw [if_neg within] at walk ⊢
      exact ⟨m, bind_halt walk⟩

theorem allocuvm_run (holds : Holds plan m role d) (small : newsz < 2 ^ 32) :
    match grow plan newsz with
    | some next => ∃ after role', allocuvm d plan.size newsz m = (.done next.size after, []) ∧
        Holds next after role' d ∧ Local d role role' ∧ Fixed m after
    | none => if newsz ≤ walkLimit plan then Returns m role d 0 (allocuvm d plan.size newsz m)
        else Faults (allocuvm d plan.size newsz m) := by
  obtain ⟨filled, size⟩ := holds
  have total := filled.total
  simp only [physPages] at total
  rw [grow]
  by_cases smaller : newsz < plan.size
  · rw [if_pos smaller]
    refine ⟨m, role, ?_, ⟨filled, size⟩, local_refl, fixed_refl m⟩
    rw [allocuvm, if_neg (by simp only [kernbase]; omega), if_pos smaller]
    rfl
  · have start : pgroundup plan.size = pages plan.size * pgsize := by
      simp only [pages] at size
      rw [pgroundup_eq (by omega)]
      rfl
    have count : (newsz - pages plan.size * pgsize + (pgsize - 1)) / pgsize =
        pages newsz - pages plan.size := by
      simp only [pages, pgsize]
      omega
    have loop : allocuvm d plan.size newsz = allocLoop d plan.size newsz
        (pages newsz - pages plan.size) (pages plan.size * pgsize) := by
      rw [allocuvm, if_neg (by simp only [kernbase]; omega), if_neg smaller, start]
      simp only [count]
    rw [if_neg smaller, loop]
    rcases size with exact_ | ⟨above, first, none⟩
    · rw [exact_]
      have run : LoopRuns m role d plan.mapped plan.size newsz (pages newsz - plan.mapped)
          (allocLoop d plan.size newsz (pages newsz - plan.mapped) (plan.mapped * pgsize) m)
          (growLoop (pages newsz - plan.mapped) plan.mapped plan.free) := allocLoop_run filled
      cases result : growLoop (pages newsz - plan.mapped) plan.mapped plan.free with
      | none =>
        rw [result] at run
        obtain ⟨after, role', n', ran, dense, ge, bound, change, fixed⟩ := run
        rw [ran, walkLimit, if_pos exact_.symm]
        have back := rollback_run newsz dense bound (exact_.le.trans ge)
        simp only [Option.map_none]
        split_ifs at back ⊢ with within
        · obtain ⟨next, run, changed⟩ := back
          exact ⟨next, run, changed_trans change fixed changed⟩
        · exact back
      | some pair =>
        obtain ⟨n', f'⟩ := pair
        rw [result] at run
        obtain ⟨after, role', ran, filled', change, fixed, ends⟩ := run
        refine ⟨after, role', ran, ⟨filled', ?_⟩, change, fixed⟩
        have le : pages plan.size ≤ pages newsz := by
          simp only [pages]
          omega
        simp only
        omega
    · rw [above, none]
      cases more : pages newsz - (plan.mapped + 1) with
      | zero =>
        refine ⟨m, role, rfl, ⟨by rw [← none]; exact filled, .inr ⟨?_, first, rfl⟩⟩, local_refl,
          fixed_refl m⟩
        have le : pages plan.size ≤ pages newsz := by
          simp only [pages]
          omega
        simp only
        omega
      | succ count =>
        have empty : m.freelist = [] := by
          rw [← List.length_eq_zero_iff, filled.free, none]
        have ran : allocLoop d plan.size newsz (count + 1) ((plan.mapped + 1) * pgsize) m =
            (deallocuvm d newsz plan.size >>= fun _ => pure 0) m := by
          rw [allocLoop, bind_done (kalloc_nil empty)]
          rfl
        have limit : walkLimit plan = 0x3fc01000 := if_neg (by omega)
        simp only [growLoop, if_true, Option.map_none]
        rw [ran, limit]
        exact rollback_short filled.dense (by simp only [physPages]; omega) first above

end Sizes

end Xv6.Growth
