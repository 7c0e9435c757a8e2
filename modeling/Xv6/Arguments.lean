import Xv6.Loading

/-! The arguments that exec copies onto the new stack. The stack is one page above an
inaccessible one, and copyout walks up page by page: a string that starts below the
stack page runs into the inaccessible page and makes exec fail. It goes wrong when the
string reaches below address 0, and when the stack page was left out together with its
page table. -/
namespace Xv6.Arguments
open TraceMonad BitField Vm VmSpec PageTables AddressSpaces Exec ExecPlan Growth Loading

/-- uva2ka was applied where a page table is, and a copyout that succeeded left all
its bytes in user pages. -/
def Sound (trace : List Event) : Prop :=
  (∀ index table, .uva2ka index table ∈ trace → index < 510 ∧ table = true) ∧
    ∀ complete, .copyout true complete ∈ trace → complete = true

def Faulty (trace : List Event) : Prop :=
  ∃ index table, .uva2ka index table ∈ trace ∧ (510 ≤ index ∨ table = false)

/-- Some copyout returned -1. -/
def Failed (trace : List Event) : Prop := ∃ complete, .copyout false complete ∈ trace

/-- A run that is sound when the arguments fit, and then reports no success after a
failed copyout; it is faulty when they do not fit. -/
structure Copies {α : Type} (fits : Prop) (ok : α → Bool) (post : α → Memory → Prop)
    (run : Outcome Memory Panic α × List Event) : Prop where
  clean : fits → ∃ value next, run.1 = .done value next ∧ Sound run.2 ∧
    (Failed run.2 → ok value = false) ∧ post value next
  faulty : ¬ fits → Faulty run.2

section Judgement
variable {α β : Type} {fits : Prop} {ok : α → Bool} {post : α → Memory → Prop} {m middle : Memory}

theorem sound_nil : Sound [] :=
  ⟨fun _ _ member => (List.not_mem_nil member).elim, fun _ member => (List.not_mem_nil member).elim⟩

theorem sound_append {first second : List Event} (one : Sound first) (two : Sound second) :
    Sound (first ++ second) := by
  constructor
  · intro index table member
    exact (List.mem_append.mp member).elim (one.1 index table) (two.1 index table)
  · intro complete member
    exact (List.mem_append.mp member).elim (one.2 complete) (two.2 complete)

theorem failed_append {first second : List Event} :
    Failed (first ++ second) ↔ Failed first ∨ Failed second := by
  simp only [Failed, List.mem_append, exists_or]

theorem copies_pure {value : α} (holds : fits) (reached : post value m) :
    Copies fits ok post ((pure value : VmM α) m) where
  clean _ := ⟨value, m, rfl, sound_nil, fun ⟨_, member⟩ => (List.not_mem_nil member).elim, reached⟩
  faulty fails := (fails holds).elim

theorem copies_congr {fits' : Prop} {run : Outcome Memory Panic α × List Event}
    (same : fits ↔ fits') (copies : Copies fits ok post run) : Copies fits' ok post run := by
  rwa [propext same] at copies

theorem copies_weaken {weak : α → Memory → Prop} {run : Outcome Memory Panic α × List Event}
    (copies : Copies fits ok post run)
    (implies : ∀ value next, post value next → weak value next) : Copies fits ok weak run where
  clean holds := by
    obtain ⟨value, next, run, sound, failed, reached⟩ := copies.clean holds
    exact ⟨value, next, run, sound, failed, implies value next reached⟩
  faulty := copies.faulty

theorem copies_quiet {post : β → Memory → Prop} {ok : β → Bool} {first : VmM α} {next : α → VmM β}
    {value : α} (run : first m = (.done value middle, []))
    (later : Copies fits ok post (next value middle)) : Copies fits ok post ((first >>= next) m) := by
  rwa [bind_quiet run]

theorem faulty_first {first : VmM α} {next : α → VmM β} (faulty : Faulty (first m).2) :
    Faulty ((first >>= next) m).2 := by
  obtain ⟨index, table, member, bad⟩ := faulty
  rcases run : first m with ⟨_ | _, events⟩
  · rw [run] at member
    rw [bind_done run]
    exact ⟨index, table, List.mem_append_left _ member, bad⟩
  · rw [run] at member
    rw [bind_halt run]
    exact ⟨index, table, member, bad⟩

theorem faulty_quiet {first : VmM α} {next : α → VmM β} {value : α} {events : List Event}
    (run : first m = (.done value middle, events)) (faulty : Faulty (next value middle).2) :
    Faulty ((first >>= next) m).2 := by
  obtain ⟨index, table, member, bad⟩ := faulty
  rw [bind_done run]
  exact ⟨index, table, List.mem_append_right _ member, bad⟩

theorem copies_then {first : VmM α} {next : α → VmM β} {early rest : Prop} {ok : α → Bool}
    {ok' : β → Bool} {between : α → Memory → Prop} {post : β → Memory → Prop}
    (copies : Copies early ok between (first m)) (both : fits ↔ early ∧ rest)
    (later : early → ∀ value middle, between value middle → Copies rest ok' post (next value middle))
    (gives_up : ∀ value middle result after, between value middle → ok value = false →
      (next value middle).1 = .done result after → ok' result = false) :
    Copies fits ok' post ((first >>= next) m) := by
  by_cases holds : early
  · obtain ⟨value, middle, run, sound, failed, reached⟩ := copies.clean holds
    have bound : (first >>= next) m =
        ((next value middle).1, (first m).2 ++ (next value middle).2) :=
      bind_done (Prod.ext run rfl)
    rw [bound]
    constructor
    · intro both'
      obtain ⟨result, after, run', sound', failed', reached'⟩ :=
        (later holds value middle reached).clean (both.mp both').2
      refine ⟨result, after, run', sound_append sound sound', fun any => ?_, reached'⟩
      rcases failed_append.mp any with any | any
      · exact gives_up value middle result after reached (failed any) run'
      · exact failed' any
    · intro fails
      obtain ⟨index, table, member, bad⟩ :=
        (later holds value middle reached).faulty fun rest => fails (both.mpr ⟨holds, rest⟩)
      exact ⟨index, table, List.mem_append_right _ member, bad⟩
  · exact ⟨fun both' => (holds (both.mp both').1).elim, fun _ => faulty_first (copies.faulty holds)⟩

end Judgement

/-! copyout -/

section Stack
variable {m : Memory} {role : Nat → Role} {d k va fuel : Nat} {stack : Bool} {bytes : List UInt8}

/-- The new image with its inaccessible page k; the stack page above it may be missing,
and then its page table is missing too. -/
structure Stacked (m : Memory) (role : Nat → Role) (d k : Nat) (stack : Bool) : Prop where
  roles : Roles m role
  dir : role d = .dir
  tables : ∀ i < 510, present (word m d i) = true ↔ 512 * i < k + if stack then 2 else 1
  guard : ∃ p, word m (pteAddr (word m d (k / 512))) (k % 512) = entry p (pteW ||| pteP)
  page : stack = true → ∃ p,
    word m (pteAddr (word m d ((k + 1) / 512))) ((k + 1) % 512) = entry p allFlags
  edge : stack = false → (k + 1) % 512 = 0
  bound : k < physPages

theorem stacked_write {page : Nat} (stacked : Stacked m role d k stack) (plain : Plain role page)
    (content : Page) : Stacked (m.setPage page content) role d k stack := by
  have same : ∀ q, role q = .dir ∨ (∃ d i, role q = .table d i) →
      ∀ j, word (m.setPage page content) q j = word m q j := fun _ is => word_plain plain is
  have top : ∀ i, word (m.setPage page content) d i = word m d i := same d (.inl stacked.dir)
  have low : ∀ j, j / 512 < 510 → 512 * (j / 512) < k + (if stack then 2 else 1) → ∀ i,
      word (m.setPage page content) (pteAddr (word (m.setPage page content) d (j / 512))) i =
        word m (pteAddr (word m d (j / 512))) i := by
    intro j inside early i
    have isPresent := (stacked.tables _ inside).mpr early
    rw [top, same _ (.inr ⟨d, j / 512, role_of_pde stacked.roles stacked.dir inside isPresent⟩)]
  have bound := stacked.bound
  simp only [physPages] at bound
  refine ⟨roles_congr stacked.roles rfl rfl same, stacked.dir, ?_, ?_, ?_, stacked.edge,
    stacked.bound⟩
  · intro i inside
    rw [top, stacked.tables i inside]
  · rw [low k (by omega) (by split <;> omega)]
    exact stacked.guard
  · intro full
    rw [low (k + 1) (by omega) (by rw [full]; simp only [if_true]; omega)]
    exact stacked.page full

theorem stacked_table {j : Nat} (stacked : Stacked m role d k stack)
    (inside : j < k + if stack then 2 else 1) :
    j / 512 < 510 ∧ present (word m d (j / 512)) = true ∧
      role (pteAddr (word m d (j / 512))) = .table d (j / 512) := by
  have bound := stacked.bound
  have low : j / 512 < 510 := by
    simp only [physPages] at bound
    split at inside <;> omega
  have isPresent := (stacked.tables _ low).mpr (by omega)
  exact ⟨low, isPresent, role_of_pde stacked.roles stacked.dir low isPresent⟩

theorem uva2ka_run {j : Nat} (stacked : Stacked m role d k stack)
    (inside : j < k + if stack then 2 else 1) :
    uva2ka d (j * pgsize) m = (.done (userAt m d j) m, [.uva2ka (j / 512) true]) := by
  obtain ⟨low, isPresent, table⟩ := stacked_table stacked inside
  have index : pdx (j * pgsize) = j / 512 := pdx_page (by omega)
  obtain ⟨-, near⟩ := table_inside stacked.roles stacked.dir low isPresent
  rw [← index] at isPresent near
  simp only [uva2ka, bind_run, inspect, emit, isPresent, walk_present isPresent, load_run near,
    pure_run, List.nil_append, List.append_nil]
  rw [index] at isPresent
  simp only [index, ptx_page, userAt, pteAt, tableAt, isPresent, if_true, Option.map_some,
    Option.bind_some]

theorem plain_user {j p : Nat} (stacked : Stacked m role d k stack)
    (inside : j < k + if stack then 2 else 1) (found : userAt m d j = some p) :
    Plain role p ∧ p < linearPages := by
  obtain ⟨low, isPresent, table⟩ := stacked_table stacked inside
  simp only [userAt, pteAt, tableAt, isPresent, if_true, Option.map_some, Option.bind_some] at found
  split_ifs at found with accessible
  have leaf := role_of_pte stacked.roles table (Nat.mod_lt j (by decide))
    (Bool.and_eq_true_iff.mp accessible).1
  have bound := (stacked.roles.range _ (by simp [leaf] : role (pteAddr (word m
    (pteAddr (word m d (j / 512))) (j % 512))) ≠ .kernel)).2
  cases found
  refine ⟨by simp [Plain, leaf], lt_trans bound (by decide)⟩

theorem user_guard (stacked : Stacked m role d k stack) : userAt m d k = none := by
  obtain ⟨-, isPresent, -⟩ := stacked_table (j := k) stacked (by split <;> omega)
  obtain ⟨p, is⟩ := stacked.guard
  simp only [userAt, pteAt, tableAt, isPresent, if_true, Option.map_some, Option.bind_some, is]
  rw [user, testBit_entry (by decide), show (pteW ||| pteP).testBit 2 = false by decide,
    Bool.and_false]
  rfl

theorem user_stack (stacked : Stacked m role d k true) : ∃ p, userAt m d (k + 1) = some p := by
  obtain ⟨-, isPresent, -⟩ := stacked_table (j := k + 1) stacked (by simp)
  obtain ⟨p, is⟩ := stacked.page rfl
  refine ⟨p, ?_⟩
  simp only [userAt, pteAt, tableAt, isPresent, if_true, Option.map_some, Option.bind_some, is]
  rw [user, testBit_entry (by decide), present_entry (by decide), pteAddr_entry (by decide)]
  rfl

theorem uva2ka_faulty (bad : 510 ≤ pdx va ∨ present (word m d (pdx va)) = false) :
    Faulty (uva2ka d va m).2 := by
  rw [uva2ka]
  exact faulty_quiet rfl (faulty_first ⟨pdx va, _, List.mem_singleton_self _, bad⟩)

theorem copyout_round {p : Nat} {events later : List Event}
    {outcome : Outcome Memory Panic Bool} (more : bytes ≠ [])
    (run : uva2ka d (pgrounddown va) m = (.done (some p) m, events)) (low : p < linearPages)
    (rest : copyoutLoop d fuel ((pgrounddown va + pgsize) % 2 ^ 32)
        (bytes.drop (min (pgsize - (va - pgrounddown va)) bytes.length))
        (m.setPage p (setBytes (m.page p) (va - pgrounddown va)
          (bytes.take (min (pgsize - (va - pgrounddown va)) bytes.length)))) = (outcome, later)) :
    copyoutLoop d (fuel + 1) va bytes m = (outcome, events ++ later) := by
  rw [copyoutLoop, if_neg more, bind_done run]
  simp only [if_neg (by omega : ¬ linearPages ≤ p), bind_run, inspect, setPage, change,
    List.nil_append, rest]

theorem copyout_none {events : List Event} (more : bytes ≠ [])
    (run : uva2ka d (pgrounddown va) m = (.done none m, events)) :
    copyoutLoop d (fuel + 1) va bytes m = (.done false m, events) := by
  rw [copyoutLoop, if_neg more, bind_done run]
  simp [pure_run]

/-- Events of uva2ka at pages that have a page table. -/
def Walked (trace : List Event) : Prop := ∀ event ∈ trace, ∃ i < 510, event = .uva2ka i true

theorem walked_one {i : Nat} (low : i < 510) : Walked [.uva2ka i true] := by
  intro event member
  exact ⟨i, low, List.mem_singleton.mp member⟩

/-- A copy that starts below the stack page and reaches the inaccessible page stops
there. -/
theorem copyout_stops (stacked : Stacked m role d k stack) (below : va < (k + 1) * pgsize)
    (reaches : k * pgsize < va + bytes.length) (more : bytes ≠ []) (enough : bytes.length ≤ fuel) :
    ∃ next trace, copyoutLoop d fuel va bytes m = (.done false next, trace) ∧ Walked trace ∧
      Stacked next role d k stack ∧ Fixed m next := by
  induction fuel generalizing m va bytes with
  | zero =>
    have positive := List.length_pos_iff.mpr more
    omega
  | succ fuel ih =>
    have bound := stacked.bound
    simp only [pgsize, physPages] at below reaches bound
    -- Below the inaccessible page the copy goes on at the next page.
    have arithmetic : va / 4096 ≠ k → (va / 4096 + 1) * 4096 < (k + 1) * 4096 ∧
        k * 4096 < (va / 4096 + 1) * 4096 + (bytes.length - (4096 - va % 4096)) ∧
        4096 - va % 4096 < bytes.length := by
      intro early
      omega
    have start : pgrounddown va = va / pgsize * pgsize := rfl
    have page : va / pgsize < k + if stack then 2 else 1 := by
      simp only [pgsize]
      split <;> omega
    obtain ⟨low, -, -⟩ := stacked_table stacked page
    have run := uva2ka_run stacked page
    rw [← start] at run
    cases found : userAt m d (va / pgsize) with
    | none =>
      rw [found] at run
      exact ⟨m, _, copyout_none more run, walked_one low, stacked, fixed_refl m⟩
    | some p =>
      obtain ⟨plain, near⟩ := plain_user stacked page found
      rw [found] at run
      have early : va / 4096 ≠ k := by
        intro same
        rw [show va / pgsize = k from same, user_guard stacked] at found
        cases found
      have chunk : min (pgsize - (va - pgrounddown va)) bytes.length = 4096 - va % 4096 := by
        simp only [pgrounddown, pgsize]
        omega
      have next : (pgrounddown va + pgsize) % 2 ^ 32 = (va / 4096 + 1) * 4096 := by
        simp only [pgrounddown, pgsize]
        omega
      have rest : (bytes.drop (4096 - va % 4096)).length = bytes.length - (4096 - va % 4096) :=
        List.length_drop
      obtain ⟨below', reaches', more'⟩ := arithmetic early
      rw [← rest] at reaches'
      obtain ⟨after, trace, ran, walked, stacked', fixed⟩ :=
        ih (stacked_write stacked plain _) below' reaches' (by
          rw [ne_eq, List.drop_eq_nil_iff]
          exact Nat.not_le_of_lt more') (by omega)
      refine ⟨after, _, copyout_round more run near (by rw [chunk, next]; exact ran), ?_,
        stacked', ⟨fixed.kend, fixed.kpdpt, fixed.cr3⟩⟩
      rintro event (_ | ⟨_, member⟩)
      · exact ⟨_, low, rfl⟩
      · exact walked event member

theorem copyout_inside (stacked : Stacked m role d k true) (above : (k + 1) * pgsize ≤ va)
    (inside : va + bytes.length ≤ (k + 2) * pgsize) (more : bytes ≠ [])
    (enough : bytes.length ≤ fuel) :
    ∃ p, userAt m d (k + 1) = some p ∧ Plain role p ∧
      copyoutLoop d fuel va bytes m =
        (.done true (m.setPage p (setBytes (m.page p) (va - (k + 1) * pgsize) bytes)),
          [.uva2ka ((k + 1) / 512) true]) := by
  obtain ⟨p, found⟩ := user_stack stacked
  obtain ⟨plain, near⟩ := plain_user stacked (by simp) found
  have run := uva2ka_run (j := k + 1) stacked (by simp)
  have positive := List.length_pos_iff.mpr more
  have start : pgrounddown va = (k + 1) * pgsize := by
    simp only [pgrounddown, pgsize] at *
    omega
  have chunk : min (pgsize - (va - (k + 1) * pgsize)) bytes.length = bytes.length := by
    simp only [pgsize] at *
    omega
  refine ⟨p, found, plain, ?_⟩
  rw [found, ← start] at run
  cases fuel with
  | zero => omega
  | succ fuel =>
    refine copyout_round more run near ?_
    rw [start, chunk, List.drop_length, List.take_length]
    cases fuel <;> rfl

theorem standsAt_of_page {p : Nat} (small : va + bytes.length < 2 ^ 32)
    (there : ∀ i < bytes.length, userAt m d ((va + i) / pgsize % 2 ^ 18) = some p)
    (held : ∀ i, (inside : i < bytes.length) → byteAt (m.page p) ((va + i) % pgsize) = bytes[i]) :
    standsAt m d va bytes = true := by
  induction bytes generalizing va with
  | nil => rfl
  | cons byte rest ih =>
    rw [List.length_cons] at small there
    have next : ∀ i, va + 1 + i = va + (i + 1) := fun i => by omega
    rw [standsAt, Nat.mod_eq_of_lt (by omega : va + 1 < 2 ^ 32), ih (by omega) ?_ ?_]
    · have first := there 0 (by omega)
      have stored := held 0 (by simp)
      rw [Nat.add_zero] at first stored
      rw [first, Bool.and_true, beq_iff_eq]
      exact stored
    · intro i inside
      rw [next]
      exact there (i + 1) (by omega)
    · intro i inside
      rw [next]
      exact held (i + 1) (by simpa using inside)

theorem userAt_write {page j : Nat} {content : Page} (stacked : Stacked m role d k stack)
    (plain : Plain role page) (inside : j < k + if stack then 2 else 1) :
    userAt (m.setPage page content) d j = userAt m d j := by
  obtain ⟨-, isPresent, table⟩ := stacked_table stacked inside
  simp only [userAt, pteAt, tableAt, word_plain plain (.inl stacked.dir), isPresent, if_true,
    Option.map_some, Option.bind_some, word_plain plain (.inr ⟨_, _, table⟩)]

theorem sound_copyout {trace : List Event} {succeeded complete : Bool} (walked : Walked trace)
    (whole : succeeded = true → complete = true) :
    Sound (trace ++ [.copyout succeeded complete]) := by
  constructor
  · intro index table member
    rcases List.mem_append.mp member with early | late
    · obtain ⟨i, low, is⟩ := walked _ early
      cases is
      exact ⟨low, rfl⟩
    · cases List.mem_singleton.mp late
  · intro complete' member
    rcases List.mem_append.mp member with early | late
    · obtain ⟨i, low, is⟩ := walked _ early
      cases is
    · cases List.mem_singleton.mp late
      exact whole rfl

theorem failed_copyout {trace : List Event} {succeeded complete : Bool} (walked : Walked trace)
    (failed : Failed (trace ++ [.copyout succeeded complete])) : succeeded = false := by
  obtain ⟨complete', member⟩ := failed
  rcases List.mem_append.mp member with early | late
  · obtain ⟨i, low, is⟩ := walked _ early
    cases is
  · cases List.mem_singleton.mp late
    rfl

theorem copyout_eq {va : Nat} {next : Memory} {trace : List Event} {succeeded : Bool}
    (run : copyoutLoop d bytes.length (va % 2 ^ 32) bytes m = (.done succeeded next, trace)) :
    copyout d va bytes m = (.done succeeded next,
      trace ++ [.copyout succeeded (standsAt next d (va % 2 ^ 32) bytes)]) := by
  rw [copyout, bind_done run]
  rfl

theorem copyout_stands {p : Nat} (stacked : Stacked m role d k true) (above : (k + 1) * pgsize ≤ va)
    (inside : va + bytes.length ≤ (k + 2) * pgsize) (found : userAt m d (k + 1) = some p)
    (plain : Plain role p) :
    standsAt (m.setPage p (setBytes (m.page p) (va - (k + 1) * pgsize) bytes)) d va bytes = true := by
  have bound := stacked.bound
  simp only [physPages, pgsize] at bound above inside
  refine standsAt_of_page (p := p) (by omega) (fun i lt => ?_) fun i lt => ?_
  · have page : (va + i) / pgsize % 2 ^ 18 = k + 1 := by
      simp only [pgsize]
      omega
    rw [page, userAt_write stacked plain (by simp), found]
  · have place : (va + i) % pgsize = va - (k + 1) * pgsize + i := by
      simp only [pgsize]
      omega
    rw [place]
    simp only [Memory.setPage, if_true]
    refine byteAt_setBytes_inside _ _ _ _ lt ?_
    simp only [pgsize]
    omega

theorem copyout_faulty (more : bytes ≠ [])
    (bad : 510 ≤ pdx (pgrounddown (va % 2 ^ 32)) ∨
      present (word m d (pdx (pgrounddown (va % 2 ^ 32)))) = false) :
    Faulty (copyout d va bytes m).2 := by
  obtain ⟨byte, rest, rfl⟩ := List.exists_cons_of_ne_nil more
  refine faulty_first ?_
  rw [List.length_cons, copyoutLoop, if_neg more]
  exact faulty_first (uva2ka_faulty bad)

/-- copyout of bytes that end inside the stack page and do not end below the
inaccessible page. -/
theorem copyout_run (stacked : Stacked m role d k stack) (more : bytes ≠ [])
    (reaches : k * pgsize < va + bytes.length) (inside : va + bytes.length ≤ (k + 2) * pgsize) :
    Copies (va < (k + 1) * pgsize ∨ stack = true) id
      (fun copied next => copied = decide ((k + 1) * pgsize ≤ va) ∧
        Stacked next role d k stack ∧ Fixed m next)
      (copyout d va bytes m) := by
  have bound := stacked.bound
  have small : va % 2 ^ 32 = va := by
    simp only [physPages, pgsize] at bound inside
    omega
  by_cases below : va < (k + 1) * pgsize
  · obtain ⟨next, trace, run, walked, stacked', fixed⟩ :=
      copyout_stops stacked below reaches more le_rfl
    rw [← small] at run
    rw [copyout_eq run]
    refine ⟨fun _ => ⟨false, next, rfl, sound_copyout walked (fun no => by cases no), fun _ => rfl,
      ?_, stacked', fixed⟩, fun fails => (fails (.inl below)).elim⟩
    exact (decide_eq_false (by omega)).symm
  · cases stack with
    | true =>
      obtain ⟨p, found, plain, run⟩ := copyout_inside stacked (Nat.le_of_not_lt below) inside more
        le_rfl
      have low := (stacked_table (j := k + 1) stacked (by simp)).1
      have whole := copyout_stands stacked (Nat.le_of_not_lt below) inside found plain
      rw [← small] at run
      rw [copyout_eq run, small, whole]
      refine ⟨fun _ => ⟨true, _, rfl, sound_copyout (walked_one low) (fun _ => rfl),
        failed_copyout (walked_one low), ?_, stacked_write stacked plain _, rfl, rfl, rfl⟩,
        fun fails => (fails (.inr rfl)).elim⟩
      exact (decide_eq_true (Nat.le_of_not_lt below)).symm
    | false =>
      refine ⟨fun fits => ?_, fun _ => copyout_faulty more ?_⟩
      · rcases fits with low | stack
        · exact (below low).elim
        · cases stack
      · have positive := List.length_pos_iff.mpr more
        have edge := stacked.edge rfl
        simp only [physPages, pgsize] at bound inside below
        have index : pdx (pgrounddown (va % 2 ^ 32)) = (k + 1) / 512 := by
          rw [small]
          simp only [pdx, pgrounddown, pgsize]
          omega
        rw [index]
        refine .inr ?_
        cases isPresent : present (word m d ((k + 1) / 512)) with
        | false => rfl
        | true =>
          have early := (stacked.tables _ (by omega)).mp isPresent
          simp only [Bool.false_eq_true, if_false] at early
          omega

theorem stacked_wraps (stacked : Stacked m role d k stack)
    (high : 2 ^ 32 - (physPages * pgsize + 8) ≤ va % 2 ^ 32) :
    510 ≤ pdx (pgrounddown (va % 2 ^ 32)) ∨
      present (word m d (pdx (pgrounddown (va % 2 ^ 32)))) = false := by
  have bound := stacked.bound
  simp only [physPages, pgsize] at bound high
  have index : 398 ≤ pdx (pgrounddown (va % 2 ^ 32)) := by
    simp only [pdx, pgrounddown, pgsize]
    omega
  by_cases low : pdx (pgrounddown (va % 2 ^ 32)) < 510
  · refine .inr ?_
    cases isPresent : present (word m d (pdx (pgrounddown (va % 2 ^ 32)))) with
    | false => rfl
    | true =>
      have early := (stacked.tables _ low).mp isPresent
      split at early <;> omega
  · exact .inl (by omega)

end Stack

/-! The strings and ustack. -/

section Push
variable {m : Memory} {role : Nat → Role} {d k sp argc : Nat} {stack : Bool}
  {arg : List UInt8} {argv : List (List UInt8)}

/-- What sys_exec accepts: at most MAXARG - 1 strings, each of them in the memory of
the process. -/
def Accepted (argv : List (List UInt8)) : Prop :=
  argv.length < maxarg ∧ ∀ arg ∈ argv, arg.length + 1 ≤ physPages * pgsize

/-- The stack pointer stays inside the stack page. -/
structure Pointer (k sp : Nat) : Prop where
  above : (k + 1) * pgsize ≤ sp
  inside : sp ≤ (k + 2) * pgsize
  aligned : sp % 8 = 0

theorem pushed_eq (fits : arg.length + 1 ≤ sp) (small : sp < 2 ^ 32) :
    pushed sp arg = (sp - (arg.length + 1)) / 8 * 8 := by
  simp only [pushed]
  omega

theorem push_run (stacked : Stacked m role d k stack) (pointer : Pointer k sp)
    (short : arg.length + 1 ≤ physPages * pgsize) :
    Copies (arg.length + 1 ≤ sp ∧
        ((sp - (arg.length + 1)) / 8 * 8 < (k + 1) * pgsize ∨ stack = true)) id
      (fun copied next => arg.length + 1 ≤ sp ∧
        copied = decide ((k + 1) * pgsize ≤ (sp - (arg.length + 1)) / 8 * 8) ∧
        Stacked next role d k stack ∧ Fixed m next)
      (copyout d (pushed sp arg) (arg ++ [0]) m) := by
  obtain ⟨above, inside, aligned⟩ := pointer
  have bound := stacked.bound
  have length : (arg ++ [0]).length = arg.length + 1 := by simp
  simp only [physPages, pgsize] at bound short above inside
  by_cases fits : arg.length + 1 ≤ sp
  · rw [pushed_eq fits (by omega)]
    have run : Copies _ id _ (copyout d ((sp - (arg.length + 1)) / 8 * 8) (arg ++ [0]) m) :=
      copyout_run stacked (by simp) (by rw [length]; simp only [pgsize]; omega)
        (by rw [length]; simp only [pgsize]; omega)
    exact copies_congr (and_iff_right fits).symm
      (copies_weaken run fun _ _ reached => ⟨fits, reached⟩)
  · refine ⟨fun both => (fits both.1).elim, fun _ => copyout_faulty (by simp) (stacked_wraps stacked ?_)⟩
    simp only [pushed, physPages, pgsize]
    omega

theorem pointer_pushed (pointer : Pointer k sp)
    (above : (k + 1) * pgsize ≤ (sp - (arg.length + 1)) / 8 * 8) :
    Pointer k ((sp - (arg.length + 1)) / 8 * 8) := by
  have inside := pointer.inside
  exact ⟨above, by omega, by omega⟩

theorem pushArgs_run (stacked : Stacked m role d k true) (pointer : Pointer k sp)
    (few : argc + argv.length ≤ maxarg)
    (short : ∀ arg ∈ argv, arg.length + 1 ≤ physPages * pgsize) :
    Copies (ArgsFit ((k + 1) * pgsize) true sp argv) Option.isSome
      (fun result next => Stacked next role d k true ∧ Fixed m next ∧
        ∀ pair ∈ result, Pointer k pair.1 ∧ pair.2.length = argv.length)
      (pushArgs d argc sp argv m) := by
  induction argv generalizing m argc sp with
  | nil =>
    refine copies_pure rfl ⟨stacked, fixed_refl m, ?_⟩
    rintro pair ⟨⟩
    exact ⟨pointer, rfl⟩
  | cons arg rest ih =>
    have bound := stacked.bound
    have inside := pointer.inside
    simp only [physPages, pgsize] at bound inside
    rw [List.length_cons] at few
    rw [pushArgs, if_neg (by omega)]
    have split : ArgsFit ((k + 1) * pgsize) true sp (arg :: rest) ↔
        (arg.length + 1 ≤ sp ∧ ((sp - (arg.length + 1)) / 8 * 8 < (k + 1) * pgsize ∨ true = true)) ∧
          ((sp - (arg.length + 1)) / 8 * 8 < (k + 1) * pgsize ∨
            ArgsFit ((k + 1) * pgsize) true ((sp - (arg.length + 1)) / 8 * 8) rest) := by
      simp only [ArgsFit, or_true, and_true, true_and]
    refine copies_then (push_run stacked pointer (short arg List.mem_cons_self)) split ?_ ?_
    · rintro - copied middle ⟨fits, rfl, stacked', fixed⟩
      by_cases above : (k + 1) * pgsize ≤ (sp - (arg.length + 1)) / 8 * 8
      · rw [decide_eq_true above, pushed_eq fits (by omega)]
        refine copies_congr (or_iff_right (Nat.not_lt.mpr above)).symm ?_
        have later : Copies _ _ _ (pushArgs d (argc + 1) ((sp - (arg.length + 1)) / 8 * 8) rest
            middle) := ih stacked' (pointer_pushed pointer above) (by omega)
          fun other member => short other (List.mem_cons_of_mem _ member)
        refine copies_then later (and_true _).symm.to_iff ?_ ?_
        · rintro - (_ | ⟨last, addresses⟩) after ⟨stacked'', fixed', ends⟩
          · refine copies_pure trivial ⟨stacked'', fixed_trans fixed fixed', ?_⟩
            rintro pair ⟨⟩
          · obtain ⟨pointer', length⟩ := ends _ rfl
            refine copies_pure trivial ⟨stacked'', fixed_trans fixed fixed', ?_⟩
            rintro pair ⟨⟩
            exact ⟨pointer', by simp [length]⟩
        · rintro (_ | ⟨last, addresses⟩) after result final - failed ⟨⟩
          · rfl
          · cases failed
      · rw [decide_eq_false above]
        refine copies_pure (.inl (by omega)) ⟨stacked', fixed, ?_⟩
        rintro pair ⟨⟩
    · rintro (_ | _) middle result after - failed ran
      · cases ran
        rfl
      · cases failed

theorem pushArgs_short (stacked : Stacked m role d k false) (pointer : Pointer k sp)
    (few : argc < maxarg) (short : arg.length + 1 ≤ physPages * pgsize) :
    Copies (ArgsFit ((k + 1) * pgsize) false sp (arg :: argv)) Option.isSome
      (fun result next => result = none ∧ Stacked next role d k false ∧ Fixed m next)
      (pushArgs d argc sp (arg :: argv) m) := by
  rw [pushArgs, if_neg (by omega)]
  have split : ArgsFit ((k + 1) * pgsize) false sp (arg :: argv) ↔
      (arg.length + 1 ≤ sp ∧ ((sp - (arg.length + 1)) / 8 * 8 < (k + 1) * pgsize ∨ false = true)) ∧
        (sp - (arg.length + 1)) / 8 * 8 < (k + 1) * pgsize := by
    simp [ArgsFit]
  refine copies_then (push_run stacked pointer short) split ?_ ?_
  · rintro ⟨-, low | stack⟩ copied middle ⟨fits, rfl, stacked', fixed⟩
    · rw [decide_eq_false (by omega)]
      exact copies_pure low ⟨rfl, stacked', fixed⟩
    · cases stack
  · rintro (_ | _) middle result after - failed ran
    · cases ran
      rfl
    · cases failed

theorem length_ustack (addresses : List Nat) : (ustack sp addresses).length = addresses.length + 4 := by
  simp [ustack]

theorem length_wordBytes (words : List Nat) :
    (words.flatMap wordBytes).length = words.length * 8 := by
  induction words with
  | nil => rfl
  | cons value rest ih =>
    rw [List.flatMap_cons, List.length_append, ih, List.length_cons, wordBytes, List.length_map,
      List.length_range]
    omega

theorem ustack_run {addresses : List Nat} (stacked : Stacked m role d k stack)
    (pointer : Pointer k sp) (few : addresses.length < maxarg) :
    Copies (sp - (addresses.length + 4) * 8 < (k + 1) * pgsize ∨ stack = true) id
      (fun _ next => Stacked next role d k stack ∧ Fixed m next)
      (copyout d ((sp + 2 ^ 64 - (ustack sp addresses).length * 8) % 2 ^ 64)
        ((ustack sp addresses).flatMap wordBytes) m) := by
  obtain ⟨above, inside, aligned⟩ := pointer
  have bound := stacked.bound
  simp only [physPages, pgsize, maxarg] at bound above inside few
  have place : (sp + 2 ^ 64 - (ustack sp addresses).length * 8) % 2 ^ 64 =
      sp - (addresses.length + 4) * 8 := by
    rw [length_ustack]
    omega
  have length : ((ustack sp addresses).flatMap wordBytes).length = (addresses.length + 4) * 8 := by
    rw [length_wordBytes, length_ustack]
  rw [place]
  refine copies_weaken (copyout_run stacked ?_ ?_ ?_) fun _ _ reached => reached.2
  · rw [← List.length_pos_iff, length]
    omega
  · rw [length]
    simp only [pgsize]
    omega
  · rw [length]
    simp only [pgsize]
    omega

end Push

/-! setupStack -/

section Setup
variable {m : Memory} {role : Nat → Role} {d n k : Nat} {stack : Bool} {plan : Plan}
  {argv : List (List UInt8)}

theorem clearpteu_run (dense : Dense m role d n n) (bound : n ≤ physPages)
    (ends : n = k + if stack then 2 else 1) (edge : stack = false → (k + 1) % 512 = 0) :
    ∃ next, clearpteu d (k * pgsize) m = (.done () next, []) ∧ Stacked next role d k stack ∧
      Fixed m next ∧ ∃ p, word m (pteAddr (word m d (k / 512))) (k % 512) = entry p allFlags ∧
        next = m.setWord (pteAddr (word m d (k / 512))) (k % 512) (entry p (pteW ||| pteP)) := by
  have inside : k < n := by
    rw [ends]
    split <;> omega
  simp only [physPages] at bound
  obtain ⟨p, is⟩ := dense.mapped k inside
  have isPresent := (dense.tables (k / 512) (by omega)).mpr (by omega)
  have table := table_of_dense dense inside
  obtain ⟨-, near⟩ := table_inside dense.roles dense.dir (by omega) isPresent
  have small : k % 512 < 512 := Nat.mod_lt _ (by decide)
  have leaf := role_of_pte dense.roles table small (by rw [is, present_entry (by decide)])
  rw [is, pteAddr_entry (by decide)] at leaf
  have frame := (dense.roles.range p (by simp [leaf])).2
  have cleared : (if user (entry p allFlags) then entry p allFlags - pteU else entry p allFlags) =
      entry p (pteW ||| pteP) := by
    rw [user, testBit_entry (by decide), if_pos (by decide), entry_eq (by decide),
      entry_eq (by decide)]
    rw [show allFlags = 7 from rfl, show pteW ||| pteP = 3 from rfl, show pteU = 4 from rfl]
    omega
  have read : ∀ q j, word (m.setWord (pteAddr (word m d (k / 512))) (k % 512)
      (entry p (pteW ||| pteP))) q j = if q = pteAddr (word m d (k / 512)) ∧ j = k % 512 then
        entry p (pteW ||| pteP) else word m q j :=
    fun q j => word_setWord small (entry_lt (by decide) frame)
  have top : ∀ i, word (m.setWord (pteAddr (word m d (k / 512))) (k % 512)
      (entry p (pteW ||| pteP))) d i = word m d i := by
    intro i
    rw [read, if_neg]
    rintro ⟨same, -⟩
    rw [← same, dense.dir] at table
    cases table
  refine ⟨m.setWord (pteAddr (word m d (k / 512))) (k % 512) (entry p (pteW ||| pteP)), ?_,
    ⟨roles_reflag dense.roles table small is (by decide) (by decide) (by decide) (by decide),
      dense.dir, ?_, ⟨p, ?_⟩, ?_, edge, ?_⟩, ⟨rfl, rfl, rfl⟩, p, is, rfl⟩
  · have index : pdx (k * pgsize) = k / 512 := pdx_page (by omega)
    rw [clearpteu, bind_done (walk_present (by rw [index, isPresent])), index, ptx_page]
    simp only [bind_run, load_run near, is, cleared, store_run near, List.nil_append]
  · intro i low
    rw [top, dense.tables i low, ends]
  · rw [top, read, if_pos ⟨rfl, rfl⟩]
  · intro full
    rw [full, if_pos rfl] at ends
    obtain ⟨q, isNext⟩ := dense.mapped (k + 1) (by omega)
    refine ⟨q, ?_⟩
    rw [top, read, if_neg, isNext]
    rintro ⟨same, slot⟩
    have theirs := table_of_dense dense (by omega : k + 1 < n)
    rw [same, table] at theirs
    injection theirs with _ same
    omega
  · simp only [physPages]
    omega

theorem fill_run (stacked : Stacked m role d k stack) (accepted : Accepted argv) :
    Copies (ArgsFit ((k + 1) * pgsize) stack ((k + 2) * pgsize) argv) id
      (fun _ next => Roles next role ∧ Fixed m next)
      ((do
        match ← pushArgs d 0 ((k + 2) * pgsize) argv with
        | none => pure false
        | some (sp, addresses) =>
          let words := ustack sp addresses
          copyout d ((sp + 2 ^ 64 - words.length * 8) % 2 ^ 64) (words.flatMap wordBytes)) m) := by
  obtain ⟨few, short⟩ := accepted
  have pointer : Pointer k ((k + 2) * pgsize) := by
    constructor <;> simp only [pgsize] <;> omega
  have gives_up : ∀ {result : Option (Nat × List Nat)} {middle after : Memory} {copied : Bool},
      result.isSome = false → ((match result with
        | none => pure false
        | some (sp, addresses) =>
          let words := ustack sp addresses
          copyout d ((sp + 2 ^ 64 - words.length * 8) % 2 ^ 64) (words.flatMap wordBytes)) middle).1 =
        .done copied after → id copied = false := by
    rintro (_ | pair) middle after copied failed run
    · cases run
      rfl
    · cases failed
  cases stack with
  | true =>
    refine copies_then (pushArgs_run stacked pointer (by omega) short) (and_true _).symm.to_iff ?_
      fun _ _ _ _ _ failed => gives_up failed
    rintro - (_ | ⟨sp, addresses⟩) middle ⟨stacked', fixed, ends⟩
    · exact copies_pure trivial ⟨stacked'.roles, fixed⟩
    · obtain ⟨pointer', length⟩ := ends _ rfl
      refine copies_congr (iff_of_true (.inr rfl) trivial) (copies_weaken
        (ustack_run stacked' pointer' (by rw [length]; exact few)) ?_)
      exact fun _ _ later => ⟨later.1.roles, fixed_trans fixed later.2⟩
  | false =>
    cases argv with
    | nil =>
      refine copies_quiet rfl (copies_congr ?_ (copies_weaken
        (ustack_run stacked pointer (by decide : ([] : List Nat).length < maxarg))
        fun _ _ later => ⟨later.1.roles, later.2⟩))
      simp only [ArgsFit, List.length_nil, pgsize, Bool.false_eq_true, or_false, iff_false]
      omega
    | cons arg rest =>
      refine copies_then (pushArgs_short stacked pointer (by decide)
        (short arg List.mem_cons_self)) (and_true _).symm.to_iff ?_
        fun _ _ _ _ _ failed => gives_up failed
      rintro - result middle ⟨rfl, stacked', fixed⟩
      exact copies_pure trivial ⟨stacked'.roles, fixed⟩

theorem grow_stack (aligned : plan.size % pgsize = 0) :
    grow plan (plan.size + 2 * pgsize) = (growLoop 2 plan.mapped plan.free).map
      fun (mapped, free) => ⟨mapped, plan.size + 2 * pgsize, free⟩ := by
  have two : pages (plan.size + 2 * pgsize) - pages plan.size = 2 := by
    simp only [pages, pgsize] at aligned ⊢
    omega
  rw [grow, if_neg (by omega), two]

theorem stackPages_run (holds : Holds plan m role d) (aligned : plan.size % pgsize = 0) :
    plan.size + 2 * pgsize < 0x3fc00000 ∧
    match growLoop 2 plan.mapped plan.free with
    | none => Returns m role d 0 (allocuvm d plan.size (plan.size + 2 * pgsize) m)
    | some (n, f) => ∃ after role', allocuvm d plan.size (plan.size + 2 * pgsize) m =
          (.done (plan.size + 2 * pgsize) after, []) ∧
        Filled after role' d n f ∧ Local d role role' ∧ Fixed m after ∧
        plan.size = plan.mapped * pgsize ∧
        n = plan.mapped + (if decide (n = plan.mapped + 2) then 2 else 1) ∧
        (decide (n = plan.mapped + 2) = false → (plan.mapped + 1) % 512 = 0) := by
  have total := holds.filled.total
  have size := holds.size
  have bound : plan.size + 2 * pgsize < 0x3fc00000 := by
    simp only [pages, pgsize, physPages] at size total ⊢
    omega
  have limit : plan.size + 2 * pgsize ≤ walkLimit plan := by
    refine le_trans bound.le ?_
    rw [walkLimit]
    split <;> decide
  have alloc := allocuvm_run holds (by omega : plan.size + 2 * pgsize < 2 ^ 32)
  rw [grow_stack aligned] at alloc
  refine ⟨bound, ?_⟩
  cases grown : growLoop 2 plan.mapped plan.free with
  | none =>
    simp only [grown, Option.map_none, if_pos limit] at alloc
    exact alloc
  | some pair =>
    obtain ⟨n, f⟩ := pair
    simp only [grown, Option.map_some] at alloc
    obtain ⟨after, role', run, holds', change, fixed⟩ := alloc
    have whole : plan.size = plan.mapped * pgsize := by
      rcases size with exact_ | ⟨-, -, none⟩
      · simp only [pages, pgsize] at aligned exact_ ⊢
        omega
      · rw [none, growLoop, if_pos rfl] at grown
        cases grown
    have counted : pages (plan.size + 2 * pgsize) = plan.mapped + 2 := by
      rw [whole]
      simp only [pages, pgsize]
      omega
    have ends := holds'.size
    rw [counted] at ends
    refine ⟨after, role', run, holds'.filled, change, fixed, whole, ?_, fun missing => ?_⟩
    · by_cases stack : n = plan.mapped + 2
      · simp [stack]
      · rw [decide_eq_false stack, if_neg (by decide)]
        rcases ends with is | ⟨is, -⟩
        · exact (stack is.symm).elim
        · exact (Nat.succ.inj is).symm
    · have short := of_decide_eq_false missing
      simp only at ends
      omega

theorem setupStack_aligned (holds : Holds plan m role d) (aligned : plan.size % pgsize = 0)
    (accepted : Accepted argv) :
    Copies (StackFits plan argv) id (fun _ next => Changed m role d next)
      (setupStack d plan.size argv m) := by
  obtain ⟨bound, alloc⟩ := stackPages_run holds aligned
  rw [setupStack, Nat.mod_eq_of_lt (by omega : plan.size < 2 ^ 32),
    Nat.mod_eq_of_lt (by omega : plan.size + 2 * pgsize < 2 ^ 32), StackFits]
  cases grown : growLoop 2 plan.mapped plan.free with
  | none =>
    rw [grown] at alloc
    obtain ⟨next, run, changed⟩ := alloc
    refine copies_quiet run ?_
    rw [if_pos rfl]
    exact copies_pure trivial changed
  | some pair =>
    obtain ⟨n, f⟩ := pair
    rw [grown] at alloc
    obtain ⟨after, role', run, filled, change, fixed, whole, last, edge⟩ := alloc
    obtain ⟨next, cleared, stacked, fixed', -⟩ := clearpteu_run filled.dense
      (le_trans (Nat.le_add_right n f) filled.total) last edge
    have extended : signExtend (plan.size + 2 * pgsize) = (plan.mapped + 2) * pgsize := by
      rw [signExtend, if_pos (by omega), whole, Nat.add_mul]
    have bottom : (plan.mapped + 2) * pgsize - 2 * pgsize = plan.mapped * pgsize := by
      rw [Nat.add_mul, Nat.add_sub_cancel]
    refine copies_quiet run ?_
    rw [if_neg (by simp only [pgsize]; omega), extended, bottom]
    refine copies_quiet cleared (copies_weaken (fill_run stacked accepted) ?_)
    exact fun _ _ later => ⟨role', later.1, change, fixed_trans fixed (fixed_trans fixed' later.2)⟩

theorem setupStack_run (holds : Holds plan m role d) (accepted : Accepted argv) :
    Copies (StackFits plan argv) id (fun _ next => Changed m role d next)
      (setupStack d (pgroundup plan.size) argv m) := by
  have small := holds_small holds
  have size := holds.size
  have start : pgroundup plan.size = pages plan.size * 4096 := pgroundup_eq (by omega)
  rw [start]
  have same : pages (pages plan.size * 4096) = pages plan.size := by
    simp only [pages]
    omega
  have holds' : Holds { plan with size := pages plan.size * 4096 } m role d :=
    ⟨holds.filled, by rw [same]; exact size⟩
  have run := setupStack_aligned holds' (Nat.mul_mod_left ..) accepted
  simp only [StackFits] at run ⊢
  exact run

end Setup

end Xv6.Arguments
