import Xv6.Growth

/-! The loading part of exec. A run of it reports which pages loaduvm filled, and it is
judged by the plan: the image fits exactly when no panic is reached and every page
that was filled is mapped at its address. -/
namespace Xv6.Loading
open TraceMonad BitField Vm VmSpec PageTables AddressSpaces Exec ExecPlan Growth

def OnlyLoads (trace : List Event) : Prop := ∀ event ∈ trace, ∃ mapped, event = .load mapped

def AllMapped (trace : List Event) : Prop := ∀ mapped, .load mapped ∈ trace → mapped = true

/-- A run that reports loads only. When the image does not fit, it panics with the plan
broken or it fills a page that is not mapped. -/
def Loads {α : Type} (fits broken : Prop) (post : α → Memory → Prop)
    (run : Outcome Memory Panic α × List Event) : Prop :=
  OnlyLoads run.2 ∧
    match run.1 with
    | .done value next => (fits ↔ AllMapped run.2) ∧ post value next
    | .halt _ _ => ¬ fits ∧ broken

section Judgement
variable {α β : Type} {fits broken : Prop} {post : α → Memory → Prop} {m middle : Memory}

theorem onlyLoads_nil : OnlyLoads [] := fun _ member => (List.not_mem_nil member).elim

theorem allMapped_nil : AllMapped [] := fun _ member => (List.not_mem_nil member).elim

theorem onlyLoads_append {first second : List Event} (one : OnlyLoads first)
    (two : OnlyLoads second) : OnlyLoads (first ++ second) := by
  intro event member
  rcases List.mem_append.mp member with early | late
  · exact one event early
  · exact two event late

theorem allMapped_append {first second : List Event} :
    AllMapped (first ++ second) ↔ AllMapped first ∧ AllMapped second := by
  simp only [AllMapped, List.mem_append]
  constructor
  · exact fun all => ⟨fun mapped early => all mapped (.inl early),
      fun mapped late => all mapped (.inr late)⟩
  · rintro ⟨one, two⟩ mapped (early | late)
    · exact one mapped early
    · exact two mapped late

theorem loads_congr {fits' : Prop} {run : Outcome Memory Panic α × List Event}
    (same : fits ↔ fits') (loads : Loads fits broken post run) : Loads fits' broken post run := by
  rwa [propext same] at loads

theorem loads_weaken {weak : α → Memory → Prop} {run : Outcome Memory Panic α × List Event}
    (loads : Loads fits broken post run) (implies : ∀ value next, post value next → weak value next) :
    Loads fits broken weak run := by
  obtain ⟨only, ends⟩ := loads
  refine ⟨only, ?_⟩
  rcases run with ⟨_ | _, events⟩
  · exact ⟨ends.1, implies _ _ ends.2⟩
  · exact ends

theorem loads_pure {value : α} (holds : fits) (reached : post value m) :
    Loads fits broken post ((pure value : VmM α) m) :=
  ⟨onlyLoads_nil, ⟨fun _ => allMapped_nil, fun _ => holds⟩, reached⟩

theorem loads_halt {reason : Panic} {stopped : Memory} (fails : ¬ fits) (lost : broken) :
    Loads fits broken post (.halt reason stopped, []) :=
  ⟨onlyLoads_nil, fails, lost⟩

theorem loads_stop {post : β → Memory → Prop} {first : VmM α} {next : α → VmM β} {reason : Panic}
    {stopped : Memory} (run : first m = (.halt reason stopped, [])) (fails : ¬ fits)
    (lost : broken) : Loads fits broken post ((first >>= next) m) := by
  rw [bind_halt run]
  exact loads_halt fails lost

theorem loads_quiet {post : β → Memory → Prop} {first : VmM α} {next : α → VmM β} {value : α}
    (run : first m = (.done value middle, [])) (later : Loads fits broken post (next value middle)) :
    Loads fits broken post ((first >>= next) m) := by
  rwa [bind_quiet run]

theorem loads_whenever {condition : Prop} [Decidable condition] {action : VmM Unit}
    {next : Unit → VmM α} (holds : condition)
    (later : Loads fits broken post ((action >>= next) m)) :
    Loads fits broken post ((whenever condition action >>= next) m) := by
  rwa [whenever_true holds]

theorem loads_then {first : VmM α} {next : α → VmM β} {early rest lost : Prop}
    {between : α → Memory → Prop} {post : β → Memory → Prop}
    (loads : Loads early lost between (first m)) (both : fits ↔ early ∧ rest)
    (passed : lost → broken)
    (later : ∀ value middle, between value middle → Loads rest broken post (next value middle)) :
    Loads fits broken post ((first >>= next) m) := by
  obtain ⟨only, ends⟩ := loads
  rcases run : first m with ⟨outcome, events⟩
  rw [run] at only ends
  cases outcome with
  | halt reason stopped =>
    rw [bind_halt run]
    exact ⟨only, fun holds => ends.1 (both.mp holds).1, passed ends.2⟩
  | done value middle =>
    obtain ⟨mapped, reached⟩ := ends
    obtain ⟨only', ends'⟩ := later value middle reached
    rw [bind_done run]
    refine ⟨onlyLoads_append only only', ?_⟩
    rcases run' : next value middle with ⟨outcome, events'⟩
    rw [run'] at ends'
    cases outcome with
    | halt reason stopped => exact ⟨fun holds => ends'.1 (both.mp holds).2, ends'.2⟩
    | done result after =>
      refine ⟨?_, ends'.2⟩
      rw [both, allMapped_append, mapped, ends'.1]

theorem loads_event {next : Unit → VmM α} {seen : Bool} {rest : Prop} (both : fits ↔ seen = true ∧ rest)
    (later : Loads rest broken post (next () m)) :
    Loads fits broken post ((emit (.load seen) >>= next) m) := by
  have report : Loads (seen = true) False (fun _ after => after = m)
      ((emit (.load seen) : VmM Unit) m) := by
    refine ⟨?_, ⟨?_, ?_⟩, rfl⟩
    · rintro event (_ | ⟨_, ⟨⟩⟩)
      exact ⟨seen, rfl⟩
    · rintro isSeen mapped (_ | ⟨_, ⟨⟩⟩)
      exact isSeen
    · exact fun all => all seen (List.mem_singleton_self _)
  refine loads_then report both False.elim ?_
  rintro ⟨⟩ middle rfl
  exact later

end Judgement

/-! loaduvm -/

section Pages
variable {m : Memory} {role : Nat → Role} {d n f va page count i : Nat}

theorem pdx_index (va : Nat) : pdx va = va / pgsize % 2 ^ 18 / 512 := by
  simp only [pdx, pgsize]
  omega

theorem ptx_index (va : Nat) : ptx va = va / pgsize % 2 ^ 18 % 512 := by
  simp only [ptx, pgsize]
  omega

/-- A page that holds neither a page directory nor a page table. -/
def Plain (role : Nat → Role) (page : Nat) : Prop :=
  role page ≠ .dir ∧ ∀ d i, role page ≠ .table d i

theorem word_plain {content : Page} {q : Nat} (plain : Plain role page)
    (is : role q = .dir ∨ ∃ d i, role q = .table d i) (j : Nat) :
    word (m.setPage page content) q j = word m q j := by
  refine word_setPage_other ?_
  rintro rfl
  rcases is with dir | ⟨e, i, table⟩
  · exact plain.1 dir
  · exact plain.2 e i table

theorem filled_write (filled : Filled m role d n f) (plain : Plain role page) (content : Page) :
    Filled (m.setPage page content) role d n f ∧ Fixed m (m.setPage page content) := by
  have same : ∀ q, role q = .dir ∨ (∃ d i, role q = .table d i) →
      ∀ j, word (m.setPage page content) q j = word m q j := fun _ is => word_plain plain is
  exact ⟨⟨dense_congr filled.dense (roles_congr filled.dense.roles rfl rfl same) filled.dense.dir
    (fun _ _ _ leaf => leaf) same, filled.free, filled.total⟩, rfl, rfl, rfl⟩

theorem role_zero (roles : Roles m role) : role 0 = .kernel := by
  by_contra known
  have low := (roles.range 0 known).1
  have positive := roles.positive
  omega

theorem walk_beyond (filled : Filled m role d n f)
    (beyond : tableEnd n ≤ va / pgsize % 2 ^ 18) :
    walkpgdir d va false m = (.done none m, []) ∨
      ∃ t i, walkpgdir d va false m = (.done (some (t, i)) m, []) ∧ linearPages ≤ t := by
  have index := pdx_index va
  simp only [tableEnd] at beyond
  by_cases low : pdx va < 510
  · refine .inl (walk_absent ?_)
    cases isPresent : present (word m d (pdx va)) with
    | false => rfl
    | true =>
      have early := (filled.dense.tables _ low).mp isPresent
      omega
  · obtain ⟨isPresent, far⟩ := back_outside filled.dense.roles filled.dense.dir (by omega)
      (pdx_lt : pdx va < 512)
    exact .inr ⟨_, _, walk_present isPresent, far⟩

/-- Below the end of the page tables loaduvm finds a page: the one mapped at va, or
physical page 0. -/
theorem walk_below (filled : Filled m role d n f)
    (below : va / pgsize % 2 ^ 18 < tableEnd n) :
    ∃ t i page, walkpgdir d va false m = (.done (some (t, i)) m, []) ∧ t < linearPages ∧
      pteAddr (word m t i) % 2 ^ 20 = page ∧ page < linearPages ∧ Plain role page ∧
      (leafAt m d (va / pgsize % 2 ^ 18) = some page ↔ va / pgsize % 2 ^ 18 < n) := by
  have total := filled.total
  have dense := filled.dense
  simp only [tableEnd, physPages] at below total
  have low : pdx va < 510 := by
    rw [pdx_index]
    omega
  have user : va / pgsize % 2 ^ 18 < 510 * 512 :=
    lt_of_lt_of_le below (by omega)
  have isPresent := (dense.tables _ low).mpr (by rw [pdx_index]; omega)
  obtain ⟨table, inside⟩ := table_inside dense.roles dense.dir low isPresent
  have place : ∀ page, leafAt m d (va / pgsize % 2 ^ 18) = some page ↔
      role page = .leaf d (pdx va) (ptx va) := by
    intro page
    rw [leafAt_iff dense.roles dense.dir user, pdx_index, ptx_index]
  cases full : present (word m (pteAddr (word m d (pdx va))) (ptx va)) with
  | false =>
    have blank := dense.roles.blank _ _ _ _ table ptx_lt full
    have kernel := role_zero dense.roles
    refine ⟨_, _, 0, walk_present isPresent, inside, ?_, by decide, by simp [Plain, kernel], ?_⟩
    · rw [blank, pteAddr, Nat.zero_div, Nat.zero_mod]
    · rw [place, kernel]
      constructor
      · intro leaf
        cases leaf
      · intro mapped
        obtain ⟨p, is⟩ := dense.mapped _ mapped
        rw [← pdx_index, ← ptx_index] at is
        rw [is, present_entry (by decide)] at full
        cases full
  | true =>
    have leaf := role_of_pte dense.roles table ptx_lt full
    have bound : pteAddr (word m (pteAddr (word m d (pdx va))) (ptx va)) < physPages :=
      (dense.roles.range _ (by simp [leaf])).2
    simp only [physPages] at bound
    refine ⟨_, _, _, walk_present isPresent, inside, Nat.mod_eq_of_lt (by omega), ?_,
      by simp [Plain, leaf], ?_⟩
    · simp only [linearPages]
      omega
    · have early := dense.below _ _ _ leaf
      rw [place]
      refine ⟨fun _ => ?_, fun _ => leaf⟩
      rw [pdx_index, ptx_index] at early
      omega

theorem covered_below {addr : Nat} {bytes : Option (List UInt8)} (covered : Covered n addr i bytes) :
    (addr + i) % 2 ^ 64 / pgsize % 2 ^ 18 < tableEnd n := by
  have le : n ≤ tableEnd n := by
    simp only [tableEnd]
    omega
  rcases bytes with _ | _ | ⟨byte, rest⟩
  · exact covered
  · exact covered
  · exact lt_of_lt_of_le covered le

theorem loadLoop_run {addr offset size : Nat} {file : List UInt8} (filled : Filled m role d n f) :
    Loads (PagesFit n addr file offset size count i)
      (pagesRead n addr file offset size count i = false)
      (fun read next => read = pagesRead n addr file offset size count i ∧
        Filled next role d n f ∧ Fixed m next)
      (loadLoop d addr file offset size count i m) := by
  induction count generalizing m i with
  | zero => exact loads_pure trivial ⟨rfl, filled, fixed_refl m⟩
  | succ count ih =>
    rw [loadLoop]
    by_cases below : (addr + i) % 2 ^ 64 / pgsize % 2 ^ 18 < tableEnd n
    · obtain ⟨t, j, page, walk, inside, is, low, plain, mapped⟩ := walk_below filled below
      have reading : readi file ((offset + i) % 2 ^ 32) (min (size - i) pgsize) =
        chunk file offset size i := rfl
      have read : pagesRead n addr file offset size (count + 1) i =
          (fullChunk file offset size i &&
            pagesRead n addr file offset size count (i + pgsize)) := by
        rw [pagesRead, decide_eq_true below, Bool.true_and]
      refine loads_quiet walk (loads_quiet (load_run inside) ?_)
      simp only [is, reading]
      rw [PagesFit, read]
      cases got : chunk file offset size i with
      | none =>
        have short : fullChunk file offset size i = false := by rw [fullChunk, got]; rfl
        exact loads_pure ⟨below, by simp [short]⟩ ⟨by simp [short], filled, fixed_refl m⟩
      | some bytes =>
        have full : fullChunk file offset size i =
            (bytes.length == min (size - i) pgsize) := by
          rw [fullChunk, got]
          rfl
        -- What follows once the bytes of this page are in place.
        have rest : ∀ middle, Filled middle role d n f → Fixed m middle →
            Loads (fullChunk file offset size i = true →
                PagesFit n addr file offset size count (i + pgsize))
              ((fullChunk file offset size i &&
                pagesRead n addr file offset size count (i + pgsize)) = false)
              (fun read next => read = (fullChunk file offset size i &&
                pagesRead n addr file offset size count (i + pgsize)) ∧
                  Filled next role d n f ∧ Fixed m next)
              ((if bytes.length ≠ min (size - i) pgsize then pure false
                else loadLoop d addr file offset size count (i + pgsize)) middle) := by
          intro middle filled' fixed
          by_cases whole : bytes.length = min (size - i) pgsize
          · rw [full, if_neg (by simp [whole])]
            simp only [whole, beq_self_eq_true, true_imp_iff, Bool.true_and]
            exact loads_weaken (ih filled') fun _ _ later =>
              ⟨later.1, later.2.1, fixed_trans fixed later.2.2⟩
          · rw [full, if_pos whole]
            exact loads_pure (by simp [whole]) ⟨by simp [whole], filled', fixed⟩
        by_cases empty : bytes = []
        · refine loads_quiet (whenever_false (by simp [empty]) m) ?_
          refine loads_congr ?_ (rest m filled (fixed_refl m))
          rw [empty]
          exact (and_iff_right below).symm
        · refine loads_whenever empty ?_
          rw [if_neg (by omega), bind_assoc_action]
          obtain ⟨filled', fixed⟩ := filled_write filled plain (setBytes (m.page page) 0 bytes)
          refine loads_quiet rfl ?_
          rw [bind_assoc_action]
          refine loads_event ?_ (loads_quiet rfl (rest _ filled' fixed))
          obtain ⟨byte, others, rfl⟩ := List.exists_cons_of_ne_nil empty
          refine and_congr_left' ?_
          rw [beq_iff_eq, mapped]
          rfl
    · have fails : ¬ PagesFit n addr file offset size (count + 1) i := by
        rintro ⟨covered, -⟩
        exact below (covered_below covered)
      have broken : pagesRead n addr file offset size (count + 1) i = false := by
        rw [pagesRead, decide_eq_false below]
        rfl
      rcases walk_beyond filled (Nat.le_of_not_lt below) with walk | ⟨t, j, walk, far⟩
      · exact loads_quiet walk (loads_halt fails broken)
      · exact loads_quiet walk (loads_stop (load_trap far) fails broken)

end Pages

/-! The loop over the program headers. -/

section Segments
variable {m : Memory} {role : Nat → Role} {d count off : Nat} {plan : Plan} {file : List UInt8}

theorem loaduvm_run {ph : Proghdr} (filled : Filled m role d plan.mapped plan.free) :
    Loads (SegmentFits plan file ph) (segmentRead plan file ph = false)
      (fun read next => read = segmentRead plan file ph ∧
        Filled next role d plan.mapped plan.free ∧ Fixed m next)
      (loaduvm d ph.vaddr file ph.off ph.filesz m) := by
  rw [loaduvm, SegmentFits, segmentRead]
  by_cases aligned : ph.vaddr % pgsize = 0
  · rw [if_neg (by simp [aligned]), decide_eq_true aligned, Bool.true_and]
    exact loads_congr (and_iff_right aligned).symm (loadLoop_run filled)
  · rw [if_pos aligned, decide_eq_false aligned]
    exact loads_halt (fun both => aligned both.1) rfl

theorem holds_small (holds : Holds plan m role d) : plan.size < 2 ^ 31 := by
  have total := holds.filled.total
  have size := holds.size
  simp only [physPages, pages] at total size
  omega

/-- What is left of the plan after the program headers. -/
def Planned (m : Memory) (role : Nat → Role) (d : Nat) (planned : Option Plan) (result : Option Nat)
    (next : Memory) : Prop :=
  ∃ role', Local d role role' ∧ Fixed m next ∧
    match planned with
    | some plan => result = some plan.size ∧ Holds plan next role' d
    | none => result = none ∧ Roles next role'

theorem planned_later {middle next : Memory} {role' : Nat → Role} {planned : Option Plan}
    {result : Option Nat} (change : Local d role role') (fixed : Fixed m middle)
    (later : Planned middle role' d planned result next) : Planned m role d planned result next := by
  obtain ⟨last, change', fixed', ends⟩ := later
  exact ⟨last, local_trans change change', fixed_trans fixed fixed', ends⟩

theorem planned_none (roles : Roles m role) : Planned m role d none none m :=
  ⟨role, local_refl, fixed_refl m, rfl, roles⟩

theorem loadSegments_run (holds : Holds plan m role d) :
    Loads (SegmentsFit file count off plan) (planSegments file count off plan = none)
      (Planned m role d (planSegments file count off plan))
      (loadSegments d file count off plan.size m) := by
  induction count generalizing m role off plan with
  | zero => exact loads_pure trivial ⟨role, local_refl, fixed_refl m, rfl, holds⟩
  | succ count ih =>
    rw [loadSegments, SegmentsFit, planSegments]
    have roles := holds.filled.dense.roles
    cases got : readi file off proghdrSize with
    | none =>
      have missing : headerAt file off = none := by rw [headerAt, got]; rfl
      rw [missing]
      exact loads_pure trivial (planned_none roles)
    | some bytes =>
      by_cases whole : bytes.length = proghdrSize
      · have header : headerAt file off = some (readProghdr bytes) := by
          rw [headerAt, got, Option.bind_some, if_pos whole]
        rw [header]
        simp only [whole, ne_eq, not_true_eq_false, if_false, Option.bind_some]
        generalize readProghdr bytes = ph
        by_cases other : ph.type = elfProgLoad
        · simp only [other, not_true_eq_false, if_false]
          by_cases bad : ph.memsz < ph.filesz
          · simp only [if_pos bad]
            exact loads_pure trivial (planned_none roles)
          · simp only [if_neg bad]
            have size := holds_small holds
            rw [Nat.mod_eq_of_lt (by omega : plan.size < 2 ^ 32)]
            have small : newSize ph < 2 ^ 32 := Nat.mod_lt _ (by decide)
            have alloc := allocuvm_run holds small
            cases grown : grow plan (newSize ph) with
            | none =>
              rw [grown] at alloc
              simp only [Option.bind_none]
              split_ifs at alloc with within
              · obtain ⟨next, run, last, roles', change, fixed⟩ := alloc
                exact loads_quiet run (loads_pure within ⟨last, change, fixed, rfl, roles'⟩)
              · obtain ⟨stopped, run⟩ := alloc
                exact loads_stop run within trivial
            | some next =>
              rw [grown] at alloc
              obtain ⟨after, role', run, holds', change, fixed⟩ := alloc
              refine loads_quiet run ?_
              simp only [Option.bind_some]
              by_cases zero : next.size = 0
              · rw [if_pos zero, if_pos zero]
                exact loads_pure (.inl zero) (planned_later change fixed
                  (planned_none holds'.filled.dense.roles))
              · rw [if_neg zero, if_neg zero]
                refine loads_congr (or_iff_right zero).symm ?_
                refine loads_then (loaduvm_run holds'.filled) Iff.rfl ?_ ?_
                · intro unread
                  simp [unread]
                · rintro read middle ⟨rfl, filled, fixed'⟩
                  have holds'' : Holds next middle role' d := ⟨filled, holds'.size⟩
                  cases segmentRead next file ph with
                  | false =>
                    exact loads_pure (by simp) (planned_later change
                      (fixed_trans fixed fixed') (planned_none filled.dense.roles))
                  | true =>
                    have small := holds_small holds''
                    simp only [if_true, true_imp_iff]
                    rw [signExtend, if_pos small]
                    exact loads_weaken (ih holds'') fun _ _ later =>
                      planned_later change (fixed_trans fixed fixed') later
        · simp only [other, not_false_eq_true, if_true]
          exact ih holds
      · have missing : headerAt file off = none := by
          rw [headerAt, got, Option.bind_some, if_neg whole]
        rw [missing]
        simp only [if_pos whole]
        exact loads_pure trivial (planned_none roles)

end Segments

end Xv6.Loading
