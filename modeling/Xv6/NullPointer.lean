import Xv6.ArgumentStack

/-! The null pointer of uva2ka. Where there is no page table uva2ka takes the first word of
the caller's memory for the page table entry. Unless that word looks like the entry of a
user page, exec gives up at this point, or it faults on a back-pointer. -/
namespace Xv6.NullPointer
open TraceMonad BitField Vm VmSpec PageTables AddressSpaces ExecPlan Growth Loading Arguments
open Exec ExecSafety ExecFrame UserMemory ArgumentStack

/-- The first word of the caller's memory is not the entry of a user page. -/
def Blocked (m : Memory) : Prop :=
  ∀ p, leafAt m m.cr3 0 = some p → (present (word m p 0) && user (word m p 0)) = false

/-- The caller's memory while the address space d is built. -/
structure Watched (m : Memory) (role : Nat → Role) (d : Nat) : Prop where
  caller : Caller m role
  dir : role d = .dir
  apart : m.cr3 ≠ d
  blocked : Blocked m

section Copy
variable {m next : Memory} {role role' : Nat → Role} {d k va sp argc : Nat} {bytes arg : List UInt8}
  {argv : List (List UInt8)}

theorem first_kept (kept : Kept m next m.cr3) (cr3 : next.cr3 = m.cr3) :
    leafAt next next.cr3 0 = leafAt m m.cr3 0 ∧
      ∀ p, leafAt m m.cr3 0 = some p → word next p 0 = word m p 0 := by
  refine ⟨by rw [cr3]; exact leafAt_kept kept (by decide), fun p found => ?_⟩
  rw [word, word, (kept 0 (by decide)).2 p found]

theorem caller_kept (caller : Caller m role) (roles : Roles next role')
    (current : role' m.cr3 = .dir) (kept : Kept m next m.cr3) (cr3 : next.cr3 = m.cr3) :
    Caller next role' :=
  ⟨roles, by rw [cr3]; exact current, by rw [(first_kept kept cr3).1]; exact caller.first⟩

theorem watched_kept (caller : Caller m role) (blocked : Blocked m) (roles : Roles next role')
    (current : role' m.cr3 = .dir) (dir : role' d = .dir) (apart : m.cr3 ≠ d)
    (kept : Kept m next m.cr3) (cr3 : next.cr3 = m.cr3) : Watched next role' d := by
  obtain ⟨same, first⟩ := first_kept kept cr3
  refine ⟨caller_kept caller roles current kept cr3, dir, by rw [cr3]; exact apart,
    fun p found => ?_⟩
  rw [same] at found
  rw [first p found]
  exact blocked p found

theorem watched_later (watched : Watched m role d) (roles : Roles next role')
    (change : Local d role role') (fixed : Fixed m next) (spared : Spared m next role d) :
    Watched next role' d := by
  obtain ⟨caller, dir, apart, blocked⟩ := watched
  exact watched_kept caller blocked roles (local_dir change caller.dir) (local_dir change dir) apart
    (kept_of_spared caller.roles caller.dir dir apart spared) fixed.cr3

theorem uva2ka_null {p : Nat} (caller : Caller m role) (found : leafAt m m.cr3 0 = some p)
    (absent : present (word m d (pdx va)) = false) :
    uva2ka d va m = (.done (if present (word m p 0) && user (word m p 0) then
      some (pteAddr (word m p 0)) else none) m, [.uva2ka (pdx va) false]) := by
  obtain ⟨t, p', found', leaf, -, null⟩ := null_of_caller caller
  rw [found, Option.some.injEq] at found'
  subst found'
  have bound := (caller.roles.range p (by simp [leaf])).2
  have near : p < linearPages := by
    simp only [physPages, linearPages] at bound ⊢
    omega
  simp only [uva2ka, bind_run, inspect, emit, absent, walk_absent absent, nullPage_run null,
    load_run near, pure_run, List.nil_append, List.append_nil]

theorem copyout_null (watched : Watched m role d) (more : bytes ≠ [])
    (absent : present (word m d (pdx (pgrounddown (va % 2 ^ 32)))) = false) :
    ∃ trace, copyout d va bytes m = (.done false m, trace) := by
  obtain ⟨byte, rest, rfl⟩ := List.exists_cons_of_ne_nil more
  obtain ⟨t, p, found, -⟩ := null_of_caller watched.caller
  have run := uva2ka_null watched.caller found absent
  rw [watched.blocked p found] at run
  exact ⟨_, copyout_eq (copyout_none more run)⟩

/-- The run ended in a panic. -/
def Halts {σ ε α : Type} (run : Outcome σ ε α × List Event) : Prop :=
  ∃ reason next, run.1 = .halt reason next

section Halting
variable {σ ε α β : Type} {s t : σ} {first : Action σ Event ε α} {later : α → Action σ Event ε β}

theorem halts_bind (halts : Halts (first s)) : Halts ((first >>= later) s) := by
  obtain ⟨reason, stopped, ran⟩ := halts
  have run : first s = (.halt reason stopped, _) := Prod.ext ran rfl
  exact ⟨reason, stopped, by rw [bind_halt run]⟩

theorem halts_after {value : α} {trace : List Event} (run : first s = (.done value t, trace))
    (halts : Halts (later value t)) : Halts ((first >>= later) s) := by
  obtain ⟨reason, stopped, ran⟩ := halts
  exact ⟨reason, stopped, by rw [bind_done run, ran]⟩

end Halting

theorem copyout_faults (roles : Roles m role) (dir : role d = .dir) (more : bytes ≠ [])
    (high : 510 ≤ pdx (pgrounddown (va % 2 ^ 32))) : Halts (copyout d va bytes m) := by
  obtain ⟨isPresent, far⟩ := back_outside roles dir high pdx_lt
  have walk : walkpgdir d (pgrounddown (va % 2 ^ 32)) false m = _ := walk_present isPresent
  obtain ⟨byte, rest, rfl⟩ := List.exists_cons_of_ne_nil more
  refine halts_bind ?_
  rw [List.length_cons, copyoutLoop, if_neg more]
  refine halts_bind ?_
  rw [uva2ka, bind_inspect]
  refine halts_after rfl (halts_after walk (halts_bind ?_))
  exact ⟨_, _, by rw [load_trap far]⟩

/-- A string that reaches below address 0. It runs into a back-pointer when it reaches only
a little below. -/
theorem push_wraps {stack : Bool} (stacked : Stacked m role d k stack) (pointer : Pointer k sp)
    (short : arg.length + 1 ≤ physPages * pgsize) (few : ¬ maxarg ≤ argc)
    (safe : Watched m role d ∨ arg.length < sp + 8 * argc) (wraps : sp < arg.length + 1) :
    (∃ trace, copyout d (pushed sp arg) (arg ++ [0]) m = (.done false m, trace)) ∨
      Halts (copyout d (pushed sp arg) (arg ++ [0]) m) := by
  have bound := stacked.bound
  have top := pointer.inside
  by_cases high : 510 ≤ pdx (pgrounddown (pushed sp arg % 2 ^ 32))
  · exact .inr (copyout_faults stacked.roles stacked.dir (by simp) high)
  · rcases safe with watched | near
    · have outside : _ ∨ present (word m d (pdx (pgrounddown (pushed sp arg % 2 ^ 32)))) = false :=
        stacked_wraps stacked (by
          simp only [physPages, pgsize, pushed] at short bound top ⊢
          omega)
      exact .inl (copyout_null watched (by simp) (outside.resolve_left high))
    · refine absurd ?_ high
      simp only [physPages, pgsize, pushed, pdx, pgrounddown, maxarg] at bound top few ⊢
      omega

theorem pushArgs_stops {rest : List (List UInt8)} (few : ¬ maxarg ≤ argc)
    (stops : (∃ trace, copyout d (pushed sp arg) (arg ++ [0]) m = (.done false m, trace)) ∨
      Halts (copyout d (pushed sp arg) (arg ++ [0]) m)) :
    (∃ trace, pushArgs d argc sp (arg :: rest) m = (.done none m, trace)) ∨
      Halts (pushArgs d argc sp (arg :: rest) m) := by
  rw [pushArgs, if_neg few]
  rcases stops with ⟨trace, run⟩ | halts
  · exact .inl ⟨_, bind_done_done run rfl⟩
  · exact .inr (halts_bind halts)

theorem pushArgs_wraps (stacked : Stacked m role d k true) (pointer : Pointer k sp)
    (short : ∀ arg ∈ argv, arg.length + 1 ≤ physPages * pgsize)
    (safe : Watched m role d ∨ (argv.map List.length).sum < sp + 8 * argc)
    (misfit : ¬ ArgsFit ((k + 1) * pgsize) true sp (argv.take (maxarg - argc))) :
    place ((k + 1) * pgsize) argc sp argv = none ∧
      ((∃ next trace, pushArgs d argc sp argv m = (.done none next, trace) ∧
        Spares m role d next) ∨ Halts (pushArgs d argc sp argv m)) := by
  induction argv generalizing m sp argc with
  | nil => exact (misfit (by rw [List.take_nil]; rfl)).elim
  | cons arg rest ih =>
    by_cases many : maxarg ≤ argc
    · refine (misfit ?_).elim
      rw [Nat.sub_eq_zero_of_le many, List.take_zero]
      rfl
    · have short' := short arg List.mem_cons_self
      rw [place, if_neg many]
      rw [show maxarg - argc = maxarg - (argc + 1) + 1 by omega, List.take_succ_cons,
        ArgsFit] at misfit
      by_cases fit : arg.length + 1 ≤ sp
      · by_cases below : slot sp arg < (k + 1) * pgsize
        · exact (misfit ⟨fit, .inl below⟩).elim
        · -- This string fits.
          rw [if_neg below]
          have bound := stacked.bound
          have top := pointer.inside
          simp only [physPages, pgsize] at bound top
          have here : pushed sp arg = slot sp arg := pushed_eq fit (by omega)
          obtain ⟨copied, middle, ran, sound, -, -, isCopied, stacked', fixed⟩ :=
            (push_run stacked pointer short').clean ⟨fit, .inr rfl⟩
          rw [← slot, decide_eq_true (Nat.le_of_not_lt below)] at isCopied
          subst isCopied
          have run : copyout d (pushed sp arg) (arg ++ [0]) m = (.done true middle, _) :=
            Prod.ext ran rfl
          obtain ⟨-, -, -, -, spared⟩ :=
            reached_sound (copyout_spares stacked.roles stacked.dir) run sound
          have safe' : Watched middle role d ∨
              (rest.map List.length).sum < slot sp arg + 8 * (argc + 1) := by
            refine safe.imp (fun watched => watched_later watched stacked'.roles local_refl fixed
              spared) fun few => ?_
            simp only [List.map_cons, List.sum_cons, slot] at few ⊢
            omega
          obtain ⟨unplaced, later⟩ := ih stacked'
            (pointer_pushed pointer (Nat.le_of_not_lt below))
            (fun other member => short other (List.mem_cons_of_mem _ member)) safe'
            fun fits => misfit ⟨fit, .inr ⟨rfl, fits⟩⟩
          rw [← slot] at unplaced later
          rw [pushArgs, if_neg many, unplaced]
          refine ⟨rfl, ?_⟩
          rcases later with ⟨next, trace, run', spares⟩ | halts
          · rw [← here] at run'
            exact .inl ⟨next, _, bind_done_done run (bind_done_done run' rfl),
              spares_trans local_refl fixed spared spares⟩
          · rw [← here] at halts
            exact .inr (halts_after run (halts_bind halts))
      · have low : slot sp arg < (k + 1) * pgsize := by
          have above := pointer.above
          simp only [slot, pgsize] at above ⊢
          omega
        rw [if_pos low]
        refine ⟨rfl, ?_⟩
        have near : Watched m role d ∨ arg.length < sp + 8 * argc := by
          refine safe.imp_right fun few => ?_
          simp only [List.map_cons, List.sum_cons] at few
          omega
        rcases pushArgs_stops many (push_wraps stacked pointer short' many near
            (Nat.lt_of_not_le fit)) with ⟨trace, run⟩ | halts
        · exact .inl ⟨m, trace, run, spares_refl stacked.roles⟩
        · exact .inr halts

theorem stacked_lost (stacked : Stacked m role d k false) (above : (k + 1) * pgsize ≤ va)
    (inside : va < (k + 2) * pgsize) :
    present (word m d (pdx (pgrounddown (va % 2 ^ 32)))) = false := by
  have bound := stacked.bound
  have edge := stacked.edge rfl
  simp only [physPages, pgsize] at bound above inside
  have index : pdx (pgrounddown (va % 2 ^ 32)) = (k + 1) / 512 := by
    simp only [pdx, pgrounddown, pgsize]
    omega
  rw [index]
  cases isPresent : present (word m d ((k + 1) / 512)) with
  | false => rfl
  | true =>
    have early := (stacked.tables _ (by omega)).mp isPresent
    simp only [Bool.false_eq_true, if_false] at early
    omega

theorem push_lost (watched : Watched m role d) (stacked : Stacked m role d k false)
    (pointer : Pointer k sp) (short : arg.length + 1 ≤ physPages * pgsize)
    (misfit : ¬ ArgsFit ((k + 1) * pgsize) false sp (arg :: argv)) :
    (∃ trace, copyout d (pushed sp arg) (arg ++ [0]) m = (.done false m, trace)) ∨
      Halts (copyout d (pushed sp arg) (arg ++ [0]) m) := by
  by_cases fit : arg.length + 1 ≤ sp
  · have above : (k + 1) * pgsize ≤ slot sp arg :=
      Nat.le_of_not_lt fun low => misfit ⟨fit, .inl low⟩
    have bound := stacked.bound
    have top := pointer.inside
    have here : pushed sp arg = slot sp arg := pushed_eq fit (by
      simp only [physPages, pgsize] at bound top
      omega)
    rw [here]
    refine .inl (copyout_null watched (by simp) (stacked_lost stacked above ?_))
    simp only [slot, pgsize] at top ⊢
    omega
  · exact push_wraps stacked pointer short (by decide : ¬ maxarg ≤ 0) (.inl watched)
      (Nat.lt_of_not_le fit)

end Copy

/-! buildStack when the arguments do not fit. -/

section Build
variable {m : Memory} {role : Nat → Role} {d n f : Nat} {plan : Plan} {argv : List (List UInt8)}

/-- There is a stack page, and the strings together are not longer than the image. -/
def Modest (plan : Plan) (argv : List (List UInt8)) : Prop :=
  stackLost plan = false ∧ (argv.map List.length).sum < (plan.mapped + 2) * pgsize

/-- Without strings and without a stack page buildStack returns. Otherwise it gives up or
faults. -/
theorem buildStack_misfit (holds : Holds plan m role d)
    (safe : Watched m role d ∨ Modest plan argv)
    (short : ∀ arg ∈ argv, arg.length + 1 ≤ physPages * pgsize)
    (misfit : ¬ StackFits plan (argv.take maxarg)) :
    (argv = [] ∧ stackLost plan = true ∧
      built plan argv = some ((plan.mapped + 2) * pgsize, (plan.mapped + 2) * pgsize, []) ∧
      ∃ next role', buildStack d (pgroundup plan.size) argv m =
          (.done (built plan argv) next, []) ∧ Stacked next role' d plan.mapped false ∧
        Watched next role' d ∧ Local d role role' ∧ Fixed m next ∧ Spared m next role d) ∨
    built plan argv = none ∧
      ((∃ next trace, buildStack d (pgroundup plan.size) argv m = (.done none next, trace) ∧
        Spares m role d next) ∨ Halts (buildStack d (pgroundup plan.size) argv m)) := by
  rw [pgroundup_pages holds, built]
  rw [StackFits] at misfit
  cases grown : growLoop 2 plan.mapped plan.free with
  | none => simp [grown] at misfit
  | some pair =>
    obtain ⟨n, f⟩ := pair
    rw [grown] at misfit
    dsimp only at misfit
    obtain ⟨after, cleared, role', opened⟩ := opened_run holds grown
    have lost := stackLost_some grown
    have watched' : Watched m role d → Watched cleared role' d := fun watched =>
      watched_later watched opened.stacked.roles opened.change opened.fixed opened.spared
    rw [Option.bind_some]
    dsimp only
    have stacked := opened.stacked
    by_cases stack : n = plan.mapped + 2
    · rw [decide_eq_true stack] at misfit stacked
      rw [if_pos stack]
      rw [show maxarg = maxarg - 0 from rfl] at misfit
      have safe' : Watched cleared role' d ∨
          (argv.map List.length).sum < (plan.mapped + 2) * pgsize + 8 * 0 :=
        safe.imp watched' fun modest => Nat.lt_add_right _ modest.2
      obtain ⟨unplaced, later⟩ := pushArgs_wraps stacked opened_pointer short safe' misfit
      rw [unplaced]
      refine .inr ⟨rfl, ?_⟩
      rcases later with ⟨next, trace, run, spares⟩ | halts
      · exact .inl ⟨next, trace, opened_build opened run, opened_spares opened spares⟩
      · exact .inr (by rw [opened_push opened]; exact halts_bind halts)
    · rw [decide_eq_false stack] at misfit stacked
      rw [decide_eq_true stack] at lost
      have watched := watched' (safe.resolve_right fun modest => by
        rw [modest.1] at lost
        cases lost)
      rw [if_neg stack]
      cases argv with
      | nil =>
        rw [if_pos rfl]
        have pushed : pushArgs d 0 ((plan.mapped + 2) * pgsize) [] cleared =
            (.done (some ((plan.mapped + 2) * pgsize, [])) cleared, []) := rfl
        have run := opened_build opened pushed
        exact .inl ⟨rfl, lost, rfl, cleared, role', run, stacked, watched, opened.change,
          opened.fixed, opened.spared⟩
      | cons arg rest =>
        rw [if_neg (List.cons_ne_nil arg rest)]
        refine .inr ⟨rfl, ?_⟩
        rcases pushArgs_stops (by decide : ¬ maxarg ≤ 0) (push_lost watched stacked opened_pointer
            (short arg List.mem_cons_self) misfit) with ⟨trace, run⟩ | halts
        · exact .inl ⟨cleared, trace, opened_build opened run,
            opened_spares opened (spares_refl stacked.roles)⟩
        · exact .inr (by rw [opened_push opened]; exact halts_bind halts)

end Build

end Xv6.NullPointer
