import Xv6.Allocation
import Xv6.Probe

/-! growproc (kernel/proc.c) and the addresses at which it walks the page table. A walk
below directory entry 510 is tame; at entry 510 or 511 the next access dereferences a
back-pointer and the kernel faults, so a call that returns has walked tamely. -/
namespace Xv6.GrowProc
open TraceMonad Vm VmSpec PageTables AddressSpaces ExecPlan Growth Allocation Probe

/-- The new size of the process, or none for -1. The sum is a `uint`. -/
def growproc (pgdir sz : Nat) (n : Int) : ProbeM (Option Nat) := do
  let newsz := ((sz + n) % 2 ^ 32).toNat
  if 0 < n then
    let result ← Probe.allocuvm pgdir sz newsz
    pure (if result = 0 then none else some result)
  else if n < 0 then
    let result ← Probe.deallocuvm pgdir sz newsz
    pure (if result = 0 then none else some result)
  else pure (some sz)

/-- The addresses that walkpgdir was given. -/
def walks (reports : List Report) : List Nat :=
  reports.filterMap fun
    | .walk va => some va
    | _ => none

section Walks
variable {α β : Type} {m : Memory} {d a p perm fuel oldsz newsz : Nat}

theorem walks_append (first second : List Report) :
    walks (first ++ second) = walks first ++ walks second := List.filterMap_append

/-- The run ended and all its walks were below directory entry 510, or it stopped after a
walk above. -/
def Tame (run : Outcome Memory Panic α × List Report) : Prop :=
  (∃ value next, run.1 = .done value next) ∧
    (∀ va ∈ walks run.2, va < 0x3fc00000 ∧ va % pgsize = 0) ∨
  (∃ reason stopped, run.1 = .halt reason stopped) ∧ ∃ va ∈ walks run.2, 510 ≤ pdx va

theorem tame_done {run : Outcome Memory Panic α × List Report} {value : α} {next : Memory}
    (done : run.1 = .done value next)
    (low : ∀ va ∈ walks run.2, va < 0x3fc00000 ∧ va % pgsize = 0) : Tame run :=
  .inl ⟨⟨value, next, done⟩, low⟩

theorem tame_bind {first : ProbeM α} {next : α → ProbeM β} (now : Tame (first m))
    (later : ∀ value middle, (first m).1 = .done value middle → Tame (next value middle)) :
    Tame ((first >>= next) m) := by
  rcases split : first m with ⟨outcome, reports⟩
  rw [split] at now later
  rcases now with ⟨⟨value, middle, done⟩, low⟩ | ⟨⟨reason, stopped, halted⟩, stray⟩
  · dsimp only at done low later
    subst done
    rw [bind_done split]
    rcases later value middle rfl with ⟨ended, low'⟩ | ⟨ended, va, member, high⟩
    · refine .inl ⟨ended, fun va member => ?_⟩
      rw [walks_append, List.mem_append] at member
      exact member.elim (low va) (low' va)
    · exact .inr ⟨ended, va, by rw [walks_append]; exact List.mem_append_right _ member, high⟩
  · dsimp only at halted stray
    subst halted
    rw [bind_halt split]
    exact .inr ⟨⟨reason, stopped, rfl⟩, stray⟩

theorem tame_quiet {first : ProbeM α} {next : α → ProbeM β} {value : α} {middle : Memory}
    {reports : List Report} (run : first m = (.done value middle, reports))
    (quiet : walks reports = []) (later : Tame (next value middle)) :
    Tame ((first >>= next) m) := by
  refine tame_bind (tame_done (congrArg Prod.fst run) ?_) ?_
  · rw [run, quiet]
    simp
  · intro value' middle' done
    rw [run] at done
    injection done with isValue isMiddle
    rwa [← isValue, ← isMiddle]

theorem tame_pure {value : α} : Tame ((pure value : ProbeM α) m) := tame_done rfl (by simp [walks, pure_run])

theorem probe_walk_present {alloc : Bool} (isPresent : present (word m d (pdx a)) = true) :
    Probe.walkpgdir d a alloc m =
      (.done (some (pteAddr (word m d (pdx a)), ptx a)) m, [.walk a]) := by
  simp [Probe.walkpgdir, bind_run, emit, inspect, isPresent, pure_run]

theorem probe_walk_absent (absent : present (word m d (pdx a)) = false) :
    Probe.walkpgdir d a false m = (.done none m, [.walk a]) := by
  simp [Probe.walkpgdir, bind_run, emit, inspect, absent, pure_run]

theorem walks_walkpgdir {alloc : Bool} : walks (Probe.walkpgdir d a alloc m).2 = [a] := by
  cases isPresent : present (word m d (pdx a)) with
  | true => rw [probe_walk_present isPresent]; rfl
  | false =>
    cases alloc with
    | false => rw [probe_walk_absent isPresent]; rfl
    | true =>
      cases freelist : m.freelist with
      | nil =>
        simp [Probe.walkpgdir, Probe.kalloc, bind_run, emit, inspect, isPresent, freelist,
          pure_run, walks]
      | cons t rest =>
        simp [Probe.walkpgdir, Probe.kalloc, bind_run, emit, inspect, isPresent, freelist,
          pure_run, walks, Probe.setPage, Probe.setWord, change]

theorem silent_load {access : Access} {page i : Nat} (inside : page < linearPages) :
    (silent (load access page i) : ProbeM Nat) m = (.done (word m page i) m, []) := by
  rw [silent, load_run inside]

/-- An action that does not walk the page table. -/
def Walkless (action : ProbeM α) : Prop := ∀ m, walks (action m).2 = []

theorem walks_bind {first : ProbeM α} {next : α → ProbeM β} (later : ∀ value, Walkless (next value)) :
    walks ((first >>= next) m).2 = walks (first m).2 := by
  rcases split : first m with ⟨outcome, reports⟩
  cases outcome with
  | halt reason stopped => rw [bind_halt split]
  | done value middle =>
    rw [bind_done split, walks_append, later value middle, List.append_nil]

theorem walkless_bind {first : ProbeM α} {next : α → ProbeM β} (now : Walkless first)
    (later : ∀ value, Walkless (next value)) : Walkless (first >>= next) :=
  fun m => (walks_bind later).trans (now m)

theorem walkless_store {access : Access} {page i value : Nat} :
    Walkless (Probe.store access page i value) := by
  intro m
  unfold Probe.store
  split
  · rfl
  · rfl

theorem probe_mappages_one (aligned : a % pgsize = 0) :
    Probe.mappages d a pgsize p perm = Probe.mapFrom d perm 0 a p := by
  simp only [pgsize] at aligned
  have here : pgrounddown a = a := by
    simp only [pgrounddown, pgsize]
    omega
  have last : pgrounddown (a + pgsize - 1) = a := by
    simp only [pgrounddown, pgsize]
    omega
  rw [Probe.mappages, here, last, Nat.sub_self, Nat.zero_div]

theorem walks_mappages (aligned : a % pgsize = 0) :
    walks (Probe.mappages d a pgsize p perm m).2 = [a] := by
  rw [probe_mappages_one aligned, Probe.mapFrom, walks_bind, walks_walkpgdir]
  intro pte
  rcases pte with _ | ⟨pgtab, i⟩
  · exact fun _ => rfl
  · refine walkless_bind (fun _ => rfl) fun pte m => ?_
    split
    · rfl
    · exact walkless_bind walkless_store (fun _ _ => rfl) m

/-! deallocuvm -/

theorem tame_walk {alloc : Bool} {value : Option (Nat × Nat)} {middle : Memory}
    (run : Vm.walkpgdir d a alloc m = (.done value middle, [])) (low : a < 0x3fc00000)
    (aligned : a % pgsize = 0) : Tame (Probe.walkpgdir d a alloc m) := by
  have done : (Probe.walkpgdir d a alloc m).1 = .done value middle := by
    rw [walkpgdir_erases m, run]
  refine tame_done done ?_
  rw [walks_walkpgdir]
  simpa using ⟨low, aligned⟩

theorem dealloc_stray {role : Nat → Role} (roles : Roles m role) (dir : role d = .dir)
    (more : a < oldsz) (high : 510 ≤ pdx a) : Tame (Probe.deallocLoop d oldsz (fuel + 1) a m) := by
  obtain ⟨isPresent, outside⟩ := back_outside roles dir high pdx_lt
  have halted : Vm.deallocLoop d oldsz (fuel + 1) a m = _ := dealloc_trap more isPresent outside
  refine .inr ⟨⟨.trap .deallocuvm, m, ?_⟩, a, ?_, high⟩
  · rw [deallocLoop_erases m, halted]
  · rw [Probe.deallocLoop, if_neg (by omega), bind_done (probe_walk_present isPresent), walks_append]
    exact List.mem_append_left _ (List.mem_singleton_self a)

theorem free_run {t j pte : Nat} (full : present pte = true) (is : pteAddr pte = p)
    (low : m.kend ≤ p) (positive : 0 < m.kend) (high : p < physPages) (apart : t ≠ p)
    (inside : t < linearPages) :
    (whenever (present pte) do
      let page := pteAddr pte
      whenever (page = 0) (halt .kfree)
      silent (kfree page)
      Probe.store .deallocuvm t j 0 : ProbeM Unit) m =
        (.done () (freed (m.setWord t j 0) p), [.wrote t]) := by
  have kfreed : (silent (kfree p) : ProbeM Unit) m = (.done () (freed m p), []) := by
    rw [silent, kfree_run low high]
  have stored : Probe.store .deallocuvm t j 0 (freed m p) =
      (.done () (freed (m.setWord t j 0) p), [.wrote t]) := by
    rw [← freed_setWord apart, Probe.store, if_neg (by omega)]
    rfl
  rw [whenever_true full]
  refine (bind_quiet (whenever_false (by omega) m)).trans ?_
  rw [is, bind_quiet kfreed, stored]

theorem deallocLoop_tame {role : Nat → Role} (roles : Roles m role) (dir : role d = .dir)
    (aligned : a % pgsize = 0) (start : a < 2 ^ 30) :
    Tame (Probe.deallocLoop d oldsz fuel a m) := by
  induction fuel generalizing m role a with
  | zero => exact tame_pure
  | succ fuel ih =>
    by_cases finished : oldsz ≤ a
    · rw [Probe.deallocLoop, if_pos finished]
      exact tame_pure
    · by_cases low : pdx a < 510
      · have below : a < 0x3fc00000 := by
          simp only [pdx] at low
          omega
        have aligned' : (a + pgsize) % pgsize = 0 := by
          simp only [pgsize] at aligned ⊢
          omega
        rw [Probe.deallocLoop, if_neg finished]
        cases isPresent : present (word m d (pdx a)) with
        | false =>
          refine tame_bind (tame_walk (walk_absent isPresent) below aligned) ?_
          intro value middle done
          rw [probe_walk_absent isPresent] at done
          cases done
          exact ih roles dir (by simp only [pgsize, nptentries] at aligned ⊢; omega)
            (by simp only [pgsize, nptentries]; omega)
        | true =>
          refine tame_bind (tame_walk (walk_present isPresent) below aligned) ?_
          intro value middle done
          rw [probe_walk_present isPresent] at done
          cases done
          obtain ⟨table, inside⟩ := table_inside roles dir low isPresent
          refine tame_quiet (silent_load inside) rfl ?_
          by_cases full : present (word m (pteAddr (word m d (pdx a))) (ptx a)) = true
          · have leaf := role_of_pte roles table ptx_lt full
            obtain ⟨atLeast, bound⟩ := roles.range
              (pteAddr (word m (pteAddr (word m d (pdx a))) (ptx a))) (by simp [leaf])
            have apart : pteAddr (word m d (pdx a)) ≠
                pteAddr (word m (pteAddr (word m d (pdx a))) (ptx a)) := by
              intro same
              rw [← same, table] at leaf
              cases leaf
            have given := roles_give (roles_detachLeaf roles leaf table)
              (Function.update_self ..)
            rw [Function.update_idem] at given
            refine tame_quiet (free_run full rfl atLeast roles.positive bound apart inside)
              rfl (ih given ?_ aligned' (by simp only [pgsize]; omega))
            rw [Function.update_of_ne, dir]
            intro same
            rw [← same, dir] at leaf
            cases leaf
          · refine tame_quiet (whenever_false full m) rfl ?_
            exact ih roles dir aligned' (by simp only [pgsize]; omega)
      · exact dealloc_stray roles dir (by omega) (by omega)

theorem deallocuvm_tame {role : Nat → Role} (roles : Roles m role) (dir : role d = .dir)
    (start : newsz ≤ 0x3ffff000) : Tame (Probe.deallocuvm d oldsz newsz m) := by
  rw [Probe.deallocuvm]
  split
  · exact tame_pure
  · refine tame_bind (deallocLoop_tame roles dir ?_ ?_) fun _ _ _ => tame_pure
    · rw [pgroundup_eq (by omega)]
      exact Nat.mul_mod_left ..
    · rw [pgroundup_eq (by omega)]
      omega

end Walks

/-! allocuvm -/

section Alloc
variable {m next : Memory} {role : Nat → Role} {d n c p count oldsz newsz : Nat} {rest : List Nat}

theorem probe_kalloc_nil (freelist : m.freelist = []) : Probe.kalloc m = (.done none m, []) := by
  simp [Probe.kalloc, bind_run, inspect, freelist, pure_run]

theorem probe_kalloc_cons (freelist : m.freelist = p :: rest) :
    Probe.kalloc m = (.done (some p) { m with freelist := rest }, [.took p]) := by
  simp [Probe.kalloc, bind_run, inspect, emit, change, freelist, pure_run]

theorem round_empty {a : Nat} (roles : Roles m role) (dir : role d = .dir) (freelist : m.freelist = [])
    (start : oldsz ≤ 0x3ffff000) : Tame (Probe.allocLoop d oldsz newsz (count + 1) a m) := by
  rw [Probe.allocLoop]
  refine tame_quiet (probe_kalloc_nil freelist) rfl ?_
  exact tame_bind (deallocuvm_tame roles dir start) fun _ _ _ => tame_pure

theorem round_tame {a : Nat} {mapped : Bool} {after : Memory} (freelist : m.freelist = p :: rest)
    (aligned : a % pgsize = 0) (low : a < 0x3fc00000)
    (run : Vm.mappages d a pgsize p (pteW ||| pteU) (taken m p rest 0) = (.done mapped after, []))
    (later : Tame (Probe.allocLoop d oldsz newsz count (a + pgsize) after)) :
    Tame (Probe.allocLoop d oldsz newsz (count + 1) a m) := by
  rw [Probe.allocLoop]
  refine tame_quiet (probe_kalloc_cons freelist) rfl ?_
  have cleared : Probe.setPage p 0 { m with freelist := rest } =
      (.done () (taken m p rest 0), [.wrote p]) := rfl
  refine tame_quiet cleared rfl ?_
  have done : (Probe.mappages d a pgsize p (pteW ||| pteU) (taken m p rest 0)).1 =
      .done mapped after := by rw [mappages_erases, run]
  refine tame_bind (tame_done done ?_) fun value middle isDone => ?_
  · rw [walks_mappages aligned]
    simpa using ⟨low, aligned⟩
  · rw [done] at isDone
    cases isDone
    exact later

theorem allocLoop_tame (grown : Grown m d n (fun _ => cleared) c next role)
    (low : ∀ c' < c + count, needs m d n c' < m.freelist.length → n + c' < 510 * 512)
    (blank : ∀ k < 510 * 512, n ≤ k → userPte m d k = none) (start : oldsz ≤ 0x3ffff000) :
    Tame (Probe.allocLoop d oldsz newsz count ((n + c) * pgsize) next) := by
  induction count generalizing c next role with
  | zero => exact tame_pure
  | succ count ih =>
    have length := grown_length grown
    have step : (n + (c + 1)) * pgsize = (n + c) * pgsize + pgsize := Nat.succ_mul ..
    have aligned : (n + c) * pgsize % pgsize = 0 := Nat.mul_mod_left ..
    cases freelist : next.freelist with
    | nil => exact round_empty grown.roles grown.dir freelist start
    | cons p rest =>
      rw [freelist, List.length_cons] at length
      have inside := low c (by omega) (by omega)
      have below : (n + c) * pgsize < 0x3fc00000 := by
        simp only [pgsize]
        omega
      by_cases short : missing m d n c = true ∧ rest = []
      · obtain ⟨gap, rfl⟩ := short
        refine round_tame freelist aligned below (map_missing grown inside gap freelist) ?_
        cases count with
        | zero => exact tame_pure
        | succ count =>
          obtain ⟨roles, dir⟩ := lost_roles grown freelist
          exact round_empty roles dir rfl start
      · obtain ⟨after, role', run, grown', -⟩ := grown_step grown inside
          (blank _ inside (by omega)) freelist (fun gap none => short ⟨gap, none⟩)
          (fun _ => by decide)
        refine round_tame freelist aligned below run ?_
        rw [← step]
        exact ih grown' fun c' within => low c' (by omega)

end Alloc

/-! growproc -/

section Grow
variable {m next : Memory} {role : Nat → Role} {d sz : Nat} {n : Int}

/-- A process of size sz: no page is mapped above sz, and below it none is missing except
perhaps the first of a page table, which allocuvm may leave out. -/
structure Process (m : Memory) (role : Nat → Role) (d sz : Nat) : Prop where
  roles : Roles m role
  dir : role d = .dir
  mapped : ∀ k < pages sz, k % 512 ≠ 0 → ∃ p, role p = .leaf d (k / 512) (k % 512)
  above : ∀ q i j, role q = .leaf d i j → 512 * i + j < pages sz

theorem process_bound (process : Process m role d sz) : pages sz ≤ 2 * physPages + 1 := by
  choose! page is using process.mapped
  have inside : ∀ k, 2 * k + 1 < pages sz → role (page (2 * k + 1)) =
      .leaf d ((2 * k + 1) / 512) ((2 * k + 1) % 512) := fun k low => is _ low (by omega)
  have distinct : ((List.range (pages sz / 2)).map fun k => page (2 * k + 1)).Nodup := by
    refine List.Nodup.map_on ?_ List.nodup_range
    intro x lowX y lowY same
    rw [List.mem_range] at lowX lowY
    have isX := inside x (by omega)
    rw [same, inside y (by omega)] at isX
    injection isX with _ quotient remainder
    omega
  have bounded : ((List.range (pages sz / 2)).map fun k => page (2 * k + 1)) ⊆
      List.range physPages := by
    intro p member
    obtain ⟨k, low, rfl⟩ := List.mem_map.mp member
    rw [List.mem_range] at low ⊢
    exact (process.roles.range _ (by rw [inside k (by omega)]; simp)).2
  have length := (List.Nodup.subperm distinct bounded).length_le
  simp only [List.length_map, List.length_range] at length
  simp only [physPages] at length ⊢
  omega

/-- How far sbrk may be asked to grow a process with n pages: the rollback walks the whole
range. When not even one page can be added it starts where the page table may be absent. -/
def walkTop (m : Memory) (d n : Nat) : Nat :=
  if needs m d n 1 ≤ m.freelist.length then 0x3fc00000 else walkEnd m d (n * pgsize)

theorem walkEnd_congr {a : Nat}
    (same : ∀ i < 510, present (word next d i) = present (word m d i)) :
    walkEnd next d a = walkEnd m d a := by
  unfold walkEnd
  refine if_congr (or_congr_right ?_) rfl rfl
  refine exists_congr fun i => and_congr_right fun low => ?_
  rw [same i low]

theorem giveUp_ends {oldsz newsz : Nat} (roles : Roles m role) (dir : role d = .dir)
    (small : pages oldsz < 510 * 512) :
    if newsz ≤ walkEnd m d (pages oldsz * pgsize) then
      ∃ last, giveUp d oldsz newsz m = (.done 0 last, [])
    else ∃ stopped, giveUp d oldsz newsz m = (.halt (.trap .deallocuvm) stopped, []) := by
  have bounds := walkEnd_bounds (m := m) (d := d) (a := pages oldsz * pgsize)
  have size : oldsz ≤ pages oldsz * pgsize := by
    simp only [pages, pgsize]
    omega
  have fits : pages oldsz * pgsize ≤ 0x3fc00000 := by
    simp only [pgsize]
    omega
  have start : pgroundup oldsz = pages oldsz * pgsize := by
    rw [pgroundup_eq (by simp only [pages] at small; omega)]
    rfl
  rw [giveUp, Vm.deallocuvm]
  by_cases same : newsz ≤ oldsz
  · rw [if_pos (by omega), if_pos same]
    exact ⟨m, rfl⟩
  · have ends := deallocLoop_ends roles dir (Nat.mul_mod_left (pages oldsz) pgsize)
      (by omega) (by simp only [pgsize]; omega : newsz ≤ pages oldsz * pgsize +
        (newsz - pages oldsz * pgsize + (pgsize - 1)) / pgsize * pgsize)
    rw [if_neg same, start, bind_assoc_action]
    split_ifs at ends ⊢ with within
    · obtain ⟨last, run⟩ := ends
      exact ⟨last, by rw [bind_quiet run]; rfl⟩
    · obtain ⟨stopped, run⟩ := ends
      exact ⟨stopped, bind_halt run⟩

theorem deallocuvm_returns {oldsz newsz : Nat} (roles : Roles m role) (dir : role d = .dir)
    (small : oldsz ≤ 0x3fc00000) :
    ∃ result next, Vm.deallocuvm d oldsz newsz m = (.done result next, []) := by
  rw [Vm.deallocuvm]
  split
  next => exact ⟨oldsz, m, rfl⟩
  next more =>
    have bounds := walkEnd_bounds (m := m) (d := d) (a := pgroundup newsz)
    rw [pgroundup_eq (by omega)] at bounds ⊢
    have ends := deallocLoop_ends roles dir (Nat.mul_mod_left ((newsz + 4095) / 4096) 4096)
      (by omega) (by simp only [pgsize]; omega : oldsz ≤ (newsz + 4095) / 4096 * 4096 +
        (oldsz - (newsz + 4095) / 4096 * 4096 + (pgsize - 1)) / pgsize * pgsize)
    rw [if_pos (by omega)] at ends
    obtain ⟨next, run⟩ := ends
    exact ⟨newsz, next, by rw [bind_quiet run]; rfl⟩

theorem walkEnd_grown {c k : Nat} {added : Nat → Nat × Page} (grown : Grown m d k added c next role)
    (small : k < 510 * 512) (stuck : m.freelist.length < needs m d k (c + 1)) :
    walkEnd next d (k * pgsize) = walkTop m d k := by
  cases c with
  | zero =>
    rw [walkTop, if_neg (Nat.not_le.mpr stuck)]
    refine walkEnd_congr fun i low => ?_
    rw [Bool.eq_iff_iff, ← tableAt_isSome, ← tableAt_isSome, grown.tables i low]
    constructor
    · rintro (there | ⟨j, ge, lt, -⟩)
      · exact there
      · omega
    · exact .inl
  | succ c =>
    have mono := needs_mono (m := m) (d := d) (n := k) (show 1 ≤ c + 1 by omega)
    have enough := grown.enough
    rw [walkTop, if_pos (by omega)]
    refine walkEnd_tidy (.inr ?_) (by rw [pdx_page small]; omega)
    rw [pdx_page small, ← tableAt_isSome]
    exact (grown.tables _ (by omega)).mpr (.inr ⟨k, le_rfl, by omega, rfl⟩)

theorem process_blank (process : Process m role d sz) {k : Nat} (low : k < 510 * 512)
    (late : pages sz ≤ k) : userPte m d k = none := by
  rw [← Option.not_isSome_iff_eq_none, userPte_some_iff process.roles process.dir low]
  rintro ⟨q, leaf⟩
  have early := process.above q _ _ leaf
  omega

theorem process_room (process : Process m role d sz) {c : Nat}
    (enough : needs m d (pages sz) c ≤ m.freelist.length) : pages sz + c ≤ 3 * physPages + 1 := by
  have size := process_bound process
  have free := free_bound process.roles
  have mono := needs_mono (m := m) (d := d) (n := pages sz) (Nat.zero_le c)
  omega

theorem allocuvm_returns {newsz : Nat} (process : Process m role d sz) (le : sz ≤ newsz)
    (small : newsz < 2 ^ 32) :
    if newsz ≤ walkTop m d (pages sz) then
      ∃ result next, Vm.allocuvm d sz newsz m = (.done result next, [])
    else ∃ stopped, Vm.allocuvm d sz newsz m = (.halt (.trap .deallocuvm) stopped, []) := by
  have room : ∀ c, needs m d (pages sz) c ≤ m.freelist.length → pages sz + c ≤ 3 * 0xE000 + 1 :=
    fun c enough => process_room process enough
  have top : 0x3fc00000 ≤ walkTop m d (pages sz) := by
    unfold walkTop
    split
    · exact le_rfl
    · exact walkEnd_bounds.1
  have start := room 0 (Nat.zero_le _)
  have ends := allocuvm_ends process.roles process.dir
    (fun k low late => process_blank process low late) le small fun c _ enough => by
      have := room c enough.le
      omega
  generalize outcome : Vm.allocuvm d sz newsz m = run at ends
  cases ends with
  | @complete last role' grown =>
    have count := room _ grown.enough
    rw [if_pos]
    · exact ⟨newsz, last, rfl⟩
    · simp only [pages] at count top ⊢
      omega
  | @empty last role' c early grown freelist =>
    have length := grown_length grown
    rw [freelist, List.length_nil] at length
    have stuck : m.freelist.length < needs m d (pages sz) (c + 1) := by
      have := needs_mono (m := m) (d := d) (n := pages sz) (show c ≤ c + 1 by omega)
      omega
    rw [← walkEnd_grown grown (by omega) stuck]
    have gaveUp : if newsz ≤ walkEnd last d (pages sz * pgsize) then
        ∃ after, giveUp d sz newsz last = (.done 0 after, [])
        else ∃ stopped, giveUp d sz newsz last = (.halt (.trap .deallocuvm) stopped, []) :=
      giveUp_ends grown.roles grown.dir (by omega)
    split_ifs at gaveUp ⊢ with within
    · exact ⟨0, gaveUp⟩
    · exact gaveUp
  | @lost last role' c p early gap grown freelist =>
    have length := grown_length grown
    rw [freelist, List.length_singleton] at length
    by_cases isLast : c + 1 = pages newsz - pages sz
    · have count := room c (by omega)
      rw [if_pos isLast, if_pos]
      · exact ⟨newsz, _, rfl⟩
      · simp only [pages] at count top isLast ⊢
        omega
    · obtain ⟨roles, dir⟩ := lost_roles grown freelist
      have notDir : d ≠ p := dir_ne_free grown.dir
        ((grown.roles.free p).mp (by simp [freelist]))
      have stuck : m.freelist.length < needs m d (pages sz) (c + 1) := by
        rw [needs, gap]
        simp only [if_true]
        omega
      have same : walkEnd (taken last p [] 0) d (pages sz * pgsize) =
          walkEnd last d (pages sz * pgsize) :=
        walkEnd_congr fun i _ => by rw [word_taken notDir]
      rw [if_neg isLast, ← walkEnd_grown grown (by omega) stuck, ← same]
      have gaveUp : if newsz ≤ walkEnd (taken last p [] 0) d (pages sz * pgsize) then
          ∃ after, giveUp d sz newsz (taken last p [] 0) = (.done 0 after, [])
          else ∃ stopped, giveUp d sz newsz (taken last p [] 0) =
            (.halt (.trap .deallocuvm) stopped, []) := giveUp_ends roles dir (by omega)
      split_ifs at gaveUp ⊢ with within
      · exact ⟨0, gaveUp⟩
      · exact gaveUp

theorem allocuvm_tame {newsz : Nat} (process : Process m role d sz) (le : sz ≤ newsz)
    (small : newsz < 2 ^ 32) : Tame (Probe.allocuvm d sz newsz m) := by
  have room : ∀ c, needs m d (pages sz) c ≤ m.freelist.length → pages sz + c ≤ 3 * 0xE000 + 1 :=
    fun c enough => process_room process enough
  have first := room 0 (Nat.zero_le _)
  have start : pgroundup sz = (pages sz + 0) * pgsize := by
    rw [pgroundup_eq (by omega)]
    rfl
  rw [Probe.allocuvm, if_neg (by simp only [kernbase]; omega), if_neg (by omega), start]
  refine allocLoop_tame (grown_start process.roles process.dir) (fun c _ enough => ?_)
    (fun k low late => process_blank process low late) (by simp only [pages] at first; omega)
  have := room c enough.le
  omega

/-- What is asked of the walks: directory indices below 510, and different page table
entries for different addresses. -/
def Sound {α : Type} (run : Outcome Memory Panic α × List Report) : Prop :=
  (∀ va ∈ walks run.2, pdx va < 510) ∧
    ∀ a ∈ walks run.2, ∀ b ∈ walks run.2, a ≠ b → (pdx a, ptx a) ≠ (pdx b, ptx b)

theorem sound_iff_done {α : Type} {run : Outcome Memory Panic α × List Report} (tame : Tame run) :
    Sound run ↔ ∃ value next, run.1 = .done value next := by
  rcases tame with ⟨ended, low⟩ | ⟨⟨reason, stopped, halted⟩, va, member, high⟩
  · refine iff_of_true ⟨fun va member => ?_, fun a memberA b memberB other same => ?_⟩ ended
    · have := (low va member).1
      simp only [pdx]
      omega
    · obtain ⟨lowA, alignedA⟩ := low a memberA
      obtain ⟨lowB, alignedB⟩ := low b memberB
      injection same with samePdx samePtx
      simp only [pdx, ptx, pgsize] at samePdx samePtx alignedA alignedB
      omega
  · refine iff_of_false (fun sound => ?_) ?_
    · have := sound.1 va member
      omega
    · rintro ⟨value, next, done⟩
      rw [halted] at done
      cases done

/-- growproc walks soundly for every increment up to a limit near 1 GB: beyond it
allocuvm runs out of memory, and its rollback walks on to the back-pointers. -/
theorem growproc_sound_iff (process : Process m role d sz) (low : -2 ^ 31 ≤ n) (high : n < 2 ^ 31) :
    Sound (growproc d sz n m) ↔ (0 < n → sz + n ≤ walkTop m d (pages sz)) := by
  have size := process_bound process
  have start : sz ≤ 0x1c002000 := by
    simp only [pages, physPages] at size
    omega
  rcases Int.lt_trichotomy n 0 with shrink | rfl | grow
  · have tame : Tame (growproc d sz n m) := by
      rw [growproc, if_neg (by omega), if_pos shrink]
      refine tame_bind ?_ fun _ _ _ => tame_pure
      by_cases wraps : sz + n < 0
      · rw [Probe.deallocuvm, if_pos (by omega)]
        exact tame_pure
      · exact deallocuvm_tame process.roles process.dir (by omega)
    refine iff_of_true ((sound_iff_done tame).mpr ?_) fun grow => by omega
    obtain ⟨result, next, run⟩ : ∃ result next,
        Vm.deallocuvm d sz ((sz + n) % 2 ^ 32).toNat m = (.done result next, []) :=
      deallocuvm_returns process.roles process.dir (by omega)
    rw [growproc, if_neg (by omega), if_pos shrink, fst_bind, deallocuvm_erases m, run]
    exact ⟨_, _, rfl⟩
  · refine iff_of_true ((sound_iff_done tame_pure).mpr ⟨_, _, rfl⟩) fun grow => by omega
  · have sum : ((sz + n) % 2 ^ 32).toNat = sz + n.toNat := by omega
    have tame : Tame (growproc d sz n m) := by
      rw [growproc, if_pos grow, sum]
      exact tame_bind (allocuvm_tame process (by omega) (by omega)) fun _ _ _ => tame_pure
    have returns := allocuvm_returns process (by omega : sz ≤ sz + n.toNat) (by omega)
    have limit : (0 < n → sz + n ≤ walkTop m d (pages sz)) ↔
        sz + n.toNat ≤ walkTop m d (pages sz) := by omega
    rw [limit, sound_iff_done tame, growproc, if_pos grow, sum, fst_bind, allocuvm_erases m]
    split_ifs at returns with within
    · obtain ⟨result, next, run⟩ := returns
      rw [run]
      exact iff_of_true ⟨_, _, rfl⟩ within
    · obtain ⟨stopped, run⟩ := returns
      rw [run]
      refine iff_of_false ?_ within
      rintro ⟨_, _, done⟩
      cases done

end Grow

/-- A process of two pages for the concrete runs. -/
theorem reach_process {P : Spaces → Prop} [DecidablePred P]
    (holds : ((Transition.exec step tenPages [.setupkvm, .allocuvm 102 0 8192]).any
      fun final => decide (P final)) = true) : ∃ final role,
    Transition.exec step tenPages [.setupkvm, .allocuvm 102 0 8192] = some final ∧
      Process final.mem role 102 8192 ∧ P final := by
  obtain ⟨final, run, more⟩ := Transition.exec_reaches holds
  obtain ⟨reached, run', live, mapped, absent, blank⟩ : ∃ reached,
      Transition.exec step tenPages [.setupkvm, .allocuvm 102 0 8192] = some reached ∧
        102 ∈ reached.live ∧ (userPte reached.mem 102 1).isSome ∧
        (List.range 509).all (fun i => !present (word reached.mem 102 (i + 1))) = true ∧
        (List.range 510).all (fun j => (userPte reached.mem 102 (j + 2)).isNone) = true :=
    Transition.exec_reaches (by decide +kernel)
  obtain rfl : final = reached := Option.some.inj (run.symm.trans run')
  have start : Start tenPages := ⟨by decide, by decide, by decide, rfl, fun _ => rfl⟩
  obtain ⟨role, inv⟩ := run_inv start run
  have dir := (inv.live 102).mp live
  simp only [List.all_eq_true, List.mem_range, Bool.not_eq_true', Option.isNone_iff_eq_none]
    at absent blank
  refine ⟨final, role, run, ⟨inv.roles, dir, fun k low inner => ?_, fun q i j leaf => ?_⟩, more⟩
  · have one : k = 1 := by
      simp only [pages] at low
      omega
    subst one
    exact (userPte_some_iff inv.roles dir (by decide)).mp mapped
  · obtain ⟨t, table, small, -, -⟩ := pte_of_role inv.roles leaf
    obtain ⟨-, low, isPresent, -⟩ := pde_of_role inv.roles table
    have first : i = 0 := by
      by_contra other
      have none := absent (i - 1) (by omega)
      rw [show i - 1 + 1 = i by omega, isPresent] at none
      cases none
    by_contra late
    simp only [pages] at late
    have there := (userPte_some_iff inv.roles dir (by omega : j < 510 * 512)).mpr
      ⟨q, by rw [leaf, first, Nat.div_eq_of_lt small, Nat.mod_eq_of_lt small]⟩
    rw [show j = j - 2 + 2 by omega, blank (j - 2) (by omega)] at there
    cases there

/-- sbrk(4096) walks soundly. -/
theorem growproc_sound_page : ∃ final role,
    Transition.exec step tenPages [.setupkvm, .allocuvm 102 0 8192] = some final ∧
      Process final.mem role 102 8192 ∧ Sound (growproc 102 8192 4096 final.mem) := by
  obtain ⟨final, role, run, process, free⟩ := reach_process
    (P := fun final => needs final.mem 102 (pages 8192) 1 ≤ final.mem.freelist.length)
    (by decide +kernel)
  refine ⟨final, role, run, process, (growproc_sound_iff process (by decide) (by decide)).mpr ?_⟩
  intro _
  rw [walkTop, if_pos free]
  decide

/-- sbrk(0x7fffffff) walks at the directory index 510. -/
theorem growproc_strays : ∃ final role,
    Transition.exec step tenPages [.setupkvm, .allocuvm 102 0 8192] = some final ∧
      Process final.mem role 102 8192 ∧ ¬ Sound (growproc 102 8192 0x7fffffff final.mem) := by
  obtain ⟨final, role, run, process, stray⟩ := reach_process
    (P := fun final => 0x3fc00000 ∈ walks (growproc 102 8192 0x7fffffff final.mem).2)
    (by decide +kernel)
  refine ⟨final, role, run, process, fun sound => ?_⟩
  have low := sound.1 _ stray
  simp [pdx] at low

end Xv6.GrowProc
