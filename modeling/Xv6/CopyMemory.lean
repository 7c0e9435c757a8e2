import Xv6.GrowProc

/-! copyuvm on any address space with any number of free pages. It succeeds exactly when
no page of the parent is missing and there are enough free pages; otherwise at least one
page does not come back, or the kernel writes to address 0 of the parent. -/
namespace Xv6.CopyMemory
open TraceMonad Vm VmSpec PageTables AddressSpaces ExecPlan Growth Allocation Probe GrowProc

section Map
variable {m after : Memory} {d a p perm t : Nat} {rest made : List Nat}

theorem probe_walk_fresh (absent : present (word m d (pdx a)) = false) (freelist : m.freelist = t :: rest) :
    Probe.walkpgdir d a true m = (.done (some (t, ptx a)) (addTable m d (pdx a) t rest),
      [.walk a, .took t, .wrote t, .wrote d]) := by
  simp [Probe.walkpgdir, bind_run, emit, inspect, absent, pure_run, probe_kalloc_cons freelist,
    Probe.setPage, Probe.setWord, change, addTable]

/-- What mappages reports of a page: it writes the page table, and the directory if the
page table is new. -/
theorem map_reports {role : Nat → Role} (roles : Roles m role) (dir : role d = .dir)
    (aligned : a % pgsize = 0)
    (run : Vm.mappages d a pgsize p perm m = (.done true after, [])) :
    Probe.mappages d a pgsize p perm m = (.done true after,
      if present (word m d (pdx a)) then [.walk a, .wrote (pteAddr (word m d (pdx a)))]
      else match m.freelist with
        | [] => []
        | t :: _ => [.walk a, .took t, .wrote t, .wrote d, .wrote t]) := by
  have outcome : (Probe.mappages d a pgsize p perm m).1 = .done true after := by
    rw [mappages_erases m, run]
  refine Prod.ext outcome ?_
  dsimp only
  rw [probe_mappages_one aligned, Probe.mapFrom]
  cases isPresent : present (word m d (pdx a)) with
  | true =>
    by_cases inside : pteAddr (word m d (pdx a)) < linearPages
    · cases full : present (word m (pteAddr (word m d (pdx a))) (ptx a)) with
      | true =>
        rw [map_remap aligned isPresent inside full] at run
        cases run
      | false =>
        simp [bind_run, probe_walk_present isPresent, silent_load inside, full, Probe.store,
          Nat.not_le.mpr inside, Probe.setWord, emit, change, pure_run]
    · rw [map_trap aligned isPresent (by omega)] at run
      cases run
  | false =>
    cases freelist : m.freelist with
    | nil =>
      rw [map_none aligned isPresent freelist] at run
      cases run
    | cons t rest =>
      have isFree : role t = .free := (roles.free t).mp (by simp [freelist])
      have bound := (roles.range t (by simp [isFree])).2
      have notDir := (dir_ne_free dir isFree).symm
      have inside : t < linearPages := by
        simp only [physPages, linearPages] at bound ⊢
        omega
      have empty : present (word (addTable m d (pdx a) t rest) t (ptx a)) = false := by
        rw [word_addTable_new notDir bound]
        rfl
      simp [bind_run, probe_walk_fresh isPresent freelist, silent_load inside, empty, Probe.store,
        Nat.not_le.mpr inside, Probe.setWord, emit, change, pure_run]

end Map

/-! One round of the loop of copyuvm. -/

section Round
variable {m after : Memory} {d c a p count pte : Nat} {rest : List Nat} {reports : List Report}

theorem destroy_none {α : Type} {action : ProbeM α} {last : Memory} {made : Nat} :
    ((action >>= fun _ => (pure none : ProbeM (Option Nat))) m).1 ≠ .done (some made) last := by
  rw [fst_bind]
  rcases (action m).1 with ⟨value, middle⟩ | ⟨reason, stopped⟩
  · simp [pure_run]
  · simp

theorem copy_absent (absent : present (word m d (pdx a)) = false) :
    Probe.copyLoop d c (count + 1) a m = (.halt .pteShouldExist m, [.walk a]) := by
  rw [Probe.copyLoop, bind_done (probe_walk_absent absent)]
  rfl

variable (isPresent : present (word m d (pdx a)) = true)
  (inside : pteAddr (word m d (pdx a)) < linearPages)
  (is : word m (pteAddr (word m d (pdx a))) (ptx a) = pte)
include isPresent inside is

theorem copy_blank (empty : present pte = false) :
    Probe.copyLoop d c (count + 1) a m = (.halt .pageNotPresent m, [.walk a]) := by
  rw [Probe.copyLoop, bind_done (probe_walk_present isPresent)]
  simp [bind_run, silent_load inside, is, empty, halt]

theorem copy_empty (full : present pte = true) (freelist : m.freelist = []) {last : Memory}
    {made : Nat} : (Probe.copyLoop d c (count + 1) a m).1 ≠ .done (some made) last := by
  rw [Probe.copyLoop, bind_done (probe_walk_present isPresent)]
  dsimp only
  rw [bind_quiet (silent_load inside), is, if_neg (by simp [full]),
    bind_quiet (probe_kalloc_nil freelist)]
  exact destroy_none

theorem copy_start (full : present pte = true) (freelist : m.freelist = p :: rest)
    (near : pteAddr pte < linearPages) :
    Probe.copyLoop d c (count + 1) a m =
      let later := (do
        if ← Probe.mappages c a pgsize p (pteFlags pte) then
          Probe.copyLoop d c count (a + pgsize)
        else do
          silent (freevm c)
          pure none : ProbeM (Option Nat)) (taken m p rest (m.page (pteAddr pte)))
      (later.1, [.walk a, .took p, .wrote p] ++ later.2) := by
  rw [Probe.copyLoop, bind_done (probe_walk_present isPresent)]
  dsimp only
  rw [bind_quiet (silent_load inside), is, if_neg (by simp [full]),
    bind_done (probe_kalloc_cons freelist)]
  dsimp only
  rw [if_neg (by omega), bind_run]
  simp only [inspect, Probe.setPage, bind_run, emit, change]
  rfl

theorem copy_lost (full : present pte = true) (freelist : m.freelist = p :: rest)
    (near : pteAddr pte < linearPages)
    (run : Vm.mappages c a pgsize p (pteFlags pte) (taken m p rest (m.page (pteAddr pte))) =
      (.done false after, [])) {last : Memory} {made : Nat} :
    (Probe.copyLoop d c (count + 1) a m).1 ≠ .done (some made) last := by
  rw [copy_start isPresent inside is full freelist near]
  dsimp only
  rw [fst_bind, mappages_erases, run]
  exact destroy_none

theorem copy_next (full : present pte = true) (freelist : m.freelist = p :: rest)
    (near : pteAddr pte < linearPages)
    (run : Probe.mappages c a pgsize p (pteFlags pte) (taken m p rest (m.page (pteAddr pte))) =
      (.done true after, reports)) :
    Probe.copyLoop d c (count + 1) a m = ((Probe.copyLoop d c count (a + pgsize) after).1,
      [.walk a, .took p, .wrote p] ++ (reports ++ (Probe.copyLoop d c count (a + pgsize) after).2)) := by
  rw [copy_start isPresent inside is full freelist near]
  dsimp only
  rw [bind_done run]
  rfl

end Round

/-- What copyuvm copies: the flags and the content of the pages of d. -/
def copied (m : Memory) (d k : Nat) : Nat × Page :=
  match userPte m d k with
  | some pte => (pteFlags pte, m.page (pteAddr pte))
  | none => (0, 0)

section Copy
variable {m next : Memory} {role role' : Nat → Role} {d c n count : Nat} {made : List Nat}

theorem parent_page (known : Roles m role) (child : role c = .dir)
    (grown : Grown m c 0 (copied m d) n next role') {q : Nat} (busy : role q ≠ .free) (other : q ≠ c)
    (notTable : ∀ i, role q ≠ .table c i) : next.page q = m.page q := by
  refine grown.pages q (fun free => busy ((known.free q).mp free)) other fun i low there => ?_
  exact notTable i ((tableAt_iff known child low).mp there)

theorem parent_word (known : Roles m role) (child : role c = .dir)
    (grown : Grown m c 0 (copied m d) n next role') {q j : Nat} (busy : role q ≠ .free)
    (other : q ≠ c) (notTable : ∀ i, role q ≠ .table c i) : word next q j = word m q j := by
  rw [word, word, parent_page known child grown busy other notTable]

theorem child_table (blank : ∀ i < 510, tableAt m c i = none)
    (grown : Grown m c 0 (copied m d) n next role')
    (used : ∀ q ∈ m.freelist, q ∉ next.freelist → q ∈ made) {i : Nat} (low : i < 510)
    (isPresent : present (word next c i) = true) : pteAddr (word next c i) ∈ made := by
  have table := role_of_pde grown.roles grown.dir low isPresent
  rcases grown.made _ i table with there | wasFree
  · rw [blank i low] at there
    cases there
  · refine used _ wasFree fun free => ?_
    rw [grown.roles.free, table] at free
    cases free

theorem copied_small (k : Nat) : (copied m d k).1 < 4096 := by
  unfold copied
  split
  · exact Nat.mod_lt _ (by decide)
  · decide

theorem map_next {last : Nat → Role} {after : Memory} {p perm : Nat} {rest : List Nat}
    {content : Page} (blank : ∀ i < 510, tableAt m c i = none)
    (grown : Grown m c 0 (copied m d) n next role')
    (grown' : Grown m c 0 (copied m d) (n + 1) after last) (small : n < 510 * 512)
    (freelist : next.freelist = p :: rest) (dir : c ∈ made)
    (used : ∀ q ∈ m.freelist, q ∉ next.freelist → q ∈ made)
    (run : Vm.mappages c (n * pgsize) pgsize p perm (taken next p rest content) =
      (.done true after, [])) :
    ∃ reports, Probe.mappages c (n * pgsize) pgsize p perm (taken next p rest content) =
        (.done true after, reports) ∧
      ∃ made', (∀ later, Clean made' later →
          Clean made ([.walk (n * pgsize), .took p, .wrote p] ++ (reports ++ later))) ∧
        c ∈ made' ∧ ∀ q ∈ m.freelist, q ∉ after.freelist → q ∈ made' := by
  have isFree : role' p = .free := (grown.roles.free p).mp (by simp [freelist])
  have notDir : c ≠ p := dir_ne_free grown.dir isFree
  have took : Roles (taken next p rest content) (Function.update role' p (.held 0)) :=
    roles_setPage (roles_take grown.roles freelist) (Function.update_self ..)
  have dir' : Function.update role' p (.held 0) c = .dir := by
    rw [Function.update_of_ne notDir, grown.dir]
  have probed := map_reports took dir' (Nat.mul_mod_left n pgsize) run
  have there := grown_missing grown (by omega : 0 + n < 510 * 512)
  rw [Nat.zero_add, tableAt_isSome] at there
  rw [pdx_page small, word_taken notDir, there] at probed
  refine ⟨_, probed, ?_⟩
  have before := grown.freelist
  have now := grown'.freelist
  rw [freelist] at before
  have tail := drop_tail before.symm
  have taken_ : ∀ q ∈ m.freelist, q ∉ rest → q ∈ p :: made := by
    intro q inList gone
    by_cases self : q = p
    · exact self ▸ List.mem_cons_self
    · refine List.mem_cons_of_mem _ (used q inList ?_)
      rw [freelist]
      simp [self, gone]
  rw [needs] at now
  cases gap : missing m c 0 n with
  | false =>
    rw [gap] at there now
    refine ⟨p :: made, fun later clean => ?_, List.mem_cons_of_mem _ dir, ?_⟩
    · have table := child_table blank grown used (by omega) there
      simpa [Clean, table] using clean
    · rw [now]
      simpa [tail] using taken_
  | true =>
    have enough := grown'.enough
    have length := grown_length grown
    rw [needs, gap] at enough
    rw [freelist, List.length_cons] at length
    simp only [if_true] at enough
    cases rest with
    | nil =>
      simp only [List.length_nil] at length
      omega
    | cons t rest =>
      rw [gap] at now
      have last : m.freelist.drop (needs m c 0 n + 2) = rest := drop_tail tail
      refine ⟨t :: p :: made, fun later clean => ?_, by simp [dir], ?_⟩
      · simpa [taken, Memory.setPage, Clean, dir] using clean
      · intro q inList gone
        rw [now] at gone
        simp only [if_true, last] at gone
        by_cases self : q = t
        · exact self ▸ List.mem_cons_self
        · refine List.mem_cons_of_mem _ (taken_ q inList ?_)
          simp [self, gone]

theorem copyLoop_ends (known : Roles m role) (parent : role d = .dir) (child : role c = .dir)
    (apart : d ≠ c) (blank : ∀ i < 510, tableAt m c i = none)
    (grown : Grown m c 0 (copied m d) n next role') (dir : c ∈ made)
    (used : ∀ q ∈ m.freelist, q ∉ next.freelist → q ∈ made) :
    if (∀ k, n ≤ k → k < n + count → (userPte m d k).isSome) ∧
        needs m c 0 (n + count) ≤ m.freelist.length then
      ∃ last reports, Probe.copyLoop d c count (n * pgsize) next = (.done (some c) last, reports) ∧
        Clean made reports ∧ ∃ role'', Grown m c 0 (copied m d) (n + count) last role'' ∧
          ∀ q, role' q ≠ .free → role'' q = role' q
    else ∀ page last, (Probe.copyLoop d c count (n * pgsize) next).1 ≠ .done (some page) last := by
  induction count generalizing n next role' made with
  | zero =>
    rw [if_pos ⟨fun k ge lt => by omega, grown.enough⟩]
    exact ⟨next, [], rfl, trivial, role', grown, fun _ _ => rfl⟩
  | succ count ih =>
    have length := grown_length grown
    have small : n < 510 * 512 := by
      have mono := needs_mono (m := m) (d := c) (n := 0) (Nat.zero_le n)
      have free := free_bound known
      simp only [physPages] at free
      omega
    have index : n / 512 < 510 := by omega
    have top : word next d (n / 512) = word m d (n / 512) :=
      parent_word known child grown (by simp [parent]) apart (by simp [parent])
    have pageDir : pdx (n * pgsize) = n / 512 := pdx_page small
    have tail : n + (count + 1) = n + 1 + count := by omega
    cases isPresent : present (word m d (n / 512)) with
    | false =>
      rw [copy_absent (by rw [pageDir, top, isPresent]), if_neg]
      · simp
      · rintro ⟨there, -⟩
        have here := there n le_rfl (by omega)
        rw [userPte_eq, isPresent] at here
        simp at here
    | true =>
      have table := role_of_pde known parent index isPresent
      have inside : pteAddr (word m d (n / 512)) < linearPages :=
        (table_inside known parent index isPresent).2
      have notChild : pteAddr (word m d (n / 512)) ≠ c := by
        intro same
        rw [same, child] at table
        cases table
      have entry : word next (pteAddr (word m d (n / 512))) (n % 512) =
          word m (pteAddr (word m d (n / 512))) (n % 512) :=
        parent_word known child grown (by simp [table]) notChild (by
          intro i
          rw [table]
          simp [apart])
      have isPresent' : present (word next d (pdx (n * pgsize))) = true := by
        rw [pageDir, top, isPresent]
      have inside' : pteAddr (word next d (pdx (n * pgsize))) < linearPages := by
        rw [pageDir, top]
        exact inside
      have is : word next (pteAddr (word next d (pdx (n * pgsize)))) (ptx (n * pgsize)) =
          word m (pteAddr (word m d (n / 512))) (n % 512) := by
        rw [pageDir, ptx_page, top, entry]
      generalize read : word m (pteAddr (word m d (n / 512))) (n % 512) = pte at is
      cases full : present pte with
      | false =>
        rw [copy_blank isPresent' inside' is full, if_neg]
        · simp
        · rintro ⟨there, -⟩
          have here := there n le_rfl (by omega)
          rw [userPte_eq, isPresent, read, full] at here
          simp at here
      | true =>
        have here : userPte m d n = some pte := by
          rw [userPte_eq, read, if_pos ⟨isPresent, full⟩]
        cases freelist : next.freelist with
        | nil =>
          rw [if_neg]
          · exact fun page last => copy_empty isPresent' inside' is full freelist
          · rintro ⟨-, enough⟩
            have mono := needs_mono (m := m) (d := c) (n := 0) (show n ≤ n + (count + 1) by omega)
            rw [freelist, List.length_nil] at length
            omega
        | cons p rest =>
          rw [freelist, List.length_cons] at length
          have leaf : role (pteAddr pte) = .leaf d (n / 512) (n % 512) :=
            read ▸ role_of_pte known table (Nat.mod_lt _ (by decide)) (read ▸ full)
          have near : pteAddr pte < linearPages := by
            have := (known.range (pteAddr pte) (by simp [leaf])).2
            simp only [physPages, linearPages] at this ⊢
            omega
          have content : next.page (pteAddr pte) = m.page (pteAddr pte) := by
            refine parent_page known child grown (by simp [leaf]) ?_ (by simp [leaf])
            intro same
            rw [same, child] at leaf
            cases leaf
          have source : copied m d n = (pteFlags pte, next.page (pteAddr pte)) := by
            rw [copied, here, content]
          by_cases short : missing m c 0 n = true ∧ rest = []
          · obtain ⟨gap, rfl⟩ := short
            have run : Vm.mappages c ((0 + n) * pgsize) pgsize p (pteFlags pte)
                (taken next p [] (next.page (pteAddr pte))) = _ :=
              map_missing grown (by omega) gap freelist
            rw [Nat.zero_add] at run
            rw [if_neg]
            · exact fun page last => copy_lost isPresent' inside' is full freelist near run
            · rintro ⟨-, enough⟩
              have mono := needs_mono (m := m) (d := c) (n := 0)
                (show n + 1 ≤ n + (count + 1) by omega)
              rw [needs, gap] at mono
              simp only [if_true, List.length_nil] at mono length
              omega
          · have emptySlot : userPte m c (0 + n) = none := by
              rw [userPte_eq, ← tableAt_isSome, blank _ (by omega)]
              simp
            obtain ⟨after, last, run, grown', kept⟩ := grown_step grown (by omega) emptySlot
              freelist (fun gap none => short ⟨gap, none⟩) copied_small
            rw [Nat.zero_add, source] at run
            obtain ⟨reports, probed, made', clean, dir', used'⟩ :=
              map_next blank grown grown' small freelist dir used run
            have later := ih grown' dir' used'
            have step : (n + 1) * pgsize = n * pgsize + pgsize := Nat.succ_mul ..
            have same : ((∀ k, n ≤ k → k < n + (count + 1) → (userPte m d k).isSome) ∧
                  needs m c 0 (n + (count + 1)) ≤ m.freelist.length) ↔
                (∀ k, n + 1 ≤ k → k < n + 1 + count → (userPte m d k).isSome) ∧
                  needs m c 0 (n + 1 + count) ≤ m.freelist.length := by
              rw [tail]
              refine and_congr_left fun _ => ⟨fun all k ge => all k (by omega),
                fun all k ge lt => ?_⟩
              by_cases first : k = n
              · rw [first, here]
                rfl
              · exact all k (by omega) lt
            rw [copy_next isPresent' inside' is full freelist near probed, ← step,
              if_congr same rfl rfl]
            split_ifs at later ⊢ with enough
            · obtain ⟨final, reports', run', clean', role'', grown'', kept'⟩ := later
              refine ⟨final, _, by rw [run'], clean _ clean', role'', tail ▸ grown'', ?_⟩
              intro q busy
              rw [kept' q (by rwa [kept q busy]), kept q busy]
            · exact later

end Copy

/-! copyuvm -/

section Whole
variable {m next : Memory} {role : Nat → Role} {d u v c size n limit : Nat} {rest made : List Nat}

theorem needs_empty (blank : ∀ i < 510, tableAt m c i = none) (small : n ≤ 510 * 512) :
    needs m c 0 n = n + (n + 511) / 512 := by
  induction n with
  | zero => rfl
  | succ n ih =>
    have gap : missing m c 0 n = (n % 512 == 0) := by
      rw [missing, Nat.zero_add, blank _ (by omega)]
      by_cases first : n % 512 = 0
      · simp [first]
      · have positive : n ≠ 0 := by
          rintro rfl
          exact first rfl
        simp [first, positive]
    rw [needs, ih (by omega), gap]
    by_cases first : n % 512 = 0
    · simp only [first, beq_self_eq_true, if_true]
      omega
    · simp only [beq_iff_eq, first, if_false]
      omega

theorem needs_le_iff (blank : ∀ i < 510, tableAt m c i = none) (few : limit ≤ physPages) :
    needs m c 0 n ≤ limit ↔ n + (n + 511) / 512 ≤ limit := by
  simp only [physPages] at few
  by_cases small : n ≤ 510 * 512
  · rw [needs_empty blank small]
  · have mono := needs_mono (m := m) (d := c) (n := 0) (Nat.zero_le n)
    omega

theorem word_withSpace {q j : Nat} (notU : q ≠ u) (notV : q ≠ v) (notC : q ≠ c) :
    word (withSpace m u v c rest) q j = word m q j := by
  simp only [withSpace]
  rw [word_setWord_other notC, word_setWord_other notC, word_setWord_other notV,
    word_setWord_other notU, word_setWord_other notU, word_setPage_other notC,
    word_setPage_other notV, word_setPage_other notU]
  rfl

theorem setupkvm_probe (freelist : m.freelist = u :: v :: c :: rest) :
    Probe.setupkvm m = (.done (some c) (withSpace m u v c rest),
      [.took u, .took v, .took c, .wrote u, .wrote v, .wrote c, .wrote u, .wrote u, .wrote v,
        .wrote c, .wrote c]) := by
  have first := probe_kalloc_cons freelist
  have second := probe_kalloc_cons (m := { m with freelist := v :: c :: rest }) rfl
  have third := probe_kalloc_cons (m := { m with freelist := c :: rest }) rfl
  simp only [Probe.setupkvm, bind_run, first, second, third, target, silent, pure_run,
    Probe.setPage, Probe.setWord, emit, change, inspect]
  rfl

theorem copyuvm_ends (roles : Roles m role) (parent : role d = .dir)
    (freelist : m.freelist = u :: v :: c :: rest) :
    if (∀ k < pages size, (userPte m d k).isSome) ∧
        pages size + (pages size + 511) / 512 ≤ rest.length then
      ∃ last reports, Probe.copyuvm d size m = (.done (some c) last, reports) ∧ Clean made reports ∧
        ∃ role', Grown (withSpace m u v c rest) c 0 (copied (withSpace m u v c rest) d) (pages size)
            last role' ∧
          ∀ q, created role u v c q ≠ .free → role' q = created role u v c q
    else ∀ page last, (Probe.copyuvm d size m).1 ≠ .done (some page) last := by
  obtain ⟨roles', fresh, child, -⟩ := created_space roles freelist
  have isFree : ∀ q, q = u ∨ q = v ∨ q = c → role q = .free := by
    rintro q (rfl | rfl | rfl) <;> exact (roles.free _).mp (by simp [freelist])
  have away : ∀ q, role q ≠ .free → q ≠ u ∧ q ≠ v ∧ q ≠ c := by
    intro q busy
    refine ⟨?_, ?_, ?_⟩ <;> rintro rfl <;> exact busy (isFree _ (by simp))
  obtain ⟨dU, dV, apart⟩ := away d (by simp [parent])
  have parent' : created role u v c d = .dir := by simp [created, dU, dV, apart, parent]
  have none : ∀ t i, created role u v c t ≠ .table c i := by
    intro t i table
    unfold created at table
    split_ifs at table
    have known := (pde_of_role roles table).1
    rw [fresh] at known
    cases known
  have blank : ∀ i < 510, tableAt (withSpace m u v c rest) c i = .none := by
    intro i low
    cases there : tableAt (withSpace m u v c rest) c i with
    | none => rfl
    | some t => exact (none t i ((tableAt_iff roles' child low).mp there)).elim
  have few : rest.length ≤ physPages := free_bound roles'
  -- Below the directory entry 510 the parent's page table reads as before.
  have view : ∀ k < 510 * 512, userPte (withSpace m u v c rest) d k = userPte m d k := by
    intro k low
    refine userPte_congr roles parent low (word_withSpace dU dV apart) fun t table => ?_
    obtain ⟨tU, tV, tC⟩ := away t (by simp [table])
    exact word_withSpace tU tV tC
  have start : Grown (withSpace m u v c rest) c 0 (copied (withSpace m u v c rest) d) 0
      (withSpace m u v c rest) (created role u v c) := grown_start roles' child
  have dirMade : c ∈ c :: v :: u :: made := List.mem_cons_self
  have unused : ∀ q ∈ (withSpace m u v c rest).freelist,
      q ∉ (withSpace m u v c rest).freelist → q ∈ c :: v :: u :: made :=
    fun q inList gone => (gone inList).elim
  have loop := @copyLoop_ends _ _ _ _ _ _ _ (pages size) _ roles' parent' child apart blank start
    dirMade unused
  have same : ((∀ k, 0 ≤ k → k < 0 + pages size →
        (userPte (withSpace m u v c rest) d k).isSome) ∧
        needs (withSpace m u v c rest) c 0 (0 + pages size) ≤
          (withSpace m u v c rest).freelist.length) ↔
      (∀ k < pages size, (userPte m d k).isSome) ∧
        pages size + (pages size + 511) / 512 ≤ rest.length := by
    rw [Nat.zero_add, show (withSpace m u v c rest).freelist = rest from rfl,
      needs_le_iff blank few]
    refine and_congr_left fun enough => ?_
    simp only [physPages] at few
    constructor
    · intro all k low
      rw [← view k (by omega)]
      exact all k (Nat.zero_le k) low
    · intro all k _ low
      rw [view k (by omega)]
      exact all k low
  have count : (size + (pgsize - 1)) / pgsize = pages size := rfl
  rw [if_congr same rfl rfl, Nat.zero_mul] at loop
  rw [Probe.copyuvm, bind_done (setupkvm_probe freelist)]
  dsimp only
  rw [count]
  split_ifs at loop ⊢ with enough
  · obtain ⟨last, reports, run, clean⟩ := loop
    refine ⟨last, _, by rw [run], ?_⟩
    simpa [Clean] using clean
  · exact loop

theorem copyuvm_leaks (roles : Roles m role) (freelist : m.freelist = u :: v :: c :: rest)
    (run : (Probe.copyuvm d size m).1 = .done none next) : u ∉ next.freelist := by
  obtain ⟨roles', uv, uc, vc⟩ := roles_withSpace roles freelist
  have child : created role u v c c = .dir := by simp [created, uc.symm, vc.symm]
  have top : created role u v c u = .pml4 c := by simp [created, uv]
  have loop : (Vm.copyLoop d c ((size + (pgsize - 1)) / pgsize) 0 (withSpace m u v c rest)).1 =
      .done none next := by
    rw [copyuvm_erases m, Vm.copyuvm, bind_quiet (setupkvm_run freelist)] at run
    exact run
  obtain ⟨last, gone, change, -⟩ := reached (copyLoop_changed roles' child rfl) loop
  have still : last u = .pml4 c := by
    rcases change u with same | ⟨mine, -⟩
    · rw [same, top]
    · rw [top] at mine
      cases mine
  intro free
  rw [gone.free, destroyed, still] at free
  simp at free

theorem nullPage_cases (access : Access) (m : Memory) :
    (∃ reason, nullPage access m = (.halt reason m, [])) ∨
    present (word m m.cr3 0) = true ∧ present (word m (pteAddr (word m m.cr3 0)) 0) = true ∧
      nullPage access m = (.done (pteAddr (word m (pteAddr (word m m.cr3 0)) 0)) m, []) := by
  cases pde : present (word m m.cr3 0) with
  | false => exact .inl ⟨.trap access, by simp [nullPage, bind_run, inspect, pde, halt]⟩
  | true =>
    by_cases inside : pteAddr (word m m.cr3 0) < linearPages
    · cases pte : present (word m (pteAddr (word m m.cr3 0)) 0) with
      | false =>
        exact .inl ⟨.trap access, by
          simp [nullPage, bind_run, inspect, pde, load_run inside, pte, halt]⟩
      | true =>
        exact .inr ⟨rfl, rfl, by
          simp [nullPage, bind_run, inspect, pde, load_run inside, pte, pure_run]⟩
    · exact .inl ⟨.trap access, by
        simp [nullPage, bind_run, inspect, pde, load_trap (Nat.not_lt.mp inside)]⟩

theorem target_keeps {pointer : Option Nat} :
    Ensures anything (target pointer) m fun _ next => next = m := by
  cases pointer with
  | some page => exact ensures_pure rfl
  | none =>
    rcases nullPage_cases .setupkvm m with ⟨reason, run⟩ | ⟨-, -, run⟩
    · exact ensures_of_halt run (fun _ _ _ => trivial) trivial
    · exact ensures_of_done run (fun _ _ _ => trivial) rfl

theorem freelist_setPage {q : Nat} {content : Page} :
    (m.setPage q content).freelist = m.freelist := rfl

theorem freelist_setWord {q i value : Nat} : (m.setWord q i value).freelist = m.freelist := rfl

theorem fillSpace_keeps {pml4 pdpt : Option Nat} (empty : m.freelist = []) :
    Ensures anything (fillSpace pml4 pdpt none) m fun result next =>
      result = none ∧ next.freelist = [] := by
  refine ensures_then target_keeps fun u _ same => ensures_change_then ?_
  refine ensures_then target_keeps fun v _ same' => ensures_change_then ?_
  refine ensures_then target_keeps fun w _ same'' => ensures_change_then ?_
  subst same same' same''
  refine ensures_inspect_then (ensures_change_then (ensures_change_then (ensures_change_then
    (ensures_change_then (ensures_change_then (ensures_pure ⟨rfl, ?_⟩))))))
  simp only [freelist_setWord, freelist_setPage, empty]

/-- With fewer than three free pages copyuvm returns 0 and takes them all, if it returns. -/
theorem copyuvm_short (short : m.freelist.length < 3) {result : Option Nat}
    (run : (Probe.copyuvm d size m).1 = .done result next) : result = none ∧ next.freelist = [] := by
  obtain ⟨pml4, pdpt, setup, -⟩ := setupkvm_fill short
  have ensured : Ensures anything (Vm.copyuvm d size) m fun result next =>
      result = none ∧ next.freelist = [] := by
    refine ensures_then (ensures_of_eq setup (fillSpace_keeps rfl)) fun result after null => ?_
    obtain ⟨rfl, list⟩ := null
    exact ensures_pure ⟨rfl, list⟩
  rw [copyuvm_erases m] at run
  exact reached ensured run

theorem copyuvm_null (roles : Roles m role) (current : role m.cr3 = .dir) (empty : m.freelist = [])
    {result : Option Nat} (run : (Probe.copyuvm d size m).1 = .done result next) :
    ∃ q later, (Probe.copyuvm d size m).2 = .wrote q :: later ∧ role q = .leaf m.cr3 0 0 := by
  rcases nullPage_cases .setupkvm m with ⟨reason, null⟩ | ⟨pde, pte, null⟩
  · have setup : Vm.setupkvm m = (.halt reason m, []) := by
      rw [Vm.setupkvm, bind_quiet (kalloc_nil empty), bind_quiet (kalloc_nil empty),
        bind_quiet (kalloc_nil empty)]
      exact bind_halt null
    rw [copyuvm_erases m, Vm.copyuvm, bind_halt setup] at run
    cases run
  · have table := role_of_pde roles current (by decide) pde
    have quiet : (silent (target none) : ProbeM Nat) m =
        (.done (pteAddr (word m (pteAddr (word m m.cr3 0)) 0)) m, []) :=
      congrArg (fun run => (run.1, [])) null
    obtain ⟨later, reports⟩ : ∃ later, (Probe.copyuvm d size m).2 =
        .wrote (pteAddr (word m (pteAddr (word m m.cr3 0)) 0)) :: later := by
      rw [Probe.copyuvm, Probe.setupkvm, bind_assoc_action, bind_quiet (probe_kalloc_nil empty),
        bind_assoc_action, bind_quiet (probe_kalloc_nil empty), bind_assoc_action,
        bind_quiet (probe_kalloc_nil empty), bind_assoc_action, bind_quiet quiet,
        bind_assoc_action, Probe.setPage, bind_assoc_action, bind_done (rfl : emit _ m = _)]
      exact ⟨_, rfl⟩
    exact ⟨_, later, reports, role_of_pte roles table (by decide) pte⟩

end Whole

end Xv6.CopyMemory
