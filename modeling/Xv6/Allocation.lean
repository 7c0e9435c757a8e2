import Xv6.Growth

/-! allocuvm on any address space whose pages end at oldsz, with any page tables above
them and any number of free pages. The loop maps page after page until it is done, the
free list is empty, or the only free page is taken while its page table is missing. -/
namespace Xv6.Allocation
open TraceMonad BitField Vm VmSpec PageTables AddressSpaces ExecPlan Growth

/-- The PTE of page k, when it is present. -/
def userPte (m : Memory) (d k : Nat) : Option Nat := (pteAt m d k).filter present

section Views
variable {m next : Memory} {role : Nat → Role} {d k i p : Nat} {rest : List Nat}

theorem userPte_eq : userPte m d k =
    if present (word m d (k / 512)) = true ∧
      present (word m (pteAddr (word m d (k / 512))) (k % 512)) = true
    then some (word m (pteAddr (word m d (k / 512))) (k % 512)) else none := by
  unfold userPte pteAt tableAt
  by_cases isPresent : present (word m d (k / 512)) = true
  · by_cases full : present (word m (pteAddr (word m d (k / 512))) (k % 512)) = true
    · simp [isPresent, full, Option.filter]
    · simp [isPresent, full, Option.filter]
  · simp [isPresent, Option.filter]

theorem leafAt_eq : leafAt m d k = (userPte m d k).map pteAddr := by
  unfold leafAt userPte
  cases pteAt m d k with
  | none => rfl
  | some pte => by_cases isPresent : present pte = true <;> simp [Option.filter, isPresent]

theorem tableAt_isSome : (tableAt m d i).isSome = present (word m d i) := by
  unfold tableAt
  by_cases isPresent : present (word m d i) = true <;> simp [isPresent]

theorem userPte_some_iff (roles : Roles m role) (dir : role d = .dir) (low : k < 510 * 512) :
    (userPte m d k).isSome ↔ ∃ p, role p = .leaf d (k / 512) (k % 512) := by
  simp only [← leafAt_iff roles dir low, leafAt_eq]
  cases userPte m d k <;> simp

theorem userPte_congr (roles : Roles m role) (dir : role d = .dir) (low : k < 510 * 512)
    (top : word next d (k / 512) = word m d (k / 512))
    (same : ∀ t, role t = .table d (k / 512) → word next t (k % 512) = word m t (k % 512)) :
    userPte next d k = userPte m d k := by
  rw [userPte_eq, userPte_eq, top]
  by_cases isPresent : present (word m d (k / 512)) = true
  · rw [same _ (role_of_pde roles dir (by omega) isPresent)]
  · simp [isPresent]

/-- The free page p is taken off the list and filled. -/
def taken (m : Memory) (p : Nat) (rest : List Nat) (content : Page) : Memory :=
  ({ m with freelist := rest }).setPage p content

variable {content : Page}

theorem word_taken {q j : Nat} (other : q ≠ p) : word (taken m p rest content) q j = word m q j :=
  word_setPage_other other

theorem tableAt_taken (other : d ≠ p) : tableAt (taken m p rest content) d i = tableAt m d i := by
  unfold tableAt
  rw [word_taken other]

theorem userPte_taken (roles : Roles m role) (dir : role d = .dir) (isFree : role p = .free)
    (low : k < 510 * 512) : userPte (taken m p rest content) d k = userPte m d k := by
  have apart : ∀ {q : Nat}, role q ≠ .free → q ≠ p := by
    rintro q other rfl
    exact other isFree
  refine userPte_congr roles dir low (word_taken (apart (by simp [dir]))) ?_
  intro t table
  exact word_taken (apart (by simp [table]))

end Views

/-! One page more. -/

section Map
variable {m next : Memory} {role role' : Nat → Role} {d k p flags : Nat}

/-- What the address space looks like once page k is mapped. -/
structure Mapped (m next : Memory) (role : Nat → Role) (d k pte : Nat) : Prop where
  pte : userPte next d k = some pte
  others : ∀ l < 510 * 512, l ≠ k → userPte next d l = userPte m d l
  tables : ∀ i < 510, (tableAt next d i).isSome ↔ (tableAt m d i).isSome ∨ i = k / 512
  freelist : next.freelist = if (tableAt m d (k / 512)).isSome then m.freelist else m.freelist.tail
  pages : ∀ q, role q ≠ .free → q ≠ d → (∀ i, role q ≠ .table d i) → next.page q = m.page q

theorem mapped_table {t pte : Nat} (roles : Roles m role) (dir : role d = .dir)
    (low : k < 510 * 512) (isPresent : present (word m d (k / 512)) = true)
    (is : pteAddr (word m d (k / 512)) = t) (flagged : present pte = true) (small : pte < 2 ^ 64) :
    Mapped m (m.setWord t (k % 512) pte) role d k pte := by
  have table : role t = .table d (k / 512) := is ▸ role_of_pde roles dir (by omega) isPresent
  have read : ∀ q j, word (m.setWord t (k % 512) pte) q j =
      if q = t ∧ j = k % 512 then pte else word m q j :=
    fun q j => word_setWord (Nat.mod_lt _ (by decide)) small
  have notTable : d ≠ t := by
    rintro rfl
    rw [dir] at table
    cases table
  have top : ∀ i, word (m.setWord t (k % 512) pte) d i = word m d i := fun i => by
    rw [read, if_neg (by simp [notTable])]
  refine ⟨?_, fun l inside other => ?_, fun i inside => ?_, ?_, fun q _ _ notT => ?_⟩
  · have here : word (m.setWord t (k % 512) pte) t (k % 512) = pte := by
      rw [read, if_pos ⟨rfl, rfl⟩]
    rw [userPte_eq, top, is, here, if_pos ⟨isPresent, flagged⟩]
  · refine userPte_congr roles dir inside (top _) fun u theirs => ?_
    rw [read, if_neg]
    rintro ⟨rfl, slot⟩
    rw [table] at theirs
    injection theirs with _ index
    omega
  · simp only [tableAt_isSome, top]
    constructor
    · exact .inl
    · rintro (there | rfl)
      · exact there
      · exact isPresent
  · rw [tableAt_isSome, if_pos isPresent]
    rfl
  · have away : q ≠ t := by
      rintro rfl
      exact notT _ table
    simp [Memory.setWord, Memory.setPage, away]

theorem mapped_fresh {t pte : Nat} {rest : List Nat} (roles : Roles m role) (dir : role d = .dir)
    (low : k < 510 * 512) (absent : present (word m d (k / 512)) = false)
    (freelist : m.freelist = t :: rest) (flagged : present pte = true) (small : pte < 2 ^ 64) :
    Mapped m ((addTable m d (k / 512) t rest).setWord t (k % 512) pte) role d k pte := by
  have isFree : role t = .free := (roles.free t).mp (by simp [freelist])
  have bound := (roles.range t (by simp [isFree])).2
  have notDir : d ≠ t := dir_ne_free dir isFree
  have read : ∀ q j, word ((addTable m d (k / 512) t rest).setWord t (k % 512) pte) q j =
      if q = t ∧ j = k % 512 then pte else
      if q = d ∧ j = k / 512 then entry t (pteP ||| pteW ||| pteU) else
        word (({ m with freelist := rest }).setPage t 0) q j := by
    intro q j
    rw [word_setWord (Nat.mod_lt _ (by decide)) small, addTable,
      word_setWord (by omega) (entry_lt (by decide) bound)]
  have top : ∀ i, word ((addTable m d (k / 512) t rest).setWord t (k % 512) pte) d i =
      if i = k / 512 then entry t (pteP ||| pteW ||| pteU) else word m d i := by
    intro i
    rw [read, if_neg (by simp [notDir]), word_setPage_other notDir]
    simp only [true_and]
    rfl
  refine ⟨?_, fun l inside other => ?_, fun i inside => ?_, ?_, fun q notFree notD _ => ?_⟩
  · have here : word ((addTable m d (k / 512) t rest).setWord t (k % 512) pte) t (k % 512) = pte := by
      rw [read, if_pos ⟨rfl, rfl⟩]
    have table : word ((addTable m d (k / 512) t rest).setWord t (k % 512) pte) d (k / 512) =
        entry t (pteP ||| pteW ||| pteU) := by rw [top, if_pos rfl]
    rw [userPte_eq, table, pteAddr_entry (by decide), here,
      if_pos ⟨present_entry (by decide), flagged⟩]
  · by_cases same : l / 512 = k / 512
    · -- The other entries of a new page table are zero.
      have blank : word ((addTable m d (k / 512) t rest).setWord t (k % 512) pte) t (l % 512) = 0 := by
        rw [read, if_neg (by omega), if_neg (by simp [notDir.symm]), word_setPage_zero]
      have table : word ((addTable m d (k / 512) t rest).setWord t (k % 512) pte) d (l / 512) =
          entry t (pteP ||| pteW ||| pteU) := by rw [top, if_pos same]
      rw [userPte_eq, userPte_eq, table, pteAddr_entry (by decide), blank, same, absent]
      simp [present]
    · refine userPte_congr roles dir inside (by rw [top, if_neg same]) fun u theirs => ?_
      have away : u ≠ t := by
        rintro rfl
        rw [isFree] at theirs
        cases theirs
      have notD : u ≠ d := by
        rintro rfl
        rw [dir] at theirs
        cases theirs
      rw [read, if_neg (by simp [away]), if_neg (by simp [notD]), word_setPage_other away]
      rfl
  · simp only [tableAt_isSome, top]
    by_cases self : i = k / 512
    · simp [self, present_entry (by decide : (pteP ||| pteW ||| pteU).testBit 0 = true)]
    · simp [self]
  · rw [tableAt_isSome, absent, freelist]
    rfl
  · have away : q ≠ t := by
      rintro rfl
      exact notFree isFree
    simp [addTable, Memory.setWord, Memory.setPage, away, notD]

theorem mapped_of_written {pte : Nat} (roles : Roles m role) (dir : role d = .dir)
    (low : k < 510 * 512) (written : Written m next d (k * pgsize) pte) (flagged : present pte = true)
    (small : pte < 2 ^ 64) : Mapped m next role d k pte := by
  rw [Written, pdx_page low, ptx_page] at written
  rcases written with ⟨isPresent, -, rfl⟩ | ⟨t, rest, absent, freelist, rfl⟩
  · exact mapped_table roles dir low isPresent rfl flagged small
  · exact mapped_fresh roles dir low absent freelist flagged small

end Map

/-! The loop of allocuvm. -/

/-- The page table for the c-th page after page n is made when that page is mapped. -/
def missing (m : Memory) (d n c : Nat) : Bool :=
  (tableAt m d ((n + c) / 512)).isNone && (c == 0 || (n + c) % 512 == 0)

/-- How many free pages it takes to map c pages from page n on. -/
def needs (m : Memory) (d n : Nat) : Nat → Nat
  | 0 => 0
  | c + 1 => needs m d n c + if missing m d n c then 2 else 1

section Loop
variable {m next : Memory} {role role' : Nat → Role} {d n c p : Nat} {rest : List Nat}

theorem needs_mono {c' : Nat} (le : c ≤ c') : needs m d n c + (c' - c) ≤ needs m d n c' := by
  induction c', le using Nat.le_induction with
  | base => omega
  | succ c' le ih =>
    rw [needs]
    split <;> omega

/-- c pages from page n on were added to an address space, page k with the permissions
and the content that `added k` says. -/
structure Grown (m : Memory) (d n : Nat) (added : Nat → Nat × Page) (c : Nat) (next : Memory)
    (role : Nat → Role) : Prop where
  roles : Roles next role
  dir : role d = .dir
  fixed : Fixed m next
  old : ∀ k < 510 * 512, ¬ (n ≤ k ∧ k < n + c) → userPte next d k = userPte m d k
  new : ∀ k, n ≤ k → k < n + c → ∃ p, userPte next d k = some (entry p ((added k).1 ||| pteP)) ∧
    next.page p = (added k).2
  tables : ∀ i < 510, (tableAt next d i).isSome ↔
    (tableAt m d i).isSome ∨ ∃ k, n ≤ k ∧ k < n + c ∧ i = k / 512
  enough : needs m d n c ≤ m.freelist.length
  freelist : next.freelist = m.freelist.drop (needs m d n c)
  origins : ∀ p ∈ m.freelist, p ∈ next.freelist ∨ (∃ i < 510, role p = .table d i) ∨
    ∃ k, n ≤ k ∧ k < n + c ∧ role p = .leaf d (k / 512) (k % 512)
  made : ∀ q i, role q = .table d i → tableAt m d i = some q ∨ q ∈ m.freelist
  pages : ∀ q, q ∉ m.freelist → q ≠ d → (∀ i < 510, tableAt m d i ≠ some q) →
    next.page q = m.page q

variable {added : Nat → Nat × Page}

theorem grown_start (roles : Roles m role) (dir : role d = .dir) : Grown m d n added 0 m role where
  roles := roles
  dir := dir
  fixed := fixed_refl m
  old _ _ _ := rfl
  new k ge lt := by omega
  tables i _ := ⟨.inl, fun there => there.elim id fun ⟨k, ge, lt, _⟩ => by omega⟩
  enough := Nat.zero_le _
  freelist := rfl
  origins p inList := .inl inList
  made q i table := .inl ((tableAt_iff roles dir (pde_of_role roles table).2.1).mpr table)
  pages _ _ _ _ := rfl

theorem grown_missing (grown : Grown m d n added c next role) (low : n + c < 510 * 512) :
    (tableAt next d ((n + c) / 512)).isSome = !missing m d n c := by
  rw [Bool.eq_iff_iff, grown.tables _ (by omega)]
  simp only [missing, Bool.not_and, Bool.or_eq_true, Bool.not_eq_true', Option.isNone_eq_false_iff,
    Bool.or_eq_false_iff, beq_eq_false_iff_ne, ne_eq]
  refine or_congr_right ⟨?_, ?_⟩
  · rintro ⟨k, ge, lt, same⟩
    omega
  · rintro ⟨some, inner⟩
    exact ⟨n + c - 1, by omega, by omega, by omega⟩

theorem grown_length (grown : Grown m d n added c next role) :
    needs m d n c + next.freelist.length = m.freelist.length := by
  have enough := grown.enough
  rw [grown.freelist, List.length_drop]
  omega

theorem drop_tail {list : List Nat} {i : Nat} (cons : list.drop i = p :: rest) :
    list.drop (i + 1) = rest := by
  rw [← List.drop_drop, cons]
  rfl

theorem grown_step (grown : Grown m d n added c next role) (low : n + c < 510 * 512)
    (blank : userPte m d (n + c) = none) (freelist : next.freelist = p :: rest)
    (more : missing m d n c = true → rest ≠ []) (small : ∀ k, (added k).1 < 4096) :
    ∃ after role', mappages d ((n + c) * pgsize) pgsize p (added (n + c)).1
          (taken next p rest (added (n + c)).2) = (.done true after, []) ∧
      Grown m d n added (c + 1) after role' ∧ ∀ q, role q ≠ .free → role' q = role q := by
  have there := grown_missing grown low
  have length := grown_length grown
  obtain ⟨roles, dir, fixed, old, new, tables, enough, list, origins, made, pages⟩ := grown
  have isFree : role p = .free := (roles.free p).mp (by simp [freelist])
  have notDir : d ≠ p := dir_ne_free dir isFree
  have bound := (roles.range p (by simp [isFree])).2
  have took : Roles (taken next p rest (added (n + c)).2) (Function.update role p (.held 0)) :=
    roles_setPage (roles_take roles freelist) (Function.update_self ..)
  have dir' : Function.update role p (.held 0) d = .dir := by rw [Function.update_of_ne notDir, dir]
  have view : ∀ k < 510 * 512, userPte (taken next p rest (added (n + c)).2) d k = userPte next d k :=
    fun k inside => userPte_taken roles dir isFree inside
  have aligned : (n + c) * pgsize % pgsize = 0 := Nat.mul_mod_left ..
  have fits : ∀ k, (added k).1 ||| pteP < 4096 :=
    fun k => Nat.or_lt_two_pow (n := 12) (small k) (by decide)
  rcases map_cases took dir' (Function.update_self ..) aligned (small (n + c)) with
    ⟨high, -⟩ | ⟨-, full, -⟩ | ⟨-, absent, none, -⟩ | ⟨-, after, role', run, roles', fixed', leaf,
      others, written⟩
  · rw [pdx_page low] at high
    omega
  · rw [pdx_page low, ptx_page, ← userPte_some_iff took dir' low, view _ low,
      old _ low (by omega), blank] at full
    cases full
  · rw [pdx_page low, word_taken notDir, ← tableAt_isSome, there] at absent
    exact absurd none (more (by simpa using absent))
  · have mapped := mapped_of_written took dir' low written
      (present_entry (by simp [pteP])) (entry_lt (fits (n + c)) bound)
    rw [pdx_page low, ptx_page] at leaf
    rw [pdx_page low] at others
    have blocked : ∀ q, role q ≠ .free → role' q = role q := by
      intro q busy
      have notP : q ≠ p := by
        rintro rfl
        exact busy isFree
      rcases others q notP with same | ⟨wasFree, -⟩
      · rw [same, Function.update_of_ne notP]
      · rw [Function.update_of_ne notP] at wasFree
        exact absurd wasFree busy
    have wasListed : ∀ q, role q = .free → q ∈ m.freelist := by
      intro q wasFree
      have now := (roles.free q).mpr wasFree
      rw [list] at now
      exact List.mem_of_mem_drop now
    have kept : ∀ q, role q ≠ .free → q ≠ d → (∀ i, role q ≠ .table d i) →
        after.page q = next.page q := by
      intro q busy notD notTable
      have notP : q ≠ p := by
        rintro rfl
        exact busy isFree
      have was : Function.update role p (.held 0) q = role q := Function.update_of_ne notP ..
      rw [mapped.pages q (by rwa [was]) notD (by rwa [was])]
      simp [taken, Memory.setPage, notP]
    have drops : after.freelist = m.freelist.drop (needs m d n (c + 1)) := by
      rw [mapped.freelist, tableAt_taken notDir, there, needs]
      rw [list] at freelist
      cases gap : missing m d n c with
      | false => exact (drop_tail freelist).symm
      | true =>
        change rest.tail = m.freelist.drop (needs m d n c + 2)
        rw [← drop_tail freelist, List.tail_drop]
    refine ⟨after, role', run, ⟨roles', ?_, ⟨fixed'.kend.trans fixed.kend,
      fixed'.kpdpt.trans fixed.kpdpt, fixed'.cr3.trans fixed.cr3⟩, fun k inside outside => ?_,
      fun k ge lt => ?_, fun i inside => ?_, ?_, drops, fun q inList => ?_,
      fun q i table => ?_, fun q outside notD notTable => ?_⟩, blocked⟩
    · rw [blocked d (by simp [dir]), dir]
    · rw [mapped.others k inside (by omega), view k inside, old k inside (by omega)]
    · by_cases last : k = n + c
      · refine ⟨p, last ▸ mapped.pte, ?_⟩
        rw [mapped.pages p (by simp) notDir.symm (by simp), last]
        simp [taken, Memory.setPage]
      · obtain ⟨page, is, zero⟩ := new k ge (by omega)
        have leafIs : role page = .leaf d (k / 512) (k % 512) := by
          rw [← leafAt_iff roles dir (by omega), leafAt_eq, is, Option.map_some,
            pteAddr_entry (fits k)]
        refine ⟨page, ?_, ?_⟩
        · rw [mapped.others k (by omega) last, view k (by omega), is]
        · rw [kept page (by simp [leafIs]) (fun same => ?_) (by simp [leafIs]), zero]
          rw [same, dir] at leafIs
          cases leafIs
    · rw [mapped.tables i inside, tableAt_taken notDir, tables i inside, or_assoc]
      refine or_congr_right ⟨?_, ?_⟩
      · rintro (⟨k, ge, lt, is⟩ | is)
        · exact ⟨k, ge, by omega, is⟩
        · exact ⟨n + c, by omega, by omega, is⟩
      · rintro ⟨k, ge, lt, is⟩
        by_cases last : k = n + c
        · exact .inr (last ▸ is)
        · exact .inl ⟨k, ge, by omega, is⟩
    · rw [needs]
      rw [freelist, List.length_cons] at length
      cases gap : missing m d n c with
      | false =>
        simp only [Bool.false_eq_true, if_false]
        omega
      | true =>
        have := List.length_pos_iff.mpr (more gap)
        simp only [if_true]
        omega
    · rcases origins q inList with stillFree | ⟨i, small, table⟩ | ⟨k, ge, lt, is⟩
      · by_cases self : q = p
        · exact .inr (.inr ⟨n + c, by omega, by omega, self ▸ leaf⟩)
        · rcases others q self with same | ⟨-, table⟩
          · refine .inl ((roles'.free q).mpr ?_)
            rw [same, Function.update_of_ne self]
            exact (roles.free q).mp stillFree
          · exact .inr (.inl ⟨_, by omega, table⟩)
      · exact .inr (.inl ⟨i, small, by rw [blocked q (by simp [table]), table]⟩)
      · exact .inr (.inr ⟨k, ge, by omega, by rw [blocked q (by simp [is]), is]⟩)
    · by_cases self : q = p
      · rw [self, leaf] at table
        cases table
      · rcases others q self with same | ⟨wasFree, -⟩
        · rw [same, Function.update_of_ne self] at table
          exact made q i table
        · rw [Function.update_of_ne self] at wasFree
          exact .inr (wasListed q wasFree)
    · rw [← pages q outside notD notTable]
      refine kept q (fun wasFree => outside (wasListed q wasFree)) notD fun i table => ?_
      rcases made q i table with there | inList
      · exact notTable i (pde_of_role roles table).2.1 there
      · exact outside inList

/-- The pages that allocuvm adds. -/
def cleared : Nat × Page := (pteW ||| pteU, 0)

/-- What allocuvm does once kalloc fails. -/
def giveUp (d oldsz newsz : Nat) : VmM Nat := deallocuvm d newsz oldsz >>= fun _ => pure 0

/-- The three ways in which the loop over `total` pages from page n on ends. -/
inductive Ends (m : Memory) (d n oldsz newsz total : Nat) :
    Outcome Memory Panic Nat × List Event → Prop where
  | complete {next : Memory} {role : Nat → Role} (grown : Grown m d n (fun _ => cleared) total next role) :
      Ends m d n oldsz newsz total (.done newsz next, [])
  | empty {next : Memory} {role : Nat → Role} {c : Nat} (early : c < total)
      (grown : Grown m d n (fun _ => cleared) c next role) (freelist : next.freelist = []) :
      Ends m d n oldsz newsz total (giveUp d oldsz newsz next)
  | lost {next : Memory} {role : Nat → Role} {c p : Nat} (early : c < total)
      (gap : missing m d n c = true) (grown : Grown m d n (fun _ => cleared) c next role)
      (freelist : next.freelist = [p]) :
      Ends m d n oldsz newsz total
        (if c + 1 = total then (.done newsz (taken next p [] 0), [])
        else giveUp d oldsz newsz (taken next p [] 0))

variable {oldsz newsz count : Nat}

theorem round_nil {a : Nat} (freelist : m.freelist = []) :
    allocLoop d oldsz newsz (count + 1) a m = giveUp d oldsz newsz m := by
  rw [allocLoop, bind_done (kalloc_nil freelist)]
  rfl

theorem round_cons {a : Nat} {mapped : Bool} {after : Memory} (freelist : m.freelist = p :: rest)
    (run : mappages d a pgsize p (pteW ||| pteU) (taken m p rest 0) = (.done mapped after, [])) :
    allocLoop d oldsz newsz (count + 1) a m = allocLoop d oldsz newsz count (a + pgsize) after := by
  rw [allocLoop, bind_done (kalloc_cons freelist)]
  rw [taken] at run
  simp only [bind_run, setPage, change, run, List.nil_append]

theorem map_missing {perm : Nat} {content : Page} (grown : Grown m d n added c next role)
    (low : n + c < 510 * 512) (gap : missing m d n c = true) (freelist : next.freelist = [p]) :
    mappages d ((n + c) * pgsize) pgsize p perm (taken next p [] content) =
      (.done false (taken next p [] content), []) := by
  have isFree : role p = .free := (grown.roles.free p).mp (by simp [freelist])
  have notDir : d ≠ p := dir_ne_free grown.dir isFree
  refine map_none (Nat.mul_mod_left ..) ?_ rfl
  rw [pdx_page low, word_taken notDir, ← tableAt_isSome, grown_missing grown low, gap]
  rfl

theorem lost_roles (grown : Grown m d n added c next role) (freelist : next.freelist = [p]) :
    Roles (taken next p [] 0) (Function.update role p (.held 0)) ∧
      Function.update role p (.held 0) d = .dir := by
  have isFree : role p = .free := (grown.roles.free p).mp (by simp [freelist])
  have notDir : d ≠ p := dir_ne_free grown.dir isFree
  refine ⟨roles_setPage (roles_take grown.roles freelist) (Function.update_self ..), ?_⟩
  rw [Function.update_of_ne notDir, grown.dir]

theorem allocLoop_ends (grown : Grown m d n (fun _ => cleared) c next role)
    (low : ∀ c' < c + count, needs m d n c' < m.freelist.length → n + c' < 510 * 512)
    (blank : ∀ k < 510 * 512, n ≤ k → userPte m d k = none) :
    Ends m d n oldsz newsz (c + count)
      (allocLoop d oldsz newsz count ((n + c) * pgsize) next) := by
  induction count generalizing c next role with
  | zero => exact .complete grown
  | succ count ih =>
    have length := grown_length grown
    have step : (n + (c + 1)) * pgsize = (n + c) * pgsize + pgsize := Nat.succ_mul ..
    cases freelist : next.freelist with
    | nil =>
      rw [round_nil freelist]
      exact .empty (by omega) grown freelist
    | cons p rest =>
      rw [freelist, List.length_cons] at length
      have inside := low c (by omega) (by omega)
      by_cases short : missing m d n c = true ∧ rest = []
      · obtain ⟨gap, rfl⟩ := short
        rw [round_cons freelist (map_missing grown inside gap freelist)]
        have last : allocLoop d oldsz newsz count ((n + c) * pgsize + pgsize) (taken next p [] 0) =
            if c + 1 = c + (count + 1) then (.done newsz (taken next p [] 0), [])
            else giveUp d oldsz newsz (taken next p [] 0) := by
          cases count with
          | zero =>
            rw [if_pos rfl]
            rfl
          | succ count => rw [round_nil rfl, if_neg (by omega)]
        rw [last]
        exact .lost (by omega) gap grown freelist
      · obtain ⟨after, role', run, grown', -⟩ := grown_step grown inside
          (blank _ inside (by omega)) freelist (fun gap none => short ⟨gap, none⟩) (fun _ => by decide)
        rw [round_cons freelist run, ← step, show c + (count + 1) = c + 1 + count by omega]
        exact ih grown' fun c' within => low c' (by omega)

end Loop

/-! Giving up. -/

section GiveUp
variable {m next : Memory} {role : Nat → Role} {d a n c oldsz newsz fuel : Nat}

theorem shrunk_below (none : ∀ q i j, role q = .leaf d i j → (512 * i + j) * pgsize < a) :
    shrunk role d a oldsz = role := by
  funext q
  unfold shrunk
  split
  next e i j is =>
    rw [if_neg, is]
    rintro ⟨rfl, ge, -⟩
    have early := none q i j is
    omega
  next => rfl

theorem deallocLoop_blank (roles : Roles m role) (dir : role d = .dir)
    (none : ∀ q i j, role q = .leaf d i j → (512 * i + j) * pgsize < a) (aligned : a % pgsize = 0)
    (bound : oldsz ≤ 0x3fc00000) :
    deallocLoop d oldsz fuel a m = (.done () m, []) := by
  induction fuel generalizing a with
  | zero => rfl
  | succ fuel ih =>
    by_cases finished : oldsz ≤ a
    · exact dealloc_done finished
    · simp only [pgsize] at aligned
      have address : a = (512 * pdx a + ptx a) * pgsize := by
        simp only [pdx, ptx, pgsize]
        omega
      rcases dealloc_cases fuel roles dir (by omega : a < oldsz) with ⟨high, -⟩ | ⟨-, -, run⟩ |
        ⟨-, -, -, run⟩ | ⟨-, -, p, -, leaf, -⟩
      · simp only [pdx] at high
        omega
      · rw [run]
        exact ih (fun q i j leaf => (none q i j leaf).trans_le (by omega))
          (by simp only [pgsize]; omega)
      · rw [run]
        exact ih (fun q i j leaf => (none q i j leaf).trans_le (by omega))
          (by simp only [pgsize]; omega)
      · have early := none p _ _ leaf
        rw [← address] at early
        omega

theorem giveUp_run {added : Nat → Nat × Page} (grown : Grown m d n added c next role) (size : pages oldsz = n)
    (blank : ∀ k < 510 * 512, n ≤ k → userPte m d k = none) (bound : newsz ≤ 0x3fc00000)
    (le : oldsz ≤ newsz) :
    ∃ last, giveUp d oldsz newsz next = (.done 0 last, []) ∧
      Roles last (shrunk role d (n * pgsize) newsz) ∧ Kept next last role d (n * pgsize) := by
  have start : pgroundup oldsz = n * pgsize := by
    rw [pgroundup_eq (by omega), ← size]
    rfl
  rw [giveUp, deallocuvm]
  by_cases same : newsz ≤ oldsz
  · refine ⟨next, ?_, ?_, kept_refl⟩
    · rw [if_pos same]
      rfl
    · rw [shrunk_past]
      · exact grown.roles
      · simp only [pages, pgsize] at size ⊢
        omega
  · rw [if_neg same, start, bind_assoc_action]
    by_cases tidy : n * pgsize % 2 ^ 21 = 0 ∨ present (word next d (pdx (n * pgsize))) = true
    · obtain ⟨last, run, roles, -, kept⟩ := deallocLoop_run grown.roles grown.dir
        (Nat.mul_mod_left n pgsize) bound
        (by simp only [pgsize]; omega :
          newsz ≤ n * pgsize + (newsz - n * pgsize + (pgsize - 1)) / pgsize * pgsize) tidy
      refine ⟨last, ?_, roles, kept⟩
      rw [bind_done run]
      rfl
    · -- The page table of the first page is absent, so no page was added.
      have within : n ≤ 510 * 512 := by
        simp only [pages] at size
        omega
      have none : ∀ q i j, role q = .leaf d i j → (512 * i + j) * pgsize < n * pgsize := by
        intro q i j leaf
        obtain ⟨t, table, small, -, -⟩ := pte_of_role grown.roles leaf
        obtain ⟨-, index, -, -⟩ := pde_of_role grown.roles table
        have low : 512 * i + j < 510 * 512 := by omega
        have there : (userPte next d (512 * i + j)).isSome := by
          refine (userPte_some_iff grown.roles grown.dir low).mpr ⟨q, ?_⟩
          rw [leaf, show (512 * i + j) / 512 = i by omega, show (512 * i + j) % 512 = j by omega]
        have early : 512 * i + j < n := by
          by_contra late
          by_cases added : 512 * i + j < n + c
          · refine tidy (.inr ?_)
            rw [pdx_page (by omega), ← tableAt_isSome]
            exact (grown.tables _ (by omega)).mpr (.inr ⟨n, le_rfl, by omega, rfl⟩)
          · rw [grown.old _ low (by omega), blank _ low (by omega)] at there
            cases there
        simp only [pgsize]
        omega
      refine ⟨next, ?_, ?_, kept_refl⟩
      · rw [bind_done (deallocLoop_blank grown.roles grown.dir none (Nat.mul_mod_left n pgsize)
          bound)]
        rfl
      · rw [shrunk_below none]
        exact grown.roles

end GiveUp

/-! allocuvm. -/

section Allocuvm
variable {m next : Memory} {role : Nat → Role} {d n c oldsz newsz : Nat}

theorem allocuvm_loop (le : oldsz ≤ newsz) (small : newsz < 2 ^ 32) :
    allocuvm d oldsz newsz = allocLoop d oldsz newsz (pages newsz - pages oldsz)
      (pages oldsz * pgsize) := by
  have start : pgroundup oldsz = pages oldsz * pgsize := by
    rw [pgroundup_eq (by omega)]
    rfl
  have count : (newsz - pages oldsz * pgsize + (pgsize - 1)) / pgsize =
      pages newsz - pages oldsz := by
    simp only [pages, pgsize]
    omega
  rw [allocuvm, if_neg (by simp only [kernbase]; omega), if_neg (by omega), start]
  simp only [count]

theorem allocuvm_ends (roles : Roles m role) (dir : role d = .dir)
    (blank : ∀ k < 510 * 512, pages oldsz ≤ k → userPte m d k = none)
    (le : oldsz ≤ newsz) (small : newsz < 2 ^ 32)
    (low : ∀ c < pages newsz - pages oldsz, needs m d (pages oldsz) c < m.freelist.length →
      pages oldsz + c < 510 * 512) :
    Ends m d (pages oldsz) oldsz newsz (pages newsz - pages oldsz) (allocuvm d oldsz newsz m) := by
  rw [allocuvm_loop le small]
  have ends : Ends m d (pages oldsz) oldsz newsz (0 + (pages newsz - pages oldsz))
      (allocLoop d oldsz newsz (pages newsz - pages oldsz) ((pages oldsz + 0) * pgsize) m) :=
    allocLoop_ends (grown_start roles dir) (by simpa using low) blank
  simpa using ends

/-- What is asked of allocuvm: after newsz all pages below it are present and the added
ones are zero; after 0 every PTE is as before, and a page that is no longer free serves
as a page table. -/
def Consistent (m : Memory) (d oldsz newsz : Nat) : Prop :=
  ∃ result next, allocuvm d oldsz newsz m = (.done result next, []) ∧
    (result = newsz ∨ result = 0) ∧
    (result = newsz → ∀ k < pages newsz, ∃ pte, userPte next d k = some pte ∧
      (pages oldsz ≤ k → next.page (pteAddr pte) = 0)) ∧
    (result = 0 → (∀ k < 510 * 512, userPte next d k = userPte m d k) ∧
      ∀ p ∈ m.freelist, p ∈ next.freelist ∨ ∃ i < 510, tableAt next d i = some p)

/-- The free list never shrinks to a single page when the page table for the next page
is missing. -/
def NoneLost (m : Memory) (d oldsz newsz : Nat) : Prop :=
  ∀ c < pages newsz - pages oldsz, missing m d (pages oldsz) c = true →
    m.freelist.length ≠ needs m d (pages oldsz) c + 1

theorem consistent_complete (mapped : ∀ k < pages oldsz, (userPte m d k).isSome)
    (grown : Grown m d (pages oldsz) (fun _ => cleared) (pages newsz - pages oldsz)
      next role)
    (le : oldsz ≤ newsz) (bound : newsz ≤ userTop)
    (run : allocuvm d oldsz newsz m = (.done newsz next, [])) : Consistent m d oldsz newsz := by
  have ordered : pages oldsz ≤ pages newsz := by
    simp only [pages]
    omega
  simp only [userTop] at bound
  refine ⟨newsz, next, run, .inl rfl, fun _ k inside => ?_, fun zero => ?_⟩
  · by_cases old : k < pages oldsz
    · obtain ⟨pte, is⟩ := Option.isSome_iff_exists.mp (mapped k old)
      refine ⟨pte, ?_, fun new => by omega⟩
      rw [grown.old k (by simp only [pages] at inside; omega) (by omega), is]
    · obtain ⟨p, is, blank⟩ := grown.new k (by omega) (by omega)
      exact ⟨_, is, fun _ => by rw [pteAddr_entry (by decide), blank]; rfl⟩
  · have count : pages newsz - pages oldsz = 0 := by
      simp only [pages]
      omega
    have list := grown.freelist
    rw [count] at list
    refine ⟨fun k low => grown.old k low (by omega), fun p inList => .inl ?_⟩
    rw [list]
    exact inList

theorem consistent_empty (blank : ∀ k < 510 * 512, pages oldsz ≤ k → userPte m d k = none)
    (grown : Grown m d (pages oldsz) (fun _ => cleared) c next role) (early : c < pages newsz - pages oldsz)
    (le : oldsz ≤ newsz) (bound : newsz ≤ userTop)
    (run : allocuvm d oldsz newsz m = giveUp d oldsz newsz next) : Consistent m d oldsz newsz := by
  simp only [userTop] at bound
  obtain ⟨last, back, roles, kept⟩ := giveUp_run grown rfl blank (by omega) le
  have dir : shrunk role d (pages oldsz * pgsize) newsz d = .dir := by rw [shrunk, grown.dir]
  -- The added pages lie between the two sizes.
  have gone : ∀ q k, pages oldsz ≤ k → k < pages oldsz + c →
      role q = .leaf d (k / 512) (k % 512) →
      shrunk role d (pages oldsz * pgsize) newsz q = .free := by
    intro q k ge lt leaf
    have from_ : pages oldsz * pgsize ≤ (512 * (k / 512) + k % 512) * pgsize := by
      simp only [pgsize]
      omega
    have below : (512 * (k / 512) + k % 512) * pgsize < newsz := by
      simp only [pages, pgsize] at ge lt early ⊢
      omega
    rw [shrunk, leaf]
    exact if_pos ⟨rfl, from_, below⟩
  refine ⟨0, last, run.trans back, .inr rfl, fun zero k inside => ?_, fun _ => ⟨?_, ?_⟩⟩
  · simp only [pages] at early
    omega
  · intro k low
    by_cases old : k < pages oldsz
    · rw [← grown.old k low (by omega)]
      refine userPte_congr grown.roles grown.dir low (kept.dir _) fun t table => ?_
      refine kept.entries t _ _ table ?_
      simp only [pgsize]
      omega
    · rw [blank k low (by omega)]
      by_contra there
      obtain ⟨q, leaf⟩ := (userPte_some_iff roles dir low).mp (Option.isSome_iff_ne_none.mpr there)
      have before : role q = .leaf d (k / 512) (k % 512) := by
        unfold shrunk at leaf
        split at leaf
        next e i j is =>
          split_ifs at leaf
          rw [is, leaf]
        next => exact leaf
      by_cases added : k < pages oldsz + c
      · rw [gone q k (by omega) added before] at leaf
        cases leaf
      · have found := (userPte_some_iff grown.roles grown.dir low).mpr ⟨q, before⟩
        rw [grown.old k low (by omega), blank k low (by omega)] at found
        cases found
  · intro p inList
    rcases grown.origins p inList with free | ⟨i, small, table⟩ | ⟨k, ge, lt, leaf⟩
    · have isFree := (grown.roles.free p).mp free
      exact .inl ((roles.free p).mpr (by rw [shrunk, isFree]))
    · exact .inr ⟨i, small, (tableAt_iff roles dir small).mpr (by rw [shrunk, table])⟩
    · exact .inl ((roles.free p).mpr (gone p k ge lt leaf))

theorem inconsistent_lost {p : Nat} (blank : ∀ k < 510 * 512, pages oldsz ≤ k → userPte m d k = none)
    (grown : Grown m d (pages oldsz) (fun _ => cleared) c next role) (low : pages oldsz + c < 510 * 512)
    (freelist : next.freelist = [p])
    (run : allocuvm d oldsz newsz m = if c + 1 = pages newsz - pages oldsz then
      (.done newsz (taken next p [] 0), []) else giveUp d oldsz newsz (taken next p [] 0)) :
    ¬ Consistent m d oldsz newsz := by
  have isFree : role p = .free := (grown.roles.free p).mp (by simp [freelist])
  rintro ⟨result, final, ran, -, full, back⟩
  rw [run] at ran
  split_ifs at ran with last
  · injection ran with ran
    injection ran with isNew isFinal
    obtain ⟨pte, is, -⟩ := full isNew.symm (pages oldsz + c) (by omega)
    rw [← isFinal, userPte_taken grown.roles grown.dir isFree low, grown.old _ low (by omega),
      blank _ low (by omega)] at is
    cases is
  · obtain ⟨took, dir⟩ := lost_roles grown freelist
    have ensured : Ensures anything (giveUp d oldsz newsz) (taken next p [] 0) fun value after =>
        value = 0 ∧ Changed (taken next p [] 0) (Function.update role p (.held 0)) d after :=
      ensures_then (deallocuvm_spares took dir) fun _ _ spares =>
        ensures_pure ⟨rfl, changed_of_spares spares⟩
    obtain ⟨isZero, role', roles', change, -⟩ := reached ensured (by rw [ran])
    have held : role' p = .held 0 := by
      rcases change p with same | ⟨mine, -⟩
      · rw [same, Function.update_self]
      · rw [Function.update_self] at mine
        cases mine
    have inList : p ∈ m.freelist := by
      have there : p ∈ m.freelist.drop (needs m d (pages oldsz) c) := by
        rw [← grown.freelist, freelist]
        exact List.mem_singleton_self p
      exact List.mem_of_mem_drop there
    rcases (back isZero).2 p inList with free | ⟨i, small, table⟩
    · rw [roles'.free, held] at free
      cases free
    · rw [tableAt_iff roles' (local_dir change dir) small, held] at table
      cases table

/-- allocuvm keeps the address space consistent if and only if it never takes the last
free page for a user page whose page table is missing: mappages then fails, which
allocuvm does not notice. -/
theorem allocuvm_consistent_iff (roles : Roles m role) (dir : role d = .dir)
    (exactly : ∀ k < 510 * 512, (userPte m d k).isSome ↔ k < pages oldsz)
    (le : oldsz ≤ newsz) (bound : newsz ≤ userTop) :
    Consistent m d oldsz newsz ↔ NoneLost m d oldsz newsz := by
  have top : pages newsz ≤ 509 * 512 := by
    simp only [userTop, pages] at bound ⊢
    omega
  have ordered : pages oldsz ≤ pages newsz := by
    simp only [pages]
    omega
  have blank : ∀ k < 510 * 512, pages oldsz ≤ k → userPte m d k = none := by
    intro k low late
    rw [← Option.not_isSome_iff_eq_none, exactly k low]
    omega
  have ends := allocuvm_ends roles dir blank le (by simp only [userTop] at bound; omega)
    fun c _ _ => by omega
  generalize outcome : allocuvm d oldsz newsz m = run at ends
  cases ends with
  | complete grown =>
    refine iff_of_true (consistent_complete (fun k old => (exactly k (by omega)).mpr old) grown le
      bound outcome) fun c early gap isOne => ?_
    have enough := grown.enough
    have later := needs_mono (m := m) (d := d) (n := pages oldsz) (Nat.succ_le_of_lt early)
    rw [needs, gap] at later
    simp only [if_true] at later
    omega
  | @empty next role' c early grown freelist =>
    refine iff_of_true (consistent_empty blank grown early le bound outcome) ?_
    intro c' early' gap isOne
    have length := grown_length grown
    rw [freelist] at length
    simp only [List.length_nil, Nat.add_zero] at length
    rcases Nat.lt_or_ge c' c with before | after
    · have later := needs_mono (m := m) (d := d) (n := pages oldsz) (Nat.succ_le_of_lt before)
      rw [needs, gap] at later
      simp only [if_true] at later
      omega
    · have later := needs_mono (m := m) (d := d) (n := pages oldsz) after
      omega
  | @lost next role' c p early gap grown freelist =>
    have length := grown_length grown
    rw [freelist, List.length_singleton] at length
    exact iff_of_false (inconsistent_lost blank grown (by omega) freelist outcome)
      fun noneLost => noneLost c early gap length.symm

end Allocuvm

/-- Seven pages are free after setupkvm. -/
theorem allocuvm_consistent_fresh : ∃ final role,
    Transition.exec step tenPages [.setupkvm] = some final ∧ Roles final.mem role ∧
      role 102 = .dir ∧ (∀ k < 510 * 512, (userPte final.mem 102 k).isSome ↔ k < pages 0) ∧
      (Consistent final.mem 102 0 8192 ↔ NoneLost final.mem 102 0 8192) := by
  obtain ⟨final, run, live, absent⟩ : ∃ final,
      Transition.exec step tenPages [.setupkvm] = some final ∧ 102 ∈ final.live ∧
        (List.range 510).all (fun i => !present (word final.mem 102 i)) = true :=
    Transition.exec_reaches (by decide +kernel)
  simp only [List.all_eq_true, List.mem_range, Bool.not_eq_true'] at absent
  have start : Start tenPages := ⟨by decide, by decide, by decide, rfl, fun _ => rfl⟩
  obtain ⟨role, inv⟩ := run_inv start run
  have dir := (inv.live 102).mp live
  have exactly : ∀ k < 510 * 512, (userPte final.mem 102 k).isSome ↔ k < pages 0 := by
    intro k low
    rw [userPte_eq, absent _ (by omega)]
    simp [pages]
  exact ⟨final, role, run, inv.roles, dir, exactly,
    allocuvm_consistent_iff inv.roles dir exactly (by decide) (by decide)⟩

def fourPages : Spaces := ⟨⟨50, 49, 0, [100, 101, 102, 103], fun _ => 0⟩, [], fun _ => none⟩

/-- With a single page free allocuvm returns newsz and maps nothing. -/
theorem allocuvm_loses_page : ∃ final role,
    Transition.exec step fourPages [.setupkvm] = some final ∧ Roles final.mem role ∧
      role 102 = .dir ∧ (∀ k < 510 * 512, (userPte final.mem 102 k).isSome ↔ k < pages 0) ∧
      ¬ Consistent final.mem 102 0 4096 := by
  obtain ⟨final, run, live, absent, freelist, returned⟩ : ∃ final,
      Transition.exec step fourPages [.setupkvm] = some final ∧ 102 ∈ final.live ∧
        (List.range 510).all (fun i => !present (word final.mem 102 i)) = true ∧
        final.mem.freelist = [103] ∧
        (allocuvm 102 0 4096 final.mem).1.passes (fun next => next.freelist == [] &&
          (List.range 510).all fun i => !present (word next 102 i)) = true :=
    Transition.exec_reaches (by decide +kernel)
  simp only [List.all_eq_true, List.mem_range, Bool.not_eq_true'] at absent
  have start : Start fourPages := ⟨by decide, by decide, by decide, rfl, fun _ => rfl⟩
  obtain ⟨role, inv⟩ := run_inv start run
  refine ⟨final, role, run, inv.roles, (inv.live 102).mp live, fun k low => ?_, ?_⟩
  · rw [userPte_eq, absent _ (by omega)]
    simp [pages]
  · rintro ⟨result, next, ran, value, full, back⟩
    rw [ran] at returned
    simp only [Outcome.passes, Bool.and_eq_true, beq_iff_eq, List.all_eq_true, List.mem_range,
      Bool.not_eq_true'] at returned
    obtain ⟨none, blank⟩ := returned
    rcases value with isNew | isZero
    · obtain ⟨pte, is, -⟩ := full isNew 0 (by decide)
      rw [userPte_eq, blank 0 (by decide)] at is
      simp at is
    · rcases (back isZero).2 103 (by rw [freelist]; decide) with free | ⟨i, small, table⟩
      · rw [none] at free
        cases free
      · simp [tableAt, blank i small] at table

end Xv6.Allocation
