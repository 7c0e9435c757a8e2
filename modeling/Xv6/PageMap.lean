import Xv6.PageTables

/-! mappages as the update of a map: from the page numbers below 0x3fc00000 to their entries.
Here with the 64-bit addresses of the source, also for a size that is 0 or wraps. -/
namespace Xv6.PageMap
open TraceMonad BitField Vm VmSpec PageTables

/-- One page: walkpgdir, the test for a remap and the store. -/
def mapOne (pgdir perm a pa : Nat) : VmM Bool := do
  match ← walkpgdir pgdir a true with
  | none => pure false
  | some (pgtab, i) => do
    let pte ← load .mappages pgtab i
    if present pte then halt .remap else
    store .mappages pgtab i (pa ||| (perm ||| pteP))
    pure true

/-- The loop of mappages, `more` pages after the first. -/
def mapLoop (pgdir perm : Nat) : (more a pa : Nat) → VmM Bool
  | 0, a, pa => mapOne pgdir perm a pa
  | more + 1, a, pa => do
    let mapped ← mapOne pgdir perm a pa
    if mapped then mapLoop pgdir perm more ((a + pgsize) % 2 ^ 64) ((pa + pgsize) % 2 ^ 64)
    else pure false

/-- The loop runs until a == last, so over the pages from a to last modulo 2 ^ 64. -/
def mappages (pgdir va size pa perm : Nat) : VmM Bool :=
  let a := pgrounddown va
  let last := pgrounddown ((va + size + 2 ^ 64 - 1) % 2 ^ 64)
  mapLoop pgdir perm ((last + 2 ^ 64 - a) % 2 ^ 64 / pgsize) a pa

theorem mapFrom_eq {d perm more a page : Nat} (addresses : a + more * pgsize < 2 ^ 64)
    (frames : (page + more) * pgsize < 2 ^ 64) :
    mapFrom d perm more a page = mapLoop d perm more a (page * pgsize) := by
  induction more generalizing a page with
  | zero =>
    rw [mapFrom]
    rfl
  | succ more ih =>
    have first : (a + pgsize) % 2 ^ 64 = a + pgsize := by
      simp only [pgsize] at addresses ⊢
      omega
    have second : (page * pgsize + pgsize) % 2 ^ 64 = (page + 1) * pgsize := by
      simp only [pgsize] at frames ⊢
      omega
    have rest : mapFrom d perm more (a + pgsize) (page + 1) =
        mapLoop d perm more (a + pgsize) ((page + 1) * pgsize) := by
      refine ih ?_ ?_
      · simp only [pgsize] at addresses ⊢
        omega
      · rw [Nat.add_right_comm, Nat.add_assoc]
        exact frames
    rw [mapFrom, mapLoop, mapOne, first, second, bind_assoc_action]
    refine congrArg _ ?_
    funext found
    cases found with
    | none => rfl
    | some at_ =>
      rw [bind_assoc_action]
      refine congrArg (load .mappages at_.1 at_.2 >>= ·) ?_
      funext pte
      split
      · rfl
      · rw [bind_assoc_action]
        refine congrArg (store .mappages at_.1 at_.2 _ >>= ·) ?_
        funext stored
        exact rest

theorem mappages_eq {d va size page perm : Nat} (positive : 0 < size) (top : va + size ≤ 2 ^ 64)
    (frames : (page + 1) * pgsize + size ≤ 2 ^ 64) :
    Vm.mappages d va size page perm = mappages d va size (page * pgsize) perm := by
  have more : (pgrounddown ((va + size + 2 ^ 64 - 1) % 2 ^ 64) + 2 ^ 64 - pgrounddown va) % 2 ^ 64 /
      pgsize = (pgrounddown (va + size - 1) - pgrounddown va) / pgsize := by
    simp only [pgrounddown, pgsize]
    omega
  rw [Vm.mappages, mappages, more]
  refine mapFrom_eq ?_ ?_
  · simp only [pgrounddown, pgsize]
    omega
  · simp only [pgrounddown, pgsize] at frames ⊢
    omega

/-- The number of pages below 0x3fc00000. -/
def userPages : Nat := 510 * 512

/-- A directory whose page tables are pages of their own. -/
structure Directory (m : Memory) (d : Nat) : Prop where
  apart : ∀ i < 510, ∀ j < 510, i ≠ j → present (word m d i) = true →
    present (word m d j) = true → pteAddr (word m d i) ≠ pteAddr (word m d j)
  table : ∀ i < 510, present (word m d i) = true →
    pteAddr (word m d i) ≠ d ∧ pteAddr (word m d i) ∉ m.freelist
  used : d ∉ m.freelist
  nodup : m.freelist.Nodup
  range : ∀ p ∈ m.freelist, p < physPages

/-- An entry stays as it is, where the entries of a missing table count as absent. -/
def Stays (old new : Option Nat) : Prop := new = old ∨ old = none ∧ new = some 0

/-- What mapping one page does. -/
structure Mapped (m next : Memory) (d k value : Nat) : Prop where
  here : pteAt next d k = some value
  others : ∀ l < userPages, l ≠ k → Stays (pteAt m d l) (pteAt next d l)
  directory : Directory next d
  high : word next d 510 = word m d 510

section One
variable {m next : Memory} {d k l i t value perm pa : Nat} {rest : List Nat}

theorem pdx_page (low : k < userPages) : pdx (k * pgsize) = k / 512 := by
  simp only [pdx, pgsize, userPages] at low ⊢
  omega

theorem ptx_page : ptx (k * pgsize) = k % 512 := by
  simp only [ptx, pgsize]
  omega

theorem index_low (low : k < userPages) : k / 512 < 510 := by
  rw [userPages] at low
  omega

theorem pteAt_present (isPresent : present (word m d (k / 512)) = true) :
    pteAt m d k = some (word m (pteAddr (word m d (k / 512))) (k % 512)) := by
  rw [pteAt, tableAt, if_pos isPresent]
  rfl

theorem pteAt_absent (absent : present (word m d (k / 512)) = false) : pteAt m d k = none := by
  rw [pteAt, tableAt, absent]
  rfl

theorem mapped_store (directory : Directory m d) (low : k < userPages)
    (isPresent : present (word m d (k / 512)) = true) (small : value < 2 ^ 64) :
    Mapped m (m.setWord (pteAddr (word m d (k / 512))) (k % 512) value) d k value := by
  have index : k % 512 < 512 := Nat.mod_lt _ (by decide)
  obtain ⟨notDir, -⟩ := directory.table _ (index_low low) isPresent
  have top (j : Nat) : word (m.setWord (pteAddr (word m d (k / 512))) (k % 512) value) d j =
      word m d j := by
    rw [word_setWord index small, if_neg fun is => notDir is.1.symm]
  refine ⟨?_, fun l low' other => .inl ?_, ?_, top 510⟩
  · rw [pteAt_present (by rw [top]; exact isPresent), top, word_setWord index small,
      if_pos ⟨rfl, rfl⟩]
  · by_cases isPresent' : present (word m d (l / 512)) = true
    · rw [pteAt_present isPresent', pteAt_present (by rw [top]; exact isPresent'), top,
        word_setWord index small, if_neg]
      rintro ⟨same, same'⟩
      by_cases equal : l / 512 = k / 512
      · omega
      · exact directory.apart _ (index_low low') _ (index_low low) equal isPresent' isPresent same
    · rw [Bool.not_eq_true] at isPresent'
      rw [pteAt_absent isPresent', pteAt_absent (by rw [top]; exact isPresent')]
  · refine ⟨?_, ?_, directory.used, directory.nodup, directory.range⟩
    · simp only [top]
      exact directory.apart
    · simp only [top]
      exact directory.table

theorem word_addTable (m : Memory) (d i : Nat) (rest : List Nat) (low : i < 512)
    (inside : t < physPages) (q j : Nat) :
    word (addTable m d i t rest) q j =
      if q = d ∧ j = i then entry t (pteP ||| pteW ||| pteU) else if q = t then 0 else word m q j := by
  rw [addTable, word_setWord low (entry_lt (by decide) inside)]
  split
  · rfl
  · split
    · next is => rw [is, word_setPage_zero]
    · next other => exact word_setPage_other other

theorem directory_addTable (directory : Directory m d) (low : i < 510)
    (freelist : m.freelist = t :: rest) :
    Directory (addTable m d i t rest) d ∧
      present (word (addTable m d i t rest) d i) = true ∧
      pteAddr (word (addTable m d i t rest) d i) = t := by
  have free : t ∈ m.freelist := by
    rw [freelist]
    exact List.mem_cons_self
  have apart : t ≠ d := fun is => directory.used (is ▸ free)
  have inside := directory.range t free
  have nodup := directory.nodup
  rw [freelist, List.nodup_cons] at nodup
  have words := word_addTable m d i rest (Nat.lt_trans low (by decide)) inside
  have new : word (addTable m d i t rest) d i = entry t (pteP ||| pteW ||| pteU) := by
    rw [words, if_pos ⟨rfl, rfl⟩]
  have old {j : Nat} (other : j ≠ i) : word (addTable m d i t rest) d j = word m d j := by
    rw [words, if_neg fun is => other is.2, if_neg (Ne.symm apart)]
  have table : pteAddr (word (addTable m d i t rest) d i) = t := by
    rw [new, pteAddr_entry (by decide)]
  have isFree : (addTable m d i t rest).freelist = rest := rfl
  have different {j : Nat} (low' : j < 510) (isPresent : present (word m d j) = true) :
      pteAddr (word m d j) ≠ t := fun is => (directory.table j low' isPresent).2 (is ▸ free)
  refine ⟨⟨fun a lowA b lowB ne isA isB => ?_, fun a lowA isA => ?_, ?_, ?_, ?_⟩, ?_, table⟩
  · by_cases first : a = i
    · rw [first] at ne
      rw [old (Ne.symm ne)] at isB ⊢
      rw [first, table]
      exact (different lowB isB).symm
    · rw [old first] at isA ⊢
      by_cases second : b = i
      · rw [second, table]
        exact different lowA isA
      · rw [old second] at isB ⊢
        exact directory.apart a lowA b lowB ne isA isB
  · rw [isFree]
    by_cases first : a = i
    · rw [first, table]
      exact ⟨apart, nodup.1⟩
    · rw [old first] at isA ⊢
      refine ⟨(directory.table a lowA isA).1, fun member => (directory.table a lowA isA).2 ?_⟩
      rw [freelist]
      exact List.mem_cons_of_mem t member
  · rw [isFree]
    intro member
    refine directory.used ?_
    rw [freelist]
    exact List.mem_cons_of_mem t member
  · exact nodup.2
  · intro p member
    refine directory.range p ?_
    rw [freelist]
    exact List.mem_cons_of_mem t member
  · rw [new]
    exact present_entry (by decide)

theorem stays_trans {a b c : Option Nat} (first : Stays a b) (second : Stays b c) : Stays a c := by
  rcases first with rfl | ⟨rfl, rfl⟩
  · exact second
  · rcases second with rfl | ⟨absent, -⟩
    · exact .inr ⟨rfl, rfl⟩
    · cases absent

theorem stays_addTable (directory : Directory m d) (low : i < 510)
    (absent : present (word m d i) = false) (freelist : m.freelist = t :: rest)
    (low' : l < userPages) : Stays (pteAt m d l) (pteAt (addTable m d i t rest) d l) := by
  have free : t ∈ m.freelist := by
    rw [freelist]
    exact List.mem_cons_self
  have apart : t ≠ d := fun is => directory.used (is ▸ free)
  have words := word_addTable m d i rest (Nat.lt_trans low (by decide))
    (directory.range t free)
  by_cases same : l / 512 = i
  · obtain ⟨-, isPresent, table⟩ := directory_addTable directory low freelist
    subst same
    refine .inr ⟨pteAt_absent absent, ?_⟩
    rw [pteAt_present isPresent, table, words, if_neg fun is => apart is.1, if_pos rfl]
  · have old : word (addTable m d i t rest) d (l / 512) = word m d (l / 512) := by
      rw [words, if_neg fun is => same is.2, if_neg (Ne.symm apart)]
    refine .inl ?_
    by_cases isPresent : present (word m d (l / 512)) = true
    · obtain ⟨notDir, notFree⟩ := directory.table _ (index_low low') isPresent
      rw [pteAt_present isPresent, pteAt_present (by rw [old]; exact isPresent), old, words,
        if_neg fun is => notDir is.1, if_neg fun is => notFree (by rw [is]; exact free)]
    · rw [Bool.not_eq_true] at isPresent
      rw [pteAt_absent isPresent, pteAt_absent (by rw [old]; exact isPresent)]

theorem mapped_fresh (directory : Directory m d) (low : k < userPages)
    (absent : present (word m d (k / 512)) = false) (freelist : m.freelist = t :: rest)
    (small : value < 2 ^ 64) :
    Mapped m ((addTable m d (k / 512) t rest).setWord t (k % 512) value) d k value := by
  obtain ⟨directory', isPresent, table⟩ := directory_addTable directory (index_low low) freelist
  have stored := mapped_store directory' low isPresent small
  rw [table] at stored
  refine ⟨stored.here, fun l low' other => ?_, stored.directory, ?_⟩
  · exact stays_trans (stays_addTable directory (index_low low) absent freelist low')
      (stored.others l low' other)
  · have free : t ∈ m.freelist := by
      rw [freelist]
      exact List.mem_cons_self
    have apart : d ≠ t := fun is => directory.used (is ▸ free)
    have below := index_low low
    rw [stored.high, word_addTable m d _ rest (by omega) (directory.range t free),
      if_neg fun is => by omega, if_neg apart]

theorem mapOne_done {events : List Event} (directory : Directory m d) (low : k < userPages)
    (small : pa ||| (perm ||| pteP) < 2 ^ 64)
    (run : mapOne d perm (k * pgsize) pa m = (.done true next, events)) :
    Mapped m next d k (pa ||| (perm ||| pteP)) := by
  rw [mapOne] at run
  by_cases isPresent : present (word m d (pdx (k * pgsize))) = true
  · rw [bind_quiet (walk_present isPresent)] at run
    rw [pdx_page low] at isPresent run
    rw [ptx_page] at run
    dsimp only at run
    by_cases inside : pteAddr (word m d (k / 512)) < linearPages
    · rw [bind_quiet (load_run inside)] at run
      split at run
      · cases run
      · rw [bind_quiet (store_run inside)] at run
        cases run
        exact mapped_store directory low isPresent small
    · rw [bind_halt (load_trap (Nat.le_of_not_lt inside))] at run
      cases run
  · rw [Bool.not_eq_true] at isPresent
    cases freelist : m.freelist with
    | nil =>
      rw [bind_quiet (walk_none isPresent freelist)] at run
      cases run
    | cons t rest =>
      have inside : t < linearPages := by
        have := directory.range t (by rw [freelist]; exact List.mem_cons_self)
        simp only [physPages, linearPages] at this ⊢
        omega
      rw [bind_quiet (walk_fresh isPresent freelist)] at run
      rw [pdx_page low] at isPresent run
      rw [ptx_page] at run
      dsimp only at run
      rw [bind_quiet (load_run inside)] at run
      split at run
      · cases run
      · rw [bind_quiet (store_run inside)] at run
        cases run
        exact mapped_fresh directory low isPresent freelist small

end One

/-- The entry for the addresses from 0x3fc00000 on leads out of the linear map, as setupkvm
leaves it. -/
def Backed (m : Memory) (d : Nat) : Prop :=
  present (word m d 510) = true ∧ linearPages ≤ pteAddr (word m d 510)

section Loop
variable {m next : Memory} {d k more perm pa : Nat} {events : List Event}

theorem mapOne_backed (backed : Backed m d) :
    ¬ ∃ mapped, mapOne d perm (userPages * pgsize) pa m = (.done mapped next, events) := by
  rintro ⟨mapped, run⟩
  have index : pdx (userPages * pgsize) = 510 := by decide
  rw [mapOne, bind_quiet (walk_present (by rw [index]; exact backed.1)), index] at run
  dsimp only at run
  rw [bind_halt (load_trap backed.2)] at run
  cases run

/-- The pages k to k + more have new entries, the others stay. -/
structure Updated (m next : Memory) (d k more pa perm : Nat) : Prop where
  pages : ∀ j ≤ more, pteAt next d (k + j) =
    some ((pa + j * pgsize) % 2 ^ 64 ||| (perm ||| pteP))
  others : ∀ l < userPages, l < k ∨ k + more < l → Stays (pteAt m d l) (pteAt next d l)
  directory : Directory next d

theorem entry_small (page : pa < 2 ^ 64) (flags : perm < 2 ^ 64) :
    pa ||| (perm ||| pteP) < 2 ^ 64 :=
  Nat.or_lt_two_pow page (Nat.or_lt_two_pow flags (by decide))

theorem mapLoop_done (directory : Directory m d) (low : k < userPages)
    (bounded : k + more < userPages ∨ Backed m d) (page : pa < 2 ^ 64) (flags : perm < 2 ^ 64)
    (run : mapLoop d perm more (k * pgsize) pa m = (.done true next, events)) :
    k + more < userPages ∧ Updated m next d k more pa perm := by
  have atZero : (pa + 0 * pgsize) % 2 ^ 64 = pa := by
    rw [Nat.zero_mul, Nat.add_zero, Nat.mod_eq_of_lt page]
  induction more generalizing m k pa events with
  | zero =>
    have mapped := mapOne_done directory low (entry_small page flags) run
    refine ⟨low, fun j le => ?_, fun l low' other => ?_, mapped.directory⟩
    · obtain rfl := Nat.le_zero.1 le
      rw [atZero]
      exact mapped.here
    · exact mapped.others l low' (by omega)
  | succ more ih =>
    rw [mapLoop] at run
    obtain ⟨mapped_, middle, early, later, first, rest, -⟩ := bind_inv run
    cases mapped_ with
    | false => cases rest
    | true =>
      have mapped := mapOne_done directory low (entry_small page flags) first
      have address : (k * pgsize + pgsize) % 2 ^ 64 = (k + 1) * pgsize := by
        simp only [pgsize, userPages] at low ⊢
        omega
      rw [if_pos rfl, address] at rest
      by_cases inside : k + 1 < userPages
      · have bounded' : k + 1 + more < userPages ∨ Backed middle d := by
          refine bounded.imp (fun below => by omega) fun backed => ?_
          rw [Backed, mapped.high]
          exact backed
        obtain ⟨below, updated⟩ := ih mapped.directory inside bounded'
          (Nat.mod_lt _ (by decide)) rest (by
            rw [Nat.zero_mul, Nat.add_zero, Nat.mod_mod])
        refine ⟨by omega, fun j le => ?_, fun l low' other => ?_, updated.directory⟩
        · cases j with
          | zero =>
            have kept := updated.others k low (.inl (Nat.lt_succ_self k))
            rw [mapped.here] at kept
            rw [atZero]
            rcases kept with is | ⟨absent, -⟩
            · exact is
            · cases absent
          | succ j =>
            have at_ := updated.pages j (by omega)
            rw [show k + (j + 1) = k + 1 + j by omega, at_, Nat.mod_add_mod,
              Nat.add_assoc, Nat.add_comm pgsize, ← Nat.succ_mul]
        · exact stays_trans (mapped.others l low' (by omega))
            (updated.others l low' (by omega))
      -- the next page is the first behind the user addresses
      · exfalso
        have isTop : k + 1 = userPages := by omega
        have backed : Backed middle d := by
          rw [Backed, mapped.high]
          exact bounded.resolve_left (by omega)
        rw [isTop] at rest
        cases more with
        | zero => exact mapOne_backed backed ⟨true, rest⟩
        | succ more =>
          rw [mapLoop] at rest
          obtain ⟨mapped_, last, _, _, first', _, _⟩ := bind_inv rest
          exact mapOne_backed backed ⟨mapped_, first'⟩

end Loop

/-- Where walkpgdir finds the entry of page k when it does not allocate. -/
def place (m : Memory) (d k : Nat) : Option (Nat × Nat) :=
  match (walkpgdir d (k * pgsize) false m).1 with
  | .done found _ => found
  | .halt _ _ => none

/-- The entry that walkpgdir finds. -/
def found (m : Memory) (d k : Nat) : Option Nat :=
  (place m d k).map fun (pgtab, i) => word m pgtab i

/-- What mappages promises: the entries of its range, all other entries below 0x3fc00000 as
they were, and no entry shared by two pages. -/
structure MapUpdate (m next : Memory) (d va size pa perm : Nat) : Prop where
  range : ∀ k, va ≤ k * pgsize → k * pgsize < va + size →
    found next d k = some ((pa + (k * pgsize - va)) % 2 ^ 64 ||| (perm ||| pteP))
  frames : pa % pgsize = 0 → perm < pgsize → ∀ k, va ≤ k * pgsize → k * pgsize < va + size →
    pa + (k * pgsize - va) < 2 ^ 64 → ∃ pte, found next d k = some pte ∧
      pteAddr pte = (pa + (k * pgsize - va)) / pgsize ∧ pteFlags pte = perm ||| pteP
  others : ∀ l < userPages, l * pgsize < va ∨ va + size ≤ l * pgsize →
    Stays (found m d l) (found next d l)
  apart : ∀ k < userPages, ∀ l < userPages, k ≠ l → (place next d k).isSome →
    place next d k ≠ place next d l

section Update
variable {m next : Memory} {d k l va size pa perm : Nat} {events : List Event}

theorem place_eq (low : k < userPages) :
    place m d k = (tableAt m d (k / 512)).map fun pgtab => (pgtab, k % 512) := by
  rw [place, tableAt, ← pdx_page low, ← ptx_page (k := k)]
  by_cases isPresent : present (word m d (pdx (k * pgsize))) = true
  · rw [walk_present isPresent, if_pos isPresent]
    rfl
  · rw [Bool.not_eq_true] at isPresent
    rw [walk_absent isPresent, isPresent]
    rfl

theorem found_eq (low : k < userPages) : found m d k = pteAt m d k := by
  rw [found, place_eq low, pteAt, Option.map_map]
  rfl

theorem place_apart (directory : Directory m d) (low : k < userPages) (low' : l < userPages)
    (other : k ≠ l) (some_ : (place m d k).isSome) : place m d k ≠ place m d l := by
  rw [place_eq low] at some_ ⊢
  rw [place_eq low', tableAt, tableAt]
  rw [tableAt] at some_
  by_cases first : present (word m d (k / 512)) = true
  · rw [if_pos first]
    by_cases second : present (word m d (l / 512)) = true
    · rw [if_pos second]
      intro same
      obtain ⟨table, index⟩ := Prod.mk.inj (Option.some.inj same)
      by_cases equal : k / 512 = l / 512
      · omega
      · exact directory.apart _ (index_low low) _ (index_low low') equal first second table
    · rw [if_neg second]
      exact nofun
  · rw [if_neg first] at some_
    cases some_

/-- The number of pages after the first, when the range ends below 0x3fc00000 or the loop did. -/
theorem more_eq (low : k < userPages) (small : size < 2 ^ 64)
    (bounded : k + (pgrounddown ((k * pgsize + size + 2 ^ 64 - 1) % 2 ^ 64) + 2 ^ 64 -
      pgrounddown (k * pgsize)) % 2 ^ 64 / pgsize < userPages ∨
      0 < size ∧ k * pgsize + size ≤ userPages * pgsize) :
    (pgrounddown ((k * pgsize + size + 2 ^ 64 - 1) % 2 ^ 64) + 2 ^ 64 -
      pgrounddown (k * pgsize)) % 2 ^ 64 / pgsize = (size - 1) / pgsize ∧ 0 < size ∧
      k * pgsize + size ≤ userPages * pgsize := by
  simp only [pgrounddown, pgsize, userPages] at low bounded ⊢
  omega

theorem entry_parts {address : Nat} (aligned : address % pgsize = 0) (flags : perm < pgsize) :
    pteAddr (address ||| (perm ||| pteP)) = address / pgsize ∧
      pteFlags (address ||| (perm ||| pteP)) = perm ||| pteP := by
  have low : perm ||| pteP < 2 ^ 12 := Nat.or_lt_two_pow flags (by decide)
  have is : address = address / pgsize * pgsize := by
    simp only [pgsize] at aligned ⊢
    omega
  rw [is]
  have addr : pteAddr (entry (address / pgsize) (perm ||| pteP)) = _ := pteAddr_entry low
  have bits : pteFlags (entry (address / pgsize) (perm ||| pteP)) = _ := pteFlags_entry low
  rw [entry] at addr bits
  rw [addr, bits]
  exact ⟨(Nat.mul_div_cancel _ (by decide)).symm, rfl⟩

theorem mappages_update (directory : Directory m d) (aligned : va % pgsize = 0)
    (low : va < 0x3fc00000) (sizes : size < 2 ^ 64) (frame : pa < 2 ^ 64) (flags : perm < 2 ^ 64)
    (bounded : (0 < size ∧ va + size ≤ 0x3fc00000) ∨ Backed m d)
    (run : mappages d va size pa perm m = (.done true next, events)) :
    MapUpdate m next d va size pa perm := by
  obtain ⟨k, rfl⟩ : ∃ k, va = k * pgsize := ⟨va / pgsize, by
    simp only [pgsize] at aligned ⊢
    omega⟩
  have below : k < userPages := by
    simp only [pgsize, userPages] at low ⊢
    omega
  have start : pgrounddown (k * pgsize) = k * pgsize := by
    rw [pgrounddown, Nat.mul_div_cancel _ (by decide)]
  have inside (range : 0 < size ∧ k * pgsize + size ≤ 0x3fc00000) :=
    more_eq below sizes (.inr range)
  rw [mappages] at run
  have first : k + (pgrounddown ((k * pgsize + size + 2 ^ 64 - 1) % 2 ^ 64) + 2 ^ 64 -
      pgrounddown (k * pgsize)) % 2 ^ 64 / pgsize < userPages ∨ Backed m d := by
    refine bounded.imp_left fun range => ?_
    obtain ⟨is, positive, le⟩ := inside range
    rw [is]
    simp only [pgsize, userPages] at le ⊢
    omega
  rw [start] at run first
  obtain ⟨ends, updated⟩ := mapLoop_done directory below first frame flags run
  obtain ⟨is, positive, le⟩ := more_eq below sizes (.inl (by rw [start]; exact ends))
  rw [start] at is
  rw [is] at ends updated
  have pages (l : Nat) (reached : k * pgsize ≤ l * pgsize) (stop : l * pgsize < k * pgsize + size) :
      found next d l = some ((pa + (l * pgsize - k * pgsize)) % 2 ^ 64 ||| (perm ||| pteP)) := by
    have below' : l < userPages := by
      simp only [pgsize, userPages] at le stop ⊢
      omega
    have at_ := updated.pages (l - k) (by
      simp only [pgsize] at reached stop ⊢
      omega)
    rw [← Nat.sub_mul, found_eq below', ← at_]
    congr 1
    simp only [pgsize] at reached
    omega
  refine ⟨pages, fun alignedPa flags' l reached stop room => ?_, fun l low' other => ?_,
    fun a lowA b lowB ne is => ?_⟩
  · refine ⟨_, pages l reached stop, ?_⟩
    rw [Nat.mod_eq_of_lt room]
    refine entry_parts ?_ flags'
    rw [← Nat.sub_mul, Nat.add_mul_mod_self_right]
    exact alignedPa
  · rw [found_eq low', found_eq low']
    refine updated.others l low' ?_
    simp only [pgsize] at other ⊢
    omega
  · exact place_apart updated.directory lowA lowB ne is

end Update

/-- A memory without page tables yet. -/
def sparse : Memory := ⟨1, 0, 0, [9, 8], fun _ => 0⟩

theorem word_sparse (page i : Nat) : word sparse page i = 0 := field_zero _ _

theorem directory_sparse : Directory sparse 4 := by
  refine ⟨fun i _ j _ _ isPresent => ?_, fun i _ isPresent => ?_, by decide, by decide, by decide⟩
  · rw [word_sparse] at isPresent
    cases isPresent
  · rw [word_sparse] at isPresent
    cases isPresent

/-- Two pages, the last of one page table and the first of the next. -/
theorem mappages_update_sparse :
    ∃ next, MapUpdate sparse next 4 0x1ff000 0x2000 0x5000 (pteW ||| pteU) := by
  have returns : (mappages 4 0x1ff000 0x2000 0x5000 (pteW ||| pteU) sparse).1.returns true = true := by
    decide +kernel
  obtain ⟨next, run⟩ := returned returns
  exact ⟨next, mappages_update directory_sparse (by decide) (by decide) (by decide) (by decide)
    (by decide) (.inl (by decide)) run⟩

/-- A directory that setupkvm does not make: its entries 510 and 0 lead to one page table. -/
def shared : Memory :=
  ((sparse.setWord 4 0 (entry 5 7)).setWord 4 509 (entry 6 7)).setWord 4 510 (entry 5 7)

theorem word_shared {i : Nat} (low : i < 510) :
    word shared 4 i = if i = 509 then entry 6 7 else if i = 0 then entry 5 7 else 0 := by
  rw [shared, word_setWord (by decide) (by decide), if_neg fun is => by omega,
    word_setWord (by decide) (by decide), word_setWord (by decide) (by decide), word_sparse]
  simp only [true_and]

theorem directory_shared : Directory shared 4 := by
  refine ⟨fun i lowI j lowJ ne isI isJ => ?_, fun i low isPresent => ?_, by decide, by decide,
    by decide⟩
  · rw [word_shared lowI] at isI ⊢
    rw [word_shared lowJ] at isJ ⊢
    split_ifs at isI isJ ⊢ <;> first | omega | decide | cases isI
  · rw [word_shared low] at isPresent ⊢
    split_ifs at isPresent ⊢
    · decide
    · decide
    · cases isPresent

/-- A range that ends behind 0x3fc00000 with such a directory: page 0 gets its second entry. -/
theorem mappages_shared : ∃ next events, Directory shared 4 ∧
    mappages 4 0x3fbff000 0x2000 0x7000 (pteW ||| pteU) shared = (.done true next, events) ∧
    ¬ MapUpdate shared next 4 0x3fbff000 0x2000 0x7000 (pteW ||| pteU) := by
  have returns : (mappages 4 0x3fbff000 0x2000 0x7000 (pteW ||| pteU) shared).1.returns true =
      true := by decide +kernel
  have changed : found (mappages 4 0x3fbff000 0x2000 0x7000 (pteW ||| pteU) shared).1.state 4 0 =
      some 0x8007 := by decide +kernel
  have absent : found shared 4 0 = some 0 := by decide +kernel
  obtain ⟨next, run⟩ := returned returns
  rw [run] at changed
  refine ⟨next, _, directory_shared, run, fun update => ?_⟩
  have stays := update.others 0 (by decide) (.inl (by decide))
  rw [absent, show found next 4 0 = some 0x8007 from changed] at stays
  revert stays
  simp [Stays]

end Xv6.PageMap
