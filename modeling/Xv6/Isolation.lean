import Xv6.Shrinking
import Xv6.CopyMemory

/-! copyuvm makes a copy that shares nothing with the original. User accesses go through
the page table: a write reaches the page that a writable user PTE maps, and two address
spaces of a well-formed memory have no such page in common. -/
namespace Xv6.Isolation
open TraceMonad BitField Vm VmSpec PageTables AddressSpaces ExecPlan Growth Allocation CopyMemory
open Shrinking

def writable (pte : Nat) : Bool := pte.testBit 1

/-- The page that a user access to va reaches. The directory entry and the PTE must both
allow it; from 0x3fc00000 on stand the back-pointers, which have no PTE_U. -/
def access (m : Memory) (d va : Nat) (write : Bool) : Option Nat :=
  if 0x3fc00000 ≤ va then none else
  (pteAt m d (va / pgsize)).bind fun pte =>
    let pde := word m d (pdx va)
    if present pte && user pte && user pde && (!write || writable pte && writable pde) then
      some (pteAddr pte)
    else none

/-- A user read; none is a page fault. -/
def peek (m : Memory) (d va : Nat) : Option UInt8 :=
  (access m d va false).map fun page => byteAt (m.page page) (va % pgsize)

/-- A user write; a page fault changes nothing. -/
def poke (d : Nat) (m : Memory) (write : Nat × UInt8) : Memory :=
  match access m d write.1 true with
  | some page => m.setPage page (setBytes (m.page page) (write.1 % pgsize) [write.2])
  | none => m

section Accesses
variable {m next : Memory} {role : Nat → Role} {c d va p k : Nat} {write : Bool}

theorem access_leaf (reached : access m d va write = some p) :
    va / pgsize < 510 * 512 ∧ leafAt m d (va / pgsize) = some p := by
  unfold access at reached
  split_ifs at reached with high
  refine ⟨by simp only [pgsize]; omega, ?_⟩
  rw [leafAt]
  cases found : pteAt m d (va / pgsize) with
  | none => simp [found] at reached
  | some pte =>
    simp only [found, Option.bind_some, Option.ite_none_right_eq_some, Option.some.injEq,
      Bool.and_eq_true] at reached ⊢
    exact ⟨reached.1.1.1.1, reached.2⟩

theorem access_role (roles : Roles m role) (dir : role d = .dir)
    (reached : access m d va write = some p) : ∃ i j, role p = .leaf d i j := by
  obtain ⟨low, leaf⟩ := access_leaf reached
  exact ⟨_, _, (leafAt_iff roles dir low).1 leaf⟩

theorem access_congr (pde : ∀ i, word next d i = word m d i)
    (pte : ∀ k < 510 * 512, pteAt next d k = pteAt m d k) :
    access next d va write = access m d va write := by
  unfold access
  split_ifs with high
  · rfl
  · rw [pte _ (by simp only [pgsize]; omega), pde]

theorem poke_cases (roles : Roles m role) (dir : role c = .dir) (request : Nat × UInt8) :
    poke c m request = m ∨ ∃ p content, (∃ i j, role p = .leaf c i j) ∧
      poke c m request = m.setPage p content := by
  unfold poke
  cases reached : access m c request.1 true with
  | none => exact .inl rfl
  | some p => exact .inr ⟨p, _, access_role roles dir reached, rfl⟩

theorem roles_poke (roles : Roles m role) (dir : role c = .dir) (request : Nat × UInt8) :
    Roles (poke c m request) role := by
  rcases poke_cases roles dir request with same | ⟨p, content, ⟨i, j, leaf⟩, wrote⟩
  · rw [same]
    exact roles
  · rw [wrote]
    refine roles_congr roles rfl rfl fun q is j => word_setPage_other ?_
    rintro rfl
    simp [leaf] at is

theorem poke_other (roles : Roles m role) (dir : role c = .dir) (request : Nat × UInt8) {q : Nat}
    (other : ∀ i j, role q ≠ .leaf c i j) : (poke c m request).page q = m.page q := by
  rcases poke_cases roles dir request with same | ⟨p, content, ⟨i, j, leaf⟩, wrote⟩
  · rw [same]
  · rw [wrote, Memory.setPage]
    refine if_neg ?_
    rintro rfl
    exact other i j leaf

theorem pteAt_congr (roles : Roles m role) (dir : role d = .dir) (low : k < 510 * 512)
    (same : ∀ q, q = d ∨ (∃ i, role q = .table d i) → ∀ j, word next q j = word m q j) :
    pteAt next d k = pteAt m d k := by
  have top := same d (.inl rfl)
  rw [pteAt_eq, pteAt_eq, tablePage, tablePage, top]
  by_cases isPresent : present (word m d (k / 512)) = true
  · rw [same _ (.inr ⟨_, role_of_pde roles dir (by omega) isPresent⟩)]
  · simp [isPresent]

theorem peek_poke (roles : Roles m role) (dir : role d = .dir) (dir' : role c = .dir)
    (apart : d ≠ c) (request : Nat × UInt8) : peek (poke c m request) d va = peek m d va := by
  have words : ∀ q, role q = .dir ∨ (∃ i, role q = .table d i) →
      ∀ j, word (poke c m request) q j = word m q j := by
    intro q is j
    rw [word, word, poke_other roles dir' request]
    rintro i s leaf
    rw [leaf] at is
    simp at is
  have same : access (poke c m request) d va false = access m d va false :=
    access_congr (words d (.inl dir)) fun k low => pteAt_congr roles dir low fun q is =>
      words q (is.imp_left fun (same : q = d) => same ▸ dir)
  rw [peek, peek, same]
  cases reached : access m d va false with
  | none => rfl
  | some p =>
    obtain ⟨i, j, leaf⟩ := access_role roles dir reached
    rw [Option.map_some, Option.map_some, poke_other roles dir' request]
    intro i' j' leaf'
    rw [leaf, Role.leaf.injEq] at leaf'
    exact apart leaf'.1

/-- Any sequence of writes through one address space leaves every read through the other
as it was. -/
theorem peek_pokes (roles : Roles m role) (dir : role d = .dir) (dir' : role c = .dir)
    (apart : d ≠ c) (requests : List (Nat × UInt8)) :
    peek (requests.foldl (poke c) m) d va = peek m d va := by
  induction requests generalizing m with
  | nil => rfl
  | cons request rest ih =>
    rw [List.foldl_cons, ih (roles_poke roles dir' request), peek_poke roles dir dir' apart]

end Accesses

/-! The copy. -/

/-- c is a copy of the pages of d below size: the same contents and flags in pages that
were free, and d and its memory as before. -/
structure Copied (m last : Memory) (d c size : Nat) : Prop where
  same : ∀ k < pages size, ∃ old new, pteAt m d k = some old ∧ pteAt last c k = some new ∧
    present new = true ∧ pteFlags new = pteFlags old ∧
    last.page (pteAddr new) = m.page (pteAddr old)
  beyond : ∀ k < 510 * 512, pages size ≤ k → leafAt last c k = none
  fresh : ∀ k < 510 * 512, ∀ p, leafAt last c k = some p → p ∈ m.freelist ∧ p ≠ d ∧
    (∀ i < 510, tableAt m d i ≠ some p) ∧ ∀ l < 510 * 512, leafAt m d l ≠ some p
  distinct : ∀ k < pages size, ∀ l < pages size, k ≠ l → leafAt last c k ≠ leafAt last c l
  directory : ∀ i, word last d i = word m d i
  entries : ∀ k < 510 * 512, pteAt last d k = pteAt m d k
  memory : ∀ k < 510 * 512, ∀ p, leafAt m d k = some p → last.page p = m.page p

section Copy
variable {m last : Memory} {role role' : Nat → Role} {d u v c size k p q : Nat} {rest : List Nat}

theorem page_withSpace (notU : q ≠ u) (notV : q ≠ v) (notC : q ≠ c) :
    (withSpace m u v c rest).page q = m.page q := by
  simp only [withSpace, Memory.setWord, Memory.setPage, notU, notV, notC, if_false]

theorem flags_present {pte : Nat} (isPresent : present pte = true) :
    pteFlags pte ||| pteP = pteFlags pte := by
  have bit : (pteFlags pte).testBit 0 = true := by
    rw [pteFlags, show pgsize = 2 ^ 12 from rfl, Nat.testBit_mod_two_pow]
    simpa [present] using isPresent
  refine Nat.eq_of_testBit_eq fun i => ?_
  rw [Nat.testBit_or]
  cases i with
  | zero => simp [bit]
  | succ i => simp [pteP, Nat.testBit_succ]

theorem userPte_some_of {pte : Nat} (found : userPte m d k = some pte) :
    pteAt m d k = some pte ∧ present pte = true := by
  simpa [userPte, Option.filter_eq_some_iff] using found

theorem created_blank (roles : Roles m role) (freelist : m.freelist = u :: v :: c :: rest) {i j : Nat} :
    created role u v c p ≠ .leaf c i j := by
  intro leaf
  have fresh : role c = .free := (roles.free c).1 (by simp [freelist])
  unfold created at leaf
  split_ifs at leaf
  obtain ⟨t, table, -⟩ := pte_of_role roles leaf
  have dir := (pde_of_role roles table).1
  rw [fresh] at dir
  cases dir

theorem withSpace_used (roles : Roles m role) (freelist : m.freelist = u :: v :: c :: rest)
    (busy : role q ≠ .free) : (withSpace m u v c rest).page q = m.page q ∧
      created role u v c q = role q ∧ q ≠ c := by
  have away : ∀ p ∈ m.freelist, q ≠ p := by
    rintro p member rfl
    exact busy ((roles.free q).1 member)
  rw [freelist] at away
  obtain ⟨notU, notV, notC⟩ : q ≠ u ∧ q ≠ v ∧ q ≠ c :=
    ⟨away u (by simp), away v (by simp), away c (by simp)⟩
  exact ⟨page_withSpace notU notV notC, by simp [created, notU, notV, notC], notC⟩

theorem used_kept (roles : Roles m role) (freelist : m.freelist = u :: v :: c :: rest)
    (grown : Grown (withSpace m u v c rest) c 0 (copied (withSpace m u v c rest) d) (pages size)
      last role') (busy : role q ≠ .free) :
    (withSpace m u v c rest).page q = m.page q ∧ last.page q = m.page q ∧
      created role u v c q = role q := by
  obtain ⟨roles', fresh, child, -⟩ := created_space roles freelist
  obtain ⟨page, is, notC⟩ := withSpace_used roles freelist busy
  refine ⟨page, ?_, is⟩
  rw [parent_page roles' child grown (by rwa [is]) notC, page]
  intro i table
  rw [is] at table
  have dir := (pde_of_role roles table).1
  rw [fresh] at dir
  cases dir

theorem copied_of_grown (roles : Roles m role) (parent : role d = .dir)
    (freelist : m.freelist = u :: v :: c :: rest) (small : pages size ≤ 510 * 512)
    (mapped : ∀ k < pages size, (leafAt m d k).isSome)
    (grown : Grown (withSpace m u v c rest) c 0 (copied (withSpace m u v c rest) d) (pages size)
      last role')
    (kept : ∀ q, created role u v c q ≠ .free → role' q = created role u v c q) :
    Copied m last d c size ∧ role' d = .dir ∧ d ≠ c := by
  obtain ⟨roles', fresh, child, -⟩ := created_space roles freelist
  have used : ∀ {q : Nat}, role q ≠ .free → last.page q = m.page q ∧ role' q = role q := by
    intro q busy
    obtain ⟨-, page, is⟩ := used_kept roles freelist grown busy
    exact ⟨page, by rw [kept q (by rwa [is]), is]⟩
  have busy : ∀ {q : Nat}, role q = .dir ∨ (∃ i, role q = .table d i) → role q ≠ .free := by
    intro q is isFree
    simp [isFree] at is
  have words : ∀ q, role q = .dir ∨ (∃ i, role q = .table d i) → ∀ j, word last q j = word m q j := by
    intro q is j
    rw [word, word, (used (busy is)).1]
  have entries : ∀ k < 510 * 512, pteAt last d k = pteAt m d k :=
    fun k low => pteAt_congr roles parent low fun q is =>
      words q (is.imp_left fun (same : q = d) => same ▸ parent)
  have early : ∀ k < 510 * 512, pteAt (withSpace m u v c rest) d k = pteAt m d k := by
    refine fun k low => pteAt_congr roles parent low fun q is j => ?_
    rw [word, word, (used_kept roles freelist grown
      (busy (is.imp_left fun (same : q = d) => same ▸ parent))).1]
  -- A page of the child was free, because the child had no page before.
  have wasFree : ∀ {k p : Nat}, k < 510 * 512 → leafAt last c k = some p → role p = .free := by
    intro k p low found
    have leaf := (leafAt_iff grown.roles grown.dir low).1 found
    by_contra busy
    obtain ⟨-, -, is⟩ := used_kept roles freelist grown busy
    rw [(used busy).2, ← is] at leaf
    exact created_blank roles freelist leaf
  have isSame : ∀ k < pages size, ∃ old new, pteAt m d k = some old ∧ pteAt last c k = some new ∧
      present new = true ∧ pteFlags new = pteFlags old ∧
      last.page (pteAddr new) = m.page (pteAddr old) := by
    intro k below
    obtain ⟨q, found⟩ := Option.isSome_iff_exists.1 (mapped k below)
    have here := at_of_leafAt roles parent (by omega) found
    have old : pteAt m d k = some (word m (tablePage m d k) (k % 512)) := by
      rw [pteAt_eq, if_pos here.isPresent]
    have source : copied (withSpace m u v c rest) d k =
        (pteFlags (word m (tablePage m d k) (k % 512)), m.page q) := by
      have view : userPte (withSpace m u v c rest) d k =
          some (word m (tablePage m d k) (k % 512)) := by
        rw [userPte, early k (by omega), old, Option.filter_some, if_pos here.full]
      rw [copied, view]
      dsimp only
      rw [here.page, (used_kept roles freelist grown (by simp [here.leaf])).1]
    obtain ⟨p, new, content⟩ := grown.new k (Nat.zero_le k) (by omega)
    rw [source] at new content
    dsimp only at new content
    rw [flags_present here.full] at new
    have flags : pteFlags (word m (tablePage m d k) (k % 512)) < 4096 := Nat.mod_lt _ (by decide)
    obtain ⟨now, isPresent⟩ := userPte_some_of new
    refine ⟨_, _, old, now, isPresent, pteFlags_entry flags, ?_⟩
    rw [pteAddr_entry flags, content, here.page]
  refine ⟨⟨isSame, ?_, ?_, ?_, words d (.inl parent), entries, ?_⟩, ?_, ?_⟩
  · intro k low beyond
    rw [leafAt_eq, grown.old k low (by omega), ← leafAt_eq, Option.eq_none_iff_forall_ne_some]
    intro p found
    exact created_blank roles freelist ((leafAt_iff roles' child low).1 found)
  · intro k low p found
    have isFree := wasFree low found
    refine ⟨(roles.free p).2 isFree, ?_, ?_, ?_⟩
    · rintro rfl
      rw [parent] at isFree
      cases isFree
    · intro i inside table
      rw [(tableAt_iff roles parent inside).1 table] at isFree
      cases isFree
    · intro l inside leaf
      rw [(leafAt_iff roles parent inside).1 leaf] at isFree
      cases isFree
  · intro k below l below' other same
    obtain ⟨old, new, -, now, isPresent, -⟩ := isSame k below
    have found : leafAt last c k = some (pteAddr new) := by
      rw [leafAt, now, Option.bind_some, if_pos isPresent]
    have leaf := (leafAt_iff grown.roles grown.dir (by omega)).1 found
    have leaf' := (leafAt_iff grown.roles grown.dir (by omega)).1 (same ▸ found)
    rw [leaf, Role.leaf.injEq] at leaf'
    omega
  · intro k low p found
    exact (used (by rw [(leafAt_iff roles parent low).1 found]; simp)).1
  · rw [(used (by simp [parent])).2, parent]
  · rintro rfl
    rw [parent] at fresh
    cases fresh

/-- copyuvm of an address space with all its pages below size, when the free pages
suffice: the copy has the same contents and flags in pages of its own, the original is
as before, and from then on no sequence of user writes through one of the two changes
what is read through the other. -/
theorem copyuvm_isolates (roles : Roles m role) (parent : role d = .dir) (top : size ≤ userTop)
    (mapped : ∀ k < pages size, (leafAt m d k).isSome)
    (enough : 3 + (pages size + (pages size + 511) / 512) ≤ m.freelist.length) :
    ∃ c last, (copyuvm d size m).1 = .done (some c) last ∧ Copied m last d c size ∧
      (∀ (requests : List (Nat × UInt8)) va, peek (requests.foldl (poke c) last) d va = peek last d va) ∧
      ∀ (requests : List (Nat × UInt8)) va, peek (requests.foldl (poke d) last) c va = peek last c va := by
  obtain ⟨u, v, c, rest, freelist⟩ : ∃ u v c rest, m.freelist = u :: v :: c :: rest := by
    match is : m.freelist with
    | [] | [_] | [_, _] =>
      simp only [is, List.length_cons, List.length_nil] at enough
      omega
    | u :: v :: c :: rest => exact ⟨u, v, c, rest, rfl⟩
  rw [freelist] at enough
  simp only [List.length_cons] at enough
  have small : pages size ≤ 510 * 512 := by
    simp only [userTop, pages] at *
    omega
  have whole : ∀ k < pages size, (userPte m d k).isSome := by
    intro k below
    have found := mapped k below
    rwa [leafAt_eq, Option.isSome_map] at found
  have ends := @copyuvm_ends _ _ _ u v c size rest [] roles parent freelist
  rw [if_pos ⟨whole, by omega⟩] at ends
  obtain ⟨last, reports, run, -, role', grown, kept⟩ := ends
  obtain ⟨copy, dir, apart⟩ := copied_of_grown roles parent freelist small mapped grown kept
  refine ⟨c, last, ?_, copy, fun requests va => ?_, fun requests va => ?_⟩
  · rw [← Probe.copyuvm_erases m, run]
  · exact peek_pokes grown.roles dir grown.dir apart requests
  · exact peek_pokes grown.roles grown.dir dir apart.symm requests

end Copy

/-- A parent of one page with five free pages. -/
theorem copyuvm_isolates_page : ∃ final role c last,
    Transition.exec step tenPages [.setupkvm, .allocuvm 102 0 4096] = some final ∧
      Roles final.mem role ∧ role 102 = .dir ∧
      (copyuvm 102 4096 final.mem).1 = .done (some c) last ∧ Copied final.mem last 102 c 4096 := by
  obtain ⟨final, run, live, mapped, free⟩ : ∃ final,
      Transition.exec step tenPages [.setupkvm, .allocuvm 102 0 4096] = some final ∧
        102 ∈ final.live ∧ (leafAt final.mem 102 0).isSome ∧ 5 ≤ final.mem.freelist.length :=
    Transition.exec_reaches (by decide +kernel)
  have start : Start tenPages := ⟨by decide, by decide, by decide, rfl, fun _ => rfl⟩
  obtain ⟨role, inv⟩ := run_inv start run
  have dir := (inv.live 102).mp live
  have whole : ∀ k < pages 4096, (leafAt final.mem 102 k).isSome := by
    intro k below
    obtain rfl : k = 0 := by
      simp only [pages] at below
      omega
    exact mapped
  obtain ⟨c, last, made, copy, -⟩ := copyuvm_isolates inv.roles dir (by decide) whole free
  exact ⟨final, role, c, last, run, inv.roles, dir, made, copy⟩

end Xv6.Isolation
