import Xv6.Vm
import Xv6.RoleForest
import Mathlib.Data.List.Nodup

/-! Every physical page has one role. `Roles` ties a role function to the contents of
memory: the free list holds the free pages once, and the page directories are the
roots of a forest whose links are the present entries. A present directory entry
leads to the page with the role of that page table, a present PTE to the page with
the role of that user page, and every page with such a role is reached that way. -/
namespace Xv6.VmSpec
open TraceMonad BitField Vm RoleForest

section Words
variable {m : Memory} {p q i j value page flags : Nat} {content : Page}

theorem word_setPage_other (other : q ≠ p) : word (m.setPage p content) q j = word m q j := by
  simp [word, Memory.setPage, other]

theorem word_setPage_zero : word (m.setPage p 0) p j = 0 := by
  simp only [word, Memory.setPage, if_true]
  exact field_zero (64 * j) 64

theorem word_setWord (inside : i < 512) (small : value < 2 ^ 64) :
    word (m.setWord p i value) q j = if q = p ∧ j = i then value else word m q j := by
  by_cases page : q = p
  · subst page
    by_cases same : j = i
    · subst same
      have stored := field_setField_same (m.page q) (64 * j) 64 value (by omega)
      simp only [word, Memory.setWord, Memory.setPage, if_true, and_self, stored]
      exact Nat.mod_eq_of_lt small
    · simp only [word, Memory.setWord, Memory.setPage, if_true, same, and_false, if_false]
      exact field_setField_disjoint _ _ _ _ _ _ (by omega)
  · simp [word, Memory.setWord, Memory.setPage, page]

theorem entry_eq (small : flags < 4096) : entry page flags = page * 4096 + flags := by
  have split := Nat.two_pow_add_eq_or_of_lt (i := 12) small page
  rw [entry, pgsize, Nat.mul_comm]
  exact split.symm

theorem testBit_entry {bit : Nat} (low : bit < 12) :
    (entry page flags).testBit bit = flags.testBit bit := by
  rw [entry, pgsize, Nat.testBit_or, show (4096 : Nat) = 2 ^ 12 from rfl, Nat.testBit_mul_two_pow]
  simp [show ¬ 12 ≤ bit by omega]

theorem present_entry (flagged : flags.testBit 0 = true) : present (entry page flags) = true := by
  rw [present, testBit_entry (by decide), flagged]

theorem pteAddr_entry (small : flags < 4096) : pteAddr (entry page flags) = page := by
  rw [entry_eq small, pteAddr, pgsize]
  omega

theorem pteFlags_entry (small : flags < 4096) : pteFlags (entry page flags) = flags := by
  rw [entry_eq small, pteFlags, pgsize]
  omega

theorem entry_lt (small : flags < 4096) (inside : page < physPages) :
    entry page flags < 2 ^ 64 := by
  rw [entry_eq small]
  simp only [physPages] at inside
  omega

end Words

inductive Role where
  | free
  | pml4 (pgdir : Nat)
  | pdpt (pgdir : Nat)
  | dir
  | table (pgdir i : Nat)
  | leaf (pgdir i j : Nat)
  | held (holder : Nat)
  | kernel
  deriving DecidableEq

def child : Role → Nat → Nat → Option Role
  | .dir, d, j =>
    if j < 510 then some (.table d j) else
    if j = 510 then some (.pdpt d) else if j = 511 then some (.pml4 d) else none
  | .table d i, _, j => if j < 512 then some (.leaf d i j) else none
  | _, _, _ => none

def linked : Role → Prop
  | .table _ _ | .leaf _ _ _ | .pml4 _ | .pdpt _ => True
  | _ => False

theorem child_linked {role r : Role} {q j : Nat} (slot : child role q j = some r) : linked r := by
  unfold child at slot
  split at slot
  · split_ifs at slot <;> cases slot <;> trivial
  · split_ifs at slot
    cases slot
    trivial
  · cases slot

section Child
variable {r : Role} {q s d i j : Nat}

theorem child_table (slot : child r q s = some (.table d i)) :
    r = .dir ∧ q = d ∧ s = i ∧ i < 510 := by
  unfold child at slot
  grind

theorem child_leaf (slot : child r q s = some (.leaf d i j)) :
    r = .table d i ∧ s = j ∧ j < 512 := by
  unfold child at slot
  grind

theorem child_pml4 (slot : child r q s = some (.pml4 d)) : r = .dir ∧ q = d ∧ s = 511 := by
  unfold child at slot
  grind

theorem child_pdpt (slot : child r q s = some (.pdpt d)) : r = .dir ∧ q = d ∧ s = 510 := by
  unfold child at slot
  grind

end Child

def shape : Shape Nat Nat Role := ⟨child, linked, child_linked⟩

/-- The page a back-pointer of a page directory leads to. -/
def backPage (pde : Nat) : Nat := pteAddr pde - kernbase / pgsize

def points (r : Role) (j pte : Nat) : Option Nat :=
  if present pte then some (if r = .dir ∧ 510 ≤ j then backPage pte else pteAddr pte) else none

structure Roles (m : Memory) (role : Nat → Role) : Prop where
  nodup : m.freelist.Nodup
  free : ∀ p, p ∈ m.freelist ↔ role p = .free
  range : ∀ p, role p ≠ .kernel → m.kend ≤ p ∧ p < physPages
  positive : 0 < m.kend
  forest : Forest shape (fun q j => points (role q) j (word m q j)) role
  blank : ∀ t d i j, role t = .table d i → j < 512 → present (word m t j) = false →
    word m t j = 0
  back : ∀ d j, role d = .dir → 510 ≤ j → j < 512 →
    present (word m d j) = true ∧ kernbase / pgsize ≤ pteAddr (word m d j)

section Reading
variable {m : Memory} {role : Nat → Role} {p t t' d i j : Nat}

theorem role_of_pde (roles : Roles m role) (dir : role d = .dir) (low : i < 510)
    (isPresent : present (word m d i) = true) : role (pteAddr (word m d i)) = .table d i := by
  refine roles.forest.down d i _ _ ?_ ?_
  · simp [shape, child, dir, low]
  · simp [points, isPresent, show ¬ 510 ≤ i by omega]

theorem pde_of_role (roles : Roles m role) (table : role t = .table d i) :
    role d = .dir ∧ i < 510 ∧ present (word m d i) = true ∧ pteAddr (word m d i) = t := by
  obtain ⟨q, s, slot, there⟩ := roles.forest.up t (by simp [shape, linked, table])
  obtain ⟨dir, rfl, rfl, low⟩ := child_table (table ▸ slot)
  simp only [points, show ¬ 510 ≤ s by omega, and_false, if_false] at there
  split_ifs at there with isPresent
  exact ⟨dir, low, isPresent, Option.some.inj there⟩

theorem role_of_pte (roles : Roles m role) (table : role t = .table d i) (low : j < 512)
    (isPresent : present (word m t j) = true) : role (pteAddr (word m t j)) = .leaf d i j := by
  refine roles.forest.down t j _ _ ?_ ?_
  · simp [shape, child, table, low]
  · simp [points, isPresent, table]

theorem pte_of_role (roles : Roles m role) (leaf : role p = .leaf d i j) :
    ∃ t, role t = .table d i ∧ j < 512 ∧ present (word m t j) = true ∧
      pteAddr (word m t j) = p := by
  obtain ⟨t, s, slot, there⟩ := roles.forest.up p (by simp [shape, linked, leaf])
  obtain ⟨table, rfl, low⟩ := child_leaf (leaf ▸ slot)
  simp only [points, table, reduceCtorEq, false_and, if_false] at there
  split_ifs at there with isPresent
  exact ⟨t, table, low, isPresent, Option.some.inj there⟩

theorem role_of_back (roles : Roles m role) (dir : role d = .dir) :
    role (backPage (word m d 511)) = .pml4 d ∧ role (backPage (word m d 510)) = .pdpt d := by
  have high := (roles.back d 511 dir (by decide) (by decide)).1
  have low := (roles.back d 510 dir (by decide) (by decide)).1
  constructor
  · refine roles.forest.down d 511 _ _ (by simp [shape, child, dir]) ?_
    simp [points, high, dir]
  · refine roles.forest.down d 510 _ _ (by simp [shape, child, dir]) ?_
    simp [points, low, dir]

theorem table_unique (roles : Roles m role) (table : role t = .table d i)
    (table' : role t' = .table d i) : t = t' := by
  obtain ⟨-, -, -, at1⟩ := pde_of_role roles table
  obtain ⟨-, -, -, at2⟩ := pde_of_role roles table'
  rw [← at1, at2]

theorem leaf_unique {q : Nat} (roles : Roles m role) (leaf : role p = .leaf d i j)
    (leaf' : role q = .leaf d i j) : p = q := by
  obtain ⟨t, table, -, -, there⟩ := pte_of_role roles leaf
  obtain ⟨t', table', -, -, there'⟩ := pte_of_role roles leaf'
  rw [← there, ← there', table_unique roles table table']

end Reading

section Updates
variable {m next : Memory} {role : Nat → Role} {p q t d i j flags holder : Nat}

theorem dir_ne_free {d : Nat} (dir : role d = .dir) (isFree : role p = .free) : d ≠ p := by
  rintro rfl
  rw [dir] at isFree
  cases isFree

theorem loose_free : shape.Loose .free p := ⟨id, fun _ => rfl⟩

theorem loose_held : shape.Loose (.held holder) p := ⟨id, fun _ => rfl⟩

theorem parent_role {r role : Role} (slot : child role q j = some r) :
    role = .dir ∨ ∃ d i, role = .table d i := by
  cases role <;> simp [child] at slot ⊢

theorem roles_congr (roles : Roles m role) (freelist : next.freelist = m.freelist)
    (kend : next.kend = m.kend)
    (same : ∀ q, (role q = .dir ∨ ∃ d i, role q = .table d i) → ∀ j, word next q j = word m q j) :
    Roles next role where
  nodup := by rw [freelist]; exact roles.nodup
  free := by rw [freelist]; exact roles.free
  range := by rw [kend]; exact roles.range
  positive := by rw [kend]; exact roles.positive
  forest := forest_congr roles.forest fun q j r slot => by
    rw [same q (parent_role slot)]
  blank t d i j table low := by
    rw [same t (.inr ⟨d, i, table⟩)]
    exact roles.blank t d i j table low
  back d j dir := by
    rw [same d (.inl dir)]
    exact roles.back d j dir

theorem roles_loose {r : Role} (roles : Roles m role) (loose : shape.Loose (role p) p)
    (loose' : shape.Loose r p) (known : role p ≠ .kernel) (kend : next.kend = m.kend)
    (nodup : next.freelist.Nodup)
    (free : ∀ q, q ∈ next.freelist ↔ if q = p then r = .free else role q = .free)
    (same : ∀ q, q ≠ p → ∀ j, word next q j = word m q j) :
    Roles next (Function.update role p r) := by
  have other : ∀ q d i, Function.update role p r q = .dir ∨ Function.update role p r q = .table d i →
      q ≠ p := by
    rintro q d i is rfl
    rw [Function.update_self] at is
    rcases is with rfl | rfl
    · simpa [shape, child] using loose'.2 0
    · simpa [shape, child] using loose'.2 0
  constructor
  · exact nodup
  · intro q
    rw [free, Function.update_apply]
    split_ifs <;> rfl
  · intro q is
    rw [kend]
    by_cases self : q = p
    · exact self ▸ roles.range p known
    · rw [Function.update_of_ne self] at is
      exact roles.range q is
  · rw [kend]
    exact roles.positive
  · refine forest_congr (forest_update roles.forest loose loose') fun q j c slot => ?_
    have away : q ≠ p := by
      rintro rfl
      rw [Function.update_self, loose'.2] at slot
      cases slot
    rw [Function.update_of_ne away, same q away]
  · intro t d i j table low
    have away := other t d i (.inr table)
    rw [Function.update_of_ne away] at table
    rw [same t away]
    exact roles.blank t d i j table low
  · intro d j dir
    have away := other d 0 0 (.inl dir)
    rw [Function.update_of_ne away] at dir
    rw [same d away]
    exact roles.back d j dir

theorem roles_reflag {t page d i j flags flags' : Nat} (roles : Roles m role)
    (table : role t = .table d i) (low : j < 512) (is : word m t j = entry page flags)
    (flagged : flags.testBit 0 = true) (small : flags < 4096) (flagged' : flags'.testBit 0 = true)
    (small' : flags' < 4096) : Roles (m.setWord t j (entry page flags')) role := by
  have leaf := role_of_pte roles table low (by rw [is, present_entry flagged])
  rw [is, pteAddr_entry small] at leaf
  have bound := (roles.range page (by simp [leaf])).2
  have read : ∀ q s, word (m.setWord t j (entry page flags')) q s =
      if q = t ∧ s = j then entry page flags' else word m q s :=
    fun q s => word_setWord low (entry_lt small' bound)
  refine ⟨roles.nodup, roles.free, roles.range, roles.positive, ?_, ?_, ?_⟩
  · refine forest_congr roles.forest fun q s r slot => ?_
    rw [read]
    split_ifs with self
    · obtain ⟨rfl, rfl⟩ := self
      simp only [points, is, present_entry flagged, present_entry flagged', pteAddr_entry small,
        pteAddr_entry small', table, reduceCtorEq, false_and, if_false]
    · rfl
  · intro t' e k s table' inside
    rw [read]
    split_ifs with self
    · rw [present_entry flagged']
      exact fun absent => by cases absent
    · exact roles.blank t' e k s table' inside
  · intro e s dir
    rw [read, if_neg]
    · exact roles.back e s dir
    · rintro ⟨rfl, -⟩
      rw [table] at dir
      cases dir

theorem roles_take {rest : List Nat} (roles : Roles m role) (freelist : m.freelist = p :: rest) :
    Roles { m with freelist := rest } (Function.update role p (.held 0)) := by
  have isFree : role p = .free := (roles.free p).mp (by simp [freelist])
  have nodup := roles.nodup
  rw [freelist, List.nodup_cons] at nodup
  refine roles_loose roles (isFree ▸ loose_free) loose_held (by simp [isFree]) rfl nodup.2 ?_
    fun _ _ _ => rfl
  intro q
  have free := roles.free q
  rw [freelist, List.mem_cons] at free
  by_cases self : q = p
  · subst self
    simpa using nodup.1
  · simpa [self] using free

def freed (m : Memory) (p : Nat) : Memory :=
  { m.setPage p junk with freelist := p :: m.freelist }

theorem roles_give (roles : Roles m role) (isHeld : role p = .held holder) :
    Roles (freed m p) (Function.update role p .free) := by
  have notFree : p ∉ m.freelist := by
    rw [roles.free, isHeld]
    simp
  refine roles_loose roles (isHeld ▸ loose_held) loose_free (by simp [isHeld]) rfl
    (List.nodup_cons.mpr ⟨notFree, roles.nodup⟩) ?_ fun q other j => word_setPage_other other
  intro q
  rw [freed, List.mem_cons, roles.free]
  by_cases self : q = p <;> simp [self]

theorem child_lt {r role : Role} (slot : child role q j = some r) : j < 512 := by
  unfold child at slot
  grind

/-- A page is put into an empty slot of a directory or of a page table; a page that
becomes a page table is zeroed. -/
theorem roles_attach {r : Role} (roles : Roles m role) (isHeld : role p = .held holder)
    (slot : child (role q) q j = some r) (low : role q = .dir → j < 510)
    (absent : present (word m q j) = false) (flagged : flags.testBit 0 = true)
    (small : flags < 4096) (zero : ∀ s, child r p s ≠ none → word m p s = 0) :
    Roles (m.setWord q j (entry p flags)) (Function.update role p r) := by
  have isLinked := child_linked slot
  have apart : q ≠ p := by
    rintro rfl
    rw [isHeld] at slot
    cases slot
  have known : role p ≠ .kernel := by simp [isHeld]
  have read : ∀ q' s, word (m.setWord q j (entry p flags)) q' s =
      if q' = q ∧ s = j then entry p flags else word m q' s :=
    fun q' s => word_setWord (child_lt slot) (entry_lt small (roles.range p known).2)
  have role' := fun q' => Function.update_apply role p r q'
  have direct : ¬ (role q = .dir ∧ 510 ≤ j) := fun ⟨dir, high⟩ => absurd (low dir) (by omega)
  constructor
  · exact roles.nodup
  · intro q'
    change q' ∈ m.freelist ↔ _
    rw [roles.free, role']
    split_ifs with self
    · rw [self, isHeld]
      cases r <;> simp [linked] at isLinked ⊢
    · rfl
  · intro q' is
    by_cases self : q' = p
    · exact self ▸ roles.range p known
    · rw [role', if_neg self] at is
      exact roles.range q' is
  · exact roles.positive
  · refine forest_attach roles.forest slot ?_ (isHeld ▸ loose_held) ?_ ?_ ?_
    · simp [points, absent]
    · rw [role', if_neg apart, read, if_pos ⟨rfl, rfl⟩, points, present_entry flagged,
        pteAddr_entry small]
      simp [direct]
    · intro q' s other old
      rw [role', if_neg other, read, if_neg old]
    · intro s isChild
      rw [read, if_neg (by simp [apart.symm]), zero s isChild]
      rfl
  · intro t d i s table small'
    rw [role'] at table
    rw [read]
    split_ifs with here
    · simp [present_entry flagged]
    · split_ifs at table with self
      · intro _
        rw [self]
        exact zero s (by simp [table, child, small'])
      · exact roles.blank t d i s table small'
  · intro d s dir high small'
    rw [role'] at dir
    split_ifs at dir with self
    · rw [dir] at isLinked
      exact isLinked.elim
    · have away : ¬ (d = q ∧ s = j) := by
        rintro ⟨rfl, rfl⟩
        exact direct ⟨dir, high⟩
      rw [read, if_neg away]
      exact roles.back d s dir high small'

theorem roles_attachTable (roles : Roles m role) (isHeld : role t = .held holder)
    (zero : ∀ j, word m t j = 0) (dir : role d = .dir) (low : i < 510)
    (absent : present (word m d i) = false) (flagged : flags.testBit 0 = true)
    (small : flags < 4096) :
    Roles (m.setWord d i (entry t flags)) (Function.update role t (.table d i)) :=
  roles_attach roles isHeld (by simp [dir, child, low]) (fun _ => low) absent flagged small
    fun s _ => zero s

theorem roles_attachLeaf (roles : Roles m role) (isHeld : role p = .held holder)
    (table : role t = .table d i) (low : j < 512) (absent : present (word m t j) = false)
    (flagged : flags.testBit 0 = true) (small : flags < 4096) :
    Roles (m.setWord t j (entry p flags)) (Function.update role p (.leaf d i j)) :=
  roles_attach roles isHeld (by simp [table, child, low]) (by simp [table]) absent flagged small
    fun _ isChild => (isChild rfl).elim

theorem roles_detachLeaf (roles : Roles m role) (leaf : role p = .leaf d i j)
    (table : role t = .table d i) :
    Roles (m.setWord t j 0) (Function.update role p (.held 0)) := by
  obtain ⟨t', table', low, isPresent, there⟩ := pte_of_role roles leaf
  obtain rfl := table_unique roles table table'
  have known : role p ≠ .kernel := by simp [leaf]
  have read : ∀ q s, word (m.setWord t j 0) q s = if q = t ∧ s = j then 0 else word m q s :=
    fun q s => word_setWord low (by decide)
  have role' := fun q => Function.update_apply role p (.held 0) q
  constructor
  · exact roles.nodup
  · intro q
    change q ∈ m.freelist ↔ _
    rw [roles.free, role']
    split_ifs with self
    · simp [self, leaf]
    · rfl
  · intro q is
    by_cases self : q = p
    · exact self ▸ roles.range p known
    · rw [role', if_neg self] at is
      exact roles.range q is
  · exact roles.positive
  · refine forest_detach (q := t) (s := j) roles.forest ?_ ?_ ?_ loose_held ?_ ?_
    · simp [points, isPresent, table, there]
    · intro s
      simp [leaf, shape, child]
    · intro q s slot
      rw [leaf] at slot
      obtain ⟨table', rfl, -⟩ := child_leaf slot
      exact ⟨table_unique roles table' table, rfl⟩
    · rw [read, if_pos ⟨rfl, rfl⟩]
      rfl
    · intro q s other old
      rw [role', if_neg other, read, if_neg old]
  · intro t' d' i' s table' small
    rw [role'] at table'
    split_ifs at table' with self
    rw [read]
    split_ifs with here
    · exact fun _ => rfl
    · exact roles.blank t' d' i' s table' small
  · intro d' s dir high
    rw [role'] at dir
    split_ifs at dir with self
    have away : ¬ (d' = t ∧ s = j) := by
      rintro ⟨rfl, -⟩
      rw [table] at dir
      cases dir
    rw [read, if_neg away]
    exact roles.back d' s dir high

/-- The back-pointer to a page. -/
def backPointer (p : Nat) : Nat := kernbase + p * pgsize ||| pteP

theorem backPointer_eq (p : Nat) : backPointer p = kernbase + p * 4096 + 1 := by
  have split := Nat.two_pow_add_eq_or_of_lt (i := 12) (b := 1) (by decide) (kernbase / 4096 + p)
  rw [backPointer, pgsize, pteP, show kernbase + p * 4096 = 2 ^ 12 * (kernbase / 4096 + p) by
    simp only [kernbase]; omega]
  exact split.symm

theorem pteAddr_backPointer (p : Nat) : pteAddr (backPointer p) = kernbase / pgsize + p := by
  rw [backPointer_eq, pteAddr]
  simp only [kernbase, pgsize]
  omega

theorem backPage_backPointer (p : Nat) : backPage (backPointer p) = p := by
  rw [backPage, pteAddr_backPointer]
  omega

theorem present_backPointer (p : Nat) : present (backPointer p) = true := by
  have odd : (kernbase + p * 4096 + 1) % 2 = 1 := by
    simp only [kernbase]
    omega
  rw [present, backPointer_eq, Nat.testBit_zero]
  exact decide_eq_true odd

theorem roles_space {u v : Nat} (roles : Roles m role) (heldU : role u = .held 0)
    (heldV : role v = .held 0) (heldD : role d = .held 0) (uv : u ≠ v) (ud : u ≠ d) (vd : v ≠ d)
    (freelist : next.freelist = m.freelist) (kend : next.kend = m.kend)
    (high : word next d 511 = backPointer u) (low : word next d 510 = backPointer v)
    (zero : ∀ j < 510, word next d j = 0)
    (same : ∀ q, q ≠ u → q ≠ v → q ≠ d → ∀ j, word next q j = word m q j) :
    Roles next (Function.update (Function.update (Function.update role d .dir) u (.pml4 d))
      v (.pdpt d)) := by
  have role' : ∀ q, Function.update (Function.update (Function.update role d .dir) u (.pml4 d))
      v (.pdpt d) q = if q = v then .pdpt d else if q = u then .pml4 d else
        if q = d then .dir else role q := by
    intro q
    simp only [Function.update_apply]
  have known : ∀ q, q = v ∨ q = u ∨ q = d → role q ≠ .kernel := by
    rintro q (rfl | rfl | rfl) <;> simp [heldU, heldV, heldD]
  constructor
  · rw [freelist]
    exact roles.nodup
  · intro q
    rw [freelist, roles.free, role']
    split_ifs with isV isU isD
    · simp [isV, heldV]
    · simp [isU, heldU]
    · simp [isD, heldD]
    · rfl
  · intro q is
    rw [kend]
    refine roles.range q ?_
    rw [role'] at is
    split_ifs at is with isV isU isD
    · exact known q (.inl isV)
    · exact known q (.inr (.inl isU))
    · exact known q (.inr (.inr isD))
    · exact is
  · rw [kend]
    exact roles.positive
  · -- The directory is a root; then the two pages behind the back-pointers are attached.
    have root : Forest shape (fun q j => if q = d then none else points (role q) j (word m q j))
        (Function.update role d .dir) :=
      forest_root roles.forest (heldD ▸ loose_held) id (by simp) (by simp +contextual)
    have first : Forest shape (fun q j => if q = d then if j = 511 then some u else none else
        points (role q) j (word m q j))
        (Function.update (Function.update role d .dir) u (.pml4 d)) := by
      refine forest_attach (q := d) (s := 511) root (by simp [shape, child]) (by simp)
        (by simp [ud, heldU, loose_held]) (by simp) ?_ fun _ isChild => (isChild rfl).elim
      intro q j other old
      by_cases here : q = d
      · simp [here, show j ≠ 511 from fun is => old ⟨here, is⟩]
      · simp [here]
    have second : Forest shape (fun q j => if q = d then if j = 510 then some v else
        if j = 511 then some u else none else points (role q) j (word m q j))
        (Function.update (Function.update (Function.update role d .dir) u (.pml4 d))
          v (.pdpt d)) := by
      refine forest_attach (q := d) (s := 510) first (by simp [shape, child, ud.symm]) (by simp)
        (by simp [uv.symm, vd, heldV, loose_held]) (by simp) ?_ fun _ isChild => (isChild rfl).elim
      intro q j other old
      by_cases here : q = d
      · simp [here, show j ≠ 510 from fun is => old ⟨here, is⟩]
      · simp [here]
    refine forest_congr second fun q j r slot => ?_
    have notV : q ≠ v := by
      rintro rfl
      rw [role', if_pos rfl] at slot
      cases slot
    have notU : q ≠ u := by
      rintro rfl
      rw [role', if_neg notV, if_pos rfl] at slot
      cases slot
    rw [role', if_neg notV, if_neg notU] at slot ⊢
    by_cases isD : q = d
    · subst isD
      have bound := child_lt slot
      by_cases is510 : j = 510
      · simp [is510, low, points, present_backPointer, backPage_backPointer]
      · by_cases is511 : j = 511
        · simp [is511, high, points, present_backPointer, backPage_backPointer]
        · simp [is510, is511, zero j (by omega), points, present]
    · simp only [if_neg isD]
      rw [same q notU notV isD]
  · intro t d' i j table small
    rw [role'] at table
    split_ifs at table with isV isU isD
    rw [same t isU isV isD]
    exact roles.blank t d' i j table small
  · intro d' j dir big small
    rw [role'] at dir
    split_ifs at dir with isV isU isD
    · subst isD
      obtain rfl | rfl : j = 510 ∨ j = 511 := by omega
      · rw [low]
        exact ⟨present_backPointer v, by rw [pteAddr_backPointer]; omega⟩
      · rw [high]
        exact ⟨present_backPointer u, by rw [pteAddr_backPointer]; omega⟩
    · rw [same d' isU isV isD]
      exact roles.back d' j dir big small

/-- Whether a role is one in the address space of d. -/
def belongs (d : Nat) : Role → Bool
  | .table e _ | .leaf e _ _ | .pml4 e | .pdpt e => e == d
  | _ => false

/-- The address space of d is given up: its pages are in no page table any more. -/
def retired (role : Nat → Role) (d q : Nat) : Role :=
  if q = d ∨ belongs d (role q) then .held 0 else role q

theorem roles_retire (roles : Roles m role) (dir : role d = .dir) : Roles m (retired role d) := by
  have known : ∀ q, (q = d ∨ belongs d (role q)) → role q ≠ .kernel ∧ role q ≠ .free := by
    rintro q (rfl | mine)
    · simp [dir]
    · constructor <;> intro is <;> simp [is, belongs] at mine
  have kept : ∀ q r, retired role d q = r → r ≠ .held 0 → role q = r ∧
      ¬ (q = d ∨ belongs d (role q)) := by
    intro q r is other
    rw [retired] at is
    split_ifs at is with mine
    · exact (other is.symm).elim
    · exact ⟨is, mine⟩
  constructor
  · exact roles.nodup
  · intro q
    rw [roles.free, retired]
    split_ifs with mine
    · simp [(known q mine).2]
    · rfl
  · intro q is
    refine roles.range q ?_
    rw [retired] at is
    split_ifs at is with mine
    · exact (known q mine).1
    · exact is
  · exact roles.positive
  · refine forest_prune roles.forest (fun q => q = d ∨ belongs d (role q) = true) ?_
      (fun q other => if_neg other) (fun q mine => ?_) (fun q s other => ?_)
    · intro q s r p slot there
      have is := roles.forest.down q s r p slot there
      have notDir : p ≠ d := by
        rintro rfl
        rw [dir] at is
        exact (is ▸ child_linked slot : linked .dir)
      rw [is]
      simp only [notDir, false_or]
      change child (role q) q s = some r at slot
      unfold child at slot
      grind [belongs]
    · rw [retired, if_pos mine]
      exact loose_held
    · rw [retired, if_neg other]
  · intro t d' i j table small
    obtain ⟨is, -⟩ := kept t _ table (by simp)
    exact roles.blank t d' i j is small
  · intro d' j isDir big small
    obtain ⟨is, -⟩ := kept d' _ isDir (by simp)
    exact roles.back d' j is big small

end Updates

end Xv6.VmSpec
