import Xv6.PageTables
import Xv6.Transition

/-! Address spaces over their whole life: created by setupkvm or copyuvm, changed by
allocuvm and deallocuvm, destroyed by freevm. A page that a call takes from the free
list is charged to the address space of that call until it is free again. freevm gives
back the directory, the page tables and the user pages below its limit, and never the
two pages behind the back-pointers. -/
namespace Xv6.AddressSpaces
open TraceMonad Vm VmSpec PageTables Transition

/-- Any event and any panic: only the states reached matter. -/
def anything : Contract Event Panic := ⟨fun _ => True, fun _ => True, fun _ => True⟩

/-- The roles that a call on the address space of d may change. -/
def own (d : Nat) : Role → Bool
  | .free => true
  | .table e _ | .leaf e _ _ => e == d
  | _ => false

def Local (d : Nat) (role role' : Nat → Role) : Prop :=
  ∀ q, role' q = role q ∨ own d (role q) = true ∧ (own d (role' q) = true ∨ role' q = .held 0)

section Locality
variable {d : Nat} {role middle role' : Nat → Role}

theorem local_refl : Local d role role := fun _ => .inl rfl

theorem local_trans (first : Local d role middle) (second : Local d middle role') :
    Local d role role' := by
  intro q
  have one := first q
  have two := second q
  grind [own]

theorem local_dir (change : Local d role role') {e : Nat} (dir : role e = .dir) :
    role' e = .dir := by
  have here := change e
  grind [own]

theorem local_other (change : Local d role role') {q : Nat} (other : own d (role q) = false) :
    role' q = role q := by
  rcases change q with same | ⟨mine, -⟩
  · exact same
  · rw [other] at mine
    cases mine

theorem local_free {p : Nat} (leaf : own d (role p) = true) :
    Local d role (Function.update role p .free) := by
  intro q
  by_cases self : q = p
  · rw [self, Function.update_self]
    exact .inr ⟨leaf, .inl rfl⟩
  · exact .inl (Function.update_of_ne self ..)

end Locality

section Calls
variable {m : Memory} {role : Nat → Role} {d a oldsz newsz fuel count : Nat}

/-- What a call on the address space of d leaves behind. -/
def Changed (m : Memory) (role : Nat → Role) (d : Nat) (next : Memory) : Prop :=
  ∃ role', Roles next role' ∧ Local d role role' ∧ Fixed m next

theorem changed_refl (roles : Roles m role) : Changed m role d m :=
  ⟨role, roles, local_refl, fixed_refl m⟩

theorem changed_trans {middle next : Memory} {role' : Nat → Role} (change : Local d role role')
    (fixed : Fixed m middle) (later : Changed middle role' d next) : Changed m role d next := by
  obtain ⟨last, roles, change', fixed'⟩ := later
  exact ⟨last, roles, local_trans change change', fixed_trans fixed fixed'⟩

/-- The contents of the pages that a call on the address space of d leaves alone. -/
def Spared (m next : Memory) (role : Nat → Role) (d : Nat) : Prop :=
  ∀ q, q ≠ d → own d (role q) = false → role q ≠ .kernel → next.page q = m.page q

theorem spared_trans {middle next : Memory} {role' : Nat → Role} (change : Local d role role')
    (first : Spared m middle role d) (second : Spared middle next role' d) :
    Spared m next role d := by
  intro q notDir other known
  have same := local_other change other
  rw [second q notDir (by rw [same, other]) (by rw [same]; exact known), first q notDir other known]

/-- What a call leaves behind, the contents of all other pages included. -/
def Spares (m : Memory) (role : Nat → Role) (d : Nat) (next : Memory) : Prop :=
  ∃ role', Roles next role' ∧ Local d role role' ∧ Fixed m next ∧ Spared m next role d

theorem spares_refl (roles : Roles m role) : Spares m role d m :=
  ⟨role, roles, local_refl, fixed_refl m, fun _ _ _ _ => rfl⟩

theorem spares_trans {middle next : Memory} {role' : Nat → Role} (change : Local d role role')
    (fixed : Fixed m middle) (spared : Spared m middle role d) (later : Spares middle role' d next) :
    Spares m role d next := by
  obtain ⟨last, roles, change', fixed', spared'⟩ := later
  exact ⟨last, roles, local_trans change change', fixed_trans fixed fixed',
    spared_trans change spared spared'⟩

theorem changed_of_spares {next : Memory} (spares : Spares m role d next) :
    Changed m role d next := by
  obtain ⟨role', roles, change, fixed, -⟩ := spares
  exact ⟨role', roles, change, fixed⟩

theorem deallocLoop_spares (roles : Roles m role) (dir : role d = .dir) :
    Ensures anything (deallocLoop d oldsz fuel a) m fun _ next => Spares m role d next := by
  induction fuel generalizing m role a with
  | zero => exact ensures_pure (spares_refl roles)
  | succ fuel ih =>
    by_cases finished : oldsz ≤ a
    · rw [deallocLoop, if_pos finished]
      exact ensures_pure (spares_refl roles)
    · rcases dealloc_cases fuel roles dir (by omega : a < oldsz) with ⟨-, run⟩ | ⟨-, -, run⟩ |
        ⟨-, -, -, run⟩ | ⟨-, -, p, next, leaf, roles', fixed, unmapped, run⟩
      · exact ensures_of_halt run (fun _ _ _ => trivial) trivial
      · exact ensures_of_eq run (ih roles dir)
      · exact ensures_of_eq run (ih roles dir)
      · have change : Local d role (Function.update role p .free) :=
          local_free (by simp [leaf, own])
        have spared : Spared m next role d := by
          intro q _ other _
          refine unmapped.pages q ?_ fun i table => ?_
          · rintro rfl
            simp [leaf, own] at other
          · simp [table, own] at other
        refine ensures_of_eq run (ensures_weaken (ih roles' (local_dir change dir)) ?_)
        exact fun _ _ later => spares_trans change fixed spared later

theorem deallocuvm_spares (roles : Roles m role) (dir : role d = .dir) :
    Ensures anything (deallocuvm d oldsz newsz) m fun _ next => Spares m role d next := by
  rw [deallocuvm]
  split
  · exact ensures_pure (spares_refl roles)
  · exact ensures_then (deallocLoop_spares roles dir) fun _ _ spares => ensures_pure spares

theorem spared_written {pte : Nat} {next : Memory} (roles : Roles m role) (dir : role d = .dir)
    (low : pdx a < 510) (written : Written m next d a pte) : Spared m next role d := by
  intro q notDir other known
  rcases written with ⟨isPresent, -, rfl⟩ | ⟨t, rest, -, freelist, rfl⟩
  · refine if_neg ?_
    rintro rfl
    simp [role_of_pde roles dir low isPresent, own] at other
  · have isFree : role t = .free := (roles.free t).mp (by simp [freelist])
    have apart : q ≠ t := by
      rintro rfl
      simp [isFree, own] at other
    exact (if_neg apart).trans ((if_neg notDir).trans (if_neg apart))

theorem map_spares {p perm : Nat} {rest : List Nat} {content : Page} {α : Type}
    {next : Bool → VmM α} {post : α → Memory → Prop} (roles : Roles m role) (dir : role d = .dir)
    (freelist : m.freelist = p :: rest) (aligned : a % pgsize = 0) (small : perm < 4096)
    (continues : ∀ mapped after role', Roles after role' → Local d role role' → Fixed m after →
      Spared m after role d → Ensures anything (next mapped) after post) :
    Ensures anything (mappages d a pgsize p perm >>= next)
      (({ m with freelist := rest }).setPage p content) post := by
  have isFree : role p = .free := (roles.free p).mp (by simp [freelist])
  have notDir : d ≠ p := by
    rintro rfl
    rw [dir] at isFree
    cases isFree
  have taken : Roles (({ m with freelist := rest }).setPage p content)
      (Function.update role p (.held 0)) :=
    roles_setPage (roles_take roles freelist) (Function.update_self ..)
  have start : Local d role (Function.update role p (.held 0)) := by
    intro q
    by_cases self : q = p
    · exact .inr ⟨by simp [self, isFree, own], .inr (by simp [self])⟩
    · exact .inl (Function.update_of_ne self ..)
  have filled : Spared m (({ m with freelist := rest }).setPage p content) role d := by
    intro q _ other _
    refine if_neg ?_
    rintro rfl
    simp [isFree, own] at other
  rcases map_cases taken (by rw [Function.update_of_ne notDir, dir]) (Function.update_self ..)
    aligned small with ⟨-, run⟩ | ⟨-, -, run⟩ | ⟨-, -, -, run⟩ | ⟨low, after, role', run, roles',
      fixed, leaf, others, written⟩
  · exact ensures_bind (ensures_of_halt run (fun _ _ _ => trivial) trivial)
  · exact ensures_bind (ensures_of_halt run (fun _ _ _ => trivial) trivial)
  · exact ensures_quiet_then run (continues false _ _ taken start ⟨rfl, rfl, rfl⟩ filled)
  · have spared := spared_trans start filled
      (spared_written taken (by rw [Function.update_of_ne notDir, dir]) low written)
    refine ensures_quiet_then run (continues true _ _ roles' ?_ ⟨fixed.kend, fixed.kpdpt,
      fixed.cr3⟩ spared)
    intro q
    by_cases self : q = p
    · exact .inr ⟨by simp [self, isFree, own], .inl (by simp [self, leaf, own])⟩
    · rcases others q self with same | ⟨wasFree, table⟩
      · exact .inl (same.trans (Function.update_of_ne self ..))
      · rw [Function.update_of_ne self] at wasFree
        exact .inr ⟨by simp [wasFree, own], .inl (by simp [table, own])⟩

theorem allocLoop_spares (roles : Roles m role) (dir : role d = .dir)
    (aligned : a % pgsize = 0) :
    Ensures anything (allocLoop d oldsz newsz count a) m fun _ next => Spares m role d next := by
  induction count generalizing m role a with
  | zero => exact ensures_pure (spares_refl roles)
  | succ count ih =>
    rw [allocLoop]
    cases freelist : m.freelist with
    | nil =>
      refine ensures_quiet_then (kalloc_nil freelist) ?_
      exact ensures_then (deallocuvm_spares roles dir) fun _ _ spares => ensures_pure spares
    | cons p rest =>
      refine ensures_quiet_then (kalloc_cons freelist) (ensures_change_then ?_)
      refine map_spares roles dir freelist aligned (by decide) ?_
      intro mapped after role' roles' change fixed spared
      have next : (a + pgsize) % pgsize = 0 := by
        simp only [pgsize] at aligned ⊢
        omega
      exact ensures_weaken (ih roles' (local_dir change dir) next) fun _ _ later =>
        spares_trans change fixed spared later

theorem allocuvm_spares (roles : Roles m role) (dir : role d = .dir) :
    Ensures anything (allocuvm d oldsz newsz) m fun _ next => Spares m role d next := by
  rw [allocuvm]
  split
  · exact ensures_pure (spares_refl roles)
  · split
    · exact ensures_pure (spares_refl roles)
    · exact allocLoop_spares roles dir (by simp only [pgroundup]; exact Nat.mul_mod_left ..)

theorem copyLoop_changed {c i : Nat} (roles : Roles m role) (dir : role c = .dir)
    (aligned : i % pgsize = 0) :
    Ensures anything (copyLoop d c count i) m fun result next =>
      match result with
      | some made => made = c ∧ Changed m role c next
      | none => ∃ role', Roles next (destroyed role' c) ∧ Local c role role' ∧ Fixed m next := by
  induction count generalizing m role i with
  | zero => exact ensures_pure ⟨rfl, changed_refl roles⟩
  | succ count ih =>
    have destroy : ∀ {after role'}, Roles after role' → Local c role role' → Fixed m after →
        Ensures anything (freevm c >>= fun _ => pure none) after fun result next =>
          match result with
          | some made => made = c ∧ Changed m role c next
          | none => ∃ role', Roles next (destroyed role' c) ∧ Local c role role' ∧
              Fixed m next := by
      intro after role' roles' change fixed
      obtain ⟨next, run, gone, fixed'⟩ := freevm_run roles' (local_dir change dir)
      exact ensures_quiet_then run
        (ensures_pure ⟨role', gone, change, fixed_trans fixed fixed'⟩)
    rw [copyLoop]
    cases isPresent : present (word m d (pdx i)) with
    | false =>
      exact ensures_quiet_then (walk_absent isPresent) (ensures_halt trivial)
    | true =>
      refine ensures_quiet_then (walk_present isPresent) ?_
      by_cases inside : pteAddr (word m d (pdx i)) < linearPages
      · refine ensures_quiet_then (load_run inside) ?_
        split
        · exact ensures_halt trivial
        · cases freelist : m.freelist with
          | nil =>
            exact ensures_quiet_then (kalloc_nil freelist)
              (destroy roles local_refl (fixed_refl m))
          | cons p rest =>
            refine ensures_quiet_then (kalloc_cons freelist) ?_
            dsimp only
            split
            · exact ensures_halt trivial
            · refine ensures_inspect_then (ensures_change_then ?_)
              refine map_spares roles dir freelist aligned (Nat.mod_lt _ (by decide)) ?_
              intro mapped after role' roles' change fixed _
              cases mapped with
              | false => exact destroy roles' change fixed
              | true =>
                have next : (i + pgsize) % pgsize = 0 := by
                  simp only [pgsize] at aligned ⊢
                  omega
                refine ensures_weaken (ih roles' (local_dir change dir) next) ?_
                rintro (_ | made) last later
                · obtain ⟨role'', gone, change', fixed'⟩ := later
                  exact ⟨role'', gone, local_trans change change', fixed_trans fixed fixed'⟩
                · exact ⟨later.1, changed_trans change fixed later.2⟩
      · exact ensures_bind (ensures_of_halt (load_trap (by omega)) (fun _ _ _ => trivial)
          trivial)

theorem ensures_anything {α : Type} {action : VmM α} : Ensures anything action m fun _ _ => True := by
  intro _
  refine ⟨fun _ _ => trivial, ?_⟩
  cases (action m).1 <;> trivial

theorem reached {α : Type} {action : VmM α} {post : α → Memory → Prop} {value : α} {next : Memory}
    (holds : Ensures anything action m post) (run : (action m).1 = .done value next) :
    post value next :=
  (ensures_outcome holds fun _ _ => trivial).2.1 value next run

/-- setupkvm after its three calls of kalloc. -/
def fillSpace (pml4 pdpt pgdir : Option Nat) : VmM (Option Nat) := do
  let pml4Page ← target pml4
  setPage pml4Page 0
  let pdptPage ← target pdpt
  setPage pdptPage 0
  let pgdirPage ← target pgdir
  setPage pgdirPage 0
  let kpdpt ← inspect (·.kpdpt)
  setWord pml4Page 511 (entry kpdpt (pteP ||| pteW ||| pteU))
  setWord pml4Page 0 (v2p pdpt ||| (pteP ||| pteW ||| pteU))
  setWord pdptPage 0 (v2p pgdir ||| (pteP ||| pteW ||| pteU))
  setWord pgdirPage 511 (address pml4 ||| pteP)
  setWord pgdirPage 510 (address pdpt ||| pteP)
  pure pgdir

theorem setupkvm_fill (short : m.freelist.length < 3) : ∃ pml4 pdpt,
    setupkvm m = fillSpace pml4 pdpt none { m with freelist := [] } ∧
      ∀ page, pml4 = some page ∨ pdpt = some page → page ∈ m.freelist := by
  have start : setupkvm = kalloc >>= fun pml4 => kalloc >>= fun pdpt => kalloc >>= fun pgdir =>
    fillSpace pml4 pdpt pgdir := rfl
  rw [start]
  match freelist : m.freelist with
  | [] =>
    have same : { m with freelist := [] } = m := by rw [← freelist]
    refine ⟨none, none, ?_, by simp⟩
    rw [bind_quiet (kalloc_nil freelist), bind_quiet (kalloc_nil freelist),
      bind_quiet (kalloc_nil freelist), same]
  | [u] =>
    refine ⟨some u, none, ?_, by simp⟩
    rw [bind_quiet (kalloc_cons freelist), bind_quiet (kalloc_nil rfl), bind_quiet (kalloc_nil rfl)]
  | [u, v] =>
    refine ⟨some u, some v, ?_, by simp [eq_comm]⟩
    rw [bind_quiet (kalloc_cons freelist), bind_quiet (kalloc_cons rfl), bind_quiet (kalloc_nil rfl)]
  | u :: v :: d :: rest =>
    rw [freelist] at short
    simp at short
    omega

theorem setupkvm_short (short : m.freelist.length < 3) :
    Ensures anything setupkvm m fun result _ => result = none := by
  obtain ⟨pml4, pdpt, run, -⟩ := setupkvm_fill short
  refine ensures_of_eq run ?_
  refine ensures_then ensures_anything fun _ _ _ => ensures_change_then ?_
  refine ensures_then ensures_anything fun _ _ _ => ensures_change_then ?_
  refine ensures_then ensures_anything fun _ _ _ => ensures_change_then ?_
  exact ensures_inspect_then (ensures_change_then (ensures_change_then (ensures_change_then
    (ensures_change_then (ensures_change_then (ensures_pure rfl))))))

theorem enough_of_setup {c : Nat} {next : Memory} (run : (setupkvm m).1 = .done (some c) next) :
    ∃ u v d rest, m.freelist = u :: v :: d :: rest := by
  match freelist : m.freelist with
  | u :: v :: d :: rest => exact ⟨u, v, d, rest, rfl⟩
  | [] | [_] | [_, _] =>
    have none := reached (setupkvm_short (by simp [freelist])) run
    cases none

theorem enough_of_copy {c size : Nat} {next : Memory}
    (run : (copyuvm d size m).1 = .done (some c) next) :
    ∃ u v e rest, m.freelist = u :: v :: e :: rest := by
  match freelist : m.freelist with
  | u :: v :: e :: rest => exact ⟨u, v, e, rest, rfl⟩
  | [] | [_] | [_, _] =>
    have short : Ensures anything (copyuvm d size) m fun result _ => result = none := by
      rw [copyuvm]
      refine ensures_then (setupkvm_short (by simp [freelist])) fun result after null => ?_
      subst null
      exact ensures_pure rfl
    cases reached short run

end Calls

/-- The live address spaces and the space to which each page is charged. -/
structure Spaces where
  mem : Memory
  live : List Nat
  owner : Nat → Option Nat

/-- The pages a call took from the free list are charged to d, the pages it gave back
to nobody. -/
def charge (before after : Memory) (d : Nat) (owner : Nat → Option Nat) (p : Nat) : Option Nat :=
  if p ∈ before.freelist then if p ∈ after.freelist then owner p else some d
  else if p ∈ after.freelist then none else owner p

inductive Call where
  | setupkvm
  | allocuvm (d oldsz newsz : Nat)
  | deallocuvm (d oldsz newsz : Nat)
  | copyuvm (d size : Nat)
  | freevm (d : Nat)

/-- A call that succeeds. allocuvm reports failure by 0, the others by a null pointer. -/
def step (s : Spaces) : Call → Option Spaces
  | .setupkvm =>
    match (Vm.setupkvm s.mem).1 with
    | .done (some d) after => some ⟨after, d :: s.live, charge s.mem after d s.owner⟩
    | _ => none
  | .allocuvm d oldsz newsz =>
    if d ∈ s.live then
      match (Vm.allocuvm d (oldsz % 2 ^ 32) (newsz % 2 ^ 32) s.mem).1 with
      | .done size after =>
        if size = 0 then none else some ⟨after, s.live, charge s.mem after d s.owner⟩
      | _ => none
    else none
  | .deallocuvm d oldsz newsz =>
    if d ∈ s.live then
      match (Vm.deallocuvm d (oldsz % 2 ^ 64) (newsz % 2 ^ 64) s.mem).1 with
      | .done _ after => some ⟨after, s.live, charge s.mem after d s.owner⟩
      | _ => none
    else none
  | .copyuvm d size =>
    if d ∈ s.live then
      match (Vm.copyuvm d (size % 2 ^ 32) s.mem).1 with
      | .done (some c) after => some ⟨after, c :: s.live, charge s.mem after c s.owner⟩
      | _ => none
    else none
  | .freevm d =>
    if d ∈ s.live then
      match (Vm.freevm d s.mem).1 with
      | .done _ after =>
        some ⟨after, s.live.erase d, fun p => if s.owner p = some d then none else
          charge s.mem after d s.owner p⟩
      | _ => none
    else none

/-- Before the first address space: the pages on the free list are distinct and kfree
would accept them. -/
structure Start (s : Spaces) : Prop where
  nodup : s.mem.freelist.Nodup
  range : ∀ p ∈ s.mem.freelist, s.mem.kend ≤ p ∧ p < physPages
  positive : 0 < s.mem.kend
  live : s.live = []
  owner : ∀ p, s.owner p = none

/-- A role in the address space of d, or the directory itself. -/
def Part (d p : Nat) (r : Role) : Prop := belongs d r = true ∨ r = .dir ∧ p = d

structure Inv (s : Spaces) (role : Nat → Role) : Prop where
  roles : Roles s.mem role
  nodup : s.live.Nodup
  live : ∀ d, d ∈ s.live ↔ role d = .dir
  charged : ∀ p d, s.owner p = some d → Part d p (role p) ∨ role p = .held 0
  parts : ∀ p d, Part d p (role p) → s.owner p = some d

theorem start_roles {s : Spaces} (start : Start s) :
    Inv s fun p => if p ∈ s.mem.freelist then .free else .kernel := by
  have notDir : ∀ p, (if p ∈ s.mem.freelist then Role.free else .kernel) ≠ .dir := by
    intro p
    split_ifs <;> simp
  constructor
  · constructor
    · exact start.nodup
    · intro p
      split_ifs with inside <;> simp [inside]
    · intro p is
      split_ifs at is with inside
      · exact start.range p inside
      · exact (is rfl).elim
    · exact start.positive
    · constructor
      · intro q j r p slot
        split_ifs at slot <;> cases slot
      · intro p isLinked
        split_ifs at isLinked <;> exact isLinked.elim
    · intro t d i j table
      split_ifs at table
    · intro d j dir
      exact (notDir d dir).elim
  · simp [start.live]
  · intro d
    simp [start.live, notDir d]
  · intro p d charged
    simp [start.owner p] at charged
  · rintro p d (mine | ⟨dir, -⟩)
    · split_ifs at mine <;> cases mine
    · exact (notDir p dir).elim

section Parts
variable {d : Nat}

theorem part_unique {r : Role} {e p : Nat} (mine : Part e p r) (theirs : Part d p r) : e = d := by
  cases r <;> simp_all [Part, belongs]

theorem owner_unique {r : Role} {e : Nat} (mine : own d r = true) (theirs : belongs e r = true) :
    e = d := by
  cases r <;> simp_all [own, belongs]

theorem dir_of_belongs {m : Memory} {role : Nat → Role} {q : Nat} (roles : Roles m role)
    (mine : belongs d (role q) = true) : role d = .dir := by
  cases is : role q with
  | table e i =>
    obtain rfl : e = d := by simpa [is, belongs] using mine
    exact (pde_of_role roles is).1
  | leaf e i j =>
    obtain rfl : e = d := by simpa [is, belongs] using mine
    obtain ⟨t, table, -⟩ := pte_of_role roles is
    exact (pde_of_role roles table).1
  | pml4 e =>
    obtain rfl : e = d := by simpa [is, belongs] using mine
    obtain ⟨t, s, slot, -⟩ := roles.forest.up q (by simp [shape, linked, is])
    obtain ⟨dir, rfl, -⟩ := child_pml4 (is ▸ slot)
    exact dir
  | pdpt e =>
    obtain rfl : e = d := by simpa [is, belongs] using mine
    obtain ⟨t, s, slot, -⟩ := roles.forest.up q (by simp [shape, linked, is])
    obtain ⟨dir, rfl, -⟩ := child_pdpt (is ▸ slot)
    exact dir
  | _ =>
    rw [is] at mine
    cases mine

theorem own_cases {r : Role} (mine : own d r = true) : r = .free ∨ belongs d r = true := by
  cases r <;> simp_all [own, belongs]

theorem destroyed_part {role : Nat → Role} {q : Nat} (part : Part d q (role q)) :
    destroyed role d q = .free ∨ destroyed role d q = .held 0 := by
  unfold destroyed Part at *
  grind [belongs]

theorem destroyed_other {role : Nat → Role} {q : Nat} (other : ¬ Part d q (role q)) :
    destroyed role d q = role q := by
  unfold destroyed Part at *
  grind [belongs]

end Parts

section Creation
variable {m : Memory} {role : Nat → Role} {u v c : Nat} {rest : List Nat}

theorem created_space (roles : Roles m role) (freelist : m.freelist = u :: v :: c :: rest) :
    Roles (withSpace m u v c rest) (created role u v c) ∧ role c = .free ∧
      created role u v c c = .dir ∧ ∀ q, created role u v c q = role q ∨ role q = .free ∧
        (Part c q (created role u v c q) ∨ created role u v c q = .held 0) := by
  obtain ⟨roles', uv, uc, vc⟩ := roles_withSpace roles freelist
  have free : ∀ q, q = u ∨ q = v ∨ q = c → role q = .free := by
    rintro q (rfl | rfl | rfl) <;> exact (roles.free _).mp (by simp [freelist])
  refine ⟨roles', free c (by simp), by simp [created, uc.symm, vc.symm], fun q => ?_⟩
  have here := free q
  unfold created Part
  grind [belongs]

theorem copyuvm_created {d size : Nat} (roles : Roles m role)
    (freelist : m.freelist = u :: v :: c :: rest) :
    Ensures anything (copyuvm d size) m fun result next =>
      match result with
      | some made => made = c ∧ ∃ role', Roles next role' ∧ role c = .free ∧ role' c = .dir ∧
          ∀ q, role' q = role q ∨ role q = .free ∧ (Part c q (role' q) ∨ role' q = .held 0)
      | none => ∃ role', Roles next role' ∧
          ∀ q, role' q = role q ∨ role q = .free ∧ role' q = .held 0 := by
  obtain ⟨roles', fresh, dir, change⟩ := created_space roles freelist
  have alien : ∀ q, belongs c (role q) ≠ true := by
    intro q mine
    rw [dir_of_belongs roles mine] at fresh
    cases fresh
  rw [copyuvm]
  refine ensures_quiet_then (setupkvm_run freelist) ?_
  refine ensures_weaken (copyLoop_changed roles' dir rfl) ?_
  rintro (_ | made) next later
  · obtain ⟨last, gone, change', -⟩ := later
    refine ⟨destroyed last c, gone, fun q => ?_⟩
    have first := change q
    have second := change' q
    have known := alien q
    by_cases part : Part c q (last q)
    · have lost := destroyed_part part
      grind [Part, own, belongs, own_cases]
    · rw [destroyed_other part]
      grind [Part, own, belongs, own_cases]
  · obtain ⟨rfl, last, roles'', change', -⟩ := later
    refine ⟨rfl, last, roles'', fresh, local_dir change' dir, fun q => ?_⟩
    have first := change q
    have second := change' q
    have known := alien q
    grind [Part, own, belongs, own_cases]

end Creation

section Steps
variable {s next : Spaces} {role role' : Nat → Role} {after : Memory} {d : Nat}

theorem inv_local (inv : Inv s role) (roles : Roles after role')
    (change : Local d role role') :
    Inv ⟨after, s.live, charge s.mem after d s.owner⟩ role' := by
  have before := inv.roles.free
  have now := roles.free
  have charged := inv.charged
  have parts := inv.parts
  refine ⟨roles, inv.nodup, fun e => ?_, fun p e => ?_, fun p e => ?_⟩
  · rw [inv.live]
    have here := change e
    grind [own]
  · simp only [charge, before, now]
    have here := change p
    have was := charged p e
    grind [Part, own, belongs, own_cases, owner_unique]
  · simp only [charge, before, now]
    have here := change p
    have was := parts p e
    grind [Part, own, belongs, own_cases, owner_unique]

theorem inv_created {c : Nat} (inv : Inv s role) (fresh : role c = .free) (dir : role' c = .dir)
    (roles : Roles after role')
    (change : ∀ q, role' q = role q ∨ role q = .free ∧
      (Part c q (role' q) ∨ role' q = .held 0)) :
    Inv ⟨after, c :: s.live, charge s.mem after c s.owner⟩ role' := by
  have before := inv.roles.free
  have now := roles.free
  have notLive : c ∉ s.live := by
    rw [inv.live, fresh]
    simp
  refine ⟨roles, List.nodup_cons.mpr ⟨notLive, inv.nodup⟩, fun e => ?_, fun p e => ?_,
    fun p e => ?_⟩
  · rw [List.mem_cons, inv.live]
    have here := change e
    grind [Part, belongs]
  · simp only [charge, before, now]
    have here := change p
    have was := inv.charged p e
    grind [Part, belongs]
  · simp only [charge, before, now]
    have here := change p
    have was := inv.parts p e
    intro part
    have unique : Part c p (role' p) → e = c := part_unique part
    grind [Part, belongs]

theorem inv_destroyed (inv : Inv s role) (dir : role d = .dir)
    (roles : Roles after (destroyed role d)) :
    Inv ⟨after, s.live.erase d, fun p => if s.owner p = some d then none else
      charge s.mem after d s.owner p⟩ (destroyed role d) := by
  have before := inv.roles.free
  have now := roles.free
  have gone : ∀ q, destroyed role d q = role q ∧ ¬ Part d q (role q) ∨ Part d q (role q) ∧
      (destroyed role d q = .free ∨ destroyed role d q = .held 0) := by
    intro q
    by_cases part : Part d q (role q)
    · exact .inr ⟨part, destroyed_part part⟩
    · exact .inl ⟨destroyed_other part, part⟩
  refine ⟨roles, inv.nodup.erase d, fun e => ?_, fun p e => ?_, fun p e => ?_⟩
  · rw [inv.nodup.mem_erase_iff, inv.live]
    have here := gone e
    have self : destroyed role d d = .free := by simp [destroyed, dir]
    grind [Part, belongs]
  · simp only [charge, before, now]
    have here := gone p
    have was := inv.charged p e
    have mine := inv.parts p d
    grind
  · simp only [charge, before, now]
    have here := gone p
    have was := inv.parts p e
    intro part
    have held : ∀ r, r = .free ∨ r = .held 0 → ¬ Part e p r := by
      rintro r (rfl | rfl) (mine | ⟨mine, -⟩) <;> cases mine
    grind

theorem step_inv {call : Call} (inv : Inv s role) (stepped : step s call = some next) :
    ∃ role', Inv next role' := by
  cases call with
  | setupkvm =>
    simp only [step] at stepped
    split at stepped
    next c after run =>
      cases stepped
      obtain ⟨u, v, d, rest, freelist⟩ := enough_of_setup run
      rw [setupkvm_run freelist] at run
      cases run
      obtain ⟨roles, fresh, dir, change⟩ := created_space inv.roles freelist
      exact ⟨_, inv_created inv fresh dir roles change⟩
    next => cases stepped
  | allocuvm d oldsz newsz =>
    simp only [step] at stepped
    split_ifs at stepped with alive
    split at stepped
    next size after run =>
      split_ifs at stepped
      cases stepped
      obtain ⟨role', roles, change, -⟩ :=
        reached (allocuvm_spares inv.roles ((inv.live d).mp alive)) run
      exact ⟨role', inv_local inv roles change⟩
    next => cases stepped
  | deallocuvm d oldsz newsz =>
    simp only [step] at stepped
    split_ifs at stepped with alive
    split at stepped
    next size after run =>
      cases stepped
      obtain ⟨role', roles, change, -⟩ :=
        reached (deallocuvm_spares inv.roles ((inv.live d).mp alive)) run
      exact ⟨role', inv_local inv roles change⟩
    next => cases stepped
  | copyuvm d size =>
    simp only [step] at stepped
    split_ifs at stepped with alive
    split at stepped
    next c after run =>
      cases stepped
      obtain ⟨u, v, e, rest, freelist⟩ := enough_of_copy run
      obtain ⟨rfl, role', roles, fresh, dir, change⟩ :=
        reached (copyuvm_created inv.roles freelist) run
      exact ⟨role', inv_created inv fresh dir roles change⟩
    next => cases stepped
  | freevm d =>
    simp only [step] at stepped
    split_ifs at stepped with alive
    have dir := (inv.live d).mp alive
    obtain ⟨after, run, roles, -⟩ := freevm_run inv.roles dir
    rw [run] at stepped
    cases stepped
    exact ⟨_, inv_destroyed inv dir roles⟩

end Steps

theorem run_inv {s final : Spaces} {calls : List Call} (start : Start s)
    (run : exec step s calls = some final) : ∃ role, Inv final role :=
  exec_preserves (fun s => ∃ role, Inv s role)
    (fun _ _ _ ⟨_, inv⟩ stepped => step_inv inv stepped) ⟨_, start_roles start⟩ run

section Views
variable {m : Memory} {role : Nat → Role} {d p i k : Nat}

theorem tableAt_iff (roles : Roles m role) (dir : role d = .dir) (low : i < 510) :
    tableAt m d i = some p ↔ role p = .table d i := by
  unfold tableAt
  constructor
  · intro found
    split_ifs at found with isPresent
    cases found
    exact role_of_pde roles dir low isPresent
  · intro table
    obtain ⟨-, -, isPresent, there⟩ := pde_of_role roles table
    rw [if_pos isPresent, there]

theorem leafAt_iff (roles : Roles m role) (dir : role d = .dir) (low : k < 510 * 512) :
    leafAt m d k = some p ↔ role p = .leaf d (k / 512) (k % 512) := by
  have index : k / 512 < 510 := by omega
  have small : k % 512 < 512 := Nat.mod_lt _ (by decide)
  unfold leafAt pteAt
  constructor
  · intro found
    cases there : tableAt m d (k / 512) with
    | none => simp [there] at found
    | some t =>
      simp only [there, Option.map_some, Option.bind_some] at found
      split_ifs at found with isPresent
      cases found
      exact role_of_pte roles ((tableAt_iff roles dir index).mp there) small isPresent
  · intro leaf
    obtain ⟨t, table, -, isPresent, there⟩ := pte_of_role roles leaf
    rw [(tableAt_iff roles dir index).mpr table]
    simp [isPresent, there]

end Views

/-- freevm gives back a page charged to an address space if and only if it is its
directory, one of its page tables or a user page below 0x3fa00000; the pml4 and pdpt
pages behind the back-pointers never come back, and no other page is touched. -/
theorem freevm_returns_iff {s final : Spaces} {calls : List Call} {d : Nat} (start : Start s)
    (run : exec step s calls = some final) (alive : d ∈ final.live) :
    ∃ after, Vm.freevm d final.mem = (.done () after, []) ∧
      (∀ p, final.owner p = some d → (p ∈ after.freelist ↔ p = d ∨
        (∃ i < 510, tableAt final.mem d i = some p) ∨
        ∃ k < userTop / pgsize, leafAt final.mem d k = some p)) ∧
      (∀ p, final.owner p ≠ some d → (p ∈ after.freelist ↔ p ∈ final.mem.freelist)) ∧
      ∃ pml4 pdpt, pml4 ≠ pdpt ∧ final.owner pml4 = some d ∧ final.owner pdpt = some d ∧
        backPage (word final.mem d 511) = pml4 ∧ backPage (word final.mem d 510) = pdpt ∧
        pml4 ∉ after.freelist ∧ pdpt ∉ after.freelist := by
  obtain ⟨role, inv⟩ := run_inv start run
  have dir := (inv.live d).mp alive
  obtain ⟨after, ran, roles, -⟩ := freevm_run inv.roles dir
  refine ⟨after, ran, fun p charged => ?_, fun p other => ?_, ?_⟩
  · rw [roles.free]
    have tables : (∃ i < 510, tableAt final.mem d i = some p) ↔ ∃ i, role p = .table d i := by
      constructor
      · rintro ⟨i, low, found⟩
        exact ⟨i, (tableAt_iff inv.roles dir low).mp found⟩
      · rintro ⟨i, table⟩
        have low := (pde_of_role inv.roles table).2.1
        exact ⟨i, low, (tableAt_iff inv.roles dir low).mpr table⟩
    have leaves : (∃ k < userTop / pgsize, leafAt final.mem d k = some p) ↔
        ∃ i j, i < 509 ∧ role p = .leaf d i j := by
      have limit : userTop / pgsize = 509 * 512 := rfl
      rw [limit]
      constructor
      · rintro ⟨k, low, found⟩
        exact ⟨_, _, by omega, (leafAt_iff inv.roles dir (by omega)).mp found⟩
      · rintro ⟨i, j, low, leaf⟩
        obtain ⟨t, -, small, -⟩ := pte_of_role inv.roles leaf
        refine ⟨512 * i + j, by omega, (leafAt_iff inv.roles dir (by omega)).mpr ?_⟩
        rw [leaf, show (512 * i + j) / 512 = i by omega, show (512 * i + j) % 512 = j by omega]
    rw [tables, leaves]
    rcases inv.charged p d charged with (mine | ⟨isDir, rfl⟩) | lost
    · have notDir : p ≠ d := by
        rintro rfl
        rw [dir] at mine
        cases mine
      cases is : role p <;> simp_all [destroyed, belongs]
    · simp [destroyed, isDir]
    · have notDir : p ≠ d := by
        rintro rfl
        rw [dir] at lost
        cases lost
      simp [destroyed, lost, notDir]
  · rw [roles.free, inv.roles.free, destroyed_other fun part => other (inv.parts p d part)]
  · obtain ⟨isPml4, isPdpt⟩ := role_of_back inv.roles dir
    refine ⟨_, _, fun same => ?_, inv.parts _ d (.inl (by simp [isPml4, belongs])),
      inv.parts _ d (.inl (by simp [isPdpt, belongs])), rfl, rfl, ?_, ?_⟩
    · rw [same, isPdpt] at isPml4
      cases isPml4
    · rw [roles.free]
      simp [destroyed, isPml4]
    · rw [roles.free]
      simp [destroyed, isPdpt]

/-- Ten free pages and no address space. -/
def tenPages : Spaces :=
  ⟨⟨50, 49, 0, [100, 101, 102, 103, 104, 105, 106, 107, 108, 109], fun _ => 0⟩, [], fun _ => none⟩

theorem freevm_after_growth :
    ∃ final, exec step tenPages [.setupkvm, .allocuvm 102 0 8192] = some final ∧
      final.mem.freelist = [106, 107, 108, 109] ∧
      ∃ after, Vm.freevm 102 final.mem = (.done () after, []) ∧
        ∀ p, final.owner p = some 102 → (p ∈ after.freelist ↔ p = 102 ∨
          (∃ i < 510, tableAt final.mem 102 i = some p) ∨
          ∃ k < userTop / pgsize, leafAt final.mem 102 k = some p) := by
  obtain ⟨final, run, live, freelist⟩ : ∃ final,
      exec step tenPages [.setupkvm, .allocuvm 102 0 8192] = some final ∧
      102 ∈ final.live ∧ final.mem.freelist = [106, 107, 108, 109] :=
    exec_reaches (by decide +kernel)
  have start : Start tenPages :=
    ⟨by decide, by decide, by decide, rfl, fun _ => rfl⟩
  obtain ⟨after, ran, returned, -⟩ := freevm_returns_iff start run live
  exact ⟨final, run, freelist, after, ran, returned⟩

/-- Creating and destroying an address space loses two pages. -/
theorem setup_free_leaks :
    ∃ final, exec step tenPages [.setupkvm, .freevm 102] = some final ∧ final.live = [] ∧
      final.mem.freelist = [102, 103, 104, 105, 106, 107, 108, 109] :=
  exec_reaches (by decide +kernel)

end Xv6.AddressSpaces
