import Xv6.ExecSafety

/-! What exec writes to. As long as uva2ka finds a page table wherever it is applied, the
parts of exec that work on the new address space leave all pages of other address spaces as
they were, whether they succeed or give up half way. -/
namespace Xv6.ExecFrame
open TraceMonad BitField Vm VmSpec PageTables AddressSpaces Exec Loading Arguments ExecSafety

/-- uva2ka is only applied where there is a page table. -/
def walked : Contract Event Panic :=
  ⟨fun event => ∀ index table, event = .uva2ka index table → index < 510 ∧ table = true,
    fun _ => True, fun _ => True⟩

section Frame
variable {α : Type} {m : Memory} {role : Nat → Role} {d va : Nat}

theorem reached_run {action : VmM α} {post : Memory → Prop} {value : α} {next : Memory}
    {trace : List Event} (holds : Ensures anything action m fun _ next => post next)
    (run : action m = (.done value next, trace)) : post next :=
  reached holds (by rw [run])

theorem reached_sound {action : VmM α} {post : Memory → Prop} {value : α} {next : Memory}
    {trace : List Event} (holds : Ensures walked action m fun _ next => post next)
    (run : action m = (.done value next, trace)) (sound : Sound trace) : post next := by
  refine (ensures_outcome holds fun event member => ?_).2.1 value next (by rw [run])
  rintro index table rfl
  rw [run] at member
  exact sound.1 index table member

theorem spares_write {page : Nat} {content : Page} (roles : Roles m role) (plain : Plain role page)
    (mine : own d (role page) = true ∨ role page = .kernel) :
    Spares m role d (m.setPage page content) := by
  refine ⟨role, roles_congr roles rfl rfl fun _ is => word_plain plain is, local_refl,
    ⟨rfl, rfl, rfl⟩, ?_⟩
  intro q _ other known
  refine if_neg ?_
  rintro rfl
  rcases mine with mine | kernel
  · rw [other] at mine
    cases mine
  · exact known kernel

theorem spares_then {β : Type} {contract : Contract Event Panic} {first : VmM α} {next : α → VmM β}
    (dir : role d = .dir)
    (holds : Ensures contract first m fun _ middle => Spares m role d middle)
    (continues : ∀ value middle role', Roles middle role' → role' d = .dir →
      Ensures contract (next value) middle fun _ last => Spares middle role' d last) :
    Ensures contract (first >>= next) m fun _ last => Spares m role d last := by
  refine ensures_then holds ?_
  rintro value middle ⟨role', roles', change, fixed, spared⟩
  exact ensures_weaken (continues value middle role' roles' (local_dir change dir))
    fun _ _ later => spares_trans change fixed spared later

theorem page_of_pte {t j : Nat} (roles : Roles m role) (table : role t = .table d (pdx va))
    (low : j < 512) :
    Plain role (pteAddr (word m t j)) ∧
      (own d (role (pteAddr (word m t j))) = true ∨ role (pteAddr (word m t j)) = .kernel) ∧
      pteAddr (word m t j) < physPages := by
  cases isPresent : present (word m t j) with
  | true =>
    have leaf := role_of_pte roles table low isPresent
    exact ⟨by simp [Plain, leaf], .inl (by simp [leaf, own]),
      (roles.range _ (by simp [leaf])).2⟩
  | false =>
    have blank : pteAddr (word m t j) = 0 := by
      rw [roles.blank _ _ _ _ table low isPresent, pteAddr, Nat.zero_div]
    rw [blank, role_zero roles]
    exact ⟨by simp [Plain, role_zero roles], .inr rfl, by decide⟩

theorem walk_cases (roles : Roles m role) (dir : role d = .dir) (va : Nat) :
    walkpgdir d va false m = (.done none m, []) ∨
      ∃ t, walkpgdir d va false m = (.done (some (t, ptx va)) m, []) ∧
        (linearPages ≤ t ∨ t < linearPages ∧ role t = .table d (pdx va)) := by
  cases isPresent : present (word m d (pdx va)) with
  | false => exact .inl (walk_absent isPresent)
  | true =>
    refine .inr ⟨_, walk_present isPresent, ?_⟩
    by_cases low : pdx va < 510
    · obtain ⟨table, inside⟩ := table_inside roles dir low isPresent
      exact .inr ⟨inside, table⟩
    · exact .inl (back_outside roles dir (by omega) pdx_lt).2

/-! loaduvm -/

theorem loadLoop_spares {addr offset size count i : Nat} {file : List UInt8} (roles : Roles m role)
    (dir : role d = .dir) :
    Ensures anything (loadLoop d addr file offset size count i) m fun _ next =>
      Spares m role d next := by
  induction count generalizing m role i with
  | zero => exact ensures_pure (spares_refl roles)
  | succ count ih =>
    rw [loadLoop]
    rcases walk_cases roles dir ((addr + i) % 2 ^ 64) with
      walk | ⟨t, walk, far | ⟨near, table⟩⟩
    · exact ensures_quiet_then walk (ensures_halt trivial)
    · exact ensures_quiet_then walk
        (ensures_bind (ensures_of_halt (load_trap far) (fun _ _ _ => trivial) trivial))
    · refine ensures_quiet_then walk (ensures_quiet_then (load_run near) ?_)
      obtain ⟨plain, mine, low⟩ :=
        page_of_pte roles table (ptx_lt : ptx ((addr + i) % 2 ^ 64) < 512)
      have page : pteAddr (word m t (ptx ((addr + i) % 2 ^ 64))) % 2 ^ 20 =
          pteAddr (word m t (ptx ((addr + i) % 2 ^ 64))) := by
        simp only [physPages] at low
        exact Nat.mod_eq_of_lt (by omega)
      simp only [page]
      split
      · exact ensures_pure (spares_refl roles)
      · refine spares_then dir (ensures_whenever (fun _ => ?_) fun _ => spares_refl roles)
          fun _ middle role' roles' dir' => ?_
        · rw [if_neg (by simp only [physPages] at low; simp only [linearPages]; omega)]
          refine ensures_inspect_then (ensures_emit_then (fun _ => trivial) fun _ => ?_)
          exact ensures_inspect_then (ensures_change (spares_write roles plain mine))
        · split
          · exact ensures_pure (spares_refl roles')
          · exact ih roles' dir'

theorem loaduvm_spares {addr offset size : Nat} {file : List UInt8} (roles : Roles m role)
    (dir : role d = .dir) :
    Ensures anything (loaduvm d addr file offset size) m fun _ next => Spares m role d next := by
  rw [loaduvm]
  split
  · exact ensures_halt trivial
  · exact loadLoop_spares roles dir

theorem loadSegments_spares {count off size : Nat} {file : List UInt8} (roles : Roles m role)
    (dir : role d = .dir) :
    Ensures anything (loadSegments d file count off size) m fun _ next => Spares m role d next := by
  induction count generalizing m role off size with
  | zero => exact ensures_pure (spares_refl roles)
  | succ count ih =>
    rw [loadSegments]
    split
    · exact ensures_pure (spares_refl roles)
    · dsimp only
      split_ifs
      · exact ensures_pure (spares_refl roles)
      · exact ih roles dir
      · exact ensures_pure (spares_refl roles)
      · refine spares_then dir (allocuvm_spares roles dir) fun grown _ _ roles' dir' => ?_
        split_ifs
        · exact ensures_pure (spares_refl roles')
        · refine spares_then dir' (loaduvm_spares roles' dir') fun read _ _ roles'' dir'' => ?_
          cases read with
          | true => exact ih roles'' dir''
          | false => exact ensures_pure (spares_refl roles'')

/-! The stack. -/

theorem clearpteu_spared {uva : Nat} (roles : Roles m role) (dir : role d = .dir) :
    Ensures anything (clearpteu d uva) m fun _ next => Spared m next role d := by
  rw [clearpteu]
  rcases walk_cases roles dir uva with walk | ⟨t, walk, far | ⟨near, table⟩⟩
  · exact ensures_quiet_then walk (ensures_halt trivial)
  · exact ensures_quiet_then walk
      (ensures_bind (ensures_of_halt (load_trap far) (fun _ _ _ => trivial) trivial))
  · refine ensures_quiet_then walk (ensures_quiet_then (load_run near) ?_)
    refine ensures_of_done (store_run near) (fun _ _ _ => trivial) fun q _ other _ => if_neg ?_
    rintro rfl
    simp [table, own] at other

theorem uva2ka_spares (roles : Roles m role) (dir : role d = .dir) :
    Ensures walked (uva2ka d va) m fun result next => next = m ∧
      ∀ page ∈ result, ∃ i j, role page = .leaf d i j := by
  rw [uva2ka]
  refine ensures_inspect_then (ensures_emit_then (fun _ => trivial) fun sound => ?_)
  obtain ⟨low, isPresent⟩ := sound _ _ rfl
  obtain ⟨table, near⟩ := table_inside roles dir low isPresent
  refine ensures_quiet_then (walk_present isPresent) (ensures_quiet_then (load_run near) ?_)
  refine ensures_pure ⟨rfl, fun page found => ?_⟩
  split_ifs at found with usable
  · cases found
    rw [Bool.and_eq_true] at usable
    exact ⟨_, _, role_of_pte roles table ptx_lt usable.1⟩
  · cases found

theorem copyoutLoop_spares {fuel : Nat} {bytes : List UInt8} (roles : Roles m role)
    (dir : role d = .dir) :
    Ensures walked (copyoutLoop d fuel va bytes) m fun _ next => Spares m role d next := by
  induction fuel generalizing m role va bytes with
  | zero => exact ensures_pure (spares_refl roles)
  | succ fuel ih =>
    rw [copyoutLoop]
    split
    · exact ensures_pure (spares_refl roles)
    · refine ensures_then (uva2ka_spares roles dir) ?_
      rintro (_ | page) middle ⟨rfl, user⟩
      · exact ensures_pure (spares_refl roles)
      · obtain ⟨i, j, leaf⟩ := user page rfl
        dsimp only
        split_ifs
        · exact ensures_halt trivial
        · refine ensures_inspect_then ?_
          refine spares_then dir (ensures_change (spares_write roles (by simp [Plain, leaf])
            (.inl (by simp [leaf, own])))) fun _ _ _ roles' dir' => ih roles' dir'

theorem copyout_spares {bytes : List UInt8} (roles : Roles m role) (dir : role d = .dir) :
    Ensures walked (copyout d va bytes) m fun _ next => Spares m role d next := by
  rw [copyout]
  refine ensures_then (copyoutLoop_spares roles dir) fun _ _ spares => ?_
  exact ensures_inspect_then (ensures_emit_then (fun _ => trivial) fun _ => ensures_pure spares)

theorem pushArgs_spares {argc sp : Nat} {argv : List (List UInt8)} (roles : Roles m role)
    (dir : role d = .dir) :
    Ensures walked (pushArgs d argc sp argv) m fun _ next => Spares m role d next := by
  induction argv generalizing m role argc sp with
  | nil => exact ensures_pure (spares_refl roles)
  | cons arg rest ih =>
    rw [pushArgs]
    split
    · exact ensures_pure (spares_refl roles)
    · refine spares_then dir (copyout_spares roles dir) fun copied _ _ roles' dir' => ?_
      cases copied with
      | false => exact ensures_pure (spares_refl roles')
      | true =>
        refine spares_then dir' (ih roles' dir') fun result _ _ roles'' _ => ?_
        cases result <;> exact ensures_pure (spares_refl roles'')

/-! freevm -/

theorem kfree_spared {page : Nat} (mine : page = d ∨ own d (role page) = true) :
    Ensures anything (kfree page) m fun _ next => Spared m next role d ∧
      ∀ q, q ≠ page → next.page q = m.page q := by
  rw [kfree]
  refine ensures_inspect_then ?_
  split_ifs
  · exact ensures_halt trivial
  · have others : ∀ q, q ≠ page → (m.setPage page junk).page q = m.page q :=
      fun q other => if_neg other
    refine ensures_change_then (ensures_change ⟨fun q notDir other _ => others q ?_, others⟩)
    rintro rfl
    rcases mine with self | mine
    · exact notDir self
    · rw [other] at mine
      cases mine

theorem freeTables_spared {count i : Nat} (dir : role d = .dir) (inside : i + count ≤ 510)
    (tables : ∀ j < 510, present (word m d j) = true → role (pteAddr (word m d j)) = .table d j) :
    Ensures anything (freeTables d count i) m fun _ next => Spared m next role d := by
  induction count generalizing m i with
  | zero => exact ensures_pure fun _ _ _ _ => rfl
  | succ count ih =>
    rw [freeTables]
    refine ensures_inspect_then ?_
    have freed : Ensures anything (whenever (present (word m d i) = true)
        (kfree (pteAddr (word m d i)))) m fun _ next => Spared m next role d ∧
          next.page d = m.page d := by
      refine ensures_whenever (fun isPresent => ?_) fun _ => ⟨fun _ _ _ _ => rfl, rfl⟩
      have table := tables i (by omega) isPresent
      have mine : own d (role (pteAddr (word m d i))) = true := by simp [table, own]
      refine ensures_weaken (kfree_spared (.inr mine)) ?_
      rintro _ next ⟨spared, others⟩
      refine ⟨spared, others d ?_⟩
      intro same
      rw [← same, dir] at table
      cases table
    refine ensures_then freed ?_
    rintro _ next ⟨spared, same⟩
    have words : ∀ j, word next d j = word m d j := fun j => by rw [word, word, same]
    refine ensures_weaken (ih (by omega) fun j low => by rw [words]; exact tables j low) ?_
    exact fun _ _ later => spared_trans local_refl spared later

theorem freevm_spared (roles : Roles m role) (dir : role d = .dir) :
    Ensures anything (freevm d) m fun _ next => Spared m next role d := by
  rw [freevm]
  refine ensures_then (deallocuvm_spares roles dir) ?_
  rintro _ middle ⟨role', roles', change, -, spared⟩
  have dir' := local_dir change dir
  refine ensures_then (freeTables_spared dir' (by decide) fun j low isPresent =>
    role_of_pde roles' dir' low isPresent) fun _ last spared' => ?_
  have given : Ensures anything (kfree d) last fun _ next => Spared last next role' d ∧ _ :=
    kfree_spared (.inl rfl)
  refine ensures_weaken given fun _ _ spared'' => ?_
  exact spared_trans change spared (spared_trans local_refl spared' spared''.1)

end Frame

end Xv6.ExecFrame
