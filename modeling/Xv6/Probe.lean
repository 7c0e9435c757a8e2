import Xv6.Vm

/-! The functions of kalloc.c, vm.c and vm64.c that sbrk and fork run, with a report of
the addresses at which they walk the page table, the pages that kalloc returns and the
pages they write. They do what the functions of Vm do. -/
namespace Xv6.Probe
open TraceMonad BitField Vm

inductive Report where
  | walk (va : Nat)
  | took (page : Nat)
  | wrote (page : Nat)
  deriving DecidableEq

abbrev ProbeM := Action Memory Report Panic

def setPage (page : Nat) (content : Page) : ProbeM Unit := do
  emit (.wrote page)
  change (·.setPage page content)

def setWord (page i value : Nat) : ProbeM Unit := do
  emit (.wrote page)
  change (·.setWord page i value)

def store (access : Access) (page i value : Nat) : ProbeM Unit :=
  if linearPages ≤ page then halt (.trap access) else setWord page i value

def kalloc : ProbeM (Option Nat) := do
  match ← inspect (·.freelist) with
  | [] => pure none
  | page :: rest => do
    emit (.took page)
    change fun m => { m with freelist := rest }
    pure (some page)

def walkpgdir (pgdir va : Nat) (alloc : Bool) : ProbeM (Option (Nat × Nat)) := do
  emit (.walk va)
  let pde ← inspect (word · pgdir (pdx va))
  if present pde then pure (some (pteAddr pde, ptx va)) else
  if !alloc then pure none else
  match ← kalloc with
  | none => pure none
  | some pgtab => do
    setPage pgtab 0
    setWord pgdir (pdx va) (entry pgtab (pteP ||| pteW ||| pteU))
    pure (some (pgtab, ptx va))

def mapFrom (pgdir perm : Nat) : (more a page : Nat) → ProbeM Bool
  | more, a, page => do
    match ← walkpgdir pgdir a true with
    | none => pure false
    | some (pgtab, i) => do
      let pte ← silent (load .mappages pgtab i)
      if present pte then halt .remap else
      store .mappages pgtab i (entry page (perm ||| pteP))
      match more with
      | 0 => pure true
      | more + 1 => mapFrom pgdir perm more (a + pgsize) (page + 1)

def mappages (pgdir va size page perm : Nat) : ProbeM Bool :=
  let a := pgrounddown va
  let last := pgrounddown (va + size - 1)
  mapFrom pgdir perm ((last - a) / pgsize) a page

def setupkvm : ProbeM (Option Nat) := do
  let pml4 ← kalloc
  let pdpt ← kalloc
  let pgdir ← kalloc
  let pml4Page ← silent (target pml4)
  setPage pml4Page 0
  let pdptPage ← silent (target pdpt)
  setPage pdptPage 0
  let pgdirPage ← silent (target pgdir)
  setPage pgdirPage 0
  let kpdpt ← inspect (·.kpdpt)
  setWord pml4Page 511 (entry kpdpt (pteP ||| pteW ||| pteU))
  setWord pml4Page 0 (v2p pdpt ||| (pteP ||| pteW ||| pteU))
  setWord pdptPage 0 (v2p pgdir ||| (pteP ||| pteW ||| pteU))
  setWord pgdirPage 511 (address pml4 ||| pteP)
  setWord pgdirPage 510 (address pdpt ||| pteP)
  pure pgdir

def deallocLoop (pgdir oldsz : Nat) : (fuel a : Nat) → ProbeM Unit
  | 0, _ => pure ()
  | fuel + 1, a =>
    if oldsz ≤ a then pure () else do
    match ← walkpgdir pgdir a false with
    | none => deallocLoop pgdir oldsz fuel (a + (nptentries - 1) * pgsize + pgsize)
    | some (pgtab, i) => do
      let pte ← silent (load .deallocuvm pgtab i)
      whenever (present pte) do
        let page := pteAddr pte
        whenever (page = 0) (halt .kfree)
        silent (kfree page)
        store .deallocuvm pgtab i 0
      deallocLoop pgdir oldsz fuel (a + pgsize)

def deallocuvm (pgdir oldsz newsz : Nat) : ProbeM Nat :=
  if oldsz ≤ newsz then pure oldsz else do
  let a := pgroundup newsz
  deallocLoop pgdir oldsz ((oldsz - a + (pgsize - 1)) / pgsize) a
  pure newsz

def allocLoop (pgdir oldsz newsz : Nat) : (count a : Nat) → ProbeM Nat
  | 0, _ => pure newsz
  | count + 1, a => do
    match ← kalloc with
    | none => do
      let _ ← deallocuvm pgdir newsz oldsz
      pure 0
    | some mem => do
      setPage mem 0
      let _ ← mappages pgdir a pgsize mem (pteW ||| pteU)
      allocLoop pgdir oldsz newsz count (a + pgsize)

def allocuvm (pgdir oldsz newsz : Nat) : ProbeM Nat :=
  if kernbase ≤ newsz then pure 0 else
  if newsz < oldsz then pure oldsz else
  let a := pgroundup oldsz
  allocLoop pgdir oldsz newsz ((newsz - a + (pgsize - 1)) / pgsize) a

def copyLoop (pgdir d : Nat) : (count i : Nat) → ProbeM (Option Nat)
  | 0, _ => pure (some d)
  | count + 1, i => do
    match ← walkpgdir pgdir i false with
    | none => halt .pteShouldExist
    | some (pgtab, j) => do
      let pte ← silent (load .copyuvm pgtab j)
      if !present pte then halt .pageNotPresent else
      match ← kalloc with
      | none => do
        silent (freevm d)
        pure none
      | some mem => do
        if linearPages ≤ pteAddr pte then halt (.trap .copyuvm) else
        let content ← inspect (·.page (pteAddr pte))
        setPage mem content
        if ← mappages d i pgsize mem (pteFlags pte) then
          copyLoop pgdir d count (i + pgsize)
        else do
          silent (freevm d)
          pure none

def copyuvm (pgdir size : Nat) : ProbeM (Option Nat) := do
  match ← setupkvm with
  | none => pure none
  | some d => copyLoop pgdir d ((size + (pgsize - 1)) / pgsize) 0

/-- Every page that was written had been returned by kalloc. -/
def Clean : List Nat → List Report → Prop
  | _, [] => True
  | made, .walk _ :: rest => Clean made rest
  | made, .took page :: rest => Clean (page :: made) rest
  | made, .wrote page :: rest => page ∈ made ∧ Clean made rest

/-! Without the reports these are the functions of Vm. -/

theorem setPage_erases {page : Nat} {content : Page} :
    Erases (setPage page content) (Vm.setPage page content) := erases_emit fun _ => rfl

theorem setWord_erases {page i value : Nat} :
    Erases (setWord page i value) (Vm.setWord page i value) := erases_emit fun _ => rfl

theorem store_erases {access : Access} {page i value : Nat} :
    Erases (store access page i value) (Vm.store access page i value) :=
  erases_ite (fun _ => rfl) setWord_erases

theorem kalloc_erases : Erases kalloc Vm.kalloc := by
  refine erases_bind (fun _ => rfl) fun list => ?_
  cases list with
  | nil => exact fun _ => rfl
  | cons page rest => exact erases_emit fun _ => rfl

theorem walkpgdir_erases {pgdir va : Nat} {alloc : Bool} :
    Erases (walkpgdir pgdir va alloc) (Vm.walkpgdir pgdir va alloc) := by
  refine erases_emit (erases_bind (fun _ => rfl) fun pde => ?_)
  refine erases_ite (fun _ => rfl) (erases_ite (fun _ => rfl) ?_)
  refine erases_bind kalloc_erases fun page => ?_
  cases page with
  | none => exact fun _ => rfl
  | some pgtab =>
    exact erases_bind setPage_erases fun _ => erases_bind setWord_erases fun _ _ => rfl

theorem mapFrom_erases {pgdir perm more a page : Nat} :
    Erases (mapFrom pgdir perm more a page) (Vm.mapFrom pgdir perm more a page) := by
  induction more generalizing a page with
  | zero =>
    rw [mapFrom, Vm.mapFrom]
    refine erases_bind walkpgdir_erases fun pte => ?_
    rcases pte with _ | ⟨pgtab, i⟩
    · exact fun _ => rfl
    · refine erases_bind (erases_silent _) fun pte => erases_ite (fun _ => rfl) ?_
      exact erases_bind store_erases fun _ _ => rfl
  | succ more ih =>
    rw [mapFrom, Vm.mapFrom]
    refine erases_bind walkpgdir_erases fun pte => ?_
    rcases pte with _ | ⟨pgtab, i⟩
    · exact fun _ => rfl
    · refine erases_bind (erases_silent _) fun pte => erases_ite (fun _ => rfl) ?_
      exact erases_bind store_erases fun _ => ih

theorem mappages_erases {pgdir va size page perm : Nat} :
    Erases (mappages pgdir va size page perm) (Vm.mappages pgdir va size page perm) :=
  mapFrom_erases

theorem setupkvm_erases : Erases setupkvm Vm.setupkvm := by
  refine erases_bind kalloc_erases fun pml4 => erases_bind kalloc_erases fun pdpt =>
    erases_bind kalloc_erases fun pgdir => ?_
  refine erases_bind (erases_silent _) fun pml4Page => erases_bind setPage_erases fun _ => ?_
  refine erases_bind (erases_silent _) fun pdptPage => erases_bind setPage_erases fun _ => ?_
  refine erases_bind (erases_silent _) fun pgdirPage => erases_bind setPage_erases fun _ => ?_
  refine erases_bind (fun _ => rfl) fun kpdpt => ?_
  exact erases_bind setWord_erases fun _ => erases_bind setWord_erases fun _ =>
    erases_bind setWord_erases fun _ => erases_bind setWord_erases fun _ =>
      erases_bind setWord_erases fun _ _ => rfl

theorem deallocLoop_erases {pgdir oldsz fuel a : Nat} :
    Erases (deallocLoop pgdir oldsz fuel a) (Vm.deallocLoop pgdir oldsz fuel a) := by
  induction fuel generalizing a with
  | zero => exact fun _ => rfl
  | succ fuel ih =>
    rw [deallocLoop, Vm.deallocLoop]
    refine erases_ite (fun _ => rfl) (erases_bind walkpgdir_erases fun pte => ?_)
    rcases pte with _ | ⟨pgtab, i⟩
    · exact ih
    · refine erases_bind (erases_silent _) fun pte => erases_bind ?_ fun _ => ih
      refine erases_whenever (erases_bind (erases_whenever fun _ => rfl) fun _ => ?_)
      exact erases_bind (erases_silent _) fun _ => store_erases

theorem deallocuvm_erases {pgdir oldsz newsz : Nat} :
    Erases (deallocuvm pgdir oldsz newsz) (Vm.deallocuvm pgdir oldsz newsz) :=
  erases_ite (fun _ => rfl) (erases_bind deallocLoop_erases fun _ _ => rfl)

theorem allocLoop_erases {pgdir oldsz newsz count a : Nat} :
    Erases (allocLoop pgdir oldsz newsz count a) (Vm.allocLoop pgdir oldsz newsz count a) := by
  induction count generalizing a with
  | zero => exact fun _ => rfl
  | succ count ih =>
    rw [allocLoop, Vm.allocLoop]
    refine erases_bind kalloc_erases fun mem => ?_
    cases mem with
    | none => exact erases_bind deallocuvm_erases fun _ _ => rfl
    | some mem => exact erases_bind setPage_erases fun _ => erases_bind mappages_erases fun _ => ih

theorem allocuvm_erases {pgdir oldsz newsz : Nat} :
    Erases (allocuvm pgdir oldsz newsz) (Vm.allocuvm pgdir oldsz newsz) :=
  erases_ite (fun _ => rfl) (erases_ite (fun _ => rfl) allocLoop_erases)

theorem copyLoop_erases {pgdir d count i : Nat} :
    Erases (copyLoop pgdir d count i) (Vm.copyLoop pgdir d count i) := by
  induction count generalizing i with
  | zero => exact fun _ => rfl
  | succ count ih =>
    rw [copyLoop, Vm.copyLoop]
    refine erases_bind walkpgdir_erases fun pte => ?_
    rcases pte with _ | ⟨pgtab, j⟩
    · exact fun _ => rfl
    · refine erases_bind (erases_silent _) fun pte => erases_ite (fun _ => rfl) ?_
      refine erases_bind kalloc_erases fun mem => ?_
      cases mem with
      | none => exact erases_bind (erases_silent _) fun _ _ => rfl
      | some mem =>
        refine erases_ite (fun _ => rfl) (erases_bind (fun _ => rfl) fun content => ?_)
        refine erases_bind setPage_erases fun _ => erases_bind mappages_erases fun mapped => ?_
        exact erases_ite ih (erases_bind (erases_silent _) fun _ _ => rfl)

theorem copyuvm_erases {pgdir size : Nat} :
    Erases (copyuvm pgdir size) (Vm.copyuvm pgdir size) := by
  refine erases_bind setupkvm_erases fun d => ?_
  cases d with
  | none => exact fun _ => rfl
  | some d => exact copyLoop_erases

end Xv6.Probe
