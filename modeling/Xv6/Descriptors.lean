import Xv6.GetPinfo
import Xv6.Transition

/-! File structures and descriptors, with pipes (kernel/file.c, kernel/pipe.c and the
descriptor part of kernel/sysfile.c). A struct pipe occupies a page; of its fields only
the two that decide when the page is freed are kept. What fileclose leaves to the file
system is reported as an event. -/
namespace Xv6.Descriptors
open TraceMonad

def nfile : Nat := 100
def nofile : Nat := 16

inductive FileType where
  | none
  | pipe
  | inode
  deriving DecidableEq

structure File where
  ref : Int
  type : FileType
  readable : Bool
  writable : Bool
  pipe : Nat
  ip : Nat
  deriving DecidableEq

/-- readopen and writeopen. -/
structure Ends where
  readopen : Bool
  writeopen : Bool

/-- The page number of `end`, the free list, the pipes by their page, ftable and the
descriptors of every process. -/
structure State where
  kend : Nat
  freelist : List Nat
  ends : Nat → Ends
  file : Nat → File
  ofile : Nat → Nat → Option Nat

inductive Panic where
  | filedup
  | fileclose
  | kfree
  deriving DecidableEq

inductive Effect where
  | iput (ip : Nat)
  deriving DecidableEq

abbrev FileM := Action State Effect Panic

def setFile (f : Nat) (g : File → File) : FileM Unit :=
  change fun s => { s with file := fun k => if k = f then g (s.file k) else s.file k }

def setEnds (page : Nat) (g : Ends → Ends) : FileM Unit :=
  change fun s => { s with ends := fun k => if k = page then g (s.ends k) else s.ends k }

def setOfile (p fd : Nat) (file : Option Nat) : FileM Unit :=
  change fun s => { s with
    ofile := fun q k => if q = p ∧ k = fd then file else s.ofile q k }

def kalloc : FileM (Option Nat) := do
  match ← inspect (·.freelist) with
  | [] => pure none
  | page :: rest => do
    change fun s => { s with freelist := rest }
    pure (some page)

/-- The page is filled with ones. -/
def kfree (page : Nat) : FileM Unit := do
  let low ← inspect (·.kend)
  if page < low ∨ Vm.physPages ≤ page then halt .kfree else
  setEnds page fun _ => ⟨true, true⟩
  change fun s => { s with freelist := page :: s.freelist }

def filealloc : FileM (Option Nat) := do
  let file ← inspect (·.file)
  match (List.range nfile).find? (fun f => (file f).ref = 0) with
  | none => pure none
  | some f => do
    setFile f fun file => { file with ref := 1 }
    pure (some f)

def filedup (f : Nat) : FileM Unit := do
  let file ← inspect (·.file f)
  if file.ref < 1 then halt .filedup else
  setFile f fun file => { file with ref := file.ref + 1 }

def pipeclose (page : Nat) (writable : Bool) : FileM Unit := do
  setEnds page fun ends =>
    if writable then { ends with writeopen := false } else { ends with readopen := false }
  let ends ← inspect (·.ends page)
  whenever (ends.readopen = false ∧ ends.writeopen = false) (kfree page)

def fileclose (f : Nat) : FileM Unit := do
  let ff ← inspect (·.file f)
  if ff.ref < 1 then halt .fileclose
  else if 0 < ff.ref - 1 then setFile f fun file => { file with ref := file.ref - 1 }
  else do
    setFile f fun file => { file with ref := 0, type := .none }
    match ff.type with
    | .pipe => pipeclose ff.pipe ff.writable
    | .inode => emit (.iput ff.ip)
    | .none => pure ()

/-- The label bad of pipealloc. -/
def pipebad (page f0 f1 : Option Nat) : FileM (Option (Nat × Nat)) := do
  match page with
  | some page => kfree page
  | none => pure ()
  match f0 with
  | some f => fileclose f
  | none => pure ()
  match f1 with
  | some f => fileclose f
  | none => pure ()
  pure none

def pipealloc : FileM (Option (Nat × Nat)) := do
  match ← filealloc with
  | none => pipebad none none none
  | some f0 =>
    match ← filealloc with
    | none => pipebad none (some f0) none
    | some f1 =>
      match ← kalloc with
      | none => pipebad none (some f0) (some f1)
      | some page => do
        setEnds page fun _ => ⟨true, true⟩
        setFile f0 fun file =>
          { file with type := .pipe, readable := true, writable := false, pipe := page }
        setFile f1 fun file =>
          { file with type := .pipe, readable := false, writable := true, pipe := page }
        pure (some (f0, f1))

def fdalloc (p f : Nat) : FileM (Option Nat) := do
  let ofile ← inspect (·.ofile)
  match (List.range nofile).find? (fun fd => (ofile p fd).isNone) with
  | none => pure none
  | some fd => do
    setOfile p fd (some f)
    pure (some fd)

/-- The descriptors that sys_pipe stores at its argument, or none for -1. The argument is
the result of argptr. -/
def sysPipe (p : Nat) (argument : Option Nat) : FileM (Option (Nat × Nat)) := do
  match argument with
  | none => pure none
  | some _ =>
    match ← pipealloc with
    | none => pure none
    | some (rf, wf) =>
      match ← fdalloc p rf with
      | none => do
        fileclose rf
        fileclose wf
        pure none
      | some fd0 =>
        match ← fdalloc p wf with
        | none => do
          setOfile p fd0 none
          fileclose rf
          fileclose wf
          pure none
        | some fd1 => pure (some (fd0, fd1))

def argfd (p : Nat) (fd : Int) : FileM (Option Nat) :=
  if fd < 0 ∨ nofile ≤ fd then pure none else inspect (·.ofile p fd.toNat)

def sysDup (p : Nat) (fd : Int) : FileM (Option Nat) := do
  match ← argfd p fd with
  | none => pure none
  | some f =>
    match ← fdalloc p f with
    | none => pure none
    | some new => do
      filedup f
      pure (some new)

def sysClose (p : Nat) (fd : Int) : FileM Bool := do
  match ← argfd p fd with
  | none => pure false
  | some f => do
    setOfile p fd.toNat none
    fileclose f
    pure true

/-- The part of sys_open that takes a file structure and a descriptor for the inode ip. -/
def openFile (p ip : Nat) (readable writable : Bool) : FileM (Option Nat) := do
  match ← filealloc with
  | none => pure none
  | some f =>
    match ← fdalloc p f with
    | none => do
      fileclose f
      pure none
    | some fd => do
      setFile f fun file =>
        { file with type := .inode, ip := ip, readable := readable, writable := writable }
      pure (some fd)

/-! What the functions do to a state. -/

def State.withFile (s : State) (f : Nat) (file : File) : State :=
  { s with file := fun k => if k = f then file else s.file k }

def State.withEnds (s : State) (page : Nat) (ends : Ends) : State :=
  { s with ends := fun k => if k = page then ends else s.ends k }

def State.withOfile (s : State) (p fd : Nat) (file : Option Nat) : State :=
  { s with ofile := fun q k => if q = p ∧ k = fd then file else s.ofile q k }

section Runs
variable {s : State} {f g p page fd : Nat} {file : File} {ends : Ends} {rest : List Nat}

theorem read_run {α β : Type} (read : State → α) (later : α → FileM β) :
    (inspect read >>= later) s = later (read s) s := bind_quiet rfl

theorem pure_at {α : Type} {value : α} {after : State} (same : s = after) :
    (pure value : FileM α) s = (.done value after, []) := by
  rw [same, pure_run]

theorem withFile_same : (s.withFile f file).file f = file := if_pos rfl

theorem withFile_other (other : g ≠ f) : (s.withFile f file).file g = s.file g := if_neg other

theorem withOfile_same {file : Option Nat} : (s.withOfile p fd file).ofile p fd = file :=
  if_pos ⟨rfl, rfl⟩

theorem withOfile_other {file : Option Nat} {q k : Nat} (other : ¬ (q = p ∧ k = fd)) :
    (s.withOfile p fd file).ofile q k = s.ofile q k := if_neg other

theorem setFile_run (change : File → File) :
    setFile f change s = (.done () (s.withFile f (change (s.file f))), []) := by
  have same : (fun k => if k = f then change (s.file k) else s.file k) =
      fun k => if k = f then change (s.file f) else s.file k := by
    funext k
    by_cases here : k = f
    · rw [here]
    · rw [if_neg here, if_neg here]
  rw [State.withFile, ← same]
  rfl

theorem setEnds_run (change : Ends → Ends) :
    setEnds page change s = (.done () (s.withEnds page (change (s.ends page))), []) := by
  have same : (fun k => if k = page then change (s.ends k) else s.ends k) =
      fun k => if k = page then change (s.ends page) else s.ends k := by
    funext k
    by_cases here : k = page
    · rw [here]
    · rw [if_neg here, if_neg here]
  rw [State.withEnds, ← same]
  rfl

theorem setOfile_run (file : Option Nat) :
    setOfile p fd file s = (.done () (s.withOfile p fd file), []) := rfl

/-- The file structure that filealloc takes. -/
def freeFile (s : State) : Option Nat := (List.range nfile).find? fun f => (s.file f).ref = 0

theorem freeFile_some (found : freeFile s = some f) : f < nfile ∧ (s.file f).ref = 0 := by
  refine ⟨List.mem_range.1 (List.mem_of_find?_eq_some found), ?_⟩
  simpa using List.find?_some found

theorem filealloc_none (full : freeFile s = none) : filealloc s = (.done none s, []) := by
  rw [filealloc, bind_quiet (rfl : inspect (·.file) s = (.done s.file s, [])), ← freeFile, full]
  rfl

/-- A structure that filealloc just took. -/
def taken (file : File) : File := { file with ref := 1 }

theorem filealloc_some (found : freeFile s = some f) :
    filealloc s = (.done (some f) (s.withFile f (taken (s.file f))), []) := by
  rw [filealloc, bind_quiet (rfl : inspect (·.file) s = (.done s.file s, [])), ← freeFile, found]
  exact bind_quiet (setFile_run _)

/-- The descriptor that fdalloc takes. -/
def freeFd (s : State) (p : Nat) : Option Nat :=
  (List.range nofile).find? fun fd => (s.ofile p fd).isNone

theorem fdalloc_none (full : freeFd s p = none) : fdalloc p f s = (.done none s, []) := by
  rw [fdalloc, bind_quiet (rfl : inspect (·.ofile) s = (.done s.ofile s, [])), ← freeFd, full]
  rfl

theorem fdalloc_some (found : freeFd s p = some fd) :
    fdalloc p f s = (.done (some fd) (s.withOfile p fd (some f)), []) := by
  rw [fdalloc, bind_quiet (rfl : inspect (·.ofile) s = (.done s.ofile s, [])), ← freeFd, found]
  rfl

theorem kalloc_nil (empty : s.freelist = []) : kalloc s = (.done none s, []) := by
  simp [kalloc, bind_run, inspect, empty, pure_run]

theorem kalloc_cons (cons : s.freelist = page :: rest) :
    kalloc s = (.done (some page) { s with freelist := rest }, []) := by
  simp [kalloc, bind_run, inspect, cons, change, pure_run]

theorem kfree_run (low : s.kend ≤ page) (high : page < Vm.physPages) :
    kfree page s = (.done () { s.withEnds page ⟨true, true⟩ with freelist := page :: s.freelist }, []) := by
  rw [kfree, read_run]
  dsimp only
  rw [if_neg (by omega), bind_quiet (setEnds_run _)]
  rfl

/-- A file structure after its last close. -/
def closed (file : File) : File := { file with ref := 0, type := .none }

theorem fileclose_last (one : (s.file f).ref = 1) :
    fileclose f s = (match (s.file f).type with
      | .pipe => pipeclose (s.file f).pipe (s.file f).writable
      | .inode => emit (.iput (s.file f).ip)
      | .none => pure ()) (s.withFile f (closed (s.file f))) := by
  rw [fileclose, read_run, if_neg (by omega), if_neg (by omega), bind_quiet (setFile_run _)]
  rfl

/-- The ends of a pipe after one of them is closed. -/
def Ends.close (ends : Ends) (writable : Bool) : Ends :=
  if writable then { ends with writeopen := false } else { ends with readopen := false }

theorem fileclose_more (more : 1 < (s.file f).ref) :
    fileclose f s =
      (.done () (s.withFile f { s.file f with ref := (s.file f).ref - 1 }), []) := by
  rw [fileclose, read_run]
  dsimp only
  rw [if_neg (by omega), if_pos (by omega)]
  exact setFile_run _

theorem withEnds_same : (s.withEnds page ends).ends page = ends := if_pos rfl

theorem pipeclose_first {writable : Bool} (is : (s.ends page).close writable = ends)
    (still : ends.readopen = true ∨ ends.writeopen = true) :
    pipeclose page writable s = (.done () (s.withEnds page ends), []) := by
  subst is
  rw [pipeclose, bind_quiet (setEnds_run _), read_run]
  refine whenever_false ?_ _
  rw [withEnds_same, ← Ends.close]
  rcases still with reading | writing
  · simp [reading]
  · simp [writing]

theorem pipeclose_last {writable : Bool} (is : (s.ends page).close writable = ⟨false, false⟩) :
    pipeclose page writable s = kfree page (s.withEnds page ⟨false, false⟩) := by
  rw [pipeclose, bind_quiet (setEnds_run _), read_run, whenever_true]
  · rw [← Ends.close, is]
  · rw [withEnds_same, ← Ends.close, is]
    exact ⟨rfl, rfl⟩

end Runs

/-! sys_pipe. -/

/-- An unused file structure has type FD_NONE, and the pages of the free list and of the
pipes are pages that kfree accepts. -/
structure Tidy (s : State) : Prop where
  unused : ∀ f, (s.file f).ref = 0 → (s.file f).type = .none
  free : ∀ page ∈ s.freelist, s.kend ≤ page ∧ page < Vm.physPages
  pipes : ∀ f, (s.file f).type = .pipe → s.kend ≤ (s.file f).pipe ∧ (s.file f).pipe < Vm.physPages

section Pipe
variable {s next : State} {f f0 f1 p page fd fd0 fd1 : Nat} {rest : List Nat}

theorem closed_taken (tidy : Tidy s) (unused : (s.file f).ref = 0) :
    closed (taken (s.file f)) = s.file f := by
  have isNone := tidy.unused f unused
  rcases same : s.file f with ⟨ref, type, readable, writable, pipe, ip⟩
  rw [same] at unused isNone
  dsimp only at unused isNone
  rw [closed, taken, unused, isNone]

theorem fileclose_none (one : (s.file f).ref = 1) (isNone : (s.file f).type = .none) :
    fileclose f s = (.done () (s.withFile f (closed (s.file f))), []) := by
  rw [fileclose_last one, isNone]
  rfl

theorem withFile_undo {file : File} : (s.withFile f file).withFile f (s.file f) = s := by
  have same : (fun k => if k = f then s.file f else if k = f then file else s.file k) = s.file := by
    funext k
    by_cases here : k = f
    · rw [if_pos here, here]
    · rw [if_neg here, if_neg here]
  rw [State.withFile, State.withFile]
  exact congrArg (fun file => { s with file := file }) same

theorem withFile_comm {one two : File} (apart : f0 ≠ f1) :
    (s.withFile f0 one).withFile f1 two = (s.withFile f1 two).withFile f0 one := by
  have same : (fun k => if k = f1 then two else if k = f0 then one else s.file k) =
      fun k => if k = f0 then one else if k = f1 then two else s.file k := by
    funext k
    by_cases first : k = f0
    · rw [if_neg (fun second => apart (first ▸ second)), if_pos first, if_pos first]
    · rw [if_neg first, if_neg first]
  rw [State.withFile, State.withFile, State.withFile, State.withFile]
  exact congrArg (fun file => { s with file := file }) same

/-- The file structures of the two ends. -/
def readEnd (file : File) (page : Nat) : File :=
  { file with ref := 1, type := .pipe, readable := true, writable := false, pipe := page }

def writeEnd (file : File) (page : Nat) : File :=
  { file with ref := 1, type := .pipe, readable := false, writable := true, pipe := page }

/-- The state after a successful pipealloc. -/
def piped (s : State) (f0 f1 page : Nat) (rest : List Nat) : State :=
  ((({ s with freelist := rest }).withEnds page ⟨true, true⟩).withFile f0
    (readEnd (s.file f0) page)).withFile f1 (writeEnd (s.file f1) page)

/-- What pipealloc took: two unused structures and a page. -/
structure Taken (s : State) (f0 f1 page : Nat) (rest : List Nat) : Prop where
  first : f0 < nfile ∧ (s.file f0).ref = 0
  second : f1 < nfile ∧ (s.file f1).ref = 0
  apart : f0 ≠ f1
  cons : s.freelist = page :: rest

theorem pipealloc_cases (tidy : Tidy s) :
    pipealloc s = (.done none s, []) ∨ ∃ f0 f1 page rest, Taken s f0 f1 page rest ∧
      pipealloc s = (.done (some (f0, f1)) (piped s f0 f1 page rest), []) := by
  cases found0 : freeFile s with
  | none =>
    left
    rw [pipealloc, bind_quiet (filealloc_none found0)]
    rfl
  | some f0 =>
    obtain ⟨low0, unused0⟩ := freeFile_some found0
    have took0 := filealloc_some found0
    have undo0 : ∀ {m : State}, m.file f0 = taken (s.file f0) →
        fileclose f0 m = (.done () (m.withFile f0 (s.file f0)), []) := by
      intro m is
      have isNone := tidy.unused f0 unused0
      rw [fileclose_none (by rw [is, taken]) (by rw [is]; exact isNone), is,
        closed_taken tidy unused0]
    cases found1 : freeFile (s.withFile f0 (taken (s.file f0))) with
    | none =>
      left
      rw [pipealloc, bind_quiet took0]
      dsimp only
      rw [bind_quiet (filealloc_none found1)]
      dsimp only
      rw [pipebad]
      dsimp only
      rw [bind_quiet (undo0 withFile_same), withFile_undo]
      rfl
    | some f1 =>
      obtain ⟨low1, unused1⟩ := freeFile_some found1
      have apart : f0 ≠ f1 := by
        rintro rfl
        rw [withFile_same] at unused1
        cases unused1
      have took1 := filealloc_some found1
      rw [withFile_other apart.symm] at unused1 took1
      cases freelist : s.freelist with
      | nil =>
        left
        have undo1 : fileclose f1 (s.withFile f1 (taken (s.file f1))) = (.done () s, []) := by
          have isNone := tidy.unused f1 unused1
          rw [fileclose_none (by rw [withFile_same, taken])
            (by rw [withFile_same]; exact isNone), withFile_same, closed_taken tidy unused1,
            withFile_undo]
        rw [pipealloc, bind_quiet took0]
        dsimp only
        rw [bind_quiet took1]
        dsimp only
        rw [bind_quiet (kalloc_nil (by exact freelist))]
        dsimp only
        rw [pipebad]
        dsimp only
        rw [bind_quiet (undo0 (by rw [withFile_other apart, withFile_same])),
          withFile_comm apart.symm, withFile_undo, bind_quiet undo1]
        rfl
      | cons page rest =>
        refine .inr ⟨f0, f1, page, rest, ⟨⟨low0, unused0⟩, ⟨low1, unused1⟩, apart, freelist⟩, ?_⟩
        rw [pipealloc, bind_quiet took0]
        dsimp only
        rw [bind_quiet took1]
        dsimp only
        rw [bind_quiet (kalloc_cons (by exact freelist))]
        dsimp only
        rw [bind_quiet (setEnds_run _), bind_quiet (setFile_run _), bind_quiet (setFile_run _)]
        refine pure_at ?_
        simp only [piped, State.withFile, State.withEnds, State.mk.injEq, true_and, and_true]
        funext k
        by_cases second : k = f1
        · simp [second, apart.symm, writeEnd, taken]
        · by_cases first : k = f0
          · simp [first, apart, readEnd, taken]
          · simp [first, second]

/-- Reference counts, types, descriptors and the free list are as before, and so is
every structure that is in use. -/
structure Same (s next : State) : Prop where
  files : ∀ f, (next.file f).ref = (s.file f).ref ∧ (next.file f).type = (s.file f).type
  used : ∀ f, (s.file f).ref ≠ 0 → next.file f = s.file f
  ofile : next.ofile = s.ofile
  freelist : next.freelist = s.freelist
  kend : next.kend = s.kend

theorem same_refl (s : State) : Same s s := ⟨fun _ => ⟨rfl, rfl⟩, fun _ _ => rfl, rfl, rfl, rfl⟩

theorem unpipe (tidy : Tidy s) (took : Taken s f0 f1 page rest) {m : State}
    (file0 : m.file f0 = readEnd (s.file f0) page) (file1 : m.file f1 = writeEnd (s.file f1) page)
    (ends : m.ends page = ⟨true, true⟩) (others : ∀ f, f ≠ f0 → f ≠ f1 → m.file f = s.file f)
    (kend : m.kend = s.kend) (ofile : m.ofile = s.ofile) (freelist : m.freelist = rest) :
    ∃ next, (do fileclose f0; fileclose f1; pure none : FileM (Option (Nat × Nat))) m =
        (.done none next, []) ∧ Same s next := by
  have none0 := tidy.unused f0 took.first.2
  have none1 := tidy.unused f1 took.second.2
  obtain ⟨low, high⟩ := tidy.free page (by rw [took.cons]; exact List.mem_cons_self)
  have run0 : fileclose f0 m = (.done ()
      ((m.withFile f0 (closed (m.file f0))).withEnds page ⟨false, true⟩), []) := by
    rw [fileclose_last (by rw [file0, readEnd]), file0]
    refine pipeclose_first ?_ (.inr rfl)
    exact congrArg (·.close false) ends
  have run1 : fileclose f1 ((m.withFile f0 (closed (m.file f0))).withEnds page ⟨false, true⟩) =
      kfree page ((((m.withFile f0 (closed (m.file f0))).withEnds page ⟨false, true⟩).withFile f1
        (closed (m.file f1))).withEnds page ⟨false, false⟩) := by
    have is : ((m.withFile f0 (closed (m.file f0))).withEnds page ⟨false, true⟩).file f1 =
        writeEnd (s.file f1) page := (withFile_other took.apart.symm).trans file1
    rw [fileclose_last (by rw [is, writeEnd]), is, file1]
    refine pipeclose_last ?_
    exact congrArg (·.close true) withEnds_same
  have ended := run1.trans (kfree_run (low.trans' (le_of_eq kend)) high)
  refine ⟨_, (bind_quiet run0).trans ((bind_quiet ended).trans rfl), fun f => ?_, fun f busy => ?_,
    ofile, ?_, kend⟩
  · change (((m.withFile f0 (closed (m.file f0))).withFile f1 (closed (m.file f1))).file f).ref = _ ∧
      (((m.withFile f0 (closed (m.file f0))).withFile f1 (closed (m.file f1))).file f).type = _
    by_cases second : f = f1
    · rw [second, withFile_same, none1]
      exact ⟨took.second.2.symm, rfl⟩
    · rw [withFile_other second]
      by_cases first : f = f0
      · rw [first, withFile_same, none0]
        exact ⟨took.first.2.symm, rfl⟩
      · rw [withFile_other first, others f first second]
        exact ⟨rfl, rfl⟩
  · have first : f ≠ f0 := fun same => busy (same ▸ took.first.2)
    have second : f ≠ f1 := fun same => busy (same ▸ took.second.2)
    exact (withFile_other second).trans ((withFile_other first).trans (others f first second))
  · rw [took.cons, ← freelist]
    rfl

/-- The least descriptor of p that is free. -/
structure Least (s : State) (p fd : Nat) : Prop where
  low : fd < nofile
  free : s.ofile p fd = none
  least : ∀ other < fd, s.ofile p other ≠ none

theorem least_of_freeFd (found : freeFd s p = some fd) : Least s p fd := by
  obtain ⟨free, low, before⟩ := List.find?_range_eq_some.1 found
  refine ⟨List.mem_range.1 low, Option.isNone_iff_eq_none.1 free, fun other less => ?_⟩
  intro isFree
  have busy := before other less
  rw [isFree] at busy
  cases busy

theorem withOfile_undo {file : Option Nat} (free : s.ofile p fd = none) :
    (s.withOfile p fd file).withOfile p fd none = s := by
  have same : (fun q k => if q = p ∧ k = fd then none else
      if q = p ∧ k = fd then file else s.ofile q k) = s.ofile := by
    funext q k
    by_cases here : q = p ∧ k = fd
    · rw [if_pos here, here.1, here.2, free]
    · rw [if_neg here, if_neg here]
  rw [State.withOfile, State.withOfile]
  exact congrArg (fun ofile => { s with ofile := ofile }) same

/-- The two least free descriptors are the ends of one new pipe in a page that was free,
and nothing else changed. -/
structure Opened (s : State) (p fd0 fd1 : Nat) (next : State) : Prop where
  first : Least s p fd0
  second : fd0 < fd1 ∧ fd1 < nofile ∧ s.ofile p fd1 = none ∧
    ∀ fd < fd1, s.ofile p fd = none → fd = fd0
  ends : ∃ f0 f1 page, f0 ≠ f1 ∧ next.ofile p fd0 = some f0 ∧ next.ofile p fd1 = some f1 ∧
    (s.file f0).ref = 0 ∧ (s.file f1).ref = 0 ∧
    next.file f0 = readEnd (s.file f0) page ∧ next.file f1 = writeEnd (s.file f1) page ∧
    next.ends page = ⟨true, true⟩ ∧ s.freelist = page :: next.freelist ∧
    ∀ f, f ≠ f0 → f ≠ f1 → next.file f = s.file f
  others : ∀ q fd, ¬ (q = p ∧ (fd = fd0 ∨ fd = fd1)) → next.ofile q fd = s.ofile q fd
  kend : next.kend = s.kend

theorem piped_first (apart : f0 ≠ f1) :
    (piped s f0 f1 page rest).file f0 = readEnd (s.file f0) page :=
  (withFile_other apart).trans withFile_same

theorem piped_other (first : f ≠ f0) (second : f ≠ f1) :
    (piped s f0 f1 page rest).file f = s.file f :=
  (withFile_other second).trans (withFile_other first)

theorem piped_ends : (piped s f0 f1 page rest).ends page = ⟨true, true⟩ := if_pos rfl

theorem opened_piped (took : Taken s f0 f1 page rest) (least0 : Least (piped s f0 f1 page rest) p fd0)
    (least1 : Least ((piped s f0 f1 page rest).withOfile p fd0 (some f0)) p fd1) :
    Opened s p fd0 fd1
      (((piped s f0 f1 page rest).withOfile p fd0 (some f0)).withOfile p fd1 (some f1)) := by
  have apart : fd0 ≠ fd1 := by
    rintro rfl
    have free := least1.free
    rw [withOfile_same] at free
    cases free
  have free1 : s.ofile p fd1 = none := by
    have free := least1.free
    rwa [withOfile_other (fun here => apart here.2.symm)] at free
  have order : fd0 < fd1 := by
    rcases Nat.lt_or_gt_of_ne apart with less | more
    · exact less
    · exact absurd free1 (least0.least fd1 more)
  refine ⟨⟨least0.low, least0.free, least0.least⟩, ⟨order, least1.low, free1, fun fd less free => ?_⟩,
    ⟨f0, f1, page, took.apart, ?_, withOfile_same, took.first.2, took.second.2,
      piped_first took.apart, withFile_same, @piped_ends s f0 f1 page rest, took.cons,
      fun f => piped_other⟩,
    fun q fd outside => ?_, rfl⟩
  · by_contra other
    refine least1.least fd less ?_
    rw [withOfile_other (fun here => other here.2)]
    exact free
  · rw [withOfile_other (fun here => apart here.2), withOfile_same]
  · rw [withOfile_other (fun here => outside ⟨here.1, .inr here.2⟩),
      withOfile_other (fun here => outside ⟨here.1, .inl here.2⟩)]
    rfl

theorem sysPipe_cases (tidy : Tidy s) (argument : Option Nat) :
    ∃ result next, sysPipe p argument s = (.done result next, []) ∧
      match result with
      | none => Same s next
      | some (fd0, fd1) => Opened s p fd0 fd1 next := by
  cases argument with
  | none => exact ⟨none, s, rfl, same_refl s⟩
  | some address =>
    rcases pipealloc_cases tidy with failed | ⟨f0, f1, page, rest, took, made⟩
    · refine ⟨none, s, ?_, same_refl s⟩
      rw [sysPipe, bind_quiet failed]
      rfl
    · have undo := fun m => @unpipe s f0 f1 page rest tidy took m
      cases found0 : freeFd (piped s f0 f1 page rest) p with
      | none =>
        obtain ⟨next, run, same⟩ := undo (piped s f0 f1 page rest) (piped_first took.apart)
          withFile_same piped_ends (fun f => piped_other) rfl rfl rfl
        refine ⟨none, next, ?_, same⟩
        rw [sysPipe, bind_quiet made]
        dsimp only
        rw [bind_quiet (fdalloc_none found0)]
        exact run
      | some fd0 =>
        have least0 := least_of_freeFd found0
        cases found1 : freeFd ((piped s f0 f1 page rest).withOfile p fd0 (some f0)) p with
        | none =>
          obtain ⟨next, run, same⟩ := undo (piped s f0 f1 page rest) (piped_first took.apart)
            withFile_same piped_ends (fun f => piped_other) rfl rfl rfl
          refine ⟨none, next, ?_, same⟩
          rw [sysPipe, bind_quiet made]
          dsimp only
          rw [bind_quiet (fdalloc_some found0)]
          dsimp only
          rw [bind_quiet (fdalloc_none found1)]
          dsimp only
          rw [bind_quiet (setOfile_run none), withOfile_undo least0.free]
          exact run
        | some fd1 =>
          have least1 := least_of_freeFd found1
          have run : sysPipe p (some address) s = (.done (some (fd0, fd1))
              (((piped s f0 f1 page rest).withOfile p fd0 (some f0)).withOfile p fd1 (some f1)),
              []) := by
            rw [sysPipe, bind_quiet made]
            dsimp only
            rw [bind_quiet (fdalloc_some found0)]
            dsimp only
            rw [bind_quiet (fdalloc_some found1)]
            rfl
          exact ⟨some (fd0, fd1), _, run, opened_piped took least0 least1⟩

theorem sysDup_none {fd : Int} {events : List Effect}
    (run : sysDup p fd s = (.done none next, events)) : next = s := by
  obtain ⟨found, middle, _, _, looked, run, -⟩ := bind_inv run
  have same : middle = s := by
    unfold argfd at looked
    split_ifs at looked
    · cases looked
      rfl
    · cases looked
      rfl
  subst same
  cases found with
  | none =>
    cases run
    rfl
  | some f =>
    cases room : freeFd middle p with
    | none =>
      dsimp only at run
      rw [bind_quiet (fdalloc_none room)] at run
      cases run
      rfl
    | some new =>
      dsimp only at run
      rw [bind_quiet (fdalloc_some room)] at run
      obtain ⟨_, _, _, _, -, run, -⟩ := bind_inv run
      cases run

/-- pipe and dup fail cleanly: a call that returns -1 leaves the file table, the
descriptors and the free pages as they were, and a pipe that succeeds takes the two least
descriptors, two file structures and one page. -/
theorem pipe_dup_clean (tidy : Tidy s) (p : Nat) :
    (∀ argument, ∃ result next, sysPipe p argument s = (.done result next, []) ∧
      match result with
      | none => Same s next
      | some (fd0, fd1) => Opened s p fd0 fd1 next) ∧
    ∀ fd next events, sysDup p fd s = (.done none next, events) → Same s next := by
  refine ⟨sysPipe_cases tidy, fun fd next events run => ?_⟩
  rw [sysDup_none run]
  exact same_refl s

end Pipe

/-! The state of the file table over whole runs. -/

inductive Call where
  | pipe (argument : Option Nat)
  | dup (fd : Int)
  | close (fd : Int)
  | openFile (ip : Nat) (readable writable : Bool)

def perform (p : Nat) : Call → FileM Unit
  | .pipe argument => do let _ ← sysPipe p argument
  | .dup fd => do let _ ← sysDup p fd
  | .close fd => do let _ ← sysClose p fd
  | .openFile ip readable writable => do let _ ← openFile p ip readable writable

/-- A call of process p; a panic stops the machine. -/
def step (s : State) (call : Nat × Call) : Option State :=
  match (perform call.1 call.2 s).1 with
  | .done _ next => some next
  | .halt _ _ => none

section Runs
variable {s next : State} {f p : Nat} {events : List Effect}

theorem tidy_same (tidy : Tidy s) (same : Same s next) : Tidy next := by
  refine ⟨fun f unused => ?_, ?_, fun f isPipe => ?_⟩
  · rw [(same.files f).2]
    exact tidy.unused f ((same.files f).1 ▸ unused)
  · rw [same.freelist, same.kend]
    exact tidy.free
  · rw [(same.files f).2] at isPipe
    have busy : (s.file f).ref ≠ 0 := by
      intro unused
      rw [tidy.unused f unused] at isPipe
      cases isPipe
    rw [same.used f busy, same.kend]
    exact tidy.pipes f isPipe

theorem tidy_opened {fd0 fd1 : Nat} (tidy : Tidy s) (opened : Opened s p fd0 fd1 next) : Tidy next := by
  obtain ⟨f0, f1, page, -, -, -, -, -, file0, file1, -, cons, others⟩ := opened.ends
  have inRange := tidy.free page (by rw [cons]; exact List.mem_cons_self)
  refine ⟨fun f unused => ?_, fun q member => ?_, fun f isPipe => ?_⟩
  · by_cases first : f = f0
    · rw [first, file0] at unused
      cases unused
    by_cases second : f = f1
    · rw [second, file1] at unused
      cases unused
    rw [others f first second] at unused ⊢
    exact tidy.unused f unused
  · rw [opened.kend]
    exact tidy.free q (by rw [cons]; exact List.mem_cons_of_mem _ member)
  · rw [opened.kend]
    by_cases first : f = f0
    · rw [first, file0]
      exact inRange
    by_cases second : f = f1
    · rw [second, file1]
      exact inRange
    rw [others f first second] at isPipe ⊢
    exact tidy.pipes f isPipe

theorem tidy_withFile {file : File} (tidy : Tidy s) (unused : file.ref = 0 → file.type = .none)
    (pipes : file.type = .pipe → s.kend ≤ file.pipe ∧ file.pipe < Vm.physPages) :
    Tidy (s.withFile f file) := by
  refine ⟨fun g => ?_, tidy.free, fun g => ?_⟩
  · by_cases here : g = f
    · rw [here, withFile_same]
      exact unused
    · rw [withFile_other here]
      exact tidy.unused g
  · by_cases here : g = f
    · rw [here, withFile_same]
      exact pipes
    · rw [withFile_other here]
      exact tidy.pipes g

theorem tidy_kfree {page : Nat} (tidy : Tidy s) (run : kfree page s = (.done () next, events)) :
    Tidy next := by
  rw [kfree, read_run] at run
  split_ifs at run with bad
  · cases run
  · rw [bind_quiet (setEnds_run _)] at run
    cases run
    refine ⟨tidy.unused, fun q member => ?_, tidy.pipes⟩
    rcases List.mem_cons.1 member with rfl | old
    · exact ⟨by exact Nat.le_of_not_lt fun less => bad (.inl less),
        Nat.lt_of_not_le fun more => bad (.inr more)⟩
    · exact tidy.free q old

theorem tidy_pipeclose {page : Nat} {writable : Bool} (tidy : Tidy s)
    (run : pipeclose page writable s = (.done () next, events)) : Tidy next := by
  rw [pipeclose, bind_quiet (setEnds_run _), read_run, ← Ends.close] at run
  have now : Tidy (s.withEnds page ((s.ends page).close writable)) :=
    ⟨tidy.unused, tidy.free, tidy.pipes⟩
  generalize s.withEnds page ((s.ends page).close writable) = after at run now
  unfold whenever at run
  split_ifs at run
  · exact tidy_kfree now run
  · cases run
    exact now

theorem tidy_fileclose (tidy : Tidy s) (run : fileclose f s = (.done () next, events)) :
    Tidy next := by
  rcases Int.lt_trichotomy (s.file f).ref 1 with less | one | more
  · rw [fileclose, read_run, if_pos less] at run
    cases run
  · have now : Tidy (s.withFile f (closed (s.file f))) :=
      tidy_withFile tidy (fun _ => rfl) (fun isPipe => by cases isPipe)
    rw [fileclose_last one] at run
    cases type : (s.file f).type with
    | none =>
      rw [type] at run
      cases run
      exact now
    | inode =>
      rw [type] at run
      cases run
      exact now
    | pipe =>
      rw [type] at run
      exact tidy_pipeclose now run
  · rw [fileclose_more more] at run
    cases run
    exact tidy_withFile tidy (fun zero => by simp only at zero; omega) (fun isPipe => tidy.pipes f isPipe)

theorem tidy_ofile {q fd : Nat} {file : Option Nat} (tidy : Tidy s) : Tidy (s.withOfile q fd file) :=
  ⟨tidy.unused, tidy.free, tidy.pipes⟩

theorem tidy_taken (tidy : Tidy s) (unused : (s.file f).ref = 0) :
    Tidy (s.withFile f (taken (s.file f))) := by
  refine tidy_withFile tidy (fun zero => by cases zero) fun isPipe => ?_
  have isNone : (taken (s.file f)).type = .none := tidy.unused f unused
  rw [isNone] at isPipe
  cases isPipe

theorem tidy_filedup (tidy : Tidy s) (run : filedup f s = (.done () next, events)) :
    Tidy next := by
  rw [filedup, read_run] at run
  split_ifs at run with low
  · cases run
  · rw [setFile_run] at run
    cases run
    refine tidy_withFile tidy (fun zero => ?_) (tidy.pipes f)
    dsimp only at zero
    omega

theorem tidy_fdalloc {result : Option Nat} (tidy : Tidy s)
    (run : fdalloc p f s = (.done result next, events)) : Tidy next := by
  cases room : freeFd s p with
  | none =>
    rw [fdalloc_none room] at run
    cases run
    exact tidy
  | some fd =>
    rw [fdalloc_some room] at run
    cases run
    exact tidy_ofile tidy

theorem argfd_quiet {fd : Int} {result : Option Nat}
    (run : argfd p fd s = (.done result next, events)) : next = s := by
  unfold argfd at run
  split_ifs at run
  · cases run
    rfl
  · cases run
    rfl

theorem tidy_sysDup {fd : Int} {result : Option Nat} (tidy : Tidy s)
    (run : sysDup p fd s = (.done result next, events)) : Tidy next := by
  obtain ⟨found, middle, _, _, looked, run, -⟩ := bind_inv run
  rw [← argfd_quiet looked] at tidy
  cases found with
  | none =>
    cases run
    exact tidy
  | some f =>
    obtain ⟨new, opened, _, _, allocated, run, -⟩ := bind_inv run
    have now := tidy_fdalloc tidy allocated
    cases new with
    | none =>
      cases run
      exact now
    | some new =>
      obtain ⟨_, last, _, _, counted, run, -⟩ := bind_inv run
      cases run
      exact tidy_filedup now counted

theorem tidy_sysClose {fd : Int} {result : Bool} (tidy : Tidy s)
    (run : sysClose p fd s = (.done result next, events)) : Tidy next := by
  obtain ⟨found, middle, _, _, looked, run, -⟩ := bind_inv run
  rw [← argfd_quiet looked] at tidy
  cases found with
  | none =>
    cases run
    exact tidy
  | some f =>
    dsimp only at run
    rw [bind_quiet (setOfile_run _)] at run
    obtain ⟨_, last, _, _, released, run, -⟩ := bind_inv run
    cases run
    exact tidy_fileclose (tidy_ofile tidy) released

theorem tidy_openFile {ip : Nat} {readable writable : Bool} {result : Option Nat} (tidy : Tidy s)
    (run : openFile p ip readable writable s = (.done result next, events)) : Tidy next := by
  unfold openFile at run
  cases room : freeFile s with
  | none =>
    rw [bind_quiet (filealloc_none room)] at run
    cases run
    exact tidy
  | some f =>
    rw [bind_quiet (filealloc_some room)] at run
    have now := tidy_taken tidy (freeFile_some room).2
    cases free : freeFd (s.withFile f (taken (s.file f))) p with
    | none =>
      dsimp only at run
      rw [bind_quiet (fdalloc_none free)] at run
      obtain ⟨_, last, _, _, released, run, -⟩ := bind_inv run
      cases run
      exact tidy_fileclose now released
    | some fd =>
      dsimp only at run
      rw [bind_quiet (fdalloc_some free)] at run
      dsimp only at run
      rw [bind_quiet (setFile_run _)] at run
      cases run
      refine tidy_withFile (tidy_ofile now) (fun zero => ?_) (fun isPipe => by cases isPipe)
      change ((s.withFile f (taken (s.file f))).file f).ref = 0 at zero
      rw [withFile_same] at zero
      cases zero

theorem tidy_perform {call : Call} (tidy : Tidy s)
    (run : perform p call s = (.done () next, events)) : Tidy next := by
  cases call with
  | pipe argument =>
    obtain ⟨result, opened, called, outcome⟩ := sysPipe_cases tidy (p := p) argument
    rw [perform, bind_quiet called] at run
    cases run
    cases result with
    | none => exact tidy_same tidy outcome
    | some fds => exact tidy_opened tidy outcome
  | dup fd =>
    obtain ⟨_, _, _, _, called, run, -⟩ := bind_inv run
    cases run
    exact tidy_sysDup tidy called
  | close fd =>
    obtain ⟨_, _, _, _, called, run, -⟩ := bind_inv run
    cases run
    exact tidy_sysClose tidy called
  | openFile ip readable writable =>
    obtain ⟨_, _, _, _, called, run, -⟩ := bind_inv run
    cases run
    exact tidy_openFile tidy called

theorem step_tidy {call : Nat × Call} (tidy : Tidy s) (stepped : step s call = some next) :
    Tidy next := by
  unfold step at stepped
  split at stepped
  · next value after ended =>
      cases stepped
      exact tidy_perform tidy (Prod.ext ended rfl)
  · cases stepped

theorem run_tidy {calls : List (Nat × Call)} (tidy : Tidy s)
    (run : Transition.exec step s calls = some next) : Tidy next :=
  Transition.exec_preserves Tidy (fun _ _ _ => step_tidy) tidy run

/-- After any calls pipe takes all that it needs or nothing, and never panics. -/
theorem pipe_after_runs {calls : List (Nat × Call)} (tidy : Tidy s)
    (run : Transition.exec step s calls = some next) (p : Nat) (argument : Option Nat) :
    Tidy next ∧ ∃ result last, sysPipe p argument next = (.done result last, []) ∧ Tidy last ∧
      match result with
      | none => Same next last
      | some (fd0, fd1) => Opened next p fd0 fd1 last := by
  have now := run_tidy tidy run
  obtain ⟨result, last, called, outcome⟩ := sysPipe_cases (p := p) now argument
  refine ⟨now, result, last, called, ?_, outcome⟩
  cases result with
  | none => exact tidy_same now outcome
  | some fds => exact tidy_opened now outcome

end Runs

/-- After the start of the machine: no file is open and one page is free. -/
def started : State where
  kend := 50
  freelist := [100]
  ends _ := ⟨true, true⟩
  file _ := ⟨0, .none, false, false, 0, 0⟩
  ofile _ _ := none

theorem tidy_started : Tidy started := by
  refine ⟨fun _ _ => rfl, fun q member => ?_, fun _ isPipe => by cases isPipe⟩
  rw [List.mem_singleton.1 member]
  exact ⟨by decide, by decide⟩

theorem pipe_dup_clean_started : Tidy started ∧ ∃ next,
    sysPipe 1 (some 0) started = (.done (some (0, 1)) next, []) ∧ Opened started 1 0 1 next := by
  obtain ⟨result, next, called, outcome⟩ := (pipe_dup_clean tidy_started 1).1 (some 0)
  have value : (match (sysPipe 1 (some 0) started).1 with
      | .done value _ => value
      | .halt _ _ => none) = some (0, 1) := by decide +kernel
  rw [called] at value
  cases value
  exact ⟨tidy_started, next, called, outcome⟩

/-- A pipe is opened and closed, and its page serves the next pipe. -/
theorem pipe_after_close : ∃ next,
    Transition.exec step started [(1, .pipe (some 0)), (1, .close 0), (1, .close 1)] = some next ∧
      Tidy next ∧ ∃ result last, sysPipe 1 (some 0) next = (.done result last, []) := by
  obtain ⟨next, run⟩ := Option.isSome_iff_exists.mp (show (Transition.exec step started
    [(1, .pipe (some 0)), (1, .close 0), (1, .close 1)]).isSome = true by decide +kernel)
  obtain ⟨tidy, result, last, called, _⟩ := pipe_after_runs tidy_started run 1 (some 0)
  exact ⟨next, run, tidy, result, last, called⟩

end Xv6.Descriptors
