import Xv6.NullPointer

/-! exec as a process sees it (kernel/exec.c): the file is found by its path, its inode is
locked and referenced while it is read, and at the end the process gets the new address
space, a new name and new registers. Only the fields of struct proc and of struct inode that
exec reads or writes are kept. The inode was found by a name, so that its last iput does not
free it on disk. -/
namespace Xv6.ExecCall
open TraceMonad BitField Vm VmSpec PageTables AddressSpaces ExecPlan Growth Allocation Isolation
open Loading Exec Arguments ExecSafety ExecFrame UserMemory ProgramImage ArgumentStack NullPointer

/-- The fields of struct trapframe. -/
inductive Register where
  | eax | rbx | rcx | rdx | rbp | rsi | rdi | r8 | r9 | r10 | r11 | r12 | r13 | r14 | r15
  | trapno | err | eip | cs | eflags | esp | ds
  deriving DecidableEq

structure Proc where
  sz : Nat
  pgdir : Nat
  tf : Register → Nat
  ofile : Nat → Option Nat
  cwd : Nat
  name : List UInt8

def Proc.withRegister (proc : Proc) (register : Register) (value : Nat) : Proc :=
  { proc with tf := Function.update proc.tf register value }

structure Inode where
  ref : Int
  busy : Bool

structure System where
  mem : Memory
  proc : Proc
  inode : Nat → Inode

/-- What namei finds from a directory and what readi returns. -/
structure Files where
  namei : (cwd : Nat) → (path : List UInt8) → Option Nat
  content : Nat → List UInt8

/-- The panics of exec, and the wait for an inode that is locked. -/
inductive Stop where
  | vm (reason : Panic)
  | ilock
  | iunlock
  | sleep

abbrev ExecM := Action System Event Stop

/-- A part of exec that only works on memory. -/
def vm {α : Type} (action : VmM α) : ExecM α := fun s =>
  match action s.mem with
  | (.done value mem, events) => (.done value { s with mem }, events)
  | (.halt reason mem, events) => (.halt (.vm reason) { s with mem }, events)

def System.withInode (s : System) (ip : Nat) (inode : Inode) : System :=
  { s with inode := Function.update s.inode ip inode }

def setInode (ip : Nat) (f : Inode → Inode) : ExecM Unit :=
  change fun s => s.withInode ip (f (s.inode ip))

def setProc (f : Proc → Proc) : ExecM Unit := change fun s => { s with proc := f s.proc }

def namei (fs : Files) (path : List UInt8) : ExecM (Option Nat) := do
  match fs.namei (← inspect (·.proc.cwd)) path with
  | none => pure none
  | some ip => do
    setInode ip fun inode => { inode with ref := inode.ref + 1 }
    pure (some ip)

def ilock (ip : Nat) : ExecM Unit := do
  let inode ← inspect (·.inode ip)
  if inode.ref < 1 then halt .ilock else
  if inode.busy then halt .sleep else
  setInode ip fun inode => { inode with busy := true }

def iunlock (ip : Nat) : ExecM Unit := do
  let inode ← inspect (·.inode ip)
  if !inode.busy || inode.ref < 1 then halt .iunlock else
  setInode ip fun inode => { inode with busy := false }

def iput (ip : Nat) : ExecM Unit := setInode ip fun inode => { inode with ref := inode.ref - 1 }

def iunlockput (ip : Nat) : ExecM Unit := do
  iunlock ip
  iput ip

/-- `elf.entry`. -/
def entryPoint (header : List UInt8) : Nat := numberAt header 24 8

/-- safestrcpy: what stood behind the terminating zeros stays. -/
def safestrcpy (dst src : List UInt8) (n : Nat) : List UInt8 :=
  let copied := (src ++ [0]).take (n - 1) ++ [0]
  copied ++ dst.drop copied.length

/-- The path after its last slash. -/
def lastName (path : List UInt8) : List UInt8 :=
  (path.reverse.takeWhile (· ≠ 47)).reverse

/-- The label bad. -/
def bad (pgdir ip : Option Nat) : ExecM Int := do
  match pgdir with
  | some pgdir => vm (freevm pgdir)
  | none => pure ()
  match ip with
  | some ip => iunlockput ip
  | none => pure ()
  pure (-1)

/-- The new image is the process's image. -/
def commit (path header : List UInt8) (pgdir sz sp : Nat) : ExecM Int := do
  setProc fun proc => { proc with name := safestrcpy proc.name (lastName path) 16 }
  let oldpgdir ← inspect (·.proc.pgdir)
  setProc fun proc => ({ proc with pgdir, sz }.withRegister .eip (entryPoint header)).withRegister .esp sp
  vm (change fun m => { m with cr3 := pgdir })
  vm (freevm oldpgdir)
  pure 0

/-- ustack is copied below the strings. By then rdi and rsi are set. -/
def storeWords (path header : List UInt8) (pgdir sz sp : Nat) (addresses : List Nat) :
    ExecM Int := do
  let words := ustack sp addresses
  setProc (·.withRegister .rdi addresses.length)
  setProc (·.withRegister .rsi ((sp + 2 ^ 64 - (addresses.length + 1) * 8) % 2 ^ 64))
  let sp := (sp + 2 ^ 64 - words.length * 8) % 2 ^ 64
  if ← vm (copyout pgdir sp (words.flatMap wordBytes)) then
    commit path header pgdir sz sp
  else bad (some pgdir) none

/-- From the two stack pages on. -/
def startStack (path header : List UInt8) (argv : List (List UInt8)) (pgdir size : Nat) :
    ExecM Int := do
  match ← vm (buildStack pgdir (pgroundup size) argv) with
  | none => bad (some pgdir) none
  | some (sz, sp, addresses) => storeWords path header pgdir sz sp addresses

/-- From the check of the ELF header on. -/
def load (path file : List UInt8) (argv : List (List UInt8)) (ip : Nat) : ExecM Int := do
  let header := (readi file 0 elfhdrSize).getD []
  if header.length < elfhdrSize then bad none (some ip) else
  let elf := readElfhdr header
  if elf.magic ≠ elfMagic then bad none (some ip) else do
  match ← vm setupkvm with
  | none => bad none (some ip)
  | some pgdir => do
    match ← vm (loadSegments pgdir file elf.phnum (elf.phoff % 2 ^ 32) 0) with
    | none => bad (some pgdir) (some ip)
    | some size => do
      iunlockput ip
      startStack path header argv pgdir size

def exec (fs : Files) (path : List UInt8) (argv : List (List UInt8)) : ExecM Int := do
  match ← namei fs path with
  | none => pure (-1)
  | some ip => do
    ilock ip
    load path (fs.content ip) argv ip

section Parts
variable {s t : System} {α : Type} {ip : Nat} {path file : List UInt8} {argv : List (List UInt8)}
  {fs : Files}

theorem vm_done {action : VmM α} {value : α} {mem : Memory} {events : List Event}
    (run : action s.mem = (.done value mem, events)) :
    vm action s = (.done value { s with mem }, events) := by
  rw [vm, run]

theorem vm_halt {action : VmM α} {reason : Panic} {mem : Memory} {events : List Event}
    (run : action s.mem = (.halt reason mem, events)) :
    vm action s = (.halt (.vm reason) { s with mem }, events) := by
  rw [vm, run]

theorem halts_vm {action : VmM α} (halts : Halts (action s.mem)) : Halts (vm action s) := by
  obtain ⟨reason, stopped, ran⟩ := halts
  have run : action s.mem = (.halt reason stopped, _) := Prod.ext ran rfl
  exact ⟨_, _, by rw [vm_halt run]⟩

theorem setInode_run (f : Inode → Inode) :
    setInode ip f s = (.done () (s.withInode ip (f (s.inode ip))), []) := rfl

theorem withInode_twice {one two : Inode} :
    (s.withInode ip one).withInode ip two = s.withInode ip two := by
  simp only [System.withInode, Function.update_idem]

/-- The inode while exec reads the file. -/
def locked (s : System) (ip : Nat) : System := s.withInode ip ⟨(s.inode ip).ref + 1, true⟩

theorem exec_missing (none_ : fs.namei s.proc.cwd path = none) :
    exec fs path argv s = (.done (-1) s, []) := by
  have looked : namei fs path s = (.done none s, []) := by
    rw [namei, bind_inspect]
    simp only [none_]
    rfl
  rw [exec, bind_quiet looked]
  rfl

theorem namei_found (found : fs.namei s.proc.cwd path = some ip) : namei fs path s =
    (.done (some ip) (s.withInode ip ⟨(s.inode ip).ref + 1, (s.inode ip).busy⟩), []) := by
  rw [namei, bind_inspect]
  simp only [found]
  rw [bind_quiet (setInode_run _)]
  rfl

theorem exec_opened (found : fs.namei s.proc.cwd path = some ip) (idle : (s.inode ip).busy = false)
    (counted : 0 ≤ (s.inode ip).ref) :
    exec fs path argv s = load path (fs.content ip) argv ip (locked s ip) := by
  have taken : ilock ip (s.withInode ip ⟨(s.inode ip).ref + 1, (s.inode ip).busy⟩) =
      (.done () (locked s ip), []) := by
    rw [ilock, bind_inspect]
    simp only [System.withInode, Function.update_self]
    rw [if_neg (by omega), if_neg (by simp [idle]), setInode_run]
    simp only [System.withInode, Function.update_self, Function.update_idem, locked]
  rw [exec, bind_quiet (namei_found found)]
  exact bind_quiet taken

theorem iunlockput_locked (idle : (s.inode ip).busy = false) (counted : 0 ≤ (s.inode ip).ref)
    (same : t.inode = (locked s ip).inode) :
    iunlockput ip t = (.done () { t with inode := s.inode }, []) := by
  have here : t.inode ip = ⟨(s.inode ip).ref + 1, true⟩ := by
    rw [same]
    exact Function.update_self ..
  have unlocked : iunlock ip t =
      (.done () (t.withInode ip ⟨(s.inode ip).ref + 1, false⟩), []) := by
    rw [iunlock, bind_inspect]
    simp only [here]
    rw [if_neg, setInode_run, here]
    simp only [Bool.not_true, Bool.false_or, decide_eq_true_eq]
    omega
  have restored : Function.update t.inode ip ⟨(s.inode ip).ref, false⟩ = s.inode := by
    rw [same, locked, System.withInode, Function.update_idem, ← idle]
    exact Function.update_eq_self ..
  rw [iunlockput, bind_quiet unlocked, iput, setInode_run, withInode_twice]
  simp only [System.withInode, Function.update_self, Int.add_sub_cancel, restored]

theorem load_header : load path file argv ip =
    match elfHeader file with
    | none => bad none (some ip)
    | some elf => vm setupkvm >>= fun made =>
      match made with
      | none => bad none (some ip)
      | some pgdir => vm (loadSegments pgdir file elf.phnum (elf.phoff % 2 ^ 32) 0) >>= fun loaded =>
        match loaded with
        | none => bad (some pgdir) (some ip)
        | some size => iunlockput ip >>= fun _ =>
          startStack path ((readi file 0 elfhdrSize).getD []) argv pgdir size := by
  rw [load, elfHeader]
  cases readi file 0 elfhdrSize with
  | none => rfl
  | some bytes =>
    simp only [Option.getD_some, Option.bind_some]
    by_cases short : bytes.length < elfhdrSize
    · rw [if_pos short, if_pos short]
    · rw [if_neg short, if_neg short]
      by_cases magic : (readElfhdr bytes).magic = elfMagic
      · rw [if_neg (by simp [magic]), if_pos magic]
      · rw [if_pos magic, if_neg magic]

end Parts

/-! The stack part. -/

/-- The strings are in the stack page but the words of ustack do not fit below them, or there
is no stack page and no string: what rdi and rsi are by then. -/
def spilled (plan : Plan) (argv : List (List UInt8)) : Option (Nat × Nat) :=
  (built plan argv).bind fun (sz, sp, addresses) =>
    if stackLost plan ∨ sp - (addresses.length + 4) * 8 < sz - pgsize then
      some (addresses.length, sp - (addresses.length + 1) * 8)
    else none

def Proc.stored (proc : Proc) : Option (Nat × Nat) → Proc
  | none => proc
  | some (argc, argvp) => (proc.withRegister .rdi argc).withRegister .rsi argvp

section Stack
variable {t : System} {role : Nat → Role} {d : Nat} {plan : Plan} {path header : List UInt8}
  {argv : List (List UInt8)}

theorem bad_freed (roles : Roles t.mem role) (dir : role d = .dir) :
    ∃ mem, bad (some d) none t = (.done (-1) { t with mem }, []) ∧ Spared t.mem mem role d ∧
      mem.cr3 = t.mem.cr3 := by
  obtain ⟨mem, run, -, fixed⟩ := freevm_run roles dir
  refine ⟨mem, ?_, reached_run (freevm_spared roles dir) run, fixed.cr3⟩
  rw [bad, bind_quiet (vm_done run)]
  rfl

/-- The new stack and the words on it. -/
structure Stacks (plan : Plan) (m : Memory) (role : Nat → Role) (d : Nat) (argv : List (List UInt8))
    (next : Memory) (sz sp : Nat) (addresses : List Nat) : Prop where
  isBuilt : built plan argv = some (sz, sp, addresses)
  size : sz = (plan.mapped + 2) * pgsize
  pointer : Pointer plan.mapped sp
  length : addresses.length = argv.length
  few : argv.length ≤ maxarg
  whole : stackLost plan = false
  room : sz - pgsize ≤ sp - (addresses.length + 4) * 8
  spared : Spared m next role d
  cr3 : next.cr3 = m.cr3
  roles : ∃ role', Roles next role' ∧ Local d role role' ∧
    ∀ q i j, role' q = .leaf d i j → 512 * i + j < plan.mapped + 2
  image : ∃ after, allocuvm d (pages plan.size * pgsize) (pages plan.size * pgsize + 2 * pgsize) m =
      (.done (pages plan.size * pgsize + 2 * pgsize) after, []) ∧
    (∃ img, Image after d plain (plan.mapped + 2) img) ∧
    ∀ img, Image after d plain (plan.mapped + 2) img →
      Image next d (guarded plan.mapped) (plan.mapped + 2)
        (overlay (strings img argv addresses) (sp - (addresses.length + 4) * 8)
          ((ustack sp addresses).flatMap wordBytes))

theorem storeWords_start (path header : List UInt8) (sz : Nat) {sp : Nat} {addresses : List Nat}
    (small : sp < 2 ^ 64) (room : (addresses.length + 4) * 8 ≤ sp) :
    storeWords path header d sz sp addresses t =
      (vm (copyout d (sp - (addresses.length + 4) * 8) ((ustack sp addresses).flatMap wordBytes)) >>=
        fun copied => if copied = true then commit path header d sz (sp - (addresses.length + 4) * 8)
          else bad (some d) none)
        ⟨t.mem, t.proc.stored (some (addresses.length, sp - (addresses.length + 1) * 8)),
          t.inode⟩ := by
  have words : (sp + 2 ^ 64 - (ustack sp addresses).length * 8) % 2 ^ 64 =
      sp - (addresses.length + 4) * 8 := by
    rw [length_ustack]
    omega
  have pointers : (sp + 2 ^ 64 - (addresses.length + 1) * 8) % 2 ^ 64 =
      sp - (addresses.length + 1) * 8 := by omega
  rw [storeWords, pointers, words]
  have rdi : setProc (·.withRegister .rdi addresses.length) t = (.done () _, []) := rfl
  have rsi : setProc (·.withRegister .rsi (sp - (addresses.length + 1) * 8))
      { t with proc := t.proc.withRegister .rdi addresses.length } = (.done () _, []) := rfl
  exact (bind_quiet rdi).trans (bind_quiet rsi)

theorem ustack_bytes {sp : Nat} {addresses : List Nat} :
    ((ustack sp addresses).flatMap wordBytes).length = (addresses.length + 4) * 8 := by
  rw [length_wordBytes, length_ustack]

theorem ustack_some {sp : Nat} {addresses : List Nat} :
    (ustack sp addresses).flatMap wordBytes ≠ [] := by
  rw [← List.length_pos_iff, ustack_bytes]
  omega

theorem storeWords_cases (path header : List UInt8) (sz : Nat) {k sp : Nat} {addresses : List Nat}
    (stacked : Stacked t.mem role d k true) (pointer : Pointer k sp)
    (few : addresses.length ≤ maxarg) :
    let after := t.proc.stored (some (addresses.length, sp - (addresses.length + 1) * 8))
    (sp - (addresses.length + 4) * 8 < (k + 1) * pgsize ∧ ∃ mem events,
      storeWords path header d sz sp addresses t =
        (.done (-1) { t with mem, proc := after }, events) ∧
      Spared t.mem mem role d ∧ mem.cr3 = t.mem.cr3) ∨
    (k + 1) * pgsize ≤ sp - (addresses.length + 4) * 8 ∧ ∃ mem events,
      storeWords path header d sz sp addresses t =
        ((commit path header d sz (sp - (addresses.length + 4) * 8)
          ⟨mem, after, t.inode⟩).1, events ++ (commit path header d sz
          (sp - (addresses.length + 4) * 8) ⟨mem, after, t.inode⟩).2) ∧
      Spares t.mem role d mem ∧ Roles mem role ∧
      ∀ img, Image t.mem d (guarded k) (k + 2) img → Image mem d (guarded k) (k + 2)
        (overlay img (sp - (addresses.length + 4) * 8) ((ustack sp addresses).flatMap wordBytes)) := by
  intro after
  obtain ⟨above, inside, -⟩ := pointer
  have bound := stacked.bound
  simp only [physPages, pgsize, maxarg] at bound above inside few
  have copy : Copies _ _ _ (copyout d (sp - (addresses.length + 4) * 8)
      ((ustack sp addresses).flatMap wordBytes) t.mem) :=
    copyout_run stacked ustack_some (by rw [ustack_bytes]; simp only [pgsize]; omega)
      (by rw [ustack_bytes]; simp only [pgsize]; omega)
  obtain ⟨copied, mem, ran, sound, -, isCopied, stacked', fixed⟩ := copy.clean (.inr rfl)
  have run : copyout d (sp - (addresses.length + 4) * 8) ((ustack sp addresses).flatMap wordBytes)
      t.mem = (.done copied mem, _) := Prod.ext ran rfl
  have spares := reached_sound (copyout_spares stacked.roles stacked.dir) run sound
  rw [storeWords_start path header sz (by omega) (by omega)]
  by_cases below : sp - (addresses.length + 4) * 8 < (k + 1) * pgsize
  · rw [decide_eq_false (Nat.not_le.2 below)] at isCopied
    subst isCopied
    obtain ⟨role', roles', change, -, spared⟩ := spares
    obtain ⟨last, freed, spared', cr3⟩ := bad_freed (t := ⟨mem, after, t.inode⟩) stacked'.roles
      stacked'.dir
    refine .inl ⟨below, last, _, bind_done_done (vm_done run) freed,
      spared_trans local_refl spared spared', cr3.trans fixed.cr3⟩
  · rw [decide_eq_true (Nat.le_of_not_lt below)] at isCopied
    subst isCopied
    refine .inr ⟨Nat.le_of_not_lt below, mem, _,
      bind_done (vm_done (s := ⟨t.mem, after, t.inode⟩) run), spares, stacked'.roles,
      fun img image => ?_⟩
    have fits : sp - (addresses.length + 4) * 8 +
        ((ustack sp addresses).flatMap wordBytes).length ≤ (k + 2) * pgsize := by
      rw [ustack_bytes]
      simp only [pgsize]
      omega
    obtain ⟨mem', trace, run', -, -, -, image'⟩ := copy_inside stacked image
      (Nat.le_of_not_lt below) fits ustack_some
    rw [run] at run'
    cases run'
    exact image'

/-- The stack part gives up, with rdi and rsi set when only the last copy failed, or the
new image is committed. -/
theorem startStack_cases (path header : List UInt8) (holds : Holds plan t.mem role d)
    (short : ∀ arg ∈ argv, arg.length + 1 ≤ physPages * pgsize)
    (fits : StackFits plan (argv.take maxarg)) :
    (∃ mem events, startStack path header argv d plan.size t =
        (.done (-1) { t with mem, proc := t.proc.stored (spilled plan argv) }, events) ∧
      Spared t.mem mem role d ∧ mem.cr3 = t.mem.cr3) ∨
    spilled plan argv = none ∧ ∃ mem events sz sp addresses,
      Stacks plan t.mem role d argv mem sz sp addresses ∧
      startStack path header argv d plan.size t =
        ((commit path header d sz (sp - (addresses.length + 4) * 8)
          ⟨mem, t.proc.stored (some (addresses.length, sp - (addresses.length + 1) * 8)),
            t.inode⟩).1,
          events ++ (commit path header d sz (sp - (addresses.length + 4) * 8)
          ⟨mem, t.proc.stored (some (addresses.length, sp - (addresses.length + 1) * 8)),
            t.inode⟩).2) := by
  have dir := holds.filled.dense.dir
  obtain ⟨next, trace, run, sound, ⟨role', roles', change, fixed, spared⟩, done⟩ :=
    buildStack_run holds short fits
  cases isBuilt : built plan argv with
  | none =>
    have none_ : spilled plan argv = none := by rw [spilled, isBuilt]; rfl
    rw [isBuilt] at run
    obtain ⟨mem, freed, spared', cr3⟩ := bad_freed (t := { t with mem := next }) roles'
      (local_dir change dir)
    rw [none_]
    exact .inl ⟨mem, _, bind_done_done (vm_done run) freed, spared_trans change spared spared',
      cr3.trans fixed.cr3⟩
  | some triple =>
    obtain ⟨sz, sp, addresses⟩ := triple
    rw [isBuilt] at run
    obtain ⟨size, pointer, length, few, whole, ⟨role'', stacked, change', below⟩, after, grown,
      some_, image⟩ := done sz sp addresses isBuilt
    have bottom : sz - pgsize = (plan.mapped + 1) * pgsize := by
      rw [size]
      simp only [pgsize]
      omega
    rcases storeWords_cases path header sz (t := { t with mem := next }) stacked pointer
        (by rw [length]; exact few) with
      ⟨low, mem, events, stored, spared', cr3⟩ | ⟨room, mem, events, stored, spares, roles, words⟩
    · have isSpilled : spilled plan argv =
          some (addresses.length, sp - (addresses.length + 1) * 8) := by
        rw [spilled, isBuilt, Option.bind_some]
        dsimp only
        rw [bottom, if_pos (.inr low)]
      rw [isSpilled]
      exact .inl ⟨mem, _, bind_done_done (vm_done run) stored,
        spared_trans change' spared spared', cr3.trans fixed.cr3⟩
    · have isSpilled : spilled plan argv = none := by
        rw [spilled, isBuilt, Option.bind_some]
        dsimp only
        rw [bottom, whole, if_neg (by simp [room])]
      obtain ⟨-, -, -, fixed', spared'⟩ := spares
      refine .inr ⟨isSpilled, mem, trace ++ events, sz, sp, addresses, ⟨isBuilt, size, pointer,
        length, few, whole, by rw [bottom]; exact room, spared_trans change' spared spared',
        fixed'.cr3.trans fixed.cr3, ⟨role'', roles, change', below⟩, after, grown, some_,
        fun img image' => words _ (image img image')⟩, ?_⟩
      rw [startStack, bind_done (vm_done run)]
      dsimp only
      rw [stored, List.append_assoc]

theorem storeWords_lost (path header : List UInt8) (sz : Nat) {k : Nat} (watched : Watched t.mem role d)
    (stacked : Stacked t.mem role d k false) : ∃ mem events,
    storeWords path header d sz ((k + 2) * pgsize) [] t =
      (.done (-1) { t with mem, proc := t.proc.stored (some (0, (k + 2) * pgsize - 8)) }, events) ∧
    Spared t.mem mem role d ∧ mem.cr3 = t.mem.cr3 := by
  have bound := stacked.bound
  simp only [physPages] at bound
  have absent : present (word t.mem d (pdx (pgrounddown (((k + 2) * pgsize - 32) % 2 ^ 32)))) =
      false :=
    stacked_lost stacked (by simp only [pgsize]; omega) (by simp only [pgsize]; omega)
  obtain ⟨trace, run⟩ := copyout_null watched ustack_some absent
  obtain ⟨last, freed, spared, cr3⟩ := bad_freed
    (t := { t with proc := t.proc.stored (some (0, (k + 2) * pgsize - 8)) }) stacked.roles stacked.dir
  rw [storeWords_start path header sz (by simp only [pgsize]; omega)
    (by simp only [pgsize, List.length_nil]; omega)]
  exact ⟨last, _, bind_done_done (vm_done run) freed, spared, cr3⟩

theorem startStack_misfit (path header : List UInt8) (holds : Holds plan t.mem role d)
    (safe : Watched t.mem role d ∨ Modest plan argv)
    (short : ∀ arg ∈ argv, arg.length + 1 ≤ physPages * pgsize)
    (misfit : ¬ StackFits plan (argv.take maxarg)) :
    (∃ mem events, startStack path header argv d plan.size t =
        (.done (-1) { t with mem, proc := t.proc.stored (spilled plan argv) }, events) ∧
      Spared t.mem mem role d ∧ mem.cr3 = t.mem.cr3) ∨
    spilled plan argv = none ∧ Halts (startStack path header argv d plan.size t) := by
  rcases buildStack_misfit holds safe short misfit with
    ⟨rfl, lost, isBuilt, next, role', run, stacked, watched', change, fixed, spared⟩ |
    ⟨isBuilt, ⟨next, trace, run, role', roles', change, fixed, spared⟩ | halts⟩
  · have isSpilled : spilled plan [] = some (0, (plan.mapped + 2) * pgsize - 8) := by
      rw [spilled, isBuilt, Option.bind_some]
      dsimp only
      rw [if_pos (.inl lost)]
      rfl
    rw [isBuilt] at run
    obtain ⟨mem, events, stored, spared', cr3⟩ :=
      storeWords_lost path header ((plan.mapped + 2) * pgsize) (t := { t with mem := next })
        watched' stacked
    rw [isSpilled]
    exact .inl ⟨mem, _, bind_done_done (vm_done run) stored, spared_trans change spared spared',
      cr3.trans fixed.cr3⟩
  · have none_ : spilled plan argv = none := by rw [spilled, isBuilt]; rfl
    obtain ⟨mem, freed, spared', cr3⟩ := bad_freed (t := { t with mem := next }) roles'
      (local_dir change holds.filled.dense.dir)
    rw [none_]
    exact .inl ⟨mem, _, bind_done_done (vm_done run) freed, spared_trans change spared spared',
      cr3.trans fixed.cr3⟩
  · exact .inr ⟨by rw [spilled, isBuilt]; rfl, halts_bind (halts_vm halts)⟩

end Stack

/-! The whole call. -/

/-- What the process is once the new image is committed. -/
def Proc.committed (proc : Proc) (path header : List UInt8) (pgdir sz sp : Nat) : Proc :=
  ({ proc with
      pgdir, sz, name := safestrcpy proc.name (lastName path) 16 }.withRegister .eip
        (entryPoint header)).withRegister .esp sp

section Call
variable {s t : System} {role : Nat → Role} {d ip : Nat} {plan : Plan} {fs : Files}
  {path header file : List UInt8} {argv : List (List UInt8)}

theorem commit_run (path header : List UInt8) (sz sp : Nat) (roles : Roles t.mem role) (dir : role d = .dir)
    (old : role t.proc.pgdir = .dir) (apart : d ≠ t.proc.pgdir) : ∃ mem,
    commit path header d sz sp t =
      (.done 0 ⟨mem, t.proc.committed path header d sz sp, t.inode⟩, []) ∧
    Kept t.mem mem d ∧ mem.cr3 = d := by
  have roles' : Roles { t.mem with cr3 := d } role := roles_congr roles rfl rfl fun _ _ _ => rfl
  obtain ⟨mem, run, -, fixed⟩ := freevm_run roles' old
  have spared : Spared t.mem mem role t.proc.pgdir := reached_run (freevm_spared roles' old) run
  refine ⟨mem, ?_, kept_of_spared roles dir old apart spared, fixed.cr3⟩
  simp only [commit, bind_run, setProc, change, inspect, vm, run, pure_run, List.append_nil]
  rfl

/-- A state in which a process calls exec. -/
structure Ready (fs : Files) (path : List UInt8) (s : System) (role : Nat → Role) : Prop where
  caller : Caller s.mem role
  current : s.proc.pgdir = s.mem.cr3
  enough : 3 ≤ s.mem.freelist.length
  idle : ∀ ip, fs.namei s.proc.cwd path = some ip →
    (s.inode ip).busy = false ∧ 0 ≤ (s.inode ip).ref

/-- How exec replaced the image of the process: the segments went into the address space d,
which was loaded by then, the stack made it next. -/
structure Replaced (path file : List UInt8) (argv : List (List UInt8)) (s final : System)
    (elf : Elfhdr) (plan : Plan) (role : Nat → Role) (d sz sp : Nat) (addresses : List Nat)
    (loaded next : Memory) : Prop where
  header : elfHeader file = some elf
  isPlan : imagePlan file s.mem.freelist.length = some plan
  run : ∃ u v rest trace, s.mem.freelist = u :: v :: d :: rest ∧
    loadSegments d file elf.phnum (elf.phoff % 2 ^ 32) 0 (withSpace s.mem u v d rest) =
      (.done (some plan.size) loaded, trace)
  holds : Holds plan loaded role d
  stack : Stacks plan loaded role d argv next sz sp addresses
  kept : Kept next final.mem d
  cr3 : final.mem.cr3 = d
  proc : final.proc = (s.proc.stored
    (some (addresses.length, sp - (addresses.length + 1) * 8))).committed path
      ((readi file 0 elfhdrSize).getD []) d sz (sp - (addresses.length + 4) * 8)

/-- What rdi and rsi are when exec gives up after it set them. -/
def spill (fs : Files) (path : List UInt8) (argv : List (List UInt8)) (s : System) :
    Option (Nat × Nat) :=
  (fs.namei s.proc.cwd path).bind fun ip =>
    (imagePlan (fs.content ip) s.mem.freelist.length).bind (spilled · argv)

/-- The memory as the caller sees it. -/
def Unchanged (m next : Memory) : Prop := Kept m next m.cr3 ∧ next.cr3 = m.cr3

theorem unchanged_refl (m : Memory) : Unchanged m m := ⟨fun _ _ => ⟨rfl, fun _ _ => rfl⟩, rfl⟩

section Fresh
variable {u v : Nat} {rest : List Nat}

theorem unchanged_spared {mem : Memory} (caller : Caller s.mem role)
    (freelist : s.mem.freelist = u :: v :: d :: rest)
    (spared : Spared (withSpace s.mem u v d rest) mem (created role u v d) d)
    (cr3 : mem.cr3 = s.mem.cr3) : Unchanged s.mem mem := by
  obtain ⟨roles, isFree, dir, -⟩ := created_space caller.roles freelist
  obtain ⟨-, same, apart⟩ := withSpace_used caller.roles freelist (by simp [caller.dir] :
    role s.mem.cr3 ≠ .free)
  exact ⟨kept_trans (kept_withSpace caller.roles caller.dir freelist)
    (kept_of_spared roles (by rw [same, caller.dir]) dir apart spared), cr3⟩

theorem watched_fresh (caller : Caller s.mem role) (blocked : Blocked s.mem)
    (freelist : s.mem.freelist = u :: v :: d :: rest) :
    Watched (withSpace s.mem u v d rest) (created role u v d) d := by
  obtain ⟨roles, isFree, dir, -⟩ := created_space caller.roles freelist
  obtain ⟨-, same, apart⟩ := withSpace_used caller.roles freelist (by simp [caller.dir] :
    role s.mem.cr3 ≠ .free)
  exact watched_kept caller blocked roles (by rw [same, caller.dir]) dir apart
    (kept_withSpace caller.roles caller.dir freelist) withSpace_cr3

end Fresh

theorem bad_opened (idle : (s.inode ip).busy = false) (counted : 0 ≤ (s.inode ip).ref)
    (same : t.inode = (locked s ip).inode) :
    bad none (some ip) t = (.done (-1) { t with inode := s.inode }, []) := by
  rw [bad]
  exact bind_quiet (iunlockput_locked idle counted same)

theorem bad_loaded (idle : (s.inode ip).busy = false) (counted : 0 ≤ (s.inode ip).ref)
    (same : t.inode = (locked s ip).inode) (roles : Roles t.mem role) (dir : role d = .dir) :
    ∃ mem, bad (some d) (some ip) t = (.done (-1) ⟨mem, t.proc, s.inode⟩, []) ∧
      Spared t.mem mem role d ∧ mem.cr3 = t.mem.cr3 := by
  obtain ⟨mem, run, -, fixed⟩ := freevm_run roles dir
  refine ⟨mem, ?_, reached_run (freevm_spared roles dir) run, fixed.cr3⟩
  have given := iunlockput_locked (t := { t with mem }) idle counted same
  exact (bind_quiet (vm_done run)).trans (bind_quiet given)

section Loaded
variable {u v : Nat} {rest : List Nat} {loaded : Memory} {role' : Nat → Role}

theorem startStack_ends (header : List UInt8) (ready : Ready fs path s role)
    (freelist : s.mem.freelist = u :: v :: d :: rest)
    (short : ∀ arg ∈ argv, arg.length + 1 ≤ physPages * pgsize)
    (fits : StackFits plan (argv.take maxarg) ∨ Blocked s.mem ∨ Modest plan argv)
    (holds : Holds plan loaded role' d) (change : Local d (created role u v d) role')
    (fixed : Fixed (withSpace s.mem u v d rest) loaded)
    (spared : Spared (withSpace s.mem u v d rest) loaded (created role u v d) d) :
    (∃ mem events, startStack path header argv d plan.size ⟨loaded, s.proc, s.inode⟩ =
        (.done (-1) ⟨mem, s.proc.stored (spilled plan argv), s.inode⟩, events) ∧
      Unchanged s.mem mem) ∨
    spilled plan argv = none ∧
      (Halts (startStack path header argv d plan.size ⟨loaded, s.proc, s.inode⟩) ∨
        ∃ final events sz sp addresses next,
          startStack path header argv d plan.size ⟨loaded, s.proc, s.inode⟩ =
            (.done 0 final, events) ∧
          Stacks plan loaded role' d argv next sz sp addresses ∧ Kept next final.mem d ∧
          final.mem.cr3 = d ∧ final.proc = (s.proc.stored
            (some (addresses.length, sp - (addresses.length + 1) * 8))).committed path header d sz
              (sp - (addresses.length + 4) * 8)) := by
  obtain ⟨caller, current, -, -⟩ := ready
  obtain ⟨roles, isFree, dir, -⟩ := created_space caller.roles freelist
  obtain ⟨-, same, apart⟩ := withSpace_used caller.roles freelist (by simp [caller.dir] :
    role s.mem.cr3 ≠ .free)
  have cr3 : loaded.cr3 = s.mem.cr3 := fixed.cr3.trans withSpace_cr3
  have fails : ∀ {mem}, Spared loaded mem role' d → mem.cr3 = loaded.cr3 → Unchanged s.mem mem :=
    fun spared' cr3' => unchanged_spared caller freelist (spared_trans change spared spared')
      (cr3'.trans cr3)
  by_cases fit : StackFits plan (argv.take maxarg)
  · rcases startStack_cases path header (t := ⟨loaded, s.proc, s.inode⟩) holds short fit with
      ⟨mem, events, run, spared', cr3'⟩ |
      ⟨none_, next, events, sz, sp, addresses, stack, run⟩
    · exact .inl ⟨mem, events, run, fails spared' cr3'⟩
    · obtain ⟨role'', roles'', change', -⟩ := stack.roles
      have old : role'' s.proc.pgdir = .dir := by
        rw [current]
        exact local_dir change' (local_dir change (by rw [same, caller.dir]))
      obtain ⟨mem, committed, kept, cr3''⟩ := commit_run path header sz
        (sp - (addresses.length + 4) * 8)
        (t := ⟨next, s.proc.stored (some (addresses.length, sp - (addresses.length + 1) * 8)),
          s.inode⟩) roles'' (local_dir change' holds.filled.dense.dir) old
        (by change d ≠ s.proc.pgdir; rw [current]; exact apart.symm)
      rw [committed] at run
      exact .inr ⟨none_, .inr ⟨_, _, sz, sp, addresses, next, run, stack, kept, cr3'', rfl⟩⟩
  · have safe : Watched loaded role' d ∨ Modest plan argv :=
      (fits.resolve_left fit).imp_left fun blocked => watched_later
        (watched_fresh caller blocked freelist) holds.filled.dense.roles change fixed spared
    rcases startStack_misfit path header (t := ⟨loaded, s.proc, s.inode⟩) holds safe short
        fit with ⟨mem, events, run, spared', cr3'⟩ | ⟨none_, halts⟩
    · exact .inl ⟨mem, events, run, fails spared' cr3'⟩
    · exact .inr ⟨none_, .inl halts⟩

end Loaded

/-- The segments are in the new address space d. -/
structure Started (path file : List UInt8) (argv : List (List UInt8)) (s : System) (ip : Nat)
    (role role' : Nat → Role) (elf : Elfhdr) (plan : Plan) (u v d : Nat) (rest : List Nat)
    (loaded : Memory) (trace : List Event) : Prop where
  header : elfHeader file = some elf
  freelist : s.mem.freelist = u :: v :: d :: rest
  isPlan : imagePlan file s.mem.freelist.length = some plan
  run : loadSegments d file elf.phnum (elf.phoff % 2 ^ 32) 0 (withSpace s.mem u v d rest) =
    (.done (some plan.size) loaded, trace)
  holds : Holds plan loaded role' d
  change : Local d (created role u v d) role'
  fixed : Fixed (withSpace s.mem u v d rest) loaded
  spared : Spared (withSpace s.mem u v d rest) loaded (created role u v d) d
  later : load path file argv ip (locked s ip) =
    ((startStack path ((readi file 0 elfhdrSize).getD []) argv d plan.size
        ⟨loaded, s.proc, s.inode⟩).1,
      trace ++ (startStack path ((readi file 0 elfhdrSize).getD []) argv d plan.size
        ⟨loaded, s.proc, s.inode⟩).2)

theorem three_free : ∀ {l : List Nat}, 3 ≤ l.length → ∃ u v d rest, l = u :: v :: d :: rest
  | u :: v :: d :: rest, _ => ⟨u, v, d, rest, rfl⟩

theorem load_starts (path file : List UInt8) (argv : List (List UInt8)) (caller : Caller s.mem role)
    (enough : 3 ≤ s.mem.freelist.length) (idle : (s.inode ip).busy = false)
    (counted : 0 ≤ (s.inode ip).ref) :
    (imagePlan file s.mem.freelist.length = none ∧
      ((∃ mem events, load path file argv ip (locked s ip) =
          (.done (-1) ⟨mem, s.proc, s.inode⟩, events) ∧ Unchanged s.mem mem) ∨
        Halts (load path file argv ip (locked s ip)))) ∨
    ∃ role' elf plan u v d rest loaded trace,
      Started path file argv s ip role role' elf plan u v d rest loaded trace := by
  rw [load_header]
  cases header : elfHeader file with
  | none =>
    have image : imagePlan file s.mem.freelist.length = none := by rw [imagePlan, header]; rfl
    exact .inl ⟨image, .inl ⟨s.mem, [], bad_opened idle counted rfl, unchanged_refl s.mem⟩⟩
  | some elf =>
    obtain ⟨u, v, d, rest, freelist⟩ := three_free enough
    have image : imagePlan file s.mem.freelist.length =
        planSegments file elf.phnum (elf.phoff % 2 ^ 32) ⟨0, 0, rest.length⟩ := by
      simp [imagePlan, header, freelist]
    have holds := holds_fresh caller.roles freelist
    have dir := holds.filled.dense.dir
    have made : vm setupkvm (locked s ip) =
        (.done (some d) { locked s ip with mem := withSpace s.mem u v d rest }, []) :=
      vm_done (setupkvm_run freelist)
    obtain ⟨-, ends⟩ : Loads (SegmentsFit file elf.phnum (elf.phoff % 2 ^ 32) _) _ _ _ :=
      loadSegments_run holds
    rcases run : loadSegments d file elf.phnum (elf.phoff % 2 ^ 32) 0
      (withSpace s.mem u v d rest) with ⟨outcome, trace⟩
    dsimp only at ends ⊢
    rw [run] at ends
    rw [image, bind_quiet made]
    dsimp only
    cases outcome with
    | halt reason stopped =>
      obtain ⟨-, broken⟩ := ends
      exact .inl ⟨broken,
        .inr (halts_bind (halts_vm ⟨reason, stopped, by rw [run]⟩))⟩
    | done result loaded =>
      obtain ⟨-, role', change, fixed, planned⟩ := ends
      obtain ⟨-, -, -, -, spared⟩ :=
        reached_run (loadSegments_spares holds.filled.dense.roles dir) run
      have read : vm (loadSegments d file elf.phnum (elf.phoff % 2 ^ 32) 0)
          { locked s ip with mem := withSpace s.mem u v d rest } =
          (.done result { locked s ip with mem := loaded }, trace) := vm_done run
      cases isPlan : planSegments file elf.phnum (elf.phoff % 2 ^ 32) ⟨0, 0, rest.length⟩ with
      | none =>
        rw [isPlan] at planned
        obtain ⟨rfl, roles'⟩ := planned
        obtain ⟨mem, freed, spared', cr3⟩ := bad_loaded
          (t := { locked s ip with mem := loaded }) idle counted rfl roles'
          (local_dir change dir)
        exact .inl ⟨rfl, .inl ⟨mem, _, bind_done_done read freed,
          unchanged_spared caller freelist (spared_trans change spared spared')
            (cr3.trans (fixed.cr3.trans withSpace_cr3))⟩⟩
      | some plan =>
        rw [isPlan] at planned
        obtain ⟨rfl, holds'⟩ := planned
        have given : iunlockput ip { locked s ip with mem := loaded } =
            (.done () ⟨loaded, s.proc, s.inode⟩, []) := iunlockput_locked idle counted rfl
        refine .inr ⟨role', elf, plan, u, v, d, rest, loaded, trace, header, freelist,
          by rw [image, isPlan], run, holds', change, fixed, spared, ?_⟩
        rw [load_header, header]
        dsimp only
        rw [bind_quiet made]
        dsimp only
        rw [bind_done read]
        dsimp only
        rw [bind_quiet given]

theorem load_cases (ready : Ready fs path s role) (found : fs.namei s.proc.cwd path = some ip)
    (short : ∀ arg ∈ argv, arg.length + 1 ≤ physPages * pgsize)
    (fits : ∀ plan, imagePlan file s.mem.freelist.length = some plan →
      StackFits plan (argv.take maxarg) ∨ Blocked s.mem ∨ Modest plan argv) :
    (∃ mem events, load path file argv ip (locked s ip) =
        (.done (-1) ⟨mem, s.proc.stored ((imagePlan file s.mem.freelist.length).bind
          (spilled · argv)), s.inode⟩, events) ∧ Unchanged s.mem mem) ∨
    (imagePlan file s.mem.freelist.length).bind (spilled · argv) = none ∧
      (Halts (load path file argv ip (locked s ip)) ∨
        ∃ final events elf plan role' d sz sp addresses loaded next,
          load path file argv ip (locked s ip) = (.done 0 final, events) ∧
          Replaced path file argv s final elf plan role' d sz sp addresses loaded next) := by
  obtain ⟨idle, counted⟩ := ready.idle ip found
  rcases load_starts path file argv ready.caller ready.enough idle counted with
    ⟨image, failed | halts⟩ |
    ⟨role', elf, plan, u, v, d, rest, loaded, trace, header, freelist, isPlan, run, holds, change,
      fixed, spared, later⟩
  · rw [image]
    exact .inl failed
  · rw [image]
    exact .inr ⟨rfl, .inl halts⟩
  · obtain ⟨bytes, isBytes⟩ : ∃ bytes, bytes = (readi file 0 elfhdrSize).getD [] := ⟨_, rfl⟩
    rw [later, isPlan, ← isBytes, Option.bind_some]
    rcases startStack_ends bytes ready freelist short (fits plan isPlan) holds change fixed
        spared with
      ⟨mem, events, run', same⟩ | ⟨none_, ⟨reason, stopped, ran⟩ | ⟨final, events, sz, sp, addresses,
        next, run', stack, kept, cr3, proc⟩⟩
    · refine .inl ⟨mem, trace ++ events, ?_, same⟩
      rw [run']
    · refine .inr ⟨none_, .inl ⟨reason, stopped, ?_⟩⟩
      rw [ran]
    · refine .inr ⟨none_, .inr ⟨final, trace ++ events, elf, plan, role', d, sz, sp, addresses,
        loaded, next, ?_, header, isPlan, ⟨u, v, rest, trace, freelist, run⟩, holds, stack, kept, cr3,
        by rw [← isBytes]; exact proc⟩⟩
      rw [run']

end Call

end Xv6.ExecCall
