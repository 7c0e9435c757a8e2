import Xv6.FileSpec

/-! The system calls keep the kernel's invariant, and each of them moves the inodes
by one `Move`. -/
namespace Xv6.CallSpec
open TraceMonad Layout Codec Bio Fs Disk DevSpec InodeSpec ContentSpec Directory DirSpec Moves OpSpec
open CreateSpec Syscall FileSpec

/-- The kernel after a system call that started from the inodes of `a`. -/
def After (t : Setting) (a : Snap) (k : Kernel) : Prop :=
  ∃ a', KInv t a' k ∧ Move t.sb.ninodes t.permit a.nodes a'.nodes

/-- The slot of the working directory of process `p`. -/
def cwdSlot (k : Kernel) (p : Nat) : Nat := ((k.proc p).cwd).getD 0

/-- The permit covers the entry that the call names, for a process in directory `cwd`. -/
def Allowed (permit : Permit) (nodes : Nat → Node) (cwd : Nat) : Call → Prop
  | .link _ new => MayAdd permit nodes cwd (cstr new)
  | .unlink path => MayRemove permit nodes cwd (cstr path)
  | .open path omode => hasMode omode oCreate = true → MayAdd permit nodes cwd (cstr path)
  | .mkdir path => MayAdd permit nodes cwd (cstr path)
  | .mknod path _ _ => MayAdd permit nodes cwd (cstr path)
  | _ => True

/-- Only descriptor tables differ. -/
structure OfileOnly (k k' : Kernel) : Prop where
  fs : k'.fs = k.fs
  ftable : k'.ftable = k.ftable
  proc : ∀ q, ∃ ofile, k'.proc q = { k.proc q with ofile := ofile }

section Tables
variable {t : Setting} {a : Snap} {k k' : Kernel} {p f fd : Nat}

theorem after_refl (inv : KInv t a k) : After t a k := ⟨a, inv, move_refl _ _⟩

theorem setOfile_run (p fd : Nat) (file : Option Nat) (k : Kernel) :
    ∃ k', setOfile p fd file k = (.done () k', []) ∧ OfileOnly k k' := by
  refine ⟨_, rfl, rfl, rfl, fun q => ?_⟩
  by_cases here : q = p
  · exact ⟨fun d => if d = fd then file else (k.proc q).ofile d, by simp only [here, ↓reduceIte]⟩
  · exact ⟨(k.proc q).ofile, by simp only [if_neg here]⟩

theorem fdalloc_run (p f : Nat) (k : Kernel) :
    ∃ r k', fdalloc p f k = (.done r k', []) ∧ OfileOnly k k' := by
  unfold fdalloc
  rw [bind_done (rfl : inspect Kernel.proc k = (.done k.proc k, []))]
  cases (List.range nofile).find? (fun fd => (k.proc p).ofile fd = none) with
  | none => exact ⟨none, k, rfl, rfl, rfl, fun q => ⟨(k.proc q).ofile, rfl⟩⟩
  | some fd =>
    obtain ⟨k', run, only⟩ := setOfile_run p fd (some f) k
    exact ⟨some fd, k', by simp only [bind_done run]; rfl, only⟩

theorem ofileOnly_procs (only : OfileOnly k k') (procs : ProcsOk k.proc) : ProcsOk k'.proc := by
  refine ⟨fun q running => ?_, fun q idle => ?_⟩
  · obtain ⟨ofile, same⟩ := only.proc q
    rw [same] at running ⊢
    exact procs.running q running
  · obtain ⟨ofile, same⟩ := only.proc q
    rw [same] at idle ⊢
    exact procs.others q idle

theorem ofileOnly_holders (only : OfileOnly k k') : holders k' = holders k := by
  refine holders_same (fun q => ?_) fun g => by rw [only.ftable]; exact ⟨rfl, rfl⟩
  obtain ⟨ofile, same⟩ := only.proc q
  rw [same]

theorem kinv_ofile (inv : KInv t a k) (only : OfileOnly k k') : KInv t a k' :=
  kinv_tables inv only.fs (ofileOnly_holders only) (by rw [only.ftable]; exact filesKept_refl _)
    (ofileOnly_procs only inv.procs)

theorem filedup_spec (kern : Kern t) (inv : KInv t a k) :
    Ensures t.contract (filedup f) k (fun _ k' => KInv t a k' ∧ k'.proc = k.proc) := by
  apply ensures_inspect_then
  by_cases unused : (k.ftable f).ref < 1
  · rw [if_pos unused]
    exact ensures_halt (kern.files _ (by decide))
  rw [if_neg unused]
  refine ensures_change ⟨kinv_tables inv rfl (holders_same (fun _ => rfl) fun g => ?_)
    (fun g type => ?_) inv.procs, rfl⟩
  · by_cases here : g = f <;> simp [here]
  · by_cases here : g = f
    · subst here
      simp only [↓reduceIte] at type ⊢
      exact ⟨type, trivial, trivial, fun _ => by omega⟩
    · simp only [if_neg here] at type ⊢
      exact ⟨type, trivial, trivial, id⟩

theorem sysDup_spec (kern : Kern t) (inv : KInv t a k) :
    Ensures t.contract (sysDup p fd) k (fun _ k' => After t a k') := by
  apply ensures_inspect_then
  cases (if fd < nofile then (k.proc p).ofile fd else none) with
  | none => exact ensures_pure (after_refl inv)
  | some f =>
    obtain ⟨r, k₁, run, only⟩ := fdalloc_run p f k
    refine ensures_quiet_then run ?_
    have inv₁ := kinv_ofile inv only
    cases r with
    | none => exact ensures_pure (after_refl inv₁)
    | some new =>
      refine ensures_then (filedup_spec kern inv₁) ?_
      rintro _ k₂ ⟨inv₂, _⟩
      exact ensures_pure (after_refl inv₂)

theorem sysRead_spec {n : Nat} (kern : Kern t) (inv : KInv t a k) :
    Ensures t.contract (sysRead p fd n) k (fun _ k' => After t a k') := by
  apply ensures_inspect_then
  cases (if fd < nofile then (k.proc p).ofile fd else none) with
  | none => exact ensures_pure (after_refl inv)
  | some f =>
    refine ensures_then (fileread_spec kern inv (Nat.mod_lt n (by decide))) ?_
    rintro (_ | bytes) k₁ ⟨a₁, inv₁, nodes⟩
    · exact ensures_pure ⟨a₁, inv₁, nodes ▸ move_refl _ _⟩
    · exact ensures_pure ⟨a₁, inv₁, nodes ▸ move_refl _ _⟩

theorem sysWrite_spec {data : List UInt8} (kern : Kern t) (inv : KInv t a k) :
    Ensures t.contract (sysWrite p fd data) k (fun _ k' => After t a k') := by
  apply ensures_inspect_then
  cases (if fd < nofile then (k.proc p).ofile fd else none) with
  | none => exact ensures_pure (after_refl inv)
  | some f =>
    refine ensures_weaken (filewrite_spec kern inv) ?_
    rintro _ k₁ ⟨a₁, inv₁, wrote⟩
    exact ⟨a₁, inv₁, move_of_wrote wrote⟩

theorem sysClose_spec (kern : Kern t) (inv : KInv t a k) :
    Ensures t.contract (sysClose p fd) k (fun _ k' => After t a k') := by
  apply ensures_inspect_then
  cases (if fd < nofile then (k.proc p).ofile fd else none) with
  | none => exact ensures_pure (after_refl inv)
  | some f =>
    obtain ⟨k₁, run, only⟩ := setOfile_run p fd none k
    refine ensures_quiet_then run ?_
    refine ensures_then (fileclose_spec kern (kinv_ofile inv only)) ?_
    rintro _ k₂ ⟨a₂, inv₂, frees, _⟩
    exact ensures_pure ⟨a₂, inv₂, move_of_frees frees⟩

theorem sysFstat_spec (kern : Kern t) (inv : KInv t a k) :
    Ensures t.contract (sysFstat p fd) k (fun _ k' => After t a k') := by
  apply ensures_inspect_then
  cases (if fd < nofile then (k.proc p).ofile fd else none) with
  | none => exact ensures_pure (after_refl inv)
  | some f =>
    apply ensures_inspect_then
    by_cases inode : (k.ftable f).type = .inode
    · rw [if_pos inode]
      have held := holders_pos_file (inv.files f inode).inside inode
      refine ensures_within_then (kinv_lock kern inv held) ?_
      intro _ s₁ busy₁
      refine ensures_within_then (kinv_unlock inv busy₁) ?_
      intro _ s₂ rested
      exact ensures_pure ⟨_, kinv_rested inv rfl rested (fun _ _ => Or.inl rfl) (filesKept_refl _)
        inv.procs, move_refl _ _⟩
    · rw [if_neg inode]
      exact ensures_pure (after_refl inv)

end Tables

/-! Calls that walk a path. -/

section Paths
variable {t : Setting} {a : Snap} {k k' : Kernel} {p ip omode : Nat} {path : List UInt8}

theorem running_cwd (inv : KInv t a k) (running : (k.proc p).state = .runnable) :
    p < nproc ∧ (k.proc p).cwd = some (((k.proc p).cwd).getD 0) ∧
      0 < holders k (((k.proc p).cwd).getD 0) := by
  obtain ⟨inside, cwd, same⟩ := inv.procs.running p running
  have here : (k.proc p).cwd = some (((k.proc p).cwd).getD 0) := by
    rw [same]
    rfl
  exact ⟨inside, here, holders_pos_cwd inside here⟩

theorem onCwd_spec {call : Nat → FsM Int} (inv : KInv t a k)
    (holds : Ensures t.contract (call (((k.proc p).cwd).getD 0)) k.fs
      (fun _ s' => ∃ a', Done t (holders k) a a' s')) :
    Ensures t.contract (onCwd p call) k (fun _ k' => After t a k') := by
  apply ensures_inspect_then
  refine ensures_within (ensures_weaken holds ?_)
  rintro _ s' ⟨a', done⟩
  exact ⟨a', kinv_done inv done, done.move⟩

theorem filealloc_run (k : Kernel) : filealloc k = (.done none k, []) ∨
    ∃ f, f < nfile ∧ (k.ftable f).ref = 0 ∧ filealloc k = (.done (some f)
      { k with ftable := fun g => if g = f then { k.ftable g with ref := 1 } else k.ftable g }, []) := by
  unfold filealloc
  rw [bind_done (rfl : inspect Kernel.ftable k = (.done k.ftable k, []))]
  cases found : (List.range nfile).find? (fun f => (k.ftable f).ref = 0) with
  | none => exact Or.inl rfl
  | some f =>
    have member := List.mem_range.mp (List.mem_of_find?_eq_some found)
    have unused := List.find?_some found
    exact Or.inr ⟨f, member, by simpa using unused, rfl⟩

theorem fileclose_empty {f : Nat} (one : (k.ftable f).ref = 1) (closed : (k.ftable f).type = .none) :
    fileclose f k = (.done () { k with ftable := fun g => if g = f then
      { k.ftable g with ref := 0, type := .none } else k.ftable g }, []) := by
  unfold fileclose
  rw [bind_done (rfl : inspect Kernel.ftable k = (.done k.ftable k, [])), if_neg (by omega),
    if_neg (by omega)]
  unfold setFile
  rw [bind_done (rfl : change _ k = (.done () _, [])), whenever_false (by rw [closed]; decide)]
  rfl

theorem hasMode_ne_zero {mode : Nat} (has : hasMode omode mode = true) : omode ≠ 0 := by
  rintro rfl
  simp [hasMode] at has

theorem opened_live {R : Nat → Nat} {s : State} {a' : Snap} (opened : Opened t R a ip s a') :
    AllLive a' := by
  intro l some
  by_cases here : l = ip
  · have mine : ip ∈ a'.locked := by simp [opened.locked]
    rw [here]
    exact opened.busy.live ip (here ▸ some) (rep_loaded opened.busy.rep mine)
  · rw [opened.refs, bump_other _ here] at some
    exact opened.busy.base l some

theorem kinv_opened {s : State} {a' : Snap} {f : Nat} (inv : KInv t a k)
    (opened : Opened t (holders k) a ip s a') (mode : omode ≠ 0 → (a'.node ip).type ≠ tDir)
    (busy : Busy t ∅ (holders k) a (a'.unlock ip) k'.fs) (inside : f < nfile)
    (before : (k.ftable f).type ≠ .inode) (type : (k'.ftable f).type = .inode)
    (slot : (k'.ftable f).ip = ip) (used : 0 < (k'.ftable f).ref)
    (writable : (k'.ftable f).writable = true → omode ≠ 0)
    (others : ∀ g, g ≠ f → k'.ftable g = k.ftable g) (cwds : ∀ q, (k'.proc q).cwd = (k.proc q).cwd)
    (procs : ProcsOk k'.proc) : KInv t (a'.unlock ip) k' := by
  have held : holders k' = bump (holders k) ip := holders_file inside before type slot others cwds
  have mine : ip ∈ a'.locked := by simp [opened.locked]
  have refs : (a'.unlock ip).refs = bump (holders k) ip := opened.refs
  refine ⟨?_, opened.outside, fun g open' => ?_, procs⟩
  · have live : AllLive a' := opened_live opened
    rw [held, ← refs]
    refine busy_ready busy live ?_
    change a'.locked.erase ip = ∅
    rw [opened.locked, Finset.erase_singleton]
  · by_cases new : g = f
    · subst new
      refine ⟨inside, used, ?_, fun can => ?_⟩
      · have ready : ip ∈ a'.loaded := rep_loaded opened.busy.rep mine
        rw [slot]
        exact ready
      · rw [slot, Snap.unlock_node]
        exact mode (writable can)
    · rw [others g new] at open' ⊢
      have ok := inv.files g open'
      have some := ok.used
      exact fileOk_kept inv busy.kept (move_types opened.move) open' rfl rfl (by omega)
        (holders_pos_file ok.inside open')

theorem openFile_spec {s : State} {a' : Snap} (kern : Kern t) (inv : KInv t a k)
    (opened : Opened t (holders k) a ip s a') (mode : omode ≠ 0 → (a'.node ip).type ≠ tDir) :
    Ensures t.contract (openFile p ip omode) { k with fs := s } (fun _ k' => After t a k') := by
  have mine : ip ∈ a'.locked := by simp [opened.locked]
  rcases filealloc_run { k with fs := s } with run | ⟨f, inside, unused, run⟩
  · refine ensures_quiet_then run ?_
    refine ensures_within_then (opened_unlockput opened) ?_
    rintro _ s₁ ⟨a₁, done⟩
    have after := kinv_done inv done
    exact ensures_pure ⟨a₁, after, done.move⟩
  change (k.ftable f).ref = 0 at unused
  have closed : (k.ftable f).type = .none := by
    cases type : (k.ftable f).type with
    | none => rfl
    | inode =>
      have used := (inv.files f type).used
      omega
  refine ensures_quiet_then run ?_
  obtain ⟨r, k₂, run₂, only⟩ := fdalloc_run p f { k with
    fs := s
    ftable := fun g => if g = f then { k.ftable g with ref := 1 } else k.ftable g }
  refine ensures_quiet_then run₂ ?_
  have fs₂ : k₂.fs = s := only.fs
  have cwds : ∀ q, (k₂.proc q).cwd = (k.proc q).cwd := by
    intro q
    obtain ⟨ofile, same⟩ := only.proc q
    rw [same]
  have procs := ofileOnly_procs only inv.procs
  have table : k₂.ftable = fun g => if g = f then { k.ftable g with ref := 1 } else k.ftable g :=
    only.ftable
  cases r with
  | none =>
    -- The new structure refers to nothing yet, so fileclose only frees it.
    have run₃ := fileclose_empty (k := k₂) (f := f) (by simp [table]) (by simp [table, closed])
    refine ensures_quiet_then run₃ ?_
    refine ensures_within_then (by rw [fs₂]; exact opened_unlockput opened) ?_
    rintro _ s₄ ⟨a₄, done⟩
    refine ensures_pure ⟨a₄, kinv_rested inv (holders_same cwds fun g => ?_) done.toRested
      (move_types done.move) (fun g type => ?_) procs, done.move⟩
    · by_cases here : g = f
      · simp [here, table, closed]
      · simp [here, table]
    · by_cases here : g = f
      · simp [here] at type
      · simp only [table, if_neg here] at type ⊢
        exact ⟨type, trivial, trivial, id⟩
  | some fd =>
    refine ensures_within_then (by rw [fs₂]; exact busy_unlock opened.busy mine) ?_
    intro _ s₃ busy₃
    apply ensures_change_then
    refine ensures_pure ⟨a'.unlock ip, kinv_opened inv opened mode busy₃ inside
      (by rw [closed]; decide) ?_ ?_ ?_ ?_ ?_ cwds procs, opened.move⟩
    · simp
    · simp
    · simp [table]
    · intro can
      simp only [↓reduceIte, Bool.or_eq_true] at can
      exact can.elim hasMode_ne_zero hasMode_ne_zero
    · intro g other
      simp [other, table]

theorem sysOpen_spec (kern : Kern t) (inv : KInv t a k) (typed : Typed t a.nodes)
    (running : (k.proc p).state = .runnable)
    (may : hasMode omode oCreate = true → MayAdd t.permit a.nodes (a.inums (cwdSlot k p)) path) :
    Ensures t.contract (sysOpen p path omode) k (fun _ k' => After t a k') := by
  obtain ⟨_, _, home⟩ := running_cwd inv running
  apply ensures_inspect_then
  refine ensures_within_then (openInode_spec kern.toRuns (kinv_idle inv typed) home may) ?_
  rintro (_ | ip) s₁ found
  · obtain ⟨a₁, done⟩ := found
    exact ensures_pure ⟨a₁, kinv_done inv done, done.move⟩
  · obtain ⟨a₁, opened, mode⟩ := found
    exact openFile_spec kern inv opened mode

theorem readAll_spec {F : Set Nat} {s : State} {reads : List (Nat × Nat)} (rep : Rep t F a s)
    (mine : ip ∈ a.locked) (room : Room t F 0) (small : ∀ r ∈ reads, r.2 < 2 ^ 32) :
    Ensures t.contract (readAll ip reads) s (fun _ s' => Rep t F a s') := by
  induction reads generalizing s with
  | nil => exact ensures_pure rep
  | cons r rest ih =>
    refine ensures_then (readi_spec rep mine room (small r List.mem_cons_self)) ?_
    rintro _ s₁ ⟨_, rep₁⟩
    exact ih rep₁ fun r' member => small r' (List.mem_cons_of_mem r member)

theorem sysExec_spec {reads : List (Nat × Nat)} (kern : Kern t) (inv : KInv t a k)
    (typed : Typed t a.nodes) (running : (k.proc p).state = .runnable) :
    Ensures t.contract (sysExec p path reads) k (fun _ k' => After t a k') := by
  obtain ⟨_, _, home⟩ := running_cwd inv running
  have idle := kinv_idle inv typed
  apply ensures_inspect_then
  refine ensures_within_then (namei_spec idle.ready (Or.inr home) (runs_room kern.toRuns) typed
    kern.igetNoInodes) ?_
  rintro (_ | ip) s₁ found
  · obtain ⟨a₁, rep, frame, refs⟩ := found
    have done := done_frame idle rep frame refs
    exact ensures_pure ⟨a₁, kinv_done inv done, done.move⟩
  obtain ⟨a₁, here⟩ := found
  refine ensures_within_then (opened_lock kern.toRuns idle here) ?_
  intro _ s₂ opened
  refine ensures_within_then (readAll_spec opened.busy.rep (by simp [opened.locked])
    (runs_room kern.toRuns) ?_) ?_
  · intro r member
    obtain ⟨r', _, rfl⟩ := List.mem_map.mp member
    exact Nat.mod_lt _ (by decide)
  intro _ s₃ rep₃
  have opened₃ : Opened t (holders k) a ip s₃ (a₁.lock ip) :=
    { opened with busy := { opened.busy with rep := rep₃ } }
  refine ensures_within_then (opened_unlockput opened₃) ?_
  rintro _ s₄ ⟨a₄, done⟩
  have after := kinv_done inv done
  exact ensures_pure ⟨a₄, after, done.move⟩

end Paths

/-! Giving up a working directory. -/

section Cwd
variable {t : Setting} {a b : Snap} {k : Kernel} {R : Nat → Nat} {c p ip : Nat}

theorem linkCount_rep {s : State} (rep : Rep t ∅ b s) (clean : b.stale = ∅) (held : 0 < b.refs c) :
    linkCount s (s.icache c) = (b.node c).nlink := by
  obtain ⟨_, _, _, bound⟩ := rep_inum rep held
  obtain ⟨h, eff, world⟩ := rep
  have node : b.node c = nodeOf h (eff (b.inums c)) := world.nodes _ bound
  have inum := (world.cached.slot c held).2.1
  rw [node, linkCount]
  by_cases valid : (s.icache c).valid = true
  · rw [if_pos valid, world.cached.copy c held valid]
    rfl
  · have disk := world.synced _ bound (by rw [clean]; exact Finset.notMem_empty _)
    have low : iblock (b.inums c) < logStart t.sb := by
      have inodes := (iblock_low _ bound).2
      have area := t.geometry.area
      rw [dataStart_eq] at area
      omega
    rw [if_neg valid, inum, world.dev.blk _ low]
    rw [← disk]
    rfl

theorem rep_rest {F : Set Nat} {s : State} (rep : Rep t F b s) (outside : b.trans = false) :
    Rep t ∅ b s := by
  obtain ⟨h, eff, world⟩ := rep
  have dev := world.dev
  refine ⟨h, eff, { world with dev := { dev with inside := fun x member => ?_ } }⟩
  rw [dev.idle outside] at member
  exact absurd member List.not_mem_nil

theorem busy_last {F : Set Nat} {s : State} (busy : Busy t F R a b s) (held : 0 < b.refs c)
    (live : (b.node c).type ≠ 0) (unlinked : (b.node c).nlink = 0) : c ∈ b.loaded := by
  obtain ⟨_, _, _, bound⟩ := rep_inum busy.rep held
  obtain ⟨l, some, same, ready⟩ := busy.anchored _ bound live unlinked
  rwa [← rep_unique busy.rep some held same]

theorem dropCwd_spec (kern : Kern t) (busy : Busy t ∅ R a b k.fs) (outside : b.trans = false)
    (extra : R c < b.refs c) (free : c ∉ b.locked) (live : (b.node c).type ≠ 0) :
    Ensures t.contract (dropCwd c) k (fun _ k' => ∃ b', Busy t ∅ R a b' k'.fs ∧
      Put t.sb.ninodes b c b' ∧ k'.ftable = k.ftable ∧ k'.proc = k.proc) := by
  have held : 0 < b.refs c := by omega
  have links := linkCount_rep busy.rep busy.clean held
  have count : (k.fs.icache c).ref = b.refs c := by
    obtain ⟨h, eff, world⟩ := busy.rep
    exact world.cached.refs c
  apply ensures_inspect_then
  rw [links, count]
  refine ensures_emit_then (fun _ => kern.cwdDrop _) fun relied => ?_
  apply ensures_within
  by_cases last : b.refs c = 1 ∧ (b.node c).nlink = 0
  · rw [last.1, last.2] at relied
    have writable : Writable t b.trans :=
      Or.inr (kern.dropped.resolve_left fun never => Bool.noConfusion (never _ relied))
    have room : Room t (insert (iblock (b.inums c)) (bitmapBlocks t.sb)) 0 :=
      room_less (room_insert kern.room _) (Nat.zero_le _)
    refine ensures_weaken (busy_put kern.writes (busy_mono busy (Set.empty_subset _)) free
      (busy_last busy held live last.2) extra room
      (fun x low => Set.mem_insert_of_mem _ ⟨x, low, rfl⟩) (Set.mem_insert _ _) writable) ?_
    rintro _ s' ⟨b', busy', put⟩
    exact ⟨b', { busy' with rep := rep_rest busy'.rep (put.trans.trans outside) }, put, rfl, rfl⟩
  · have kept : b.refs c = 1 → (b.node c).nlink ≠ 0 := fun one none => last ⟨one, none⟩
    refine ensures_weaken (iput_keep_spec busy.rep held (fun member => absurd member free)
      fun one _ => kept one) ?_
    intro _ s' rep
    exact ⟨_, busy_dropped busy extra kept rep, put_drop _ _ _, rfl, rfl⟩

theorem put_node {F : Set Nat} {s : State} {n l : Nat} {b' : Snap} (busy : Busy t F R a b s)
    (put : Put n b c b') (held : 0 < b.refs c) (some : 0 < b'.refs l) : b'.node l = b.node l := by
  rw [put.refs] at some
  rw [Snap.node, put.inums]
  by_cases here : l = c
  · subst here
    rw [drop_at] at some
    rw [put.shared (by omega)]
    rfl
  · rw [drop_other _ here] at some
    exact put.others _ (busy_other busy held some here)

/-- The kernel when process `p` has no working directory. -/
def withoutCwd (k : Kernel) (p : Nat) : Kernel :=
  { k with proc := fun q => if q = p then { k.proc q with cwd := none } else k.proc q }

theorem holders_withoutCwd (inside : p < nproc) (cwd : (k.proc p).cwd = some c) :
    holders k = bump (holders (withoutCwd k p)) c := by
  refine holders_cwd inside (by simp [withoutCwd]) cwd (fun q other => ?_) rfl
  simp [withoutCwd, other]

theorem busy_weaken {F : Set Nat} {R' : Nat → Nat} {s : State} (busy : Busy t F R a b s)
    (less : ∀ l, R' l ≤ R l) : Busy t F R' a b s :=
  { busy with
    base := fun l some => busy.base l (lt_of_lt_of_le some (less l))
    below := fun l => (less l).trans (busy.below l)
    kept := ⟨fun l some => busy.kept.inums l (lt_of_lt_of_le some (less l)),
      fun l some => busy.kept.loaded l (lt_of_lt_of_le some (less l)), busy.kept.console⟩ }

theorem kinv_moved {k' : Kernel} (inv : KInv t a k)
    (busy : Busy t ∅ (holders (withoutCwd k p)) a b k'.fs) (refs : b.refs = holders k')
    (all : AllLive b) (locked : b.locked = ∅) (outside : b.trans = false)
    (types : KeepsTypes a.nodes b.nodes) (files : k'.ftable = k.ftable) (procs : ProcsOk k'.proc) :
    KInv t b k' := by
  refine ⟨?_, outside, fun f type => ?_, procs⟩
  · rw [← refs]
    exact busy_ready busy all locked
  · rw [files] at type ⊢
    have ok := inv.files f type
    have used := ok.used
    have held : 0 < holders (withoutCwd k p) (k.ftable f).ip :=
      holders_pos_file (k := withoutCwd k p) ok.inside type
    exact fileOk_kept inv busy.kept types type rfl rfl (by omega) held

theorem sysChdir_spec {path : List UInt8} (kern : Kern t) (inv : KInv t a k)
    (typed : Typed t a.nodes) (running : (k.proc p).state = .runnable) :
    Ensures t.contract (sysChdir p path) k (fun _ k' => After t a k') := by
  obtain ⟨inside, cwd, home⟩ := running_cwd inv running
  have idle := kinv_idle inv typed
  apply ensures_inspect_then
  generalize ((k.proc p).cwd).getD 0 = c at cwd home ⊢
  refine ensures_within_then (namei_spec idle.ready (Or.inr home) (runs_room kern.toRuns) typed
    kern.igetNoInodes) ?_
  rintro (_ | ip) s₁ found
  · obtain ⟨a₁, rep, frame, refs⟩ := found
    have done := done_frame idle rep frame refs
    exact ensures_pure ⟨a₁, kinv_done inv done, done.move⟩
  obtain ⟨a₁, here⟩ := found
  refine ensures_within_then (opened_lock kern.toRuns idle here) ?_
  intro _ s₂ opened
  have mine : ip ∈ (a₁.lock ip).locked := Finset.mem_insert_self _ _
  refine ensures_within_then (ensures_inspect ⟨rfl, rfl⟩ : Ensures t.contract (getInode ip) s₂
    fun i s' => i = s₂.icache ip ∧ s' = s₂) ?_
  rintro _ _ ⟨rfl, rfl⟩
  rw [(rep_shows opened.busy.rep mine).1.type]
  by_cases dir : ((a₁.lock ip).node ip).type = tDir
  · rw [if_neg (not_not.mpr dir)]
    refine ensures_within_then (busy_unlock opened.busy mine) ?_
    intro _ s₃ busy₃
    have split := holders_withoutCwd inside cwd
    have less : ∀ l, holders (withoutCwd k p) l ≤ holders k l := fun l => split ▸ le_bump _ l c
    have refs₃ : ((a₁.lock ip).unlock ip).refs = bump (bump (holders (withoutCwd k p)) c) ip := by
      rw [← split]
      exact opened.refs
    have locked₃ : ((a₁.lock ip).unlock ip).locked = ∅ := by
      change (a₁.lock ip).locked.erase ip = ∅
      rw [opened.locked, Finset.erase_singleton]
    have extra : holders (withoutCwd k p) c < ((a₁.lock ip).unlock ip).refs c := by
      have := le_bump (bump (holders (withoutCwd k p)) c) c ip
      rw [bump_at] at this
      rw [refs₃]
      omega
    have held : 0 < ((a₁.lock ip).unlock ip).refs c := Nat.zero_lt_of_lt extra
    have live : AllLive (a₁.lock ip) := opened_live opened
    have busyLess := busy_weaken busy₃ less
    refine ensures_then (dropCwd_spec kern (k := { k with fs := s₃ }) busyLess opened.outside extra
      (by rw [locked₃]; exact Finset.notMem_empty c) (busy₃.base c home)) ?_
    rintro _ k₄ ⟨b, busy₄, put, files, procs⟩
    apply ensures_change_then
    have move : Move t.sb.ninodes t.permit a.nodes b.nodes := move_frees opened.move put.frees
    refine ensures_pure ⟨b, kinv_moved inv busy₄ ?_ ?_ (put.locked.trans locked₃)
      (put.trans.trans opened.outside) (move_types move) files ?_, move⟩
    · rw [put.refs, refs₃, drop_bump_bump]
      symm
      refine holders_cwd (k := withoutCwd k p) inside (by simp [withoutCwd]) ?_ (fun q other => ?_) files
      · simp
      · simp [withoutCwd, procs, other]
    · intro l some
      have before : 0 < ((a₁.lock ip).unlock ip).refs l :=
        lt_of_lt_of_le some (put.refs ▸ drop_le _ l c)
      rw [put_node busyLess put held some]
      exact live l before
    · refine ⟨fun q run => ?_, fun q idle => ?_⟩
      · by_cases same : q = p
        · exact ⟨same ▸ inside, ip, by simp [same]⟩
        · simp only [if_neg same, procs] at run ⊢
          exact inv.procs.running q run
      · by_cases same : q = p
        · simp only [same, ↓reduceIte, procs] at idle
          exact absurd running idle
        · simp only [if_neg same, procs] at idle ⊢
          exact inv.procs.others q idle
  · rw [if_pos dir]
    refine ensures_within_then (opened_unlockput opened) ?_
    rintro _ s₃ ⟨a₃, done⟩
    have after := kinv_done inv done
    exact ensures_pure ⟨a₃, after, done.move⟩

/-- The processes are where they were. -/
def SameProcs (k k' : Kernel) : Prop :=
  ∀ q, (k'.proc q).cwd = (k.proc q).cwd ∧ (k'.proc q).state = (k.proc q).state

theorem ofileOnly_sameProcs {k' : Kernel} (only : OfileOnly k k') : SameProcs k k' := by
  intro q
  obtain ⟨ofile, same⟩ := only.proc q
  rw [same]
  exact ⟨rfl, rfl⟩

theorem closeFiles_spec {fds : List Nat} (kern : Kern t) (inv : KInv t a k) :
    Ensures t.contract (closeFiles p fds) k (fun _ k' => ∃ a', KInv t a' k' ∧
      Frees t.sb.ninodes a.nodes a'.nodes ∧ SameProcs k k') := by
  induction fds generalizing a k with
  | nil => exact ensures_pure ⟨a, inv, frees_refl _ _, fun _ => ⟨rfl, rfl⟩⟩
  | cons fd rest ih =>
    rw [closeFiles]
    apply ensures_inspect_then
    have close : Ensures t.contract (closeFile p fd ((k.proc p).ofile fd)) k (fun _ k' =>
        ∃ a', KInv t a' k' ∧ Frees t.sb.ninodes a.nodes a'.nodes ∧ SameProcs k k') := by
      cases (k.proc p).ofile fd with
      | none => exact ensures_pure ⟨a, inv, frees_refl _ _, fun _ => ⟨rfl, rfl⟩⟩
      | some f =>
        refine ensures_then (fileclose_spec kern inv) ?_
        rintro _ k₁ ⟨a₁, inv₁, frees, procs⟩
        obtain ⟨k₂, run, only⟩ := setOfile_run p fd none k₁
        refine ensures_of_done run (fun _ member => (List.not_mem_nil member).elim)
          ⟨a₁, kinv_ofile inv₁ only, frees, fun q => ?_⟩
        rw [← procs]
        exact ofileOnly_sameProcs only q
    refine ensures_then close ?_
    rintro _ k₁ ⟨a₁, inv₁, frees₁, procs₁⟩
    refine ensures_weaken (ih inv₁) ?_
    rintro _ k₂ ⟨a₂, inv₂, frees₂, procs₂⟩
    exact ⟨a₂, inv₂, frees_trans frees₁ frees₂,
      fun q => ⟨(procs₂ q).1.trans (procs₁ q).1, (procs₂ q).2.trans (procs₁ q).2⟩⟩

theorem sysExit_spec (kern : Kern t) (inv : KInv t a k) (running : (k.proc p).state = .runnable) :
    Ensures t.contract (sysExit p) k (fun _ k' => After t a k') := by
  unfold sysExit
  by_cases init : p = initproc
  · rw [if_pos init]
    exact ensures_halt (kern.files _ (by decide))
  rw [if_neg init]
  refine ensures_then (closeFiles_spec kern inv) ?_
  rintro _ k₁ ⟨a₁, inv₁, frees, procs₁⟩
  obtain ⟨inside, cwd, home⟩ := running_cwd inv₁ ((procs₁ p).2.trans running)
  apply ensures_inspect_then
  generalize ((k₁.proc p).cwd).getD 0 = c at cwd home ⊢
  have split := holders_withoutCwd inside cwd
  have ready := inv₁.ready
  rw [split] at ready
  have busy := busy_release ready
  have extra : holders (withoutCwd k₁ p) c < a₁.refs c := by
    rw [ready.refs, bump_at]
    omega
  refine ensures_then (dropCwd_spec kern busy inv₁.outside extra
    (by rw [ready.locked]; exact Finset.notMem_empty c) (inv₁.ready.calm.live c home)) ?_
  rintro _ k₂ ⟨b, busy₂, put, files, procs⟩
  apply ensures_change_then
  apply ensures_change_then
  apply ensures_change_then
  have gone := frees_trans frees put.frees
  refine ensures_pure ⟨b, kinv_moved inv₁ busy₂ ?_ ?_ (put.locked.trans ready.locked)
    (put.trans.trans inv₁.outside) (frees_types put.frees) files ?_, move_of_frees gone⟩
  · rw [put.refs, ready.refs, drop_bump]
    symm
    refine holders_same (k := withoutCwd k₁ p) (fun q => ?_) fun g => ?_
    · by_cases same : q = p
      · subst same
        simp only [↓reduceIte, withoutCwd]
        split <;> rfl
      · simp only [if_neg same, withoutCwd, procs]
        split <;> rfl
    · simp [withoutCwd, files]
  · intro l some
    rw [put_node busy put (Nat.zero_lt_of_lt extra) some]
    refine inv₁.ready.calm.live l ?_
    rw [split, ← ready.refs]
    exact lt_of_lt_of_le some (put.refs ▸ drop_le _ l c)
  · refine ⟨fun q run => ?_, fun q idle => ?_⟩
    · by_cases same : q = p
      · simp [same] at run
      · simp only [if_neg same, procs] at run ⊢
        have before := inv₁.procs.running q (by split at run <;> exact run)
        split <;> exact before
    · by_cases same : q = p
      · subst same
        simp only [↓reduceIte]
        split <;> rfl
      · simp only [if_neg same, procs] at idle ⊢
        have before := inv₁.procs.others q (by split at idle <;> exact idle)
        split <;> exact before

end Cwd

/-! fork, wait and the console. -/

section Procs
variable {t : Setting} {a : Snap} {k : Kernel} {p np : Nat}

theorem dupFiles_spec {ofile : Nat → Option Nat} {fds : List Nat} (kern : Kern t) (inv : KInv t a k) :
    Ensures t.contract (dupFiles np ofile fds) k (fun _ k' => KInv t a k' ∧ SameProcs k k') := by
  induction fds generalizing k with
  | nil => exact ensures_pure ⟨inv, fun _ => ⟨rfl, rfl⟩⟩
  | cons fd rest ih =>
    rw [dupFiles]
    have dup : Ensures t.contract (dupFile np fd (ofile fd)) k
        (fun _ k' => KInv t a k' ∧ SameProcs k k') := by
      cases ofile fd with
      | none => exact ensures_pure ⟨inv, fun _ => ⟨rfl, rfl⟩⟩
      | some f =>
        refine ensures_then (filedup_spec kern inv) ?_
        rintro _ k₁ ⟨inv₁, procs⟩
        obtain ⟨k₂, run, only⟩ := setOfile_run np fd (some f) k₁
        refine ensures_of_done run (fun _ member => (List.not_mem_nil member).elim)
          ⟨kinv_ofile inv₁ only, fun q => ?_⟩
        rw [← procs]
        exact ofileOnly_sameProcs only q
    refine ensures_then dup ?_
    rintro _ k₁ ⟨inv₁, procs₁⟩
    refine ensures_weaken (ih inv₁) ?_
    rintro _ k₂ ⟨inv₂, procs₂⟩
    exact ⟨inv₂, fun q => ⟨(procs₂ q).1.trans (procs₁ q).1, (procs₂ q).2.trans (procs₁ q).2⟩⟩

theorem ready_bump {R : Nat → Nat} {c : Nat} {s' : State} (ready : Ready t ∅ R a k.fs) (held : 0 < R c)
    (rep : Rep t ∅ (a.bump c) s') : Ready t ∅ (bump R c) (a.bump c) s' := by
  have more : ∀ l, 0 < bump R c l → 0 < R l := by
    intro l some
    by_cases here : l = c
    · rwa [here]
    · rwa [bump_other _ here] at some
  refine ⟨rep, ?_, ⟨fun l some => ready.calm.live l (more l some), ?_, ready.calm.shape⟩,
    ready.locked, ready.clean⟩
  · rw [Snap.bump_refs, ready.refs]
  · intro i inside typed unlinked
    obtain ⟨l, some, same, loaded⟩ := ready.calm.anchored i inside typed unlinked
    exact ⟨l, lt_of_lt_of_le some (le_bump R l c), same, loaded⟩

theorem sysFork_spec {memory : Bool} (kern : Kern t) (inv : KInv t a k)
    (running : (k.proc p).state = .runnable) :
    Ensures t.contract (sysFork p memory) k (fun _ k' => After t a k') := by
  apply ensures_inspect_then
  cases found : (List.range nproc).find? (fun q => (k.proc q).state = .unused) with
  | none => exact ensures_pure (after_refl inv)
  | some np =>
    have inside := List.mem_range.mp (List.mem_of_find?_eq_some found)
    have unused : (k.proc np).state = .unused := by simpa using List.find?_some found
    have none : (k.proc np).cwd = none := inv.procs.others np (by rw [unused]; decide)
    dsimp only
    by_cases short : (!memory) = true
    · rw [if_pos short]
      exact ensures_pure (after_refl inv)
    rw [if_neg short]
    apply ensures_change_then
    have inv₁ : KInv t a { k with proc := fun q => if q = np then
        { k.proc q with parent := p } else k.proc q } := by
      refine kinv_tables inv rfl (holders_same (fun q => ?_) fun _ => ⟨rfl, rfl⟩) (filesKept_refl _)
        ⟨fun q run => ?_, fun q idle => ?_⟩
      · by_cases same : q = np <;> simp [same]
      · by_cases same : q = np
        · simp [same, unused] at run
        · simp only [if_neg same] at run ⊢
          exact inv.procs.running q run
      · by_cases same : q = np
        · simpa [same] using none
        · simp only [if_neg same] at idle ⊢
          exact inv.procs.others q idle
    refine ensures_then (dupFiles_spec kern inv₁) ?_
    rintro _ k₂ ⟨inv₂, procs₂⟩
    have parent : p ≠ np := by
      rintro rfl
      rw [unused] at running
      exact absurd running (by decide)
    have running₂ : (k₂.proc p).state = .runnable := by
      rw [(procs₂ p).2]
      simpa [parent] using running
    have none₂ : (k₂.proc np).cwd = Option.none := by
      rw [(procs₂ np).1]
      simpa using none
    obtain ⟨_, _, home⟩ := running_cwd inv₂ running₂
    apply ensures_inspect_then
    generalize ((k₂.proc p).cwd).getD 0 = c at home ⊢
    refine ensures_within_then (idup_spec inv₂.ready.rep (inv₂.ready.refs ▸ home)) ?_
    rintro cwd s₃ ⟨rfl, rep₃⟩
    apply ensures_change_then
    refine ensures_pure ⟨a.bump cwd, ⟨?_, inv₂.outside, fun f type => ?_,
      ⟨fun q run => ?_, fun q idle => ?_⟩⟩, move_refl _ _⟩
    · have held := ready_bump inv₂.ready home rep₃
      refine (congrArg (Ready t ∅ · _ s₃) ?_).mpr held
      refine holders_cwd (k := k₂) inside none₂ ?_ (fun q other => ?_) rfl
      · simp
      · simp [other]
    · have ok := inv₂.files f type
      exact ⟨ok.inside, ok.used, ok.ready, ok.writable⟩
    · by_cases same : q = np
      · exact ⟨same ▸ inside, cwd, by simp [same]⟩
      · simp only [if_neg same] at run ⊢
        exact inv₂.procs.running q run
    · by_cases same : q = np
      · simp [same] at idle
      · simp only [if_neg same] at idle ⊢
        exact inv₂.procs.others q idle

theorem sysWait_spec (inv : KInv t a k) :
    Ensures t.contract (sysWait p) k (fun _ k' => After t a k') := by
  apply ensures_inspect_then
  cases found : (List.range nproc).find?
      (fun q => (k.proc q).state = .zombie ∧ (k.proc q).parent = p) with
  | none => exact ensures_pure (after_refl inv)
  | some z =>
    have zombie : (k.proc z).state = .zombie ∧ (k.proc z).parent = p := by
      simpa using List.find?_some found
    have none : (k.proc z).cwd = none := inv.procs.others z (by rw [zombie.1]; decide)
    apply ensures_change_then
    refine ensures_pure (after_refl (kinv_tables inv rfl (holders_same (fun q => ?_)
      fun _ => ⟨rfl, rfl⟩) (filesKept_refl _) ⟨fun q run => ?_, fun q idle => ?_⟩))
    · by_cases same : q = z <;> simp [same]
    · by_cases same : q = z
      · simp [same] at run
      · simp only [if_neg same] at run ⊢
        exact inv.procs.running q run
    · by_cases same : q = z
      · simpa [same] using none
      · simp only [if_neg same] at idle ⊢
        exact inv.procs.others q idle

theorem kinv_console {input : Nat → Option (List UInt8)} (inv : KInv t a k) :
    KInv t { a with console := input } { k with fs := { k.fs with console := input } } := by
  obtain ⟨⟨⟨h, eff, world⟩, refs, calm, locked, clean⟩, outside, files, procs⟩ := inv
  have world' : World t ∅ ∅ h eff ∅ { a with console := input } { k.fs with console := input } :=
    ⟨⟨world.dev, world.blocks, world.synced, cached_congr world.cached rfl rfl rfl rfl, rfl⟩,
      world.nodes⟩
  refine ⟨⟨⟨h, eff, world'⟩, refs, ⟨calm.live, calm.anchored, calm.shape⟩, locked, clean⟩, outside,
    fun f type => ?_, procs⟩
  have ok := files f type
  exact ⟨ok.inside, ok.used, ok.ready, ok.writable⟩

theorem syscall_spec (kern : Kern t) (inv : KInv t a k) (typed : Typed t a.nodes)
    (running : (k.proc p).state = .runnable) (call : Call)
    (allowed : Allowed t.permit a.nodes (a.inums (cwdSlot k p)) call) :
    Ensures t.contract (syscall p call) k (fun _ k' => After t a k') := by
  have runs := kern.toRuns
  have idle := kinv_idle inv typed
  obtain ⟨_, _, home⟩ := running_cwd inv running
  cases call with
  | dup fd => exact sysDup_spec kern inv
  | read fd n => exact sysRead_spec kern inv
  | write fd data => exact sysWrite_spec kern inv
  | close fd => exact sysClose_spec kern inv
  | fstat fd => exact sysFstat_spec kern inv
  | link old new => exact onCwd_spec inv (sysLink_spec runs idle home allowed)
  | unlink path => exact onCwd_spec inv (sysUnlink_spec runs idle (Or.inr home) allowed)
  | «open» path omode => exact sysOpen_spec kern inv typed running allowed
  | mkdir path =>
    exact onCwd_spec inv (makeNode_spec runs idle home (by decide) (by decide) (by decide)
      (by decide) (fun _ => ⟨rfl, rfl⟩) allowed)
  | mknod path major minor =>
    exact onCwd_spec inv (makeNode_spec runs idle home (by decide) (by decide)
      (Nat.mod_lt _ (by decide)) (Nat.mod_lt _ (by decide)) (fun wrong => absurd wrong (by decide))
      allowed)
  | chdir path => exact sysChdir_spec kern inv typed running
  | exec path reads => exact sysExec_spec kern inv typed running
  | fork memory => exact sysFork_spec kern inv running
  | exit => exact sysExit_spec kern inv running
  | wait => exact sysWait_spec inv
  | console input =>
    apply ensures_change_then
    exact ensures_pure ⟨_, kinv_console inv, move_refl _ _⟩

end Procs

end Xv6.CallSpec
