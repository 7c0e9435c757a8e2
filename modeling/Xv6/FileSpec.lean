import Xv6.CreateSpec

/-! The kernel between two system calls: which slots of the icache the processes and
open files hold, and the operations of kernel/file.c on them. -/
namespace Xv6.FileSpec
open TraceMonad Layout Codec Bio Fs Disk DevSpec InodeSpec ContentSpec Directory DirSpec Moves OpSpec
open CreateSpec Syscall

section Count
variable {n p : Nat} {P Q : Nat → Prop} [DecidablePred P] [DecidablePred Q]

/-- How many of the first `n` slots of a table have the property. -/
def count (n : Nat) (P : Nat → Prop) [DecidablePred P] : Nat := ((Finset.range n).filter P).card

theorem count_congr (same : ∀ q, P q ↔ Q q) : count n P = count n Q := by
  unfold count
  rw [Finset.filter_congr fun q _ => same q]

theorem count_gain (inside : p < n) (before : ¬ P p) (after : Q p) (same : ∀ q, q ≠ p → (Q q ↔ P q)) :
    count n Q = count n P + 1 := by
  have added : (Finset.range n).filter Q = insert p ((Finset.range n).filter P) := by
    ext q
    rw [Finset.mem_insert, Finset.mem_filter, Finset.mem_filter, Finset.mem_range]
    by_cases here : q = p
    · subst here
      exact ⟨fun _ => Or.inl rfl, fun _ => ⟨inside, after⟩⟩
    · rw [same q here]
      exact ⟨Or.inr, fun found => found.resolve_left here⟩
  unfold count
  rw [added, Finset.card_insert_of_notMem fun member => before (Finset.mem_filter.mp member).2]

theorem count_pos (inside : p < n) (here : P p) : 0 < count n P :=
  Finset.card_pos.mpr ⟨p, Finset.mem_filter.mpr ⟨Finset.mem_range.mpr inside, here⟩⟩

end Count

def cwdRefs (proc : Nat → Proc) (ip : Nat) : Nat := count nproc fun p => (proc p).cwd = some ip

def fileRefs (ftable : Nat → File) (ip : Nat) : Nat :=
  count nfile fun f => (ftable f).type = .inode ∧ (ftable f).ip = ip

/-- The references to icache slots that working directories and open files hold. -/
def holders (k : Kernel) : Nat → Nat := fun ip => cwdRefs k.proc ip + fileRefs k.ftable ip

section Holders
variable {k k' : Kernel} {p f ip : Nat}

theorem holders_same (cwds : ∀ q, (k'.proc q).cwd = (k.proc q).cwd)
    (files : ∀ g, (k'.ftable g).type = (k.ftable g).type ∧ (k'.ftable g).ip = (k.ftable g).ip) :
    holders k' = holders k := by
  funext ip
  refine congrArg₂ (· + ·) (count_congr fun q => ?_) (count_congr fun g => ?_)
  · rw [cwds]
  · rw [(files g).1, (files g).2]

theorem holders_cwd (inside : p < nproc) (before : (k.proc p).cwd = none)
    (after : (k'.proc p).cwd = some ip) (cwds : ∀ q, q ≠ p → (k'.proc q).cwd = (k.proc q).cwd)
    (files : k'.ftable = k.ftable) : holders k' = bump (holders k) ip := by
  funext l
  unfold holders
  rw [files]
  by_cases here : l = ip
  · rw [here, bump_at]
    have gain : cwdRefs k'.proc ip = cwdRefs k.proc ip + 1 :=
      count_gain inside (by rw [before]; simp) after fun q other => by rw [cwds q other]
    omega
  · rw [bump_other _ here]
    refine congrArg (· + _) (count_congr fun q => ?_)
    by_cases mine : q = p
    · subst mine
      rw [before, after]
      simp [Ne.symm here]
    · rw [cwds q mine]

theorem holders_file (inside : f < nfile) (before : (k.ftable f).type ≠ .inode)
    (after : (k'.ftable f).type = .inode) (slot : (k'.ftable f).ip = ip)
    (others : ∀ g, g ≠ f → k'.ftable g = k.ftable g) (cwds : ∀ q, (k'.proc q).cwd = (k.proc q).cwd) :
    holders k' = bump (holders k) ip := by
  funext l
  have same : cwdRefs k'.proc l = cwdRefs k.proc l := count_congr fun q => by rw [cwds]
  unfold holders
  rw [same]
  by_cases here : l = ip
  · rw [here, bump_at]
    have gain : fileRefs k'.ftable ip = fileRefs k.ftable ip + 1 :=
      count_gain inside (fun open' => before open'.1) ⟨after, slot⟩
        fun g other => by rw [others g other]
    omega
  · rw [bump_other _ here]
    refine congrArg (_ + ·) (count_congr fun g => ?_)
    by_cases mine : g = f
    · subst mine
      simp [before, slot, Ne.symm here]
    · rw [others g mine]

theorem holders_pos_cwd (inside : p < nproc) (cwd : (k.proc p).cwd = some ip) : 0 < holders k ip := by
  have := count_pos (P := fun q => (k.proc q).cwd = some ip) inside cwd
  unfold holders cwdRefs
  omega

theorem holders_pos_file (inside : f < nfile) (type : (k.ftable f).type = .inode) :
    0 < holders k (k.ftable f).ip := by
  have := count_pos (P := fun g => (k.ftable g).type = .inode ∧ (k.ftable g).ip = (k.ftable f).ip)
    inside ⟨type, rfl⟩
  unfold holders fileRefs
  omega

end Holders

/-- What is true of a file structure that refers to an inode. -/
structure FileOk (a : Snap) (f : Nat) (file : File) : Prop where
  inside : f < nfile
  used : 0 < file.ref
  ready : file.ip ∈ a.loaded
  writable : file.writable = true → (a.node file.ip).type ≠ tDir

structure ProcsOk (proc : Nat → Proc) : Prop where
  running : ∀ p, (proc p).state = .runnable → p < nproc ∧ ∃ ip, (proc p).cwd = some ip
  others : ∀ p, (proc p).state ≠ .runnable → (proc p).cwd = none

/-- The kernel between two system calls. -/
structure KInv (t : Setting) (a : Snap) (k : Kernel) : Prop where
  ready : Ready t ∅ (holders k) a k.fs
  outside : a.trans = false
  files : ∀ f, (k.ftable f).type = .inode → FileOk a f (k.ftable f)
  procs : ProcsOk k.proc

/-- The panics of kernel/file.c and exit, which no result here rules out. -/
def fileHalts : List Halt := [.filedup, .fileclose, .fileread, .filewrite, .shortFilewrite, .initExiting]

/-- What system calls need from the contract of the run. -/
structure Kern (t : Setting) : Prop extends Runs t where
  cwdDrop : ∀ last, t.contract.guar (.cwdDrop last)
  dropped : (∀ last, t.contract.rely (.cwdDrop last) → last = false) ∨
    t.contract.halts .writeOutsideOfTrans
  files : ∀ reason ∈ fileHalts, t.contract.halts reason

/-- Every file structure with an inode had it before, or is as before. -/
def FilesKept (before after : Nat → File) : Prop :=
  ∀ f, (after f).type = .inode → (before f).type = .inode ∧ (after f).ip = (before f).ip ∧
    (after f).writable = (before f).writable ∧ ((before f).ref ≠ 0 → (after f).ref ≠ 0)

section Kernels
variable {t : Setting} {a a' : Snap} {k k' : Kernel} {s' : State} {f ip : Nat}

theorem filesKept_refl (ftable : Nat → File) : FilesKept ftable ftable :=
  fun _ type => ⟨type, rfl, rfl, id⟩

theorem fileOk_kept {R : Nat → Nat} {file : File} (inv : KInv t a k) (kept : Kept R a a')
    (types : KeepsTypes a.nodes a'.nodes) (before : (k.ftable f).type = .inode)
    (slot : file.ip = (k.ftable f).ip) (mode : file.writable = (k.ftable f).writable)
    (used : file.ref ≠ 0) (held : 0 < R (k.ftable f).ip) : FileOk a' f file := by
  have ok := inv.files f before
  have heldBefore : 0 < holders k (k.ftable f).ip := holders_pos_file ok.inside before
  refine ⟨ok.inside, by omega, ?_, fun writable => ?_⟩
  · rw [slot]
    exact kept.loaded _ held ok.ready
  · rw [mode] at writable
    have file := ok.writable writable
    rw [slot, Snap.node, kept.inums _ held]
    rcases types _ (inv.ready.calm.live _ heldBefore) with same | gone
    · rw [same]
      exact file
    · rw [gone]
      decide

theorem kinv_rested {R : Nat → Nat} (inv : KInv t a k) (same : holders k' = R)
    (rested : Rested t R a a' k'.fs) (types : KeepsTypes a.nodes a'.nodes)
    (files : FilesKept k.ftable k'.ftable) (procs : ProcsOk k'.proc) : KInv t a' k' := by
  subst same
  refine ⟨rested.ready, rested.outside, fun f type => ?_, procs⟩
  obtain ⟨before, slot, mode, count⟩ := files f type
  have ok := inv.files f before
  have used := ok.used
  have held : 0 < holders k' (k'.ftable f).ip := holders_pos_file ok.inside type
  exact fileOk_kept inv rested.kept types before slot mode (count (by omega)) (slot ▸ held)

theorem kinv_done (inv : KInv t a k) (done : Done t (holders k) a a' s') :
    KInv t a' { k with fs := s' } :=
  kinv_rested inv rfl done.toRested (move_types done.move) (filesKept_refl _) inv.procs

theorem kinv_idle (inv : KInv t a k) (typed : Typed t a.nodes) : Idle t (holders k) a k.fs :=
  ⟨inv.ready, inv.outside, typed⟩

theorem rested_refl (inv : KInv t a k) : Rested t (holders k) a a k.fs :=
  ⟨inv.ready, kept_refl _ a, inv.outside⟩

theorem kinv_tables (inv : KInv t a k) (fs : k'.fs = k.fs) (same : holders k' = holders k)
    (files : FilesKept k.ftable k'.ftable) (procs : ProcsOk k'.proc) : KInv t a k' := by
  refine kinv_rested inv same ?_ (fun _ _ => Or.inl rfl) files procs
  rw [fs]
  exact rested_refl inv

theorem busy_release {F : Set Nat} {R : Nat → Nat} {s : State} (ready : Ready t F (bump R ip) a s) :
    Busy t F R a a s := by
  have busy := busy_of_ready ready
  have less : ∀ l, R l ≤ bump R ip l := fun l => le_bump R l ip
  exact { busy with
    base := fun l some => busy.base l (lt_of_lt_of_le some (less l))
    below := fun l => (less l).trans (busy.below l)
    kept := kept_refl R a }

theorem closeInode_spec {R : Nat → Nat} {s : State} (runs : Runs t) (ready : Ready t ∅ (bump R ip) a s)
    (outside : a.trans = false) (loaded : ip ∈ a.loaded) :
    Ensures t.contract (do onDev beginTrans; iput ip; onDev commitTrans) s (fun _ s' =>
      ∃ a', Rested t R a a' s' ∧ Frees t.sb.ninodes a.nodes a'.nodes) := by
  refine ensures_then (inside_begin runs (busy_release ready) outside) ?_
  intro _ s₁ inside₁
  replace inside₁ := inside_reserve inside₁ (iblock (a.inums ip))
  have extra : R ip < a.refs ip := by
    rw [ready.refs, bump_at]
    omega
  have free : ip ∉ (a.setTrans true).locked := by
    change ip ∉ a.locked
    rw [ready.locked]
    exact Finset.notMem_empty ip
  refine ensures_then (inside_put runs inside₁ free loaded extra (Set.mem_insert _ _)) ?_
  rintro _ s₂ ⟨a₂, inside₂, put⟩
  refine ensures_weaken (inside_rest runs inside₂ ?_ (put.locked.trans ready.locked)) ?_
  · rw [put.refs]
    change drop a.refs ip = R
    rw [ready.refs, drop_bump]
  · rintro _ s₃ ⟨a₃, rested, nodes⟩
    exact ⟨a₃, rested, nodes ▸ put.frees⟩

theorem fileclose_spec (kern : Kern t) (inv : KInv t a k) :
    Ensures t.contract (fileclose f) k (fun _ k' => ∃ a', KInv t a' k' ∧
      Frees t.sb.ninodes a.nodes a'.nodes ∧ k'.proc = k.proc) := by
  apply ensures_inspect_then
  by_cases unused : (k.ftable f).ref < 1
  · rw [if_pos unused]
    exact ensures_halt (kern.files _ (by decide))
  rw [if_neg unused]
  by_cases more : (k.ftable f).ref - 1 > 0
  · rw [if_pos more]
    refine ensures_change ⟨a, kinv_tables inv rfl (holders_same (fun _ => rfl) fun g => ?_)
      (fun g type => ?_) inv.procs, frees_refl _ _, rfl⟩
    · by_cases here : g = f <;> simp [here]
    · by_cases here : g = f
      · subst here
        simp only [↓reduceIte] at type ⊢
        exact ⟨type, trivial, trivial, fun _ => by omega⟩
      · simp only [if_neg here] at type ⊢
        exact ⟨type, trivial, trivial, id⟩
  rw [if_neg more]
  apply ensures_change_then
  have kept : FilesKept k.ftable (fun g => if g = f then
      { k.ftable g with ref := 0, type := .none } else k.ftable g) := by
    intro g type
    by_cases here : g = f
    · simp [here] at type
    · simp only [if_neg here] at type ⊢
      exact ⟨type, trivial, trivial, id⟩
  refine ensures_whenever (fun inode => ?_) fun other => ?_
  · have ok := inv.files f inode
    have held : holders k = bump (holders { k with ftable := fun g => if g = f then
        { k.ftable g with ref := 0, type := .none } else k.ftable g }) (k.ftable f).ip := by
      refine holders_file ok.inside (by simp) inode rfl (fun g other => ?_) fun _ => rfl
      simp [other]
    have ready := inv.ready
    rw [held] at ready
    refine ensures_within (ensures_weaken (closeInode_spec kern.toRuns ready inv.outside ok.ready) ?_)
    rintro _ s' ⟨a', rested, frees⟩
    exact ⟨a', kinv_rested inv rfl rested (frees_types frees) kept inv.procs, frees, rfl⟩
  · refine ⟨a, kinv_tables inv rfl (holders_same (fun _ => rfl) fun g => ?_) kept inv.procs,
      frees_refl _ _, rfl⟩
    by_cases here : g = f
    · subst here
      have closed : (k.ftable g).type = .none := by
        cases type : (k.ftable g).type with
        | none => rfl
        | inode => exact absurd type other
      simp [closed]
    · simp [here]

end Kernels

/-! Reading and writing. -/

/-- Only file offsets differ. -/
structure OffOnly (k k' : Kernel) : Prop where
  fs : k'.fs = k.fs
  proc : k'.proc = k.proc
  files : ∀ g, ∃ off, k'.ftable g = { k.ftable g with off := off }

section ReadWrite
variable {t : Setting} {a a' : Snap} {k k' : Kernel} {s' : State} {f ip n : Nat}

theorem advance_run (f : Nat) (r : Option Nat) (k : Kernel) :
    ∃ k', advance f r k = (.done () k', []) ∧ OffOnly k k' := by
  cases r with
  | none => exact ⟨k, rfl, rfl, rfl, fun g => ⟨(k.ftable g).off, rfl⟩⟩
  | some count =>
    refine ⟨_, rfl, rfl, rfl, fun g => ?_⟩
    by_cases here : g = f
    · exact ⟨u32 ((k.ftable g).off + count), by simp [here]⟩
    · exact ⟨(k.ftable g).off, by simp [here]⟩

theorem offOnly_holders (only : OffOnly k k') : holders k' = holders k := by
  refine holders_same (fun q => by rw [only.proc]) fun g => ?_
  obtain ⟨off, same⟩ := only.files g
  rw [same]
  exact ⟨rfl, rfl⟩

theorem offOnly_kept (only : OffOnly k k') : FilesKept k.ftable k'.ftable := by
  intro g type
  obtain ⟨off, same⟩ := only.files g
  rw [same] at type ⊢
  exact ⟨type, rfl, rfl, id⟩

theorem kinv_lock (kern : Kern t) (inv : KInv t a k) (held : 0 < holders k ip) :
    Ensures t.contract (ilock ip) k.fs (fun _ s' => Busy t ∅ (holders k) a (a.lock ip) s') := by
  have busy := busy_of_ready inv.ready
  have refs := inv.ready.refs
  refine ensures_weaken (busy_lock busy (runs_room kern.toRuns) (refs ▸ held) (Or.inr kern.asleep)
    (Or.inl (inv.ready.calm.live ip held))) ?_
  rintro _ s' ⟨busy', _, _⟩
  exact busy'

theorem kinv_unlock {s : State} (inv : KInv t a k) (busy : Busy t ∅ (holders k) a (a.lock ip) s) :
    Ensures t.contract (iunlock ip) s (fun _ s' =>
      Rested t (holders k) a ((a.lock ip).unlock ip) s') := by
  have free : ip ∉ a.locked := by
    rw [inv.ready.locked]
    exact Finset.notMem_empty ip
  refine ensures_weaken (busy_unlock busy (Finset.mem_insert_self ip a.locked)) ?_
  intro _ s' busy'
  refine ⟨busy_done busy' inv.ready.refs ?_, busy'.kept, inv.outside⟩
  rw [Snap.lock_unlock_locked free, inv.ready.locked]

theorem kinv_advanced {s : State} (inv : KInv t a k) (only : OffOnly { k with fs := s } k')
    (rested : Rested t (holders k) a a' s') (types : KeepsTypes a.nodes a'.nodes) :
    KInv t a' { k' with fs := s' } := by
  have same := offOnly_holders only
  have kept := offOnly_kept only
  refine kinv_rested inv same rested types kept ?_
  change ProcsOk k'.proc
  rw [only.proc]
  exact inv.procs

theorem fileread_spec (kern : Kern t) (inv : KInv t a k) (small : n < 2 ^ 32) :
    Ensures t.contract (fileread f n) k (fun _ k' => ∃ a', KInv t a' k' ∧ a'.nodes = a.nodes) := by
  apply ensures_inspect_then
  by_cases closed : (!(k.ftable f).readable) = true
  · rw [if_pos closed]
    exact ensures_pure ⟨a, inv, rfl⟩
  rw [if_neg closed]
  by_cases inode : (k.ftable f).type = .inode
  · rw [if_pos inode]
    have held := holders_pos_file (inv.files f inode).inside inode
    refine ensures_within_then (kinv_lock kern inv held) ?_
    intro _ s₁ busy₁
    refine ensures_within_then (readi_spec busy₁.rep (Finset.mem_insert_self _ _)
      (runs_room kern.toRuns) small) ?_
    rintro r s₂ ⟨_, rep₂⟩
    obtain ⟨k₃, run, only⟩ := advance_run f (r.map List.length) { k with fs := s₂ }
    refine ensures_quiet_then run ?_
    have busy₂ : Busy t ∅ (holders k) a (a.lock (k.ftable f).ip) k₃.fs := by
      rw [only.fs]
      exact { busy₁ with rep := rep₂ }
    refine ensures_within_then (kinv_unlock inv busy₂) ?_
    intro _ s₄ rested
    exact ensures_pure ⟨_, kinv_advanced inv only rested (fun _ _ => Or.inl rfl), rfl⟩
  · rw [if_neg inode]
    exact ensures_halt (kern.files _ (by decide))

theorem wrote_setNode {node : Node} {nodes : Nat → Node} {i off : Nat} {src : List UInt8}
    (inside : i < n) (live : (nodes i).type ≠ 0) (file : (nodes i).type ≠ tDir)
    (now : node = (nodes i).write off src) : Wrote n nodes (setNode nodes i node) := by
  intro j
  by_cases here : j = i
  · rw [here, setNode_at, now]
    exact Or.inr ⟨inside, live, file, _, _, rfl⟩
  · exact Or.inl (setNode_other _ _ here)

theorem touched_chunk (off : Nat) {len : Nat} (short : len ≤ 1536) : (touched off len).card ≤ 5 := by
  have card := touched_card off len
  split at card <;> omega

theorem inside_write {F : Set Nat} {R : Nat → Nat} {a₀ : Snap} {s : State} {off : Nat}
    {src : List UInt8} (runs : Runs t) (inside : Inside t 5 F R a₀ a s) (mine : ip ∈ a.locked)
    (live : (a.node ip).type ≠ 0) (file : (a.node ip).type ≠ tDir)
    (footprint : iblock (a.inums ip) ∈ F) (short : src.length ≤ 1536) :
    Ensures t.contract (writei ip src off) s (fun _ s' => ∃ F' a', Inside t 0 F' R a₀ a' s' ∧
      a'.refs = a.refs ∧ a'.locked = a.locked ∧ Wrote t.sb.ninodes a.nodes a'.nodes) := by
  have busy := inside.busy
  have same : ∃ F' a', Inside t 0 F' R a₀ a' s ∧ a'.refs = a.refs ∧ a'.locked = a.locked ∧
      Wrote t.sb.ninodes a.nodes a'.nodes :=
    ⟨F, a, ⟨busy, inside.trans, inside.bitmaps, inside_room inside⟩, rfl, rfl, wrote_refl _ _⟩
  by_cases device : (a.node ip).type = tDev
  · exact ensures_of_done (writei_device busy.rep mine device)
      (fun _ member => (List.not_mem_nil member).elim) same
  by_cases bad : off > (a.node ip).size ∨ u32 (off + src.length) < off ∨
      u32 (off + src.length) > 71680
  · exact ensures_of_done (writei_refused busy.rep mine device bad)
      (fun _ member => (List.not_mem_nil member).elim) same
  have small := rep_small busy.rep mine
  obtain ⟨_, _, _, bound⟩ := rep_inum busy.rep (rep_held busy.rep ip mine)
  have start : off ≤ (a.node ip).size := by
    by_contra past
    exact bad (Or.inl (by omega))
  have fits : off + src.length ≤ 71680 := by
    by_contra past
    have word : u32 (off + src.length) = off + src.length := Nat.mod_eq_of_lt (by omega)
    exact bad (Or.inr (Or.inr (by omega)))
  have fresh : a.inums ip ∉ a.stale := by
    rw [busy.clean]
    exact Finset.notMem_empty _
  have touch := touched_chunk off short
  refine ensures_weaken (writei_spec (n := 0) runs.writes runs.relies busy.rep mine fresh live device
    inside.bitmaps (inside_writable inside) footprint start fits
    (room_less inside.room (by omega))) ?_
  rintro _ s' ⟨rfl, F', more, room', rep⟩
  have type : ((a.node ip).write off src).type = (a.node ip).type := rfl
  refine ⟨F', _, ⟨busy_setNode busy mine type (fun dir => absurd dir file) rep, inside.trans,
    fun b low => more (inside.bitmaps b low), room'⟩, rfl, rfl, ?_⟩
  exact wrote_setNode bound live file rfl

theorem writeChunk_spec {chunk : List UInt8} (kern : Kern t) (inv : KInv t a k)
    (inode : (k.ftable f).type = .inode) (writable : (k.ftable f).writable = true)
    (short : chunk.length ≤ 1536) :
    Ensures t.contract (writeChunk f chunk) k (fun _ k' => ∃ a', KInv t a' k' ∧
      Wrote t.sb.ninodes a.nodes a'.nodes ∧ (k'.ftable f).type = .inode ∧
      (k'.ftable f).writable = true) := by
  have runs := kern.toRuns
  have ok := inv.files f inode
  have held := holders_pos_file ok.inside inode
  have live := inv.ready.calm.live _ held
  have free : (k.ftable f).ip ∉ a.locked := by
    rw [inv.ready.locked]
    exact Finset.notMem_empty _
  apply ensures_inspect_then
  refine ensures_within_then (inside_begin runs (busy_of_ready inv.ready) inv.outside) ?_
  intro _ s₁ inside₁
  have heldHere : 0 < (a.setTrans true).refs (k.ftable f).ip := by
    change 0 < a.refs _
    rw [inv.ready.refs]
    exact held
  refine ensures_within_then (inside_lock runs inside₁ heldHere (Or.inl live)) ?_
  rintro _ s₂ ⟨inside₂, _, _⟩
  replace inside₂ := inside_reserve inside₂ (iblock (a.inums (k.ftable f).ip))
  refine ensures_within_then (inside_write runs inside₂
    (Finset.mem_insert_self _ _) live (ok.writable writable) (Set.mem_insert _ _) short) ?_
  rintro r s₃ ⟨F₃, a₃, inside₃, refs₃, locked₃, wrote⟩
  obtain ⟨k₄, run, only⟩ := advance_run f r { k with fs := s₃ }
  refine ensures_quiet_then run ?_
  rw [← show k₄.fs = s₃ from only.fs] at inside₃
  have mine₃ : (k.ftable f).ip ∈ a₃.locked := by
    rw [locked₃]
    exact Finset.mem_insert_self _ _
  refine ensures_within_then (inside_unlock inside₃ mine₃) ?_
  intro _ s₅ inside₅
  refine ensures_within_then (inside_rest runs inside₅ (refs₃.trans inv.ready.refs) ?_) ?_
  · change a₃.locked.erase _ = ∅
    rw [locked₃]
    exact (Finset.erase_insert free).trans inv.ready.locked
  rintro _ s₆ ⟨a₆, rested, nodes⟩
  have wrote₆ : Wrote t.sb.ninodes a.nodes a₆.nodes := by
    rw [nodes]
    exact wrote
  obtain ⟨off, same⟩ := only.files f
  have after := kinv_advanced inv only rested fun i _ => Or.inl (wrote_type wrote₆ i)
  refine ensures_pure ⟨a₆, after, wrote₆, ?_, ?_⟩
  · change (k₄.ftable f).type = _
    rw [same]
    exact inode
  · change (k₄.ftable f).writable = _
    rw [same]
    exact writable

theorem filewriteLoop_spec {fuel : Nat} {data : List UInt8} (kern : Kern t) (inv : KInv t a k)
    (inode : (k.ftable f).type = .inode) (writable : (k.ftable f).writable = true) :
    Ensures t.contract (filewriteLoop f fuel data) k (fun _ k' => ∃ a', KInv t a' k' ∧
      Wrote t.sb.ninodes a.nodes a'.nodes) := by
  induction fuel generalizing k a data with
  | zero => exact ensures_pure ⟨a, inv, wrote_refl _ _⟩
  | succ fuel ih =>
    rw [filewriteLoop]
    by_cases stop : data.length = 0
    · rw [if_pos stop]
      exact ensures_pure ⟨a, inv, wrote_refl _ _⟩
    rw [if_neg stop]
    refine ensures_then (writeChunk_spec kern inv inode writable
      (List.length_take_le maxChunk data)) ?_
    rintro (_ | r) k₁ ⟨a₁, inv₁, wrote, inode₁, writable₁⟩
    · exact ensures_pure ⟨a₁, inv₁, wrote⟩
    · dsimp only
      by_cases short : r ≠ (data.take maxChunk).length
      · rw [if_pos short]
        exact ensures_halt (kern.files _ (by decide))
      · rw [if_neg short]
        refine ensures_weaken (ih inv₁ inode₁ writable₁) ?_
        rintro _ k₂ ⟨a₂, inv₂, wrote₂⟩
        exact ⟨a₂, inv₂, wrote_trans wrote wrote₂⟩

theorem filewrite_spec {data : List UInt8} (kern : Kern t) (inv : KInv t a k) :
    Ensures t.contract (filewrite f data) k (fun _ k' => ∃ a', KInv t a' k' ∧
      Wrote t.sb.ninodes a.nodes a'.nodes) := by
  apply ensures_inspect_then
  by_cases closed : (!(k.ftable f).writable) = true
  · rw [if_pos closed]
    exact ensures_pure ⟨a, inv, wrote_refl _ _⟩
  rw [if_neg closed]
  by_cases inode : (k.ftable f).type = .inode
  · rw [if_pos inode]
    refine ensures_then (filewriteLoop_spec kern inv inode (by simpa using closed)) ?_
    intro all k₁ wrote
    exact ensures_pure wrote
  · rw [if_neg inode]
    exact ensures_halt (kern.files _ (by decide))

end ReadWrite

end Xv6.FileSpec
