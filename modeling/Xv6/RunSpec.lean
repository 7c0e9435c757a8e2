import Xv6.CallSpec
import Xv6.ImageFiles
import Xv6.Recovery

/-! Runs. The kernel boots from a consistent disk into its invariant, and every
sequence of system calls keeps it, together with any property of the inodes that
single calls keep. -/
namespace Xv6.RunSpec
open TraceMonad RedoLog Layout Codec Bio Cache LogSpec Recovery Ownership Fs Disk DevSpec InodeSpec
open ContentSpec Directory DirSpec Moves OpSpec Syscall FileSpec CallSpec Mkfs ImageSpec

section Boot
variable {t : Setting} {disk : Nat → Block} {nodes : Nat → Node}

/-- The device before the first sector is read. -/
def coldDev (disk : Nat → Block) : Dev := ⟨disk, binit, ⟨0, 0, false, []⟩⟩

theorem readsb_cold (disk : Nat → Block) :
    ∃ s, readsb (coldDev disk) = (.done (getSuperblock (disk 1)) s, []) ∧ Coherent ∅ ∅ s ∧
      held s = ∅ ∧ s.disk = disk ∧ s.log = ⟨0, 0, false, []⟩ := by
  have coherent : Coherent ∅ ∅ (coldDev disk) := binit_coherent disk _
  have none : held (coldDev disk) = ∅ := binit_held disk _
  have shown : content (coldDev disk) = disk := idle_content coherent
  rcases bread_run coherent (show 1 ∉ held (coldDev disk) by simp [none]) with
    ⟨s₁, run₁, coherent₁, view₁, disk₁⟩ | ⟨_, full, _⟩
  swap
  · rw [none] at full
    exact absurd full (by decide)
  obtain ⟨s₂, run₂, coherent₂, view₂, disk₂⟩ := brelse_run coherent₁ (held_hold view₁)
    (Finset.notMem_empty _)
  rw [view₁] at view₂
  refine ⟨s₂, ?_, coherent₂, ?_, disk₂.trans disk₁, congrArg View.log view₂⟩
  · rw [readsb, bind_done run₁, bind_done run₂]
    change (Outcome.done (getSuperblock (content (coldDev disk) 1)) s₂, [] ++ ([] ++ [])) = _
    rw [shown]
    rfl
  · have released : held s₂ = (insert 1 (held (coldDev disk))).erase 1 := congrArg View.held view₂
    rw [released, none]
    rfl

theorem initlog_cold (super : getSuperblock (disk 1) = t.sb)
    (header : getHeader (disk (logStart t.sb)) = []) :
    ∃ s writes, initlog (coldDev disk) = (.done () s, writeEvents writes) ∧
      Holds t ∅ disk false ∅ s := by
  obtain ⟨s₁, run₁, coherent₁, none₁, disk₁, log₁⟩ := readsb_cold disk
  have geometry := t.geometry
  have sum := logStart_le geometry
  have wide := geometry.wide
  have start : u32 (t.sb.size + 2 ^ 32 - t.sb.nlog) = logStart t.sb := by
    simp only [u32, logStart]
    omega
  let s₂ : Dev := { s₁ with log := ⟨logStart t.sb, t.sb.nlog, false, []⟩ }
  have coherent₂ : Coherent ∅ ∅ s₂ :=
    ⟨coherent₁.length, coherent₁.distinct, coherent₁.bufs, coherent₁.pinned⟩
  have blank : getHeader (s₂.disk s₂.log.start) = [] := by
    change getHeader (s₁.disk (logStart t.sb)) = []
    rw [disk₁]
    exact header
  obtain ⟨s₃, run₃, coherent₃, disk₃, view₃⟩ := recoverFromLog_run coherent₂ none₁
    (by rw [blank]; exact format_sound geometry.log (Or.inl rfl) (by simp))
  have log₃ : s₃.log = ⟨logStart t.sb, t.sb.nlog, false, []⟩ := congrArg View.log view₃
  have blk₃ : content s₃ = s₃.disk := congrArg View.blk view₃
  have written : s₃.disk = store disk (logStart t.sb) (putHeader (disk (logStart t.sb)) []) := by
    rw [disk₃, replay, copies]
    change storeAll s₁.disk ((getHeader (s₂.disk s₂.log.start)).zipIdx.map _ ++
      [(logStart t.sb, putHeader (s₁.disk (logStart t.sb)) [])]) = _
    rw [blank, disk₁]
    rfl
  refine ⟨s₃, replay (format s₂.log) s₂.disk, ?_, ?_⟩
  · rw [initlog, bind_done run₁, super, bind_done (show _ = (Outcome.done () s₂, []) from ?_), run₃]
    · rfl
    · change (Outcome.done () { s₁ with log := { s₁.log with
        start := u32 (t.sb.size + 2 ^ 32 - t.sb.nlog), size := t.sb.nlog } }, []) = _
      rw [log₁, start]
  · refine ⟨⟨by rw [log₃]; exact coherent₃, ?_⟩, fun x low => ?_, by rw [log₃], by rw [log₃],
      by rw [log₃], fun _ => by rw [log₃], congrArg View.held view₃, by simp, by simp [log₃]⟩
    · refine ⟨?_, ?_, ?_, ?_⟩ <;> simp [view, log₃]
    · rw [blk₃, written, store_other _ _ (by omega)]

/-- The icache after userinit: one reference to the root, not read yet. -/
def bootCache : Nat → Inode := fun k =>
  if k = 0 then ⟨rootino, 1, false, false, Dinode.zero⟩ else ⟨0, 0, false, false, Dinode.zero⟩

/-- The kernel in its first process, with the device `dev`. -/
def booted (dev : Dev) : Kernel :=
  { fs := { dev := dev, icache := bootCache, console := fun _ => none }
    ftable := fun _ => ⟨.none, 0, false, false, 0, 0⟩
    proc := fun p => if p = initproc then ⟨.runnable, initproc, fun _ => none, some 0⟩
      else ⟨.unused, initproc, fun _ => none, none⟩ }

def bootSnap (nodes : Nat → Node) : Snap :=
  { nodes := nodes
    refs := fun k => if k = 0 then 1 else 0
    inums := fun k => if k = 0 then rootino else 0
    locked := ∅
    loaded := ∅
    stale := ∅
    trans := false
    console := fun _ => none }

theorem namei_cold (dev : Dev) :
    namei 0 [slash] ⟨dev, fun _ => ⟨0, 0, false, false, Dinode.zero⟩, fun _ => none⟩ =
      (.done (some 0) ⟨dev, bootCache, fun _ => none⟩, []) := by
  rfl

theorem boot_first (disk : Nat → Block) : onFs (namei 0 [slash]) (powerOn disk) =
    (.done (some 0) { powerOn disk with fs := ⟨coldDev disk, bootCache, fun _ => none⟩ }, []) := by
  have run : namei 0 [slash] (powerOn disk).fs =
      (.done (some 0) ⟨coldDev disk, bootCache, fun _ => none⟩, []) := namei_cold (coldDev disk)
  unfold onFs within
  simp only [run]

theorem boot_last {dev : Dev} {events : List Event} (k : Kernel)
    (run : initlog k.fs.dev = (.done () dev, events)) :
    onFs (onDev initlog) k = (.done () { k with fs := { k.fs with dev := dev } }, events) := by
  unfold onFs onDev within
  simp only [run]

theorem boot_procs (disk : Nat → Block) (dev : Dev) :
    (fun q => if q = initproc then { (powerOn disk).proc q with state := .runnable, cwd := some 0 }
      else (powerOn disk).proc q) = (booted dev).proc := by
  funext q
  by_cases here : q = initproc <;> simp [here, powerOn, booted]

theorem boot_run {dev : Dev} {events : List Event}
    (run : initlog (coldDev disk) = (.done () dev, events)) :
    boot (powerOn disk) = (.done () (booted dev), events) := by
  have last : onFs (onDev initlog) ⟨⟨coldDev disk, bootCache, fun _ => none⟩, (powerOn disk).ftable,
      (booted dev).proc⟩ = (.done () (booted dev), events) := boot_last _ run
  rw [← boot_procs disk dev] at last
  have middle : setProc initproc (fun q => { q with state := .runnable, cwd := some 0 })
      ⟨⟨coldDev disk, bootCache, fun _ => none⟩, (powerOn disk).ftable, (powerOn disk).proc⟩ =
        (.done () _, []) := rfl
  exact bind_done_done (boot_first disk) (bind_done_done middle last)

theorem booted_holders (dev : Dev) : holders (booted dev) = fun k => if k = 0 then 1 else 0 := by
  funext k
  have files : fileRefs (booted dev).ftable k = 0 := by
    rw [fileRefs, count, Finset.card_eq_zero, Finset.filter_eq_empty_iff]
    rintro f _ ⟨type, _⟩
    cases type
  have cwds : cwdRefs (booted dev).proc k = if k = 0 then 1 else 0 := by
    by_cases zero : k = 0
    · subst zero
      rw [if_pos rfl]
      rfl
    · rw [if_neg zero, cwdRefs, count, Finset.card_eq_zero, Finset.filter_eq_empty_iff]
      intro p _ cwd
      by_cases first : p = initproc
      · simp only [booted, first, ↓reduceIte, Option.some.injEq] at cwd
        exact zero cwd.symm
      · simp [booted, first] at cwd
  rw [holders, files, cwds, Nat.add_zero]

theorem boot_spec (consistent : Consistent t.sb disk nodes) :
    ∃ k writes, boot (powerOn disk) = (.done () k, writeEvents writes) ∧
      KInv t (bootSnap nodes) k := by
  obtain ⟨dev, writes, run, holds⟩ := initlog_cold consistent.blocks.super consistent.header
  refine ⟨booted dev, writes, boot_run run, ?_⟩
  have root : (bootSnap nodes).inums 0 = rootino := rfl
  have only : ∀ k, 0 < (bootSnap nodes).refs k → k = 0 := by
    intro k some
    by_contra other
    simp only [bootSnap, if_neg other] at some
    exact absurd some (Nat.lt_irrefl 0)
  have cached : Cached t.sb (dinodeAt disk) (bootSnap nodes) bootCache := by
    refine ⟨fun k => ?_, fun k some => ?_, fun k l hereK hereL _ => ?_, fun k some valid => ?_,
      fun k => ?_, fun k member => absurd member (Finset.notMem_empty k), fun k some => ?_⟩
    · by_cases zero : k = 0 <;> simp [bootCache, bootSnap, zero]
    · obtain rfl := only k some
      exact ⟨by decide, rfl, Nat.one_pos, t.geometry.root⟩
    · rw [only k hereK, only l hereL]
    · obtain rfl := only k some
      cases valid
    · by_cases zero : k = 0 <;> simp [bootCache, bootSnap, zero]
    · obtain rfl := only k some
      simp [bootCache, bootSnap]
  have world : World t ∅ ∅ disk (dinodeAt disk) ∅ (bootSnap nodes) (booted dev).fs :=
    ⟨⟨holds, consistent.blocks, fun _ _ _ => rfl, cached, rfl⟩, consistent.shown⟩
  refine ⟨⟨⟨disk, dinodeAt disk, world⟩, (booted_holders dev).symm, ⟨fun k some => ?_,
    fun i inside typed unlinked => absurd unlinked (consistent.linked i inside typed),
    consistent.shape⟩, rfl, rfl⟩, rfl, fun f type => ?_, ⟨fun p running => ?_, fun p idle => ?_⟩⟩
  · rw [booted_holders] at some
    obtain rfl := only k some
    rw [Snap.node, root]
    exact fun none => absurd (consistent.root.symm.trans none) (by decide)
  · cases type
  · by_cases first : p = initproc
    · exact ⟨by rw [first]; decide, 0, by simp [booted, first]⟩
    · simp [booted, first] at running
  · by_cases first : p = initproc
    · simp [booted, first] at idle
    · simp [booted, first]

end Boot

/-! The inodes as the blocks show them. -/

def inodesOf (dev : Dev) : Nat → Node := fun i => nodeOf (content dev) (dinodeAt (content dev) i)

section Shown
variable {sb : Superblock} {h h' : Nat → Block} {eff : Nat → Dinode} {spare : Set Nat} {t : Setting}
  {F : Set Nat} {a : Snap} {s : State} {i : Nat}

theorem entry_below_log (blocks : Blocks sb h eff spare) (same : ∀ x < logStart sb, h' x = h x)
    (inside : i < sb.ninodes) (e : Nat) : entry h' (eff i) e = entry h (eff i) e :=
  entry_congr fun some => same _ (addr_data blocks inside (Nat.le_refl 12) some).1.2

theorem usedIn_below_log (geometry : Geometry sb) (same : ∀ x < logStart sb, h' x = h x) {b : Nat}
    (inside : b < sb.size) : usedIn h' sb b = usedIn h sb b :=
  usedIn_congr (same _ (Nat.lt_of_lt_of_le (bblock_low sb inside).2 geometry.area))

theorem blocks_below_log (geometry : Geometry sb) (blocks : Blocks sb h eff spare)
    (same : ∀ x < logStart sb, h' x = h x) : Blocks sb h' eff spare := by
  have far := geometry.area
  rw [dataStart_eq] at far
  have owners : own sb h' eff = own sb h eff := by
    funext ⟨j, e⟩
    unfold own
    split
    · rename_i bounds
      exact entry_below_log blocks same bounds.1 e
    · rfl
  refine ⟨?_, ?_, fun b low => ?_, fun j inside k below => ?_, blocks.small, blocks.fields, blocks.clean⟩
  · rw [same 1 (by omega)]
    exact blocks.super
  · refine ledger_congr blocks.ledger (fun x data => ?_) owners
    rw [usedIn_below_log geometry same (inData_size geometry data)]
  · rw [usedIn_below_log geometry same (low_size geometry low)]
    exact blocks.low b low
  · rw [blockOf, entry_below_log blocks same inside]
    exact blocks.full j inside k below

theorem dinodeAt_below_log (geometry : Geometry sb) (same : ∀ x < logStart sb, h' x = h x)
    (inside : i < sb.ninodes) : dinodeAt h' i = dinodeAt h i := by
  have low := iblock_low sb inside
  have far := geometry.area
  rw [dataStart_eq] at far
  rw [dinodeAt, same _ (by omega), dinodeAt]

theorem nodeOf_below_log (blocks : Blocks sb h eff spare) (same : ∀ x < logStart sb, h' x = h x)
    (inside : i < sb.ninodes) : nodeOf h' (eff i) = nodeOf h (eff i) := by
  refine nodeOf_congr rfl fun p below => ?_
  have some := blocks.full i inside (p / 512) (by omega)
  have small := index_small blocks inside (k := p / 512) (by omega)
  have data := (blockOf_data blocks inside small some).1
  have block : blockOf h' (eff i) (p / 512) = blockOf h (eff i) (p / 512) :=
    entry_below_log blocks same inside _
  rw [rawByte, rawByte, block, same _ data.2]

theorem rep_blocks (rep : Rep t F a s) (clean : a.stale = ∅) :
    Blocks t.sb (content s.dev) (dinodeAt (content s.dev)) ∅ ∧
      ∀ i < t.sb.ninodes, inodesOf s.dev i = a.nodes i := by
  obtain ⟨h, eff, world⟩ := rep
  have same : ∀ x < logStart t.sb, content s.dev x = h x := world.dev.blk
  have force : ∀ i < t.sb.ninodes, dinodeAt (content s.dev) i = eff i := by
    intro i inside
    rw [dinodeAt_below_log t.geometry same inside]
    exact world.synced i inside (by simp [clean])
  refine ⟨MkfsSpec.blocks_congr (blocks_below_log t.geometry world.blocks same) force, fun i inside => ?_⟩
  rw [inodesOf, force i inside, nodeOf_below_log world.blocks same inside, world.nodes i inside]

end Shown

section Transfer
variable {t : Setting} {F : Set Nat} {a : Snap} {s : State} {k : Kernel} {nodes : Nat → Node}

theorem world_setting {H : Finset Nat} {h : Nat → Block} {eff : Nat → Dinode} {spare : Set Nat}
    (world : World t F H h eff spare a s) (u : Setting) (same : u.sb = t.sb) :
    World u F H h eff spare a s := by
  obtain ⟨sb, contract, geometry, permit⟩ := u
  obtain rfl : sb = t.sb := same
  exact ⟨⟨⟨world.dev.normal, world.dev.blk, world.dev.start, world.dev.size, world.dev.busy,
    world.dev.idle, world.dev.held, world.dev.below, world.dev.inside⟩, world.blocks, world.synced,
    world.cached, world.console⟩, world.nodes⟩

theorem kinv_setting (inv : KInv t a k) (u : Setting) (same : u.sb = t.sb) : KInv u a k := by
  obtain ⟨h, eff, world⟩ := inv.ready.rep
  refine ⟨⟨⟨h, eff, world_setting world u same⟩, inv.ready.refs, ?_, inv.ready.locked,
    inv.ready.clean⟩, inv.outside, inv.files, inv.procs⟩
  rw [same]
  exact inv.ready.calm

theorem kinv_agree (inv : KInv t a k) (agree : ∀ i < t.sb.ninodes, nodes i = a.nodes i) :
    KInv t { a with nodes := nodes } k := by
  obtain ⟨⟨rep, refs, calm, locked, clean⟩, outside, files, procs⟩ := inv
  have node : ∀ ip, 0 < holders k ip → nodes (a.inums ip) = a.node ip := fun ip held =>
    agree _ (rep_inum rep (refs ▸ held)).2.2.2
  obtain ⟨h, eff, world⟩ := rep
  have world' : World t ∅ ∅ h eff ∅ { a with nodes := nodes } k.fs :=
    ⟨⟨world.dev, world.blocks, world.synced, cached_congr world.cached rfl rfl rfl rfl, world.console⟩,
      fun i inside => (agree i inside).trans (world.nodes i inside)⟩
  refine ⟨⟨⟨h, eff, world'⟩, refs, ⟨fun ip held => ?_, fun i inside => ?_, fun i inside => ?_⟩, locked,
    clean⟩, outside, fun f type => ?_, procs⟩
  · change (nodes (a.inums ip)).type ≠ 0
    rw [node ip held]
    exact calm.live ip held
  · change (nodes i).type ≠ 0 → (nodes i).nlink = 0 → _
    rw [agree i inside]
    exact calm.anchored i inside
  · change (nodes i).type = tDir → DirShape _ (nodes i)
    rw [agree i inside]
    exact calm.shape i inside
  · have ok := files f type
    refine ⟨ok.inside, ok.used, ok.ready, fun writable => ?_⟩
    change (nodes (a.inums (k.ftable f).ip)).type ≠ tDir
    rw [node _ (holders_pos_file ok.inside type)]
    exact ok.writable writable

theorem kinv_shown (inv : KInv t a k) : KInv t { a with nodes := inodesOf k.fs.dev } k :=
  kinv_agree inv (rep_blocks inv.ready.rep inv.ready.clean).2

end Transfer

/-! Sequences of system calls. -/

/-- Which panics a result leaves open: those for a full log or cache, that for a write
outside a transaction, and that of ilock for a free inode. -/
structure Mode where
  capacity : Bool
  outside : Bool
  dangling : Bool

/-- The panics that stand for exhausted resources, bad descriptors and calls that sleep. -/
def benign : List Halt :=
  [.asleep, .ballocOutOfBlocks, .iallocNoInodes, .igetNoInodes, .dirlink, .unlinkNlink] ++ fileHalts

def Mode.halts (mode : Mode) (reason : Halt) : Prop :=
  reason ∈ benign ∨ (mode.capacity = true ∧ (reason = .tooBigTransaction ∨ reason = .bgetNoBuffers)) ∨
    (mode.outside = true ∧ reason = .writeOutsideOfTrans) ∨
    (mode.dangling = true ∧ reason = .ilockNoType)

/-- What the run is promised: balloc finds the data area not full or returns a data block,
and, unless the panic is left open, the last reference to a removed directory is no
working directory. -/
def Mode.rely (mode : Mode) (sb : Superblock) : Event → Prop
  | .alloc b free => free = true ∨ InData sb b
  | .cwdDrop last => mode.outside = false → last = false
  | _ => True

def Mode.guar (mode : Mode) (sb : Superblock) : Event → Prop
  | .alloc b free => free = true ∧ InData sb b
  | .logged n => mode.capacity = false → n < 9
  | _ => True

def setting (sb : Superblock) (geometry : Geometry sb) (mode : Mode) (permit : Permit) : Setting :=
  ⟨sb, ⟨mode.rely sb, mode.guar sb, mode.halts⟩, geometry, permit⟩

/-- The log is as large as LOGSIZE and there is one block of bitmap. -/
def OneBitmap (sb : Superblock) : Prop := 9 ≤ sb.nlog ∧ sb.size ≤ 4096

section Modes
variable {sb : Superblock} {geometry : Geometry sb} {mode : Mode} {permit : Permit}

theorem benign_halts {reason : Halt} (member : reason ∈ benign) : mode.halts reason := Or.inl member

theorem bitmaps_one (small : sb.size ≤ 4096) : bitmapBlocks sb ⊆ {bblock 0 sb.ninodes} := by
  rintro x ⟨b, inside, rfl⟩
  have zero : b / 4096 = 0 := Nat.div_eq_of_lt (by omega)
  simp [bblock, bpb, zero]

theorem setting_room (wide : mode.capacity = true ∨ OneBitmap sb) :
    Room (setting sb geometry mode permit) (bitmapBlocks sb) 6 := by
  rcases wide with open_ | ⟨_, small⟩
  · exact Or.inl ⟨Or.inr (Or.inl ⟨open_, Or.inl rfl⟩), Or.inr (Or.inl ⟨open_, Or.inr rfl⟩)⟩
  · have one := bitmaps_one small
    have finite : (bitmapBlocks sb).Finite := (Set.finite_singleton _).subset one
    refine Or.inr ⟨finite, ?_⟩
    have := Set.ncard_le_ncard one (Set.finite_singleton _)
    rw [Set.ncard_singleton] at this
    omega

theorem setting_kern (wide : mode.capacity = true ∨ OneBitmap sb) :
    Kern (setting sb geometry mode permit) where
  writes :=
    { write := fun _ _ => trivial
      logged := fun n some closed => by
        rcases some with loose | small
        · -- A closed mode does not tolerate the capacity panics.
          rcases loose.1 with member | ⟨opened, _⟩ | ⟨_, wrong⟩ | ⟨_, wrong⟩
          · exact absurd member (by decide)
          · rw [closed] at opened
            cases opened
          · cases wrong
          · cases wrong
        · exact small
      alloc := fun _ data => ⟨rfl, data⟩
      size := wide.imp (fun opened => ⟨Or.inr (Or.inl ⟨opened, Or.inl rfl⟩),
        Or.inr (Or.inl ⟨opened, Or.inr rfl⟩)⟩) fun one => one.1 }
  relies := ⟨fun _ _ promised => promised, benign_halts (by decide)⟩
  room := setting_room wide
  asleep := benign_halts (by decide)
  igetNoInodes := benign_halts (by decide)
  iallocNoInodes := benign_halts (by decide)
  dirlink := benign_halts (by decide)
  unlinkNlink := benign_halts (by decide)
  cwdDrop := fun _ => trivial
  dropped := by
    cases opened : mode.outside with
    | false => exact Or.inl fun last promised => promised opened
    | true => exact Or.inr (Or.inr (Or.inr (Or.inl ⟨opened, rfl⟩)))
  files := fun reason member => benign_halts (List.mem_append_right _ member)

end Modes

/-- The inode of the working directory of process `p`. -/
def cwdInum (k : Kernel) (p : Nat) : Nat := (k.fs.icache (cwdSlot k p)).inum

/-- Every call that is made in the run is made in a state in which `ok` holds for it. -/
def Meets (ok : Kernel → Nat → Call → Prop) : List (Nat × Call) → Kernel → Prop
  | [], _ => True
  | (p, call) :: rest, k =>
    if (k.proc p).state = .runnable then
      ok k p call ∧ (syscall p call k).1.Leads (Meets ok rest)
    else Meets ok rest k

instance decidableMeets (ok : Kernel → Nat → Call → Prop) [∀ k p call, Decidable (ok k p call)] :
    (calls : List (Nat × Call)) → DecidablePred (Meets ok calls)
  | [] => fun _ => isTrue trivial
  | (p, call) :: rest => fun k =>
    have := decidableMeets ok rest
    inferInstanceAs (Decidable (if (k.proc p).state = .runnable then
      ok k p call ∧ (syscall p call k).1.Leads (Meets ok rest) else Meets ok rest k))

theorem meets_of_forall {ok : Kernel → Nat → Call → Prop} (all : ∀ k p call, ok k p call)
    (calls : List (Nat × Call)) (k : Kernel) : Meets ok calls k := by
  induction calls generalizing k with
  | nil => trivial
  | cons call rest ih =>
    obtain ⟨p, call⟩ := call
    unfold Meets
    split
    · exact ⟨all k p call, Outcome.leads_of_forall ih⟩
    · exact ih k

/-- A property of the inodes that every call keeps, provided that `ok` holds for the call and
the state before it. -/
structure Upkeep (sb : Superblock) (mode : Mode) (ok : Kernel → Nat → Call → Prop)
    (permit : (Nat → Node) → Permit) (holds : (Nat → Node) → Prop) : Prop where
  typed : ∀ nodes, holds nodes →
    mode.dangling = true ∨ ((nodes rootino).type ≠ 0 ∧ Closed sb.ninodes nodes)
  agree : ∀ nodes nodes', holds nodes → (∀ i < sb.ninodes, nodes' i = nodes i) → holds nodes'
  allowed : ∀ k p call, ok k p call →
    Allowed (permit (inodesOf k.fs.dev)) (inodesOf k.fs.dev) (cwdInum k p) call
  keeps : ∀ k p call nodes', holds (inodesOf k.fs.dev) → ok k p call →
    Move sb.ninodes (permit (inodesOf k.fs.dev)) (inodesOf k.fs.dev) nodes' → holds nodes'

/-- A permit for everything. -/
def anything : Permit := ⟨fun _ => True, fun _ => True⟩

section Runs
variable {sb : Superblock} {geometry : Geometry sb} {mode : Mode} {ok : Kernel → Nat → Call → Prop}
  {permit : (Nat → Node) → Permit} {holds : (Nat → Node) → Prop} {a : Snap} {k : Kernel}

theorem allowed_anything (nodes : Nat → Node) (cwd : Nat) (call : Call) :
    Allowed anything nodes cwd call := by
  cases call <;> simp [Allowed, MayAdd, MayRemove, anything]

theorem typed_of_upkeep {p : Permit} {nodes : Nat → Node} (upkeep : Upkeep sb mode ok permit holds)
    (now : holds nodes) : Typed (setting sb geometry mode p) nodes :=
  (upkeep.typed nodes now).imp_left fun loose => Or.inr (Or.inr (Or.inr ⟨loose, rfl⟩))

theorem call_spec {p : Nat} {call : Call} (wide : mode.capacity = true ∨ OneBitmap sb)
    (upkeep : Upkeep sb mode ok permit holds) (inv : KInv (setting sb geometry mode anything) a k)
    (now : holds (inodesOf k.fs.dev)) (running : (k.proc p).state = .runnable) (fine : ok k p call) :
    Ensures (setting sb geometry mode anything).contract (syscall p call) k (fun _ k' =>
      ∃ a', KInv (setting sb geometry mode anything) a' k' ∧ holds (inodesOf k'.fs.dev)) := by
  have permitted := kinv_setting (kinv_shown inv)
    (setting sb geometry mode (permit (inodesOf k.fs.dev))) rfl
  have held := (running_cwd inv running).2.2
  have cwd : cwdInum k p = a.inums (cwdSlot k p) :=
    (rep_inum inv.ready.rep (inv.ready.refs ▸ held)).2.1
  have allowed := upkeep.allowed k p call fine
  rw [cwd] at allowed
  have spec := syscall_spec (setting_kern wide) permitted (typed_of_upkeep upkeep now) running call
    allowed
  refine ensures_weaken spec ?_
  rintro _ k' ⟨a', inv', move⟩
  refine ⟨a', kinv_setting inv' _ rfl, ?_⟩
  exact upkeep.agree _ _ (upkeep.keeps k p call _ now fine move)
    (rep_blocks inv'.ready.rep inv'.ready.clean).2

theorem runCalls_spec (wide : mode.capacity = true ∨ OneBitmap sb)
    (upkeep : Upkeep sb mode ok permit holds) (calls : List (Nat × Call))
    (inv : KInv (setting sb geometry mode anything) a k) (now : holds (inodesOf k.fs.dev))
    (meets : Meets ok calls k) :
    Ensures (setting sb geometry mode anything).contract (runCalls calls) k (fun _ k' =>
      ∃ a', KInv (setting sb geometry mode anything) a' k' ∧ holds (inodesOf k'.fs.dev)) := by
  induction calls generalizing a k with
  | nil => exact ensures_pure ⟨a, inv, now⟩
  | cons call rest ih =>
    obtain ⟨p, call⟩ := call
    unfold Meets at meets
    apply ensures_inspect_then
    by_cases running : (k.proc p).state = .runnable
    · rw [if_pos running] at meets ⊢
      refine ensures_then (ensures_ran (call_spec wide upkeep inv now running meets.1)) ?_
      rintro _ k₁ ⟨⟨a₁, inv₁, now₁⟩, ran⟩
      exact ih inv₁ now₁ (Outcome.leads_done meets.2 ran)
    · rw [if_neg running] at meets ⊢
      exact ih inv now meets

/-- A computer that boots from a disk and then serves system calls. -/
def session (calls : List (Nat × Call)) : KernelM Unit := do
  boot
  runCalls calls

/-- Every call of the session is made in a state in which `ok` holds for it. -/
def SessionMeets (ok : Kernel → Nat → Call → Prop) (calls : List (Nat × Call)) (disk : Nat → Block) :
    Prop :=
  (boot (powerOn disk)).1.Leads (Meets ok calls)

instance {ok : Kernel → Nat → Call → Prop} [∀ k p call, Decidable (ok k p call)]
    {calls : List (Nat × Call)} {disk : Nat → Block} : Decidable (SessionMeets ok calls disk) :=
  inferInstanceAs (Decidable ((boot (powerOn disk)).1.Leads (Meets ok calls)))

theorem session_spec {disk : Nat → Block} {nodes : Nat → Node} {calls : List (Nat × Call)}
    (wide : mode.capacity = true ∨ OneBitmap sb) (upkeep : Upkeep sb mode ok permit holds)
    (consistent : Consistent sb disk nodes) (start : holds nodes)
    (meets : SessionMeets ok calls disk) :
    Ensures (setting sb consistent.geometry mode anything).contract (session calls) (powerOn disk)
      (fun _ k' => ∃ a', KInv (setting sb consistent.geometry mode anything) a' k' ∧
        holds (inodesOf k'.fs.dev)) := by
  have kern : Kern (setting sb consistent.geometry mode anything) := setting_kern wide
  obtain ⟨k, writes, run, inv⟩ := boot_spec (t := setting sb consistent.geometry mode anything) consistent
  have now : Meets ok calls k := Outcome.leads_done meets (congrArg Prod.fst run)
  refine ensures_bind (ensures_of_done run (fun event member _ => ?_) ?_)
  · obtain ⟨write, _, rfl⟩ := List.mem_map.mp member
    exact kern.writes.write _ _
  · refine runCalls_spec wide upkeep calls inv ?_ now
    exact upkeep.agree _ _ start (rep_blocks inv.ready.rep inv.ready.clean).2

end Runs

end Xv6.RunSpec
