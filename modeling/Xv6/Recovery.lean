import Xv6.LogSpec

/-! Crash atomicity of kernel/log.c. The disk after a crash is the old disk with
some prefix of the issued sector writes. A restart finds that disk and an empty
cache and runs recover_from_log, which may crash again. -/
namespace Xv6.Recovery
open TraceMonad RedoLog Layout Bio Cache Codec LogSpec

/-- The sector writes among the events, in issue order. -/
def writesOf (events : List Event) : List (Nat × Block) :=
  events.filterMap fun event =>
    match event with
    | .write sector data => some (sector, data)
    | _ => none

@[simp] theorem writesOf_append (early later : List Event) :
    writesOf (early ++ later) = writesOf early ++ writesOf later := List.filterMap_append

@[simp] theorem writesOf_writeEvents (writes : List (Nat × Block)) :
    writesOf (writeEvents writes) = writes := by
  induction writes with
  | nil => rfl
  | cons write rest ih => simp [writesOf, writeEvents]

/-- What a process does to the log between begin_trans and commit_trans: read a
block, change a block it holds and log it, release a block. -/
inductive LogOp where
  | bread (sector : Nat)
  | logModify (sector : Nat) (data : Block)
  | brelse (sector : Nat)
  deriving DecidableEq

def runOps : List LogOp → DevM Unit
  | [] => return ()
  | .bread x :: rest => do
    let _ ← Bio.bread x
    runOps rest
  | .logModify x data :: rest => do
    Bio.logModify x data
    runOps rest
  | .brelse x :: rest => do
    Bio.brelse x
    runOps rest

def transaction (ops : List LogOp) : DevM Unit := do
  beginTrans
  runOps ops
  commitTrans

/-- Buffers are read before they are changed and all are released at the end.
The sectors are unsigned ints outside the log area. -/
def Legal (log : Log) : Finset Nat → List LogOp → Prop
  | holding, [] => holding = ∅
  | holding, .bread x :: rest =>
    x ∉ holding ∧ x < 2 ^ 32 ∧ ¬ InLog log x ∧ Legal log (insert x holding) rest
  | holding, .logModify x _ :: rest => x ∈ holding ∧ Legal log holding rest
  | holding, .brelse x :: rest => x ∈ holding ∧ Legal log (holding.erase x) rest

/-- The contents passed to log_write, in order. -/
def loggedBlocks : List LogOp → List (Nat × Block)
  | [] => []
  | .logModify x data :: rest => (x, data) :: loggedBlocks rest
  | _ :: rest => loggedBlocks rest

/-- The machine after a restart: an empty cache over the disk as it was left. -/
def restart (log : Log) (disk : Nat → Block) : Dev :=
  { disk := disk, bcache := binit, log := { log with busy := false, lh := [] } }

/-- A recovery that stops after some of its writes. -/
def RecoveryCrash (log : Log) (before after : Nat → Block) : Prop :=
  ∃ k, after = storeAll before ((writesOf (recoverFromLog (restart log before)).2).take k)

/-! Recovery on a fresh cache writes what the redo log says. -/

theorem binit_coherent (disk : Nat → Block) (log : Log) : Coherent ∅ ∅ ⟨disk, binit, log⟩ := by
  have blank : ∀ b ∈ binit, b = ⟨none, false, false, false, 0⟩ :=
    fun b member => List.eq_of_mem_replicate member
  refine ⟨List.length_replicate, ?_, ?_, fun x pin => absurd pin (Finset.notMem_empty x)⟩
  · change (binit.filterMap Buf.sector).Nodup
    decide
  · intro b member
    rw [blank b member]
    exact ⟨rfl, rfl⟩

theorem binit_held (disk : Nat → Block) (log : Log) : held ⟨disk, binit, log⟩ = ∅ := by
  change ((binit.filter Buf.busy).filterMap Buf.sector).toFinset = ∅
  decide

section Recover
variable {s : Dev}

theorem readHead_run (coherent : Coherent ∅ ∅ s) (none : held s = ∅) :
    ∃ s', readHead s = (.done () s', []) ∧ Coherent ∅ ∅ s' ∧ s'.disk = s.disk ∧
      view s' = ⟨content s, ∅, { s.log with lh := getHeader (content s s.log.start) }⟩ := by
  have free : s.log.start ∉ held s := by simp [none]
  rcases bread_run coherent free with ⟨s₁, run₁, coherent₁, view₁, disk₁⟩ | ⟨_, full, _⟩
  swap
  · rw [none] at full
    exact absurd full (by decide)
  let s₂ : Dev := setLog s₁ s₁.log.busy (getHeader (content s s.log.start))
  have run₂ : setLh (getHeader (content s s.log.start)) s₁ = (.done () s₂, []) := rfl
  have mine₂ : s.log.start ∈ held s₂ := (held_hold view₁ : s.log.start ∈ held s₁)
  obtain ⟨s₃, run₃, coherent₃, view₃, disk₃⟩ :=
    brelse_run (setLog_coherent _ _ coherent₁) mine₂ (Finset.notMem_empty _)
  refine ⟨s₃, ?_, coherent₃, disk₃.trans disk₁, ?_⟩
  · rw [readHead, bind_done (show inspect Dev.log s = (.done s.log s, []) from rfl),
      bind_done run₁, bind_done run₂, run₃]
    rfl
  · have log₁ : s₁.log = s.log := congrArg View.log view₁
    have blk₁ : content s₁ = content s := congrArg View.blk view₁
    have held₁ : held s₁ = {s.log.start} := by
      have holds : held s₁ = insert s.log.start (held s) := congrArg View.held view₁
      simp [holds, none]
    rw [view₃, setLog_view, blk₁, held₁, log₁]
    simp [View.release]

theorem recoverFromLog_run (coherent : Coherent ∅ ∅ s) (none : held s = ∅)
    (sound : Sound (format s.log) (getHeader (s.disk s.log.start))) :
    ∃ s', recoverFromLog s = (.done () s', writeEvents (replay (format s.log) s.disk)) ∧
      Coherent ∅ ∅ s' ∧ s'.disk = storeAll s.disk (replay (format s.log) s.disk) ∧
      view s' = ⟨s'.disk, ∅, { s.log with lh := [] }⟩ := by
  have blk : content s = s.disk := idle_content coherent
  obtain ⟨s₁, run₁, coherent₁, disk₁, view₁⟩ := readHead_run coherent none
  rw [blk] at view₁
  have held₁ : held s₁ = ∅ := congrArg View.held view₁
  have blk₁ : content s₁ = s.disk := congrArg View.blk view₁
  have log₁ : s₁.log = { s.log with lh := getHeader (s.disk s.log.start) } :=
    congrArg View.log view₁
  have offSlot : ∀ entry ∈ (getHeader (s.disk s.log.start)).zipIdx,
      ∀ other ∈ (getHeader (s.disk s.log.start)).zipIdx, other.1 ≠ s.log.start + entry.2 + 1 := by
    intro entry member other inside same
    have home := sound.inside other.1 (List.fst_mem_of_mem_zipIdx inside)
    rw [same] at home
    exact sound.offSlots entry member home
  obtain ⟨s₂, run₂, coherent₂, view₂, disk₂⟩ := copyLog_run coherent₁ held₁ offSlot
    (fun entry _ => Finset.notMem_empty _) (by decide) (Or.inr (by decide))
  have copied : copiesOf (content s₁) s.log.start (getHeader (s.disk s.log.start)).zipIdx =
      copies (format s.log) s.disk := by
    rw [blk₁]
    rfl
  rw [copied] at run₂ view₂ disk₂
  rw [Finset.empty_sdiff] at coherent₂
  have log₂ : s₂.log = s₁.log := congrArg View.log view₂
  have held₂ : held s₂ = ∅ := (congrArg View.held view₂).trans held₁
  have blk₂ : content s₂ = storeAll s.disk (copies (format s.log) s.disk) := by
    have raw : content s₂ = storeAll (content s₁) (copies (format s.log) s.disk) :=
      congrArg View.blk view₂
    rw [raw, blk₁]
  obtain ⟨s₃, hdr, run₃, hdrEq, coherent₃, view₃, disk₃, _⟩ | ⟨_, full⟩ :=
    writeHead_run (s := setLog s₂ s₂.log.busy []) (setLog_coherent _ _ coherent₂) held₂
      (Finset.notMem_empty _)
  swap
  · exact absurd full (by decide)
  have start₂ : s₂.log.start = s.log.start := by rw [log₂, log₁]
  -- No copy reaches the header, so what is erased is the header recovery has read.
  have kept : storeAll s.disk (copies (format s.log) s.disk) s.log.start = s.disk s.log.start := by
    apply storeAll_outside
    intro write member same
    obtain ⟨entry, inside, rfl⟩ := List.mem_map.mp member
    have home := sound.inside entry.1 (List.fst_mem_of_mem_zipIdx inside)
    rw [show entry.1 = s.log.start from same] at home
    exact sound.offHeader home
  have hdrFinal : hdr = putHeader (s.disk s.log.start) [] := by
    rw [hdrEq]
    change putHeader (content s₂ s₂.log.start) [] = _
    rw [blk₂, start₂, kept]
  subst hdrFinal
  have disk : s₃.disk = storeAll s.disk (replay (format s.log) s.disk) := by
    rw [disk₃, replay, storeAll_append]
    change store s₂.disk s₂.log.start _ = _
    rw [disk₂, disk₁, start₂]
    rfl
  refine ⟨s₃, ?_, coherent₃, disk, ?_⟩
  · have installed : installTrans s₁ =
        copyLog s.log.start (getHeader (s.disk s.log.start)).zipIdx s₁ := by
      rw [installTrans, bind_done (show inspect Dev.log s₁ = (.done s₁.log s₁, []) from rfl), log₁]
      rfl
    have cleared : setLh [] s₂ = (.done () (setLog s₂ s₂.log.busy []), []) := rfl
    have startSame : (setLog s₂ s₂.log.busy []).log.start = s.log.start := start₂
    rw [recoverFromLog, bind_done run₁, bind_done (installed.trans run₂), bind_done cleared, run₃,
      startSame]
    simp [writeEvents, replay, format]
  · rw [← idle_content coherent₃]
    have held₃ : held s₃ = ∅ := (congrArg View.held view₃).trans held₂
    have log₃ : s₃.log = { s.log with lh := [] } := by
      have raw : s₃.log = { s₂.log with lh := [] } := congrArg View.log view₃
      rw [raw, log₂, log₁]
    rw [← held₃, ← log₃]
    rfl

end Recover

/-! A transaction before its commit record touches log slots only. -/

def SlotWrites (log : Log) (events : List Event) : Prop :=
  ∀ write ∈ writesOf events, InLog log write.1 ∧ write.1 ≠ log.start

theorem slotWrites_append {log : Log} {early later : List Event} (first : SlotWrites log early)
    (second : SlotWrites log later) : SlotWrites log (early ++ later) := by
  intro write member
  rw [writesOf_append] at member
  rcases List.mem_append.mp member with old | new
  · exact first write old
  · exact second write new

/-- A running transaction: `base` is the disk it started from, `mods` what has
been logged so far. -/
structure Running (log : Log) (base : Nat → Block) (mods : List (Nat × Block))
    (holding : Finset Nat) (s : Dev) : Prop where
  normal : Normal s
  holds : held s = holding
  away : ∀ x ∈ holding, ¬ InLog log x ∧ x < 2 ^ 32
  place : s.log.start = log.start ∧ s.log.size = log.size
  busy : s.log.busy = true
  short : s.log.lh.length ≤ logsize
  fits : ∀ x ∈ s.log.lh, x < 2 ^ 32
  disk : ∀ x, ¬ InLog log x ∨ x = log.start → s.disk x = base x
  blk : ∀ x, ¬ InLog log x → content s x = storeAll base mods x

section Ops
variable {log : Log} {base : Nat → Block} {mods : List (Nat × Block)} {holding : Finset Nat}
  {s : Dev} {x : Nat}

theorem inLog_congr {a b : Log} (start : a.start = b.start) (size : a.size = b.size) (x : Nat) :
    InLog a x ↔ InLog b x := by
  rw [InLog, InLog, start, size]

theorem running_frame {s' : Dev} {holding' : Finset Nat} (running : Running log base mods holding s)
    (coherent : Coherent s.log.lh.toFinset ∅ s') (blk : content s' = content s)
    (sameLog : s'.log = s.log) (disk : s'.disk = s.disk) (holds : held s' = holding')
    (away : ∀ x ∈ holding', ¬ InLog log x ∧ x < 2 ^ 32) : Running log base mods holding' s' := by
  have inv := running.normal.inv
  refine ⟨⟨by rwa [sameLog], ?_⟩, holds, away, by rw [sameLog]; exact running.place,
    by rw [sameLog]; exact running.busy, by rw [sameLog]; exact running.short,
    by rw [sameLog]; exact running.fits, by rw [disk]; exact running.disk,
    by rw [blk]; exact running.blk⟩
  refine ⟨?_, ?_, ?_, ?_⟩ <;> simp only [view, sameLog, blk]
  · exact inv.nodup
  · exact inv.fits
  · exact inv.home
  · exact inv.saved

theorem running_bread (running : Running log base mods holding s) (free : x ∉ holding)
    (fits : x < 2 ^ 32) (home : ¬ InLog log x) :
    (∃ value s', bread x s = (.done value s', []) ∧
      Running log base mods (insert x holding) s' ∧ s'.disk = s.disk) ∨
    ∃ s', bread x s = (.halt .bgetNoBuffers s', []) := by
  rcases bread_run (x := x) running.normal.coherent (by rwa [running.holds]) with
    ⟨s', run, coherent, same, disk⟩ | ⟨run, _, _⟩
  · left
    refine ⟨_, s', run, ?_, disk⟩
    apply running_frame running coherent (congrArg View.blk same) (congrArg View.log same) disk
    · rw [← running.holds]
      exact congrArg View.held same
    · intro y member
      rcases Finset.mem_insert.mp member with rfl | old
      · exact ⟨home, fits⟩
      · exact running.away y old
  · exact Or.inr ⟨s, run⟩

theorem running_brelse (running : Running log base mods holding s) (mine : x ∈ holding) :
    ∃ s', brelse x s = (.done () s', []) ∧ Running log base mods (holding.erase x) s' ∧
      s'.disk = s.disk := by
  obtain ⟨s', run, coherent, same, disk⟩ := brelse_run (x := x) running.normal.coherent
    (by rwa [running.holds]) (Finset.notMem_empty x)
  refine ⟨s', run, ?_, disk⟩
  apply running_frame running coherent (congrArg View.blk same) (congrArg View.log same) disk
  · rw [← running.holds]
    exact congrArg View.held same
  · exact fun y member => running.away y (Finset.mem_of_mem_erase member)

theorem running_logModify (data : Block) (running : Running log base mods holding s)
    (mine : x ∈ holding) :
    (∃ s' events, logModify x data s = (.done () s', events) ∧ SlotWrites log events ∧
      Running log base (mods ++ [(x, data)]) holding s' ∧
      s'.disk = storeAll s.disk (writesOf events)) ∨
    ∃ reason s' events, logModify x data s = (.halt reason s', events) ∧ writesOf events = [] := by
  have held := running.holds
  have sameArea := inLog_congr running.place.1 running.place.2
  have modified := bmodify_run running.normal.coherent (x := x) (by rwa [held]) data
  obtain ⟨s₁, run₁, _, view₁, _⟩ := modified
  have log₁ : s₁.log = s.log := congrArg View.log view₁
  by_cases full : logsize ≤ s.log.lh.length ∨ s.log.size ≤ s.log.lh.length + 1
  · right
    refine ⟨.tooBigTransaction, s₁, [], ?_, rfl⟩
    rw [logModify, bind_done run₁, logWrite_full (by rwa [log₁])]
    rfl
  rcases logModify_run data running.normal (by rwa [held])
      (fun y member => by rw [sameArea]; exact (running.away y (held ▸ member)).1) full
      running.busy with ⟨s', slot, run, slotEq, normal, whole, disk⟩ | ⟨s', run, _⟩
  swap
  · exact Or.inr ⟨_, s', _, run, rfl⟩
  left
  have slotIn : InLog log slot := by
    rw [← sameArea, slotEq]
    exact slot_inLog (by have := logSlot_le s.log.lh x; omega)
  have slotOff : slot ≠ log.start := by
    rw [slotEq, ← running.place.1, slotOf]
    omega
  have newLog : s'.log = { s.log with lh := addSector s.log.lh x } := congrArg View.log whole
  have newBlk : content s' = store (store (content s) x data) slot data := by
    rw [slotEq]
    exact congrArg View.blk whole
  refine ⟨s', _, run, ?_, ?_, disk⟩
  · intro write member
    have only : write = (slot, data) := by simpa [writesOf] using member
    rw [only]
    exact ⟨slotIn, slotOff⟩
  · refine ⟨normal, ?_, running.away, ?_, ?_, ?_, ?_, ?_, ?_⟩
    · rw [← held]
      exact congrArg View.held whole
    · rw [newLog]
      exact running.place
    · rw [newLog]
      exact running.busy
    · rw [newLog]
      have := addSector_length_le s.log.lh x
      dsimp only
      omega
    · rw [newLog]
      intro y member
      rcases mem_addSector.mp member with old | rfl
      · exact running.fits y old
      · exact (running.away y mine).2
    · intro y outside
      have off : y ≠ slot := by
        rintro rfl
        exact outside.elim (fun home => home slotIn) slotOff
      rw [disk, store_other _ _ off]
      exact running.disk y outside
    · intro y home
      have off : y ≠ slot := by
        rintro rfl
        exact home slotIn
      rw [newBlk, store_other _ _ off, storeAll_append]
      change _ = store (storeAll base mods) x data y
      by_cases here : y = x
      · simp [store, here]
      · rw [store_other _ _ here, store_other _ _ here]
        exact running.blk y home

theorem runOps_run {ops : List LogOp} (running : Running log base mods holding s)
    (legal : Legal log holding ops) :
    (∃ s' events, runOps ops s = (.done () s', events) ∧ SlotWrites log events ∧
      Running log base (mods ++ loggedBlocks ops) ∅ s' ∧
      s'.disk = storeAll s.disk (writesOf events)) ∨
    ∃ reason s' events, runOps ops s = (.halt reason s', events) ∧ SlotWrites log events := by
  induction ops generalizing s mods holding with
  | nil =>
    left
    cases legal
    refine ⟨s, [], rfl, fun write member => (List.not_mem_nil member).elim, ?_, rfl⟩
    simpa [loggedBlocks] using running
  | cons op rest ih =>
    cases op with
    | bread x =>
      obtain ⟨free, fits, home, legal⟩ := legal
      rcases running_bread running free fits home with ⟨_, s₁, run₁, running₁, disk₁⟩ | ⟨s₁, run₁⟩
      · rcases ih running₁ legal with ⟨s₂, events, run₂, slots, running₂, disk₂⟩ |
          ⟨reason, s₂, events, run₂, slots⟩
        · exact Or.inl ⟨s₂, events, by rw [runOps, bind_done run₁, run₂]; rfl, slots, running₂,
            disk₁ ▸ disk₂⟩
        · exact Or.inr ⟨reason, s₂, events, by rw [runOps, bind_done run₁, run₂]; rfl, slots⟩
      · exact Or.inr ⟨_, s₁, [], by rw [runOps, bind_halt run₁],
          fun write member => (List.not_mem_nil member).elim⟩
    | brelse x =>
      obtain ⟨s₁, run₁, running₁, disk₁⟩ := running_brelse running legal.1
      rcases ih running₁ legal.2 with ⟨s₂, events, run₂, slots, running₂, disk₂⟩ |
        ⟨reason, s₂, events, run₂, slots⟩
      · exact Or.inl ⟨s₂, events, by rw [runOps, bind_done run₁, run₂]; rfl, slots, running₂,
          disk₁ ▸ disk₂⟩
      · exact Or.inr ⟨reason, s₂, events, by rw [runOps, bind_done run₁, run₂]; rfl, slots⟩
    | logModify x data =>
      rcases running_logModify data running legal.1 with
        ⟨s₁, early, run₁, slots₁, running₁, disk₁⟩ | ⟨reason, s₁, early, run₁, quiet⟩
      · rcases ih running₁ legal.2 with ⟨s₂, events, run₂, slots, running₂, disk₂⟩ |
          ⟨reason, s₂, events, run₂, slots⟩
        · refine Or.inl ⟨s₂, early ++ events, by rw [runOps, bind_done run₁, run₂],
            slotWrites_append slots₁ slots, ?_, ?_⟩
          · simpa [loggedBlocks] using running₂
          · rw [disk₂, disk₁, writesOf_append, storeAll_append]
        · exact Or.inr ⟨reason, s₂, early ++ events, by rw [runOps, bind_done run₁, run₂],
            slotWrites_append slots₁ slots⟩
      · refine Or.inr ⟨reason, s₁, early, by rw [runOps, bind_halt run₁], ?_⟩
        intro write member
        rw [quiet] at member
        exact (List.not_mem_nil member).elim

end Ops

/-! Crashes. -/

section Crashes
variable {log : Log} {base goal : Nat → Block} {targets : List Nat}

theorem format_sound (placed : 0 < log.size) (short : targets = [] ∨ targets.length < log.size)
    (away : ∀ x ∈ targets, ¬ InLog log x) : Sound (format log) targets := by
  refine ⟨?_, away, ?_, ?_, ?_⟩
  · intro block
    exact getHeader_putHeader block [] (by simp) (by simp)
  · exact fun home => home (start_inLog placed)
  · intro entry member home
    have inside := (List.mem_zipIdx' member).1
    rcases short with rfl | short
    · simp at inside
    · exact home (slot_inLog (by omega))
  · intro entry _
    change log.start + entry.2 + 1 ≠ log.start
    omega

theorem slotWrites_quiet {writes : List (Nat × Block)}
    (empty : getHeader (base log.start) = [])
    (slots : ∀ write ∈ writes, InLog log write.1 ∧ write.1 ≠ log.start) :
    Quiet (format log) base (storeAll base writes) := by
  have same : ∀ x, ¬ InLog log x ∨ x = log.start → storeAll base writes x = base x := by
    intro x outside
    apply storeAll_outside
    rintro write member rfl
    obtain ⟨inside, off⟩ := slots write member
    exact outside.elim (fun home => home inside) off
  refine ⟨?_, fun x home => same x (Or.inl home)⟩
  change getHeader (storeAll base writes log.start) = []
  rw [same _ (Or.inr rfl), empty]

theorem commit_sealed {mods : List (Nat × Block)} {s : Dev} {hdr : Block}
    (placed : 0 < log.size) (running : Running log base mods ∅ s)
    (header : hdr = putHeader (s.disk s.log.start) s.log.lh) :
    Sealed (format log) s.log.lh base (storeAll base mods) (store s.disk log.start hdr) := by
  have sameArea := inLog_congr running.place.1 running.place.2
  have inv := running.normal.inv
  have startIn := start_inLog placed
  have diskAt : ∀ x, x ∉ s.log.lh → content s x = s.disk x := by
    intro x absent
    exact content_disk running.normal.coherent (by simpa using absent) (Finset.notMem_empty x)
  have away : ∀ x ∈ s.log.lh, ¬ InLog log x := fun x member => by
    rw [← sameArea]
    exact inv.home x member
  have offStart : ∀ x, ¬ InLog log x → x ≠ log.start := by
    rintro x home rfl
    exact home startIn
  refine ⟨?_, ?_, ?_, ?_⟩
  · change getHeader (store s.disk log.start hdr log.start) = s.log.lh
    rw [store_at, header]
    have short := running.short
    simp only [logsize] at short
    exact getHeader_putHeader _ _ running.fits (by omega)
  · intro entry member
    have inside := (List.mem_zipIdx' member).1
    have nonempty : s.log.lh ≠ [] := List.ne_nil_of_length_pos (by omega)
    have fits := inv.fits nonempty
    have slotIn : InLog s.log (slotOf s.log entry.2) :=
      slot_inLog (by simp only [view] at fits; omega)
    have place : (format log).slot entry.2 = slotOf s.log entry.2 := by
      change log.start + entry.2 + 1 = s.log.start + entry.2 + 1
      rw [running.place.1]
    have off : slotOf s.log entry.2 ≠ log.start := by
      rw [← running.place.1, slotOf]
      omega
    rw [place, store_other _ _ off, ← diskAt _ fun listed => inv.home _ listed slotIn]
    rw [← running.blk entry.1 (away _ (List.fst_mem_of_mem_zipIdx member))]
    exact inv.saved entry member
  · intro x home
    left
    rw [store_other _ _ (offStart x home)]
    exact running.disk x (Or.inl home)
  · intro x home absent
    rw [← running.blk x home, diskAt x absent]
    exact running.disk x (Or.inl home)

theorem begin_running {s : Dev} (idle : Idle s) :
    Running s.log s.disk [] ∅ (setLog s true s.log.lh) := by
  have empty := idle.empty
  refine ⟨⟨?_, ?_⟩, idle.none, fun x member => absurd member (Finset.notMem_empty x), ⟨rfl, rfl⟩,
    rfl, ?_, ?_, fun _ _ => rfl, ?_⟩
  · simpa [setLog, empty] using setLog_coherent true [] idle.coherent
  · refine ⟨?_, ?_, ?_, ?_⟩ <;> simp [setLog, view, empty]
  · simp [setLog, empty]
  · simp [setLog, empty]
  · intro x _
    exact congrFun (idle_content idle.coherent) x

/-- A crash at any point of a transaction leaves the old state, the sealed
transaction or the new state. -/
theorem transaction_crash {s : Dev} {ops : List LogOp} (idle : Idle s)
    (blank : getHeader (s.disk s.log.start) = []) (legal : Legal s.log ∅ ops) (k : Nat) :
    ∃ targets, Sound (format s.log) targets ∧
      Recovering (format s.log) targets s.disk (storeAll s.disk (loggedBlocks ops))
        (storeAll s.disk ((writesOf (transaction ops s).2).take k)) := by
  have none : Sound (format s.log) [] := format_sound idle.placed (Or.inl rfl) (by simp)
  -- Before the commit record is written, only log slots have changed.
  have early : ∀ events, SlotWrites s.log events → writesOf (transaction ops s).2 = writesOf events →
      ∃ targets, Sound (format s.log) targets ∧
        Recovering (format s.log) targets s.disk (storeAll s.disk (loggedBlocks ops))
          (storeAll s.disk ((writesOf (transaction ops s).2).take k)) := by
    intro events slots same
    refine ⟨[], none, Or.inl ?_⟩
    rw [same]
    exact slotWrites_quiet blank
      fun write member => slots write (List.mem_of_mem_take member)
  have begun := beginTrans_run idle.closed
  rcases runOps_run (begin_running idle) legal with
    ⟨s₁, events, run₁, slots, running, disk⟩ | ⟨reason, s₁, events, run₁, slots⟩
  swap
  · apply early events slots
    rw [transaction, bind_done begun, bind_halt run₁]
    rfl
  have placed : 0 < s₁.log.size := by
    rw [running.place.2]
    exact idle.placed
  by_cases pending : s₁.log.lh = []
  · apply early events slots
    rw [transaction, bind_done begun, bind_done run₁, commitTrans_empty pending]
    simp
  by_cases room : s₁.log.lh.length < nbuf
  swap
  · apply early events slots
    rw [transaction, bind_done begun, bind_done run₁,
      commitTrans_full running.normal running.holds placed (Nat.le_of_not_lt room)]
    simp
  obtain ⟨s₂, hdr, header, run₂, _, _⟩ :=
    commitTrans_run running.normal running.holds placed pending room
  have sealed := commit_sealed idle.placed running header
  rw [List.nil_append] at sealed
  have fits : s₁.log.lh.length < s.log.size := by
    rw [← running.place.2]
    exact running.normal.inv.fits pending
  have sound : Sound (format s.log) s₁.log.lh := by
    refine format_sound idle.placed (Or.inr fits) fun x member => ?_
    rw [← inLog_congr running.place.1 running.place.2]
    exact running.normal.inv.home x member
  have diskEnd : storeAll s.disk (writesOf events) = s₁.disk := disk.symm
  -- After the commit record, the install and erase writes are those of a recovery.
  have tail : copiesOf s₁.disk s₁.log.start s₁.log.lh.zipIdx ++ [(s₁.log.start, putHeader hdr [])] =
      replay (format s.log) (store s₁.disk s.log.start hdr) := by
    have named : getHeader (store s₁.disk s.log.start hdr s.log.start) = s₁.log.lh := sealed.named
    rw [replay, copies]
    change _ = (getHeader (store s₁.disk s.log.start hdr s.log.start)).zipIdx.map _ ++
      [(s.log.start, putHeader (store s₁.disk s.log.start hdr s.log.start) [])]
    rw [named, store_at, running.place.1]
    congr 1
    apply List.map_congr_left
    intro entry _
    change _ = (entry.1, store s₁.disk s.log.start hdr (s.log.start + entry.2 + 1))
    rw [store_other _ _ (by omega)]
  have all : writesOf (transaction ops s).2 = writesOf events ++ (s.log.start, hdr) ::
      replay (format s.log) (store s₁.disk s.log.start hdr) := by
    rw [transaction, bind_done begun, bind_done run₁, run₂, tail, running.place.1]
    simp
  by_cases before : k ≤ (writesOf events).length
  · refine ⟨[], none, Or.inl ?_⟩
    rw [all, List.take_append_of_le_length before]
    exact slotWrites_quiet blank
      fun write member => slots write (List.mem_of_mem_take member)
  · obtain ⟨j, rfl⟩ : ∃ j, k = (writesOf events).length + (j + 1) :=
      ⟨k - (writesOf events).length - 1, by omega⟩
    refine ⟨s₁.log.lh, sound, Or.inr ?_⟩
    rw [all, List.take_length_add_append, List.take_succ_cons, storeAll_append, diskEnd]
    exact sealed_crash sound sealed j

theorem recovering_sound {disk : Nat → Block} (sound : Sound (format log) targets)
    (placed : 0 < log.size)
    (state : Recovering (format log) targets base goal disk) :
    Sound (format log) (getHeader (disk log.start)) := by
  have none : Sound (format log) [] := format_sound placed (Or.inl rfl) (by simp)
  rcases state with quiet | sealed | quiet
  · rwa [show getHeader (disk log.start) = [] from quiet.empty]
  · rwa [show getHeader (disk log.start) = targets from sealed.named]
  · rwa [show getHeader (disk log.start) = [] from quiet.empty]

theorem restart_recovers {disk : Nat → Block} (sound : Sound (format log) targets)
    (placed : 0 < log.size) (state : Recovering (format log) targets base goal disk) :
    ∃ s', recoverFromLog (restart log disk) =
        (.done () s', writeEvents (replay (format log) disk)) ∧
      s'.disk = storeAll disk (replay (format log) disk) := by
  obtain ⟨s', run, _, after, _⟩ := recoverFromLog_run (s := restart log disk)
    (binit_coherent disk _) (binit_held disk _) (recovering_sound sound placed state)
  exact ⟨s', run, after⟩

theorem recovering_run {disk disk' : Nat → Block} (sound : Sound (format log) targets)
    (placed : 0 < log.size) (state : Recovering (format log) targets base goal disk)
    (crashes : Relation.ReflTransGen (RecoveryCrash log) disk disk') :
    Recovering (format log) targets base goal disk' := by
  induction crashes with
  | refl => exact state
  | tail _ crash ih =>
    obtain ⟨s', run, _⟩ := restart_recovers sound placed ih
    obtain ⟨k, rfl⟩ := crash
    rw [run, writesOf_writeEvents]
    exact recovering_crash sound ih ⟨k, rfl⟩

end Crashes

/-- Crash atomicity. However a transaction is cut short, and however often the
recovery from that is cut short, the recovery that finishes leaves every home
sector as it was before the transaction or every home sector as the transaction
left it, and an empty log. -/
theorem recovered_all_or_nothing (s : Dev) (ops : List LogOp) (idle : Idle s)
    (blank : getHeader (s.disk s.log.start) = []) (legal : Legal s.log ∅ ops) (k : Nat)
    (disk : Nat → Block)
    (crashes : Relation.ReflTransGen (RecoveryCrash s.log)
      (storeAll s.disk ((writesOf (transaction ops s).2).take k)) disk) :
    ∃ s', (recoverFromLog (restart s.log disk)).1 = .done () s' ∧
      getHeader (s'.disk s.log.start) = [] ∧
      ((∀ x, ¬ InLog s.log x → s'.disk x = s.disk x) ∨
        ∀ x, ¬ InLog s.log x → s'.disk x = storeAll s.disk (loggedBlocks ops) x) := by
  obtain ⟨targets, sound, state⟩ := transaction_crash idle blank legal k
  have left := recovering_run sound idle.placed state crashes
  obtain ⟨s', run, after⟩ := restart_recovers sound idle.placed left
  refine ⟨s', by rw [run], ?_⟩
  rw [after]
  rcases recovering_finish sound left with quiet | quiet
  · exact ⟨quiet.empty, Or.inl quiet.kept⟩
  · exact ⟨quiet.empty, Or.inr quiet.kept⟩

/-- A zeroed disk whose log lies at sectors 6 to 15. -/
def zeroed : Dev := restart ⟨6, 10, false, []⟩ fun _ => 0

theorem zeroed_idle : Idle zeroed :=
  ⟨binit_coherent _ _, rfl, rfl, binit_held _ _, by decide⟩

/-- One block logged twice, with the crash after the second sector write. -/
theorem recovered_after_two_writes :
    ∃ s', (recoverFromLog (restart zeroed.log (storeAll zeroed.disk
          ((writesOf (transaction [.bread 3, .logModify 3 5, .logModify 3 7, .brelse 3]
            zeroed).2).take 2)))).1 = .done () s' ∧
      getHeader (s'.disk zeroed.log.start) = [] ∧
      ((∀ x, ¬ InLog zeroed.log x → s'.disk x = zeroed.disk x) ∨
        ∀ x, ¬ InLog zeroed.log x → s'.disk x = storeAll zeroed.disk [(3, 5), (3, 7)] x) :=
  recovered_all_or_nothing zeroed [.bread 3, .logModify 3 5, .logModify 3 7, .brelse 3] zeroed_idle
    (by simp [zeroed, restart, getHeader, getUint_zero])
    (by simp [Legal, InLog, zeroed, restart]) 2 _ .refl

end Xv6.Recovery
