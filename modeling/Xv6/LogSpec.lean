import Xv6.Cache
import Xv6.Codec

/-! What the functions of kernel/log.c do to the view of the cache, and the
writes they issue. Between the operations of a transaction the state is
`Normal`: the pinned buffers are exactly those of the logged sectors, and each
log slot already holds the contents of the sector it was taken for. -/
namespace Xv6.LogSpec
open TraceMonad RedoLog Layout Bio Cache

def InLog (log : Log) (x : Nat) : Prop := log.start ≤ x ∧ x < log.start + log.size

def slotOf (log : Log) (i : Nat) : Nat := log.start + i + 1

def addSector (lh : List Nat) (x : Nat) : List Nat := if x ∈ lh then lh else lh ++ [x]

structure LogInv (v : View) : Prop where
  nodup : v.log.lh.Nodup
  fits : v.log.lh ≠ [] → v.log.lh.length < v.log.size
  home : ∀ x ∈ v.log.lh, ¬ InLog v.log x
  saved : ∀ entry ∈ v.log.lh.zipIdx, v.blk (slotOf v.log entry.2) = v.blk entry.1

structure Normal (s : Dev) : Prop where
  coherent : Coherent s.log.lh.toFinset ∅ s
  inv : LogInv (view s)

def logged (v : View) (x : Nat) (data : Block) : View :=
  { v with
    blk := store (store v.blk x data) (slotOf v.log (logSlot v.log.lh x)) data
    log := { v.log with lh := addSector v.log.lh x } }

section Slots
variable {lh : List Nat} {x : Nat}

theorem logSlot_le (lh : List Nat) (x : Nat) : logSlot lh x ≤ lh.length := List.idxOf_le_length

theorem logSlot_new (absent : x ∉ lh) : logSlot lh x = lh.length :=
  List.idxOf_eq_length_iff.mpr absent

theorem logSlot_old (present : x ∈ lh) : logSlot lh x < lh.length :=
  List.idxOf_lt_length_of_mem present

theorem mem_addSector {y : Nat} : y ∈ addSector lh x ↔ y ∈ lh ∨ y = x := by
  unfold addSector
  by_cases present : x ∈ lh
  · rw [if_pos present]
    constructor
    · exact Or.inl
    · rintro (old | rfl)
      · exact old
      · exact present
  · simp [present]

theorem addSector_toFinset : (addSector lh x).toFinset = insert x lh.toFinset := by
  ext y
  simp [mem_addSector, or_comm]

theorem addSector_nodup (nodup : lh.Nodup) : (addSector lh x).Nodup := by
  unfold addSector
  by_cases present : x ∈ lh
  · rwa [if_pos present]
  · rw [if_neg present, List.nodup_append]
    refine ⟨nodup, List.nodup_singleton x, ?_⟩
    intro y old z new same
    rw [List.mem_singleton] at new
    exact present (new ▸ same ▸ old)

theorem addSector_length_le (lh : List Nat) (x : Nat) : (addSector lh x).length ≤ lh.length + 1 := by
  unfold addSector
  split <;> simp

theorem mem_addSector_zipIdx {entry : Nat × Nat} (nodup : lh.Nodup)
    (member : entry ∈ (addSector lh x).zipIdx) :
    (entry.1 = x ∧ entry.2 = logSlot lh x) ∨
      (entry.1 ≠ x ∧ entry.2 ≠ logSlot lh x ∧ entry ∈ lh.zipIdx) := by
  obtain ⟨y, i⟩ := entry
  unfold addSector at member
  by_cases present : x ∈ lh
  · rw [if_pos present] at member
    obtain ⟨inside, at_i⟩ := List.mem_zipIdx' member
    have index : lh.idxOf y = i := by
      rw [at_i]
      exact nodup.idxOf_getElem i inside
    by_cases same : y = x
    · subst same
      exact Or.inl ⟨rfl, index.symm⟩
    · refine Or.inr ⟨same, ?_, member⟩
      intro clash
      have both : lh.idxOf y = lh.idxOf x := index.trans clash
      exact same ((List.idxOf_inj (at_i ▸ List.getElem_mem inside)).mp both)
  · rw [if_neg present, List.zipIdx_append, List.mem_append] at member
    rcases member with old | new
    · obtain ⟨inside, at_i⟩ := List.mem_zipIdx' old
      refine Or.inr ⟨?_, ?_, old⟩
      · intro same
        exact present (same ▸ at_i ▸ List.getElem_mem inside)
      · rw [logSlot_new present]
        exact Nat.ne_of_lt inside
    · simp only [List.zipIdx_singleton, List.mem_singleton, Prod.mk.injEq, Nat.zero_add] at new
      exact Or.inl ⟨new.1, by rw [logSlot_new present]; exact new.2⟩

end Slots

theorem slot_inLog {log : Log} {i : Nat} (small : i + 1 < log.size) : InLog log (slotOf log i) := by
  unfold InLog slotOf
  omega

theorem logged_inv (data : Block) {v : View} {x : Nat} (inv : LogInv v)
    (room : v.log.lh.length + 1 < v.log.size) (home : ¬ InLog v.log x) : LogInv (logged v x data) := by
  have slotIn : InLog v.log (slotOf v.log (logSlot v.log.lh x)) :=
    slot_inLog (by have := logSlot_le v.log.lh x; omega)
  have homes : ∀ y ∈ addSector v.log.lh x, ¬ InLog v.log y := by
    intro y member
    rcases mem_addSector.mp member with old | rfl
    · exact inv.home y old
    · exact home
  refine ⟨addSector_nodup inv.nodup, ?_, homes, ?_⟩
  · intro _
    have := addSector_length_le v.log.lh x
    simp only [logged]
    omega
  · intro entry member
    have entryHome := homes entry.1 (List.fst_mem_of_mem_zipIdx member)
    have offSlot : entry.1 ≠ slotOf v.log (logSlot v.log.lh x) :=
      fun same => entryHome (same ▸ slotIn)
    simp only [logged, slotOf] at offSlot ⊢
    rcases mem_addSector_zipIdx inv.nodup member with ⟨same, slot⟩ | ⟨other, slot, old⟩
    · rw [same] at offSlot
      rw [slot, same, store_other _ _ offSlot]
      simp
    · have inside := (List.mem_zipIdx' old).1
      have apart : v.log.start + entry.2 + 1 ≠ v.log.start + logSlot v.log.lh x + 1 := by omega
      have offX : v.log.start + entry.2 + 1 ≠ x := by
        intro same
        exact home (same ▸ (slot_inLog (by omega) : InLog v.log (slotOf v.log entry.2)))
      rw [store_other _ _ apart, store_other _ _ offX, store_other _ _ offSlot,
        store_other _ _ other]
      exact inv.saved entry old

/-! Writing one buffer out: bmodify, bwrite and brelse of a sector just read. -/

section Overwrite
variable {s : Dev} {pins loose : Finset Nat} {x : Nat}

def overwrite (x : Nat) (data : Block) : DevM Unit := do
  bmodify x data
  bwrite x
  brelse x

theorem overwrite_run (coherent : Coherent pins loose s) (mine : x ∈ held s) (tidy : x ∉ loose)
    (data : Block) :
    ∃ s', overwrite x data s = (.done () s', [.write x data]) ∧
      Coherent (pins.erase x) loose s' ∧ view s' = ((view s).write x data).release x ∧
      s'.disk = store s.disk x data := by
  obtain ⟨s₁, run₁, coherent₁, view₁, disk₁⟩ := bmodify_run coherent mine data
  have mine₁ : x ∈ held s₁ := by
    have same : held s₁ = held s := congrArg View.held view₁
    rwa [same]
  have now : content s₁ x = data := by
    have same : content s₁ = store (content s) x data := congrArg View.blk view₁
    simp [same]
  obtain ⟨s₂, run₂, coherent₂, view₂, disk₂⟩ := bwrite_run coherent₁ mine₁
  rw [now] at run₂ disk₂
  have mine₂ : x ∈ held s₂ := by
    have same : held s₂ = held s₁ := congrArg View.held view₂
    rwa [same]
  rw [Finset.erase_insert tidy] at coherent₂
  obtain ⟨s₃, run₃, coherent₃, view₃, disk₃⟩ := brelse_run coherent₂ mine₂ tidy
  refine ⟨s₃, ?_, coherent₃, ?_, ?_⟩
  · exact bind_done_done run₁ (bind_done_done run₂ run₃)
  · rw [view₃, view₂, view₁]
  · rw [disk₃, disk₂, disk₁]

theorem overwrite_bind {α : Type} (x : Nat) (data : Block) (next : DevM α) :
    (do bmodify x data; bwrite x; brelse x; next) = (overwrite x data >>= fun _ => next) := by
  simp only [overwrite, bind_assoc_action]

end Overwrite

/-! log_write on a buffer its caller has just changed. -/

section Write
variable {s : Dev} {x : Nat} {data : Block}

theorem getBuf_run {pins loose : Finset Nat} (coherent : Coherent pins loose s)
    (mine : x ∈ held s) : ∃ b, getBuf x s = (.done b s, []) ∧ b.data = content s x := by
  obtain ⟨b, rest, found, _, _, data, _⟩ := held_split coherent mine
  exact ⟨b, by simp [getBuf, bind_run, pure_run, inspect, found], data⟩

theorem setLh_coherent {pins loose : Finset Nat} {lh : List Nat} (coherent : Coherent pins loose s) :
    Coherent pins loose { s with log := { s.log with lh := lh } } :=
  ⟨coherent.length, coherent.distinct, coherent.bufs, coherent.pinned⟩

theorem logWrite_full (full : logsize ≤ s.log.lh.length ∨ s.log.size ≤ s.log.lh.length + 1) :
    logWrite x s = (.halt .tooBigTransaction s, []) := by
  simp [logWrite, bind_run, inspect, halt, full]

theorem logWrite_outside (room : ¬ (logsize ≤ s.log.lh.length ∨ s.log.size ≤ s.log.lh.length + 1))
    (idle : s.log.busy = false) : logWrite x s = (.halt .writeOutsideOfTrans s, []) := by
  simp [logWrite, bind_run, inspect, halt, room, idle]

/-- The part of log_write after its two checks. -/
def absorb (log : Log) (sector : Nat) : DevM Unit := do
  let i := logSlot log.lh sector
  let b ← getBuf sector
  let _ ← bread (log.start + i + 1)
  overwrite (log.start + i + 1) b.data
  whenever (i = log.lh.length) (setLh (log.lh ++ [sector]))
  setBuf sector fun b => { b with dirty := true }

theorem logWrite_absorb
    (room : ¬ (logsize ≤ s.log.lh.length ∨ s.log.size ≤ s.log.lh.length + 1))
    (busy : s.log.busy = true) :
    logWrite x s = (emit (.logged s.log.lh.length) >>= fun _ => absorb s.log x) s := by
  have plain : logWrite x s = (do
      emit (.logged s.log.lh.length)
      let b ← getBuf x
      let _ ← bread (s.log.start + logSlot s.log.lh x + 1)
      bmodify (s.log.start + logSlot s.log.lh x + 1) b.data
      bwrite (s.log.start + logSlot s.log.lh x + 1)
      brelse (s.log.start + logSlot s.log.lh x + 1)
      whenever (logSlot s.log.lh x = s.log.lh.length) (setLh (s.log.lh ++ [x]))
      setBuf x fun b => { b with dirty := true } : DevM Unit) s := by
    rw [logWrite, bind_done (show inspect Dev.log s = (.done s.log s, []) from rfl)]
    simp [room, busy]
  rw [plain]
  simp only [overwrite_bind, absorb]

theorem absorb_run {pins : Finset Nat} {slot : Nat}
    (coherent : Coherent pins (insert x ∅) s) (mine : x ∈ held s)
    (place : s.log.start + logSlot s.log.lh x + 1 = slot) (free : slot ∉ held s)
    (unpinned : slot ∉ pins) :
    (∃ s', absorb s.log x s = (.done () s', [.write slot (content s x)]) ∧
      Coherent (insert x pins) ∅ s' ∧
      view s' =
        ⟨store (content s) slot (content s x), held s,
          { s.log with lh := addSector s.log.lh x }⟩ ∧
      s'.disk = store s.disk slot (content s x)) ∨
    (absorb s.log x s = (.halt .bgetNoBuffers s, []) ∧ nbuf ≤ (held s ∪ pins).card) := by
  obtain ⟨b, got, data⟩ := getBuf_run coherent mine
  have other : slot ≠ x := fun same => free (same ▸ mine)
  have tidy : slot ∉ (insert x ∅ : Finset Nat) := by simp [other]
  unfold absorb
  rw [place, bind_done got, data, List.nil_append]
  rcases bread_run coherent free with ⟨s₁, run₁, coherent₁, view₁, disk₁⟩ | ⟨run₁, full, _⟩
  · left
    have mine₁ : slot ∈ held s₁ := by
      have same : held s₁ = insert slot (held s) := congrArg View.held view₁
      simp [same]
    obtain ⟨s₂, run₂, coherent₂, view₂, disk₂⟩ := overwrite_run coherent₁ mine₁ tidy (content s x)
    rw [Finset.erase_eq_of_notMem unpinned] at coherent₂
    have whole₂ : view s₂ = ⟨store (content s) slot (content s x), held s, s.log⟩ := by
      rw [view₂, view₁]
      simp [View.hold, View.write, View.release, view, free]
    -- The header entry is added only where the sector was not logged before.
    let s₃ : Dev := { s₂ with log := { s₂.log with lh := addSector s.log.lh x } }
    have log₂ : s₂.log = s.log := congrArg View.log whole₂
    have run₃ : whenever (logSlot s.log.lh x = s.log.lh.length) (setLh (s.log.lh ++ [x])) s₂ =
        ((.done () s₃, []) : Outcome Dev Halt Unit × List Event) := by
      by_cases present : x ∈ s.log.lh
      · have old := logSlot_old present
        have same : addSector s.log.lh x = s₂.log.lh := by simp [addSector, present, log₂]
        rw [whenever_false (by omega)]
        simp only [s₃, same]
      · rw [whenever_true (logSlot_new present)]
        simp [setLh, change, s₃, addSector, present]
    have coherent₃ : Coherent pins (insert x ∅) s₃ := setLh_coherent coherent₂
    have whole₃ : view s₃ = ⟨store (content s) slot (content s x), held s,
        { s.log with lh := addSector s.log.lh x }⟩ := by
      have blk : content s₃ = store (content s) slot (content s x) := congrArg View.blk whole₂
      have holds : held s₃ = held s := congrArg View.held whole₂
      change (⟨content s₃, held s₃, { s₂.log with lh := addSector s.log.lh x }⟩ : View) = _
      rw [blk, holds, log₂]
    have mine₃ : x ∈ held s₃ := by
      have holds : held s₃ = held s := congrArg View.held whole₃
      rwa [holds]
    obtain ⟨s₄, run₄, coherent₄, view₄, disk₄⟩ := pin_run coherent₃ mine₃
    refine ⟨s₄, ?_, ?_, ?_, ?_⟩
    · rw [bind_done run₁, bind_done run₂, bind_done run₃, run₄]
      rfl
    · simpa using coherent₄
    · rw [view₄, whole₃]
    · rw [disk₄]
      change s₂.disk = _
      rw [disk₂, disk₁]
  · right
    exact ⟨by rw [bind_halt run₁], full⟩

theorem logModify_run (data : Block) (normal : Normal s) (mine : x ∈ held s)
    (homes : ∀ y ∈ held s, ¬ InLog s.log y)
    (room : ¬ (logsize ≤ s.log.lh.length ∨ s.log.size ≤ s.log.lh.length + 1))
    (busy : s.log.busy = true) :
    (∃ s' slot, logModify x data s =
        (.done () s', [.logged s.log.lh.length, .write slot data]) ∧
      slot = slotOf s.log (logSlot s.log.lh x) ∧
      Normal s' ∧ view s' = logged (view s) x data ∧ s'.disk = store s.disk slot data) ∨
    (∃ s', logModify x data s = (.halt .bgetNoBuffers s', [.logged s.log.lh.length]) ∧
      nbuf ≤ (held s ∪ s.log.lh.toFinset).card) := by
  obtain ⟨s₁, run₁, coherent₁, view₁, disk₁⟩ := bmodify_run normal.coherent mine data
  have log₁ : s₁.log = s.log := congrArg View.log view₁
  have held₁ : held s₁ = held s := congrArg View.held view₁
  have blk₁ : content s₁ = store (content s) x data := congrArg View.blk view₁
  have now : content s₁ x = data := by simp [blk₁]
  have slotIn : InLog s.log (slotOf s.log (logSlot s.log.lh x)) :=
    slot_inLog (by have := logSlot_le s.log.lh x; omega)
  have free : slotOf s.log (logSlot s.log.lh x) ∉ held s₁ :=
    fun member => homes _ (held₁ ▸ member) slotIn
  have unpinned : slotOf s.log (logSlot s.log.lh x) ∉ s.log.lh.toFinset :=
    fun member => normal.inv.home _ (List.mem_toFinset.mp member) slotIn
  have body := logWrite_absorb (s := s₁) (x := x) (by rwa [log₁]) (by rwa [log₁])
  have noted : emit (ω := Event) (ε := Halt) (.logged s₁.log.lh.length) s₁ =
      (.done () s₁, [.logged s₁.log.lh.length]) := rfl
  have inv' := logged_inv data normal.inv (by simp only [view]; omega) (homes x mine)
  rcases absorb_run coherent₁ (held₁ ▸ mine) (by rw [log₁]; rfl) free unpinned with
    ⟨s₂, run₂, coherent₂, view₂, disk₂⟩ | ⟨run₂, full⟩
  · left
    have whole : view s₂ = logged (view s) x data := by
      rw [view₂, now, log₁, held₁, blk₁]
      rfl
    have log₂ : s₂.log.lh = addSector s.log.lh x := by
      have := congrArg View.log whole
      exact congrArg Log.lh this
    refine ⟨s₂, _, ?_, rfl, ⟨?_, ?_⟩, whole, ?_⟩
    · rw [logModify, bind_done run₁, body, bind_done noted, run₂, now, log₁]
      rfl
    · rw [log₂, addSector_toFinset]
      exact coherent₂
    · rw [whole]
      exact inv'
    · rw [disk₂, disk₁, now]
  · right
    refine ⟨s₁, ?_, held₁ ▸ full⟩
    rw [logModify, bind_done run₁, body, bind_done noted, run₂, log₁]
    rfl

end Write

/-! The header and the install loop. Neither leaves a buffer held. -/

section Install
variable {s : Dev} {pins : Finset Nat} {x : Nat}

theorem held_hold {s s' : Dev} (same : view s' = (view s).hold x) : x ∈ held s' := by
  have holds : held s' = insert x (held s) := congrArg View.held same
  simp [holds]

/-- The view a transaction leaves when it only stores into blocks. -/
def View.storeAll (v : View) (writes : List (Nat × Block)) : View :=
  { v with blk := RedoLog.storeAll v.blk writes }

def writeEvents (writes : List (Nat × Block)) : List Event := writes.map fun w => .write w.1 w.2

theorem writeHead_run (coherent : Coherent pins ∅ s) (none : held s = ∅)
    (unpinned : s.log.start ∉ pins) :
    (∃ s' hdr, writeHead s = (.done () s', [.write s.log.start hdr]) ∧
      hdr = putHeader (content s s.log.start) s.log.lh ∧ Coherent pins ∅ s' ∧
      view s' = (view s).write s.log.start hdr ∧ s'.disk = store s.disk s.log.start hdr ∧
      pins.card < nbuf) ∨
    (writeHead s = (.halt .bgetNoBuffers s, []) ∧ nbuf ≤ pins.card) := by
  have free : s.log.start ∉ held s := by simp [none]
  have shape : writeHead s = (bread s.log.start >>= fun data =>
      overwrite s.log.start (putHeader data s.log.lh)) s := by
    rw [writeHead, bind_done (show inspect Dev.log s = (.done s.log s, []) from rfl)]
    rfl
  rcases bread_run coherent free with ⟨s₁, run₁, coherent₁, view₁, disk₁⟩ | ⟨run₁, full, _⟩
  · left
    obtain ⟨s₂, run₂, coherent₂, view₂, disk₂⟩ := overwrite_run coherent₁ (held_hold view₁)
      (Finset.notMem_empty _) (putHeader (content s s.log.start) s.log.lh)
    rw [Finset.erase_eq_of_notMem unpinned] at coherent₂
    refine ⟨s₂, _, ?_, rfl, coherent₂, ?_, by rw [disk₂, disk₁],
      pins_card_lt coherent₁ (held_hold view₁) unpinned⟩
    · rw [shape, bind_done run₁, run₂]
      rfl
    · rw [view₂, view₁]
      simp [View.hold, View.write, View.release, view, none]
  · right
    refine ⟨by rw [shape, bind_halt run₁], ?_⟩
    simpa [none] using full

/-- One iteration of install_trans. -/
def copyOne (source target : Nat) : DevM Unit := do
  let data ← bread source
  let _ ← bread target
  bmodify target data
  bwrite target
  brelse source
  brelse target

theorem copyOne_run {source target : Nat} (coherent : Coherent pins ∅ s) (none : held s = ∅)
    (apart : target ≠ source) (unpinned : source ∉ pins)
    (room : pins.card < nbuf) (room' : target ∈ pins ∨ pins.card + 1 < nbuf) :
    ∃ s', copyOne source target s = (.done () s', [.write target (content s source)]) ∧
      Coherent (pins.erase target) ∅ s' ∧ view s' = (view s).write target (content s source) ∧
      s'.disk = store s.disk target (content s source) := by
  have free : source ∉ held s := by simp [none]
  rcases bread_run coherent free with ⟨s₁, run₁, coherent₁, view₁, disk₁⟩ | ⟨_, full, _⟩
  swap
  · rw [none, Finset.empty_union] at full
    omega
  have held₁ : held s₁ = {source} := by
    have holds : held s₁ = insert source (held s) := congrArg View.held view₁
    simp [holds, none]
  have free₁ : target ∉ held s₁ := by simp [held₁, apart]
  rcases bread_run coherent₁ free₁ with ⟨s₂, run₂, coherent₂, view₂, disk₂⟩ | ⟨_, full, absent⟩
  swap
  · have small := room'.resolve_left absent
    rw [held₁, ← Finset.insert_eq, Finset.card_insert_of_notMem unpinned] at full
    omega
  obtain ⟨s₃, run₃, coherent₃, view₃, disk₃⟩ :=
    bmodify_run coherent₂ (held_hold view₂) (content s source)
  have mine₃ : target ∈ held s₃ := by
    have holds : held s₃ = held s₂ := congrArg View.held view₃
    rw [holds]
    exact held_hold view₂
  have now : content s₃ target = content s source := by
    have blk : content s₃ = store (content s₂) target (content s source) := congrArg View.blk view₃
    simp [blk]
  obtain ⟨s₄, run₄, coherent₄, view₄, disk₄⟩ := bwrite_run coherent₃ mine₃
  rw [now] at run₄ disk₄
  rw [Finset.erase_insert (Finset.notMem_empty target)] at coherent₄
  have held₄ : held s₄ = {target, source} := by
    have holds : held s₄ = insert target (held s₁) := by
      rw [show held s₄ = held s₃ from congrArg View.held view₄,
        show held s₃ = held s₂ from congrArg View.held view₃]
      exact congrArg View.held view₂
    rw [holds, held₁]
  obtain ⟨s₅, run₅, coherent₅, view₅, disk₅⟩ := brelse_run (x := source) coherent₄ (by simp [held₄])
    (Finset.notMem_empty _)
  have held₅ : held s₅ = {target} := by
    have holds : held s₅ = (held s₄).erase source := congrArg View.held view₅
    rw [holds, held₄]
    ext y
    simp only [Finset.mem_erase, Finset.mem_insert, Finset.mem_singleton]
    constructor
    · rintro ⟨off, rfl | same⟩
      · rfl
      · exact absurd same off
    · rintro rfl
      exact ⟨apart, Or.inl rfl⟩
  obtain ⟨s₆, run₆, coherent₆, view₆, disk₆⟩ := brelse_run (x := target) coherent₅ (by simp [held₅])
    (Finset.notMem_empty _)
  refine ⟨s₆, ?_, coherent₆, ?_, ?_⟩
  · rw [copyOne, bind_done run₁, bind_done run₂, bind_done run₃, bind_done run₄, bind_done run₅, run₆]
    rfl
  · have blk : (view s₆).blk = store (content s) target (content s source) := by
      rw [view₆, view₅, view₄, view₃, view₂, view₁]
      rfl
    have holds : (view s₆).held = held s := by
      rw [view₆]
      change (held s₅).erase target = held s
      simp [held₅, none]
    have log : (view s₆).log = s.log := by
      rw [view₆, view₅, view₄, view₃, view₂, view₁]
      rfl
    change (⟨(view s₆).blk, (view s₆).held, (view s₆).log⟩ : View) = _
    rw [blk, holds, log]
    rfl
  · rw [disk₆, disk₅, disk₄, disk₃, disk₂, disk₁]

theorem copyLog_cons (start sector tail : Nat) (rest : List (Nat × Nat)) :
    copyLog start ((sector, tail) :: rest) =
      (copyOne (start + tail + 1) sector >>= fun _ => copyLog start rest) := by
  simp only [copyLog, copyOne, bind_assoc_action]

def copiesOf (blk : Nat → Block) (start : Nat) (entries : List (Nat × Nat)) : List (Nat × Block) :=
  entries.map fun entry => (entry.1, blk (start + entry.2 + 1))

theorem copyLog_run {start : Nat} {entries : List (Nat × Nat)} (coherent : Coherent pins ∅ s)
    (none : held s = ∅)
    (apart : ∀ entry ∈ entries, ∀ other ∈ entries, other.1 ≠ start + entry.2 + 1)
    (unpinned : ∀ entry ∈ entries, start + entry.2 + 1 ∉ pins) (room : pins.card < nbuf)
    (room' : (∀ entry ∈ entries, entry.1 ∈ pins) ∨ pins.card + 1 < nbuf) :
    ∃ s', copyLog start entries s =
        (.done () s', writeEvents (copiesOf (content s) start entries)) ∧
      Coherent (pins \ (entries.map Prod.fst).toFinset) ∅ s' ∧
      view s' = View.storeAll (view s) (copiesOf (content s) start entries) ∧
      s'.disk = RedoLog.storeAll s.disk (copiesOf (content s) start entries) := by
  induction entries generalizing s pins with
  | nil => exact ⟨s, rfl, by simpa using coherent, rfl, rfl⟩
  | cons entry rest ih =>
    obtain ⟨sector, tail⟩ := entry
    have enough : sector ∈ pins ∨ pins.card + 1 < nbuf :=
      room'.imp (fun all => all (sector, tail) List.mem_cons_self) id
    obtain ⟨s₁, run₁, coherent₁, view₁, disk₁⟩ := copyOne_run coherent none
      (apart (sector, tail) List.mem_cons_self (sector, tail) List.mem_cons_self)
      (unpinned (sector, tail) List.mem_cons_self) room enough
    have smaller : (pins.erase sector).card + 1 < nbuf := by
      rcases enough with member | small
      · rw [Finset.card_erase_add_one member]
        exact room
      · exact lt_of_le_of_lt (Nat.add_le_add_right (Finset.card_erase_le) 1) small
    have none₁ : held s₁ = ∅ := by
      rw [← none]
      exact congrArg View.held view₁
    obtain ⟨s₂, run₂, coherent₂, view₂, disk₂⟩ := ih coherent₁ none₁
      (fun entry member other inside => apart entry (List.mem_cons_of_mem _ member) other
        (List.mem_cons_of_mem _ inside))
      (fun entry member pin => unpinned entry (List.mem_cons_of_mem _ member)
        (Finset.mem_of_mem_erase pin)) (Nat.lt_of_succ_lt smaller) (Or.inr smaller)
    -- The copy just made changes no log slot, so later copies read what was there before.
    have blk₁ : content s₁ = store (content s) sector (content s (start + tail + 1)) :=
      congrArg View.blk view₁
    have copies : copiesOf (content s₁) start rest = copiesOf (content s) start rest := by
      apply List.map_congr_left
      intro entry member
      rw [blk₁, store_other _ _ (apart entry (List.mem_cons_of_mem _ member) (sector, tail)
        List.mem_cons_self).symm]
    rw [copies] at run₂ view₂ disk₂
    refine ⟨s₂, ?_, ?_, ?_, ?_⟩
    · rw [copyLog_cons, bind_done run₁, run₂]
      rfl
    · have pins₂ : pins.erase sector \ (rest.map Prod.fst).toFinset =
          pins \ (((sector, tail) :: rest).map Prod.fst).toFinset := by
        ext y
        simp only [Finset.mem_sdiff, Finset.mem_erase, List.map_cons, List.toFinset_cons,
          Finset.mem_insert, not_or]
        tauto
      rwa [← pins₂]
    · rw [view₂, view₁]
      rfl
    · rw [disk₂, disk₁]
      rfl

end Install

/-! Commit and recovery as writes of the redo log. -/

def format (log : Log) : Format Nat Block :=
  { header := log.start
    slot := slotOf log
    decode := getHeader
    blank := fun block => putHeader block []
    home := fun x => ¬ InLog log x }

section Transactions
variable {s : Dev}

/-- The state between transactions. -/
structure Idle (s : Dev) : Prop where
  coherent : Coherent ∅ ∅ s
  empty : s.log.lh = []
  closed : s.log.busy = false
  none : held s = ∅
  placed : 0 < s.log.size

theorem idle_content (coherent : Coherent ∅ ∅ s) : content s = s.disk := by
  funext x
  exact content_disk coherent (Finset.notMem_empty x) (Finset.notMem_empty x)

theorem start_inLog {log : Log} (placed : 0 < log.size) : InLog log log.start := by
  unfold InLog
  omega

def setLog (s : Dev) (busy : Bool) (lh : List Nat) : Dev :=
  { s with log := { s.log with busy := busy, lh := lh } }

theorem setLog_coherent {pins loose : Finset Nat} (busy : Bool) (lh : List Nat)
    (coherent : Coherent pins loose s) : Coherent pins loose (setLog s busy lh) :=
  ⟨coherent.length, coherent.distinct, coherent.bufs, coherent.pinned⟩

theorem setLog_view (s : Dev) (busy : Bool) (lh : List Nat) :
    view (setLog s busy lh) = ⟨content s, held s, { s.log with busy := busy, lh := lh }⟩ := rfl

theorem beginTrans_run (idle : s.log.busy = false) :
    beginTrans s = (.done () (setLog s true s.log.lh), []) := by
  simp [beginTrans, setBusy, setLog, bind_run, inspect, change, idle]

theorem commitTrans_empty (empty : s.log.lh = []) :
    commitTrans s = (.done () (setLog s false []), []) := by
  rw [commitTrans, bind_done (show inspect Dev.log s = (.done s.log s, []) from rfl),
    bind_done (whenever_false (by simp [empty]) s)]
  simp [setBusy, setLog, change, empty]

theorem commitTrans_full (normal : Normal s) (none : held s = ∅) (placed : 0 < s.log.size)
    (full : nbuf ≤ s.log.lh.length) : commitTrans s = (.halt .bgetNoBuffers s, []) := by
  have pending : s.log.lh.length > 0 := lt_of_lt_of_le (by decide) full
  have unpinned : s.log.start ∉ s.log.lh.toFinset :=
    fun member => normal.inv.home _ (List.mem_toFinset.mp member) (start_inLog placed)
  have card : s.log.lh.toFinset.card = s.log.lh.length :=
    List.toFinset_card_of_nodup normal.inv.nodup
  rcases writeHead_run normal.coherent none unpinned with
    ⟨_, _, _, _, _, _, _, small⟩ | ⟨run, _⟩
  · omega
  · rw [commitTrans, bind_done (show inspect Dev.log s = (.done s.log s, []) from rfl),
      whenever_true pending, bind_halt (bind_halt run)]
    rfl

theorem commitTrans_run (normal : Normal s) (none : held s = ∅) (placed : 0 < s.log.size)
    (pending : s.log.lh ≠ []) (room : s.log.lh.length < nbuf) :
    ∃ s' hdr, hdr = putHeader (s.disk s.log.start) s.log.lh ∧
      commitTrans s = (.done () s', writeEvents ((s.log.start, hdr) ::
        (copiesOf s.disk s.log.start s.log.lh.zipIdx ++ [(s.log.start, putHeader hdr [])]))) ∧
      Coherent ∅ ∅ s' ∧
      view s' = ⟨store (content s) s.log.start (putHeader hdr []), ∅,
        { s.log with busy := false, lh := [] }⟩ := by
  have startIn := start_inLog placed
  have unpinned : s.log.start ∉ s.log.lh.toFinset :=
    fun member => normal.inv.home _ (List.mem_toFinset.mp member) startIn
  have card : s.log.lh.toFinset.card = s.log.lh.length :=
    List.toFinset_card_of_nodup normal.inv.nodup
  have count : s.log.lh.length > 0 := List.length_pos_iff.mpr pending
  have fits := normal.inv.fits pending
  have slotIn : ∀ entry ∈ s.log.lh.zipIdx, InLog s.log (slotOf s.log entry.2) := by
    intro entry member
    have inside := (List.mem_zipIdx' member).1
    exact slot_inLog (by simp only [view] at fits; omega)
  have diskAt : ∀ x, InLog s.log x → content s x = s.disk x := by
    intro x inside
    apply content_disk normal.coherent
    · exact fun member => normal.inv.home x (List.mem_toFinset.mp member) inside
    · exact Finset.notMem_empty x
  rcases writeHead_run normal.coherent none unpinned with
    ⟨s₁, hdr, run₁, hdrEq, coherent₁, view₁, disk₁, small⟩ | ⟨_, full⟩
  swap
  · omega
  rw [diskAt _ startIn] at hdrEq
  have log₁ : s₁.log = s.log := congrArg View.log view₁
  have blk₁ : content s₁ = store (content s) s.log.start hdr := congrArg View.blk view₁
  have held₁ : held s₁ = ∅ := by
    rw [← none]
    exact congrArg View.held view₁
  -- The install loop copies each slot onto the sector whose cached contents it already has.
  have offSlot : ∀ entry ∈ s.log.lh.zipIdx, ∀ other ∈ s.log.lh.zipIdx,
      other.1 ≠ s.log.start + entry.2 + 1 := by
    intro entry member other inside same
    exact normal.inv.home other.1 (List.fst_mem_of_mem_zipIdx inside)
      (same ▸ slotIn entry member)
  obtain ⟨s₂, run₂, coherent₂, view₂, disk₂⟩ := copyLog_run coherent₁ held₁ offSlot
    (fun entry member pin => normal.inv.home _ (List.mem_toFinset.mp pin) (slotIn entry member))
    small (Or.inl fun entry member => List.mem_toFinset.mpr (List.fst_mem_of_mem_zipIdx member))
  have copies : copiesOf (content s₁) s.log.start s.log.lh.zipIdx =
      copiesOf s.disk s.log.start s.log.lh.zipIdx := by
    apply List.map_congr_left
    intro entry member
    have apart : s.log.start + entry.2 + 1 ≠ s.log.start := by omega
    rw [blk₁, store_other _ _ apart]
    exact congrArg (Prod.mk entry.1) (diskAt _ (slotIn entry member))
  have unchanged : RedoLog.storeAll (content s₁) (copiesOf (content s₁) s.log.start s.log.lh.zipIdx) =
      content s₁ := by
    apply storeAll_same
    intro write member
    obtain ⟨entry, inside, rfl⟩ := List.mem_map.mp member
    have apart : s.log.start + entry.2 + 1 ≠ s.log.start := by omega
    have away : entry.1 ≠ s.log.start := fun same =>
      normal.inv.home entry.1 (List.fst_mem_of_mem_zipIdx inside) (same ▸ startIn)
    simp only [blk₁]
    rw [store_other _ _ apart, store_other _ _ away]
    exact normal.inv.saved entry inside
  rw [View.storeAll, show (view s₁).blk = content s₁ from rfl, unchanged] at view₂
  rw [copies] at run₂
  have empty : s.log.lh.toFinset \ (s.log.lh.zipIdx.map Prod.fst).toFinset = ∅ := by
    rw [List.zipIdx_map_fst]
    simp
  rw [empty] at coherent₂
  have log₂ : s₂.log = s.log := (congrArg View.log view₂).trans log₁
  have held₂ : held s₂ = ∅ := (congrArg View.held view₂).trans held₁
  have blk₂ : content s₂ = content s₁ := congrArg View.blk view₂
  obtain ⟨s₄, hdr', run₄, hdrEq', coherent₄, view₄, _, _⟩ | ⟨_, full⟩ :=
    writeHead_run (s := setLog s₂ s₂.log.busy []) (setLog_coherent _ _ coherent₂) held₂
      (Finset.notMem_empty _)
  swap
  · exact absurd full (by decide)
  have hdrFinal : hdr' = putHeader hdr [] := by
    rw [hdrEq']
    change putHeader (content s₂ s₂.log.start) [] = _
    rw [blk₂, blk₁, log₂]
    simp
  subst hdrFinal
  refine ⟨setLog s₄ false [], hdr, hdrEq, ?_, setLog_coherent _ _ coherent₄, ?_⟩
  · have installed : installTrans s₁ = copyLog s.log.start s.log.lh.zipIdx s₁ := by
      rw [installTrans, bind_done (show inspect Dev.log s₁ = (.done s₁.log s₁, []) from rfl), log₁]
      rfl
    have cleared : setLh [] s₂ = (.done () (setLog s₂ s₂.log.busy []), []) := rfl
    have closed : setBusy false s₄ = (.done () (setLog s₄ false []), []) := by
      have log₄ : s₄.log.lh = [] := congrArg Log.lh (congrArg View.log view₄)
      simp [setBusy, change, setLog, log₄]
    have inner : (do writeHead; installTrans; setLh []; writeHead : DevM Unit) s =
        (.done () s₄, [.write s.log.start hdr] ++
          (writeEvents (copiesOf s.disk s.log.start s.log.lh.zipIdx) ++
            ([] ++ [.write s.log.start (putHeader hdr [])]))) := by
      have startSame : (setLog s₂ s₂.log.busy []).log.start = s.log.start := by
        rw [← log₂]
        rfl
      rw [bind_done run₁, bind_done (installed.trans run₂), bind_done cleared, run₄, startSame]
    rw [commitTrans, bind_done (show inspect Dev.log s = (.done s.log s, []) from rfl),
      whenever_true count, bind_done inner, closed]
    simp [writeEvents]
  · have log₄ : s₄.log = { s.log with lh := [] } := by
      rw [← log₂]
      exact congrArg View.log view₄
    have blk₄ : content s₄ = store (content s) s.log.start (putHeader hdr []) := by
      have raw : content s₄ = store (content s₂) s₂.log.start (putHeader hdr []) :=
        congrArg View.blk view₄
      rw [raw, blk₂, blk₁, log₂]
      funext x
      by_cases here : x = s.log.start <;> simp [store, here]
    have held₄ : held s₄ = ∅ := (congrArg View.held view₄).trans held₂
    rw [setLog_view, blk₄, held₄, log₄]

end Transactions

end Xv6.LogSpec
