import Mathlib.Data.Set.Card
import Xv6.Disk
import Xv6.LogSpec

/-! Specifications of the block layer: the cache and the log as one store of home
blocks, and the block allocator on top of it. `Holds t F h trans H s` says that
the device shows the home blocks `h`, that a transaction is open exactly if
`trans`, that the buffers of `H` are held, and that only sectors of `F` have been
logged. Specifications are parametric in the contract of the run, so that the
same proof serves runs in which a capacity panic is tolerated and runs in which
it is to be excluded. -/
namespace Xv6.DevSpec
open TraceMonad RedoLog Layout Bio Cache LogSpec Fs Disk

structure Setting where
  sb : Superblock
  contract : Contract Event Halt
  geometry : Geometry sb
  permit : Permit

/-- Capacity panics are tolerated. -/
def Loose (t : Setting) : Prop :=
  t.contract.halts .tooBigTransaction ∧ t.contract.halts .bgetNoBuffers

/-- `n` more sectors may join the footprint `F` of the transaction. -/
def Room (t : Setting) (F : Set Nat) (n : Nat) : Prop := Loose t ∨ (F.Finite ∧ F.ncard + n ≤ 7)

/-- The contract lets the program write, log and allocate in the data area. -/
structure Writes (t : Setting) : Prop where
  write : ∀ x data, t.contract.guar (.write x data)
  logged : ∀ n, Loose t ∨ n < 9 → t.contract.guar (.logged n)
  alloc : ∀ b, InData t.sb b → t.contract.guar (.alloc b true)
  size : Loose t ∨ 9 ≤ t.sb.nlog

/-- An open transaction, or a contract that tolerates the panic. -/
def Writable (t : Setting) (trans : Bool) : Prop :=
  trans = true ∨ t.contract.halts .writeOutsideOfTrans

structure Holds (t : Setting) (F : Set Nat) (h : Nat → Block) (trans : Bool) (H : Finset Nat)
    (s : Dev) : Prop where
  normal : Normal s
  blk : ∀ x < logStart t.sb, content s x = h x
  start : s.log.start = logStart t.sb
  size : s.log.size = t.sb.nlog
  busy : s.log.busy = trans
  idle : trans = false → s.log.lh = []
  held : held s = H
  below : ∀ x ∈ H, x < logStart t.sb
  inside : ∀ x ∈ s.log.lh, x ∈ F

section Rooms
variable {t : Setting} {F : Set Nat} {n : Nat}

theorem room_less {m : Nat} (room : Room t F n) (less : m ≤ n) : Room t F m :=
  room.imp_right fun ⟨finite, small⟩ => ⟨finite, by omega⟩

theorem room_insert (room : Room t F (n + 1)) (x : Nat) : Room t (insert x F) n := by
  refine room.imp_right fun ⟨finite, small⟩ => ⟨finite.insert x, ?_⟩
  have := Set.ncard_insert_le x F
  omega

end Rooms

section Basic
variable {t : Setting} {F : Set Nat} {h : Nat → Block} {trans : Bool} {H : Finset Nat} {s : Dev}
  {x : Nat}

theorem below_notInLog (holds : Holds t F h trans H s) (low : x < logStart t.sb) :
    ¬ InLog s.log x := by
  rw [InLog, holds.start]
  omega

theorem holds_mono {F' : Set Nat} (holds : Holds t F h trans H s) (subset : F ⊆ F') :
    Holds t F' h trans H s :=
  { holds with inside := fun x member => subset (holds.inside x member) }

theorem holds_frame {s' : Dev} {H' : Finset Nat} (holds : Holds t F h trans H s)
    (coherent : Coherent s.log.lh.toFinset ∅ s') (blk : content s' = content s)
    (sameLog : s'.log = s.log) (now : Cache.held s' = H') (low : ∀ x ∈ H', x < logStart t.sb) :
    Holds t F h trans H' s' := by
  have inv := holds.normal.inv
  refine ⟨⟨by rwa [sameLog], ?_⟩, by rw [blk]; exact holds.blk, by rw [sameLog]; exact holds.start,
    by rw [sameLog]; exact holds.size, by rw [sameLog]; exact holds.busy,
    by rw [sameLog]; exact holds.idle, now, low, by rw [sameLog]; exact holds.inside⟩
  refine ⟨?_, ?_, ?_, ?_⟩ <;> simp only [view, sameLog, blk]
  · exact inv.nodup
  · exact inv.fits
  · exact inv.home
  · exact inv.saved

theorem logged_card (holds : Holds t F h trans H s) (finite : F.Finite) :
    s.log.lh.length ≤ F.ncard := by
  have nodup : s.log.lh.Nodup := holds.normal.inv.nodup
  rw [← List.toFinset_card_of_nodup nodup, Set.ncard_eq_toFinset_card F finite]
  apply Finset.card_le_card
  intro x member
  rw [Set.Finite.mem_toFinset]
  exact holds.inside x (List.mem_toFinset.mp member)

theorem buffers_left (holds : Holds t F h trans H s) (room : Room t F 0) (few : H.card ≤ 2)
    (full : nbuf ≤ (Cache.held s ∪ s.log.lh.toFinset).card) :
    t.contract.halts .bgetNoBuffers := by
  rcases room with loose | ⟨finite, small⟩
  · exact loose.2
  · have logged := logged_card holds finite
    have pins := List.toFinset_card_le s.log.lh
    have union := Finset.card_union_le (Cache.held s) s.log.lh.toFinset
    rw [holds.held] at union full
    simp only [nbuf] at full
    omega

theorem bread_spec (holds : Holds t F h trans H s) (room : Room t F 0) (few : H.card ≤ 2)
    (low : x < logStart t.sb) (free : x ∉ H) :
    Ensures t.contract (bread x) s
      (fun data s' => data = h x ∧ Holds t F h trans (insert x H) s') := by
  rcases bread_run holds.normal.coherent (by rwa [holds.held]) with
    ⟨s', run, coherent, same, _⟩ | ⟨run, full, _⟩
  · refine ensures_of_done run (fun _ member => (List.not_mem_nil member).elim)
      ⟨holds.blk x low, ?_⟩
    apply holds_frame holds coherent (congrArg View.blk same) (congrArg View.log same)
    · rw [← holds.held]
      exact congrArg View.held same
    · intro y member
      rcases Finset.mem_insert.mp member with rfl | old
      · exact low
      · exact holds.below y old
  · exact ensures_of_halt run (fun _ member => (List.not_mem_nil member).elim)
      (buffers_left holds room few full)

theorem brelse_spec (holds : Holds t F h trans H s) (mine : x ∈ H) :
    Ensures t.contract (brelse x) s (fun _ s' => Holds t F h trans (H.erase x) s') := by
  obtain ⟨s', run, coherent, same, _⟩ := brelse_run holds.normal.coherent
    (by rwa [holds.held]) (Finset.notMem_empty x)
  refine ensures_of_done run (fun _ member => (List.not_mem_nil member).elim) ?_
  apply holds_frame holds coherent (congrArg View.blk same) (congrArg View.log same)
  · rw [← holds.held]
    exact congrArg View.held same
  · exact fun y member => holds.below y (Finset.mem_of_mem_erase member)

theorem peek_spec {α : Type} {f : Block → α} (holds : Holds t F h trans H s) (room : Room t F 0)
    (few : H.card ≤ 2) (low : x < logStart t.sb) (free : x ∉ H) :
    Ensures t.contract (do let data ← bread x; brelse x; return f data) s
      (fun value s' => value = f (h x) ∧ Holds t F h trans H s') := by
  refine ensures_then (bread_spec holds room few low free) ?_
  rintro _ s₁ ⟨rfl, holds₁⟩
  refine ensures_then (brelse_spec holds₁ (Finset.mem_insert_self x H)) ?_
  intro _ s₂ holds₂
  rw [Finset.erase_insert free] at holds₂
  exact ensures_pure ⟨rfl, holds₂⟩

theorem logModify_spec {data : Block} (writes : Writes t) (holds : Holds t F h trans H s)
    (room : Room t F 0) (few : H.card ≤ 2) (mine : x ∈ H) (footprint : x ∈ F)
    (writable : Writable t trans) :
    Ensures t.contract (logModify x data) s
      (fun _ s' => Holds t F (store h x data) trans H s') := by
  have mineHeld : x ∈ Cache.held s := by rwa [holds.held]
  obtain ⟨s₁, run₁, _, view₁, _⟩ := bmodify_run holds.normal.coherent mineHeld data
  have log₁ : s₁.log = s.log := congrArg View.log view₁
  have none : ∀ event ∈ ([] : List Event), t.contract.rely event → t.contract.guar event :=
    fun _ member => (List.not_mem_nil member).elim
  by_cases full : logsize ≤ s.log.lh.length ∨ s.log.size ≤ s.log.lh.length + 1
  · have run : logModify x data s = (.halt .tooBigTransaction s₁, []) := by
      rw [logModify, bind_done run₁, logWrite_full (by rwa [log₁])]
      rfl
    refine ensures_of_halt run none ?_
    rcases room with loose | ⟨finite, small⟩
    · exact loose.1
    · rcases writes.size with loose | enough
      · exact loose.1
      · have logged := logged_card holds finite
        have size := holds.size
        simp only [logsize] at full
        omega
  have counted : Loose t ∨ s.log.lh.length < 9 := by
    simp only [logsize] at full
    rcases room with loose | ⟨finite, small⟩
    · exact Or.inl loose
    · have logged := logged_card holds finite
      right
      omega
  cases trans with
  | false =>
    have run : logModify x data s = (.halt .writeOutsideOfTrans s₁, []) := by
      rw [logModify, bind_done run₁, logWrite_outside (by rwa [log₁]) (by rw [log₁]; exact holds.busy)]
      rfl
    exact ensures_of_halt run none (writable.resolve_left Bool.false_ne_true)
  | true =>
    have homes : ∀ y ∈ Cache.held s, ¬ InLog s.log y := fun y member =>
      below_notInLog holds (holds.below y (holds.held ▸ member))
    rcases logModify_run data holds.normal mineHeld homes full holds.busy with
      ⟨s', slot, run, slotEq, normal, whole, _⟩ | ⟨s', run, noBuffers⟩
    · refine ensures_of_done run ?_ ?_
      · intro event member _
        rcases List.mem_cons.mp member with rfl | member
        · exact writes.logged _ counted
        · rw [List.mem_singleton.mp member]
          exact writes.write slot data
      · have newLog : s'.log = { s.log with lh := addSector s.log.lh x } := congrArg View.log whole
        have newBlk : content s' = store (store (content s) x data) slot data := by
          rw [slotEq]
          exact congrArg View.blk whole
        refine ⟨normal, ?_, ?_, ?_, ?_, fun h => absurd h (by decide), ?_, holds.below, ?_⟩
        · intro y low
          have off : y ≠ slot := by
            rw [slotEq, slotOf, holds.start]
            omega
          rw [newBlk, store_other _ _ off]
          by_cases here : y = x
          · simp [store, here]
          · rw [store_other _ _ here, store_other _ _ here]
            exact holds.blk y low
        · rw [newLog]
          exact holds.start
        · rw [newLog]
          exact holds.size
        · rw [newLog]
          exact holds.busy
        · rw [← holds.held]
          exact congrArg View.held whole
        · rw [newLog]
          intro y member
          rcases mem_addSector.mp member with old | rfl
          · exact holds.inside y old
          · exact footprint
    · refine ensures_of_halt run ?_ (buffers_left holds room few noBuffers)
      intro event member _
      rw [List.mem_singleton.mp member]
      exact writes.logged _ counted

theorem one_lt_logStart (t : Setting) : 1 < logStart t.sb := by
  have := t.geometry.area
  rw [dataStart_eq] at this
  omega

theorem readsb_spec (holds : Holds t F h trans H s) (room : Room t F 0) (few : H.card ≤ 2)
    (free : 1 ∉ H) (super : getSuperblock (h 1) = t.sb) :
    Ensures t.contract readsb s (fun sb s' => sb = t.sb ∧ Holds t F h trans H s') := by
  refine ensures_weaken (peek_spec holds room few (one_lt_logStart t) free) ?_
  rintro _ s' ⟨rfl, holds'⟩
  exact ⟨super, holds'⟩

theorem beginTrans_spec (holds : Holds t F h false ∅ s) (F' : Set Nat) :
    Ensures t.contract beginTrans s (fun _ s' => Holds t F' h true ∅ s') := by
  have empty := holds.idle rfl
  refine ensures_of_done (beginTrans_run holds.busy)
    (fun _ member => (List.not_mem_nil member).elim) ?_
  have inv := holds.normal.inv
  refine ⟨⟨setLog_coherent _ _ holds.normal.coherent, inv.nodup, inv.fits, inv.home, inv.saved⟩,
    holds.blk, holds.start, holds.size, rfl, fun h => absurd h (by decide), holds.held, holds.below, ?_⟩
  simp [setLog, empty]

theorem commitTrans_spec (writes : Writes t) (holds : Holds t F h true ∅ s) (room : Room t F 0)
    (F' : Set Nat) :
    Ensures t.contract commitTrans s (fun _ s' => Holds t F' h false ∅ s') := by
  have placed : 0 < s.log.size := by
    rw [holds.size]
    exact t.geometry.log
  by_cases pending : s.log.lh = []
  · refine ensures_of_done (commitTrans_empty pending)
      (fun _ member => (List.not_mem_nil member).elim) ?_
    have inv := holds.normal.inv
    have coherent := holds.normal.coherent
    rw [pending] at coherent
    refine ⟨⟨setLog_coherent _ _ coherent, ?_⟩, holds.blk, holds.start, holds.size, rfl, fun _ => rfl,
      holds.held, holds.below, fun x member => (List.not_mem_nil member).elim⟩
    refine ⟨?_, ?_, ?_, ?_⟩ <;> simp [setLog, view]
  by_cases fits : s.log.lh.length < nbuf
  · obtain ⟨s', hdr, _, run, coherent, whole⟩ :=
      commitTrans_run holds.normal holds.held placed pending fits
    refine ensures_of_done run ?_ ?_
    · intro event member _
      obtain ⟨w, _, rfl⟩ := List.mem_map.mp member
      exact writes.write w.1 w.2
    · have newLog : s'.log = { s.log with busy := false, lh := [] } := congrArg View.log whole
      have newBlk : content s' = store (content s) s.log.start (Bio.putHeader hdr []) :=
        congrArg View.blk whole
      refine ⟨⟨by rw [newLog]; exact coherent, ?_⟩, ?_, ?_, ?_, ?_, ?_, congrArg View.held whole,
        holds.below, ?_⟩
      · refine ⟨?_, ?_, ?_, ?_⟩ <;> simp [view, newLog]
      · intro x low
        have off : x ≠ s.log.start := by
          rw [holds.start]
          omega
        rw [newBlk, store_other _ _ off]
        exact holds.blk x low
      · rw [newLog]
        exact holds.start
      · rw [newLog]
        exact holds.size
      · rw [newLog]
      · intro _
        rw [newLog]
      · rw [newLog]
        exact fun x member => (List.not_mem_nil member).elim
  · refine ensures_of_halt (commitTrans_full holds.normal holds.held placed (Nat.le_of_not_lt fits))
      (fun _ member => (List.not_mem_nil member).elim) ?_
    rcases room with loose | ⟨finite, small⟩
    · exact loose.2
    · have := logged_card holds finite
      simp only [nbuf] at fits
      omega

end Basic

/-! The block allocator. -/

section Allocator
variable {t : Setting} {F : Set Nat} {h : Nat → Block} {trans : Bool} {H : Finset Nat} {s : Dev}
  {b : Nat}

/-- The bitmap blocks belong to the footprint. -/
def Bitmaps (t : Setting) (F : Set Nat) : Prop := ∀ b < t.sb.size, bblock b t.sb.ninodes ∈ F

/-- Held buffers are data blocks in use. -/
def DataHeld (t : Setting) (h : Nat → Block) (H : Finset Nat) : Prop :=
  ∀ x ∈ H, InData t.sb x ∧ usedIn h t.sb x = true

def freeCount (sb : Superblock) (h : Nat → Block) : Nat :=
  ((List.range' (dataStart sb) (logStart sb - dataStart sb)).filter
    fun b => !usedIn h sb b).length

/-- The run is one in which balloc finds the data area not full or returns a data block. -/
structure Relies (t : Setting) : Prop where
  promise : ∀ b free, t.contract.rely (.alloc b free) → free = true ∨ InData t.sb b
  allowed : t.contract.halts .ballocOutOfBlocks

/-- Either the run promises free data blocks, or `n` of them are known to be free. -/
def Space (t : Setting) (n : Nat) (h : Nat → Block) : Prop :=
  Relies t ∨ n ≤ freeCount t.sb h

theorem low_notHeld (held : DataHeld t h H) {x : Nat} (low : x < dataStart t.sb) : x ∉ H :=
  fun member => low_notData low (held x member).1

theorem mem_dataRange {sb : Superblock} :
    b ∈ List.range' (dataStart sb) (logStart sb - dataStart sb) ↔ InData sb b := by
  rw [List.mem_range'_1, InData]
  omega

theorem dataFree_iff {sb : Superblock} :
    dataFree h sb = true ↔ ∃ b, InData sb b ∧ usedIn h sb b = false := by
  simp only [dataFree, List.any_eq_true, mem_dataRange, Bool.not_eq_true']

theorem dataFree_of_count {sb : Superblock} (some : 1 ≤ freeCount sb h) : dataFree h sb = true := by
  rw [dataFree_iff]
  obtain ⟨b, member⟩ := List.exists_mem_of_length_pos some
  obtain ⟨inside, free⟩ := List.mem_filter.mp member
  exact ⟨b, mem_dataRange.mp inside, by simpa using free⟩

theorem dataFree_congr (geometry : Geometry t.sb) (holds : Holds t F h trans H s) :
    dataFree (content s) t.sb = dataFree h t.sb := by
  have same : ∀ b, InData t.sb b → usedIn (content s) t.sb b = usedIn h t.sb b := by
    intro b data
    have place := bblock_low t.sb (inData_size geometry data)
    have := geometry.area
    exact usedIn_congr (holds.blk _ (by omega))
  rw [Bool.eq_iff_iff, dataFree_iff, dataFree_iff]
  constructor
  · rintro ⟨b, data, free⟩
    exact ⟨b, data, same b data ▸ free⟩
  · rintro ⟨b, data, free⟩
    exact ⟨b, data, (same b data).trans free⟩

theorem bzero_spec (writes : Writes t) (holds : Holds t F h trans H s) (room : Room t F 0)
    (few : H.card ≤ 1) (low : b < logStart t.sb) (free : b ∉ H) (footprint : b ∈ F)
    (writable : Writable t trans) :
    Ensures t.contract (bzero b) s (fun _ s' => Holds t F (store h b 0) trans H s') := by
  have card : (insert b H).card ≤ 2 := (Finset.card_insert_le b H).trans (by omega)
  refine ensures_then (bread_spec holds room (by omega) low free) ?_
  rintro _ s₁ ⟨rfl, holds₁⟩
  refine ensures_then (logModify_spec writes holds₁ room card (Finset.mem_insert_self b H) footprint
    writable) ?_
  intro _ s₂ holds₂
  refine ensures_weaken (brelse_spec holds₂ (Finset.mem_insert_self b H)) ?_
  intro _ s₃ holds₃
  rwa [Finset.erase_insert free] at holds₃

/-- The first clear bit of a bitmap whose low bits are set, in a data area that
is not full, is a data block. -/
theorem firstFree_inData (low : ∀ x < dataStart t.sb, usedIn h t.sb x = true)
    (first : ∀ x < b, usedIn h t.sb x = true) (free : usedIn h t.sb b = false)
    (some : dataFree h t.sb = true) : InData t.sb b := by
  obtain ⟨d, data, open'⟩ := dataFree_iff.mp some
  have atMost : b ≤ d := by
    by_contra past
    rw [first d (by omega)] at open'
    exact Bool.noConfusion open'
  have atLeast : dataStart t.sb ≤ b := by
    by_contra below
    rw [low b (by omega)] at free
    exact Bool.noConfusion free
  have := data.2
  exact ⟨atLeast, by omega⟩

theorem ballocScan_spec {j n : Nat} (writes : Writes t)
    (holds : Holds t F h trans H s) (room : Room t F 1) (few : H.card ≤ 1)
    (held : DataHeld t h H) (bitmaps : Bitmaps t F) (writable : Writable t trans)
    (low : ∀ x < dataStart t.sb, usedIn h t.sb x = true) (space : Space t 1 h)
    (seen : ∀ x < 4096 * j, x < t.sb.size → usedIn h t.sb x = true)
    (blocks : 4096 * (j + n) < t.sb.size + 4096) (all : t.sb.size ≤ 4096 * (j + n)) :
    Ensures t.contract (ballocScan t.sb (dataFree h t.sb) ((List.range' j n).map (· * 4096))) s
      (fun b s' => InData t.sb b ∧ usedIn h t.sb b = false ∧
        Holds t (insert b F) (allocated t.sb h b) trans H s') := by
  have isFree : ∀ b, usedIn h t.sb b = false → t.contract.rely (.alloc b (dataFree h t.sb)) →
      dataFree h t.sb = true := by
    intro b unused relied
    rcases space with relies | count
    · exact (relies.promise b _ relied).elim id fun data => dataFree_iff.mpr ⟨b, data, unused⟩
    · exact dataFree_of_count count
  induction n generalizing j s with
  | zero =>
    apply ensures_halt
    rcases space with relies | count
    · exact relies.allowed
    · obtain ⟨d, data, free⟩ := dataFree_iff.mp (dataFree_of_count count)
      have size := inData_size t.geometry data
      rw [seen d (by omega) size] at free
      exact Bool.noConfusion free
  | succ n ih =>
    have start : j * 4096 < t.sb.size := by omega
    have place := bblock_low t.sb start
    have area := t.geometry.area
    have free : bblock (j * 4096) t.sb.ninodes ∉ H := low_notHeld held place.2
    rw [List.range'_succ, List.map_cons, ballocScan]
    refine ensures_then (bread_spec holds (room_less room (by omega)) (by omega)
      (x := bblock (j * 4096) t.sb.ninodes) (by omega) free) ?_
    rintro _ s₁ ⟨rfl, holds₁⟩
    -- Bit `bi` of this bitmap block describes block `j * 4096 + bi`.
    have bit : ∀ bi < 4096, bitSet (h (bblock (j * 4096) t.sb.ninodes)) bi =
        usedIn h t.sb (j * 4096 + bi) := by
      intro bi small
      have sameBlock : bblock (j * 4096 + bi) t.sb.ninodes = bblock (j * 4096) t.sb.ninodes := by
        simp only [bblock, bpb, ipb]
        omega
      have sameBit : (j * 4096 + bi) % bpb = bi := by
        simp only [bpb]
        omega
      rw [usedIn, sameBlock, sameBit]
    simp only [bpb]
    cases found : (List.range (min 4096 (t.sb.size - j * 4096))).find?
        (fun bi => !bitSet (h (bblock (j * 4096) t.sb.ninodes)) bi) with
    | some bi =>
      obtain ⟨clear, inside, before⟩ := List.find?_range_eq_some.mp found
      simp only [List.mem_range, lt_min_iff] at inside
      obtain ⟨small, inSize⟩ := inside
      rw [bit bi small] at clear
      have unused : usedIn h t.sb (j * 4096 + bi) = false := by simpa using clear
      have first : ∀ x < j * 4096 + bi, usedIn h t.sb x = true := by
        intro x lt
        by_cases early : x < 4096 * j
        · exact seen x early (by omega)
        · have prior := before (x - j * 4096) (by omega)
          rw [bit _ (by omega), show j * 4096 + (x - j * 4096) = x by omega] at prior
          simpa using prior
      refine ensures_emit_then (fun relied => ?_) fun relied => ?_
      · have some := isFree _ unused relied
        rw [some]
        exact writes.alloc _ (firstFree_inData low first unused some)
      have data : InData t.sb (j * 4096 + bi) :=
        firstFree_inData low first unused (isFree _ unused relied)
      have sameBlock : bblock (j * 4096 + bi) t.sb.ninodes = bblock (j * 4096) t.sb.ninodes := by
        simp only [bblock, bpb, ipb]
        omega
      have card : (insert (bblock (j * 4096) t.sb.ninodes) H).card ≤ 2 :=
        (Finset.card_insert_le _ H).trans (by omega)
      refine ensures_then (logModify_spec writes holds₁ (room_less room (by omega)) card
        (Finset.mem_insert_self _ H) (bitmaps _ start) writable) ?_
      intro _ s₂ holds₂
      refine ensures_then (brelse_spec holds₂ (Finset.mem_insert_self _ H)) ?_
      intro _ s₃ holds₃
      rw [Finset.erase_insert free] at holds₃
      have notHeld : j * 4096 + bi ∉ H := by
        intro member
        have used := (held _ member).2
        rw [unused] at used
        exact Bool.noConfusion used
      refine ensures_then (bzero_spec writes (holds_mono holds₃ (Set.subset_insert _ F))
        (room_insert room _) few data.2 notHeld (Set.mem_insert _ F) writable) ?_
      intro _ s₄ holds₄
      refine ensures_pure ⟨data, unused, ?_⟩
      rw [allocated, sameBlock, show (j * 4096 + bi) % bpb = bi by simp only [bpb]; omega]
      exact holds₄
    | none =>
      have full := List.find?_range_eq_none.mp found
      refine ensures_then (brelse_spec holds₁ (Finset.mem_insert_self _ H)) ?_
      intro _ s₂ holds₂
      rw [Finset.erase_insert free] at holds₂
      refine ih holds₂ ?_ (by omega) (by omega)
      intro x lt inSize
      by_cases early : x < 4096 * j
      · exact seen x early inSize
      · have here := full (x - j * 4096) (by rw [lt_min_iff]; omega)
        rw [bit _ (by omega), show j * 4096 + (x - j * 4096) = x by omega] at here
        simpa using here

theorem balloc_spec (writes : Writes t) (holds : Holds t F h trans H s) (room : Room t F 1)
    (few : H.card ≤ 1) (held : DataHeld t h H) (bitmaps : Bitmaps t F)
    (writable : Writable t trans) (super : getSuperblock (h 1) = t.sb)
    (low : ∀ x < dataStart t.sb, usedIn h t.sb x = true) (space : Space t 1 h) :
    Ensures t.contract balloc s
      (fun b s' => InData t.sb b ∧ usedIn h t.sb b = false ∧
        Holds t (insert b F) (allocated t.sb h b) trans H s') := by
  have notSuper : 1 ∉ H := low_notHeld held (by rw [dataStart_eq]; omega)
  apply ensures_inspect_then
  refine ensures_then (readsb_spec holds (room_less room (by omega)) (by omega) notSuper super) ?_
  rintro _ s₁ ⟨rfl, holds₁⟩
  rw [id_eq, dataFree_congr t.geometry holds, List.range_eq_range']
  have positive : 0 < t.sb.size := by
    have := logStart_le t.geometry
    have := t.geometry.log
    omega
  simp only [bpb]
  exact ballocScan_spec writes holds₁ room few held bitmaps writable low space
    (fun x lt => absurd lt (by omega)) (by omega) (by omega)

theorem bfree_spec (writes : Writes t) (holds : Holds t F h trans H s) (room : Room t F 0)
    (few : H.card ≤ 1) (held : DataHeld t h H) (bitmaps : Bitmaps t F)
    (writable : Writable t trans) (super : getSuperblock (h 1) = t.sb)
    (data : InData t.sb b) (used : usedIn h t.sb b = true) :
    Ensures t.contract (bfree b) s (fun _ s' => Holds t F (freed t.sb h b) trans H s') := by
  have notSuper : 1 ∉ H := low_notHeld held (by rw [dataStart_eq]; omega)
  have size := inData_size t.geometry data
  have place := bblock_low t.sb size
  have area := t.geometry.area
  have free : bblock b t.sb.ninodes ∉ H := low_notHeld held place.2
  refine ensures_then (readsb_spec holds room (by omega) notSuper super) ?_
  rintro _ s₁ ⟨rfl, holds₁⟩
  refine ensures_then (bread_spec holds₁ room (by omega) (x := bblock b t.sb.ninodes) (by omega)
    free) ?_
  rintro _ s₂ ⟨rfl, holds₂⟩
  have set : bitSet (h (bblock b t.sb.ninodes)) (b % bpb) = true := used
  rw [set]
  simp only [Bool.not_true, Bool.false_eq_true, ↓reduceIte]
  have card : (insert (bblock b t.sb.ninodes) H).card ≤ 2 :=
    (Finset.card_insert_le _ H).trans (by omega)
  refine ensures_then (logModify_spec writes holds₂ room card (Finset.mem_insert_self _ H)
    (bitmaps b size) writable) ?_
  intro _ s₃ holds₃
  refine ensures_weaken (brelse_spec holds₃ (Finset.mem_insert_self _ H)) ?_
  intro _ s₄ holds₄
  rwa [Finset.erase_insert free] at holds₄

end Allocator

end Xv6.DevSpec
