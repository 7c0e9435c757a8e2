import Xv6.RunSpec

/-! Results about whole sessions: the computer boots from an image and serves any
sequence of system calls. The inodes and the block ownership are read off the
logical contents of the blocks, which are those of the cache and of the committed
log. -/
namespace Xv6.Sessions
open TraceMonad RedoLog Layout Codec Bio Cache LogSpec Ownership Fs Disk DevSpec InodeSpec ContentSpec
open Directory DirSpec Moves OpSpec Syscall FileSpec CallSpec Mkfs ImageSpec ImageFiles RunSpec

/-- Every block has one owner: all entries of allocated inodes are marked data blocks, no
block is entered twice, and every marked data block is entered. -/
structure Owned (sb : Superblock) (h : Nat → Block) : Prop where
  marked : ∀ i < sb.ninodes, ∀ e < 141, entry h (dinodeAt h i) e ≠ 0 →
    InData sb (entry h (dinodeAt h i) e) ∧ usedIn h sb (entry h (dinodeAt h i) e) = true
  once : ∀ i < sb.ninodes, ∀ j < sb.ninodes, ∀ e < 141, ∀ f < 141, entry h (dinodeAt h i) e ≠ 0 →
    entry h (dinodeAt h i) e = entry h (dinodeAt h j) f → i = j ∧ e = f
  covered : ∀ b, InData sb b → usedIn h sb b = true →
    ∃ i < sb.ninodes, ∃ e < 141, (dinodeAt h i).type ≠ 0 ∧ entry h (dinodeAt h i) e = b

/-- Every call of balloc finds a free block in the data area. -/
def Roomy (events : List Event) : Prop := ∀ b free, Event.alloc b free ∈ events → free = true

/-- No working directory is the last reference to a removed directory when it is dropped. -/
def Parked (events : List Event) : Prop := ∀ last, Event.cwdDrop last ∈ events → last = false

/-- The blocks that balloc returned. -/
def ballocs (events : List Event) : List Nat :=
  events.filterMap fun
    | .alloc b _ => some b
    | _ => none

def roomyEvent : Event → Bool
  | .alloc _ free => free
  | _ => true

def parkedEvent : Event → Bool
  | .cwdDrop last => !last
  | _ => true

instance (events : List Event) : Decidable (Roomy events) :=
  decidable_of_iff (events.all roomyEvent = true) (by
    rw [List.all_eq_true]
    constructor
    · intro all b free member
      exact all _ member
    · rintro roomy (_ | _ | ⟨b, free⟩ | _) member
      · rfl
      · rfl
      · exact roomy b free member
      · rfl)

instance (events : List Event) : Decidable (Parked events) :=
  decidable_of_iff (events.all parkedEvent = true) (by
    rw [List.all_eq_true]
    constructor
    · intro all last member
      simpa [parkedEvent] using all _ member
    · rintro parked (_ | _ | _ | last) member
      · rfl
      · rfl
      · rfl
      · simp [parkedEvent, parked last member])

section Owners
variable {sb : Superblock} {h : Nat → Block}

theorem owned_of_blocks (blocks : Blocks sb h (dinodeAt h) ∅) : Owned sb h := by
  refine ⟨fun i inside e small some => entry_data blocks inside small some,
    fun i insideI j insideJ e smallE f smallF some same =>
      entry_inj blocks insideI insideJ smallE smallF some same, fun b data used => ?_⟩
  rcases blocks.ledger.covered b data used with spare | ⟨⟨i, e⟩, owner⟩
  · exact absurd spare (Set.notMem_empty b)
  · have some : own sb h (dinodeAt h) (i, e) ≠ 0 := by
      rw [owner]
      exact blocks.ledger.nonzero b data
    unfold own at owner some
    split at owner
    · rename_i bounds
      refine ⟨i, bounds.1, e, bounds.2, fun free => ?_, owner⟩
      rw [if_pos bounds] at some
      have none := blocks.clean i bounds.1 free
      apply some
      simp [entry, none]
    · rename_i outside
      rw [if_neg outside] at some
      exact absurd rfl some

end Owners

section Reads
variable {t : Setting} {F : Set Nat} {a : Snap} {s : State} {k : Kernel} {ip off n : Nat}

/-- The contract of code that only reads: no event at all. -/
def silence (halts : Halt → Prop) : Contract Event Halt := ⟨fun _ => True, fun _ => False, halts⟩

theorem room_empty : Room t ∅ 0 := Or.inr ⟨Set.finite_empty, by simp⟩

theorem silent_outcome {α : Type} {halts : Halt → Prop} {action : FsM α} {post : α → State → Prop}
    (spec : Ensures (silence halts) action s post) :
    (action s).2 = [] ∧ (∀ value after, (action s).1 = .done value after → post value after) ∧
      ∀ reason stopped, (action s).1 = .halt reason stopped → halts reason := by
  obtain ⟨promised, ends⟩ := ensures_outcome spec fun _ _ => trivial
  exact ⟨List.eq_nil_iff_forall_not_mem.mpr promised, ends⟩

end Reads

section Runs
variable {sb : Superblock} {disk : Nat → Block} {nodes : Nat → Node} {calls : List (Nat × Call)}
  {params : Params} {files : List (List UInt8 × List UInt8)} {image : Image}

theorem mem_ballocs {events : List Event} {b : Nat} :
    b ∈ ballocs events ↔ ∃ free, Event.alloc b free ∈ events := by
  rw [ballocs, List.mem_filterMap]
  constructor
  · rintro ⟨event, member, shown⟩
    cases event with
    | alloc b' free =>
      obtain rfl : b' = b := Option.some.inj shown
      exact ⟨free, member⟩
    | write sector data => cases shown
    | logged n => cases shown
    | cwdDrop last => cases shown
  · rintro ⟨free, member⟩
    exact ⟨_, member, rfl⟩

/-- Every call of balloc finds a free block in the data area or returns a block of it. -/
def Served (sb : Superblock) (events : List Event) : Prop :=
  ∀ b free, Event.alloc b free ∈ events → free = true ∨ InData sb b

theorem served_of_roomy {events : List Event} (roomy : Roomy events) : Served sb events :=
  fun b free member => Or.inl (roomy b free member)

theorem served_of_inData {events : List Event} (inData : ∀ b ∈ ballocs events, InData sb b) :
    Served sb events :=
  fun b free member => Or.inr (inData b (mem_ballocs.mpr ⟨free, member⟩))

theorem rely_of_served {mode : Mode} {events : List Event} (served : Served sb events)
    (parked : mode.outside = false → Parked events) : ∀ event ∈ events, mode.rely sb event := by
  rintro (_ | _ | ⟨b, free⟩ | last) member
  · trivial
  · trivial
  · exact served b free member
  · exact fun closed => parked closed last member

theorem session_kept {ok : Kernel → Nat → Call → Prop} {permit : (Nat → Node) → Permit}
    {holds : (Nat → Node) → Prop} (mode : Mode) (wide : mode.capacity = true ∨ OneBitmap sb)
    (upkeep : Upkeep sb mode ok permit holds) (consistent : Consistent sb disk nodes)
    (start : holds nodes) (meets : SessionMeets ok calls disk)
    (served : Served sb (session calls (powerOn disk)).2)
    (parked : mode.outside = false → Parked (session calls (powerOn disk)).2) :
    (∀ event ∈ (session calls (powerOn disk)).2, mode.guar sb event) ∧
      (∀ k, (session calls (powerOn disk)).1 = .done () k →
        ∃ a, KInv (setting sb consistent.geometry mode anything) a k ∧ holds (inodesOf k.fs.dev)) ∧
      ∀ reason stopped, (session calls (powerOn disk)).1 = .halt reason stopped →
        mode.halts reason := by
  obtain ⟨promised, ends, halts⟩ := ensures_outcome
    (session_spec wide upkeep consistent start meets) (rely_of_served served parked)
  exact ⟨promised, fun k done => ends () k done, halts⟩

theorem session_outcome (mode : Mode) (wide : mode.capacity = true ∨ OneBitmap sb)
    (loose : mode.dangling = true) (consistent : Consistent sb disk nodes)
    (served : Served sb (session calls (powerOn disk)).2)
    (parked : mode.outside = false → Parked (session calls (powerOn disk)).2) :
    (∀ event ∈ (session calls (powerOn disk)).2, mode.guar sb event) ∧
      (∀ k, (session calls (powerOn disk)).1 = .done () k →
        ∃ a, KInv (setting sb consistent.geometry mode anything) a k) ∧
      ∀ reason stopped, (session calls (powerOn disk)).1 = .halt reason stopped →
        mode.halts reason := by
  have upkeep : Upkeep sb mode (fun _ _ _ => True) (fun _ => anything) (fun _ => True) :=
    ⟨fun _ _ => Or.inl loose, fun _ _ _ _ => trivial, fun _ _ _ _ => allowed_anything _ _ _,
      fun _ _ _ _ _ _ _ => trivial⟩
  have meets : SessionMeets (fun _ _ _ => True) calls disk :=
    Outcome.leads_of_forall (meets_of_forall (fun _ _ _ => trivial) calls)
  obtain ⟨promised, ends, halts⟩ := session_kept mode wide upkeep consistent trivial meets served parked
  refine ⟨promised, fun k done => ?_, halts⟩
  obtain ⟨a, inv, _⟩ := ends k done
  exact ⟨a, inv⟩

/-- The mode that leaves all three panics open. -/
def lenient : Mode := ⟨true, true, true⟩

/-- An image with five data blocks, of which the root directory takes one. -/
def roomyParams : Params := ⟨5, 10, 8, 20⟩

def roomyImage : Image := (main roomyParams []).get (by decide +kernel)

theorem roomyImage_built : main roomyParams [] = some roomyImage := (Option.some_get _).symm

theorem roomyImage_fits : Fits roomyParams [] roomyImage := by
  constructor <;> decide +kernel

/-- The paths of the sessions below. -/
def pathD : List UInt8 := [47, 100]

theorem mkdir_ballocs :
    ballocs (session [(0, .mkdir pathD)] (powerOn roomyImage.sect)).2 = [6] := by
  decide +kernel

theorem mkdir_roomy : Roomy (session [(0, .mkdir pathD)] (powerOn roomyImage.sect)).2 := by
  decide +kernel

/-- No log_write happens outside a transaction unless the last reference to a removed
directory is a working directory. -/
theorem no_write_outside_trans (built : main params files = some image)
    (fits : Fits params files image) (roomy : Roomy (session calls (powerOn image.sect)).2)
    (parked : Parked (session calls (powerOn image.sect)).2) (stopped : Kernel) :
    (session calls (powerOn image.sect)).1 ≠ .halt .writeOutsideOfTrans stopped := by
  obtain ⟨_, _, consistent⟩ := main_consistent built fits
  intro halted
  have allowed := (session_outcome ⟨true, false, true⟩ (Or.inl rfl) rfl consistent
    (served_of_roomy roomy) (fun _ => parked)).2.2 _ _ halted
  revert allowed
  simp [Mode.halts, benign, fileHalts]

theorem rmdir_inside_trans :
    main roomyParams [] = some roomyImage ∧
      ∀ stopped, (session [(0, .mkdir pathD), (0, .unlink pathD)] (powerOn roomyImage.sect)).1 ≠
        .halt .writeOutsideOfTrans stopped :=
  ⟨roomyImage_built, no_write_outside_trans roomyImage_built roomyImage_fits (by decide +kernel)
    (by decide +kernel)⟩

/-- Leaving a removed directory frees it outside any transaction. -/
theorem leaving_removed_directory :
    main roomyParams [] = some roomyImage ∧
      ∃ stopped, (session [(0, .mkdir pathD), (0, .chdir pathD), (0, .unlink pathD), (0, .chdir [47])]
        (powerOn roomyImage.sect)).1 = .halt .writeOutsideOfTrans stopped :=
  ⟨roomyImage_built, Outcome.stopsFor_iff.mp (by decide +kernel)⟩

/-- Every block has one owner after every session in which balloc has only returned blocks
of the data area. -/
theorem blocks_owned (built : main params files = some image) (fits : Fits params files image)
    (inData : ∀ b ∈ ballocs (session calls (powerOn image.sect)).2, InData (superblock params) b) :
    (∀ k, (session calls (powerOn image.sect)).1 = .done () k →
      Owned (superblock params) (content k.fs.dev)) ∧
    ∀ stopped, (session calls (powerOn image.sect)).1 ≠ .halt .freeingFreeBlock stopped := by
  obtain ⟨_, _, consistent⟩ := main_consistent built fits
  obtain ⟨_, ends, halts⟩ := session_outcome lenient (Or.inl rfl) rfl consistent
    (served_of_inData inData) (fun closed => by cases closed)
  refine ⟨fun k done => ?_, fun stopped halted => ?_⟩
  · obtain ⟨a, inv⟩ := ends k done
    exact owned_of_blocks (rep_blocks inv.ready.rep inv.ready.clean).1
  · have allowed := halts _ _ halted
    revert allowed
    simp [Mode.halts, benign, fileHalts]

theorem mkdir_keeps_ownership :
    (∀ k, (session [(0, .mkdir pathD)] (powerOn roomyImage.sect)).1 = .done () k →
      Owned (superblock roomyParams) (content k.fs.dev)) ∧
    ∀ stopped, (session [(0, .mkdir pathD)] (powerOn roomyImage.sect)).1 ≠
      .halt .freeingFreeBlock stopped := by
  refine blocks_owned roomyImage_built roomyImage_fits fun b member => ?_
  rw [mkdir_ballocs, List.mem_singleton] at member
  rw [member]
  exact ⟨by decide, by decide⟩

/-- Thirty empty files, which fill the first block of the root directory. -/
def holeFiles : List (List UInt8 × List UInt8) :=
  (List.range 30).map fun i => ([97 + UInt8.ofNat (i / 10), 97 + UInt8.ofNat (i % 10)], [])

def holeParams : Params := ⟨5, 10, 40, 24⟩

def holeImage : Image := (main holeParams holeFiles).get (by decide +kernel)

theorem holeImage_built : main holeParams holeFiles = some holeImage := (Option.some_get _).symm

/-- A marked block of the data area that no inode enters. -/
def ownerless (sb : Superblock) (h : Nat → Block) (b : Nat) : Bool :=
  usedIn h sb b && (List.range sb.ninodes).all fun i => (List.range 141).all fun e =>
    entry h (dinodeAt h i) e != b

theorem not_owned_of_ownerless {h : Nat → Block} {b : Nat} (data : InData sb b)
    (lost : ownerless sb h b = true) : ¬ Owned sb h := by
  intro owned
  simp only [ownerless, Bool.and_eq_true, List.all_eq_true, List.mem_range, bne_iff_ne] at lost
  obtain ⟨i, inside, e, small, _, owner⟩ := owned.covered b data lost.1
  exact lost.2 i inside e small owner

/-- mkfs leaves a hole in the root directory, and unlink of a missing name allocates a
block for it that no inode on the disk enters. -/
theorem unlink_leaks_block :
    main holeParams holeFiles = some holeImage ∧
      ballocs (session [(0, .unlink pathD)] (powerOn holeImage.sect)).2 = [10] ∧
      InData (superblock holeParams) 10 ∧
      ∃ k, (session [(0, .unlink pathD)] (powerOn holeImage.sect)).1 = .done () k ∧
        ¬ Owned (superblock holeParams) (content k.fs.dev) := by
  have data : InData (superblock holeParams) 10 := ⟨by decide, by decide⟩
  refine ⟨holeImage_built, by decide +kernel, data, ?_⟩
  have lost : (session [(0, .unlink pathD)] (powerOn holeImage.sect)).1.passes
      (fun k => ownerless (superblock holeParams) (content k.fs.dev) 10) = true := by decide +kernel
  obtain ⟨_, k, done, lost⟩ := Outcome.passes_iff.mp lost
  exact ⟨k, done, not_owned_of_ownerless data lost⟩

end Runs

end Xv6.Sessions
