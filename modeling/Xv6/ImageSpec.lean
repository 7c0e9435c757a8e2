import Xv6.MkfsSpec

/-! What a finished image holds. `Populated` says how the inodes of an image come
about: the root directory, then one file and one entry of the root for each argument.
`Consistent` is what the kernel relies on when it boots from a disk. -/
namespace Xv6.ImageSpec
open BitField RedoLog Layout Codec Bio Fs Disk ContentSpec Directory Moves Mkfs MkfsSpec

/-- The inodes with the named files, the last one first. -/
inductive Populated (n : Nat) : List (List UInt8) → (Nat → Node) → Prop
  | root (inside : 1 < n) :
      Populated n [] (setNode (fun _ => newNode 0) rootino (newDir rootino rootino))
  | file {names : List (List UInt8)} {nodes : Nat → Node} (old : Populated n names nodes)
      (inside : names.length + 2 < n) (name : List UInt8) (size : Nat) (byte : Nat → UInt8) :
      Populated n (name :: names) (setNode (setNode nodes (names.length + 2)
        { newFile tFile 0 0 with size := size, byte := byte }) rootino
          (addEntry (nodes rootino) name (names.length + 2)))

/-- A directory without a free slot. -/
structure Packed (node : Node) (count : Nat) : Prop where
  type : node.type = tDir
  nlink : node.nlink = 1
  size : node.size = 16 * count
  live : ∀ j < count, (slot node j).inum ≠ 0

section Packing
variable {node : Node} {count i : Nat} {name : List UInt8}

theorem packed_slots (packed : Packed node count) : slotCount node = count := by
  rw [slotCount, packed.size]
  omega

theorem packed_freeSlot (packed : Packed node count) : freeSlot node = count := by
  have slots := packed_slots packed
  unfold freeSlot
  cases found : scan node isFree 0 with
  | none => exact slots
  | some j =>
    obtain ⟨_, below, free, _⟩ := scan_some found
    have live := packed.live j (by omega)
    simp [isFree] at free
    exact absurd free live

theorem packed_append (packed : Packed node count) (name : List UInt8) (i : Nat) :
    node.write node.size (encodeDirent ⟨i, strncpy name dirsiz⟩) = addEntry node name i := by
  rw [addEntry, putSlot, packed_freeSlot packed, packed.size]

theorem packed_addEntry (packed : Packed node count) (name : List UInt8) (positive : i ≠ 0)
    (small : i < 2 ^ 16) : Packed (addEntry node name i) (count + 1) := by
  have width : (strncpy name 14).length = 14 := length_strncpy name 14
  refine ⟨packed.type, packed.nlink, ?_, fun j below => ?_⟩
  · rw [addEntry, size_putSlot width, packed_freeSlot packed, packed.size]
    omega
  · rw [addEntry, packed_freeSlot packed]
    by_cases last : j = count
    · rw [last, slot_putSlot_same width small]
      exact positive
    · rw [slot_putSlot_other width last]
      exact packed.live j (by omega)

theorem packed_empty : Packed (newFile tDir 0 0) 0 :=
  ⟨rfl, rfl, rfl, fun _ below => absurd below (Nat.not_lt_zero _)⟩

theorem packed_newDir {parent : Nat} (positive : i ≠ 0) (small : i < 2 ^ 16) (above : parent ≠ 0)
    (small' : parent < 2 ^ 16) : Packed (newDir i parent) 2 :=
  packed_addEntry (packed_addEntry packed_empty dot positive small) dotdot above small'

end Packing

section Populate
variable {n i : Nat} {names : List (List UInt8)} {nodes : Nat → Node}

theorem populated_root (populated : Populated n names nodes) (inums : n ≤ 2 ^ 16) :
    Packed (nodes rootino) (names.length + 2) := by
  induction populated with
  | root inside =>
    rw [setNode_at]
    exact packed_newDir (by decide) (by decide) (by decide) (by decide)
  | file old inside name size byte ih =>
    rw [setNode_at]
    exact packed_addEntry ih name (by omega) (by omega)

theorem populated_shape (populated : Populated n names nodes) (inums : n ≤ 2 ^ 16) :
    DirShape n (nodes rootino) := by
  induction populated with
  | root inside =>
    rw [setNode_at]
    exact shape_newDir inums inside inside
  | file old inside name size byte ih =>
    rw [setNode_at]
    exact shape_addEntry ih inums inside

theorem populated_node (populated : Populated n names nodes) (other : i ≠ rootino) :
    if 2 ≤ i ∧ i < names.length + 2 then (nodes i).type = tFile ∧ (nodes i).nlink = 1
    else nodes i = newNode 0 := by
  induction populated with
  | root inside =>
    rw [if_neg (by simp only [List.length_nil]; omega), setNode_other _ _ other]
  | @file names nodes old inside name size byte ih =>
    rw [setNode_other _ _ other]
    by_cases new : i = names.length + 2
    · rw [if_pos (by simp only [List.length_cons]; omega), new, setNode_at]
      exact ⟨rfl, rfl⟩
    · rw [setNode_other _ _ new]
      by_cases range : 2 ≤ i ∧ i < names.length + 2
      · rw [if_pos range] at ih
        rw [if_pos (by simp only [List.length_cons]; omega)]
        exact ih
      · rw [if_neg range] at ih
        rw [if_neg (by simp only [List.length_cons]; omega)]
        exact ih

end Populate

section Files
variable {sb : Superblock} {image next : Image} {nodes : Nat → Node} {names : List (List UInt8)}
  {arg data : List UInt8} {files : List (List UInt8 × List UInt8)}

theorem addFile_inv (run : addFile image arg data = some next) :
    ∃ image₁, iappend (ialloc image tFile).2 rootino
        (encodeDirent ⟨image.freeinode, strncpy (stripped arg) dirsiz⟩) = some image₁ ∧
      appendAll image.freeinode (chunks data.length data) image₁ = some next := by
  unfold addFile at run
  simp only at run
  split at run
  · cases run
  · exact Option.bind_eq_some_iff.mp run

theorem addFile_further (run : addFile image arg data = some next) : Further 1 image next := by
  obtain ⟨image₁, entry, contents⟩ := addFile_inv run
  have made : Further 1 image (Mkfs.ialloc image tFile).2 := ⟨rfl, Nat.le_refl _, id⟩
  exact further_trans made (further_trans (iappend_further entry) (appendAll_further contents))

theorem addFiles_further (run : addFiles files image = some next) :
    Further files.length image next := by
  induction files generalizing image with
  | nil =>
    cases run
    exact further_refl _
  | cons file rest ih =>
    obtain ⟨image₁, first, later⟩ := Option.bind_eq_some_iff.mp run
    rw [List.length_cons, Nat.add_comm]
    exact further_trans (addFile_further first) (ih later)

/-- The names that mkfs gives the files, the last one first. -/
def namesOf (files : List (List UInt8 × List UInt8)) : List (List UInt8) :=
  (files.map fun file => stripped file.1).reverse

end Files

/-- The image has room for the files and inodes, and the root directory ends inside a
block. -/
structure Fits (params : Params) (files : List (List UInt8 × List UInt8)) (image : Image) : Prop where
  root : 1 < params.ninodes
  inums : params.ninodes ≤ 2 ^ 16
  wide : params.size < 2 ^ 32
  log : 0 < params.nlog
  blocks : image.freeblock ≤ logStart (superblock params)
  inodes : image.freeinode ≤ params.ninodes
  begun : (files.length + 2) % 32 ≠ 0

/-- What the kernel finds on a disk that is in order. -/
structure Consistent (sb : Superblock) (disk : Nat → Block) (nodes : Nat → Node) : Prop where
  geometry : Geometry sb
  blocks : Blocks sb disk (dinodeAt disk) ∅
  shown : ∀ i < sb.ninodes, nodes i = nodeOf disk (dinodeAt disk i)
  header : getHeader (disk (logStart sb)) = []
  linked : ∀ i < sb.ninodes, (nodes i).type ≠ 0 → (nodes i).nlink ≠ 0
  root : (nodes rootino).type = tDir
  shape : Shapes sb.ninodes nodes

section Whole
variable {params : Params} {files : List (List UInt8 × List UInt8)} {image : Image}

theorem main_inv (built : main params files = some image) :
    params.nblocks + dataStart (superblock params) + params.nlog = params.size ∧
      ∃ image₁ image₂ image₃,
        iappend (Mkfs.ialloc (emptyImage params) tDir).2 rootino
          (encodeDirent ⟨rootino, strncpy dot dirsiz⟩) = some image₁ ∧
        iappend image₁ rootino (encodeDirent ⟨rootino, strncpy dotdot dirsiz⟩) = some image₂ ∧
        addFiles files image₂ = some image₃ ∧ image₃.usedblocks < 4096 ∧
        image = wsect (fixRoot image₃) (params.ninodes / ipb + 3) (usedBits image₃.usedblocks) := by
  unfold main at built
  split at built
  · cases built
  rename_i whole
  obtain ⟨image₁, first, rest⟩ := Option.bind_eq_some_iff.mp built
  obtain ⟨image₂, second, rest⟩ := Option.bind_eq_some_iff.mp rest
  obtain ⟨image₃, third, last⟩ := Option.bind_eq_some_iff.mp rest
  refine ⟨Classical.not_not.mp whole, image₁, image₂, image₃, first, second, third, ?_⟩
  unfold Mkfs.balloc at last
  split at last
  · rename_i small
    cases last
    exact ⟨small, rfl⟩
  · cases last

theorem slot_padded {node : Node} {count j : Nat} (packed : Packed node count)
    (silent : ∀ q, node.size ≤ q → node.byte q = 0) (past : count ≤ j) :
    (slot (padded node) j).inum = 0 := by
  have size := packed.size
  have zero : ∀ q < 16, ((readBytes (padded node) (16 * j) 16).getD q 0).toNat = 0 := by
    intro q below
    rw [List.getD_eq_getElem _ _ (by simpa using below), getElem_readBytes]
    exact congrArg UInt8.toNat (silent _ (by omega))
  rw [slot, decodeDirent]
  simp only
  rw [zero 0 (by omega), zero 1 (by omega)]

theorem shape_padded {node : Node} {n count : Nat} (packed : Packed node count)
    (shape : DirShape n node) (some : 0 < n) (silent : ∀ q, node.size ≤ q → node.byte q = 0) :
    DirShape n (padded node) := by
  have slots := packed_slots packed
  refine ⟨?_, fun j below => ?_⟩
  · simp only [padded]
    omega
  · by_cases old : j < count
    · exact shape.inums j (by omega)
    · rw [slot_padded packed silent (by omega)]
      exact some

end Whole

end Xv6.ImageSpec
