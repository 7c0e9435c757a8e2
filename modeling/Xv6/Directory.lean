import Xv6.Disk

/-! Directories as arrays of entries. The bytes of a directory are read as slots
of 16 bytes; `lookup` and `freeSlot` are what the loops of dirlookup and dirlink
compute, and `addEntry` and `clearEntry` are what dirlink and sys_unlink write. -/
namespace Xv6.Directory
open Layout Codec Fs Disk

def slotCount (node : Node) : Nat := node.size / 16

def slot (node : Node) (j : Nat) : Dirent := decodeDirent (readBytes node (16 * j) 16)

/-- The first slot from `m` on with the property. -/
def scan (node : Node) (wanted : Dirent → Bool) (m : Nat) : Option Nat :=
  (List.range' m (slotCount node - m)).find? fun j => wanted (slot node j)

def named (name : List UInt8) (de : Dirent) : Bool := de.inum != 0 && namecmp name de.name == 0

def lookup (node : Node) (name : List UInt8) : Option Nat := scan node (named name) 0

def isFree (de : Dirent) : Bool := de.inum == 0

def isLive (de : Dirent) : Bool := de.inum != 0

/-- Where dirlink writes: the first free slot, else the end. -/
def freeSlot (node : Node) : Nat := (scan node isFree 0).getD (slotCount node)

def putSlot (node : Node) (j : Nat) (de : Dirent) : Node := node.write (16 * j) (encodeDirent de)

def addEntry (node : Node) (name : List UInt8) (inum : Nat) : Node :=
  putSlot node (freeSlot node) ⟨inum, strncpy name dirsiz⟩

/-- The entry of all zero bytes. -/
def blank : Dirent := ⟨0, List.replicate 14 0⟩

def clearEntry (node : Node) (j : Nat) : Node := putSlot node j blank

/-- What every directory satisfies at all times, also while it is being made. -/
structure DirShape (ninodes : Nat) (node : Node) : Prop where
  aligned : node.size % 16 = 0
  inums : ∀ j < slotCount node, (slot node j).inum < ninodes

def Shapes (n : Nat) (nodes : Nat → Node) : Prop :=
  ∀ i < n, (nodes i).type = tDir → DirShape n (nodes i)

/-- The path walk of namex over the inodes alone. -/
def walk (nodes : Nat → Node) (parent : Bool) :
    Nat → Nat → List UInt8 → List UInt8 → Option (Nat × List UInt8)
  | 0, _, _, _ => none
  | fuel + 1, i, path, name =>
    match skipelem path with
    | none => if parent then none else some (i, name)
    | some (name, path) =>
      if (nodes i).type ≠ tDir then none
      else if parent = true ∧ path.isEmpty = true then some (i, name)
      else
        match lookup (nodes i) name with
        | none => none
        | some j => walk nodes parent fuel (slot (nodes i) j).inum path name

/-- Where a path leads from the working directory, with the last element of the path. -/
def resolve (nodes : Nat → Node) (cwd : Nat) (path : List UInt8) (parent : Bool) :
    Option (Nat × List UInt8) :=
  walk nodes parent (path.length + 1) (if path.head? = some slash then rootino else cwd) path []

/-- The call may add the entry that the path names. -/
def MayAdd (permit : Permit) (nodes : Nat → Node) (cwd : Nat) (path : List UInt8) : Prop :=
  ∀ dp name, resolve nodes cwd path true = some (dp, name) → permit.adds dp

/-- The call may remove the entry that the path names. -/
def MayRemove (permit : Permit) (nodes : Nat → Node) (cwd : Nat) (path : List UInt8) : Prop :=
  ∀ dp name j, resolve nodes cwd path true = some (dp, name) → lookup (nodes dp) name = some j →
    permit.removes (slot (nodes dp) j).inum

section Slots
variable {node : Node} {wanted : Dirent → Bool} {de : Dirent} {j l m : Nat}

theorem scan_some (found : scan node wanted m = some j) :
    m ≤ j ∧ j < slotCount node ∧ wanted (slot node j) = true ∧
      ∀ l, m ≤ l → l < j → wanted (slot node l) = false := by
  obtain ⟨hit, member, before⟩ := List.find?_range'_eq_some.mp found
  rw [List.mem_range'_1] at member
  refine ⟨member.1, by omega, hit, fun l low high => ?_⟩
  simpa using before l low high

theorem scan_step (more : m < slotCount node) :
    scan node wanted m = if wanted (slot node m) then some m else scan node wanted (m + 1) := by
  unfold scan
  rw [show slotCount node - m = slotCount node - (m + 1) + 1 by omega, List.range'_succ,
    List.find?_cons]
  cases wanted (slot node m) <;> simp

theorem scan_end (past : slotCount node ≤ m) : scan node wanted m = none := by
  rw [scan, Nat.sub_eq_zero_of_le past]
  rfl

theorem freeSlot_le (node : Node) : freeSlot node ≤ slotCount node := by
  unfold freeSlot
  cases found : scan node isFree 0 with
  | none => exact Nat.le_refl _
  | some j => exact Nat.le_of_lt (scan_some found).2.1

theorem length_encodeDirent (width : de.name.length = 14) : (encodeDirent de).length = 16 := by
  simp [encodeDirent, width]

theorem getElem_readBytes (node : Node) {off n p : Nat} (inside : p < (readBytes node off n).length) :
    (readBytes node off n)[p] = node.byte (off + p) := by
  simp [readBytes]

@[simp] theorem length_readBytes (node : Node) (off n : Nat) : (readBytes node off n).length = n := by
  simp [readBytes]

theorem readBytes_write_same (node : Node) (off : Nat) (data : List UInt8) :
    readBytes (node.write off data) off data.length = data := by
  apply List.ext_getElem
  · simp
  · intro p left right
    rw [getElem_readBytes]
    simp only [Node.write]
    rw [if_pos (by omega), Nat.add_sub_cancel_left]
    exact List.getD_eq_getElem _ _ right

theorem readBytes_write_other (node : Node) {off n off' : Nat} {data : List UInt8}
    (apart : off' + n ≤ off ∨ off + data.length ≤ off') :
    readBytes (node.write off data) off' n = readBytes node off' n := by
  apply List.ext_getElem
  · simp
  · intro p left right
    rw [length_readBytes] at left
    rw [getElem_readBytes, getElem_readBytes]
    simp only [Node.write]
    rw [if_neg (by omega)]

theorem slot_putSlot_same (width : de.name.length = 14) (fits : de.inum < 2 ^ 16) :
    slot (putSlot node j de) j = de := by
  have whole := readBytes_write_same node (16 * j) (encodeDirent de)
  rw [length_encodeDirent width] at whole
  rw [slot, putSlot, whole, decodeDirent_encodeDirent de fits]

theorem slot_putSlot_other (width : de.name.length = 14) (other : l ≠ j) :
    slot (putSlot node j de) l = slot node l := by
  rw [slot, putSlot, readBytes_write_other node (by rw [length_encodeDirent width]; omega), slot]

theorem size_putSlot (width : de.name.length = 14) :
    (putSlot node j de).size = max node.size (16 * j + 16) := by
  rw [putSlot, Node.write, length_encodeDirent width]

theorem aligned_putSlot (width : de.name.length = 14) (aligned : node.size % 16 = 0) :
    (putSlot node j de).size % 16 = 0 := by
  rw [size_putSlot width]
  omega

theorem slotCount_putSlot (width : de.name.length = 14) :
    slotCount (putSlot node j de) = max (slotCount node) (j + 1) := by
  unfold slotCount
  rw [size_putSlot width]
  omega

theorem shape_putSlot {n : Nat} (shape : DirShape n node) (width : de.name.length = 14)
    (fits : de.inum < 2 ^ 16) (bound : de.inum < n) (next : j ≤ slotCount node) :
    DirShape n (putSlot node j de) := by
  refine ⟨aligned_putSlot width shape.aligned, fun l below => ?_⟩
  rw [slotCount_putSlot width] at below
  by_cases here : l = j
  · rw [here, slot_putSlot_same width fits]
    exact bound
  · rw [slot_putSlot_other width here]
    exact shape.inums l (by omega)

end Slots

end Xv6.Directory
