import Xv6.Directory

/-! What system calls do to the inodes, as relations between the inodes before and
after. A call writes to files, or makes one change to a directory, and may then
free inodes that have no link. -/
namespace Xv6.Moves
open Layout Codec Fs Disk Directory

def relink (node : Node) (nlink : Nat) : Node := { node with nlink := nlink }

theorem type_relink (node : Node) (nlink : Nat) : (relink node nlink).type = node.type := rfl

theorem slot_relink (node : Node) (nlink j : Nat) : slot (relink node nlink) j = slot node j := rfl

theorem slotCount_relink (node : Node) (nlink : Nat) :
    slotCount (relink node nlink) = slotCount node := rfl

theorem walk_relink (nodes : Nat → Node) (i nlink : Nat) (parent : Bool) (fuel start : Nat)
    (path name : List UInt8) :
    walk (setNode nodes i (relink (nodes i) nlink)) parent fuel start path name =
      walk nodes parent fuel start path name := by
  induction fuel generalizing start path name with
  | zero => rfl
  | succ fuel ih =>
    simp only [walk, ih]
    by_cases here : start = i
    · rw [here, setNode_at]
      rfl
    · rw [setNode_other _ _ here]

theorem resolve_relink (nodes : Nat → Node) (i nlink cwd : Nat) (path : List UInt8) (parent : Bool) :
    resolve (setNode nodes i (relink (nodes i) nlink)) cwd path parent =
      resolve nodes cwd path parent :=
  walk_relink nodes i nlink parent _ _ path []

/-- A new inode when create has set its fields. -/
def newFile (type major minor : Nat) : Node :=
  { newNode type with major := major, minor := minor, nlink := 1 }

/-- A new directory with its first two entries. -/
def newDir (i parent : Nat) : Node := addEntry (addEntry (newFile tDir 0 0) dot i) dotdot parent

/-- The directory after the entry in slot `j`, for `child`, is removed. -/
def unlinkedParent (node child : Node) (j : Nat) : Node :=
  if child.type = tDir then relink (clearEntry node j) (decr node.nlink) else clearEntry node j

theorem type_unlinkedParent (node child : Node) (j : Nat) :
    (unlinkedParent node child j).type = node.type := by
  unfold unlinkedParent
  split
  · rw [type_relink]
    rfl
  · rfl

/-- The one change of a directory that create, mkdir, link and unlink make. -/
inductive Main (n : Nat) (permit : Permit) (nodes : Nat → Node) : (Nat → Node) → Prop
  | create {dp i type major minor : Nat} {name : List UInt8} (parentInside : dp < n)
      (positive : 0 < i) (inside : i < n) (dir : (nodes dp).type = tDir) (free : (nodes i).type = 0)
      (typed : type ≠ 0) (file : type ≠ tDir) (absent : lookup (nodes dp) name = none)
      (allowed : permit.adds dp) :
      Main n permit nodes (setNode (setNode nodes i (newFile type major minor)) dp
        (addEntry (nodes dp) name i))
  | mkdir {dp i : Nat} {name : List UInt8} (parentInside : dp < n) (positive : 0 < i) (inside : i < n)
      (dir : (nodes dp).type = tDir) (free : (nodes i).type = 0)
      (absent : lookup (nodes dp) name = none) (allowed : permit.adds dp) :
      Main n permit nodes (setNode (setNode nodes i (newDir i dp)) dp
        (addEntry (relink (nodes dp) (incr (nodes dp).nlink)) name i))
  | link {dp i : Nat} {name : List UInt8} (parentInside : dp < n) (positive : 0 < i) (inside : i < n)
      (dir : (nodes dp).type = tDir) (typed : (nodes i).type ≠ 0) (file : (nodes i).type ≠ tDir)
      (absent : lookup (nodes dp) name = none) (allowed : permit.adds dp) :
      Main n permit nodes (setNode (setNode nodes i (relink (nodes i) (incr (nodes i).nlink))) dp
        (addEntry (nodes dp) name i))
  | unlink {dp i j : Nat} {name : List UInt8} (parentInside : dp < n) (inside : i < n)
      (dir : (nodes dp).type = tDir) (typed : (nodes i).type ≠ 0) (other : i ≠ dp)
      (notDot : namecmp name dot ≠ 0) (notDotdot : namecmp name dotdot ≠ 0)
      (found : lookup (nodes dp) name = some j) (inum : (slot (nodes dp) j).inum = i)
      (counted : belowOne (nodes i).nlink = false)
      (empty : (nodes i).type = tDir → scan (nodes i) isLive 2 = none)
      (allowed : permit.removes i) :
      Main n permit nodes (setNode (setNode nodes dp (unlinkedParent (nodes dp) (nodes i) j)) i
        (relink (nodes i) (decr (nodes i).nlink)))

/-- Files have other bytes; directories and all other fields are the same. -/
def Wrote (n : Nat) (nodes nodes' : Nat → Node) : Prop :=
  ∀ i, nodes' i = nodes i ∨ (i < n ∧ (nodes i).type ≠ 0 ∧ (nodes i).type ≠ tDir ∧
    ∃ size byte, nodes' i = { nodes i with size := size, byte := byte })

/-- Some inodes without a link are free now. -/
def Frees (n : Nat) (nodes nodes' : Nat → Node) : Prop :=
  ∀ i, nodes' i = nodes i ∨ (i < n ∧ (nodes i).type ≠ 0 ∧ (nodes i).nlink = 0 ∧
    nodes' i = freedNode (nodes i))

/-- What one system call does. -/
def Move (n : Nat) (permit : Permit) (nodes nodes' : Nat → Node) : Prop :=
  ∃ mid, (Wrote n nodes mid ∨ Main n permit nodes mid) ∧ Frees n mid nodes'

section Relations
variable {n : Nat} {permit : Permit} {nodes nodes' nodes'' : Nat → Node}

theorem wrote_refl (n : Nat) (nodes : Nat → Node) : Wrote n nodes nodes := fun _ => Or.inl rfl

theorem frees_refl (n : Nat) (nodes : Nat → Node) : Frees n nodes nodes := fun _ => Or.inl rfl

theorem wrote_trans (first : Wrote n nodes nodes') (second : Wrote n nodes' nodes'') :
    Wrote n nodes nodes'' := by
  intro i
  rcases first i with same | ⟨inside, typed, file, size, byte, changed⟩
  · rcases second i with same' | ⟨inside', typed', file', size', byte', changed'⟩
    · exact Or.inl (same'.trans same)
    · rw [same] at typed' file' changed'
      exact Or.inr ⟨inside', typed', file', size', byte', changed'⟩
  · refine Or.inr ⟨inside, typed, file, ?_⟩
    rcases second i with same' | ⟨_, _, _, size', byte', changed'⟩
    · exact ⟨size, byte, same'.trans changed⟩
    · exact ⟨size', byte', by rw [changed', changed]⟩

theorem frees_trans (first : Frees n nodes nodes') (second : Frees n nodes' nodes'') :
    Frees n nodes nodes'' := by
  intro i
  rcases second i with same | ⟨inside, typed, unlinked, gone⟩
  · rw [same]
    exact first i
  · rcases first i with same' | ⟨_, _, _, gone'⟩
    · rw [same'] at typed unlinked gone
      exact Or.inr ⟨inside, typed, unlinked, gone⟩
    · -- A freed inode has no type left to lose.
      rw [gone'] at typed
      exact absurd rfl typed

theorem move_frees (move : Move n permit nodes nodes') (frees : Frees n nodes' nodes'') :
    Move n permit nodes nodes'' := by
  obtain ⟨mid, change, early⟩ := move
  exact ⟨mid, change, frees_trans early frees⟩

theorem move_of_frees (frees : Frees n nodes nodes') : Move n permit nodes nodes' :=
  ⟨nodes, Or.inl (wrote_refl n nodes), frees⟩

theorem move_of_wrote (wrote : Wrote n nodes nodes') : Move n permit nodes nodes' :=
  ⟨nodes', Or.inl wrote, frees_refl n nodes'⟩

theorem move_refl (n : Nat) (nodes : Nat → Node) : Move n permit nodes nodes :=
  move_of_frees (frees_refl n nodes)

theorem frees_setNode (frees : Frees n nodes nodes') (i : Nat) (node : Node) :
    Frees n (setNode nodes i node) (setNode nodes' i node) := by
  intro j
  by_cases here : j = i
  · rw [here, setNode_at, setNode_at]
    exact Or.inl rfl
  · rw [setNode_other _ _ here, setNode_other _ _ here]
    exact frees j

/-- An allocated inode keeps its type until it is freed. -/
def KeepsTypes (nodes nodes' : Nat → Node) : Prop :=
  ∀ i, (nodes i).type ≠ 0 → (nodes' i).type = (nodes i).type ∨ (nodes' i).type = 0

theorem main_type (main : Main n permit nodes nodes') {i : Nat} (typed : (nodes i).type ≠ 0) :
    (nodes' i).type = (nodes i).type := by
  -- The parent keeps its type, and a new inode was free.
  have step : ∀ {parent j : Nat} {x y : Node}, y.type = (nodes parent).type →
      ((nodes j).type = 0 ∨ x.type = (nodes j).type) →
      (setNode (setNode nodes j x) parent y i).type = (nodes i).type := by
    intro parent j x y above below
    by_cases isParent : i = parent
    · rw [isParent, setNode_at, above]
    · rw [setNode_other _ _ isParent]
      by_cases isChild : i = j
      · rw [isChild, setNode_at]
        rw [isChild] at typed
        exact below.resolve_left typed
      · rw [setNode_other _ _ isChild]
  cases main with
  | create parentInside positive inside dir free typed file absent allowed => exact step rfl (Or.inl free)
  | mkdir parentInside positive inside dir free absent allowed => exact step rfl (Or.inl free)
  | link parentInside positive inside dir typed file absent allowed => exact step rfl (Or.inr rfl)
  | unlink parentInside inside dir typed other notDot notDotdot found inum counted empty allowed =>
    exact step (type_relink _ _) (Or.inr (type_unlinkedParent _ _ _))

theorem wrote_type (wrote : Wrote n nodes nodes') (i : Nat) : (nodes' i).type = (nodes i).type := by
  rcases wrote i with same | ⟨_, _, _, size, byte, changed⟩
  · rw [same]
  · rw [changed]

theorem frees_type (frees : Frees n nodes nodes') (i : Nat) :
    (nodes' i).type = (nodes i).type ∨ (nodes' i).type = 0 := by
  rcases frees i with same | ⟨_, _, _, gone⟩
  · exact Or.inl (by rw [same])
  · exact Or.inr (by rw [gone]; rfl)

theorem move_types (move : Move n permit nodes nodes') : KeepsTypes nodes nodes' := by
  obtain ⟨mid, change, frees⟩ := move
  intro i typed
  have same : (mid i).type = (nodes i).type := by
    rcases change with wrote | main
    · exact wrote_type wrote i
    · exact main_type main typed
  rw [← same]
  exact frees_type frees i

theorem frees_types (frees : Frees n nodes nodes') : KeepsTypes nodes nodes' :=
  fun i _ => frees_type frees i

end Relations

/-! Directories stay well shaped. -/

section Shapes
variable {n : Nat} {permit : Permit} {nodes nodes' : Nat → Node}

theorem shape_relink {node : Node} (shape : DirShape n node) (nlink : Nat) :
    DirShape n (relink node nlink) := by
  refine ⟨shape.aligned, fun j below => ?_⟩
  rw [slot_relink]
  exact shape.inums j below

theorem shape_addEntry {node : Node} {name : List UInt8} {i : Nat} (shape : DirShape n node)
    (inums : n ≤ 2 ^ 16) (inside : i < n) : DirShape n (addEntry node name i) :=
  shape_putSlot shape (length_strncpy name 14) (by simp only; omega) inside (freeSlot_le node)

theorem shape_clearEntry {node : Node} {j : Nat} (shape : DirShape n node) (some : 0 < n)
    (below : j < slotCount node) : DirShape n (clearEntry node j) :=
  shape_putSlot shape rfl (by decide) some (Nat.le_of_lt below)

theorem shape_newDir {i parent : Nat} (inums : n ≤ 2 ^ 16) (inside : i < n) (above : parent < n) :
    DirShape n (newDir i parent) := by
  have empty : DirShape n (newFile tDir 0 0) := ⟨rfl, fun j below => absurd below (Nat.not_lt_zero j)⟩
  exact shape_addEntry (shape_addEntry empty inums inside) inums above

theorem shapes_setNode {i : Nat} {node : Node} (shapes : Shapes n nodes)
    (new : node.type = tDir → DirShape n node) : Shapes n (setNode nodes i node) := by
  intro j inside dir
  by_cases here : j = i
  · rw [here, setNode_at] at dir ⊢
    exact new dir
  · rw [setNode_other _ _ here] at dir ⊢
    exact shapes j inside dir

end Shapes

end Xv6.Moves
