import Xv6.Quiescence

/-! Path names. The components of a path are its parts between slashes, without the empty
ones and cut to DIRSIZ bytes; namei follows them from directory to directory and keeps one
reference, to the inode it returns. -/
namespace Xv6.Paths
open TraceMonad RedoLog Layout Codec Bio Fs Disk DevSpec InodeSpec ContentSpec
open Directory DirSpec Moves Syscall FileSpec Mkfs ImageSpec ImageFiles RunSpec Sessions Quiescence

def components (path : List UInt8) : List (List UInt8) :=
  ((path.splitOnP (· == slash)).filter (!·.isEmpty)).map (List.take dirsiz)

/-- The inode that the name leads to from inode `i`. -/
def follow (nodes : Nat → Node) (i : Nat) (name : List UInt8) : Option Nat :=
  if (nodes i).type = tDir then (lookup (nodes i) name).map fun j => (slot (nodes i) j).inum else none

/-- Where the names lead from inode `i`. -/
def descend (nodes : Nat → Node) : Nat → List (List UInt8) → Option Nat
  | i, [] => some i
  | i, name :: rest => (follow nodes i name).bind (descend nodes · rest)

section Components

theorem components_slash (path : List UInt8) : components (slash :: path) = components path := by
  simp [components, List.splitOnP_cons_eq_if_modifyHead]

theorem components_strip (path : List UInt8) :
    components (path.dropWhile (· == slash)) = components path := by
  induction path with
  | nil => rfl
  | cons c path ih =>
    by_cases isSlash : (c == slash) = true
    · rw [List.dropWhile_cons, if_pos isSlash, ih, beq_iff_eq.mp isSlash, components_slash]
    · rw [List.dropWhile_cons, if_neg isSlash]

/-- The first component of a path that does not start with a slash. -/
theorem components_word {c : UInt8} (plain : (c == slash) = false) (path : List UInt8) :
    components (c :: path) = ((c :: path).takeWhile (· != slash)).take dirsiz ::
      components ((c :: path).dropWhile (· != slash)) := by
  have word : ∀ x ∈ (c :: path).takeWhile (· != slash), (x == slash) = false := fun x member => by
    simpa using List.all_eq_true.mp List.all_takeWhile x member
  have long : (c :: path).takeWhile (· != slash) ≠ [] := by
    rw [List.takeWhile_cons_of_pos (by simpa using plain)]
    exact List.cons_ne_nil c _
  have whole := List.takeWhile_append_dropWhile (p := (· != slash)) (l := c :: path)
  generalize (c :: path).takeWhile (· != slash) = first at word long whole
  cases tail : (c :: path).dropWhile (· != slash) with
  | nil =>
    rw [tail, List.append_nil] at whole
    rw [← whole, components, List.splitOnP_eq_singleton word]
    simp [long, components]
  | cons x after =>
    obtain rfl : x = slash := by
      have stop := List.head?_dropWhile_not (· != slash) (c :: path)
      rw [tail] at stop
      simpa using stop
    rw [tail] at whole
    rw [components_slash, ← whole, components,
      List.splitOnP_append_cons_of_forall_mem word slash (beq_self_eq_true slash)]
    simp [long, components]

theorem skipelem_components (path : List UInt8) :
    components path = match skipelem path with
      | none => []
      | some (name, rest) => name :: components rest := by
  cases strip : path.dropWhile (· == slash) with
  | nil =>
    have none : skipelem path = none := by simp [skipelem, strip]
    rw [none, ← components_strip, strip]
    rfl
  | cons c s =>
    have stop := List.head?_dropWhile_not (· == slash) path
    rw [strip] at stop
    have some : skipelem path = some (((c :: s).takeWhile (· != slash)).take dirsiz,
        ((c :: s).dropWhile (· != slash)).dropWhile (· == slash)) := by simp [skipelem, strip]
    rw [some, ← components_strip path, strip, components_word stop]
    exact congrArg (List.cons _) (components_strip _).symm

end Components

section Walks
variable {nodes : Nat → Node} {i fuel : Nat} {path name : List UInt8}

theorem walk_descends (enough : path.length < fuel) :
    (walk nodes false fuel i path name).map Prod.fst = descend nodes i (components path) := by
  induction fuel generalizing i path name with
  | zero => exact absurd enough (Nat.not_lt_zero _)
  | succ fuel ih =>
    have split := skipelem_components path
    cases found : skipelem path with
    | none =>
      rw [walk, found, split, found]
      rfl
    | some next =>
      obtain ⟨first, rest⟩ := next
      have shorter := skipelem_shorter found
      rw [walk, found, split, found, descend, follow]
      by_cases dir : (nodes i).type = tDir
      · cases hit : lookup (nodes i) first with
        | none => simp [dir, hit]
        | some j =>
          simp only [dir, hit, ne_eq, not_true_eq_false, if_false, if_true, Bool.false_eq_true,
            false_and, Option.map_some, Option.bind_some]
          exact ih (by omega)
      · simp [dir]

end Walks

/-! The kernel's walk. -/

/-- A walk that ends at the inode `target`, or fails where there is none, has taken one
reference to what it returns and kept no lock. -/
structure Reached (before s : State) (target found : Option Nat) : Prop where
  inum : target = found.map fun ip => (s.icache ip).inum
  refs : ∀ jp, (s.icache jp).ref = (before.icache jp).ref + if found = some jp then 1 else 0
  unlocked : ∀ jp, (s.icache jp).busy = false

/-- The inode that a path starts from. -/
def start (s : State) (cwd : Nat) (path : List UInt8) : Nat :=
  if path.head? = some slash then rootino else (s.icache cwd).inum

section Namex
variable {sb : Superblock} {disk : Nat → Block} {nodes : Nat → Node} {calls : List (Nat × Call)}
  {k : Kernel} {cwd : Nat} {path : List UInt8}

/-- namei follows the components of the path; the inode that it returns is the only one
whose reference count differs afterwards. -/
theorem path_followed (consistent : Consistent sb disk nodes)
    (roomy : Roomy (session calls (powerOn disk)).2)
    (done : (session calls (powerOn disk)).1 = .done () k)
    (home : path.head? = some slash ∨ 0 < (k.fs.icache cwd).ref) :
    (∀ r s, (namei cwd path k.fs).1 = .done r s →
      Reached k.fs s (descend (inodesOf k.fs.dev) (start k.fs cwd path) (components path)) r) ∧
    ∀ reason stopped, (namei cwd path k.fs).1 = .halt reason stopped →
      reason = .igetNoInodes ∨ reason = .ilockNoType := by
  obtain ⟨a, inv⟩ := session_kinv consistent roomy done
  have shown := kinv_shown inv
  obtain ⟨h, eff, world⟩ := shown.ready.rep
  have refs := world.cached.refs
  rw [shown.ready.refs] at refs
  rw [refs] at home
  have begins : descend (inodesOf k.fs.dev) (start k.fs cwd path) (components path) =
      (resolve (inodesOf k.fs.dev) (a.inums cwd) path false).map Prod.fst := by
    rw [resolve, walk_descends (Nat.lt_succ_self _), start]
    split
    · rfl
    · rename_i relative
      rw [(world.cached.slot cwd (shown.ready.refs ▸ home.resolve_left relative)).2.1]
  let u : Setting := { setting sb consistent.geometry lenient anything with
    contract := silence fun reason => reason = .igetNoInodes ∨ reason = .ilockNoType }
  have ready : Ready u ∅ (holders k) { a with nodes := inodesOf k.fs.dev } k.fs :=
    ⟨⟨h, eff, world_setting world u rfl⟩, shown.ready.refs, shown.ready.calm, shown.ready.locked,
      shown.ready.clean⟩
  have free : ∀ {a' : Snap} {s : State}, Rep u ∅ a' s →
      Frame (holders k) { a with nodes := inodesOf k.fs.dev } a' → ∀ jp, (s.icache jp).busy = false := by
    rintro a' s ⟨h', eff', world'⟩ frame jp
    rw [world'.cached.busy, frame.locked, shown.ready.locked]
    rfl
  have spec : Ensures u.contract (namei cwd path) k.fs (fun r s => Reached k.fs s
      (descend (inodesOf k.fs.dev) (start k.fs cwd path) (components path)) r) := by
    refine ensures_then (namex_spec ready home room_empty (Or.inl (Or.inr rfl)) (Or.inl rfl)) ?_
    rintro (_ | ⟨ip, name⟩) s walked
    · obtain ⟨target, a', rep, frame, same⟩ := walked
      refine ensures_pure ⟨by rw [begins, target]; rfl, fun jp => ?_, free rep frame⟩
      obtain ⟨h', eff', world'⟩ := rep
      rw [world'.cached.refs, same, refs]
      rfl
    · obtain ⟨a', at_, _, target⟩ := walked
      have held : 0 < a'.refs ip := by
        rw [at_.refs, bump_at]
        exact Nat.succ_pos _
      refine ensures_pure ⟨?_, fun jp => ?_, free at_.rep at_.frame⟩
      · rw [begins, target, Option.map_some, Option.map_some, (rep_inum at_.rep held).2.1]
      · obtain ⟨h', eff', world'⟩ := at_.rep
        rw [world'.cached.refs, at_.refs, refs, bump]
        by_cases here : jp = ip
        · simp [here]
        · simp [here, Ne.symm here]
  exact (silent_outcome spec).2

/-- "//d/." leads to the new directory, with one reference more to it. -/
theorem path_after_mkdir : ∃ k s,
    (session [(0, .mkdir pathD)] (powerOn roomyImage.sect)).1 = .done () k ∧
      (namei 0 [47, 47, 100, 47, 46] k.fs).1 = .done (some 1) s ∧
      Reached k.fs s (descend (inodesOf k.fs.dev) rootino [[100], [46]]) (some 1) := by
  obtain ⟨_, _, consistent⟩ := main_consistent roomyImage_built roomyImage_fits
  have fine : (session [(0, .mkdir pathD)] (powerOn roomyImage.sect)).1.passes (fun k =>
      (namei 0 [47, 47, 100, 47, 46] k.fs).1.returns (some 1)) = true := by decide +kernel
  obtain ⟨_, k, done, walked⟩ := Outcome.passes_iff.mp fine
  obtain ⟨s, ended⟩ := Outcome.returns_iff.mp walked
  exact ⟨k, s, done, ended,
    (path_followed consistent mkdir_roomy done (Or.inl rfl)).1 _ s ended⟩

end Namex

end Xv6.Paths
