import Xv6.ContentSpec
import Xv6.Directory

/-! Specifications of the directory and path functions of kernel/fs.c: the loops
compute the functions of `Directory`, and a path walk keeps every inode that was
held before it. -/
namespace Xv6.DirSpec
open TraceMonad Layout Codec Bio Fs Disk DevSpec InodeSpec ContentSpec Directory

section Scan
variable {t : Setting} {F : Set Nat} {a : Snap} {s : State} {dp n : Nat}

theorem rep_small (rep : Rep t F a s) (mine : dp ∈ a.locked) : (a.node dp).size ≤ 71680 := by
  obtain ⟨h, eff, world⟩ := rep
  have inside := core_mine world.toCore mine
  have node : a.node dp = nodeOf h (eff (a.inums dp)) := world.nodes _ inside
  rw [node]
  exact world.blocks.small _ inside

theorem rep_held (rep : Rep t F a s) : ∀ k ∈ a.locked, 0 < a.refs k := by
  obtain ⟨h, eff, world⟩ := rep
  exact fun k member => (world.cached.locked k member).1

theorem readDirent_spec {off : Nat} {failed : Halt} (rep : Rep t F a s) (mine : dp ∈ a.locked)
    (room : Room t F 0) (file : (a.node dp).type ≠ tDev) (inside : off + 16 ≤ (a.node dp).size) :
    Ensures t.contract (readDirent dp off failed) s (fun de s' =>
      de = decodeDirent (readBytes (a.node dp) off 16) ∧ Rep t F a s') := by
  have small := rep_small rep mine
  have word : u32 (off + 16) = off + 16 := Nat.mod_eq_of_lt (by omega)
  refine ensures_then (readi_spec rep mine room (show 16 < 2 ^ 32 by decide)) ?_
  rintro _ s₁ ⟨rfl, rep₁⟩
  simp only [direntSize]
  rw [readValue_file file (by omega) (by omega), word, if_neg (by omega)]
  simp only [length_readBytes, ↓reduceIte]
  exact ensures_pure ⟨rfl, rep₁⟩

theorem scanDir_spec {fuel m : Nat} {failed : Halt} {wanted : Dirent → Bool} (rep : Rep t F a s)
    (mine : dp ∈ a.locked) (room : Room t F 0) (file : (a.node dp).type ≠ tDev)
    (aligned : (a.node dp).size % 16 = 0) (enough : slotCount (a.node dp) ≤ m + fuel) :
    Ensures t.contract (scanDir dp failed wanted fuel (16 * m)) s (fun r s' =>
      r = (scan (a.node dp) wanted m).map (fun j => (16 * j, slot (a.node dp) j)) ∧ Rep t F a s') := by
  induction fuel generalizing m s with
  | zero =>
    refine ensures_pure ⟨?_, rep⟩
    rw [scan_end (by omega)]
    rfl
  | succ fuel ih =>
    rw [scanDir]
    apply ensures_inspect_then
    rw [(rep_shows rep mine).1.size]
    by_cases more : m < slotCount (a.node dp)
    · have inside : 16 * m + 16 ≤ (a.node dp).size := by
        unfold slotCount at more
        omega
      rw [if_pos (by omega)]
      refine ensures_then (readDirent_spec rep mine room file inside) ?_
      rintro _ s₁ ⟨rfl, rep₁⟩
      rw [scan_step more]
      by_cases hit : wanted (slot (a.node dp) m) = true
      · rw [if_pos hit, if_pos (by exact hit)]
        exact ensures_pure ⟨rfl, rep₁⟩
      · rw [if_neg hit, if_neg (by exact hit)]
        exact ih (m := m + 1) rep₁ (by omega)
    · rw [if_neg (by unfold slotCount at more; omega), scan_end (by omega)]
      exact ensures_pure ⟨rfl, rep⟩

theorem slots_aligned {size : Nat} (aligned : size % 16 = 0) : slots size = size / 16 := by
  unfold slots
  omega

theorem dirlookup_spec {name : List UInt8} (rep : Rep t F a s) (mine : dp ∈ a.locked)
    (room : Room t F 0) (dir : (a.node dp).type = tDir) (shape : DirShape t.sb.ninodes (a.node dp))
    (full : t.contract.halts .igetNoInodes) :
    Ensures t.contract (dirlookup dp name) s (fun r s' =>
      match lookup (a.node dp) name with
      | none => r = none ∧ Rep t F a s'
      | some j => ∃ ip a', r = some (ip, 16 * j) ∧ Rep t F a' s' ∧ Frame a.refs a a' ∧
          a'.refs = bump a.refs ip ∧ a'.inums ip = (slot (a.node dp) j).inum ∧
          (a.refs ip = 0 → ip ∉ a'.loaded)) := by
  have shows := (rep_shows rep mine).1
  apply ensures_inspect_then
  rw [shows.type, if_neg (not_not.mpr dir), shows.size, slots_aligned shape.aligned]
  have file : (a.node dp).type ≠ tDev := by
    rw [dir]
    decide
  refine ensures_then (scanDir_spec (m := 0) rep mine room file shape.aligned
    (by rw [slotCount]; omega)) ?_
  rintro _ s₁ ⟨rfl, rep₁⟩
  have same : scan (a.node dp) (fun de => de.inum != 0 && namecmp name de.name == 0) 0 =
      lookup (a.node dp) name := rfl
  rw [same]
  cases found : lookup (a.node dp) name with
  | none => exact ensures_pure ⟨rfl, rep₁⟩
  | some j =>
    obtain ⟨_, below, hit, _⟩ := scan_some found
    have positive : 0 < (slot (a.node dp) j).inum := by
      simp only [named, Bool.and_eq_true, bne_iff_ne] at hit
      omega
    refine ensures_then (iget_spec rep₁ positive (shape.inums j below) full) ?_
    rintro ip s₂ ⟨a', rep', frame, refs, inum, cold⟩
    exact ensures_pure ⟨ip, a', rfl, rep', frame, refs, inum, cold⟩

theorem touched_slot (j : Nat) : (touched (16 * j) 16).card ≤ 2 := by
  have card := touched_card (16 * j) 16
  have blocks : (16 * j + 16 + 511) / 512 - 16 * j / 512 ≤ 1 := by omega
  split at card <;> omega

theorem touched_low {j : Nat} (low : j < 384) : (touched (16 * j) 16).card ≤ 1 := by
  have card := touched_card (16 * j) 16
  have blocks : (16 * j + 16 + 511) / 512 - 16 * j / 512 ≤ 1 := by omega
  split at card <;> omega

theorem dirlink_spec {name : List UInt8} {inum c : Nat} (writes : Writes t) (relies : Relies t)
    (rep : Rep t F a s) (mine : dp ∈ a.locked) (fresh : a.inums dp ∉ a.stale)
    (dir : (a.node dp).type = tDir) (shape : DirShape t.sb.ninodes (a.node dp))
    (bitmaps : Bitmaps t F) (writable : Writable t a.trans) (footprint : iblock (a.inums dp) ∈ F)
    (cost : (touched (16 * freeSlot (a.node dp)) 16).card ≤ c) (room : Room t F (n + c))
    (full : t.contract.halts .igetNoInodes) (noRoom : t.contract.halts .dirlink) :
    Ensures t.contract (dirlink dp name inum) s (fun r s' =>
      match lookup (a.node dp) name with
      | some _ => r = false ∧ ∃ a', Rep t F a' s' ∧ Frame a.refs a a' ∧ a'.refs = a.refs
      | none => r = true ∧ 16 * freeSlot (a.node dp) + 16 ≤ 71680 ∧ ∃ F', F ⊆ F' ∧ Room t F' n ∧
          Rep t F' (putNode a (a.inums dp) (addEntry (a.node dp) name inum)) s') := by
  refine ensures_then (dirlookup_spec rep mine (room_less room (Nat.zero_le _)) dir shape full) ?_
  intro r s₁ looked
  cases found : lookup (a.node dp) name with
  | some j =>
    rw [found] at looked
    obtain ⟨ip, a₁, rfl, rep₁, frame₁, refs₁, _, cold⟩ := looked
    have count : a₁.refs ip = a.refs ip + 1 := by rw [refs₁, bump_at]
    refine ensures_then (iput_keep_spec rep₁ (by omega) ?_ ?_) ?_
    · intro locked
      rw [frame₁.locked] at locked
      have := rep_held rep ip locked
      omega
    · intro one ready
      exact absurd ready (cold (by omega))
    · intro _ s₂ rep₂
      refine ensures_pure ⟨rfl, _, rep₂, ⟨frame₁.nodes, frame₁.locked, frame₁.stale, frame₁.trans,
        frame₁.console, frame₁.inums, frame₁.loaded⟩, ?_⟩
      rw [Snap.drop_refs, refs₁, drop_bump]
  | none =>
    rw [found] at looked
    obtain ⟨rfl, rep₁⟩ := looked
    have file : (a.node dp).type ≠ tDev := by
      rw [dir]
      decide
    apply ensures_inspect_then
    rw [(rep_shows rep₁ mine).1.size, slots_aligned shape.aligned]
    refine ensures_then (scanDir_spec (m := 0) rep₁ mine (room_less room (Nat.zero_le _)) file
      shape.aligned (by rw [slotCount]; omega)) ?_
    rintro _ s₂ ⟨rfl, rep₂⟩
    have width : (encodeDirent ⟨inum, strncpy name dirsiz⟩).length = 16 :=
      length_encodeDirent (length_strncpy name 14)
    have within := freeSlot_le (a.node dp)
    have small := rep_small rep₂ mine
    unfold slotCount at within
    have write : ∀ off, off = 16 * freeSlot (a.node dp) → Ensures t.contract (do
        let wrote ← writei dp (encodeDirent ⟨inum, strncpy name dirsiz⟩) off
        if wrote = some direntSize then return true else halt .dirlink) s₂ (fun r s' =>
          r = true ∧ 16 * freeSlot (a.node dp) + 16 ≤ 71680 ∧ ∃ F', F ⊆ F' ∧ Room t F' n ∧
            Rep t F' (putNode a (a.inums dp) (addEntry (a.node dp) name inum)) s') := by
      rintro _ rfl
      by_cases fits : 16 * freeSlot (a.node dp) + 16 ≤ 71680
      · refine ensures_then (writei_spec (n := n) writes relies rep₂ mine fresh (by rw [dir]; decide)
          file bitmaps writable footprint (by omega) (by omega)
          (room_less room (by rw [width]; omega))) ?_
        rintro _ s₃ ⟨rfl, F', more, room', rep₃⟩
        rw [width, direntSize, if_pos rfl]
        exact ensures_pure ⟨rfl, fits, F', more, room', rep₃⟩
      · have word : u32 (16 * freeSlot (a.node dp) + 16) = 16 * freeSlot (a.node dp) + 16 :=
          Nat.mod_eq_of_lt (by omega)
        refine ensures_quiet_then (writei_refused rep₂ mine file (Or.inr (Or.inr ?_))) ?_
        · rw [width, word]
          omega
        · rw [if_neg (by simp)]
          exact ensures_halt noRoom
    -- The scan for a free slot and its fallback together compute `freeSlot`.
    rw [show scan (a.node dp) (fun de => de.inum == 0) 0 = scan (a.node dp) isFree 0 from rfl]
    cases free : scan (a.node dp) isFree 0 with
    | none => exact write _ (by rw [freeSlot, free]; rfl)
    | some j => exact write _ (by rw [freeSlot, free]; rfl)

end Scan

/-! Path walks. -/

/-- `R` counts the references that outlive the walk. An unlinked inode is held by
one of them in a slot that has read it, so a walk never drops the last reference
to it. -/
structure Calm (n : Nat) (R : Nat → Nat) (a : Snap) : Prop where
  live : ∀ k, 0 < R k → (a.node k).type ≠ 0
  anchored : ∀ i < n, (a.nodes i).type ≠ 0 → (a.nodes i).nlink = 0 →
    ∃ k, 0 < R k ∧ a.inums k = i ∧ k ∈ a.loaded
  shape : Shapes n a.nodes

/-- Every live entry of a directory names an allocated inode. -/
def Closed (n : Nat) (nodes : Nat → Node) : Prop :=
  ∀ i < n, (nodes i).type = tDir → ∀ j < slotCount (nodes i), (slot (nodes i) j).inum ≠ 0 →
    (nodes (slot (nodes i) j).inum).type ≠ 0

/-- ilock's panic is tolerated, or the directories rule it out. -/
def Typed (t : Setting) (nodes : Nat → Node) : Prop :=
  t.contract.halts .ilockNoType ∨ ((nodes rootino).type ≠ 0 ∧ Closed t.sb.ninodes nodes)

/-- A walk that started from `a` stands at slot `ip`, with one reference to it. -/
structure At (t : Setting) (F : Set Nat) (R : Nat → Nat) (a : Snap) (ip : Nat) (a' : Snap)
    (s : State) : Prop where
  rep : Rep t F a' s
  frame : Frame R a a'
  refs : a'.refs = bump R ip
  ready : ip ∈ a'.loaded → (a'.node ip).type ≠ 0
  typed : t.contract.halts .ilockNoType ∨ (a'.node ip).type ≠ 0

/-- The result of a walk that started from `a`, where the inodes lead to `target`. -/
def Walked (t : Setting) (F : Set Nat) (R : Nat → Nat) (a : Snap) (parent : Bool)
    (target : Option (Nat × List UInt8)) : Option (Nat × List UInt8) → State → Prop
  | none, s => target = none ∧ ∃ a', Rep t F a' s ∧ Frame R a a' ∧ a'.refs = R
  | some (ip, name), s => ∃ a', At t F R a ip a' s ∧ (parent = true → (a'.node ip).type = tDir) ∧
      target = some (a'.inums ip, name)

section Walk
variable {t : Setting} {F : Set Nat} {R : Nat → Nat} {a a' : Snap} {s : State} {ip : Nat}

theorem frame_node {k : Nat} (frame : Frame R a a') (held : 0 < R k) : a'.node k = a.node k := by
  rw [Snap.node, frame.nodes, frame.inums k held, Snap.node]

theorem calm_frame {n : Nat} (calm : Calm n R a) (frame : Frame R a a') : Calm n R a' := by
  refine ⟨fun k held => ?_, fun i bound typed unlinked => ?_, fun i bound dir => ?_⟩
  · rw [frame_node frame held]
    exact calm.live k held
  · rw [frame.nodes] at typed unlinked
    obtain ⟨k, held, same, ready⟩ := calm.anchored i bound typed unlinked
    exact ⟨k, held, (frame.inums k held).trans same, frame.loaded k held ready⟩
  · rw [frame.nodes] at dir ⊢
    exact calm.shape i bound dir

theorem calm_lock {n : Nat} (calm : Calm n R a) : Calm n R (a.lock ip) := by
  refine ⟨calm.live, fun i bound typed unlinked => ?_, calm.shape⟩
  obtain ⟨k, held, same, ready⟩ := calm.anchored i bound typed unlinked
  exact ⟨k, held, same, Set.mem_insert_of_mem ip ready⟩

theorem rep_unique (rep : Rep t F a s) {k l : Nat} (left : 0 < a.refs k) (right : 0 < a.refs l)
    (same : a.inums k = a.inums l) : k = l := by
  obtain ⟨h, eff, world⟩ := rep
  exact world.cached.unique k l left right same

theorem calm_nlink (rep : Rep t F a s) (calm : Calm t.sb.ninodes R a) (below : ∀ k, R k ≤ a.refs k)
    (extra : R ip < a.refs ip) (typed : (a.node ip).type ≠ 0) (one : a.refs ip = 1) :
    (a.node ip).nlink ≠ 0 := by
  intro unlinked
  obtain ⟨_, _, _, inside⟩ := rep_inum rep (show 0 < a.refs ip by omega)
  obtain ⟨k, held, same, _⟩ := calm.anchored _ inside typed unlinked
  have here : k = ip := rep_unique rep (lt_of_lt_of_le held (below k)) (by omega) same
  rw [here] at held
  omega

theorem iunlockput_walk (rep : Rep t F a s) (calm : Calm t.sb.ninodes R a) (mine : ip ∈ a.locked)
    (below : ∀ k, R k ≤ a.refs k) (extra : R ip < a.refs ip) (typed : (a.node ip).type ≠ 0) :
    Ensures t.contract (iunlockput ip) s (fun _ s' => Rep t F ((a.unlock ip).drop ip) s') := by
  refine ensures_then (iunlock_spec rep mine) ?_
  intro _ s₁ rep₁
  refine iput_keep_spec rep₁ (show 0 < a.refs ip by omega) ?_ ?_
  · intro locked
    exact absurd locked (Finset.notMem_erase ip a.locked)
  · intro one _
    rw [Snap.unlock_node]
    exact calm_nlink rep calm below extra typed one

theorem skipelem_shorter {path name rest : List UInt8} (found : skipelem path = some (name, rest)) :
    rest.length < path.length := by
  simp only [skipelem] at found
  split at found
  · exact absurd found (by simp)
  · rename_i some
    obtain ⟨_, rfl⟩ := Prod.mk.inj (Option.some.inj found)
    have whole := (List.dropWhile_suffix (l := path) (· == slash)).length_le
    cases elems : path.dropWhile (· == slash) with
    | nil =>
      rw [elems] at some
      exact absurd rfl some
    | cons first tail =>
      -- The first byte of an element is not a slash, so the element consumes it.
      have notSlash : (first != slash) = true := by
        have := List.head?_dropWhile_not (· == slash) path
        rw [elems] at this
        simpa using this
      rw [elems] at whole
      rw [List.dropWhile_cons_of_pos (p := fun x => x != slash) notSlash]
      have first' := (List.dropWhile_suffix (l := tail) (· != slash)).length_le
      have second := (List.dropWhile_suffix (l := tail.dropWhile (· != slash)) (· == slash)).length_le
      simp only [List.length_cons] at whole
      omega

theorem at_touched {a₀ : Snap} (here : At t F R a₀ ip a s) (free : ip ∉ a.locked)
    (typed : (a.node ip).type ≠ 0) {s' : State} (rep : Rep t F ((a.lock ip).unlock ip) s') :
    At t F R a₀ ip ((a.lock ip).unlock ip) s' := by
  have frame := here.frame
  refine ⟨rep, ⟨frame.nodes, ?_, frame.stale, frame.trans, frame.console, frame.inums, ?_⟩, here.refs,
    fun _ => typed, Or.inr typed⟩
  · rw [Snap.lock_unlock_locked free, frame.locked]
  · exact fun k held member => Set.mem_insert_of_mem ip (frame.loaded k held member)

theorem frame_dropped {a₀ : Snap} (frame : Frame R a₀ a) : Frame R a₀ (a.drop ip) :=
  ⟨frame.nodes, frame.locked, frame.stale, frame.trans, frame.console, frame.inums, frame.loaded⟩

theorem at_end {a₀ : Snap} (here : At t F R a₀ ip a s) : (a.drop ip).refs = R := by
  rw [Snap.drop_refs, here.refs, drop_bump]

theorem at_inside {a₀ : Snap} (here : At t F R a₀ ip a s) :
    (∀ k, R k ≤ a.refs k) ∧ R ip < a.refs ip := by
  rw [here.refs]
  exact ⟨fun k => le_bump R k ip, by rw [bump_at]; omega⟩

theorem at_next {a₀ a₂ : Snap} {next j : Nat} {s₃ : State} (here : At t F R a₀ ip a s)
    (calm : Calm t.sb.ninodes R a₀) (closed : Typed t a₀.nodes) (free : ip ∉ a.locked)
    (dir : (a.node ip).type = tDir)
    (frame : Frame (a.lock ip).refs (a.lock ip) a₂)
    (refs : a₂.refs = bump (a.lock ip).refs next)
    (below : j < slotCount (a.node ip)) (live : (slot (a.node ip) j).inum ≠ 0)
    (inum : a₂.inums next = (slot (a.node ip) j).inum)
    (cold : (a.lock ip).refs next = 0 → next ∉ a₂.loaded)
    (rep₃ : Rep t F ((a₂.unlock ip).drop ip) s₃) :
    At t F R a₀ next ((a₂.unlock ip).drop ip) s₃ := by
  have held : 0 < a.refs ip := by
    rw [here.refs, bump_at]
    omega
  have base : ∀ k, 0 < R k → 0 < a.refs k := fun k some =>
    lt_of_lt_of_le some ((at_inside here).1 k)
  have nodes : a₂.nodes = a₀.nodes := frame.nodes.trans here.frame.nodes
  have framed : Frame R a₀ ((a₂.unlock ip).drop ip) := by
    refine ⟨nodes, ?_, frame.stale.trans here.frame.stale, frame.trans.trans here.frame.trans,
      frame.console.trans here.frame.console, ?_, ?_⟩
    · change a₂.locked.erase ip = _
      rw [frame.locked, Snap.lock, Finset.erase_insert free, here.frame.locked]
    · exact fun k some => (frame.inums k (base k some)).trans (here.frame.inums k some)
    · intro k some member
      exact frame.loaded k (base k some)
        (Set.mem_insert_of_mem ip (here.frame.loaded k some member))
  have typedDir : (a.node ip).type ≠ 0 := by
    rw [dir]
    decide
  refine ⟨rep₃, framed, ?_, ?_, ?_⟩
  · change drop a₂.refs ip = _
    rw [refs]
    change drop (bump a.refs next) ip = _
    rw [here.refs, drop_bump_bump]
  · intro ready
    by_cases same : next = ip
    · have kept : a₂.inums ip = a.inums ip := frame.inums ip held
      change (a₂.nodes (a₂.inums next)).type ≠ 0
      rw [same, kept, frame.nodes]
      exact typedDir
    · by_cases old : 0 < R next
      · rw [frame_node framed old]
        exact calm.live next old
      · refine absurd ready (cold ?_)
        change a.refs next = 0
        rw [here.refs, bump_other _ same]
        omega
  · refine closed.imp_right fun all => ?_
    change (a₂.nodes (a₂.inums next)).type ≠ 0
    obtain ⟨_, _, _, inside⟩ := rep_inum here.rep held
    have sameNode : a.node ip = a₀.nodes (a.inums ip) := by rw [Snap.node, here.frame.nodes]
    rw [nodes, inum]
    rw [sameNode] at dir below live ⊢
    exact all.2 _ inside dir j below live

theorem namexLoop_spec {a₀ : Snap} {fuel : Nat} {path name : List UInt8} {parent : Bool}
    (here : At t F R a₀ ip a s) (calm : Calm t.sb.ninodes R a₀) (locked : a₀.locked = ∅)
    (clean : a₀.stale = ∅) (room : Room t F 0) (closed : Typed t a₀.nodes)
    (full : t.contract.halts .igetNoInodes) (enough : path.length < fuel) :
    Ensures t.contract (namexLoop parent fuel ip path name) s
      (Walked t F R a₀ parent (walk a₀.nodes parent fuel (a.inums ip) path name)) := by
  induction fuel generalizing ip a s path name with
  | zero => exact absurd enough (Nat.not_lt_zero _)
  | succ fuel ih =>
    have held : 0 < a.refs ip := by
      rw [here.refs, bump_at]
      omega
    have free : ip ∉ a.locked := by
      rw [here.frame.locked, locked]
      exact Finset.notMem_empty ip
    have calmHere := calm_frame calm here.frame
    obtain ⟨below, extra⟩ := at_inside here
    have node : a₀.nodes (a.inums ip) = a.node ip := by rw [Snap.node, here.frame.nodes]
    rw [namexLoop, walk]
    cases elem : skipelem path with
    | none =>
      cases parent with
      | true =>
        refine ensures_then (iput_keep_spec here.rep held (fun member => absurd member free)
          fun one ready => calm_nlink here.rep calmHere below extra (here.ready ready) one) ?_
        intro _ s₁ rep₁
        exact ensures_pure ⟨rfl, _, rep₁, frame_dropped here.frame, at_end here⟩
      | false => exact ensures_pure ⟨a, here, fun wrong => Bool.noConfusion wrong, rfl⟩
    | some pair =>
      obtain ⟨name', rest⟩ := pair
      have shorter := skipelem_shorter elem
      have fresh : a.inums ip ∉ a.stale := by
        rw [here.frame.stale, clean]
        exact Finset.notMem_empty _
      refine ensures_then (ilock_spec here.rep room held fresh (Or.inl free) here.typed.symm) ?_
      rintro _ s₁ ⟨rep₁, _, typedCold⟩
      have typed : (a.node ip).type ≠ 0 := by
        by_cases ready : ip ∈ a.loaded
        · exact here.ready ready
        · exact typedCold ready
      have mine : ip ∈ (a.lock ip).locked := Finset.mem_insert_self ip a.locked
      have calmLocked : Calm t.sb.ninodes R (a.lock ip) := calm_lock calmHere
      -- Every way out that gives up does so through this.
      have leave : ∀ s, Rep t F (a.lock ip) s → Ensures t.contract
          (do iunlockput ip; return (none : Option (Nat × List UInt8))) s
            (Walked t F R a₀ parent none) := by
        intro s rep
        refine ensures_then (iunlockput_walk rep calmLocked mine below extra typed) ?_
        intro _ s' rep'
        have frame := here.frame
        refine ensures_pure ⟨rfl, _, rep', ⟨frame.nodes, ?_, frame.stale, frame.trans,
          frame.console, frame.inums, ?_⟩, ?_⟩
        · exact (Snap.lock_unlock_locked free).trans frame.locked
        · exact fun k some member => Set.mem_insert_of_mem ip (frame.loaded k some member)
        · change drop a.refs ip = R
          rw [here.refs, drop_bump]
      apply ensures_inspect_then
      rw [(rep_shows rep₁ mine).1.type, Snap.lock_node]
      simp only [node]
      by_cases dir : (a.node ip).type = tDir
      · rw [if_neg (not_not.mpr dir), if_neg (not_not.mpr dir)]
        by_cases stop : parent = true ∧ rest.isEmpty = true
        · rw [if_pos stop, if_pos stop]
          refine ensures_then (iunlock_spec rep₁ mine) ?_
          intro _ s₂ rep₂
          exact ensures_pure ⟨_, at_touched here free typed rep₂, fun _ => dir, rfl⟩
        · rw [if_neg stop, if_neg stop]
          obtain ⟨_, _, _, inside⟩ := rep_inum here.rep held
          refine ensures_then (dirlookup_spec rep₁ mine room dir (calmHere.shape _ inside dir)
            full) ?_
          intro r s₂ looked
          rw [Snap.lock_node] at looked
          cases found : lookup (a.node ip) name' with
          | none =>
            rw [found] at looked
            obtain ⟨rfl, rep₂⟩ := looked
            exact leave s₂ rep₂
          | some j =>
            rw [found] at looked
            obtain ⟨next, a₂, rfl, rep₂, frame₂, refs₂, inum, cold⟩ := looked
            obtain ⟨_, inRange, hit, _⟩ := scan_some found
            have live : (slot (a.node ip) j).inum ≠ 0 := by
              simp only [named, Bool.and_eq_true, bne_iff_ne] at hit
              exact hit.1
            have node₂ : a₂.node ip = a.node ip := by rw [frame_node frame₂ held, Snap.lock_node]
            have count : a₂.refs ip = bump a.refs next ip := by rw [refs₂]; rfl
            have more := le_bump a.refs ip next
            have calm₂ : Calm t.sb.ninodes R a₂ := by
              refine calm_frame calmLocked (frame_weaken frame₂ fun k some => ?_)
              exact lt_of_lt_of_le some (below k)
            refine ensures_then (iunlockput_walk rep₂ calm₂ (by rw [frame₂.locked]; exact mine)
              (fun k => (below k).trans (by rw [refs₂]; exact le_bump a.refs k next)) (by omega)
              (by rw [node₂]; exact typed)) ?_
            intro _ s₃ rep₃
            have start : ((a₂.unlock ip).drop ip).inums next = (slot (a.node ip) j).inum := inum
            change Ensures _ _ _ (Walked _ _ _ _ _ (walk _ _ _ (slot (a.node ip) j).inum _ _))
            rw [← start]
            exact ih (at_next here calm closed free dir frame₂ refs₂ inRange live inum cold
              rep₃) (by omega)
      · rw [if_pos dir, if_pos dir]
        exact leave s₁ rep₁

/-- A call that may start a walk: its references are `R`, and nothing is locked. -/
structure Ready (t : Setting) (F : Set Nat) (R : Nat → Nat) (a : Snap) (s : State) : Prop where
  rep : Rep t F a s
  refs : a.refs = R
  calm : Calm t.sb.ninodes R a
  locked : a.locked = ∅
  clean : a.stale = ∅

theorem namex_spec {cwd : Nat} {path : List UInt8} {parent : Bool} (ready : Ready t F R a s)
    (home : path.head? = some slash ∨ 0 < R cwd) (room : Room t F 0) (closed : Typed t a.nodes)
    (full : t.contract.halts .igetNoInodes) :
    Ensures t.contract (namex cwd path parent) s
      (Walked t F R a parent (resolve a.nodes (a.inums cwd) path parent)) := by
  obtain ⟨rep, rfl, calm, locked, clean⟩ := ready
  have start : Ensures t.contract (namexStart cwd path) s (fun ip s' => ∃ a', At t F a.refs a ip a' s' ∧
      a'.inums ip = if path.head? = some slash then rootino else a.inums cwd) := by
    unfold namexStart
    by_cases absolute : path.head? = some slash
    · rw [if_pos absolute]
      have root := t.geometry.root
      refine ensures_weaken (iget_spec rep (show 0 < rootino by decide) root full) ?_
      rintro ip s' ⟨a', rep', frame, refs, inum, cold⟩
      refine ⟨a', ⟨rep', frame, refs, fun loaded => ?_, closed.imp_right fun all => ?_⟩,
        inum.trans (if_pos absolute).symm⟩
      · by_cases held : 0 < a.refs ip
        · rw [frame_node frame held]
          exact calm.live ip held
        · exact absurd loaded (cold (by omega))
      · rw [Snap.node, inum, frame.nodes]
        exact all.1
    · rw [if_neg absolute]
      have held := home.resolve_left absolute
      refine ensures_weaken (idup_spec rep held) ?_
      rintro _ s' ⟨rfl, rep'⟩
      have live := calm.live _ held
      exact ⟨_, ⟨rep', ⟨rfl, rfl, rfl, rfl, rfl, fun _ _ => rfl, fun _ _ => id⟩, rfl, fun _ => live,
        Or.inr live⟩, (if_neg absolute).symm⟩
  refine ensures_then start ?_
  rintro ip s₁ ⟨a₁, here, inum⟩
  rw [resolve, ← inum]
  exact namexLoop_spec here calm locked clean room closed full (by omega)

theorem namei_spec {cwd : Nat} {path : List UInt8} (ready : Ready t F R a s)
    (home : path.head? = some slash ∨ 0 < R cwd) (room : Room t F 0) (closed : Typed t a.nodes)
    (full : t.contract.halts .igetNoInodes) :
    Ensures t.contract (namei cwd path) s (fun r s' =>
      match r with
      | none => ∃ a', Rep t F a' s' ∧ Frame R a a' ∧ a'.refs = R
      | some ip => ∃ a', At t F R a ip a' s') := by
  refine ensures_then (namex_spec ready home room closed full) ?_
  rintro (_ | ⟨ip, name⟩) s' found
  · exact ensures_pure found.2
  · obtain ⟨a', here, _⟩ := found
    exact ensures_pure ⟨a', here⟩

theorem nameiparent_spec {cwd : Nat} {path : List UInt8} (ready : Ready t F R a s)
    (home : path.head? = some slash ∨ 0 < R cwd) (room : Room t F 0) (closed : Typed t a.nodes)
    (full : t.contract.halts .igetNoInodes) :
    Ensures t.contract (nameiparent cwd path) s (fun r s' =>
      match r with
      | none => ∃ a', Rep t F a' s' ∧ Frame R a a' ∧ a'.refs = R
      | some (dp, name) => ∃ a', At t F R a dp a' s' ∧ (a'.node dp).type = tDir ∧
          resolve a.nodes (a.inums cwd) path true = some (a'.inums dp, name)) := by
  refine ensures_weaken (namex_spec ready home room closed full) ?_
  rintro (_ | ⟨dp, name⟩) s' found
  · exact found.2
  · obtain ⟨a', here, dir, target⟩ := found
    exact ⟨a', here, dir rfl, target⟩

end Walk

/-! isdirempty. -/

section Empty
variable {t : Setting} {F : Set Nat} {a : Snap} {s : State} {dp : Nat}

/-- No live entry from slot 2 on. -/
def emptyDir (node : Node) : Bool := (scan node isLive 2).isNone

theorem isdirempty_spec (rep : Rep t F a s) (mine : dp ∈ a.locked) (room : Room t F 0)
    (dir : (a.node dp).type = tDir) (shape : DirShape t.sb.ninodes (a.node dp)) :
    Ensures t.contract (isdirempty dp) s (fun r s' => r = emptyDir (a.node dp) ∧ Rep t F a s') := by
  have file : (a.node dp).type ≠ tDev := by
    rw [dir]
    decide
  apply ensures_inspect_then
  rw [(rep_shows rep mine).1.size, isdiremptyScan, slots_aligned shape.aligned]
  refine ensures_then (scanDir_spec (m := 2) rep mine room file shape.aligned
    (by rw [slotCount]; omega)) ?_
  rintro _ s₁ ⟨rfl, rep₁⟩
  rw [show scan (a.node dp) (fun de => de.inum != 0) 2 = scan (a.node dp) isLive 2 from rfl]
  cases found : scan (a.node dp) isLive 2 with
  | none => exact ensures_pure ⟨by simp [emptyDir, found], rep₁⟩
  | some j => exact ensures_pure ⟨by simp [emptyDir, found], rep₁⟩

theorem inUse_spec (rep : Rep t F a s) (mine : dp ∈ a.locked) (room : Room t F 0)
    (shape : (a.node dp).type = tDir → DirShape t.sb.ninodes (a.node dp)) :
    Ensures t.contract (inUse dp) s (fun r s' =>
      (r = true ↔ (a.node dp).type = tDir ∧ emptyDir (a.node dp) = false) ∧ Rep t F a s') := by
  apply ensures_inspect_then
  rw [(rep_shows rep mine).1.type]
  by_cases dir : (a.node dp).type = tDir
  · rw [if_pos dir]
    refine ensures_then (isdirempty_spec rep mine room dir (shape dir)) ?_
    rintro _ s₁ ⟨rfl, rep₁⟩
    exact ensures_pure ⟨by simp [dir], rep₁⟩
  · rw [if_neg dir]
    exact ensures_pure ⟨by simp [dir], rep⟩

end Empty

end Xv6.DirSpec
