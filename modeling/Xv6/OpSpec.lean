import Xv6.DirSpec
import Xv6.InodeLife
import Xv6.Moves

/-! Specifications of the directory operations: link, unlink, create and open. A
call works on references of its own beside the references `R` that it found;
`Busy` is what holds at every point of it between two steps that belong
together, and each step of the calls is a rule for `Busy`. -/
namespace Xv6.OpSpec
open TraceMonad Layout Codec Bio Fs Disk DevSpec InodeSpec ContentSpec InodeLife Directory DirSpec Moves

/-- Slots with references of `R` keep their inode. -/
structure Kept (R : Nat → Nat) (a a' : Snap) : Prop where
  inums : ∀ k, 0 < R k → a'.inums k = a.inums k
  loaded : ∀ k, 0 < R k → k ∈ a.loaded → k ∈ a'.loaded
  console : a'.console = a.console

structure Busy (t : Setting) (F : Set Nat) (R : Nat → Nat) (a₀ a : Snap) (s : State) : Prop where
  rep : Rep t F a s
  live : ∀ k, 0 < a.refs k → k ∈ a.loaded → (a.node k).type ≠ 0
  anchored : ∀ i < t.sb.ninodes, (a.nodes i).type ≠ 0 → (a.nodes i).nlink = 0 →
    ∃ k, 0 < a.refs k ∧ a.inums k = i ∧ k ∈ a.loaded
  shapes : Shapes t.sb.ninodes a.nodes
  base : ∀ k, 0 < R k → (a.node k).type ≠ 0
  below : ∀ k, R k ≤ a.refs k
  kept : Kept R a₀ a
  clean : a.stale = ∅

/-- The effect of iput: the inode may have been freed. -/
structure Put (n : Nat) (a : Snap) (ip : Nat) (a' : Snap) : Prop where
  refs : a'.refs = drop a.refs ip
  inums : a'.inums = a.inums
  locked : a'.locked = a.locked
  trans : a'.trans = a.trans
  loaded : ∀ k, k ≠ ip → k ∈ a.loaded → k ∈ a'.loaded
  frees : Frees n a.nodes a'.nodes
  shared : 1 < a.refs ip → a'.nodes = a.nodes
  others : ∀ i, i ≠ a.inums ip → a'.nodes i = a.nodes i

section Rules
variable {t : Setting} {F : Set Nat} {R : Nat → Nat} {a₀ a : Snap} {s : State} {ip : Nat}

theorem kept_refl (R : Nat → Nat) (a : Snap) : Kept R a a := ⟨fun _ _ => rfl, fun _ _ => id, rfl⟩

theorem kept_frame {a' : Snap} (kept : Kept R a₀ a) (frame : Frame R a a') : Kept R a₀ a' :=
  ⟨fun k held => (frame.inums k held).trans (kept.inums k held),
    fun k held member => frame.loaded k held (kept.loaded k held member),
    frame.console.trans kept.console⟩

theorem busy_of_ready (ready : Ready t F R a s) : Busy t F R a a s := by
  obtain ⟨rep, rfl, calm, locked, clean⟩ := ready
  exact ⟨rep, fun k held _ => calm.live k held, calm.anchored, calm.shape, calm.live, fun _ => Nat.le_refl _,
    kept_refl _ a, clean⟩

theorem busy_done (busy : Busy t F R a₀ a s) (refs : a.refs = R) (locked : a.locked = ∅) :
    Ready t F R a s := by
  refine ⟨busy.rep, refs, ⟨busy.base, ?_, busy.shapes⟩, locked, busy.clean⟩
  rw [← refs]
  exact busy.anchored

theorem busy_mono {F' : Set Nat} (busy : Busy t F R a₀ a s) (subset : F ⊆ F') :
    Busy t F' R a₀ a s := { busy with rep := rep_mono busy.rep subset }

theorem busy_fresh (busy : Busy t F R a₀ a s) (k : Nat) : a.inums k ∉ a.stale := by
  rw [busy.clean]
  exact Finset.notMem_empty _

theorem busy_lock (busy : Busy t F R a₀ a s) (room : Room t F 0) (held : 0 < a.refs ip)
    (asleep : ip ∉ a.locked ∨ t.contract.halts .asleep)
    (typed : (a.node ip).type ≠ 0 ∨ t.contract.halts .ilockNoType) :
    Ensures t.contract (ilock ip) s (fun _ s' => Busy t F R a₀ (a.lock ip) s' ∧ ip ∉ a.locked ∧
      (a.node ip).type ≠ 0) := by
  refine ensures_weaken (ilock_spec busy.rep room held (busy_fresh busy ip) asleep typed) ?_
  rintro _ s' ⟨rep, free, cold⟩
  have live : (a.node ip).type ≠ 0 := by
    by_cases ready : ip ∈ a.loaded
    · exact busy.live ip held ready
    · exact cold ready
  refine ⟨⟨rep, ?_, fun i inside typed unlinked => ?_, busy.shapes, busy.base, busy.below, ?_,
    busy.clean⟩, free, live⟩
  · rintro k some (rfl | member)
    · exact live
    · exact busy.live k some member
  · obtain ⟨k, some, same, ready⟩ := busy.anchored i inside typed unlinked
    exact ⟨k, some, same, Set.mem_insert_of_mem ip ready⟩
  · have kept := busy.kept
    exact ⟨kept.inums, fun k some member => Set.mem_insert_of_mem ip (kept.loaded k some member),
      kept.console⟩

theorem busy_unlock (busy : Busy t F R a₀ a s) (mine : ip ∈ a.locked) :
    Ensures t.contract (iunlock ip) s (fun _ s' => Busy t F R a₀ (a.unlock ip) s') := by
  refine ensures_weaken (iunlock_spec busy.rep mine) ?_
  intro _ s' rep
  exact ⟨rep, busy.live, busy.anchored, busy.shapes, busy.base, busy.below,
    ⟨busy.kept.inums, busy.kept.loaded, busy.kept.console⟩, busy.clean⟩

theorem busy_other (busy : Busy t F R a₀ a s) (held : 0 < a.refs ip) {k : Nat} (some : 0 < a.refs k)
    (other : k ≠ ip) : a.inums k ≠ a.inums ip := fun same =>
  other (rep_unique busy.rep some held same)

theorem busy_dropped (busy : Busy t F R a₀ a s) (extra : R ip < a.refs ip)
    (kept : a.refs ip = 1 → (a.node ip).nlink ≠ 0) {s' : State} (rep : Rep t F (a.drop ip) s') :
    Busy t F R a₀ (a.drop ip) s' := by
  refine ⟨rep, ?_, ?_, busy.shapes, busy.base, ?_,
    ⟨busy.kept.inums, busy.kept.loaded, busy.kept.console⟩, busy.clean⟩
  · exact fun k some => busy.live k (lt_of_lt_of_le some (drop_le a.refs k ip))
  · intro i inside typed unlinked
    obtain ⟨k, held, same, ready⟩ := busy.anchored i inside typed unlinked
    refine ⟨k, ?_, same, ready⟩
    by_cases here : k = ip
    · subst here
      have more : a.refs k ≠ 1 := fun one => kept one (by rw [Snap.node, same]; exact unlinked)
      rw [Snap.drop_refs, drop_at]
      omega
    · rwa [Snap.drop_refs, drop_other _ here]
  · intro k
    have less := busy.below k
    by_cases here : k = ip
    · subst here
      rw [Snap.drop_refs, drop_at]
      omega
    · rwa [Snap.drop_refs, drop_other _ here]

theorem put_drop (n : Nat) (a : Snap) (ip : Nat) : Put n a ip (a.drop ip) :=
  ⟨rfl, rfl, rfl, rfl, fun _ _ => id, frees_refl _ _, fun _ => rfl, fun _ _ => rfl⟩

theorem busy_freed (busy : Busy t F R a₀ a s) (extra : R ip < a.refs ip) (last : a.refs ip = 1)
    {s' : State} (rep : Rep t F (afterFree a ip) s') : Busy t F R a₀ (afterFree a ip) s' := by
  have held : 0 < a.refs ip := by omega
  have gone : R ip = 0 := by omega
  have still : ∀ k, 0 < drop a.refs ip k → k ≠ ip ∧ 0 < a.refs k := by
    intro k some
    refine ⟨fun here => ?_, lt_of_lt_of_le some (drop_le a.refs k ip)⟩
    rw [here, drop_at, last] at some
    omega
  have node : ∀ k, k ≠ ip → 0 < a.refs k → (afterFree a ip).node k = a.node k := by
    intro k other some
    exact setNode_other _ _ (busy_other busy held some other)
  refine ⟨rep, ?_, ?_, ?_, ?_, ?_, ?_, busy.clean⟩
  · rintro k some ⟨member, _⟩
    obtain ⟨other, before⟩ := still k some
    rw [node k other before]
    exact busy.live k before member
  · intro i inside typed unlinked
    by_cases here : i = a.inums ip
    · rw [here, afterFree_nodes, setNode_at] at typed
      exact absurd rfl typed
    · rw [afterFree_nodes, setNode_other _ _ here] at typed unlinked
      obtain ⟨k, some, same, ready⟩ := busy.anchored i inside typed unlinked
      have other : k ≠ ip := fun equal => here (by rw [← same, equal])
      refine ⟨k, ?_, same, ready, other⟩
      change 0 < drop a.refs ip k
      rwa [drop_other _ other]
  · exact shapes_setNode busy.shapes fun dir => absurd dir (show (0 : Nat) ≠ tDir by decide)
  · intro k some
    have other : k ≠ ip := fun here => by
      rw [here] at some
      omega
    rw [node k other (lt_of_lt_of_le some (busy.below k))]
    exact busy.base k some
  · intro k
    change R k ≤ drop a.refs ip k
    by_cases here : k = ip
    · rw [here, gone]
      omega
    · rw [drop_other _ here]
      exact busy.below k
  · have kept := busy.kept
    refine ⟨kept.inums, fun k some member => ⟨kept.loaded k some member, fun here => ?_⟩, kept.console⟩
    rw [Set.mem_singleton_iff.mp here] at some
    omega

theorem busy_put (writes : Writes t) (busy : Busy t F R a₀ a s) (free : ip ∉ a.locked)
    (ready : ip ∈ a.loaded) (extra : R ip < a.refs ip) (room : Room t F 0) (bitmaps : Bitmaps t F)
    (footprint : iblock (a.inums ip) ∈ F) (writable : Writable t a.trans) :
    Ensures t.contract (iput ip) s (fun _ s' => ∃ a', Busy t F R a₀ a' s' ∧
      Put t.sb.ninodes a ip a') := by
  have held : 0 < a.refs ip := by omega
  by_cases last : a.refs ip = 1 ∧ (a.node ip).nlink = 0
  · refine ensures_weaken (iput_free_spec writes busy.rep last.1 free ready last.2
      (busy_fresh busy ip) room bitmaps footprint writable) ?_
    intro _ s' rep
    obtain ⟨_, _, _, inside⟩ := rep_inum busy.rep held
    refine ⟨_, busy_freed busy extra last.1 rep, rfl, rfl, rfl, rfl, fun k other member => ⟨member, other⟩,
      fun i => ?_, fun more => by omega, fun i other => setNode_other _ _ other⟩
    by_cases here : i = a.inums ip
    · refine Or.inr ⟨here ▸ inside, ?_, ?_, ?_⟩
      · rw [here]
        exact busy.live ip held ready
      · rw [here]
        exact last.2
      · rw [here, afterFree_nodes, setNode_at]
        rfl
    · exact Or.inl (setNode_other _ _ here)
  · have kept : a.refs ip = 1 → (a.node ip).nlink ≠ 0 := fun one none => last ⟨one, none⟩
    refine ensures_weaken (iput_keep_spec busy.rep held (fun member => absurd member free)
      fun one _ => kept one) ?_
    intro _ s' rep
    exact ⟨_, busy_dropped busy extra kept rep, put_drop _ _ _⟩

theorem rep_loaded (rep : Rep t F a s) (mine : ip ∈ a.locked) : ip ∈ a.loaded := by
  obtain ⟨h, eff, world⟩ := rep
  exact (world.cached.locked ip mine).2

theorem busy_setNode {F' : Set Nat} {node : Node} {s' : State} (busy : Busy t F R a₀ a s)
    (mine : ip ∈ a.locked) (type : node.type = (a.node ip).type)
    (shape : node.type = tDir → DirShape t.sb.ninodes node)
    (rep : Rep t F' (putNode a (a.inums ip) node) s') :
    Busy t F' R a₀ (putNode a (a.inums ip) node) s' := by
  have types : ∀ i, (setNode a.nodes (a.inums ip) node i).type = (a.nodes i).type := by
    intro i
    by_cases here : i = a.inums ip
    · rw [here, setNode_at]
      exact type
    · rw [setNode_other _ _ here]
  refine ⟨rep, fun k some member => ?_, fun i inside typed unlinked => ?_,
    shapes_setNode busy.shapes shape, fun k some => ?_, busy.below,
    ⟨busy.kept.inums, busy.kept.loaded, busy.kept.console⟩, busy.clean⟩
  · exact (types _).trans_ne (busy.live k some member)
  · by_cases here : i = a.inums ip
    · have ready : ip ∈ a.loaded := rep_loaded busy.rep mine
      exact ⟨ip, rep_held busy.rep ip mine, here.symm, ready⟩
    · rw [putNode_nodes, setNode_other _ _ here] at typed unlinked
      exact busy.anchored i inside typed unlinked
  · exact (types _).trans_ne (busy.base k some)

theorem busy_edit {edit : FsM Unit} {node : Node} (writes : Writes t) (busy : Busy t F R a₀ a s)
    (mine : ip ∈ a.locked)
    (edits : Ensures t.contract edit s (fun _ s' => Rep t F (a.edit ip node) s'))
    (type : node.type = (a.node ip).type) (shape : node.type = tDir → DirShape t.sb.ninodes node)
    (room : Room t F 0) (footprint : iblock (a.inums ip) ∈ F) (writable : Writable t a.trans) :
    Ensures t.contract (do edit; iupdate ip) s
      (fun _ s' => Busy t F R a₀ (putNode a (a.inums ip) node) s') := by
  refine ensures_then edits ?_
  intro _ s₁ rep₁
  refine ensures_weaken (iupdate_spec writes rep₁ room mine footprint writable) ?_
  intro _ s₂ rep₂
  have erased : (insert (a.inums ip) a.stale).erase (a.inums ip) = a.stale := by
    rw [busy.clean]
    simp
  have rep : Rep t F (putNode a (a.inums ip) node) s₂ := by
    simp only [Snap.edit, erased] at rep₂
    exact rep₂
  exact busy_setNode busy mine type shape rep

theorem busy_relink {f : Nat → Nat} (writes : Writes t) (busy : Busy t F R a₀ a s)
    (mine : ip ∈ a.locked) (fits : ∀ n, f n < 2 ^ 16) (room : Room t F 0)
    (footprint : iblock (a.inums ip) ∈ F) (writable : Writable t a.trans) :
    Ensures t.contract (do setNlink ip f; iupdate ip) s (fun _ s' =>
      Busy t F R a₀ (putNode a (a.inums ip) (relink (a.node ip) (f (a.node ip).nlink))) s') := by
  obtain ⟨_, _, _, inside⟩ := rep_inum busy.rep (rep_held busy.rep ip mine)
  refine busy_edit writes busy mine (setNlink_spec busy.rep mine fits) rfl (fun dir => ?_) room
    footprint writable
  exact shape_relink (busy.shapes _ inside dir) _

theorem rep_begin {F' : Set Nat} (rep : Rep t F a s) (outside : a.trans = false) :
    Ensures t.contract (onDev beginTrans) s (fun _ s' => Rep t F' (a.setTrans true) s') := by
  obtain ⟨h, eff, world⟩ := rep
  have dev := world.dev
  rw [outside] at dev
  refine ensures_within (ensures_weaken (beginTrans_spec dev F') ?_)
  intro _ dev' holds
  exact ⟨h, eff, ⟨holds, world.blocks, world.synced, cached_congr world.cached rfl rfl rfl rfl,
    world.console⟩, world.nodes⟩

theorem rep_commit {F' : Set Nat} (writes : Writes t) (rep : Rep t F a s) (inside : a.trans = true)
    (room : Room t F 0) :
    Ensures t.contract (onDev commitTrans) s (fun _ s' => Rep t F' (a.setTrans false) s') := by
  obtain ⟨h, eff, world⟩ := rep
  have dev := world.dev
  rw [inside] at dev
  refine ensures_within (ensures_weaken (commitTrans_spec writes dev room F') ?_)
  intro _ dev' holds
  exact ⟨h, eff, ⟨holds, world.blocks, world.synced, cached_congr world.cached rfl rfl rfl rfl,
    world.console⟩, world.nodes⟩

theorem busy_trans {F' : Set Nat} {trans : Bool} {s' : State} (busy : Busy t F R a₀ a s)
    (rep : Rep t F' (a.setTrans trans) s') : Busy t F' R a₀ (a.setTrans trans) s' :=
  ⟨rep, busy.live, busy.anchored, busy.shapes, busy.base, busy.below,
    ⟨busy.kept.inums, busy.kept.loaded, busy.kept.console⟩, busy.clean⟩

theorem busy_begin (F' : Set Nat) (busy : Busy t F R a₀ a s) (outside : a.trans = false) :
    Ensures t.contract (onDev beginTrans) s
      (fun _ s' => Busy t F' R a₀ (a.setTrans true) s') :=
  ensures_weaken (rep_begin busy.rep outside) fun _ _ rep => busy_trans busy rep

theorem busy_commit (F' : Set Nat) (writes : Writes t) (busy : Busy t F R a₀ a s)
    (inside : a.trans = true) (room : Room t F 0) :
    Ensures t.contract (onDev commitTrans) s
      (fun _ s' => Busy t F' R a₀ (a.setTrans false) s') :=
  ensures_weaken (rep_commit writes busy.rep inside room) fun _ _ rep => busy_trans busy rep

/-- All references are to allocated inodes. -/
def AllLive (a : Snap) : Prop := ∀ k, 0 < a.refs k → (a.node k).type ≠ 0

/-- References may be added to slots that hold an allocated inode once they are loaded. -/
theorem busy_moved {a' : Snap} {s' : State} (busy : Busy t F R a₀ a s) (all : AllLive a)
    (rep : Rep t F a' s') (frame : Frame a.refs a a') (more : ∀ k, a.refs k ≤ a'.refs k)
    (new : ∀ k, ¬0 < a.refs k → 0 < a'.refs k → k ∈ a'.loaded → (a'.node k).type ≠ 0) :
    Busy t F R a₀ a' s' := by
  have weaker := frame_weaken frame fun k (some : 0 < R k) => lt_of_lt_of_le some (busy.below k)
  refine ⟨rep, fun k some loaded => ?_, fun i inside typed unlinked => ?_, ?_, fun k some => ?_,
    fun k => (busy.below k).trans (more k), kept_frame busy.kept weaker,
    frame.stale.trans busy.clean⟩
  · by_cases old : 0 < a.refs k
    · rw [frame_node frame old]
      exact all k old
    · exact new k old some loaded
  · rw [frame.nodes] at typed unlinked
    obtain ⟨k, some, same, ready⟩ := busy.anchored i inside typed unlinked
    exact ⟨k, lt_of_lt_of_le some (more k), (frame.inums k some).trans same,
      frame.loaded k some ready⟩
  · rw [frame.nodes]
    exact busy.shapes
  · rw [frame_node weaker some]
    exact busy.base k some

theorem busy_frame {a' : Snap} {s' : State} (busy : Busy t F R a₀ a s) (all : AllLive a)
    (rep : Rep t F a' s') (frame : Frame a.refs a a') (refs : a'.refs = a.refs) :
    Busy t F R a₀ a' s' :=
  busy_moved busy all rep frame (fun k => by rw [refs]) fun _ none some _ =>
    absurd (refs ▸ some) none

theorem busy_found {a' : Snap} {s' : State} (busy : Busy t F R a₀ a s) (all : AllLive a)
    (rep : Rep t F a' s') (frame : Frame a.refs a a') (refs : a'.refs = bump a.refs ip)
    (new : ip ∈ a'.loaded → a.refs ip = 0 → (a'.node ip).type ≠ 0) : Busy t F R a₀ a' s' := by
  refine busy_moved busy all rep frame (fun k => refs ▸ le_bump a.refs k ip)
    fun k none some loaded => ?_
  have same : k = ip := by
    by_contra other
    rw [refs, bump_other _ other] at some
    exact none some
  subst same
  exact new loaded (by omega)

theorem busy_ready (busy : Busy t F R a₀ a s) (all : AllLive a) (locked : a.locked = ∅) :
    Ready t F a.refs a s :=
  ⟨busy.rep, rfl, ⟨all, busy.anchored, busy.shapes⟩, locked, busy.clean⟩

theorem busy_at {a' : Snap} {s' : State} (busy : Busy t F R a₀ a s) (all : AllLive a)
    (here : At t F a.refs a ip a' s') : Busy t F R a₀ a' s' :=
  busy_found busy all here.rep here.frame here.refs fun loaded _ => here.ready loaded

theorem allLive_at {R : Nat → Nat} {a' : Snap} {s' : State}
    (all : ∀ k, 0 < R k → (a.node k).type ≠ 0) (here : At t F R a ip a' s')
    (live : (a'.node ip).type ≠ 0) : AllLive a' := by
  intro k some
  by_cases same : k = ip
  · rw [same]
    exact live
  · rw [here.refs, bump_other _ same] at some
    rw [frame_node here.frame some]
    exact all k some

theorem busy_dirlink {dp n inum c : Nat} {name : List UInt8} (writes : Writes t) (relies : Relies t)
    (busy : Busy t F R a₀ a s) (all : AllLive a) (mine : dp ∈ a.locked)
    (dir : (a.node dp).type = tDir) (bitmaps : Bitmaps t F) (writable : Writable t a.trans)
    (footprint : iblock (a.inums dp) ∈ F) (cost : (touched (16 * freeSlot (a.node dp)) 16).card ≤ c)
    (room : Room t F (n + c)) (inside : inum < t.sb.ninodes) (full : t.contract.halts .igetNoInodes)
    (noRoom : t.contract.halts .dirlink) :
    Ensures t.contract (dirlink dp name inum) s (fun r s' =>
      match lookup (a.node dp) name with
      | some _ => r = false ∧ ∃ a', Busy t F R a₀ a' s' ∧ Frame a.refs a a' ∧ a'.refs = a.refs
      | none => r = true ∧ ∃ F', F ⊆ F' ∧ Room t F' n ∧
          Busy t F' R a₀ (putNode a (a.inums dp) (addEntry (a.node dp) name inum)) s') := by
  have held := rep_held busy.rep dp mine
  obtain ⟨_, _, _, bound⟩ := rep_inum busy.rep held
  have shape := busy.shapes _ bound dir
  refine ensures_weaken (dirlink_spec writes relies busy.rep mine (busy_fresh busy dp) dir shape
    bitmaps writable footprint cost room full noRoom) ?_
  intro r s' linked
  cases found : lookup (a.node dp) name with
  | some j =>
    rw [found] at linked
    obtain ⟨rfl, a', rep, frame, refs⟩ := linked
    exact ⟨rfl, a', busy_frame busy all rep frame refs, frame, refs⟩
  | none =>
    rw [found] at linked
    obtain ⟨rfl, _, F', more, room', rep⟩ := linked
    refine ⟨rfl, F', more, room', busy_setNode busy mine rfl (fun _ => ?_) rep⟩
    exact shape_addEntry shape t.geometry.inums inside

theorem busy_unlockput (writes : Writes t) (busy : Busy t F R a₀ a s) (mine : ip ∈ a.locked)
    (extra : R ip < a.refs ip) (room : Room t F 0) (bitmaps : Bitmaps t F)
    (footprint : iblock (a.inums ip) ∈ F) (writable : Writable t a.trans) :
    Ensures t.contract (iunlockput ip) s (fun _ s' => ∃ a', Busy t F R a₀ a' s' ∧
      Put t.sb.ninodes (a.unlock ip) ip a') := by
  have ready : ip ∈ a.loaded := rep_loaded busy.rep mine
  refine ensures_then (busy_unlock busy mine) ?_
  intro _ s₁ busy₁
  exact busy_put writes busy₁ (Finset.notMem_erase ip a.locked) ready extra room bitmaps footprint
    writable

theorem putNode_node_at (a : Snap) (ip : Nat) (node : Node) :
    (putNode a (a.inums ip) node).node ip = node := setNode_at _ _ _

theorem putNode_node_other {k : Nat} (a : Snap) (node : Node) (other : a.inums k ≠ a.inums ip) :
    (putNode a (a.inums ip) node).node k = a.node k := setNode_other _ _ other

theorem setNode_twice (nodes : Nat → Node) (i : Nat) (first second : Node) :
    setNode (setNode nodes i first) i second = setNode nodes i second := by
  funext j
  by_cases here : j = i
  · rw [here, setNode_at, setNode_at]
  · rw [setNode_other _ _ here, setNode_other _ _ here, setNode_other _ _ here]

end Rules

/-! Whole calls. -/

def bitmapBlocks (sb : Superblock) : Set Nat := {x | ∃ b < sb.size, bblock b sb.ninodes = x}

/-- What the calls below need from the contract of the run. -/
structure Runs (t : Setting) : Prop where
  writes : Writes t
  relies : Relies t
  room : Room t (bitmapBlocks t.sb) 6
  asleep : t.contract.halts .asleep
  igetNoInodes : t.contract.halts .igetNoInodes
  iallocNoInodes : t.contract.halts .iallocNoInodes
  dirlink : t.contract.halts .dirlink
  unlinkNlink : t.contract.halts .unlinkNlink

/-- No call is under way; the references `R` are those that were found. -/
structure Rested (t : Setting) (R : Nat → Nat) (a a' : Snap) (s : State) : Prop where
  ready : Ready t ∅ R a' s
  kept : Kept R a a'
  outside : a'.trans = false

/-- A call is over: it has kept what it found and moved the inodes. -/
structure Done (t : Setting) (R : Nat → Nat) (a a' : Snap) (s : State) : Prop
    extends Rested t R a a' s where
  move : Move t.sb.ninodes t.permit a.nodes a'.nodes

/-- A call inside its transaction, which has room for `n` more sectors. -/
structure Inside (t : Setting) (n : Nat) (F : Set Nat) (R : Nat → Nat) (a₀ a : Snap) (s : State) :
    Prop where
  busy : Busy t F R a₀ a s
  trans : a.trans = true
  bitmaps : Bitmaps t F
  room : Room t F n

section Calls
variable {t : Setting} {F : Set Nat} {R : Nat → Nat} {a₀ a : Snap} {s : State} {ip dp n : Nat}

theorem inside_room (inside : Inside t n F R a₀ a s) : Room t F 0 :=
  room_less inside.room (Nat.zero_le n)

theorem inside_writable (inside : Inside t n F R a₀ a s) : Writable t a.trans := Or.inl inside.trans

theorem inside_reserve (inside : Inside t (n + 1) F R a₀ a s) (x : Nat) :
    Inside t n (insert x F) R a₀ a s :=
  ⟨busy_mono inside.busy (Set.subset_insert x F), inside.trans,
    fun b bound => Set.mem_insert_of_mem x (inside.bitmaps b bound), room_insert inside.room x⟩

theorem inside_begin (runs : Runs t) (busy : Busy t F R a₀ a s) (outside : a.trans = false) :
    Ensures t.contract (onDev beginTrans) s (fun _ s' =>
      Inside t 6 (bitmapBlocks t.sb) R a₀ (a.setTrans true) s') := by
  refine ensures_weaken (busy_begin (bitmapBlocks t.sb) busy outside) ?_
  intro _ s' busy'
  exact ⟨busy', rfl, fun b bound => ⟨b, bound, rfl⟩, runs.room⟩

theorem inside_rest (runs : Runs t) (inside : Inside t n F R a₀ a s) (refs : a.refs = R)
    (locked : a.locked = ∅) :
    Ensures t.contract (onDev commitTrans) s (fun _ s' => ∃ a', Rested t R a₀ a' s' ∧
      a'.nodes = a.nodes) := by
  refine ensures_weaken (busy_commit ∅ runs.writes inside.busy inside.trans
    (inside_room inside)) ?_
  intro _ s' busy'
  exact ⟨_, ⟨busy_done busy' refs locked, busy'.kept, rfl⟩, rfl⟩

theorem inside_commit (runs : Runs t) (inside : Inside t n F R a₀ a s) (refs : a.refs = R)
    (locked : a.locked = ∅) (move : Move t.sb.ninodes t.permit a₀.nodes a.nodes) :
    Ensures t.contract (onDev commitTrans) s (fun _ s' => ∃ a', Done t R a₀ a' s') := by
  refine ensures_weaken (inside_rest runs inside refs locked) ?_
  rintro _ s' ⟨a', rested, nodes⟩
  exact ⟨a', rested, nodes ▸ move⟩

theorem inside_lock (runs : Runs t) (inside : Inside t n F R a₀ a s) (held : 0 < a.refs ip)
    (typed : (a.node ip).type ≠ 0 ∨ t.contract.halts .ilockNoType) :
    Ensures t.contract (ilock ip) s (fun _ s' => Inside t n F R a₀ (a.lock ip) s' ∧ ip ∉ a.locked ∧
      (a.node ip).type ≠ 0) := by
  refine ensures_weaken (busy_lock inside.busy (inside_room inside) held (Or.inr runs.asleep) typed) ?_
  rintro _ s' ⟨busy, free, live⟩
  exact ⟨⟨busy, inside.trans, inside.bitmaps, inside.room⟩, free, live⟩

theorem inside_unlock (inside : Inside t n F R a₀ a s) (mine : ip ∈ a.locked) :
    Ensures t.contract (iunlock ip) s (fun _ s' => Inside t n F R a₀ (a.unlock ip) s') := by
  refine ensures_weaken (busy_unlock inside.busy mine) ?_
  intro _ s' busy
  exact ⟨busy, inside.trans, inside.bitmaps, inside.room⟩

theorem inside_lookup {name : List UInt8} (runs : Runs t) (inside : Inside t n F R a₀ a s)
    (all : AllLive a) (mine : dp ∈ a.locked) (dir : (a.node dp).type = tDir) :
    Ensures t.contract (dirlookup dp name) s (fun r s' =>
      match lookup (a.node dp) name with
      | none => r = none ∧ Inside t n F R a₀ a s'
      | some j => ∃ ip a', r = some (ip, 16 * j) ∧ Inside t n F R a₀ a' s' ∧ Frame a.refs a a' ∧
          a'.refs = bump a.refs ip ∧ a'.inums ip = (slot (a.node dp) j).inum) := by
  have busy := inside.busy
  have held := rep_held busy.rep dp mine
  obtain ⟨_, _, _, bound⟩ := rep_inum busy.rep held
  refine ensures_weaken (dirlookup_spec busy.rep mine (inside_room inside) dir
    (busy.shapes _ bound dir) runs.igetNoInodes) ?_
  intro r s' looked
  cases found : lookup (a.node dp) name with
  | none =>
    rw [found] at looked
    exact ⟨looked.1, { inside with busy := { busy with rep := looked.2 } }⟩
  | some j =>
    rw [found] at looked
    obtain ⟨ip, a', rfl, rep, frame, refs, inum, cold⟩ := looked
    have found' := busy_found busy all rep frame refs fun loaded none => absurd loaded (cold none)
    exact ⟨ip, a', rfl, ⟨found', frame.trans.trans inside.trans, inside.bitmaps, inside.room⟩, frame,
      refs, inum⟩

theorem inside_unlockput (runs : Runs t) (inside : Inside t n F R a₀ a s) (mine : ip ∈ a.locked)
    (extra : R ip < a.refs ip) (footprint : iblock (a.inums ip) ∈ F) :
    Ensures t.contract (iunlockput ip) s (fun _ s' => ∃ a', Inside t n F R a₀ a' s' ∧
      Put t.sb.ninodes (a.unlock ip) ip a') := by
  refine ensures_weaken (busy_unlockput runs.writes inside.busy mine extra (inside_room inside)
    inside.bitmaps footprint (inside_writable inside)) ?_
  rintro _ s' ⟨a', busy', put⟩
  exact ⟨a', ⟨busy', put.trans.trans inside.trans, inside.bitmaps, inside.room⟩, put⟩

theorem finish_spec {α : Type} {value : α} (runs : Runs t) (inside : Inside t n F R a₀ a s)
    (refs : a.refs = bump R dp) (locked : a.locked = {dp}) (footprint : iblock (a.inums dp) ∈ F)
    (move : Move t.sb.ninodes t.permit a₀.nodes a.nodes) :
    Ensures t.contract (do iunlockput dp; onDev commitTrans; return value) s
      (fun _ s' => ∃ a', Done t R a₀ a' s') := by
  have mine : dp ∈ a.locked := by simp [locked]
  have extra : R dp < a.refs dp := by
    rw [refs, bump_at]
    omega
  refine ensures_then (inside_unlockput runs inside mine extra footprint) ?_
  rintro _ s₁ ⟨a₁, inside₁, put⟩
  refine ensures_then (inside_commit runs inside₁ ?_ ?_ (move_frees move put.frees)) ?_
  · rw [put.refs]
    change drop a.refs dp = R
    rw [refs, drop_bump]
  · rw [put.locked]
    change a.locked.erase dp = ∅
    rw [locked, Finset.erase_singleton]
  · intro _ s₂ done
    exact ensures_pure done

theorem inside_relink {f : Nat → Nat} (runs : Runs t) (inside : Inside t n F R a₀ a s)
    (mine : ip ∈ a.locked) (fits : ∀ n, f n < 2 ^ 16) (footprint : iblock (a.inums ip) ∈ F) :
    Ensures t.contract (do setNlink ip f; iupdate ip) s (fun _ s' =>
      Inside t n F R a₀ (putNode a (a.inums ip) (relink (a.node ip) (f (a.node ip).nlink))) s') := by
  refine ensures_weaken (busy_relink runs.writes inside.busy mine fits (inside_room inside) footprint
    (inside_writable inside)) ?_
  intro _ s' busy'
  exact ⟨busy', inside.trans, inside.bitmaps, inside.room⟩

theorem decr_lt (n : Nat) : decr n < 2 ^ 16 := Nat.mod_lt _ (by decide)

theorem incr_lt (n : Nat) : incr n < 2 ^ 16 := Nat.mod_lt _ (by decide)

theorem inside_clear {j : Nat} (runs : Runs t) (inside : Inside t (n + 2) F R a₀ a s)
    (mine : dp ∈ a.locked) (dir : (a.node dp).type = tDir) (below : j < slotCount (a.node dp))
    (footprint : iblock (a.inums dp) ∈ F) :
    Ensures t.contract (writei dp (List.replicate direntSize 0) (16 * j)) s (fun r s' =>
      r = some direntSize ∧ ∃ F', F ⊆ F' ∧
        Inside t n F' R a₀ (putNode a (a.inums dp) (clearEntry (a.node dp) j)) s') := by
  have busy := inside.busy
  have held := rep_held busy.rep dp mine
  obtain ⟨_, _, _, bound⟩ := rep_inum busy.rep held
  have small := rep_small busy.rep mine
  have touch := touched_slot j
  have range : 16 * j + 16 ≤ (a.node dp).size := by
    unfold slotCount at below
    omega
  refine ensures_weaken (writei_spec (n := n) runs.writes
    runs.relies busy.rep mine (busy_fresh busy dp) (by rw [dir]; decide) (by rw [dir]; decide) inside.bitmaps
    (inside_writable inside) footprint (by omega) (show 16 * j + 16 ≤ 71680 by omega)
    (room_less inside.room (show n + (touched (16 * j) 16).card ≤ n + 2 by omega))) ?_
  rintro _ s' ⟨rfl, F', more, room', rep⟩
  refine ⟨rfl, F', more, ?_, inside.trans, fun b low => more (inside.bitmaps b low), room'⟩
  refine busy_setNode busy mine rfl (fun _ => ?_) rep
  have positive := t.geometry.root
  exact shape_clearEntry (busy.shapes _ bound dir) (by omega) below

theorem putNode_twice (a : Snap) (i : Nat) (first second : Node) :
    putNode (putNode a i first) i second = putNode a i second := by
  simp only [putNode, setNode_twice]

theorem unlinkEntry_spec {j : Nat} {name : List UInt8} (runs : Runs t)
    (inside : Inside t (n + 3) F R a₀ a s) (nodes : a.nodes = a₀.nodes)
    (refs : a.refs = bump (bump R dp) ip) (locked : a.locked = {dp})
    (footprint : iblock (a.inums dp) ∈ F) (dir : (a.node dp).type = tDir)
    (found : lookup (a.node dp) name = some j) (inum : (slot (a.node dp) j).inum = a.inums ip)
    (notDot : namecmp name dot ≠ 0) (notDotdot : namecmp name dotdot ≠ 0)
    (typed : (a.node ip).type ≠ 0 ∨ t.contract.halts .ilockNoType)
    (allowed : t.permit.removes (a.inums ip)) :
    Ensures t.contract (unlinkEntry dp ip (16 * j)) s (fun _ s' => ∃ a', Done t R a₀ a' s') := by
  have heldP : 0 < a.refs dp := rep_held inside.busy.rep dp (by simp [locked])
  have held : 0 < a.refs ip := by
    rw [refs, bump_at]
    omega
  refine ensures_then (inside_lock runs inside held typed) ?_
  rintro _ s₁ ⟨inside₁, free, live⟩
  have apart : ip ≠ dp := by
    rintro rfl
    exact free (by simp [locked])
  have other : a.inums ip ≠ a.inums dp := busy_other inside.busy heldP held apart
  replace inside₁ := inside_reserve inside₁ (iblock (a.inums ip))
  have mineP : dp ∈ (a.lock ip).locked := by simp [Snap.lock, locked]
  have mine : ip ∈ (a.lock ip).locked := Finset.mem_insert_self ip a.locked
  obtain ⟨_, _, _, boundP⟩ := rep_inum inside.busy.rep heldP
  obtain ⟨_, _, _, bound⟩ := rep_inum inside.busy.rep held
  have shows := (rep_shows inside₁.busy.rep mine).1
  apply ensures_inspect_then
  rw [shows.nlink, shows.type, Snap.lock_node]
  by_cases short : belowOne (a.node ip).nlink = true
  · rw [if_pos short]
    exact ensures_halt runs.unlinkNlink
  rw [if_neg short]
  have extraP : ∀ x, R dp < bump (bump R dp) x dp := fun x => by
    have := le_bump (bump R dp) dp x
    rw [bump_at] at this
    omega
  have extra : R ip < bump (bump R dp) ip ip := by
    rw [bump_at, bump_other _ apart]
    omega
  refine ensures_then (inUse_spec inside₁.busy.rep mine (inside_room inside₁)
    (inside₁.busy.shapes _ bound)) ?_
  rintro used s₂ ⟨inUse, rep₂⟩
  have inside₂ : Inside t (n + 2) (insert (iblock (a.inums ip)) F) R a₀ (a.lock ip) s₂ :=
    { inside₁ with busy := { inside₁.busy with rep := rep₂ } }
  cases used with
  | true =>
    refine ensures_then (inside_unlockput runs inside₂ mine (by rw [Snap.lock, refs]; exact extra)
      (Set.mem_insert _ _)) ?_
    rintro _ s₃ ⟨a₃, inside₃, put⟩
    refine finish_spec runs inside₃ ?_ ?_ ?_ ?_
    · rw [put.refs]
      change drop a.refs ip = _
      rw [refs, drop_bump]
    · rw [put.locked, Snap.lock_unlock_locked free, locked]
    · rw [put.inums]
      exact Set.mem_insert_of_mem _ footprint
    · rw [← nodes]
      exact move_of_frees put.frees
  | false =>
    obtain ⟨_, below, _, _⟩ := scan_some found
    refine ensures_then (inside_clear runs inside₂ mineP dir below
      (Set.mem_insert_of_mem _ footprint)) ?_
    rintro _ s₃ ⟨rfl, F₃, more, inside₃⟩
    refine ensures_quiet_then (whenever_false (by simp) _) ?_
    have stepParent : Ensures t.contract
        (whenever ((a.node ip).type = tDir) (do setNlink dp decr; iupdate dp)) s₃ (fun _ s' =>
          Inside t n F₃ R a₀ (putNode (a.lock ip) (a.inums dp)
            (unlinkedParent (a.node dp) (a.node ip) j)) s') := by
      refine ensures_whenever (fun child => ?_) fun file => ?_
      · refine ensures_weaken (inside_relink runs inside₃ mineP decr_lt
          (more (Set.mem_insert_of_mem _ footprint))) ?_
        intro _ s' inside'
        rw [putNode_node_at] at inside'
        rw [unlinkedParent, if_pos child, ← putNode_twice _ _ (clearEntry (a.node dp) j)]
        exact inside'
      · rw [unlinkedParent, if_neg file]
        exact inside₃
    refine ensures_then stepParent ?_
    intro _ s₄ inside₄
    have extra₄ : R dp < (putNode (a.lock ip) (a.inums dp)
        (unlinkedParent (a.node dp) (a.node ip) j)).refs dp := by
      change R dp < a.refs dp
      rw [refs]
      exact extraP ip
    refine ensures_then (inside_unlockput runs inside₄ mineP extra₄
      (more (Set.mem_insert_of_mem _ footprint))) ?_
    rintro _ s₅ ⟨a₅, inside₅, put⟩
    have inums₅ : a₅.inums = a.inums := put.inums
    have refs₅ : a₅.refs = bump R ip := by
      rw [put.refs]
      change drop a.refs dp = _
      rw [refs, drop_bump_bump]
    have locked₅ : a₅.locked = {ip} := by
      rw [put.locked]
      change (insert ip a.locked).erase dp = _
      rw [locked, Finset.erase_insert_of_ne apart, Finset.erase_singleton]
      rfl
    have node₅ : a₅.node ip = a.node ip := by
      rw [Snap.node, inums₅, put.others _ other]
      exact setNode_other _ _ other
    refine ensures_both_then (inside_relink runs inside₅ (by simp [locked₅]) decr_lt
      (by rw [inums₅]; exact more (Set.mem_insert _ _))) ?_
    intro _ s₆ inside₆
    rw [inums₅, node₅] at inside₆
    refine finish_spec runs inside₆ refs₅ locked₅ (by
      change iblock (a₅.inums ip) ∈ F₃
      rw [inums₅]
      exact more (Set.mem_insert _ _)) ?_
    have frees := frees_setNode put.frees (a.inums ip) (relink (a.node ip) (decr (a.node ip).nlink))
    refine ⟨_, Or.inr ?_, frees⟩
    rw [← nodes]
    refine Main.unlink boundP bound dir live other notDot notDotdot found inum ?_ ?_ allowed
    · exact Bool.eq_false_iff.mpr short
    · intro child
      have empty : ¬ (emptyDir (a.node ip) = false) := fun full =>
        Bool.noConfusion (inUse.mpr ⟨child, full⟩)
      simpa [emptyDir, Snap.node] using empty

/-- A call may start: no transaction is open. -/
structure Idle (t : Setting) (R : Nat → Nat) (a : Snap) (s : State) : Prop where
  ready : Ready t ∅ R a s
  outside : a.trans = false
  typed : Typed t a.nodes

theorem runs_room (runs : Runs t) : Room t ∅ 0 := by
  refine runs.room.imp_right fun _ => ⟨Set.finite_empty, ?_⟩
  rw [Set.ncard_empty]
  omega

theorem done_frame {a' : Snap} (idle : Idle t R a s) {s' : State} (rep : Rep t ∅ a' s')
    (frame : Frame R a a') (refs : a'.refs = R) : Done t R a a' s' := by
  have calm := calm_frame idle.ready.calm frame
  refine ⟨⟨⟨rep, refs, calm, frame.locked.trans idle.ready.locked,
    frame.stale.trans idle.ready.clean⟩, kept_frame (kept_refl R a) frame,
    frame.trans.trans idle.outside⟩, ?_⟩
  rw [frame.nodes]
  exact move_refl _ _

theorem idle_at {a' : Snap} {s' : State} (idle : Idle t R a s) (here : At t ∅ R a ip a' s') :
    Busy t ∅ R a a' s' := by
  obtain ⟨ready, outside, typed⟩ := idle
  obtain rfl := ready.refs
  exact busy_at (busy_of_ready ready) ready.calm.live here

theorem lookup_typed {nodes : Nat → Node} {i j : Nat} {name : List UInt8} (typed : Typed t nodes)
    (inside : i < t.sb.ninodes) (dir : (nodes i).type = tDir) (found : lookup (nodes i) name = some j) :
    (nodes (slot (nodes i) j).inum).type ≠ 0 ∨ t.contract.halts .ilockNoType := by
  refine typed.symm.imp_left fun all => ?_
  obtain ⟨_, below, hit, _⟩ := scan_some found
  simp only [named, Bool.and_eq_true, bne_iff_ne] at hit
  exact all.2 i inside dir j below hit.1

theorem inside_put (runs : Runs t) (inside : Inside t n F R a₀ a s) (free : ip ∉ a.locked)
    (ready : ip ∈ a.loaded) (extra : R ip < a.refs ip) (footprint : iblock (a.inums ip) ∈ F) :
    Ensures t.contract (iput ip) s (fun _ s' => ∃ a', Inside t n F R a₀ a' s' ∧
      Put t.sb.ninodes a ip a') := by
  refine ensures_weaken (busy_put runs.writes inside.busy free ready extra (inside_room inside)
    inside.bitmaps footprint (inside_writable inside)) ?_
  rintro _ s' ⟨a', busy', put⟩
  exact ⟨a', ⟨busy', put.trans.trans inside.trans, inside.bitmaps, inside.room⟩, put⟩

theorem inside_dirlink {name : List UInt8} {inum c : Nat} (runs : Runs t)
    (inside : Inside t (n + c) F R a₀ a s) (all : AllLive a) (mine : dp ∈ a.locked)
    (dir : (a.node dp).type = tDir) (footprint : iblock (a.inums dp) ∈ F)
    (cost : (touched (16 * freeSlot (a.node dp)) 16).card ≤ c) (bound : inum < t.sb.ninodes) :
    Ensures t.contract (dirlink dp name inum) s (fun r s' =>
      match lookup (a.node dp) name with
      | some _ => r = false ∧ ∃ a', Inside t (n + c) F R a₀ a' s' ∧ Frame a.refs a a' ∧ a'.refs = a.refs
      | none => r = true ∧ ∃ F', F ⊆ F' ∧
          Inside t n F' R a₀ (putNode a (a.inums dp) (addEntry (a.node dp) name inum)) s') := by
  refine ensures_weaken (busy_dirlink runs.writes runs.relies inside.busy all mine dir inside.bitmaps
    (inside_writable inside) footprint cost inside.room bound runs.igetNoInodes runs.dirlink) ?_
  intro r s' linked
  cases found : lookup (a.node dp) name with
  | some j =>
    rw [found] at linked
    obtain ⟨rfl, a', busy', frame, refs⟩ := linked
    exact ⟨rfl, a', ⟨busy', frame.trans.trans inside.trans, inside.bitmaps, inside.room⟩, frame, refs⟩
  | none =>
    rw [found] at linked
    obtain ⟨rfl, F', more, room', busy'⟩ := linked
    exact ⟨rfl, F', more, busy', inside.trans, fun b low => more (inside.bitmaps b low), room'⟩

theorem linkBad_spec (runs : Runs t) (inside : Inside t n F R a₀ a s) (refs : a.refs = bump R ip)
    (locked : a.locked = ∅) (footprint : iblock (a.inums ip) ∈ F) (live : (a.node ip).type ≠ 0)
    (move : Move t.sb.ninodes t.permit a₀.nodes
      (setNode a.nodes (a.inums ip) (relink (a.node ip) (decr (a.node ip).nlink)))) :
    Ensures t.contract (linkBad ip) s (fun _ s' => ∃ a', Done t R a₀ a' s') := by
  have held : 0 < a.refs ip := by
    rw [refs, bump_at]
    omega
  refine ensures_then (inside_lock runs inside held (Or.inl live)) ?_
  rintro _ s₁ ⟨inside₁, _, _⟩
  refine ensures_both_then (inside_relink runs inside₁ (Finset.mem_insert_self _ _) decr_lt footprint) ?_
  intro _ s₂ inside₂
  refine finish_spec runs inside₂ refs ?_ footprint move
  change insert ip a.locked = _
  rw [locked]
  rfl

theorem typed_relink {nodes : Nat → Node} (typed : Typed t nodes) (i nlink : Nat) :
    Typed t (setNode nodes i (relink (nodes i) nlink)) := by
  refine typed.imp_right fun ⟨root, closed⟩ => ?_
  have types : ∀ j, (setNode nodes i (relink (nodes i) nlink) j).type = (nodes j).type := by
    intro j
    by_cases here : j = i
    · rw [here, setNode_at, type_relink]
    · rw [setNode_other _ _ here]
  refine ⟨(types _).trans_ne root, fun j inside dir l below live => ?_⟩
  rw [types] at dir ⊢
  by_cases here : j = i
  · rw [here] at inside dir below live ⊢
    rw [setNode_at, slotCount_relink] at below
    rw [setNode_at, slot_relink] at live ⊢
    exact closed i inside dir l below live
  · rw [setNode_other _ _ here] at below live ⊢
    exact closed j inside dir l below live

theorem setNode_same (nodes : Nat → Node) (i : Nat) : setNode nodes i (nodes i) = nodes := by
  funext j
  by_cases here : j = i
  · rw [here, setNode_at]
  · rw [setNode_other _ _ here]

theorem decr_incr {n : Nat} (fits : n < 2 ^ 16) : decr (incr n) = n := by
  unfold decr incr
  omega

theorem rep_nlink (rep : Rep t F a s) (held : 0 < a.refs ip) : (a.node ip).nlink < 2 ^ 16 := by
  obtain ⟨_, _, _, inside⟩ := rep_inum rep held
  obtain ⟨h, eff, world⟩ := rep
  have node : a.node ip = nodeOf h (eff (a.inums ip)) := world.nodes _ inside
  rw [node]
  exact (world.blocks.fields _ inside).nlink

theorem sysUnlink_spec {cwd : Nat} {path : List UInt8} (runs : Runs t) (idle : Idle t R a s)
    (home : path.head? = some slash ∨ 0 < R cwd)
    (may : MayRemove t.permit a.nodes (a.inums cwd) path) :
    Ensures t.contract (sysUnlink cwd path) s (fun _ s' => ∃ a', Done t R a a' s') := by
  refine ensures_then (nameiparent_spec idle.ready home (runs_room runs) idle.typed
    runs.igetNoInodes) ?_
  rintro (_ | ⟨dp, name⟩) s₁ found
  · obtain ⟨a', rep, frame, refs⟩ := found
    exact ensures_pure ⟨a', done_frame idle rep frame refs⟩
  obtain ⟨a₁, here, dir, target⟩ := found
  refine ensures_then (inside_begin runs (idle_at idle here)
    (here.frame.trans.trans idle.outside)) ?_
  intro _ s₂ inside₂
  have held : 0 < a₁.refs dp := by
    rw [here.refs, bump_at]
    omega
  have live : (a₁.node dp).type ≠ 0 := by
    rw [dir]
    decide
  refine ensures_then (inside_lock runs inside₂ held (Or.inl live)) ?_
  rintro _ s₃ ⟨inside₃, free, _⟩
  replace inside₃ := inside_reserve inside₃ (iblock (a₁.inums dp))
  have locked : insert dp a₁.locked = {dp} := by
    rw [here.frame.locked, idle.ready.locked]
    rfl
  have mine : dp ∈ insert dp a₁.locked := Finset.mem_insert_self _ _
  have same : a₁.nodes = a.nodes := here.frame.nodes
  have still : Move t.sb.ninodes t.permit a.nodes a₁.nodes := by
    rw [same]
    exact move_refl _ _
  by_cases dots : namecmp name dot = 0 ∨ namecmp name dotdot = 0
  · rw [if_pos dots]
    exact finish_spec runs inside₃ here.refs locked (Set.mem_insert _ _) still
  rw [if_neg dots]
  have all : AllLive a₁ := allLive_at idle.ready.calm.live here live
  refine ensures_then (inside_lookup runs inside₃ all mine dir) ?_
  intro r s₄ looked
  cases found : lookup (a₁.node dp) name with
  | none =>
    rw [Snap.lock_node, Snap.setTrans_node, found] at looked
    obtain ⟨rfl, inside₄⟩ := looked
    exact finish_spec runs inside₄ here.refs locked (Set.mem_insert _ _) still
  | some j =>
    rw [Snap.lock_node, Snap.setTrans_node, found] at looked
    obtain ⟨ip, a₄, rfl, inside₄, frame, refs, inum⟩ := looked
    have inumP : a₄.inums dp = a₁.inums dp := frame.inums dp held
    have node : a₄.node dp = a₁.node dp := by
      rw [frame_node frame held, Snap.lock_node, Snap.setTrans_node]
    obtain ⟨_, _, _, bound⟩ := rep_inum here.rep held
    refine unlinkEntry_spec (n := 2) runs inside₄ (frame.nodes.trans same) ?_ (frame.locked.trans locked)
      ?_ (node ▸ dir) (node ▸ found) ?_ (fun h => dots (Or.inl h)) (fun h => dots (Or.inr h)) ?_ ?_
    · rw [refs]
      change bump a₁.refs ip = _
      rw [here.refs]
    · rw [inumP]
      exact Set.mem_insert _ _
    · rw [node, inum]
    · rw [Snap.node, inum, frame.nodes]
      have typed : Typed t a₁.nodes := by
        rw [same]
        exact idle.typed
      exact lookup_typed typed bound dir found
    · have nodeP : a₁.node dp = a.nodes (a₁.inums dp) := by rw [Snap.node, same]
      rw [inum, nodeP]
      exact may _ name j target (nodeP ▸ found)

theorem linkEntry_spec {name : List UInt8} {i : Nat} (runs : Runs t)
    (inside : Inside t (n + 3) F R a₀ a s) (refs : a.refs = bump (bump R ip) dp) (locked : a.locked = ∅)
    (all : AllLive a) (inum : a.inums ip = i) (ready : ip ∈ a.loaded) (footprint : iblock i ∈ F)
    (nodes : a.nodes = setNode a₀.nodes i (relink (a₀.nodes i) (incr (a₀.nodes i).nlink)))
    (file : (a₀.nodes i).type ≠ tDir) (fits : (a₀.nodes i).nlink < 2 ^ 16)
    (dir : (a.node dp).type = tDir) (allowed : t.permit.adds (a.inums dp)) :
    Ensures t.contract (do
      ilock dp
      if ← dirlink dp name i then do
        iunlockput dp
        iput ip
        onDev commitTrans
        return 0
      else do
        iunlockput dp
        linkBad ip) s (fun _ s' => ∃ a', Done t R a₀ a' s') := by
  have held : 0 < a.refs ip := by
    have := le_bump (bump R ip) ip dp
    rw [refs]
    rw [bump_at] at this
    omega
  have heldP : 0 < a.refs dp := by
    rw [refs, bump_at]
    omega
  have node : a.node ip = relink (a₀.nodes i) (incr (a₀.nodes i).nlink) := by
    rw [Snap.node, inum, nodes, setNode_at]
  have apart : dp ≠ ip := by
    rintro rfl
    rw [node, type_relink] at dir
    exact file dir
  have other : a.inums dp ≠ i := by
    rw [← inum]
    exact busy_other inside.busy held heldP apart
  have nodeP : a.node dp = a₀.nodes (a.inums dp) := by rw [Snap.node, nodes, setNode_other _ _ other]
  obtain ⟨_, _, positive, bound⟩ := rep_inum inside.busy.rep held
  obtain ⟨_, _, _, boundP⟩ := rep_inum inside.busy.rep heldP
  rw [inum] at positive bound
  have typed : (a₀.nodes i).type ≠ 0 := by
    have live := all ip held
    rwa [node, type_relink] at live
  refine ensures_then (inside_lock runs inside heldP (Or.inl (all dp heldP))) ?_
  rintro _ s₁ ⟨inside₁, free, _⟩
  replace inside₁ := inside_reserve inside₁ (iblock (a.inums dp))
  have mine : dp ∈ (a.lock dp).locked := Finset.mem_insert_self _ _
  have footprint₁ : iblock i ∈ insert (iblock (a.inums dp)) F := Set.mem_insert_of_mem _ footprint
  have extraP : R dp < bump (bump R ip) dp dp := by
    rw [bump_at, bump_other _ apart]
    omega
  refine ensures_then (inside_dirlink runs inside₁ all mine dir (Set.mem_insert _ _) (touched_slot _)
    bound) ?_
  intro r s₂ linked
  rw [Snap.lock_node] at linked
  cases found : lookup (a.node dp) name with
  | none =>
    rw [found] at linked
    obtain ⟨rfl, F', more, inside₂⟩ := linked
    refine ensures_then (inside_unlockput runs inside₂ mine (by
      change R dp < a.refs dp
      rw [refs]
      exact extraP) (more (Set.mem_insert _ _))) ?_
    rintro _ s₃ ⟨a₃, inside₃, put₃⟩
    have refs₃ : a₃.refs = bump R ip := by
      rw [put₃.refs]
      change drop a.refs dp = _
      rw [refs, drop_bump]
    have inums₃ : a₃.inums = a.inums := put₃.inums
    have locked₃ : a₃.locked = ∅ := by
      rw [put₃.locked]
      exact (Finset.erase_insert free).trans locked
    refine ensures_then (inside_put runs inside₃ (by simp [locked₃])
      (put₃.loaded ip apart.symm (Set.mem_insert_of_mem dp ready))
      (by rw [refs₃, bump_at]; omega) (by rw [inums₃, inum]; exact more footprint₁)) ?_
    rintro _ s₄ ⟨a₄, inside₄, put₄⟩
    refine ensures_then (inside_commit runs inside₄ ?_ (put₄.locked.trans locked₃) ?_) ?_
    · rw [put₄.refs, refs₃, drop_bump]
    · refine ⟨_, Or.inr ?_, frees_trans put₃.frees put₄.frees⟩
      have main : Main t.sb.ninodes t.permit a₀.nodes (setNode (setNode a₀.nodes i
          (relink (a₀.nodes i) (incr (a₀.nodes i).nlink))) (a.inums dp)
          (addEntry (a₀.nodes (a.inums dp)) name i)) :=
        Main.link boundP positive bound (nodeP ▸ dir) typed file (nodeP ▸ found) allowed
      rw [← nodes, ← nodeP] at main
      exact main
    · intro _ s₅ done
      exact ensures_pure done
  | some j =>
    rw [found] at linked
    obtain ⟨rfl, a₂, inside₂, frame, refs₂⟩ := linked
    have refsLocked : (a.lock dp).refs = a.refs := rfl
    have inumP : a₂.inums dp = a.inums dp := frame.inums dp heldP
    have inum₂ : a₂.inums ip = i := (frame.inums ip held).trans inum
    refine ensures_then (inside_unlockput runs inside₂ (frame.locked ▸ mine) (by
      rw [refs₂, refsLocked, refs]
      exact extraP) (by rw [inumP]; exact Set.mem_insert _ _)) ?_
    rintro _ s₃ ⟨a₃, inside₃, put₃⟩
    have inum₃ : a₃.inums ip = i := by
      rw [put₃.inums]
      exact inum₂
    have node₃ : a₃.node ip = relink (a₀.nodes i) (incr (a₀.nodes i).nlink) := by
      rw [Snap.node, inum₃, put₃.others i (fun same => other (inumP.symm.trans same.symm))]
      change a₂.nodes i = _
      rw [frame.nodes]
      change a.nodes i = _
      rw [nodes, setNode_at]
    have frees : Frees t.sb.ninodes a.nodes a₃.nodes := by
      have step := put₃.frees
      change Frees _ a₂.nodes _ at step
      rwa [frame.nodes] at step
    refine linkBad_spec runs inside₃ ?_ ?_ (by rw [inum₃]; exact footprint₁) ?_ ?_
    · rw [put₃.refs]
      change drop a₂.refs dp = _
      rw [refs₂, refsLocked, refs, drop_bump]
    · rw [put₃.locked]
      change a₂.locked.erase dp = _
      rw [frame.locked]
      exact (Finset.erase_insert free).trans locked
    · rw [node₃, type_relink]
      exact typed
    · refine move_of_frees ?_
      have back := frees_setNode frees i (a₀.nodes i)
      rw [nodes, setNode_twice, setNode_same] at back
      rw [inum₃, node₃]
      change Frees _ _ (setNode _ _ { a₀.nodes i with nlink := decr (incr (a₀.nodes i).nlink) })
      rw [decr_incr fits]
      exact back

theorem sysLink_spec {cwd : Nat} {old new : List UInt8} (runs : Runs t) (idle : Idle t R a s)
    (home : 0 < R cwd) (may : MayAdd t.permit a.nodes (a.inums cwd) new) :
    Ensures t.contract (sysLink cwd old new) s (fun _ s' => ∃ a', Done t R a a' s') := by
  refine ensures_then (namei_spec idle.ready (Or.inr home) (runs_room runs) idle.typed
    runs.igetNoInodes) ?_
  rintro (_ | ip) s₁ found
  · obtain ⟨a', rep, frame, refs⟩ := found
    exact ensures_pure ⟨a', done_frame idle rep frame refs⟩
  obtain ⟨a₁, here⟩ := found
  refine ensures_then (inside_begin runs (idle_at idle here)
    (here.frame.trans.trans idle.outside)) ?_
  intro _ s₂ inside₂
  have held : 0 < a₁.refs ip := by
    rw [here.refs, bump_at]
    omega
  refine ensures_then (inside_lock runs inside₂ held here.typed.symm) ?_
  rintro _ s₃ ⟨inside₃, free, live⟩
  replace inside₃ := inside_reserve inside₃ (iblock (a₁.inums ip))
  have lockedHere : a₁.locked = ∅ := here.frame.locked.trans idle.ready.locked
  have locked : insert ip a₁.locked = {ip} := by
    rw [lockedHere]
    rfl
  have mine : ip ∈ insert ip a₁.locked := Finset.mem_insert_self _ _
  have same : a₁.nodes = a.nodes := here.frame.nodes
  have shows := rep_shows inside₃.busy.rep mine
  apply ensures_inspect_then
  rw [shows.1.type, shows.2, Snap.lock_node, Snap.setTrans_node]
  by_cases dir : (a₁.node ip).type = tDir
  · rw [if_pos dir]
    refine finish_spec runs inside₃ here.refs locked (Set.mem_insert _ _) ?_
    change Move _ _ _ a₁.nodes
    rw [same]
    exact move_refl _ _
  rw [if_neg dir]
  have node : a₁.node ip = a.nodes (a₁.inums ip) := by rw [Snap.node, same]
  refine ensures_both_then (inside_relink runs inside₃ mine incr_lt (Set.mem_insert _ _)) ?_
  intro _ s₄ inside₄
  refine ensures_then (inside_unlock inside₄ mine) ?_
  intro _ s₅ unlocked
  -- The state in which the second walk starts.
  obtain ⟨b, inside₅, refs, lockedB, inums, ready, nodes⟩ : ∃ b,
      Inside t 5 (insert (iblock (a₁.inums ip)) (bitmapBlocks t.sb)) R a b s₅ ∧ b.refs = bump R ip ∧
      b.locked = ∅ ∧ b.inums = a₁.inums ∧ ip ∈ b.loaded ∧ b.nodes = setNode a.nodes (a₁.inums ip)
        (relink (a.nodes (a₁.inums ip)) (incr (a.nodes (a₁.inums ip)).nlink)) := by
    refine ⟨_, unlocked, here.refs, (Finset.erase_insert free).trans lockedHere, rfl,
      Set.mem_insert _ _, ?_⟩
    change setNode a₁.nodes (a₁.inums ip) (relink (a₁.node ip) (incr (a₁.node ip).nlink)) = _
    rw [node, same]
  have all : AllLive b := by
    intro k some
    by_cases mineK : k = ip
    · rw [mineK, Snap.node, inums, nodes, setNode_at, type_relink, ← node]
      exact live
    · rw [refs, bump_other _ mineK] at some
      exact inside₅.busy.base k some
  have typed : Typed t b.nodes := by
    rw [nodes]
    exact typed_relink idle.typed _ _
  have room : Room t (insert (iblock (a₁.inums ip)) (bitmapBlocks t.sb)) 0 := inside_room inside₅
  have footprint := Set.mem_insert (iblock (a₁.inums ip)) (bitmapBlocks t.sb)
  have fits : (a.nodes (a₁.inums ip)).nlink < 2 ^ 16 := by
    rw [← node]
    exact rep_nlink here.rep held
  have heldB : 0 < b.refs ip := by
    rw [refs, bump_at]
    omega
  refine ensures_then (nameiparent_spec (busy_ready inside₅.busy all lockedB)
    (Or.inr (lt_of_lt_of_le home (inside₅.busy.below cwd))) room typed runs.igetNoInodes) ?_
  rintro (_ | ⟨dp, name⟩) s₆ found
  · obtain ⟨c, rep, frame, refsC⟩ := found
    have busy := busy_frame inside₅.busy all rep frame refsC
    have inumC : c.inums ip = a₁.inums ip := (frame.inums ip heldB).trans (congrFun inums ip)
    have nodeC : c.node ip = relink (a.nodes (a₁.inums ip)) (incr (a.nodes (a₁.inums ip)).nlink) := by
      rw [Snap.node, inumC, frame.nodes, nodes, setNode_at]
    refine linkBad_spec runs ⟨busy, frame.trans.trans inside₅.trans, inside₅.bitmaps, inside₅.room⟩
      (refsC.trans refs) (frame.locked.trans lockedB) (by rw [inumC]; exact footprint) ?_ ?_
    · rw [nodeC, type_relink, ← node]
      exact live
    · rw [inumC, nodeC, frame.nodes, nodes, setNode_twice]
      change Move _ _ _ (setNode _ _ { a.nodes (a₁.inums ip) with
        nlink := decr (incr (a.nodes (a₁.inums ip)).nlink) })
      rw [decr_incr fits]
      change Move _ _ _ (setNode _ _ (a.nodes (a₁.inums ip)))
      rw [setNode_same]
      exact move_refl _ _
  · obtain ⟨c, hereC, dirC, target⟩ := found
    rw [nodes, resolve_relink, inums, here.frame.inums cwd home] at target
    have frame := hereC.frame
    have busy := busy_at inside₅.busy all hereC
    have allC : AllLive c := allLive_at all hereC (by rw [dirC]; decide)
    refine linkEntry_spec (n := 2) runs ⟨busy, frame.trans.trans inside₅.trans, inside₅.bitmaps,
      inside₅.room⟩ ?_ (frame.locked.trans lockedB) allC ?_ (frame.loaded ip heldB ready) footprint
      (frame.nodes.trans nodes) (node ▸ dir) fits dirC (may _ name target)
    · rw [hereC.refs, refs]
    · exact (frame.inums ip heldB).trans (congrFun inums ip)

end Calls

end Xv6.OpSpec
