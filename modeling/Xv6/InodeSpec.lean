import Xv6.DevSpec

/-! Specifications of the inode layer of kernel/fs.c. The abstract state `Snap`
has the inodes as byte arrays, the reference counts of the icache slots and which
of them are locked. `Core` ties it to the program's state through the blocks `h`
and the dinodes `eff` in force, `World` says that the nodes are what those mean,
and `Rep` forgets the two. -/
namespace Xv6.InodeSpec
open TraceMonad BitField RedoLog Layout Codec Bio Fs Disk DevSpec

/-- `loaded` slots have read their dinode; `stale` inodes have a dinode in memory
that iupdate has not written yet. -/
structure Snap where
  nodes : Nat → Node
  refs : Nat → Nat
  inums : Nat → Nat
  locked : Finset Nat
  loaded : Set Nat
  stale : Finset Nat
  trans : Bool
  console : Nat → Option (List UInt8)

structure Cached (sb : Superblock) (eff : Nat → Dinode) (a : Snap) (icache : Nat → Inode) :
    Prop where
  refs : ∀ k, (icache k).ref = a.refs k
  slot : ∀ k, 0 < a.refs k → k < 50 ∧ (icache k).inum = a.inums k ∧ 0 < a.inums k ∧
    a.inums k < sb.ninodes
  unique : ∀ k l, 0 < a.refs k → 0 < a.refs l → a.inums k = a.inums l → k = l
  copy : ∀ k, 0 < a.refs k → (icache k).valid = true → (icache k).din = eff (a.inums k)
  busy : ∀ k, (icache k).busy = decide (k ∈ a.locked)
  locked : ∀ k ∈ a.locked, 0 < a.refs k ∧ k ∈ a.loaded
  loaded : ∀ k, 0 < a.refs k → ((icache k).valid = true ↔ k ∈ a.loaded)

structure Core (t : Setting) (F : Set Nat) (H : Finset Nat) (h : Nat → Block)
    (eff : Nat → Dinode) (spare : Set Nat) (a : Snap) (s : State) : Prop where
  dev : Holds t F h a.trans H s.dev
  blocks : Blocks t.sb h eff spare
  synced : ∀ i < t.sb.ninodes, i ∉ a.stale → dinodeAt h i = eff i
  cached : Cached t.sb eff a s.icache
  console : s.console = a.console

structure World (t : Setting) (F : Set Nat) (H : Finset Nat) (h : Nat → Block)
    (eff : Nat → Dinode) (spare : Set Nat) (a : Snap) (s : State) : Prop
    extends Core t F H h eff spare a s where
  nodes : ∀ i < t.sb.ninodes, a.nodes i = nodeOf h (eff i)

def Rep (t : Setting) (F : Set Nat) (a : Snap) (s : State) : Prop :=
  ∃ h eff, World t F ∅ h eff ∅ a s

def bump (refs : Nat → Nat) (k : Nat) : Nat → Nat := fun j => if j = k then refs j + 1 else refs j

def drop (refs : Nat → Nat) (k : Nat) : Nat → Nat := fun j => if j = k then refs j - 1 else refs j

namespace Snap

def lock (a : Snap) (k : Nat) : Snap :=
  { a with locked := insert k a.locked, loaded := insert k a.loaded }

def unlock (a : Snap) (k : Nat) : Snap := { a with locked := a.locked.erase k }

def bump (a : Snap) (k : Nat) : Snap := { a with refs := InodeSpec.bump a.refs k }

def drop (a : Snap) (k : Nat) : Snap := { a with refs := InodeSpec.drop a.refs k }

def setTrans (a : Snap) (trans : Bool) : Snap := { a with trans := trans }

@[simp] theorem bump_refs (a : Snap) (k : Nat) : (a.bump k).refs = InodeSpec.bump a.refs k := rfl

@[simp] theorem drop_refs (a : Snap) (k : Nat) : (a.drop k).refs = InodeSpec.drop a.refs k := rfl

/-- The node of the inode in slot `k`. -/
def node (a : Snap) (k : Nat) : Node := a.nodes (a.inums k)

@[simp] theorem lock_node (a : Snap) (k l : Nat) : (a.lock k).node l = a.node l := rfl

@[simp] theorem unlock_node (a : Snap) (k l : Nat) : (a.unlock k).node l = a.node l := rfl

@[simp] theorem bump_node (a : Snap) (k l : Nat) : (a.bump k).node l = a.node l := rfl

@[simp] theorem drop_node (a : Snap) (k l : Nat) : (a.drop k).node l = a.node l := rfl

@[simp] theorem setTrans_node (a : Snap) (trans : Bool) (l : Nat) :
    (a.setTrans trans).node l = a.node l := rfl

theorem lock_unlock_locked {a : Snap} {k : Nat} (free : k ∉ a.locked) :
    ((a.lock k).unlock k).locked = a.locked := Finset.erase_insert free

end Snap

/-- The in-memory dinode shows the fields of the node. -/
structure Shows (node : Node) (d : Dinode) : Prop where
  type : d.type = node.type
  major : d.major = node.major
  nlink : d.nlink = node.nlink
  size : d.size = node.size

section Facts
variable {t : Setting} {F : Set Nat} {H : Finset Nat} {h : Nat → Block} {eff : Nat → Dinode}
  {spare : Set Nat} {a : Snap} {s : State} {ip : Nat}

theorem core_din (core : Core t F H h eff spare a s) (mine : ip ∈ a.locked) :
    (s.icache ip).din = eff (a.inums ip) :=
  have held := core.cached.locked ip mine
  core.cached.copy ip held.1 ((core.cached.loaded ip held.1).mpr held.2)

theorem world_shows (world : World t F H h eff spare a s) (mine : ip ∈ a.locked) :
    Shows (a.node ip) (s.icache ip).din := by
  have held := (world.cached.locked ip mine).1
  have inside := (world.cached.slot ip held).2.2.2
  rw [core_din world.toCore mine]
  have same : a.node ip = nodeOf h (eff (a.inums ip)) := world.nodes _ inside
  exact ⟨by rw [same]; rfl, by rw [same]; rfl, by rw [same]; rfl, by rw [same]; rfl⟩

theorem rep_shows (rep : Rep t F a s) (mine : ip ∈ a.locked) :
    Shows (a.node ip) (s.icache ip).din ∧ (s.icache ip).inum = a.inums ip := by
  obtain ⟨h, eff, world⟩ := rep
  exact ⟨world_shows world mine, (world.cached.slot ip (world.cached.locked ip mine).1).2.1⟩

theorem rep_inum (rep : Rep t F a s) (held : 0 < a.refs ip) :
    ip < 50 ∧ (s.icache ip).inum = a.inums ip ∧ 0 < a.inums ip ∧ a.inums ip < t.sb.ninodes := by
  obtain ⟨h, eff, world⟩ := rep
  exact world.cached.slot ip held

theorem rep_mono {F' : Set Nat} (rep : Rep t F a s) (subset : F ⊆ F') : Rep t F' a s := by
  obtain ⟨h, eff, world⟩ := rep
  exact ⟨h, eff, { world with dev := holds_mono world.dev subset }⟩

theorem cached_congr {sb : Superblock} {a' : Snap} {icache : Nat → Inode}
    (cached : Cached sb eff a icache) (refs : a'.refs = a.refs) (inums : a'.inums = a.inums)
    (locked : a'.locked = a.locked) (loaded : a'.loaded = a.loaded) : Cached sb eff a' icache := by
  refine ⟨?_, ?_, ?_, ?_, ?_, ?_, ?_⟩ <;> simp only [refs, inums, locked, loaded]
  · exact cached.refs
  · exact cached.slot
  · exact cached.unique
  · exact cached.copy
  · exact cached.busy
  · exact cached.locked
  · exact cached.loaded

theorem world_icache {a' : Snap} {icache : Nat → Inode} (world : World t F H h eff spare a s)
    (cached : Cached t.sb eff a' icache) (nodes : a'.nodes = a.nodes) (stale : a'.stale = a.stale)
    (trans : a'.trans = a.trans) (console : a'.console = a.console) :
    World t F H h eff spare a' { s with icache := icache } :=
  ⟨⟨by rw [trans]; exact world.dev, world.blocks, by rw [stale]; exact world.synced, cached,
    by rw [console]; exact world.console⟩, by rw [nodes]; exact world.nodes⟩

theorem world_dev {F' : Set Nat} {H' : Finset Nat} {dev : Dev} (world : World t F H h eff spare a s)
    (holds : Holds t F' h a.trans H' dev) : World t F' H' h eff spare a { s with dev := dev } :=
  { world with dev := holds }

end Facts

/-! Locks and references. -/

section Slots
variable {t : Setting} {F : Set Nat} {a : Snap} {s : State} {ip : Nat}

/-- The program's update of one slot. -/
def setSlot (icache : Nat → Inode) (ip : Nat) (f : Inode → Inode) : Nat → Inode :=
  fun k => if k = ip then f (icache k) else icache k

@[simp] theorem setSlot_at (icache : Nat → Inode) (ip : Nat) (f : Inode → Inode) :
    setSlot icache ip f ip = f (icache ip) := by simp [setSlot]

theorem setSlot_other (icache : Nat → Inode) {ip k : Nat} (f : Inode → Inode) (other : k ≠ ip) :
    setSlot icache ip f k = icache k := by simp [setSlot, other]

/-- What `Cached` says of one slot. -/
structure Slotted (sb : Superblock) (eff : Nat → Dinode) (a : Snap) (k : Nat) (i : Inode) :
    Prop where
  ref : i.ref = a.refs k
  slot : 0 < a.refs k → k < 50 ∧ i.inum = a.inums k ∧ 0 < a.inums k ∧ a.inums k < sb.ninodes
  copy : 0 < a.refs k → i.valid = true → i.din = eff (a.inums k)
  busy : i.busy = decide (k ∈ a.locked)
  locked : k ∈ a.locked → 0 < a.refs k ∧ k ∈ a.loaded
  loaded : 0 < a.refs k → (i.valid = true ↔ k ∈ a.loaded)

section Slotting
variable {sb : Superblock} {eff eff' : Nat → Dinode} {icache : Nat → Inode} {a' : Snap}
  {f : Inode → Inode}

theorem slotted (cached : Cached sb eff a icache) (k : Nat) : Slotted sb eff a k (icache k) :=
  ⟨cached.refs k, cached.slot k, cached.copy k, cached.busy k, cached.locked k, cached.loaded k⟩

theorem slotted_congr {k : Nat} {i : Inode} (old : Slotted sb eff a k i)
    (refs : a'.refs k = a.refs k) (inums : a'.inums k = a.inums k)
    (locked : k ∈ a'.locked ↔ k ∈ a.locked) (loaded : k ∈ a'.loaded ↔ k ∈ a.loaded) :
    Slotted sb eff a' k i := by
  obtain ⟨ref, slot, copy, busy, lock, load⟩ := old
  constructor <;> simp only [refs, inums, locked, loaded] <;> assumption

theorem cached_update (cached : Cached sb eff a icache)
    (here : Slotted sb eff' a' ip (f (icache ip)))
    (others : ∀ k, k ≠ ip → Slotted sb eff a k (icache k) → Slotted sb eff' a' k (icache k))
    (unique : ∀ k l, 0 < a'.refs k → 0 < a'.refs l → a'.inums k = a'.inums l → k = l) :
    Cached sb eff' a' (setSlot icache ip f) := by
  have slots : ∀ k, Slotted sb eff' a' k (setSlot icache ip f k) := by
    intro k
    by_cases is : k = ip
    · rw [is, setSlot_at]
      exact here
    · rw [setSlot_other _ _ is]
      exact others k is (slotted cached k)
  exact ⟨fun k => (slots k).ref, fun k => (slots k).slot, unique, fun k => (slots k).copy,
    fun k => (slots k).busy, fun k => (slots k).locked, fun k => (slots k).loaded⟩

theorem cached_setSlot (cached : Cached sb eff a icache) (held : 0 < a.refs ip)
    (refs : a'.refs = a.refs) (inums : a'.inums = a.inums)
    (inum : (f (icache ip)).inum = (icache ip).inum) (ref : (f (icache ip)).ref = (icache ip).ref)
    (copy : (f (icache ip)).valid = true → (f (icache ip)).din = eff (a.inums ip))
    (busy : (f (icache ip)).busy = decide (ip ∈ a'.locked))
    (others : ∀ k, k ≠ ip → (k ∈ a'.locked ↔ k ∈ a.locked) ∧ (k ∈ a'.loaded ↔ k ∈ a.loaded))
    (locked : ip ∈ a'.locked → ip ∈ a'.loaded)
    (loaded : (f (icache ip)).valid = true ↔ ip ∈ a'.loaded) :
    Cached sb eff a' (setSlot icache ip f) := by
  refine cached_update cached ⟨?_, ?_, ?_, busy, ?_, fun _ => loaded⟩ (fun k other old =>
    slotted_congr old (by rw [refs]) (by rw [inums]) (others k other).1 (others k other).2)
    (by rw [refs, inums]; exact cached.unique)
  · rw [refs, ref, cached.refs]
  · rw [refs, inums, inum]
    exact cached.slot ip
  · rw [inums]
    exact fun _ => copy
  · rw [refs]
    exact fun member => ⟨held, locked member⟩

theorem cached_lock (cached : Cached sb eff a icache) (held : 0 < a.refs ip)
    (inum : (f (icache ip)).inum = (icache ip).inum) (ref : (f (icache ip)).ref = (icache ip).ref)
    (copy : (f (icache ip)).din = eff (a.inums ip)) (busy : (f (icache ip)).busy = true)
    (valid : (f (icache ip)).valid = true) : Cached sb eff (a.lock ip) (setSlot icache ip f) := by
  refine cached_setSlot cached held rfl rfl inum ref (fun _ => copy) ?_ (fun k other => ?_)
    (fun _ => Set.mem_insert ip _) (iff_of_true valid (Set.mem_insert ip _))
  · simp [Snap.lock, busy]
  · simp [Snap.lock, other]

end Slotting

theorem ilock_world {h : Nat → Block} {eff : Nat → Dinode} (world : World t F ∅ h eff ∅ a s)
    (room : Room t F 0) (held : 0 < a.refs ip) (fresh : a.inums ip ∉ a.stale)
    (asleep : ip ∉ a.locked ∨ t.contract.halts .asleep)
    (typed : (a.node ip).type ≠ 0 ∨ t.contract.halts .ilockNoType) :
    Ensures t.contract (ilock ip) s (fun _ s' => World t F ∅ h eff ∅ (a.lock ip) s' ∧
      ip ∉ a.locked ∧ (ip ∉ a.loaded → (a.node ip).type ≠ 0)) := by
  obtain ⟨_, inum, _, inside⟩ := world.cached.slot ip held
  have ref : (s.icache ip).ref = a.refs ip := world.cached.refs ip
  apply ensures_inspect_then
  rw [if_neg (by omega)]
  by_cases busy : (s.icache ip).busy = true
  · rw [if_pos busy]
    apply ensures_halt
    rw [world.cached.busy, decide_eq_true_eq] at busy
    exact asleep.resolve_left (fun free => free busy)
  rw [if_neg busy]
  have free : ip ∉ a.locked := by
    rw [world.cached.busy, decide_eq_true_eq] at busy
    exact busy
  apply ensures_change_then
  by_cases valid : (s.icache ip).valid = true
  · have cached : Cached t.sb eff (a.lock ip)
        (setSlot s.icache ip fun i => { i with busy := true }) :=
      cached_lock world.cached held rfl rfl (world.cached.copy ip held valid) rfl valid
    refine ensures_whenever (fun invalid => absurd valid (by simp [invalid])) fun _ => ?_
    exact ⟨world_icache world cached rfl rfl rfl rfl, free,
      fun cold => absurd ((world.cached.loaded ip held).mp valid) cold⟩
  have invalid : (s.icache ip).valid = false := by simpa using valid
  rw [whenever_true invalid, inum]
  have low := iblock_low t.sb inside
  have area := t.geometry.area
  rw [dataStart_eq] at area
  refine ensures_within_then (bread_spec world.dev room (by simp) (x := iblock (a.inums ip))
    (by omega) (Finset.notMem_empty _)) ?_
  rintro _ dev₁ ⟨rfl, holds₁⟩
  refine ensures_within_then (brelse_spec holds₁ (Finset.mem_insert_self _ _)) ?_
  intro _ dev₂ holds₂
  rw [Finset.erase_insert (Finset.notMem_empty _)] at holds₂
  apply ensures_change_then
  -- What ilock reads is the dinode in force, since the inode is not stale.
  have read : getDinode (h (iblock (a.inums ip))) (a.inums ip % ipb) = eff (a.inums ip) :=
    world.synced _ inside fresh
  have node : a.node ip = nodeOf h (eff (a.inums ip)) := world.nodes _ inside
  refine ensures_whenever (fun free => ensures_halt ?_) fun typed => ?_
  · rw [read] at free
    refine typed.resolve_left fun some => some ?_
    rw [node]
    exact free
  · have cached : Cached t.sb eff (a.lock ip)
        (setSlot s.icache ip fun i =>
          { i with busy := true, valid := true, din := eff (a.inums ip) }) :=
      cached_lock world.cached held rfl rfl rfl rfl rfl
    have final := world_icache (world_dev world holds₂) cached rfl rfl rfl rfl
    refine ⟨?_, free, fun _ => by rw [node]; rwa [read] at typed⟩
    convert final using 2
    funext k
    by_cases here : k = ip
    · subst here
      simp [setSlot, inum, read]
    · simp [setSlot, here]

theorem ilock_spec (rep : Rep t F a s) (room : Room t F 0) (held : 0 < a.refs ip)
    (fresh : a.inums ip ∉ a.stale) (asleep : ip ∉ a.locked ∨ t.contract.halts .asleep)
    (typed : (a.node ip).type ≠ 0 ∨ t.contract.halts .ilockNoType) :
    Ensures t.contract (ilock ip) s (fun _ s' => Rep t F (a.lock ip) s' ∧ ip ∉ a.locked ∧
      (ip ∉ a.loaded → (a.node ip).type ≠ 0)) := by
  obtain ⟨h, eff, world⟩ := rep
  refine ensures_weaken (ilock_world world room held fresh asleep typed) ?_
  rintro _ s' ⟨world', kept⟩
  exact ⟨⟨h, eff, world'⟩, kept⟩

theorem iunlock_spec (rep : Rep t F a s) (mine : ip ∈ a.locked) :
    Ensures t.contract (iunlock ip) s (fun _ s' => Rep t F (a.unlock ip) s') := by
  obtain ⟨h, eff, world⟩ := rep
  obtain ⟨held, ready⟩ := world.cached.locked ip mine
  have ref : (s.icache ip).ref = a.refs ip := world.cached.refs ip
  have busy : (s.icache ip).busy = true := by
    rw [world.cached.busy]
    simpa using mine
  apply ensures_inspect_then
  rw [if_neg (by simp [busy]; omega)]
  have cached : Cached t.sb eff (a.unlock ip)
      (setSlot s.icache ip fun i => { i with busy := false }) := by
    refine cached_setSlot world.cached held rfl rfl rfl rfl (world.cached.copy ip held) ?_ ?_
      (fun _ => ready) (world.cached.loaded ip held)
    · simp [Snap.unlock]
    · intro k other
      simp [Snap.unlock, other]
  exact ensures_change ⟨h, eff, world_icache world cached rfl rfl rfl rfl⟩

theorem bump_at (refs : Nat → Nat) (k : Nat) : bump refs k k = refs k + 1 := by simp [bump]

theorem bump_other (refs : Nat → Nat) {j k : Nat} (other : j ≠ k) : bump refs k j = refs j := by
  simp [bump, other]

theorem le_bump (refs : Nat → Nat) (j k : Nat) : refs j ≤ bump refs k j := by
  unfold bump
  split <;> omega

theorem drop_at (refs : Nat → Nat) (k : Nat) : drop refs k k = refs k - 1 := by simp [drop]

theorem drop_other (refs : Nat → Nat) {j k : Nat} (other : j ≠ k) : drop refs k j = refs j := by
  simp [drop, other]

theorem drop_le (refs : Nat → Nat) (j k : Nat) : drop refs k j ≤ refs j := by
  unfold drop
  split <;> omega

theorem drop_bump (refs : Nat → Nat) (k : Nat) : drop (bump refs k) k = refs := by
  funext j
  by_cases here : j = k
  · simp [drop, bump, here]
  · simp [drop, bump, here]

theorem drop_bump_bump (refs : Nat → Nat) (j k : Nat) :
    drop (bump (bump refs j) k) j = bump refs k := by
  funext l
  unfold drop bump
  by_cases atJ : l = j <;> by_cases atK : l = k <;> simp [atJ, atK] <;> split <;> omega

/-- Slots with base references `R` keep their inode; nodes, locks and the
transaction are untouched. -/
structure Frame (R : Nat → Nat) (a a' : Snap) : Prop where
  nodes : a'.nodes = a.nodes
  locked : a'.locked = a.locked
  stale : a'.stale = a.stale
  trans : a'.trans = a.trans
  console : a'.console = a.console
  inums : ∀ k, 0 < R k → a'.inums k = a.inums k
  loaded : ∀ k, 0 < R k → k ∈ a.loaded → k ∈ a'.loaded

theorem frame_weaken {R R' : Nat → Nat} {b : Snap} (frame : Frame R a b)
    (less : ∀ k, 0 < R' k → 0 < R k) : Frame R' a b :=
  { frame with
    inums := fun k some => frame.inums k (less k some)
    loaded := fun k some => frame.loaded k (less k some) }

theorem cached_bump {sb : Superblock} {eff : Nat → Dinode} {icache : Nat → Inode}
    (cached : Cached sb eff a icache) (held : 0 < a.refs ip) :
    Cached sb eff (a.bump ip) (setSlot icache ip fun i => { i with ref := i.ref + 1 }) := by
  have some : ∀ k, 0 < (a.bump ip).refs k → 0 < a.refs k := by
    intro k positive
    by_cases here : k = ip
    · exact here ▸ held
    · rwa [Snap.bump_refs, bump_other _ here] at positive
  have old := slotted cached ip
  refine cached_update cached ⟨?_, fun _ => old.slot held, fun _ => old.copy held, old.busy,
    fun member => ⟨?_, (old.locked member).2⟩, fun _ => old.loaded held⟩
    (fun k other kept => slotted_congr kept (bump_other _ other) rfl Iff.rfl Iff.rfl)
    fun k l left right => cached.unique k l (some k left) (some l right)
  · rw [Snap.bump_refs, bump_at, cached.refs]
  · exact lt_of_lt_of_le held (le_bump a.refs ip ip)

theorem idup_spec (rep : Rep t F a s) (held : 0 < a.refs ip) :
    Ensures t.contract (idup ip) s (fun r s' => r = ip ∧ Rep t F (a.bump ip) s') := by
  obtain ⟨h, eff, world⟩ := rep
  apply ensures_change_then
  exact ensures_pure ⟨rfl, h, eff, world_icache world (cached_bump world.cached held) rfl rfl rfl
    rfl⟩

theorem cached_recycle {sb : Superblock} {eff : Nat → Dinode} {icache : Nat → Inode} {i : Nat}
    (cached : Cached sb eff a icache) (small : ip < 50) (unused : a.refs ip = 0) (positive : 0 < i)
    (inside : i < sb.ninodes) (absent : ∀ k, 0 < a.refs k → a.inums k ≠ i) :
    Cached sb eff
      { a with
        refs := bump a.refs ip
        inums := fun k => if k = ip then i else a.inums k
        loaded := a.loaded \ {ip} }
      (setSlot icache ip fun node =>
        { node with inum := i, ref := 1, busy := false, valid := false }) := by
  have notLocked : ip ∉ a.locked := fun member => by
    have := (cached.locked ip member).1
    omega
  have other : ∀ k, k ≠ ip → 0 < bump a.refs ip k → 0 < a.refs k := fun k here some => by
    rwa [bump_other _ here] at some
  refine cached_update cached ⟨?_, fun _ => ⟨small, ?_, ?_⟩, fun _ valid => ?_, ?_,
    fun member => absurd member notLocked, fun _ => ?_⟩ (fun k here old => ?_) ?_
  · simp [bump, unused]
  · simp
  · simp [positive, inside]
  · cases valid
  · simp [notLocked]
  · simp
  · exact slotted_congr old (bump_other _ here) (if_neg here) Iff.rfl (by simp [here])
  · intro k l left right same
    by_cases atK : k = ip <;> by_cases atL : l = ip
    · rw [atK, atL]
    · simp only [atK, atL, ↓reduceIte] at same
      exact absurd same.symm (absent l (other l atL right))
    · simp only [atK, atL, ↓reduceIte] at same
      exact absurd same (absent k (other k atK left))
    · simp only [atK, atL, ↓reduceIte] at same
      exact cached.unique k l (other k atK left) (other l atL right) same

theorem iget_spec {i : Nat} (rep : Rep t F a s) (positive : 0 < i) (inside : i < t.sb.ninodes)
    (full : t.contract.halts .igetNoInodes) :
    Ensures t.contract (iget i) s (fun ip s' => ∃ a', Rep t F a' s' ∧ Frame a.refs a a' ∧
      a'.refs = bump a.refs ip ∧ a'.inums ip = i ∧ (a.refs ip = 0 → ip ∉ a'.loaded)) := by
  obtain ⟨h, eff, world⟩ := rep
  have cached := world.cached
  apply ensures_inspect_then
  cases found : (List.range ninode).find?
      (fun k => decide (0 < (s.icache k).ref ∧ (s.icache k).inum = i)) with
  | some ip =>
    have hit := List.find?_some found
    simp only [decide_eq_true_eq, cached.refs] at hit
    apply ensures_change_then
    refine ensures_pure ⟨a.bump ip, ⟨h, eff, world_icache world (cached_bump cached hit.1)
      rfl rfl rfl rfl⟩, ⟨rfl, rfl, rfl, rfl, rfl, fun _ _ => rfl, fun _ _ => id⟩, rfl, ?_,
      fun unused => by omega⟩
    rw [← hit.2, (cached.slot ip hit.1).2.1]
    rfl
  | none =>
    have absent : ∀ k, 0 < a.refs k → a.inums k ≠ i := by
      intro k some same
      obtain ⟨small, inum, _⟩ := cached.slot k some
      have miss := List.find?_eq_none.mp found k (List.mem_range.mpr small)
      simp only [decide_eq_true_eq, cached.refs, inum] at miss
      exact miss ⟨some, same⟩
    dsimp only
    cases spare : (List.range ninode).find? (fun k => decide ((s.icache k).ref = 0)) with
    | some ip =>
      have unused := List.find?_some spare
      simp only [decide_eq_true_eq, cached.refs] at unused
      have small := List.mem_range.mp (List.mem_of_find?_eq_some spare)
      have fresh := cached_recycle cached small unused positive inside absent
      apply ensures_change_then
      refine ensures_pure ⟨_, ⟨h, eff, world_icache world fresh rfl rfl rfl rfl⟩,
        ⟨rfl, rfl, rfl, rfl, rfl, ?_, ?_⟩, rfl, by simp, fun _ => by simp⟩
      · intro k some
        have here : k ≠ ip := fun same => by rw [same] at some; omega
        simp [here]
      · intro k some member
        have here : k ≠ ip := fun same => by rw [same] at some; omega
        exact ⟨member, here⟩
    | none => exact ensures_halt full

theorem cached_drop {sb : Superblock} {eff : Nat → Dinode} {icache : Nat → Inode}
    (cached : Cached sb eff a icache) (free : ip ∈ a.locked → 1 < a.refs ip) :
    Cached sb eff (a.drop ip) (setSlot icache ip fun i => { i with ref := i.ref - 1 }) := by
  have some : ∀ k, 0 < (a.drop ip).refs k → 0 < a.refs k :=
    fun k positive => lt_of_lt_of_le positive (drop_le a.refs k ip)
  have old := slotted cached ip
  refine cached_update cached ⟨?_, fun more => old.slot (some ip more),
    fun more => old.copy (some ip more), old.busy, fun member => ⟨?_, (old.locked member).2⟩,
    fun more => old.loaded (some ip more)⟩
    (fun k other kept => slotted_congr kept (drop_other _ other) rfl Iff.rfl Iff.rfl)
    fun k l left right => cached.unique k l (some k left) (some l right)
  · rw [Snap.drop_refs, drop_at, cached.refs]
  · have := free member
    rw [Snap.drop_refs, drop_at]
    omega

theorem iput_keep_spec (rep : Rep t F a s) (held : 0 < a.refs ip)
    (free : ip ∈ a.locked → 1 < a.refs ip)
    (kept : a.refs ip = 1 → ip ∈ a.loaded → (a.node ip).nlink ≠ 0) :
    Ensures t.contract (iput ip) s (fun _ s' => Rep t F (a.drop ip) s') := by
  obtain ⟨h, eff, world⟩ := rep
  have notLast : (s.icache ip).lastUnlinked ≠ true := by
    intro last
    simp only [Inode.lastUnlinked, Bool.and_eq_true, beq_iff_eq] at last
    obtain ⟨⟨one, valid⟩, unlinked⟩ := last
    rw [world.cached.refs] at one
    apply kept one ((world.cached.loaded ip held).mp valid)
    obtain ⟨_, _, _, inside⟩ := world.cached.slot ip held
    rw [Snap.node, world.nodes _ inside]
    rw [world.cached.copy ip held valid] at unlinked
    exact unlinked
  apply ensures_inspect_then
  apply ensures_quiet_then (whenever_false notLast s)
  exact ensures_change ⟨h, eff, world_icache world (cached_drop world.cached free) rfl rfl rfl
    rfl⟩

end Slots

/-! Fields of a locked inode. -/

section Fields
variable {t : Setting} {F : Set Nat} {H : Finset Nat} {h : Nat → Block} {eff : Nat → Dinode}
  {spare : Set Nat} {a : Snap} {s : State} {ip : Nat}

/-- The snapshot after the node of slot `ip` changed in memory. -/
def Snap.edit (a : Snap) (ip : Nat) (node : Node) : Snap :=
  { a with
    nodes := setNode a.nodes (a.inums ip) node
    stale := insert (a.inums ip) a.stale }

theorem cached_setDin {sb : Superblock} {icache : Nat → Inode} {a' : Snap} {d : Dinode}
    (cached : Cached sb eff a icache) (mine : ip ∈ a.locked) (refs : a'.refs = a.refs)
    (inums : a'.inums = a.inums) (locked : a'.locked = a.locked) (loaded : a'.loaded = a.loaded) :
    Cached sb (setEff eff (a.inums ip) d) a' (setSlot icache ip fun i => { i with din := d }) := by
  have old := slotted cached ip
  have held := (old.locked mine).1
  refine cached_congr (a := a) (cached_update cached { old with copy := fun _ _ => ?_ }
    (fun k other kept => { kept with copy := fun some valid => ?_ }) cached.unique)
    refs inums locked loaded
  · rw [setEff_at]
  · rw [setEff_other _ _ fun same => other (cached.unique k ip some held same)]
    exact kept.copy some valid

/-- The state with another dinode in slot `ip`. -/
def withDin (s : State) (ip : Nat) (d : Dinode) : State :=
  { s with icache := setSlot s.icache ip fun i => { i with din := d } }

theorem core_setDin {d : Dinode} (core : Core t F H h eff spare a s) (mine : ip ∈ a.locked)
    (blocks : Blocks t.sb h (setEff eff (a.inums ip) d) spare) :
    Core t F H h (setEff eff (a.inums ip) d) spare
      { a with stale := insert (a.inums ip) a.stale } (withDin s ip d) := by
  refine ⟨core.dev, blocks, ?_, cached_setDin core.cached mine rfl rfl rfl rfl, core.console⟩
  intro j bound fresh
  obtain ⟨other, clean⟩ := not_or.mp (fun member => fresh (Finset.mem_insert.mpr member))
  rw [setEff_other _ _ other]
  exact core.synced j bound clean

theorem world_setDin {d : Dinode} (world : World t F H h eff spare a s) (mine : ip ∈ a.locked)
    (addrs : d.addrs = (eff (a.inums ip)).addrs) (size : d.size = (eff (a.inums ip)).size)
    (type : d.type = (eff (a.inums ip)).type) (ok : DinodeOk d) :
    World t F H h (setEff eff (a.inums ip) d) spare (a.edit ip (nodeOf h d)) (withDin s ip d) := by
  obtain ⟨held, _⟩ := world.cached.locked ip mine
  obtain ⟨_, _, _, inside⟩ := world.cached.slot ip held
  have blocks := world.blocks
  have after : Blocks t.sb h (setEff eff (a.inums ip) d) spare := by
    refine blocks_setFields blocks addrs ok (by rw [size]; exact blocks.small _ inside) ?_ ?_
    · intro free k
      rw [addrs]
      exact blocks.clean _ inside (type ▸ free) k
    · intro k below
      rw [size] at below
      have same : blockOf h d k = blockOf h (eff (a.inums ip)) k := by
        rw [blockOf, blockOf, entry, entry, addrs]
      rw [same]
      exact blocks.full _ inside k below
  obtain ⟨dev, blocks', synced, cached, console⟩ := core_setDin world.toCore mine after
  refine ⟨⟨dev, blocks', synced, cached_congr cached rfl rfl rfl rfl, console⟩, ?_⟩
  intro j bound
  by_cases here : j = a.inums ip
  · rw [here, setEff_at]
    exact setNode_at _ _ _
  · rw [setEff_other _ _ here, ← world.nodes j bound]
    exact setNode_other _ _ here

theorem setDin_done (s : State) (ip : Nat) (f : Dinode → Dinode) :
    setDin ip f s = (.done () (withDin s ip (f (s.icache ip).din)), []) := by
  have same : (fun k => if k = ip then { s.icache k with din := f (s.icache k).din }
      else s.icache k) = setSlot s.icache ip fun i => { i with din := f (s.icache ip).din } := by
    funext k
    by_cases here : k = ip
    · subst here
      simp [setSlot]
    · simp [setSlot, here]
  simp only [setDin, setInode, change, same, withDin]

theorem setDin_run (core : Core t F H h eff spare a s) (mine : ip ∈ a.locked)
    (f : Dinode → Dinode) :
    setDin ip f s = (.done () (withDin s ip (f (eff (a.inums ip)))), []) := by
  rw [setDin_done, core_din core mine]

theorem withDin_twice (s : State) (ip : Nat) (d d' : Dinode) :
    withDin (withDin s ip d) ip d' = withDin s ip d' := by
  have same : setSlot (withDin s ip d).icache ip (fun i => { i with din := d' }) =
      setSlot s.icache ip fun i => { i with din := d' } := by
    funext k
    by_cases here : k = ip
    · subst here
      simp [withDin, setSlot]
    · simp [withDin, setSlot, here]
  rw [withDin, same]
  rfl

theorem withDin_same (s : State) (ip : Nat) : withDin s ip (s.icache ip).din = s := by
  have same : setSlot s.icache ip (fun i => { i with din := (s.icache ip).din }) = s.icache := by
    funext k
    by_cases here : k = ip
    · subst here
      simp [setSlot]
    · simp [setSlot, here]
  rw [withDin, same]

theorem setNlink_spec {f : Nat → Nat} (rep : Rep t F a s) (mine : ip ∈ a.locked)
    (fits : ∀ n, f n < 2 ^ 16) :
    Ensures t.contract (setNlink ip f) s (fun _ s' =>
      Rep t F (a.edit ip { a.node ip with nlink := f (a.node ip).nlink }) s') := by
  obtain ⟨h, eff, world⟩ := rep
  obtain ⟨held, _⟩ := world.cached.locked ip mine
  obtain ⟨_, _, _, inside⟩ := world.cached.slot ip held
  have ok := world.blocks.fields _ inside
  have after := world_setDin (d := { eff (a.inums ip) with nlink := f (eff (a.inums ip)).nlink })
    world mine rfl rfl rfl ⟨ok.type, ok.major, ok.minor, fits _, ok.size, ok.addrs, ok.beyond⟩
  have node : a.node ip = nodeOf h (eff (a.inums ip)) := world.nodes _ inside
  refine ensures_of_done (setDin_run world.toCore mine _) (fun _ member => (List.not_mem_nil member).elim) ?_
  rw [node]
  exact ⟨h, _, after⟩

theorem setMeta_spec {major minor nlink : Nat} (rep : Rep t F a s) (mine : ip ∈ a.locked)
    (fitsMajor : major < 2 ^ 16) (fitsMinor : minor < 2 ^ 16) (fits : nlink < 2 ^ 16) :
    Ensures t.contract
      (setDin ip fun d => { d with major := major, minor := minor, nlink := nlink }) s
      (fun _ s' => Rep t F
        (a.edit ip { a.node ip with major := major, minor := minor, nlink := nlink }) s') := by
  obtain ⟨h, eff, world⟩ := rep
  obtain ⟨held, _⟩ := world.cached.locked ip mine
  obtain ⟨_, _, _, inside⟩ := world.cached.slot ip held
  have ok := world.blocks.fields _ inside
  have after := world_setDin
    (d := { eff (a.inums ip) with major := major, minor := minor, nlink := nlink })
    world mine rfl rfl rfl ⟨ok.type, fitsMajor, fitsMinor, fits, ok.size, ok.addrs, ok.beyond⟩
  have node : a.node ip = nodeOf h (eff (a.inums ip)) := world.nodes _ inside
  refine ensures_of_done (setDin_run world.toCore mine _) (fun _ member => (List.not_mem_nil member).elim) ?_
  rw [node]
  exact ⟨h, _, after⟩

theorem iupdate_core (writes : Writes t) (core : Core t F H h eff spare a s)
    (room : Room t F 0) (few : H.card ≤ 1) (away : iblock (a.inums ip) ∉ H)
    (mine : ip ∈ a.locked) (footprint : iblock (a.inums ip) ∈ F) (writable : Writable t a.trans) :
    Ensures t.contract (iupdate ip) s (fun _ s' =>
      ∃ h', Core t F H h' eff spare { a with stale := a.stale.erase (a.inums ip) } s' ∧
        ∀ j < t.sb.ninodes, nodeOf h' (eff j) = nodeOf h (eff j)) := by
  obtain ⟨held, _⟩ := core.cached.locked ip mine
  obtain ⟨_, inum, _, inside⟩ := core.cached.slot ip held
  have low := iblock_low t.sb inside
  have area := t.geometry.area
  have start := dataStart_eq t.sb
  have ok := core.blocks.fields _ inside
  apply ensures_inspect_then
  rw [inum, core_din core mine]
  refine ensures_within_then (bread_spec core.dev room (by omega) (x := iblock (a.inums ip))
    (by omega) away) ?_
  rintro _ dev₁ ⟨rfl, holds₁⟩
  have card : (insert (iblock (a.inums ip)) H).card ≤ 2 :=
    (Finset.card_insert_le _ H).trans (by omega)
  refine ensures_within_then (logModify_spec writes holds₁ room card (Finset.mem_insert_self _ H)
    footprint writable) ?_
  intro _ dev₂ holds₂
  refine ensures_within (ensures_weaken (brelse_spec holds₂ (Finset.mem_insert_self _ H)) ?_)
  intro _ dev₃ holds₃
  rw [Finset.erase_insert away] at holds₃
  refine ⟨_, ⟨holds₃, ?_, ?_, cached_congr core.cached rfl rfl rfl rfl, core.console⟩, ?_⟩
  · exact blocks_store t.geometry core.blocks (plain_iblock core.blocks inside) _
  · intro j bound fresh
    rw [dinodeAt_putDinode h ok]
    split
    · rename_i here
      rw [here]
    · rename_i other
      refine core.synced j bound fun member => fresh ?_
      exact Finset.mem_erase.mpr ⟨other, member⟩
  · intro j bound
    exact nodeOf_store_low core.blocks _ bound (by omega)

theorem iupdate_spec (writes : Writes t) (rep : Rep t F a s) (room : Room t F 0)
    (mine : ip ∈ a.locked) (footprint : iblock (a.inums ip) ∈ F) (writable : Writable t a.trans) :
    Ensures t.contract (iupdate ip) s (fun _ s' =>
      Rep t F { a with stale := a.stale.erase (a.inums ip) } s') := by
  obtain ⟨h, eff, world⟩ := rep
  refine ensures_weaken (iupdate_core writes world.toCore room (by simp) (Finset.notMem_empty _) mine
    footprint writable) ?_
  rintro _ s' ⟨h', core', same⟩
  exact ⟨h', eff, core', fun j bound => (world.nodes j bound).trans (same j bound).symm⟩

end Fields

end Xv6.InodeSpec
