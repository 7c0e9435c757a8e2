import Xv6.OpSpec
import Xv6.Syscall

/-! create of kernel/sysfile.c and its callers mkdir, mknod and open. -/
namespace Xv6.CreateSpec
open TraceMonad Layout Codec Bio Fs Disk DevSpec InodeSpec ContentSpec InodeLife Directory DirSpec
open Moves OpSpec

section New
variable {t : Setting} {F : Set Nat} {R : Nat → Nat} {a₀ a : Snap} {s : State}
  {ip dp n i type major minor : Nat} {name : List UInt8}

theorem shape_empty {node : Node} (empty : node.size = 0) : DirShape n node := by
  refine ⟨by rw [empty], fun j below => ?_⟩
  rw [slotCount, empty] at below
  omega

theorem busy_ialloc {a' : Snap} {F' : Set Nat} {s' : State} (busy : Busy t F R a₀ a s)
    (all : AllLive a) (free : (a.nodes i).type = 0) (typed : type ≠ 0)
    (frame : Frame a.refs (putNode a i (newNode type)) a') (refs : a'.refs = bump a.refs ip)
    (inum : a'.inums ip = i) (rep : Rep t F' (a'.lock ip) s') :
    Busy t F' R a₀ (a'.lock ip) s' ∧ AllLive (a'.lock ip) := by
  have node : ∀ k, 0 < a.refs k → a'.node k = a.node k := by
    intro k held
    rw [frame_node frame held]
    refine setNode_other _ _ fun (same : a.inums k = i) => all k held ?_
    rw [Snap.node, same]
    exact free
  have below : ∀ k, 0 < R k → 0 < a.refs k := fun k some => lt_of_lt_of_le some (busy.below k)
  have live : AllLive (a'.lock ip) := by
    intro k some
    rw [Snap.lock_node]
    by_cases new : k = ip
    · rw [new, Snap.node, inum, frame.nodes, putNode_nodes, setNode_at]
      exact typed
    · change 0 < a'.refs k at some
      rw [refs, bump_other _ new] at some
      rw [node k some]
      exact all k some
  refine ⟨⟨rep, fun k some _ => live k some, fun j inside typed unlinked => ?_, ?_, fun k some => ?_,
    fun k => ?_, ?_, frame.stale.trans busy.clean⟩, live⟩
  · by_cases new : j = i
    · refine ⟨ip, ?_, inum.trans new.symm, Set.mem_insert _ _⟩
      change 0 < a'.refs ip
      rw [refs, bump_at]
      omega
    · change (a'.nodes j).type ≠ 0 at typed
      change (a'.nodes j).nlink = 0 at unlinked
      rw [frame.nodes, putNode_nodes, setNode_other _ _ new] at typed unlinked
      obtain ⟨k, some, same, ready⟩ := busy.anchored j inside typed unlinked
      refine ⟨k, ?_, (frame.inums k some).trans same,
        Set.mem_insert_of_mem ip (frame.loaded k some ready)⟩
      change 0 < a'.refs k
      rw [refs]
      exact lt_of_lt_of_le some (le_bump a.refs k ip)
  · change Shapes _ a'.nodes
    rw [frame.nodes]
    exact shapes_setNode busy.shapes fun _ => shape_empty rfl
  · rw [Snap.lock_node, node k (below k some)]
    exact busy.base k some
  · change R k ≤ a'.refs k
    rw [refs]
    exact (busy.below k).trans (le_bump a.refs k ip)
  · have kept := busy.kept
    exact ⟨fun k some => (frame.inums k (below k some)).trans (kept.inums k some),
      fun k some member => Set.mem_insert_of_mem ip
        (frame.loaded k (below k some) (kept.loaded k some member)),
      frame.console.trans kept.console⟩

theorem inside_ialloc {β : Type} {next : Nat → FsM β} {post : β → State → Prop} (runs : Runs t)
    (inside : Inside t (n + 1) F R a₀ a s) (all : AllLive a) (small : type < 2 ^ 16) (typed : type ≠ 0)
    (continues : ∀ ip i a' s', 0 < i → i < t.sb.ninodes → (a.nodes i).type = 0 →
      Inside t n (insert (iblock i) F) R a₀ (a'.lock ip) s' → AllLive (a'.lock ip) →
      Frame a.refs (putNode a i (newNode type)) a' → a'.refs = bump a.refs ip → a'.inums ip = i →
      a.refs ip = 0 → Ensures t.contract (next ip) s' post) :
    Ensures t.contract (do let ip ← ialloc type; ilock ip; next ip) s post := by
  refine ensures_then (ialloc_spec runs.writes inside.busy.rep inside.busy.clean all inside.room
    (inside_writable inside) small runs.igetNoInodes runs.iallocNoInodes) ?_
  rintro ip s₁ ⟨i, a₁, positive, bound, free, rep, frame, refs, inum, unused, _⟩
  have room := room_insert inside.room (iblock i)
  have node : a₁.node ip = newNode type := by
    rw [Snap.node, inum, frame.nodes, putNode_nodes, setNode_at]
  refine ensures_then (ilock_spec rep (room_less room (Nat.zero_le n)) (by rw [refs, bump_at]; omega)
    ?_ (Or.inr runs.asleep) (Or.inl (by rw [node]; exact typed))) ?_
  · rw [frame.stale]
    change _ ∉ a.stale
    rw [inside.busy.clean]
    exact Finset.notMem_empty _
  rintro _ s₂ ⟨rep₂, _, _⟩
  obtain ⟨busy, live⟩ := busy_ialloc inside.busy all free typed frame refs inum rep₂
  refine continues ip i a₁ s₂ positive bound free ⟨busy, frame.trans.trans inside.trans, ?_, room⟩ live
    frame refs inum unused
  exact fun b low => Set.mem_insert_of_mem _ (inside.bitmaps b low)

theorem inside_meta (runs : Runs t) (inside : Inside t n F R a₀ a s) (mine : ip ∈ a.locked)
    (fresh : a.node ip = newNode type) (fitsMajor : major < 2 ^ 16) (fitsMinor : minor < 2 ^ 16)
    (footprint : iblock (a.inums ip) ∈ F) :
    Ensures t.contract (do
      setDin ip fun d => { d with major := major, minor := minor, nlink := 1 }
      iupdate ip) s (fun _ s' =>
        Inside t n F R a₀ (putNode a (a.inums ip) (newFile type major minor)) s') := by
  have edits := setMeta_spec inside.busy.rep mine fitsMajor fitsMinor (show 1 < 2 ^ 16 by decide)
  rw [fresh] at edits
  refine ensures_weaken (busy_edit runs.writes inside.busy mine edits (by rw [fresh])
    (fun _ => shape_empty rfl) (inside_room inside) footprint (inside_writable inside)) ?_
  intro _ s' busy
  exact ⟨busy, inside.trans, inside.bitmaps, inside.room⟩

theorem allLive_putNode (ip : Nat) (node : Node) (all : AllLive a) (type : node.type = (a.node ip).type) :
    AllLive (putNode a (a.inums ip) node) := by
  intro k held
  by_cases here : a.inums k = a.inums ip
  · change (setNode a.nodes (a.inums ip) node (a.inums k)).type ≠ 0
    rw [here, setNode_at, type, Snap.node, ← here]
    exact all k held
  · rw [putNode_node_other a node here]
    exact all k held

theorem slotCount_newFile (type major minor : Nat) : slotCount (newFile type major minor) = 0 :=
  Nat.zero_div 16

theorem lookup_newFile (type major minor : Nat) (name : List UInt8) :
    lookup (newFile type major minor) name = none :=
  scan_end (slotCount_newFile type major minor).le

theorem slotCount_addEntry (node : Node) (name : List UInt8) (i : Nat) :
    slotCount (addEntry node name i) = max (slotCount node) (freeSlot node + 1) :=
  slotCount_putSlot (length_strncpy name 14)

theorem freeSlot_newFile (type major minor : Nat) : freeSlot (newFile type major minor) = 0 :=
  Nat.le_zero.mp ((freeSlot_le _).trans (slotCount_newFile type major minor).le)

theorem lookup_dotdot (small : i < 2 ^ 16) :
    lookup (addEntry (newFile tDir 0 0) dot i) dotdot = none := by
  have count : slotCount (addEntry (newFile tDir 0 0) dot i) = 1 := by
    rw [slotCount_addEntry, freeSlot_newFile, slotCount_newFile]
    rfl
  have first : slot (addEntry (newFile tDir 0 0) dot i) 0 = ⟨i, strncpy dot dirsiz⟩ := by
    unfold addEntry
    rw [freeSlot_newFile]
    exact slot_putSlot_same (length_strncpy dot 14) small
  have differs : named dotdot ⟨i, strncpy dot dirsiz⟩ = false := by
    rw [named, Bool.and_eq_false_iff]
    exact Or.inr (show (namecmp dotdot (strncpy dot dirsiz) == 0) = false by decide)
  rw [lookup, scan_step (by omega), first, differs, scan_end (by omega)]
  rfl

theorem createDots_spec (runs : Runs t) (inside : Inside t (n + 2) F R a₀ a s) (all : AllLive a)
    (mineP : dp ∈ a.locked) (mine : ip ∈ a.locked) (apart : a.inums ip ≠ a.inums dp)
    (footprintP : iblock (a.inums dp) ∈ F) (footprint : iblock (a.inums ip) ∈ F)
    (fresh : a.node ip = newFile tDir 0 0) :
    Ensures t.contract (createDots dp ip) s (fun _ s' => ∃ F', F ⊆ F' ∧
      Inside t n F' R a₀ (putNode (putNode a (a.inums dp) (relink (a.node dp)
        (incr (a.node dp).nlink))) (a.inums ip) (newDir (a.inums ip) (a.inums dp))) s') := by
  obtain ⟨_, _, _, boundP⟩ := rep_inum inside.busy.rep (rep_held inside.busy.rep dp mineP)
  obtain ⟨_, _, _, bound⟩ := rep_inum inside.busy.rep (rep_held inside.busy.rep ip mine)
  have inums := t.geometry.inums
  refine ensures_both_then (inside_relink runs inside mineP incr_lt footprintP) ?_
  intro _ s₁ inside₁
  replace all := allLive_putNode dp (relink (a.node dp) (incr (a.node dp).nlink)) all rfl
  have fresh₁ : (putNode a (a.inums dp) (relink (a.node dp) (incr (a.node dp).nlink))).node ip =
      newFile tDir 0 0 := by rw [putNode_node_other a _ apart, fresh]
  generalize named₁ : putNode a (a.inums dp) (relink (a.node dp) (incr (a.node dp).nlink)) = b
    at inside₁ all fresh₁ ⊢
  have sameInums : b.inums = a.inums := by rw [← named₁]; rfl
  have sameLocked : b.locked = a.locked := by rw [← named₁]; rfl
  apply ensures_inspect_then
  apply ensures_inspect_then
  rw [(rep_shows inside₁.busy.rep (sameLocked ▸ mine)).2,
    (rep_shows inside₁.busy.rep (sameLocked ▸ mineP)).2, sameInums]
  have dir : (b.node ip).type = tDir := by rw [fresh₁]; rfl
  refine ensures_then (inside_dirlink (n := n + 1) (c := 1) runs inside₁ all (sameLocked ▸ mine) dir
    (sameInums ▸ footprint) (touched_low (by rw [fresh₁, freeSlot_newFile]; omega)) bound) ?_
  intro r s₂ linked
  rw [fresh₁, lookup_newFile] at linked
  obtain ⟨rfl, F₂, more₂, inside₂⟩ := linked
  replace all := allLive_putNode ip (addEntry (newFile tDir 0 0) dot (a.inums ip)) all
    (by rw [fresh₁]; rfl)
  have fresh₂ : (putNode b (b.inums ip) (addEntry (newFile tDir 0 0) dot (a.inums ip))).node ip =
      addEntry (newFile tDir 0 0) dot (a.inums ip) := putNode_node_at _ _ _
  have count := freeSlot_le (addEntry (newFile tDir 0 0) dot (a.inums ip))
  rw [slotCount_addEntry, freeSlot_newFile, slotCount_newFile] at count
  have low : freeSlot (addEntry (newFile tDir 0 0) dot (a.inums ip)) < 384 :=
    lt_of_le_of_lt count (by decide)
  refine ensures_then (inside_dirlink (n := n) (c := 1) runs inside₂ all (sameLocked ▸ mine)
    (by rw [fresh₂]; rfl) (more₂ (sameInums ▸ footprint)) (touched_low (by rw [fresh₂]; exact low))
    boundP) ?_
  intro r s₃ linked
  rw [fresh₂, lookup_dotdot (by omega)] at linked
  obtain ⟨rfl, F₃, more₃, inside₃⟩ := linked
  refine ensures_of_done (whenever_false (by simp) s₃)
    (fun _ member => (List.not_mem_nil member).elim) ⟨F₃, more₂.trans more₃, ?_⟩
  have twice := putNode_twice b (b.inums ip) (addEntry (newFile tDir 0 0) dot (a.inums ip))
    (newDir (a.inums ip) (a.inums dp))
  rw [putNode_inums] at inside₃
  rw [sameInums] at twice inside₃
  rw [← twice]
  exact inside₃

/-- create has returned slot `ip`, locked. -/
structure Made (t : Setting) (R : Nat → Nat) (a₀ : Snap) (type ip : Nat) (s : State) (n : Nat)
    (F : Set Nat) (a : Snap) : Prop where
  inside : Inside t n F R a₀ a s
  refs : a.refs = bump R ip
  locked : a.locked = {ip}
  footprint : iblock (a.inums ip) ∈ F
  move : Move t.sb.ninodes t.permit a₀.nodes a.nodes
  type : (a.node ip).type = type
  linked : (a.node ip).nlink = 0 → 0 < R ip

theorem setNode_comm {j : Nat} (nodes : Nat → Node) (x y : Node) (other : i ≠ j) :
    setNode (setNode nodes i x) j y = setNode (setNode nodes j y) i x := by
  funext k
  by_cases left : k = i
  · rw [left, setNode_at, setNode_other _ _ other, setNode_at]
  · rw [setNode_other _ _ left]
    by_cases right : k = j
    · rw [right, setNode_at, setNode_at]
    · rw [setNode_other _ _ right, setNode_other _ _ right, setNode_other _ _ left]

/-- The new inode and its parent just before create adds the entry. -/
structure Prepared (t : Setting) (nodes : Nat → Node) (type i parent : Nat) (name : List UInt8)
    (nodes' : Nat → Node) : Prop where
  child : (nodes' i).type = type
  linked : (nodes' i).nlink = 1
  dir : (nodes' parent).type = tDir
  absent : lookup (nodes' parent) name = none
  main : Main t.sb.ninodes t.permit nodes (setNode nodes' parent (addEntry (nodes' parent) name i))

theorem lookup_relink (node : Node) (nlink : Nat) (name : List UInt8) :
    lookup (relink node nlink) name = lookup node name := rfl

theorem prepare_spec (name : List UInt8) (runs : Runs t) (inside : Inside t (n + 4) F R a₀ a s) (all : AllLive a)
    (mineP : dp ∈ a.locked) (mine : ip ∈ a.locked) (inum : a.inums ip = i)
    (footprintP : iblock (a.inums dp) ∈ F) (footprint : iblock i ∈ F) {nodes : Nat → Node}
    (now : a.nodes = setNode nodes i (newFile type major minor)) (free : (nodes i).type = 0)
    (dir : (nodes (a.inums dp)).type = tDir) (absent : lookup (nodes (a.inums dp)) name = none)
    (typed : type ≠ 0) (plain : type = tDir → major = 0 ∧ minor = 0)
    (allowed : t.permit.adds (a.inums dp)) :
    Ensures t.contract (whenever (type = tDir) (createDots dp ip)) s (fun _ s' => ∃ F' a', F ⊆ F' ∧
      Inside t (n + 2) F' R a₀ a' s' ∧ a'.refs = a.refs ∧ a'.locked = a.locked ∧
      a'.inums = a.inums ∧ AllLive a' ∧ Prepared t nodes type i (a.inums dp) name a'.nodes) := by
  obtain ⟨_, _, _, boundP⟩ := rep_inum inside.busy.rep (rep_held inside.busy.rep dp mineP)
  obtain ⟨_, _, positive, bound⟩ := rep_inum inside.busy.rep (rep_held inside.busy.rep ip mine)
  rw [inum] at positive bound
  have other : i ≠ a.inums dp := by
    intro same
    rw [← same, free] at dir
    exact absurd dir (by decide)
  have node : a.node ip = newFile type major minor := by rw [Snap.node, inum, now, setNode_at]
  have nodeP : a.node dp = nodes (a.inums dp) := by rw [Snap.node, now, setNode_other _ _ other.symm]
  refine ensures_whenever (fun isDir => ?_) fun file => ?_
  · obtain ⟨rfl, rfl⟩ := plain isDir
    subst isDir
    refine ensures_weaken (createDots_spec (n := n + 2) runs inside all mineP mine (inum ▸ other)
      footprintP (inum ▸ footprint) node) ?_
    rintro _ s' ⟨F', more, inside'⟩
    refine ⟨F', _, more, inside', rfl, rfl, rfl, ?_, ?_⟩
    · have first := allLive_putNode dp (relink (a.node dp) (incr (a.node dp).nlink))
        all rfl
      refine allLive_putNode ip _ first ?_
      rw [putNode_node_other a _ (inum ▸ other), node]
      rfl
    · rw [inum, putNode_nodes, putNode_nodes, now, nodeP, ← setNode_comm _ _ _ other, setNode_twice]
      refine ⟨?_, ?_, ?_, ?_, ?_⟩
      · rw [setNode_other _ _ other, setNode_at]
        rfl
      · rw [setNode_other _ _ other, setNode_at]
        rfl
      · rw [setNode_at]
        exact dir
      · rw [setNode_at, lookup_relink]
        exact absent
      · rw [setNode_at, setNode_twice]
        exact Main.mkdir boundP positive bound dir free absent allowed
  · refine ⟨F, a, subset_rfl, ⟨inside.busy, inside.trans, inside.bitmaps, room_less inside.room (by omega)⟩,
      rfl, rfl, rfl, all, ?_⟩
    rw [now]
    refine ⟨by rw [setNode_at]; rfl, by rw [setNode_at]; rfl, ?_, ?_, ?_⟩
    · rwa [setNode_other _ _ other.symm]
    · rwa [setNode_other _ _ other.symm]
    · rw [setNode_other _ _ other.symm]
      exact Main.create boundP positive bound dir free typed file absent allowed

theorem createNew_spec (runs : Runs t) (inside : Inside t (n + 5) F R a₀ a s) (all : AllLive a)
    (nodes : a.nodes = a₀.nodes) (refs : a.refs = bump R dp) (locked : a.locked = {dp})
    (footprintP : iblock (a.inums dp) ∈ F) (dir : (a.node dp).type = tDir)
    (absent : lookup (a.node dp) name = none) (typed : type ≠ 0) (small : type < 2 ^ 16)
    (fitsMajor : major < 2 ^ 16) (fitsMinor : minor < 2 ^ 16)
    (plain : type = tDir → major = 0 ∧ minor = 0) (allowed : t.permit.adds (a.inums dp)) :
    Ensures t.contract (createNew dp name type major minor) s
      (fun ip s' => ∃ n F' a', Made t R a₀ type ip s' n F' a') := by
  have heldP : 0 < a.refs dp := rep_held inside.busy.rep dp (by simp [locked])
  refine inside_ialloc (n := n + 4) runs inside all small typed ?_
  intro ip i a₁ s₂ positive bound free inside₂ all₁ frame refs₁ inum unused
  have apart : dp ≠ ip := by
    rintro rfl
    omega
  have inumP : a₁.inums dp = a.inums dp := frame.inums dp heldP
  have other : i ≠ a.inums dp := by
    intro same
    rw [Snap.node, ← same, free] at dir
    exact absurd dir (by decide)
  have node₁ : a₁.node ip = newNode type := by
    rw [Snap.node, inum, frame.nodes, putNode_nodes, setNode_at]
  have mine : ip ∈ (a₁.lock ip).locked := Finset.mem_insert_self _ _
  have locked₁ : a₁.locked = {dp} := frame.locked.trans locked
  have mineP : dp ∈ (a₁.lock ip).locked := by simp [Snap.lock, locked₁]
  have footprint : iblock i ∈ insert (iblock i) F := Set.mem_insert _ _
  refine ensures_both_then (inside_meta runs inside₂ mine node₁ fitsMajor fitsMinor
    (by rw [show (a₁.lock ip).inums ip = i from inum]; exact footprint)) ?_
  intro _ s₃ inside₃
  -- The new inode is on disk; `b` is what create has made so far.
  obtain ⟨b, inside₃, refs₃, locked₃, inums₃, all₃, nodes₃⟩ : ∃ b,
      Inside t (n + 4) (insert (iblock i) F) R a₀ b s₃ ∧ b.refs = bump (bump R dp) ip ∧
      b.locked = insert ip {dp} ∧ b.inums = a₁.inums ∧ AllLive b ∧
      b.nodes = setNode a.nodes i (newFile type major minor) := by
    refine ⟨_, inside₃, ?_, ?_, rfl, allLive_putNode ip _ all₁ ?_, ?_⟩
    · rw [← refs, ← refs₁]
      rfl
    · rw [← locked₁]
      rfl
    · rw [Snap.lock_node, node₁]
      rfl
    · change setNode a₁.nodes (a₁.inums ip) _ = _
      rw [frame.nodes, putNode_nodes, inum, setNode_twice]
  have inumP₃ : b.inums dp = a.inums dp := by rw [inums₃, inumP]
  refine ensures_then (prepare_spec name runs inside₃ all₃ (by simp [locked₃])
    (by simp [locked₃]) (by rw [inums₃, inum]) (by rw [inumP₃]; exact Set.mem_insert_of_mem _ footprintP)
    footprint nodes₃ free (by rw [inumP₃]; exact dir) (by rw [inumP₃]; exact absent) typed plain
    (by rw [inumP₃]; exact allowed)) ?_
  rintro _ s₄ ⟨F₄, c, more₄, inside₄, refs₄, locked₄, inums₄, all₄, prepared⟩
  rw [inumP₃] at prepared
  have inum₄ : c.inums ip = i := by rw [inums₄, inums₃, inum]
  have inumP₄ : c.inums dp = a.inums dp := by rw [inums₄, inumP₃]
  have nodeP₄ : c.node dp = c.nodes (a.inums dp) := by rw [Snap.node, inumP₄]
  have mineP₄ : dp ∈ c.locked := by simp [locked₄, locked₃]
  have footprintP₄ : iblock (c.inums dp) ∈ F₄ := by
    rw [inumP₄]
    exact more₄ (Set.mem_insert_of_mem _ footprintP)
  apply ensures_inspect_then
  rw [(rep_shows inside₄.busy.rep (show ip ∈ c.locked by simp [locked₄, locked₃])).2, inum₄]
  refine ensures_then (inside_dirlink runs inside₄ all₄ mineP₄ (by rw [nodeP₄]; exact prepared.dir)
    footprintP₄ (touched_slot _) bound) ?_
  intro r s₅ linked
  rw [nodeP₄, prepared.absent] at linked
  obtain ⟨rfl, F₅, more₅, inside₅⟩ := linked
  refine ensures_quiet_then (whenever_false (by simp) s₅) ?_
  have extra : R dp < c.refs dp := by
    rw [refs₄, refs₃, bump_other _ apart, bump_at]
    omega
  refine ensures_then (inside_unlockput runs inside₅ mineP₄ extra (more₅ footprintP₄)) ?_
  rintro _ s₆ ⟨a₆, inside₆, put⟩
  have inum₆ : a₆.inums ip = i := by
    rw [put.inums]
    exact inum₄
  have node₆ : a₆.node ip = c.nodes i := by
    have away : i ≠ c.inums dp := by rwa [inumP₄]
    rw [Snap.node, inum₆, put.others i away]
    exact setNode_other _ _ away
  refine ensures_pure ⟨n, F₅, a₆, inside₆, ?_, ?_, ?_, ?_, ?_, ?_⟩
  · rw [put.refs]
    change drop c.refs dp = _
    rw [refs₄, refs₃, drop_bump_bump]
  · rw [put.locked]
    change c.locked.erase dp = _
    rw [locked₄, locked₃, Finset.erase_insert_of_ne apart.symm, Finset.erase_singleton]
    rfl
  · rw [inum₆]
    exact more₅ (more₄ footprint)
  · refine ⟨_, Or.inr ?_, put.frees⟩
    change Main _ _ _ (setNode c.nodes (c.inums dp) (addEntry (c.nodes (a.inums dp)) name i))
    rw [inumP₄, ← nodes]
    exact prepared.main
  · rw [node₆]
    exact prepared.child
  · rw [node₆, prepared.linked]
    omega

/-- create has returned -1. -/
structure Unmade (t : Setting) (R : Nat → Nat) (a₀ : Snap) (s : State) (n : Nat) (F : Set Nat)
    (a : Snap) : Prop where
  inside : Inside t n F R a₀ a s
  refs : a.refs = R
  locked : a.locked = ∅
  move : Move t.sb.ninodes t.permit a₀.nodes a.nodes

def CreateResult (t : Setting) (R : Nat → Nat) (a₀ : Snap) (type : Nat) (r : Option Nat) (s : State) :
    Prop :=
  match r with
  | none => ∃ n F a, Unmade t R a₀ s n F a
  | some ip => ∃ n F a, Made t R a₀ type ip s n F a

theorem linked_of_calm {a' : Snap} {s' : State} (calm : Calm t.sb.ninodes R a)
    (busy : Busy t F R a a' s') (nodes : a'.nodes = a.nodes) (held : 0 < a'.refs ip)
    (live : (a'.node ip).type ≠ 0) (unlinked : (a'.node ip).nlink = 0) : 0 < R ip := by
  obtain ⟨_, _, _, bound⟩ := rep_inum busy.rep held
  rw [Snap.node, nodes] at live unlinked
  obtain ⟨k, some, same, _⟩ := calm.anchored _ bound live unlinked
  have here : k = ip := rep_unique busy.rep (lt_of_lt_of_le some (busy.below k)) held
    ((busy.kept.inums k some).trans same)
  rwa [← here]

theorem createOld_spec (runs : Runs t) (calm : Calm t.sb.ninodes R a₀)
    (inside : Inside t (n + 1) F R a₀ a s) (nodes : a.nodes = a₀.nodes)
    (refs : a.refs = bump (bump R dp) ip) (locked : a.locked = {dp})
    (footprintP : iblock (a.inums dp) ∈ F)
    (typed : (a.node ip).type ≠ 0 ∨ t.contract.halts .ilockNoType) :
    Ensures t.contract (do
      iunlockput dp
      ilock ip
      let i ← getInode ip
      if type = tFile ∧ i.din.type = tFile then return some ip
      else do
        iunlockput ip
        return none) s (CreateResult t R a₀ type) := by
  have mineP : dp ∈ a.locked := by simp [locked]
  have held : 0 < a.refs ip := by
    rw [refs, bump_at]
    omega
  have extraP : R dp < a.refs dp := by
    have := le_bump (bump R dp) dp ip
    rw [bump_at] at this
    rw [refs]
    omega
  have heldP : 0 < a.refs dp := by omega
  refine ensures_then (inside_unlockput runs inside mineP extraP footprintP) ?_
  rintro _ s₁ ⟨a₁, inside₁, put⟩
  have refs₁ : a₁.refs = bump R ip := by
    rw [put.refs]
    change drop a.refs dp = _
    rw [refs, drop_bump_bump]
  have locked₁ : a₁.locked = ∅ := by
    rw [put.locked]
    change a.locked.erase dp = _
    rw [locked, Finset.erase_singleton]
  have node₁ : a₁.node ip = a.node ip := by
    have same : a₁.inums ip = a.inums ip := by rw [put.inums]; rfl
    rw [Snap.node, same]
    by_cases here : ip = dp
    · subst here
      rw [put.shared (by change 1 < a.refs ip; rw [refs, bump_at, bump_at]; omega)]
      rfl
    · exact put.others _ (busy_other inside.busy heldP held here)
  have move₁ : Move t.sb.ninodes t.permit a₀.nodes a₁.nodes := by
    rw [← nodes]
    exact move_of_frees put.frees
  have held₁ : 0 < a₁.refs ip := by
    rw [refs₁, bump_at]
    omega
  refine ensures_then (inside_lock runs inside₁ held₁ (by rwa [node₁])) ?_
  rintro _ s₂ ⟨inside₂, _, live⟩
  replace inside₂ := inside_reserve inside₂ (iblock (a₁.inums ip))
  have mine : ip ∈ (a₁.lock ip).locked := Finset.mem_insert_self _ _
  have locked₂ : (a₁.lock ip).locked = {ip} := by
    change insert ip a₁.locked = _
    rw [locked₁]
    rfl
  have footprint : iblock (a₁.inums ip) ∈ insert (iblock (a₁.inums ip)) F := Set.mem_insert _ _
  apply ensures_inspect_then
  rw [(rep_shows inside₂.busy.rep mine).1.type, Snap.lock_node]
  by_cases wanted : type = tFile ∧ (a₁.node ip).type = tFile
  · rw [if_pos wanted]
    refine ensures_pure ⟨n, _, _, inside₂, refs₁, locked₂, footprint, move₁, ?_, ?_⟩
    · exact wanted.2.trans wanted.1.symm
    · intro unlinked
      rw [Snap.lock_node, node₁] at unlinked
      rw [node₁] at live
      exact linked_of_calm calm inside.busy nodes held live unlinked
  · rw [if_neg wanted]
    refine ensures_then (inside_unlockput runs inside₂ mine (by
      change R ip < a₁.refs ip
      rw [refs₁, bump_at]
      omega) footprint) ?_
    rintro _ s₃ ⟨a₃, inside₃, put₃⟩
    refine ensures_pure ⟨n, _, a₃, inside₃, ?_, ?_, move_frees move₁ put₃.frees⟩
    · rw [put₃.refs]
      change drop a₁.refs ip = _
      rw [refs₁, drop_bump]
    · rw [put₃.locked]
      change (a₁.lock ip).locked.erase ip = _
      rw [locked₂, Finset.erase_singleton]

theorem create_spec {cwd : Nat} {path : List UInt8} (runs : Runs t) (calm : Calm t.sb.ninodes R a₀)
    (closed : Typed t a₀.nodes) (inside : Inside t 6 F R a₀ a s) (nodes : a.nodes = a₀.nodes)
    (refs : a.refs = R) (locked : a.locked = ∅) (home : 0 < R cwd) (typed : type ≠ 0)
    (small : type < 2 ^ 16) (fitsMajor : major < 2 ^ 16) (fitsMinor : minor < 2 ^ 16)
    (plain : type = tDir → major = 0 ∧ minor = 0)
    (may : MayAdd t.permit a₀.nodes (a.inums cwd) path) :
    Ensures t.contract (create cwd path type major minor) s (CreateResult t R a₀ type) := by
  have busy := inside.busy
  have all : AllLive a := by
    intro k held
    rw [refs] at held
    exact busy.base k held
  have still : Move t.sb.ninodes t.permit a₀.nodes a.nodes := by
    rw [nodes]
    exact move_refl _ _
  refine ensures_then (nameiparent_spec (busy_ready busy all locked) (Or.inr (refs ▸ home))
    (inside_room inside) (nodes ▸ closed) runs.igetNoInodes) ?_
  rintro (_ | ⟨dp, name⟩) s₁ found
  · obtain ⟨a', rep, frame, refs'⟩ := found
    refine ensures_pure ⟨6, F, a', ⟨busy_frame busy all rep frame refs', frame.trans.trans inside.trans,
      inside.bitmaps, inside.room⟩, refs'.trans refs, frame.locked.trans locked, ?_⟩
    rw [frame.nodes]
    exact still
  obtain ⟨a₁, here, dir, target⟩ := found
  rw [nodes] at target
  have frame := here.frame
  have inside₁ : Inside t 6 F R a₀ a₁ s₁ := ⟨busy_at busy all here, frame.trans.trans inside.trans,
    inside.bitmaps, inside.room⟩
  have refs₁ : a₁.refs = bump R dp := by rw [here.refs, refs]
  have nodes₁ : a₁.nodes = a₀.nodes := frame.nodes.trans nodes
  have held : 0 < a₁.refs dp := by
    rw [refs₁, bump_at]
    omega
  have all₁ : AllLive a₁ := by
    intro k some
    by_cases parent : k = dp
    · rw [parent, dir]
      decide
    · rw [refs₁, bump_other _ parent] at some
      exact inside₁.busy.base k some
  refine ensures_then (inside_lock runs inside₁ held (Or.inl (all₁ dp held))) ?_
  rintro _ s₂ ⟨inside₂, _, _⟩
  replace inside₂ := inside_reserve inside₂ (iblock (a₁.inums dp))
  have footprint : iblock (a₁.inums dp) ∈ insert (iblock (a₁.inums dp)) F := Set.mem_insert _ _
  have mine : dp ∈ (a₁.lock dp).locked := Finset.mem_insert_self _ _
  have locked₂ : (a₁.lock dp).locked = {dp} := by
    change insert dp a₁.locked = _
    rw [frame.locked, locked]
    rfl
  refine ensures_then (inside_lookup runs inside₂ all₁ mine dir) ?_
  intro r s₃ looked
  rw [Snap.lock_node] at looked
  cases found : lookup (a₁.node dp) name with
  | none =>
    rw [found] at looked
    obtain ⟨rfl, inside₃⟩ := looked
    refine ensures_then (createNew_spec (n := 0) runs inside₃ all₁ nodes₁ refs₁ locked₂ footprint dir
      found typed small fitsMajor fitsMinor plain (may _ name target)) ?_
    intro ip s₄ made
    exact ensures_pure made
  | some j =>
    rw [found] at looked
    obtain ⟨ip, a₃, rfl, inside₃, frame₃, refs₃, inum⟩ := looked
    obtain ⟨_, _, _, bound⟩ := rep_inum inside₁.busy.rep held
    have nodes₃ : a₃.nodes = a₁.nodes := frame₃.nodes
    have inumP : a₃.inums dp = a₁.inums dp := frame₃.inums dp held
    refine createOld_spec (n := 4) runs calm inside₃ (nodes₃.trans nodes₁) ?_
      (frame₃.locked.trans locked₂) (by rw [inumP]; exact footprint) ?_
    · rw [refs₃, ← refs₁]
      rfl
    · rw [Snap.node, inum, nodes₃]
      exact lookup_typed (nodes₁ ▸ closed) bound dir found

theorem makeNode_spec {cwd : Nat} {path : List UInt8} (runs : Runs t) (idle : Idle t R a s)
    (home : 0 < R cwd) (typed : type ≠ 0) (small : type < 2 ^ 16) (fitsMajor : major < 2 ^ 16)
    (fitsMinor : minor < 2 ^ 16) (plain : type = tDir → major = 0 ∧ minor = 0)
    (may : MayAdd t.permit a.nodes (a.inums cwd) path) :
    Ensures t.contract (makeNode cwd path type major minor) s (fun _ s' => ∃ a', Done t R a a' s') := by
  refine ensures_then (inside_begin runs (busy_of_ready idle.ready) idle.outside) ?_
  intro _ s₁ inside₁
  refine ensures_then (create_spec runs idle.ready.calm idle.typed inside₁ rfl idle.ready.refs
    idle.ready.locked home typed small fitsMajor fitsMinor plain may) ?_
  rintro (_ | ip) s₂ made
  · obtain ⟨n, F, a₂, unmade⟩ := made
    refine ensures_then (inside_commit runs unmade.inside unmade.refs unmade.locked unmade.move) ?_
    intro _ s₃ done
    exact ensures_pure done
  · obtain ⟨n, F, a₂, made⟩ := made
    exact finish_spec runs made.inside made.refs made.locked made.footprint made.move

end New

/-! open. -/

/-- open has its inode, locked and outside any transaction. -/
structure Opened (t : Setting) (R : Nat → Nat) (a₀ : Snap) (ip : Nat) (s : State) (a : Snap) :
    Prop where
  busy : Busy t ∅ R a₀ a s
  refs : a.refs = bump R ip
  locked : a.locked = {ip}
  outside : a.trans = false
  move : Move t.sb.ninodes t.permit a₀.nodes a.nodes
  linked : (a.node ip).nlink = 0 → 0 < R ip

section Open
variable {t : Setting} {R : Nat → Nat} {a₀ a : Snap} {s : State} {ip : Nat}

theorem opened_lock (runs : Runs t) (idle : Idle t R a₀ s) {s' : State} (here : At t ∅ R a₀ ip a s') :
    Ensures t.contract (ilock ip) s' (fun _ s'' => Opened t R a₀ ip s'' (a.lock ip)) := by
  have busy := idle_at idle here
  have held : 0 < a.refs ip := by
    rw [here.refs, bump_at]
    omega
  refine ensures_weaken (busy_lock busy (runs_room runs) held (Or.inr runs.asleep) here.typed.symm) ?_
  rintro _ s'' ⟨busy', _, live⟩
  refine ⟨busy', here.refs, ?_, here.frame.trans.trans idle.outside, ?_, ?_⟩
  · change insert ip a.locked = _
    rw [here.frame.locked, idle.ready.locked]
    rfl
  · change Move _ _ _ a.nodes
    rw [here.frame.nodes]
    exact move_refl _ _
  · intro unlinked
    exact linked_of_calm idle.ready.calm busy here.frame.nodes held live unlinked

theorem opened_unlockput (opened : Opened t R a₀ ip s a) :
    Ensures t.contract (iunlockput ip) s (fun _ s' => ∃ a', Done t R a₀ a' s') := by
  have busy := opened.busy
  have mine : ip ∈ a.locked := by simp [opened.locked]
  have extra : R ip < a.refs ip := by
    rw [opened.refs, bump_at]
    omega
  have kept : a.refs ip = 1 → (a.node ip).nlink ≠ 0 := fun one unlinked => by
    have := opened.linked unlinked
    omega
  refine ensures_then (busy_unlock busy mine) ?_
  intro _ s₁ busy₁
  have held : 0 < (a.unlock ip).refs ip := Nat.zero_lt_of_lt extra
  refine ensures_weaken (iput_keep_spec busy₁.rep held
    (fun member => absurd member (Finset.notMem_erase ip a.locked)) fun one _ => kept one) ?_
  intro _ s₂ rep₂
  have busy₂ := busy_dropped busy₁ extra kept rep₂
  refine ⟨_, ⟨busy_done busy₂ ?_ ?_, busy₂.kept, opened.outside⟩, opened.move⟩
  · change drop a.refs ip = R
    rw [opened.refs, drop_bump]
  · change a.locked.erase ip = ∅
    rw [opened.locked, Finset.erase_singleton]

theorem openInode_spec {cwd omode : Nat} {path : List UInt8} (runs : Runs t) (idle : Idle t R a s)
    (home : 0 < R cwd)
    (may : Syscall.hasMode omode Syscall.oCreate = true → MayAdd t.permit a.nodes (a.inums cwd) path) :
    Ensures t.contract (Syscall.openInode cwd path omode) s (fun r s' =>
      match r with
      | none => ∃ a', Done t R a a' s'
      | some ip => ∃ a', Opened t R a ip s' a' ∧ (omode ≠ 0 → (a'.node ip).type ≠ tDir)) := by
  unfold Syscall.openInode
  by_cases creating : Syscall.hasMode omode Syscall.oCreate = true
  · rw [if_pos creating]
    refine ensures_then (inside_begin runs (busy_of_ready idle.ready) idle.outside) ?_
    intro _ s₁ inside₁
    refine ensures_then (create_spec runs idle.ready.calm idle.typed inside₁ rfl idle.ready.refs
      idle.ready.locked home (by decide) (by decide) (by decide) (by decide)
      (fun wrong => absurd wrong (by decide)) (may creating)) ?_
    rintro (_ | ip) s₂ made
    · obtain ⟨n, F, a₂, unmade⟩ := made
      refine ensures_then (inside_commit runs unmade.inside unmade.refs unmade.locked unmade.move) ?_
      intro _ s₃ done
      exact ensures_pure done
    · obtain ⟨n, F, a₂, made⟩ := made
      refine ensures_then (busy_commit ∅ runs.writes made.inside.busy made.inside.trans
        (inside_room made.inside)) ?_
      intro _ s₃ busy
      refine ensures_pure ⟨_, ⟨busy, made.refs, made.locked, rfl, made.move, made.linked⟩, fun _ => ?_⟩
      exact made.type.trans_ne (by decide)
  · rw [if_neg creating]
    refine ensures_then (namei_spec idle.ready (Or.inr home) (runs_room runs) idle.typed
      runs.igetNoInodes) ?_
    rintro (_ | ip) s₁ found
    · obtain ⟨a', rep, frame, refs⟩ := found
      exact ensures_pure ⟨a', done_frame idle rep frame refs⟩
    obtain ⟨a₁, here⟩ := found
    refine ensures_then (opened_lock runs idle here) ?_
    intro _ s₂ opened
    have mine : ip ∈ (a₁.lock ip).locked := Finset.mem_insert_self _ _
    apply ensures_inspect_then
    rw [(rep_shows opened.busy.rep mine).1.type]
    by_cases refused : ((a₁.lock ip).node ip).type = tDir ∧ omode ≠ 0
    · rw [if_pos refused]
      refine ensures_then (opened_unlockput opened) ?_
      intro _ s₃ done
      exact ensures_pure done
    · rw [if_neg refused]
      exact ensures_pure ⟨_, opened, fun mode dir => refused ⟨dir, mode⟩⟩

end Open

end Xv6.CreateSpec
