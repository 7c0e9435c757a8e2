import Xv6.ImageSpec

/-! The files of an image, byte for byte. `Tight` adds to `Built` that an inode has no
block behind its end, and `Stored` says what each argument of mkfs becomes. Both hold
until "fix size of root inode dir", whatever the number of files. -/
namespace Xv6.ImageFiles
open BitField RedoLog Layout Codec Bio Fs Disk ContentSpec Directory Moves Mkfs MkfsSpec ImageSpec

/-- No block from `off` on. -/
def Trim (h : Nat → Block) (d : Dinode) (off : Nat) : Prop :=
  ∀ k < 140, off ≤ 512 * k → blockOf h d k = 0

structure Tight (sb : Superblock) (image : Image) (nodes : Nat → Node) : Prop
    extends Built sb image nodes where
  trim : ∀ j < sb.ninodes, Trim (home sb image) (dinodeAt image.sect j) (dinodeAt image.sect j).size

section Trims
variable {sb : Superblock} {image next : Image} {nodes : Nat → Node} {eff : Nat → Dinode}
  {i off last fuel : Nat} {p : List UInt8} {d din : Dinode}

theorem tight_congr {nodes' : Nat → Node} (tight : Tight sb image nodes)
    (same : ∀ j < sb.ninodes, nodes' j = nodes j) : Tight sb image nodes' :=
  ⟨built_congr tight.toBuilt same, tight.trim⟩

theorem iappendLoop_trim (geometry : Geometry sb) (layer : Layer sb image eff)
    (inside : i < sb.ninodes) (live : (eff i).type ≠ 0) (trim : Trim (home sb image) (eff i) off)
    (run : iappendLoop fuel image (eff i) off p = some (next, din, last))
    (room : next.freeblock ≤ limit sb) : Trim (home sb next) din last := by
  induction fuel generalizing image eff off p with
  | zero =>
    cases run
    exact trim
  | succ fuel ih =>
    by_cases finished : p.length = 0
    · rw [iappendLoop, if_pos finished] at run
      cases run
      exact trim
    obtain ⟨small, blocks⟩ := iappendLoop_first finished run
    obtain ⟨image₁, din₁, x, _, layer₁, fetched, plain, high, below, run⟩ :=
      iappendLoop_step geometry layer inside live finished run (blocks.trans room)
    have layer₂ := layer_store geometry layer₁ plain below (Or.inr high)
      (setBytes (image₁.sect x) (off % 512) (p.take (min p.length (512 - off % 512))))
    refine ih layer₂ ?_ (fun k bound past => ?_) run
    · rw [fetched.grows.fields]
      exact live
    -- The only block fetched holds the byte at `off`.
    · rw [home_wsect sb image₁ (data_ne_bitmap high), blockOf_store plain _ inside,
        fetched.others k (by omega)]
      exact trim k bound (by omega)

theorem trim_winode (layer : Layer sb image eff) (inside : i < sb.ninodes) (ok : DinodeOk d)
    (synced : ∀ j < sb.ninodes, j ≠ i → dinodeAt image.sect j = eff j)
    (same : d.addrs = (eff i).addrs) (trim : Trim (home sb image) d d.size)
    (others : ∀ j < sb.ninodes, j ≠ i → Trim (home sb image) (eff j) (eff j).size)
    {j : Nat} (bound : j < sb.ninodes) :
    Trim (home sb (winode image i d)) (dinodeAt (winode image i d).sect j)
      (dinodeAt (winode image i d).sect j).size := by
  have low := iblock_low sb inside
  have plain := plain_iblock layer.blocks inside
  have shown := home_wsect sb image (y := iblock i) (by rw [bitmap_block]; omega)
    (putDinode (image.sect (iblock i)) (i % ipb) d)
  have dinode : dinodeAt (winode image i d).sect j = if j = i then d else dinodeAt image.sect j :=
    dinodeAt_putDinode (i := i) image.sect ok
  intro k small past
  rw [dinode] at past ⊢
  rw [winode, shown]
  split
  · rename_i here
    rw [if_pos here] at past
    have kept := blockOf_store (h := home sb image) (k := k) plain
      (putDinode (image.sect (iblock i)) (i % ipb) d) inside
    simp only [blockOf, entry, same] at kept ⊢
    rw [kept]
    have none := trim k small past
    simpa only [blockOf, entry, same] using none
  · rename_i here
    rw [if_neg here, synced j bound here] at past
    rw [synced j bound here, blockOf_store plain _ bound]
    exact others j bound here k small past

theorem tight_iappend (geometry : Geometry sb) (tight : Tight sb image nodes)
    (inside : i < sb.ninodes) (live : (nodes i).type ≠ 0) (run : iappend image i p = some next)
    (room : next.freeblock ≤ limit sb) :
    Tight sb next (setNode nodes i ((nodes i).write (nodes i).size p)) := by
  refine ⟨built_iappend geometry tight.toBuilt inside live run room, fun j bound => ?_⟩
  obtain ⟨image₁, din₁, last, loop, rfl⟩ := iappend_inv run
  have layer := tight.layer
  have live₀ : (dinodeAt image.sect i).type ≠ 0 := by
    rw [tight.nodes i inside] at live
    exact live
  obtain ⟨layer₁, _, capped, written, _, apart⟩ := iappendLoop_spec geometry layer inside live₀
    (Nat.le_refl _) (layer.blocks.small i inside) (tight.tail i inside) loop room
  have at_i : setEff (dinodeAt image.sect) i din₁ i = din₁ := setEff_at _ _ _
  have fields := layer₁.blocks.fields i inside
  rw [at_i] at fields
  have ok : DinodeOk { din₁ with size := last } := { fields with size := by simp only; omega }
  refine trim_winode layer₁ inside ok (fun j bound other => ?_) (by rw [at_i]) ?_ ?_ bound
  · rw [setEff_other _ _ other, ← dinodeAt_home sb image₁ bound, written.dinodes j bound,
      dinodeAt_home sb image bound]
  · have trim := iappendLoop_trim geometry layer inside live₀ (tight.trim i inside) loop room
    exact fun k small past => trim k small past
  · intro j bound other k small past
    rw [(apart j bound other k small).1]
    rw [setEff_other _ _ other] at past
    exact tight.trim j bound k small past

theorem tight_ialloc (geometry : Geometry sb) (tight : Tight sb image nodes) {type : Nat}
    (inside : image.freeinode < sb.ninodes) (typed : type ≠ 0) (small : type < 2 ^ 16) :
    Tight sb (Mkfs.ialloc image type).2 (setNode nodes image.freeinode (newFile type 0 0)) := by
  refine ⟨built_ialloc geometry tight.toBuilt inside typed small, fun j bound => ?_⟩
  have zero := tight.unused _ inside (Nat.le_refl _)
  have layer : Layer sb { image with freeinode := image.freeinode + 1 } (dinodeAt image.sect) :=
    ⟨tight.layer.used, tight.layer.start, tight.layer.room, tight.layer.blank, tight.layer.bitmap,
      tight.layer.blocks⟩
  have ok : DinodeOk { Dinode.zero with type := type, nlink := 1 } := by
    refine ⟨small, ?_, ?_, ?_, ?_, ?_, ?_⟩ <;> simp [Dinode.zero]
  exact trim_winode layer inside ok (fun _ _ _ => rfl) (by rw [zero])
    (fun k _ _ => blockOf_zero _ (fun _ => rfl) k) (fun j bound _ => tight.trim j bound) bound

theorem tight_empty {params : Params} (geometry : Geometry (superblock params))
    (whole : params.nblocks + dataStart (superblock params) + params.nlog = params.size)
    (room : dataStart (superblock params) ≤ limit (superblock params)) :
    Tight (superblock params) (emptyImage params) fun _ => newNode 0 := by
  have built := built_empty geometry whole room
  refine ⟨built, fun j bound k _ _ => blockOf_zero _ (built.layer.blocks.clean j bound ?_) k⟩
  exact (congrArg Node.type (built.nodes j bound)).symm

/-- The inode after the chunks have been appended. -/
def appended (node : Node) (chunks : List (List UInt8)) : Node :=
  chunks.foldl (fun node chunk => node.write node.size chunk) node

theorem tight_appendAll (geometry : Geometry sb) {chunks : List (List UInt8)}
    (tight : Tight sb image nodes) (inside : i < sb.ninodes) (live : (nodes i).type ≠ 0)
    (run : appendAll i chunks image = some next) (room : next.freeblock ≤ limit sb) :
    Tight sb next (setNode nodes i (appended (nodes i) chunks)) := by
  induction chunks generalizing image nodes with
  | nil =>
    cases run
    refine tight_congr tight fun j _ => ?_
    by_cases here : j = i
    · rw [here, setNode_at]
      rfl
    · rw [setNode_other _ _ here]
  | cons chunk rest ih =>
    obtain ⟨image₁, first, later⟩ := Option.bind_eq_some_iff.mp run
    have tight₁ := tight_iappend geometry tight inside live first
      ((appendAll_further later).blocks.trans room)
    have tight₂ := ih tight₁ (by rw [setNode_at]; exact live) later
    refine tight_congr tight₂ fun j _ => ?_
    by_cases here : j = i
    · rw [here, setNode_at, setNode_at, setNode_at]
      rfl
    · rw [setNode_other _ _ here, setNode_other _ _ here, setNode_other _ _ here]

end Trims

/-! What the arguments become. -/

/-- A regular file with the given bytes. -/
def fileNode (data : List UInt8) : Node :=
  { newFile tFile 0 0 with size := data.length, byte := fun q => data.getD q 0 }

/-- The inodes with the files, names and bytes, the last one first. -/
inductive Stored (n : Nat) : List (List UInt8 × List UInt8) → (Nat → Node) → Prop
  | root (inside : 1 < n) :
      Stored n [] (setNode (fun _ => newNode 0) rootino (newDir rootino rootino))
  | file {files : List (List UInt8 × List UInt8)} {nodes : Nat → Node} (old : Stored n files nodes)
      (inside : files.length + 2 < n) (name data : List UInt8) :
      Stored n ((name, data) :: files) (setNode (setNode nodes (files.length + 2) (fileNode data))
        rootino (addEntry (nodes rootino) name (files.length + 2)))

section Contents
variable {n : Nat} {files : List (List UInt8 × List UInt8)} {nodes : Nat → Node}

theorem stored_populated (stored : Stored n files nodes) :
    Populated n (files.map Prod.fst) nodes := by
  induction stored with
  | root inside => exact .root inside
  | @file files nodes old inside name data ih =>
    have grown := Populated.file ih (by simpa using inside) name data.length
      fun q => data.getD q 0
    rw [List.length_map] at grown
    exact grown

theorem fileNode_write (before chunk : List UInt8) :
    (fileNode before).write (fileNode before).size chunk = fileNode (before ++ chunk) := by
  refine node_ext rfl rfl rfl rfl ?_ fun q => ?_
  · simp [Node.write, fileNode]
  · change (if before.length ≤ q ∧ q < before.length + chunk.length then
      chunk.getD (q - before.length) 0 else before.getD q 0) = (before ++ chunk).getD q 0
    by_cases range : before.length ≤ q ∧ q < before.length + chunk.length
    · rw [if_pos range, List.getD_append_right _ _ _ _ range.1]
    · rw [if_neg range]
      by_cases early : q < before.length
      · rw [List.getD_append _ _ _ _ early]
      · rw [List.getD_eq_default _ _ (by omega), List.getD_eq_default _ _ (by simp; omega)]

theorem appended_fileNode (before : List UInt8) (chunks : List (List UInt8)) :
    appended (fileNode before) chunks = fileNode (before ++ chunks.flatten) := by
  induction chunks generalizing before with
  | nil => simp [appended]
  | cons chunk rest ih =>
    have tail := ih (before ++ chunk)
    rw [List.append_assoc] at tail
    rw [List.flatten_cons, ← tail, ← fileNode_write]
    rfl

theorem flatten_chunks {fuel : Nat} (data : List UInt8) (enough : data.length ≤ fuel) :
    (chunks fuel data).flatten = data := by
  induction fuel generalizing data with
  | zero =>
    rw [List.length_eq_zero_iff.mp (Nat.le_zero.mp enough)]
    rfl
  | succ fuel ih =>
    unfold chunks
    split
    · rename_i none
      rw [List.length_eq_zero_iff.mp none]
      rfl
    · rw [List.flatten_cons, ih _ (by simp; omega), List.take_append_drop]

theorem appended_chunks (data : List UInt8) :
    appended (newFile tFile 0 0) (chunks data.length data) = fileNode data := by
  have empty : newFile tFile 0 0 = fileNode [] := by
    exact node_ext rfl rfl rfl rfl rfl fun q => rfl
  rw [empty, appended_fileNode, List.nil_append, flatten_chunks data (Nat.le_refl _)]

end Contents

section Files
variable {sb : Superblock} {image next : Image} {nodes : Nat → Node} {arg data : List UInt8}
  {files before : List (List UInt8 × List UInt8)}

theorem addFile_stored (geometry : Geometry sb) (tight : Tight sb image nodes)
    (stored : Stored sb.ninodes before nodes) (count : image.freeinode = before.length + 2)
    (run : addFile image arg data = some next) (room : next.freeblock ≤ limit sb)
    (inodes : next.freeinode ≤ sb.ninodes) :
    ∃ nodes', Tight sb next nodes' ∧ Stored sb.ninodes ((stripped arg, data) :: before) nodes' := by
  have made := (addFile_further run).inodes
  obtain ⟨image₁, entry, contents⟩ := addFile_inv run
  have inside : image.freeinode < sb.ninodes := by omega
  have later := appendAll_further contents
  have packed := populated_root (stored_populated stored) geometry.inums
  have tight₁ := tight_ialloc geometry tight inside (show tFile ≠ 0 by decide) (by decide)
  have apart : rootino ≠ image.freeinode := by
    rw [count]
    simp only [rootino]
    omega
  have root : setNode nodes image.freeinode (newFile tFile 0 0) rootino = nodes rootino :=
    setNode_other _ _ apart
  have inRoot : rootino < sb.ninodes := geometry.root
  have tight₂ := tight_iappend geometry tight₁ inRoot (by rw [root, packed.type]; decide) entry
    (later.blocks.trans room)
  rw [root, packed_append packed] at tight₂
  have file : setNode (setNode nodes image.freeinode (newFile tFile 0 0)) rootino
      (addEntry (nodes rootino) (stripped arg) image.freeinode) image.freeinode =
        newFile tFile 0 0 := by
    rw [setNode_other _ _ apart.symm, setNode_at]
  have tight₃ := tight_appendAll geometry tight₂ inside (by rw [file]; decide) contents room
  rw [file, appended_chunks] at tight₃
  refine ⟨_, tight_congr tight₃ fun j _ => ?_, .file stored (by omega) (stripped arg) data⟩
  rw [← count]
  by_cases isRoot : j = rootino
  · rw [isRoot, setNode_at, setNode_other _ _ apart, setNode_at]
  · rw [setNode_other _ _ isRoot]
    by_cases new : j = image.freeinode
    · rw [new, setNode_at, setNode_at]
    · rw [setNode_other _ _ new, setNode_other _ _ new, setNode_other _ _ isRoot,
        setNode_other _ _ new]

/-- The files under the names that mkfs gives them, the last one first. -/
def storedAs (files : List (List UInt8 × List UInt8)) : List (List UInt8 × List UInt8) :=
  (files.map fun file => (stripped file.1, file.2)).reverse

theorem addFiles_stored (geometry : Geometry sb) (tight : Tight sb image nodes)
    (stored : Stored sb.ninodes before nodes) (count : image.freeinode = before.length + 2)
    (run : addFiles files image = some next) (room : next.freeblock ≤ limit sb)
    (inodes : next.freeinode ≤ sb.ninodes) :
    ∃ nodes', Tight sb next nodes' ∧ Stored sb.ninodes (storedAs files ++ before) nodes' := by
  induction files generalizing image nodes before with
  | nil =>
    cases run
    exact ⟨nodes, tight, stored⟩
  | cons file rest ih =>
    obtain ⟨image₁, first, later⟩ := Option.bind_eq_some_iff.mp run
    have head := (addFile_further first).inodes
    have tail := addFiles_further later
    have count' := tail.inodes
    obtain ⟨nodes₁, tight₁, stored₁⟩ := addFile_stored geometry tight stored count first
      (tail.blocks.trans room) (by omega)
    obtain ⟨nodes', tight', stored'⟩ := ih tight₁ stored₁ (by rw [List.length_cons]; omega) later
    refine ⟨nodes', tight', ?_⟩
    have names : storedAs (file :: rest) ++ before =
        storedAs rest ++ (stripped file.1, file.2) :: before := by
      simp [storedAs]
    rw [names]
    exact stored'

end Files

/-! The number of blocks that the files take. -/

/-- The disk has room for the files: like `Fits`, whatever the end of the root directory. -/
structure Room (params : Params) (image : Image) : Prop where
  root : 1 < params.ninodes
  inums : params.ninodes ≤ 2 ^ 16
  wide : params.size < 2 ^ 32
  log : 0 < params.nlog
  blocks : image.freeblock ≤ logStart (superblock params)
  inodes : image.freeinode ≤ params.ninodes

section Whole
variable {params : Params} {files : List (List UInt8 × List UInt8)} {image : Image}

theorem root_stored (geometry : Geometry (superblock params)) {image₁ image₂ : Image}
    (whole : params.nblocks + dataStart (superblock params) + params.nlog = params.size)
    (first : iappend (Mkfs.ialloc (emptyImage params) tDir).2 rootino
      (encodeDirent ⟨rootino, strncpy dot dirsiz⟩) = some image₁)
    (second : iappend image₁ rootino (encodeDirent ⟨rootino, strncpy dotdot dirsiz⟩) = some image₂)
    (room : image₂.freeblock ≤ limit (superblock params)) :
    ∃ nodes, Tight (superblock params) image₂ nodes ∧
      Stored (superblock params).ninodes [] nodes := by
  have mono₁ := (iappend_further first).blocks
  have mono₂ := (iappend_further second).blocks
  have start : dataStart (superblock params) ≤ image₁.freeblock := mono₁
  have inside : rootino < (superblock params).ninodes := geometry.root
  have tight₀ : Tight (superblock params) (Mkfs.ialloc (emptyImage params) tDir).2
      (setNode (fun _ => newNode 0) rootino (newFile tDir 0 0)) :=
    tight_ialloc geometry (tight_empty geometry whole (start.trans (mono₂.trans room))) inside
      (by decide) (by decide)
  have tight₁ := tight_iappend geometry tight₀ inside (by rw [setNode_at]; decide) first
    (mono₂.trans room)
  rw [setNode_at, packed_append packed_empty] at tight₁
  have packed := packed_addEntry packed_empty dot (i := rootino) (by decide) (by decide)
  have tight₂ := tight_iappend geometry tight₁ inside (by rw [setNode_at, packed.type]; decide)
    second room
  rw [setNode_at, packed_append packed] at tight₂
  refine ⟨_, tight_congr tight₂ fun j _ => ?_, .root inside⟩
  by_cases here : j = rootino
  · rw [here, setNode_at, setNode_at]
    rfl
  · rw [setNode_other _ _ here, setNode_other _ _ here, setNode_other _ _ here,
      setNode_other _ _ here]

theorem room_geometry (built : main params files = some image) (room : Room params image) :
    Geometry (superblock params) := by
  obtain ⟨whole, _⟩ := main_inv built
  refine ⟨room.root, room.inums, room.wide, room.log, ?_⟩
  change dataStart (superblock params) ≤ params.size - params.nlog
  omega

theorem main_stored (built : main params files = some image) (room : Room params image) :
    ∃ last nodes, Tight (superblock params) last nodes ∧
      Stored params.ninodes (storedAs files) nodes ∧
      image.sect = home (superblock params) (fixRoot last) ∧
      last.freeblock = image.freeblock ∧ last.freeblock = image.usedblocks := by
  have geometry := room_geometry built room
  obtain ⟨whole, image₁, image₂, image₃, first, second, third, small, rfl⟩ := main_inv built
  have made : Further 1 (emptyImage params) (Mkfs.ialloc (emptyImage params) tDir).2 :=
    ⟨rfl, Nat.le_refl _, id⟩
  have early := further_trans made (further_trans (iappend_further first) (iappend_further second))
  have later := addFiles_further third
  have level : image₃.usedblocks = image₃.freeblock := later.level (early.level rfl)
  have blocks : image₃.freeblock ≤ logStart (superblock params) := room.blocks
  have inodes : image₃.freeinode ≤ params.ninodes := room.inodes
  have capacity : image₃.freeblock ≤ limit (superblock params) := by
    rw [limit]
    omega
  obtain ⟨nodes₂, tight₂, stored₂⟩ := root_stored geometry whole first second
    (later.blocks.trans capacity)
  obtain ⟨nodes, tight, stored⟩ := addFiles_stored geometry tight₂ stored₂ early.inodes third
    capacity inodes
  rw [List.append_nil] at stored
  refine ⟨image₃, nodes, tight, stored, ?_, rfl, level.symm⟩
  rw [home, bitmap_block, level]
  rfl

theorem main_consistent (built : main params files = some image) (fits : Fits params files image) :
    ∃ nodes, Populated params.ninodes (namesOf files) nodes ∧
      Consistent (superblock params) image.sect
        (setNode nodes rootino (padded (nodes rootino))) := by
  have room : Room params image :=
    ⟨fits.root, fits.inums, fits.wide, fits.log, fits.blocks, fits.inodes⟩
  have geometry := room_geometry built room
  obtain ⟨last, nodes, tight, stored, sect, same, _⟩ := main_stored built room
  have populated : Populated params.ninodes (namesOf files) nodes := by
    have named : (storedAs files).map Prod.fst = namesOf files := by simp [storedAs, namesOf]
    exact named ▸ stored_populated stored
  have packed := populated_root populated geometry.inums
  have count : (namesOf files).length = files.length := by simp [namesOf]
  have begun := fits.begun
  have finished := built_fixRoot geometry tight.toBuilt (by rw [packed.type]; decide) (by
    rw [packed.size, count]
    omega)
  have silent : ∀ q, (nodes rootino).size ≤ q → (nodes rootino).byte q = 0 := by
    intro q past
    rw [tight.nodes rootino geometry.root] at past ⊢
    exact if_neg (Nat.not_lt.mpr past)
  have others : ∀ i, i ≠ rootino → (nodes i).type ≠ 0 →
      (nodes i).type = tFile ∧ (nodes i).nlink = 1 := by
    intro i other typed
    have found := populated_node populated other
    split at found
    · exact found
    · rw [found] at typed
      exact absurd rfl typed
  refine ⟨nodes, populated, ?_⟩
  rw [sect]
  refine ⟨geometry, blocks_congr finished.layer.blocks fun j inside => dinodeAt_home _ _ inside,
    fun i inside => ?_, ?_, fun i inside typed => ?_, ?_, fun i inside dir => ?_⟩
  · rw [dinodeAt_home _ _ inside]
    exact finished.nodes i inside
  · rw [home_other _ _ (data_ne_bitmap geometry.area), finished.layer.blank _ (same ▸ fits.blocks)]
    simp [getHeader, getUint_zero]
  · by_cases here : i = rootino
    · rw [here, setNode_at]
      simp [padded, packed.nlink]
    · rw [setNode_other _ _ here] at typed ⊢
      rw [(others i here typed).2]
      decide
  · rw [setNode_at]
    exact packed.type
  · by_cases here : i = rootino
    · rw [here, setNode_at]
      exact shape_padded packed (populated_shape populated geometry.inums) (by omega) silent
    · rw [setNode_other _ _ here] at dir
      have file := (others i here (by rw [dir]; decide)).1
      rw [dir] at file
      exact absurd file (by decide)

theorem final_inodes {sb : Superblock} {last : Image} {nodes : Nat → Node} {j : Nat}
    (geometry : Geometry sb) (tight : Tight sb last nodes) (inside : j < sb.ninodes) :
    dinodeAt (home sb (fixRoot last)) j = (if j = rootino then
        { dinodeAt last.sect rootino with
          size := ((dinodeAt last.sect rootino).size / 512 + 1) * 512 }
      else dinodeAt last.sect j) ∧
    (∀ e, entry (home sb (fixRoot last)) (dinodeAt (home sb (fixRoot last)) j) e =
      entry (home sb last) (dinodeAt last.sect j) e) ∧
    ∀ x, dataStart sb ≤ x → home sb (fixRoot last) x = home sb last x := by
  have inRoot : rootino < sb.ninodes := geometry.root
  have low := iblock_low sb inRoot
  have blocks := tight.layer.blocks
  have capped := blocks.small rootino inRoot
  have ok : DinodeOk { dinodeAt last.sect rootino with
      size := ((dinodeAt last.sect rootino).size / 512 + 1) * 512 } :=
    { blocks.fields rootino inRoot with size := by simp only; omega }
  have shown : home sb (fixRoot last) = store (home sb last) (iblock rootino)
      (putDinode (last.sect (iblock rootino)) (rootino % ipb) { dinodeAt last.sect rootino with
        size := ((dinodeAt last.sect rootino).size / 512 + 1) * 512 }) :=
    home_wsect sb last (by rw [bitmap_block]; omega) _
  have dinode : dinodeAt (home sb (fixRoot last)) j = if j = rootino then
      { dinodeAt last.sect rootino with
        size := ((dinodeAt last.sect rootino).size / 512 + 1) * 512 }
      else dinodeAt last.sect j :=
    (dinodeAt_home _ _ inside).trans (dinodeAt_putDinode (i := rootino) last.sect ok)
  refine ⟨dinode, fun e => ?_, fun x high => ?_⟩
  · have kept : entry (home sb (fixRoot last)) (dinodeAt last.sect j) e =
        entry (home sb last) (dinodeAt last.sect j) e := by
      rw [shown]
      exact entry_congr fun some =>
        store_other _ _ ((plain_iblock blocks inRoot).indirect j inside some)
    rw [dinode, ← kept]
    split
    · rename_i here
      rw [here]
      rfl
    · rfl
  · rw [shown, store_other]
    rw [dataStart_eq] at high
    omega

/-- Every block index below the size has a block. -/
def HoleFree (sb : Superblock) (disk : Nat → Block) : Prop :=
  ∀ i < sb.ninodes, ∀ k, k < ((dinodeAt disk i).size + 511) / 512 →
    k < maxfile ∧ blockOf disk (dinodeAt disk i) k ≠ 0

/-- mkfs rounds the root's size up by a whole block when the entries fill the last one. -/
theorem holeFree_iff (built : main params files = some image) (room : Room params image) :
    HoleFree (superblock params) image.sect ↔ (files.length + 2) % 32 ≠ 0 := by
  have geometry := room_geometry built room
  obtain ⟨last, nodes, tight, stored, sect, _, _⟩ := main_stored built room
  have inRoot : rootino < (superblock params).ninodes := geometry.root
  have packed := populated_root (stored_populated stored) geometry.inums
  have size : (dinodeAt last.sect rootino).size = 16 * (files.length + 2) := by
    have count : (List.map Prod.fst (storedAs files)).length = files.length := by simp [storedAs]
    rw [← count, ← packed.size, tight.nodes rootino inRoot]
    rfl
  rw [sect]
  constructor
  · intro holeFree full
    obtain ⟨dinode, kept, _⟩ := final_inodes geometry tight inRoot
    have rounded : (dinodeAt (home (superblock params) (fixRoot last)) rootino).size =
        ((dinodeAt last.sect rootino).size / 512 + 1) * 512 := by
      rw [dinode, if_pos rfl]
    obtain ⟨bound, some⟩ := holeFree rootino inRoot ((dinodeAt last.sect rootino).size / 512)
      (by rw [rounded]; omega)
    rw [blockOf, kept] at some
    exact some (tight.trim rootino inRoot _ bound (by omega))
  · intro begun i inside k below
    obtain ⟨dinode, kept, _⟩ := final_inodes geometry tight inside
    have small := tight.layer.blocks.small i inside
    have old : 512 * k < (dinodeAt last.sect i).size := by
      rw [dinode] at below
      by_cases here : i = rootino
      · rw [if_pos here] at below
        rw [here]
        simp only at below
        omega
      · rw [if_neg here] at below
        omega
    refine ⟨?_, ?_⟩
    · simp only [maxfile]
      omega
    · rw [blockOf, kept]
      exact tight.layer.blocks.full i inside k old

end Whole

def bareParams : Params := ⟨5, 10, 8, 20⟩

def bareImage : Image := (main bareParams []).get (by decide +kernel)

theorem bareImage_room : Room bareParams bareImage := by
  constructor <;> decide +kernel

theorem bare_image_holeFree : HoleFree (superblock bareParams) bareImage.sect :=
  (holeFree_iff (Option.some_get _).symm bareImage_room).mpr (by decide)

/-- Thirty empty files: with "." and ".." the root directory has 32 entries. -/
def crowdedFiles : List (List UInt8 × List UInt8) :=
  (List.range 30).map fun i => ([65 + UInt8.ofNat i], [])

def crowdedParams : Params := ⟨5, 10, 40, 24⟩

def crowdedImage : Image := (main crowdedParams crowdedFiles).get (by decide +kernel)

/-- The root directory has size 1024 and only one block. -/
theorem crowded_image_hole : main crowdedParams crowdedFiles = some crowdedImage ∧
    Room crowdedParams crowdedImage ∧ ¬HoleFree (superblock crowdedParams) crowdedImage.sect := by
  refine ⟨(Option.some_get _).symm, ?_, fun holeFree => ?_⟩
  · constructor <;> decide +kernel
  · have hole := holeFree rootino (by decide) 1 (by decide +kernel)
    exact hole.2 (by decide +kernel)

end Xv6.ImageFiles
