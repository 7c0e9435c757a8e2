import Xv6.ContentSpec
import Xv6.Mkfs
import Xv6.Moves

/-! The image that tools/mkfs.c writes. While mkfs runs, the bitmap block is still
empty; `home` shows the blocks as they will be once `balloc` has written it, so
that taking `freeblock` is an allocation in the sense of the kernel's block layer
and its lemmas apply. -/
namespace Xv6.MkfsSpec
open BitField RedoLog Layout Codec Fs Disk ContentSpec Directory Moves Mkfs

def home (sb : Superblock) (image : Image) : Nat → Block :=
  store image.sect (bblock 0 sb.ninodes) (usedBits image.freeblock)

/-- The bitmap block that mkfs writes ends here, and so does the data area. -/
def limit (sb : Superblock) : Nat := min 4096 (logStart sb)

/-- `next` comes after `image`, with `count` more inodes. -/
structure Further (count : Nat) (image next : Image) : Prop where
  inodes : next.freeinode = image.freeinode + count
  blocks : image.freeblock ≤ next.freeblock
  level : image.usedblocks = image.freeblock → next.usedblocks = next.freeblock

theorem further_refl (image : Image) : Further 0 image image := ⟨rfl, Nat.le_refl _, id⟩

theorem further_trans {a b : Nat} {image middle next : Image} (first : Further a image middle)
    (second : Further b middle next) : Further (a + b) image next :=
  ⟨by rw [second.inodes, first.inodes, Nat.add_assoc], first.blocks.trans second.blocks,
    fun level => second.level (first.level level)⟩

theorem further_takeBlock (image : Image) : Further 0 image (takeBlock image) :=
  ⟨rfl, Nat.le_succ _, congrArg (· + 1)⟩

/-- An image in the making, with `eff` the dinodes in force. -/
structure Layer (sb : Superblock) (image : Image) (eff : Nat → Dinode) : Prop where
  used : image.usedblocks = image.freeblock
  start : dataStart sb ≤ image.freeblock
  room : image.freeblock ≤ limit sb
  blank : ∀ x, image.freeblock ≤ x → image.sect x = 0#4096
  bitmap : ∀ x, sb.ninodes / 8 + 3 ≤ x → x < dataStart sb → image.sect x = 0#4096
  blocks : Blocks sb (home sb image) eff ∅

/-- The other inodes keep their blocks, also those behind their size. -/
def Apart (sb : Superblock) (i : Nat) (h h' : Nat → Block) (eff eff' : Nat → Dinode) : Prop :=
  ∀ j < sb.ninodes, j ≠ i → ∀ k < 140, blockOf h' (eff' j) k = blockOf h (eff j) k ∧
    (blockOf h (eff j) k ≠ 0 → h' (blockOf h (eff j) k) = h (blockOf h (eff j) k))

/-- Block `k` of inode `i` is there, as `x`; it is empty if it is new. -/
structure Fetched (sb : Superblock) (i k : Nat) (h h' : Nat → Block) (eff eff' : Nat → Dinode)
    (x : Nat) : Prop where
  grows : Grows sb i h h' eff eff'
  value : blockOf h' (eff' i) k = x
  some : x ≠ 0
  same : blockOf h (eff i) k ≠ 0 → eff' = eff
  fresh : blockOf h (eff i) k = 0 → h' x = 0#4096
  others : ∀ l, l ≠ k → blockOf h' (eff' i) l = blockOf h (eff i) l
  apart : Apart sb i h h' eff eff'

section Aparts
variable {sb : Superblock} {h h' h'' : Nat → Block} {eff eff' eff'' : Nat → Dinode}
  {spare : Set Nat} {i b : Nat}

theorem apart_refl (sb : Superblock) (i : Nat) (h : Nat → Block) (eff : Nat → Dinode) :
    Apart sb i h h eff eff := fun _ _ _ _ _ => ⟨rfl, fun _ => rfl⟩

theorem apart_trans (first : Apart sb i h h' eff eff') (second : Apart sb i h' h'' eff' eff'') :
    Apart sb i h h'' eff eff'' := by
  intro j inside other k small
  obtain ⟨same, data⟩ := first j inside other k small
  obtain ⟨same', data'⟩ := second j inside other k small
  rw [same] at same' data'
  exact ⟨same', fun some => (data' some).trans (data some)⟩

theorem apart_setEff (sb : Superblock) (i : Nat) (h : Nat → Block) (eff : Nat → Dinode) (d : Dinode) :
    Apart sb i h h eff (setEff eff i d) := by
  intro j _ other k _
  rw [setEff_other _ _ other]
  exact ⟨rfl, fun _ => rfl⟩

theorem apart_alloc (geometry : Geometry sb) (blocks : Blocks sb h eff ∅) (data : InData sb b)
    (free : usedIn h sb b = false) (i : Nat) : Apart sb i h (allocated sb h b) eff eff := by
  intro j inside _ k small
  refine ⟨entry_allocated geometry blocks data free inside, fun some => ?_⟩
  exact allocated_other geometry h data (blockOf_data blocks inside small some).1
    (entry_ne_free blocks free inside (fileEntry_lt small) some)

theorem apart_store (blocks : Blocks sb h eff spare) (inside : i < sb.ninodes) {e : Nat} (bound : e < 141)
    (some : entry h (eff i) e ≠ 0) (data : Block) :
    Apart sb i h (store h (entry h (eff i) e) data) eff eff := by
  intro j insideJ other k small
  constructor
  · refine entry_congr fun there => store_other _ _ fun same => other ?_
    rw [← entry_addr (h := h) (Nat.le_refl 12)] at same
    exact (entry_inj blocks inside insideJ bound (by omega) some same.symm).1.symm
  · intro there
    refine store_other _ _ fun same => other ?_
    exact (entry_inj blocks insideJ inside (fileEntry_lt small) bound there same).1

end Aparts

section Bits

theorem bitSet_zero (j : Nat) : bitSet 0#4096 j = false := by
  simp [bitSet, field_zero]

theorem bitSet_usedBits {n : Nat} (j : Nat) (fits : n ≤ 4096) :
    bitSet (usedBits n) j = decide (j < n) := by
  induction n with
  | zero => simpa [usedBits] using bitSet_zero j
  | succ n ih =>
    rw [usedBits, bitSet_markUsed _ _ _ (by omega), ih (by omega)]
    by_cases last : j = n
    · simp [last]
    · have : j < n + 1 ↔ j < n := by omega
      simp [last, this]

end Bits

section Layers
variable {sb : Superblock} {image : Image} {eff : Nat → Dinode} {i k : Nat}

theorem bitmap_block (sb : Superblock) : bblock 0 sb.ninodes = sb.ninodes / 8 + 3 := by
  simp [bblock, bpb, ipb]

theorem home_other (sb : Superblock) (image : Image) {x : Nat} (other : x ≠ bblock 0 sb.ninodes) :
    home sb image x = image.sect x := store_other _ _ other

theorem home_iblock (sb : Superblock) (image : Image) (inside : i < sb.ninodes) :
    home sb image (iblock i) = image.sect (iblock i) := by
  apply home_other
  have low := iblock_low sb inside
  rw [bitmap_block]
  omega

theorem data_ne_bitmap {x : Nat} (high : dataStart sb ≤ x) : x ≠ bblock 0 sb.ninodes := by
  rw [bitmap_block]
  rw [dataStart_eq] at high
  omega

theorem dinodeAt_home (sb : Superblock) (image : Image) (inside : i < sb.ninodes) :
    dinodeAt (home sb image) i = dinodeAt image.sect i := by
  rw [dinodeAt, home_iblock sb image inside, dinodeAt]

theorem usedIn_shown (small : image.freeblock ≤ 4096)
    (bitmap : ∀ x, sb.ninodes / 8 + 3 ≤ x → x < dataStart sb → image.sect x = 0#4096) {b : Nat}
    (inside : b < sb.size) : usedIn (home sb image) sb b = decide (b < image.freeblock) := by
  have low := bblock_low sb inside
  by_cases first : b < 4096
  · have here : bblock b sb.ninodes = bblock 0 sb.ninodes := by
      simp only [bblock, bpb, ipb]
      omega
    rw [usedIn, here, home, store_at, bitSet_usedBits _ small]
    simp [bpb, Nat.mod_eq_of_lt first]
  · have there : bblock b sb.ninodes ≠ bblock 0 sb.ninodes := by
      simp only [bblock, bpb, ipb]
      omega
    rw [usedIn, home_other _ _ there, bitmap _ low.1 low.2, bitSet_zero]
    simp
    omega

theorem usedIn_home (layer : Layer sb image eff) {b : Nat} (inside : b < sb.size) :
    usedIn (home sb image) sb b = decide (b < image.freeblock) :=
  usedIn_shown (layer.room.trans (min_le_left _ _)) layer.bitmap inside

theorem entry_below (geometry : Geometry sb) (layer : Layer sb image eff) {e : Nat}
    (inside : i < sb.ninodes) (small : e < 141) (some : entry (home sb image) (eff i) e ≠ 0) :
    entry (home sb image) (eff i) e < image.freeblock := by
  obtain ⟨data, used⟩ := entry_data layer.blocks inside small some
  rw [usedIn_home layer (inData_size geometry data)] at used
  simpa using used

theorem home_data (layer : Layer sb image eff) {e : Nat} (inside : i < sb.ninodes) (small : e < 141)
    (some : entry (home sb image) (eff i) e ≠ 0) :
    home sb image (entry (home sb image) (eff i) e) =
      image.sect (entry (home sb image) (eff i) e) :=
  home_other _ _ (data_ne_bitmap (entry_data layer.blocks inside small some).1.1)

theorem home_takeBlock (layer : Layer sb image eff) (room : image.freeblock + 1 ≤ limit sb) :
    home sb (takeBlock image) = allocated sb (home sb image) image.freeblock := by
  have small : image.freeblock < 4096 := room.trans (min_le_left _ _)
  have here : bblock image.freeblock sb.ninodes = bblock 0 sb.ninodes := by
    simp only [bblock, bpb, ipb]
    omega
  have bits : home sb image (bblock 0 sb.ninodes) = usedBits image.freeblock := store_at _ _ _
  funext x
  rw [allocated, here, bits, bpb, Nat.mod_eq_of_lt small]
  by_cases new : x = image.freeblock
  · subst new
    rw [store_at, home_other _ _ (data_ne_bitmap layer.start)]
    exact layer.blank _ (Nat.le_refl _)
  · rw [store_other _ _ new]
    by_cases bitmap : x = bblock 0 sb.ninodes
    · rw [bitmap, store_at, home, store_at]
      rfl
    · rw [store_other _ _ bitmap, home_other _ _ bitmap, home_other _ _ bitmap]
      rfl

theorem freeblock_data (layer : Layer sb image eff) (room : image.freeblock + 1 ≤ limit sb) :
    InData sb image.freeblock :=
  ⟨layer.start, Nat.lt_of_lt_of_le (Nat.lt_succ_self _) (room.trans (min_le_right _ _))⟩

theorem freeblock_free (geometry : Geometry sb) (layer : Layer sb image eff)
    (room : image.freeblock + 1 ≤ limit sb) :
    usedIn (home sb image) sb image.freeblock = false := by
  rw [usedIn_home layer (inData_size geometry (freeblock_data layer room))]
  simp

theorem layer_setAddr (geometry : Geometry sb) (layer : Layer sb image eff) (inside : i < sb.ninodes)
    (live : (eff i).type ≠ 0) (direct : k ≤ 12) (empty : (eff i).addrs k = 0)
    (room : image.freeblock + 1 ≤ limit sb) :
    Layer sb (takeBlock image) (setEff eff i (setAddr (eff i) k image.freeblock)) := by
  have data := freeblock_data layer room
  have taken := blocks_alloc geometry layer.blocks data (freeblock_free geometry layer room)
  have attached := blocks_setAddr geometry taken inside live direct empty
    (Set.mem_insert image.freeblock ∅) (store_at _ _ _)
  rw [show (insert image.freeblock ∅ : Set Nat) \ {image.freeblock} = ∅ by simp] at attached
  refine ⟨congrArg (· + 1) layer.used, Nat.le_succ_of_le layer.start, room, fun x high => ?_,
    layer.bitmap, ?_⟩
  · exact layer.blank x (Nat.le_of_succ_le high)
  · rw [home_takeBlock layer room]
    exact attached

theorem grows_takeBlock (geometry : Geometry sb) (layer : Layer sb image eff)
    (inside : i < sb.ninodes) (direct : k ≤ 12) (empty : (eff i).addrs k = 0)
    (room : image.freeblock + 1 ≤ limit sb) :
    Grows sb i (home sb image) (home sb (takeBlock image)) eff
      (setEff eff i (setAddr (eff i) k image.freeblock)) := by
  rw [home_takeBlock layer room]
  have data := freeblock_data layer room
  exact grows_trans (grows_alloc geometry layer.blocks data (freeblock_free geometry layer room) inside)
    (grows_setAddr sb direct empty (store_at _ _ _))

theorem apart_takeBlock (geometry : Geometry sb) (layer : Layer sb image eff)
    (room : image.freeblock + 1 ≤ limit sb) (d : Dinode) :
    Apart sb i (home sb image) (home sb (takeBlock image)) eff (setEff eff i d) := by
  rw [home_takeBlock layer room]
  exact apart_trans (apart_alloc geometry layer.blocks (freeblock_data layer room)
    (freeblock_free geometry layer room) i) (apart_setEff sb i _ eff d)

theorem entry_takeBlock (geometry : Geometry sb) (layer : Layer sb image eff)
    (inside : i < sb.ninodes) (direct : k ≤ 12) (empty : (eff i).addrs k = 0)
    (room : image.freeblock + 1 ≤ limit sb) (e : Nat) :
    entry (home sb (takeBlock image)) (setAddr (eff i) k image.freeblock) e =
      if e = k then image.freeblock else entry (home sb image) (eff i) e := by
  have data := freeblock_data layer room
  have zero : allocated sb (home sb image) image.freeblock image.freeblock = 0#4096 := store_at _ _ _
  rw [home_takeBlock layer room, entry_setAddr direct fun last => ⟨last ▸ empty, zero⟩,
    entry_allocated geometry layer.blocks data (freeblock_free geometry layer room) inside]

theorem home_wsect (sb : Superblock) (image : Image) {y : Nat} (apart : y ≠ bblock 0 sb.ninodes)
    (data : Block) : home sb (wsect image y data) = store (home sb image) y data := by
  funext x
  by_cases here : x = y
  · rw [here, store_at, home_other _ _ apart]
    exact store_at _ _ _
  · rw [store_other _ _ here]
    by_cases bitmap : x = bblock 0 sb.ninodes
    · rw [bitmap, home, store_at, home, store_at]
      rfl
    · rw [home_other _ _ bitmap, home_other _ _ bitmap]
      exact store_other _ _ here

theorem layer_store (geometry : Geometry sb) (layer : Layer sb image eff) {y : Nat}
    (plain : Plain sb eff y) (below : y < image.freeblock)
    (away : y < sb.ninodes / 8 + 3 ∨ dataStart sb ≤ y) (data : Block) :
    Layer sb (wsect image y data) eff := by
  have apart : y ≠ bblock 0 sb.ninodes := by
    rw [bitmap_block]
    rw [dataStart_eq] at away
    omega
  refine ⟨layer.used, layer.start, layer.room, fun x high => ?_, fun x low high => ?_, ?_⟩
  · have above : image.freeblock ≤ x := high
    exact (store_other _ _ (by omega)).trans (layer.blank x high)
  · exact (store_other _ _ (by omega)).trans (layer.bitmap x low high)
  · rw [home_wsect sb image apart]
    exact blocks_store geometry layer.blocks plain data

theorem fetched_direct (geometry : Geometry sb) (layer : Layer sb image eff) (inside : i < sb.ninodes)
    (direct : k < 12) (empty : (eff i).addrs k = 0) (room : image.freeblock + 1 ≤ limit sb) :
    Fetched sb i k (home sb image) (home sb (takeBlock image)) eff
      (setEff eff i (setAddr (eff i) k image.freeblock)) image.freeblock := by
  have data := freeblock_data layer room
  have now := entry_takeBlock geometry layer inside (Nat.le_of_lt direct) empty room
  have at_k : fileEntry k = k := if_pos direct
  refine ⟨grows_takeBlock geometry layer inside (Nat.le_of_lt direct) empty room, ?_,
    layer.blocks.ledger.nonzero _ data, fun old => absurd ?_ old, fun _ => ?_, fun l other => ?_,
    apart_takeBlock geometry layer room _⟩
  · rw [setEff_at, blockOf, now, at_k, if_pos rfl]
  · rw [blockOf, at_k, entry_addr (Nat.le_of_lt direct), empty]
  · rw [home_takeBlock layer room]
    exact store_at _ _ _
  · rw [setEff_at, blockOf, now, if_neg, blockOf]
    intro same
    rw [← at_k] at same
    exact other (fileEntry_inj same)

theorem layer_putUint (geometry : Geometry sb) (layer : Layer sb image eff) (inside : i < sb.ninodes)
    {j : Nat} (small : j < 128) (some : (eff i).addrs 12 ≠ 0)
    (empty : getUint (image.sect ((eff i).addrs 12)) j = 0) (room : image.freeblock + 1 ≤ limit sb) :
    let next := wsect (takeBlock image) ((eff i).addrs 12)
      (putUint (image.sect ((eff i).addrs 12)) j image.freeblock)
    Layer sb next eff ∧ Fetched sb i (12 + j) (home sb image) (home sb next) eff eff image.freeblock := by
  intro next
  have table : entry (home sb image) (eff i) 12 = (eff i).addrs 12 := entry_addr (Nat.le_refl 12)
  have index : fileEntry (12 + j) = 13 + j := by
    rw [fileEntry, if_neg (by omega)]
    omega
  have data := freeblock_data layer room
  have free := freeblock_free geometry layer room
  have home₀ : home sb image ((eff i).addrs 12) = image.sect ((eff i).addrs 12) := by
    rw [← table] at some ⊢
    exact home_data layer inside (by omega) some
  have kept : allocated sb (home sb image) image.freeblock ((eff i).addrs 12) =
      image.sect ((eff i).addrs 12) := by
    rw [← home₀]
    have used := addr_data layer.blocks inside (Nat.le_refl 12) some
    refine allocated_other geometry _ data used.1 fun same => ?_
    rw [same, free] at used
    exact Bool.false_ne_true used.2
  have high := (addr_data layer.blocks inside (Nat.le_refl 12) some).1
  have below : (eff i).addrs 12 < image.freeblock := by
    rw [← table] at some ⊢
    exact entry_below geometry layer inside (by omega) some
  -- The image after both writes, seen through the kernel's block layer.
  have shown : home sb next = store (allocated sb (home sb image) image.freeblock)
      ((eff i).addrs 12) (putUint (image.sect ((eff i).addrs 12)) j image.freeblock) := by
    rw [← home_takeBlock layer room]
    exact home_wsect sb _ (data_ne_bitmap high.1) _
  have taken := blocks_alloc geometry layer.blocks data free
  have vacant : getUint (allocated sb (home sb image) image.freeblock ((eff i).addrs 12)) j = 0 := by
    rwa [kept]
  have attached := blocks_putUint geometry taken inside some small vacant
    (Set.mem_insert image.freeblock ∅)
  have grown := grows_trans (grows_alloc geometry layer.blocks data free inside)
    (grows_putUint (b := image.freeblock) taken inside some vacant)
  rw [show (insert image.freeblock ∅ : Set Nat) \ {image.freeblock} = ∅ by simp, kept] at attached
  rw [kept] at grown
  have fits : image.freeblock < 2 ^ 32 := by
    have := geometry.wide
    have := inData_size geometry data
    omega
  have entries : ∀ e, entry (home sb next) (eff i) e =
      if e = 13 + j then image.freeblock else entry (home sb image) (eff i) e := by
    intro e
    rw [shown]
    unfold entry
    by_cases low : e ≤ 12
    · rw [if_pos low, if_pos low, if_neg (by omega)]
    · rw [if_neg low, if_neg low, if_neg some, if_neg some, store_at, home₀]
      by_cases here : e = 13 + j
      · rw [if_pos here, here, Nat.add_sub_cancel_left, getUint_putUint_same _ small fits]
      · rw [if_neg here, getUint_putUint_other _ _ (by omega)]
  refine ⟨⟨congrArg (· + 1) layer.used, Nat.le_succ_of_le layer.start, room, fun x above => ?_,
    fun x low above => ?_, by rw [shown]; exact attached⟩, ?_⟩
  · have later : image.freeblock + 1 ≤ x := above
    exact (store_other _ _ (by omega)).trans (layer.blank x (by omega))
  · have := high.1
    exact (store_other _ _ (by omega)).trans (layer.bitmap x low above)
  · refine ⟨by rw [shown]; exact grown, ?_, layer.blocks.ledger.nonzero _ data, fun _ => rfl,
      fun _ => ?_, fun l other => ?_, ?_⟩
    · rw [blockOf, index, entries, if_pos rfl]
    · rw [shown, store_other _ _ (by omega)]
      exact store_at _ _ _
    · rw [blockOf, entries, if_neg, blockOf]
      intro same
      rw [← index] at same
      exact other (fileEntry_inj same)
    · rw [shown]
      have stored := apart_store taken inside (show 12 < 141 by omega)
        (by rwa [entry_addr (Nat.le_refl 12)])
        (putUint (image.sect ((eff i).addrs 12)) j image.freeblock)
      rw [entry_addr (Nat.le_refl 12)] at stored
      exact apart_trans (apart_alloc geometry layer.blocks data free i) stored

theorem setEff_self (eff : Nat → Dinode) (i : Nat) : setEff eff i (eff i) = eff := by
  funext j
  by_cases here : j = i
  · rw [here, setEff_at]
  · rw [setEff_other _ _ here]

theorem setEff_twice (eff : Nat → Dinode) (i : Nat) (d d' : Dinode) :
    setEff (setEff eff i d) i d' = setEff eff i d' := by
  funext j
  by_cases here : j = i
  · rw [here, setEff_at, setEff_at]
  · rw [setEff_other _ _ here, setEff_other _ _ here, setEff_other _ _ here]

theorem fetched_old {x : Nat} (value : blockOf (home sb image) (eff i) k = x) (some : x ≠ 0) :
    Fetched sb i k (home sb image) (home sb image) eff eff x :=
  ⟨grows_refl _ _ _ _, value, some, fun _ => rfl, fun none => absurd (value.symm.trans none) some,
    fun _ _ => rfl, apart_refl _ _ _ _⟩

theorem indirect_block (layer : Layer sb image eff) (inside : i < sb.ninodes) {j : Nat}
    (some : (eff i).addrs 12 ≠ 0) :
    blockOf (home sb image) (eff i) (12 + j) = getUint (image.sect ((eff i).addrs 12)) j := by
  have table : entry (home sb image) (eff i) 12 = (eff i).addrs 12 := entry_addr (Nat.le_refl 12)
  have same : home sb image ((eff i).addrs 12) = image.sect ((eff i).addrs 12) := by
    rw [← table] at some ⊢
    exact home_data layer inside (by omega) some
  have index : fileEntry (12 + j) = 13 + j := by
    rw [fileEntry, if_neg (by omega)]
    omega
  rw [blockOf, index, entry_indirect some, same]

theorem fetched_after {h₁ h₂ h₃ : Nat → Block} {eff₁ eff₂ : Nat → Dinode} {x : Nat}
    (grows : Grows sb i h₁ h₂ eff₁ eff₂) (none : blockOf h₁ (eff₁ i) k = 0)
    (others : ∀ l, blockOf h₂ (eff₂ i) l = blockOf h₁ (eff₁ i) l)
    (apart : Apart sb i h₁ h₂ eff₁ eff₂) (fetched : Fetched sb i k h₂ h₃ eff₂ eff₂ x) : Fetched sb i k h₁ h₃ eff₁ eff₂ x :=
  ⟨grows_trans grows fetched.grows, fetched.value, fetched.some, fun old => absurd none old,
    fun _ => fetched.fresh ((others k).trans none),
    fun l other => (fetched.others l other).trans (others l), apart_trans apart fetched.apart⟩

theorem blockFor_further (image : Image) (din : Dinode) (k : Nat) :
    Further 0 image (blockFor image din k).1 := by
  have once := further_takeBlock image
  have twice := further_trans once (further_takeBlock (takeBlock image))
  unfold blockFor
  split
  · split
    · exact once
    · exact further_refl image
  · by_cases none : din.addrs ndirect = 0
    · simp only [none, ↓reduceIte]
      split
      · exact ⟨twice.inodes, twice.blocks, twice.level⟩
      · exact once
    · simp only [none, ↓reduceIte]
      split
      · exact ⟨once.inodes, once.blocks, once.level⟩
      · exact further_refl image

theorem blockFor_spec (geometry : Geometry sb) (layer : Layer sb image eff) (inside : i < sb.ninodes)
    (live : (eff i).type ≠ 0) (small : k < 140)
    (room : (blockFor image (eff i) k).1.freeblock ≤ limit sb) :
    Layer sb (blockFor image (eff i) k).1 (setEff eff i (blockFor image (eff i) k).2.1) ∧
      Fetched sb i k (home sb image) (home sb (blockFor image (eff i) k).1) eff
        (setEff eff i (blockFor image (eff i) k).2.1) (blockFor image (eff i) k).2.2 := by
  unfold blockFor at room ⊢
  by_cases direct : k < 12
  · simp only [ndirect, direct, ↓reduceIte] at room ⊢
    by_cases empty : (eff i).addrs k = 0
    · simp only [empty, ↓reduceIte] at room ⊢
      exact ⟨layer_setAddr geometry layer inside live (Nat.le_of_lt direct) empty room,
        fetched_direct geometry layer inside direct empty room⟩
    · simp only [empty, ↓reduceIte] at room ⊢
      rw [setEff_self]
      refine ⟨layer, fetched_old ?_ empty⟩
      rw [blockOf, fileEntry, if_pos direct, entry_addr (Nat.le_of_lt direct)]
  · obtain ⟨j, rfl⟩ : ∃ j, k = 12 + j := ⟨k - 12, by omega⟩
    simp only [ndirect, direct, ↓reduceIte, Nat.add_sub_cancel_left] at room ⊢
    by_cases none : (eff i).addrs 12 = 0
    · -- Both the indirect block and the block itself are new.
      simp only [none, ↓reduceIte] at room ⊢
      have table : (setAddr (eff i) 12 image.freeblock).addrs 12 = image.freeblock := by
        simp [setAddr]
      have blank : (takeBlock image).sect image.freeblock = 0#4096 := layer.blank _ (Nat.le_refl _)
      simp only [table, blank, getUint_zero, ↓reduceIte] at room ⊢
      have room₁ : image.freeblock + 1 ≤ limit sb := Nat.le_of_succ_le room
      have layer₁ := layer_setAddr geometry layer inside live (Nat.le_refl 12) none room₁
      have at_i : setEff eff i (setAddr (eff i) 12 image.freeblock) i =
          setAddr (eff i) 12 image.freeblock := setEff_at _ _ _
      obtain ⟨layer₂, fetched⟩ := layer_putUint geometry layer₁ inside (show j < 128 by omega)
        (by rw [at_i, table]; exact layer.blocks.ledger.nonzero _ (freeblock_data layer room₁))
        (by rw [at_i, table, blank]; exact getUint_zero j) room
      rw [at_i, table, blank] at layer₂ fetched
      refine ⟨layer₂, fetched_after (grows_takeBlock geometry layer inside (Nat.le_refl 12) none room₁)
        ?_ (fun l => ?_) (apart_takeBlock geometry layer room₁ _) fetched⟩
      · rw [blockOf, entry, if_neg (by rw [fileEntry, if_neg (by omega)]; omega), if_pos none]
      · rw [at_i, blockOf, entry_takeBlock geometry layer inside (Nat.le_refl 12) none room₁,
          if_neg (fileEntry_ne l), blockOf]
    · simp only [none, ↓reduceIte] at room ⊢
      by_cases empty : getUint (image.sect ((eff i).addrs 12)) j = 0
      · simp only [empty, ↓reduceIte] at room ⊢
        rw [setEff_self]
        exact layer_putUint geometry layer inside (by omega) none empty room
      · simp only [empty, ↓reduceIte] at room ⊢
        rw [setEff_self]
        exact ⟨layer, fetched_old (indirect_block layer inside none) empty⟩

end Layers

/-! Appending. -/

/-- The blocks of an inode hold nothing from `off` on. -/
def Tail (h : Nat → Block) (d : Dinode) (off : Nat) : Prop :=
  ∀ p, off ≤ p → p / 512 < 140 → blockOf h d (p / 512) ≠ 0 → rawByte h d p = 0

section Append
variable {sb : Superblock} {image next : Image} {eff : Nat → Dinode} {i off : Nat} {p : List UInt8}
  {din din' : Dinode} {last fuel : Nat}

theorem tail_chunk {h h₁ : Nat → Block} {eff₁ : Nat → Dinode} {x : Nat} (chunk : List UInt8)
    (fetched : Fetched sb i (off / 512) h h₁ eff eff₁ x) (blocks : Blocks sb h₁ eff₁ ∅)
    (inside : i < sb.ninodes) (small : off / 512 < 140) (tail : Tail h (eff i) off) :
    Tail (store h₁ x (setBytes (h₁ x) (off % 512) chunk)) (eff₁ i) (off + chunk.length) := by
  have there : blockOf h₁ (eff₁ i) (off / 512) ≠ 0 := by
    rw [fetched.value]
    exact fetched.some
  have plain := plain_blockOf blocks inside small there
  have value := fetched.value
  subst value
  have still : ∀ k, blockOf (store h₁ (blockOf h₁ (eff₁ i) (off / 512))
      (setBytes (h₁ (blockOf h₁ (eff₁ i) (off / 512))) (off % 512) chunk)) (eff₁ i) k =
        blockOf h₁ (eff₁ i) k := fun k => blockOf_store plain _ inside
  intro q past bound present
  rw [still] at present
  rw [rawByte, still]
  by_cases here : q / 512 = off / 512
  · -- Behind the chunk, in the same block: as before, or in a new block.
    rw [here, store_at, byteAt_setBytes_outside _ _ _ _ (by omega)]
    by_cases new : blockOf h (eff i) (off / 512) = 0
    · rw [fetched.fresh new, byteAt_zero]
    · have before := tail q (by omega) bound (by rwa [here])
      rw [rawByte, here] at before
      rw [(fetched.grows.kept _ small new).1, (fetched.grows.kept _ small new).2]
      exact before
  · have old : blockOf h (eff i) (q / 512) ≠ 0 := by
      rwa [← fetched.others _ here]
    rw [store_other]
    · have before := tail q (by omega) bound old
      rwa [← grows_raw fetched.grows bound old, rawByte] at before
    · intro clash
      exact here (fileEntry_inj (entry_inj blocks inside inside (fileEntry_lt bound)
        (fileEntry_lt small) present clash).2)

theorem iappendLoop_further (run : iappendLoop fuel image din off p = some (next, din', last)) :
    Further 0 image next := by
  induction fuel generalizing image din off p with
  | zero =>
    cases run
    exact further_refl _
  | succ fuel ih =>
    rw [iappendLoop] at run
    split at run
    · cases run
      exact further_refl _
    · simp only at run
      split at run
      · cases run
      · have rest := ih run
        have first := blockFor_further image din (off / 512)
        exact further_trans first ⟨rest.inodes, rest.blocks, rest.level⟩

theorem iappendLoop_first (some : p.length ≠ 0)
    (run : iappendLoop (fuel + 1) image din off p = Option.some (next, din', last)) :
    off / 512 < 140 ∧ (blockFor image din (off / 512)).1.freeblock ≤ next.freeblock := by
  rw [iappendLoop] at run
  simp only [some, ↓reduceIte] at run
  by_cases bound : maxfile ≤ off / 512
  · rw [if_pos bound] at run
    cases run
  · rw [if_neg bound] at run
    exact ⟨Nat.lt_of_not_le bound, (iappendLoop_further run).blocks⟩

theorem iappendLoop_step (geometry : Geometry sb) (layer : Layer sb image eff)
    (inside : i < sb.ninodes) (live : (eff i).type ≠ 0) (some : p.length ≠ 0)
    (run : iappendLoop (fuel + 1) image (eff i) off p = Option.some (next, din, last))
    (room : (blockFor image (eff i) (off / 512)).1.freeblock ≤ limit sb) :
    ∃ image₁ din₁ x, image₁.freeblock = (blockFor image (eff i) (off / 512)).1.freeblock ∧
      Layer sb image₁ (setEff eff i din₁) ∧
      Fetched sb i (off / 512) (home sb image) (home sb image₁) eff (setEff eff i din₁) x ∧
      Plain sb (setEff eff i din₁) x ∧ dataStart sb ≤ x ∧ x < image₁.freeblock ∧
      iappendLoop fuel
        (wsect image₁ x (setBytes (image₁.sect x) (off % 512)
          (p.take (min p.length (512 - off % 512)))))
        (setEff eff i din₁ i) (off + min p.length (512 - off % 512))
        (p.drop (min p.length (512 - off % 512))) = Option.some (next, din, last) := by
  have small := (iappendLoop_first some run).1
  rw [iappendLoop] at run
  simp only [some, ↓reduceIte] at run
  have bound : ¬maxfile ≤ off / 512 := Nat.not_le.mpr small
  rw [if_neg bound] at run
  obtain ⟨layer₁, fetched⟩ := blockFor_spec geometry layer inside live small room
  generalize blockFor image (eff i) (off / 512) = out at run layer₁ fetched
  obtain ⟨image₁, din₁, x⟩ := out
  simp only at run layer₁ fetched
  have offset : off - off / 512 * 512 = off % 512 := by omega
  have width : (off / 512 + 1) * 512 - off = 512 - off % 512 := by omega
  rw [offset, width] at run
  have value := fetched.value
  have there : blockOf (home sb image₁) (setEff eff i din₁ i) (off / 512) ≠ 0 := by
    rw [value]
    exact fetched.some
  have data := (blockOf_data layer₁.blocks inside small there).1
  have below : x < image₁.freeblock := by
    rw [← value]
    exact entry_below geometry layer₁ inside (fileEntry_lt small) there
  have plain := plain_blockOf layer₁.blocks inside small there
  rw [value] at data plain
  refine ⟨image₁, din₁, x, rfl, layer₁, fetched, plain, data.1, below, ?_⟩
  rw [setEff_at]
  exact run

theorem iappendLoop_spec (geometry : Geometry sb) (layer : Layer sb image eff)
    (inside : i < sb.ninodes) (live : (eff i).type ≠ 0) (enough : p.length ≤ fuel)
    (short : off ≤ 71680) (tail : Tail (home sb image) (eff i) off)
    (run : iappendLoop fuel image (eff i) off p = some (next, din, last))
    (room : next.freeblock ≤ limit sb) :
    Layer sb next (setEff eff i din) ∧ last = off + p.length ∧ last ≤ 71680 ∧
      Written sb i off p (home sb image) (home sb next) eff (setEff eff i din) ∧
      Tail (home sb next) din last ∧
      Apart sb i (home sb image) (home sb next) eff (setEff eff i din) := by
  induction fuel generalizing image eff off p with
  | zero =>
    obtain rfl : p = [] := List.length_eq_zero_iff.mp (by omega)
    cases run
    rw [setEff_self]
    exact ⟨layer, rfl, short, written_nil _ _ _ _ _, tail, apart_refl _ _ _ _⟩
  | succ fuel ih =>
    by_cases finished : p.length = 0
    · obtain rfl := List.length_eq_zero_iff.mp finished
      cases run
      rw [setEff_self]
      exact ⟨layer, rfl, short, written_nil _ _ _ _ _, tail, apart_refl _ _ _ _⟩
    obtain ⟨small, blocks⟩ := iappendLoop_first finished run
    obtain ⟨image₁, din₁, x, _, layer₁, fetched, plain, high, below, run⟩ :=
      iappendLoop_step geometry layer inside live finished run (blocks.trans room)
    have cut : (p.take (min p.length (512 - off % 512))).length = min p.length (512 - off % 512) := by
      simp
    have value := fetched.value
    have there : blockOf (home sb image₁) (setEff eff i din₁ i) (off / 512) ≠ 0 := by
      rw [value]
      exact fetched.some
    have same : home sb image₁ x = image₁.sect x := home_other _ _ (data_ne_bitmap high)
    have layer₂ := layer_store geometry layer₁ plain below (Or.inr high)
      (setBytes (image₁.sect x) (off % 512) (p.take (min p.length (512 - off % 512))))
    have shown := home_wsect sb image₁ (data_ne_bitmap high)
      (setBytes (image₁.sect x) (off % 512) (p.take (min p.length (512 - off % 512))))
    have written₁ := written_store fetched.grows there fetched.same layer₁.blocks inside small
      (show 0 < (p.take (min p.length (512 - off % 512))).length by omega) (by omega)
    have tail₁ := tail_chunk (p.take (min p.length (512 - off % 512))) fetched layer₁.blocks inside
      small tail
    have stored := apart_store layer₁.blocks inside (fileEntry_lt small) there
      (setBytes (image₁.sect x) (off % 512) (p.take (min p.length (512 - off % 512))))
    rw [blockOf] at value
    rw [value, ← shown] at stored
    rw [blockOf, value] at written₁
    rw [same, ← shown] at written₁ tail₁
    rw [cut] at tail₁
    have at_i : setEff eff i din₁ i = din₁ := setEff_at _ _ _
    have live₁ : (setEff eff i din₁ i).type ≠ 0 := by
      rw [fetched.grows.fields]
      exact live
    have rest : (p.drop (min p.length (512 - off % 512))).length =
        p.length - min p.length (512 - off % 512) := List.length_drop
    obtain ⟨layer', ends, capped, written', tail', apart'⟩ :=
      ih layer₂ live₁ (by omega) (by omega) tail₁ run
    rw [setEff_twice] at layer' written' apart'
    refine ⟨layer', by omega, capped, ?_, tail', apart_trans fetched.apart (apart_trans stored apart')⟩
    have whole := written_append written₁ (by rw [cut]; exact written') (by
      rw [List.take_append_drop]
      omega)
    rwa [List.take_append_drop] at whole

end Append

/-! Whole steps of mkfs. Between them every dinode in force is on the image. -/

structure Built (sb : Superblock) (image : Image) (nodes : Nat → Node) : Prop where
  layer : Layer sb image (dinodeAt image.sect)
  nodes : ∀ i < sb.ninodes, nodes i = nodeOf (home sb image) (dinodeAt image.sect i)
  tail : ∀ i < sb.ninodes, Tail (home sb image) (dinodeAt image.sect i) (dinodeAt image.sect i).size
  unused : ∀ i < sb.ninodes, image.freeinode ≤ i → dinodeAt image.sect i = Dinode.zero

section Steps
variable {sb : Superblock} {image next : Image} {nodes : Nat → Node} {eff eff' : Nat → Dinode}
  {h : Nat → Block} {spare : Set Nat} {i : Nat} {d : Dinode} {p : List UInt8}

theorem blocks_congr (blocks : Blocks sb h eff spare) (same : ∀ j < sb.ninodes, eff' j = eff j) :
    Blocks sb h eff' spare := by
  have owners : own sb h eff' = own sb h eff := by
    funext ⟨j, e⟩
    unfold own
    split
    · rename_i bounds
      rw [same j bounds.1]
    · rfl
  refine ⟨blocks.super, by rw [owners]; exact blocks.ledger, blocks.low, ?_, ?_, ?_, ?_⟩
  · intro j inside
    rw [same j inside]
    exact blocks.full j inside
  · intro j inside
    rw [same j inside]
    exact blocks.small j inside
  · intro j inside
    rw [same j inside]
    exact blocks.fields j inside
  · intro j inside
    rw [same j inside]
    exact blocks.clean j inside

theorem tail_store_low (blocks : Blocks sb h eff spare) (inside : i < sb.ninodes) {y off : Nat}
    (low : y < dataStart sb) (data : Block) (tail : Tail h (eff i) off) :
    Tail (store h y data) (eff i) off := by
  have away : ∀ e < 141, entry h (eff i) e ≠ 0 → entry h (eff i) e ≠ y := by
    intro e small some same
    exact low_notData low (same ▸ (entry_data blocks inside small some).1)
  have still : ∀ k, blockOf (store h y data) (eff i) k = blockOf h (eff i) k := by
    intro k
    refine entry_congr fun there => store_other _ _ ?_
    have table : entry h (eff i) 12 = (eff i).addrs 12 := entry_addr (Nat.le_refl 12)
    rw [← table] at there ⊢
    exact away 12 (by omega) there
  intro q past bound some
  rw [still] at some
  have off' : blockOf h (eff i) (q / 512) ≠ y := away _ (fileEntry_lt bound) some
  rw [rawByte, still, store_other _ _ off']
  exact tail q past bound some

theorem tail_apart {h' : Nat → Block} {j off : Nat} (apart : Apart sb i h h' eff eff')
    (inside : j < sb.ninodes) (other : j ≠ i) (tail : Tail h (eff j) off) : Tail h' (eff' j) off := by
  intro q past bound some
  obtain ⟨same, data⟩ := apart j inside other (q / 512) bound
  rw [same] at some
  rw [rawByte, same, data some]
  exact tail q past bound some

theorem built_winode (geometry : Geometry sb) (layer : Layer sb image eff) (inside : i < sb.ninodes)
    (synced : ∀ j < sb.ninodes, j ≠ i → dinodeAt image.sect j = eff j) (ok : DinodeOk d)
    (blocks : Blocks sb (home sb image) (setEff eff i d) ∅)
    (tails : ∀ j < sb.ninodes, Tail (home sb image) (setEff eff i d j) (setEff eff i d j).size)
    (unused : ∀ j < sb.ninodes, image.freeinode ≤ j → setEff eff i d j = Dinode.zero) :
    Built sb (winode image i d) fun j => nodeOf (home sb image) (setEff eff i d j) := by
  have low := iblock_low sb inside
  have start := layer.start
  have wide : iblock i < dataStart sb := by
    rw [dataStart_eq]
    omega
  have layer₁ : Layer sb image (setEff eff i d) := { layer with blocks := blocks }
  have layer₂ := layer_store geometry layer₁ (plain_iblock blocks inside) (by omega) (Or.inl low.2)
    (putDinode (image.sect (iblock i)) (i % ipb) d)
  have shown := home_wsect sb image (y := iblock i) (by rw [bitmap_block]; omega)
    (putDinode (image.sect (iblock i)) (i % ipb) d)
  have dinodes : ∀ j < sb.ninodes, dinodeAt (winode image i d).sect j = setEff eff i d j := by
    intro j bound
    refine (dinodeAt_putDinode (i := i) image.sect ok).trans ?_
    by_cases here : j = i
    · rw [if_pos here, here, setEff_at]
    · rw [if_neg here, setEff_other _ _ here]
      exact synced j bound here
  refine ⟨{ layer₂ with blocks := blocks_congr layer₂.blocks dinodes }, fun j bound => ?_,
    fun j bound => ?_, fun j bound past => ?_⟩
  · rw [dinodes j bound, winode, shown]
    exact (nodeOf_store_low blocks _ bound wide).symm
  · rw [dinodes j bound, winode, shown]
    exact tail_store_low blocks bound wide _ (tails j bound)
  · rw [dinodes j bound]
    exact unused j bound past

theorem built_congr {nodes' : Nat → Node} (built : Built sb image nodes)
    (same : ∀ j < sb.ninodes, nodes' j = nodes j) : Built sb image nodes' :=
  { built with nodes := fun j inside => (same j inside).trans (built.nodes j inside) }

theorem iappend_inv (run : iappend image i p = some next) :
    ∃ image₁ din₁ last, iappendLoop p.length image (dinodeAt image.sect i)
        (dinodeAt image.sect i).size p = some (image₁, din₁, last) ∧
      next = winode image₁ i { din₁ with size := last } := by
  obtain ⟨⟨image₁, din₁, last⟩, loop, rest⟩ := Option.bind_eq_some_iff.mp run
  cases rest
  exact ⟨image₁, din₁, last, loop, rfl⟩

theorem iappend_further (run : iappend image i p = some next) : Further 0 image next := by
  obtain ⟨image₁, din₁, last, loop, rfl⟩ := iappend_inv run
  have further := iappendLoop_further loop
  exact ⟨further.inodes, further.blocks, further.level⟩

theorem built_iappend (geometry : Geometry sb) (built : Built sb image nodes) (inside : i < sb.ninodes)
    (live : (nodes i).type ≠ 0) (run : iappend image i p = some next)
    (room : next.freeblock ≤ limit sb) :
    Built sb next (setNode nodes i ((nodes i).write (nodes i).size p)) := by
  obtain ⟨image₁, din₁, last, loop, rfl⟩ := iappend_inv run
  have layer := built.layer
  have node := built.nodes i inside
  have live₀ : (dinodeAt image.sect i).type ≠ 0 := by
    rw [node] at live
    exact live
  obtain ⟨layer₁, rfl, capped, written, tail₁, apart⟩ := iappendLoop_spec geometry layer inside live₀
    (Nat.le_refl _) (layer.blocks.small i inside) (built.tail i inside) loop room
  have further := iappendLoop_further loop
  have size : max (dinodeAt image.sect i).size ((dinodeAt image.sect i).size + p.length) =
      (dinodeAt image.sect i).size + p.length := by omega
  have at_i : setEff (dinodeAt image.sect) i din₁ i = din₁ := setEff_at _ _ _
  have fields := layer₁.blocks.fields i inside
  rw [at_i] at fields
  have ok : DinodeOk { din₁ with size := (dinodeAt image.sect i).size + p.length } :=
    { fields with size := by simp only; omega }
  have live₁ : din₁.type ≠ 0 := by
    have same := written.fields
    rw [at_i] at same
    rw [same]
    exact live₀
  have blocks : Blocks sb (home sb image₁) (setEff (setEff (dinodeAt image.sect) i din₁) i
      { din₁ with size := (dinodeAt image.sect i).size + p.length }) ∅ := by
    refine blocks_setFields layer₁.blocks (by rw [at_i]) ok capped (fun free => absurd free live₁) ?_
    intro k below
    have full := written_full layer.blocks inside written (Nat.le_refl _) (k := k)
      (by rw [size]; exact below)
    rwa [at_i] at full
  refine built_congr (built_winode geometry layer₁ inside (fun j bound other => ?_) ok blocks
    (fun j bound => ?_) fun j bound past => ?_) fun j bound => ?_
  · rw [setEff_other _ _ other, ← dinodeAt_home sb image₁ bound, written.dinodes j bound,
      dinodeAt_home sb image bound]
  · by_cases here : j = i
    · rw [here, setEff_at]
      exact tail₁
    · have kept := tail_apart apart bound here (built.tail j bound)
      rw [setEff_other _ _ here] at kept
      rwa [setEff_other _ _ here, setEff_other _ _ here]
  · have past' : image.freeinode ≤ j := by
      have := further.inodes
      omega
    have other : j ≠ i := by
      rintro rfl
      rw [built.unused j bound past'] at live₀
      exact live₀ rfl
    rw [setEff_other _ _ other, setEff_other _ _ other]
    exact built.unused j bound past'
  · by_cases here : j = i
    · have whole := written_node layer.blocks inside written (Nat.le_refl _)
      rw [size, at_i] at whole
      rw [here, setNode_at, setEff_at, whole, node]
      rfl
    · rw [setNode_other _ _ here, setEff_other _ _ here, written.nodes j bound here]
      exact built.nodes j bound

theorem blockOf_zero (h : Nat → Block) {d : Dinode} (none : ∀ k, d.addrs k = 0) (k : Nat) :
    blockOf h d k = 0 := by
  rw [blockOf, entry]
  split
  · exact none _
  · rw [if_pos (none 12)]

theorem tail_none (h : Nat → Block) (none : ∀ k, d.addrs k = 0) (off : Nat) : Tail h d off :=
  fun _ _ _ some => absurd (blockOf_zero h none _) some

theorem built_ialloc (geometry : Geometry sb) (built : Built sb image nodes) {type : Nat}
    (inside : image.freeinode < sb.ninodes) (typed : type ≠ 0) (small : type < 2 ^ 16) :
    Built sb (ialloc image type).2 (setNode nodes image.freeinode (newFile type 0 0)) := by
  have zero := built.unused _ inside (Nat.le_refl _)
  have none : ∀ k, ({ Dinode.zero with type := type, nlink := 1 } : Dinode).addrs k = 0 := fun _ => rfl
  have layer : Layer sb { image with freeinode := image.freeinode + 1 } (dinodeAt image.sect) :=
    ⟨built.layer.used, built.layer.start, built.layer.room, built.layer.blank, built.layer.bitmap,
      built.layer.blocks⟩
  have ok : DinodeOk { Dinode.zero with type := type, nlink := 1 } := by
    refine ⟨small, ?_, ?_, ?_, ?_, ?_, ?_⟩ <;> simp [Dinode.zero]
  have blocks : Blocks sb (home sb image)
      (setEff (dinodeAt image.sect) image.freeinode { Dinode.zero with type := type, nlink := 1 }) ∅ :=
    blocks_setFields built.layer.blocks (by rw [zero]) ok (Nat.zero_le _)
      (fun free => absurd free typed) fun k below => absurd below (Nat.not_lt_zero _)
  refine built_congr (built_winode geometry layer inside (fun _ _ _ => rfl) ok blocks
    (fun j bound => ?_) fun j bound past => ?_) fun j bound => ?_
  · by_cases here : j = image.freeinode
    · rw [here, setEff_at]
      exact tail_none _ none _
    · rw [setEff_other _ _ here]
      exact built.tail j bound
  · have later : image.freeinode + 1 ≤ j := past
    rw [setEff_other _ _ (by omega)]
    exact built.unused j bound (by omega)
  · by_cases here : j = image.freeinode
    · rw [here, setNode_at, setEff_at]
      rfl
    · rw [setNode_other _ _ here, setEff_other _ _ here]
      exact built.nodes j bound

theorem appendAll_further {chunks : List (List UInt8)} (run : appendAll i chunks image = some next) :
    Further 0 image next := by
  induction chunks generalizing image with
  | nil =>
    cases run
    exact further_refl _
  | cons chunk rest ih =>
    obtain ⟨image₁, first, later⟩ := Option.bind_eq_some_iff.mp run
    exact further_trans (iappend_further first) (ih later)

/-- The node with its size rounded up past the end of its last block. -/
def padded (node : Node) : Node := { node with size := (node.size / 512 + 1) * 512 }

theorem built_fixRoot (geometry : Geometry sb) (built : Built sb image nodes)
    (live : (nodes rootino).type ≠ 0) (begun : (nodes rootino).size % 512 ≠ 0) :
    Built sb (fixRoot image) (setNode nodes rootino (padded (nodes rootino))) := by
  have inside : rootino < sb.ninodes := geometry.root
  have node := built.nodes rootino inside
  have layer := built.layer
  have capped := layer.blocks.small rootino inside
  rw [node] at live begun
  have begun : (dinodeAt image.sect rootino).size % 512 ≠ 0 := begun
  have ok : DinodeOk { dinodeAt image.sect rootino with
      size := ((dinodeAt image.sect rootino).size / 512 + 1) * 512 } :=
    { layer.blocks.fields rootino inside with size := by simp only; omega }
  have full : ∀ k, 512 * k < ((dinodeAt image.sect rootino).size / 512 + 1) * 512 →
      blockOf (home sb image) (dinodeAt image.sect rootino) k ≠ 0 := by
    intro k below
    exact layer.blocks.full rootino inside k (by omega)
  have blocks := blocks_setFields (i := rootino) layer.blocks (d := { dinodeAt image.sect rootino with
      size := ((dinodeAt image.sect rootino).size / 512 + 1) * 512 }) rfl ok (by simp only; omega)
    (fun free => absurd free live) full
  change Built sb (winode image rootino { dinodeAt image.sect rootino with
    size := ((dinodeAt image.sect rootino).size / 512 + 1) * 512 }) _
  refine built_congr (built_winode geometry layer inside (fun _ _ _ => rfl) ok blocks
    (fun j bound => ?_) fun j bound past => ?_) fun j bound => ?_
  · by_cases here : j = rootino
    · rw [here, setEff_at]
      exact fun q past => built.tail rootino inside q (by simp only at past; omega)
    · rw [setEff_other _ _ here]
      exact built.tail j bound
  · have other : j ≠ rootino := by
      rintro rfl
      exact live (congrArg Dinode.type (built.unused rootino bound past))
    rw [setEff_other _ _ other]
    exact built.unused j bound past
  · by_cases here : j = rootino
    · rw [here, setNode_at, setEff_at, node]
      refine node_ext rfl rfl rfl rfl rfl fun q => ?_
      simp only [padded, nodeOf]
      by_cases old : q < (dinodeAt image.sect rootino).size
      · rw [if_pos old, if_pos (by omega)]
        rfl
      · rw [if_neg old]
        split
        · rename_i new
          exact (built.tail rootino inside q (by omega) (by omega) (full _ (by omega))).symm
        · rfl
    · rw [setNode_other _ _ here, setEff_other _ _ here]
      exact built.nodes j bound

theorem getDinode_zero (n : Nat) : getDinode 0#4096 n = Dinode.zero := by
  apply dinode_ext <;> simp [getDinode, field_zero, Dinode.zero]

theorem built_empty {params : Params} (geometry : Geometry (superblock params))
    (whole : params.nblocks + dataStart (superblock params) + params.nlog = params.size)
    (room : dataStart (superblock params) ≤ limit (superblock params)) :
    Built (superblock params) (emptyImage params) fun _ => newNode 0 := by
  have wide : params.size < 2 ^ 32 := geometry.wide
  have inums : params.ninodes ≤ 2 ^ 16 := geometry.inums
  have zero : ∀ x, x ≠ 1 → (emptyImage params).sect x = 0#4096 := fun x other =>
    store_other (fun _ => 0#4096) _ other
  have far := dataStart_eq (superblock params)
  have bitmap : ∀ x, (superblock params).ninodes / 8 + 3 ≤ x → x < dataStart (superblock params) →
      (emptyImage params).sect x = 0#4096 := fun x low _ => zero x (by omega)
  have dinodes : ∀ j < (superblock params).ninodes,
      dinodeAt (emptyImage params).sect j = Dinode.zero := by
    intro j inside
    have low := iblock_low _ inside
    rw [dinodeAt, zero _ (by omega), getDinode_zero]
  have used : ∀ b < (superblock params).size, usedIn (home (superblock params) (emptyImage params))
      (superblock params) b = decide (b < dataStart (superblock params)) :=
    fun b inside => by
      have small : (emptyImage params).freeblock ≤ 4096 := room.trans (min_le_left _ _)
      exact usedIn_shown small bitmap inside
  have nothing : own (superblock params) (home (superblock params) (emptyImage params))
      (dinodeAt (emptyImage params).sect) = fun _ => 0 := by
    funext owner
    obtain ⟨j, e⟩ := owner
    unfold own
    split
    · rename_i bounds
      rw [dinodes j bounds.1, entry]
      split
      · rfl
      · exact if_pos rfl
    · rfl
  refine ⟨⟨rfl, Nat.le_refl _, room, fun x high => zero x ?_, bitmap, ?_⟩, fun j inside => ?_,
    fun j inside => ?_, fun j inside _ => dinodes j inside⟩
  · have : dataStart (superblock params) ≤ x := high
    omega
  · refine ⟨?_, ?_, fun b low => ?_, fun j inside k below => ?_, fun j inside => ?_, fun j inside => ?_,
      fun j inside _ k => ?_⟩
    · rw [home_other _ _ (by rw [bitmap_block]; omega)]
      refine (congrArg getSuperblock (store_at _ _ _)).trans
        (getSuperblock_putSuperblock _ _ wide ?_ ?_ ?_)
      · exact Nat.lt_of_le_of_lt (by simp only [superblock] at *; omega) wide
      · exact Nat.lt_of_le_of_lt inums (by decide)
      · exact Nat.lt_of_le_of_lt (by simp only [superblock] at *; omega) wide
    · rw [nothing]
      refine ⟨fun b data none => ?_, fun _ _ some => absurd rfl some, fun _ some => absurd rfl some,
        fun _ member => absurd member (Set.notMem_empty _), fun _ member => absurd member (Set.notMem_empty _),
        fun b data marked => ?_⟩
      · have := data.1
        omega
      · rw [used b (inData_size geometry data)] at marked
        have := data.1
        simp at marked
        omega
    · rw [used b (low_size geometry low)]
      simpa using low
    · rw [dinodes j inside] at below
      exact absurd below (Nat.not_lt_zero _)
    · rw [dinodes j inside]
      exact Nat.zero_le _
    · rw [dinodes j inside]
      constructor <;> simp [Dinode.zero]
    · rw [dinodes j inside]
      rfl
  · rw [dinodes j inside]
    rfl
  · rw [dinodes j inside]
    exact tail_none _ (fun _ => rfl) _

end Steps

end Xv6.MkfsSpec
