import Xv6.Codec
import Xv6.Fs
import Xv6.Ownership

/-! What the home blocks mean. `eff i` is the dinode in force for inode `i`: the
one on disk, or the in-memory copy while it is ahead of the disk. `Blocks` is
the invariant of the block layer: every block of an inode is a marked data block
with one owner, no inode has a hole below its size and a free inode has no block.
Each way the file system
changes blocks is one lemma here; the programs come later. -/
namespace Xv6.Disk
open BitField RedoLog Layout Codec Fs Ownership

def InData (sb : Superblock) (b : Nat) : Prop := dataStart sb ≤ b ∧ b < logStart sb

/-- What mkfs guarantees about the layout. -/
structure Geometry (sb : Superblock) : Prop where
  root : 1 < sb.ninodes
  inums : sb.ninodes ≤ 2 ^ 16
  wide : sb.size < 2 ^ 32
  log : 0 < sb.nlog
  area : dataStart sb ≤ logStart sb

def dinodeAt (h : Nat → Block) (i : Nat) : Dinode := getDinode (h (iblock i)) (i % ipb)

/-- Entries 0 to 12 are `addrs`; entry `13 + j` is `a[j]` of the indirect block. -/
def entry (h : Nat → Block) (d : Dinode) (e : Nat) : Nat :=
  if e ≤ 12 then d.addrs e
  else if d.addrs 12 = 0 then 0
  else getUint (h (d.addrs 12)) (e - 13)

/-- The entry that holds block `k` of the file. -/
def fileEntry (k : Nat) : Nat := if k < 12 then k else k + 1

def blockOf (h : Nat → Block) (d : Dinode) (k : Nat) : Nat := entry h d (fileEntry k)

def own (sb : Superblock) (h : Nat → Block) (eff : Nat → Dinode) (slot : Nat × Nat) : Nat :=
  if slot.1 < sb.ninodes ∧ slot.2 < 141 then entry h (eff slot.1) slot.2 else 0

structure Blocks (sb : Superblock) (h : Nat → Block) (eff : Nat → Dinode) (spare : Set Nat) :
    Prop where
  super : getSuperblock (h 1) = sb
  ledger : Ledger (InData sb) (fun b => usedIn h sb b = true) (own sb h eff) spare
  low : ∀ b < dataStart sb, usedIn h sb b = true
  full : ∀ i < sb.ninodes, ∀ k, 512 * k < (eff i).size → blockOf h (eff i) k ≠ 0
  small : ∀ i < sb.ninodes, (eff i).size ≤ 71680
  fields : ∀ i < sb.ninodes, DinodeOk (eff i)
  clean : ∀ i < sb.ninodes, (eff i).type = 0 → ∀ k, (eff i).addrs k = 0

/-! Where blocks lie. -/

section Regions
variable {sb : Superblock}

theorem dataStart_eq (sb : Superblock) : dataStart sb = sb.ninodes / 8 + 3 + sb.size / 4096 + 1 := rfl

theorem logStart_le (geometry : Geometry sb) : logStart sb + sb.nlog = sb.size := by
  have area := geometry.area
  simp only [dataStart_eq, logStart] at *
  omega

theorem iblock_low (sb : Superblock) {i : Nat} (inside : i < sb.ninodes) :
    2 ≤ iblock i ∧ iblock i < sb.ninodes / 8 + 3 := by
  simp only [iblock, ipb]
  omega

theorem bblock_low (sb : Superblock) {b : Nat} (inside : b < sb.size) :
    sb.ninodes / 8 + 3 ≤ bblock b sb.ninodes ∧ bblock b sb.ninodes < dataStart sb := by
  simp only [bblock, bpb, ipb, dataStart_eq]
  have := Nat.div_le_div_right (c := 4096) (Nat.le_of_lt inside)
  omega

theorem inData_size (geometry : Geometry sb) {b : Nat} (data : InData sb b) : b < sb.size := by
  have := logStart_le geometry
  have := data.2
  omega

theorem low_size (geometry : Geometry sb) {b : Nat} (low : b < dataStart sb) : b < sb.size := by
  have := logStart_le geometry
  have := geometry.area
  omega

theorem low_notData {b : Nat} (low : b < dataStart sb) : ¬ InData sb b := fun data => by
  have := data.1
  omega

end Regions

/-! The bitmap. -/

section Bitmap
variable {sb : Superblock} {h : Nat → Block}

theorem usedIn_congr {h' : Nat → Block} {b : Nat}
    (same : h' (bblock b sb.ninodes) = h (bblock b sb.ninodes)) : usedIn h' sb b = usedIn h sb b := by
  rw [usedIn, same, usedIn]

theorem usedIn_markUsed (h : Nat → Block) (sb : Superblock) (b x : Nat) :
    usedIn (store h (bblock b sb.ninodes) (markUsed (h (bblock b sb.ninodes)) (b % bpb))) sb x =
      (decide (x = b) || usedIn h sb x) := by
  by_cases same : bblock x sb.ninodes = bblock b sb.ninodes
  · have index : x % 4096 = b % 4096 ↔ x = b := by
      simp only [bblock, bpb, ipb] at same
      omega
    rw [usedIn, usedIn, same, store_at]
    simp only [bpb]
    rw [bitSet_markUsed _ _ _ (Nat.mod_lt _ (by decide))]
    simp only [index]
  · have other : x ≠ b := fun equal => same (by rw [equal])
    rw [usedIn_congr (store_other _ _ same)]
    simp [other]

theorem usedIn_markFree (h : Nat → Block) (sb : Superblock) (b x : Nat) :
    usedIn (store h (bblock b sb.ninodes) (markFree (h (bblock b sb.ninodes)) (b % bpb))) sb x =
      (!decide (x = b) && usedIn h sb x) := by
  by_cases same : bblock x sb.ninodes = bblock b sb.ninodes
  · have index : x % 4096 = b % 4096 ↔ x = b := by
      simp only [bblock, bpb, ipb] at same
      omega
    rw [usedIn, usedIn, same, store_at]
    simp only [bpb]
    rw [bitSet_markFree _ _ _ (Nat.mod_lt _ (by decide))]
    simp only [index]
  · have other : x ≠ b := fun equal => same (by rw [equal])
    rw [usedIn_congr (store_other _ _ same)]
    simp [other]

end Bitmap

/-! Entries. -/

section Entries
variable {sb : Superblock} {h h' : Nat → Block} {eff eff' : Nat → Dinode} {spare : Set Nat}
  {d : Dinode} {i j : Nat}

theorem fileEntry_lt {k : Nat} (small : k < 140) : fileEntry k < 141 := by
  unfold fileEntry
  split <;> omega

theorem fileEntry_ne (k : Nat) : fileEntry k ≠ 12 := by
  unfold fileEntry
  split <;> omega

theorem fileEntry_inj {k l : Nat} (same : fileEntry k = fileEntry l) : k = l := by
  unfold fileEntry at same
  split at same <;> split at same <;> omega

theorem entry_congr {e : Nat} (same : d.addrs 12 ≠ 0 → h' (d.addrs 12) = h (d.addrs 12)) :
    entry h' d e = entry h d e := by
  unfold entry
  split
  · rfl
  · split
    · rfl
    · rename_i some
      rw [same some]

theorem own_eq (sb : Superblock) (h : Nat → Block) (eff : Nat → Dinode) {e : Nat} (inside : i < sb.ninodes) (small : e < 141) :
    own sb h eff (i, e) = entry h (eff i) e := by
  simp [own, inside, small]

theorem entry_data (blocks : Blocks sb h eff spare) {e : Nat} (inside : i < sb.ninodes)
    (small : e < 141) (some : entry h (eff i) e ≠ 0) :
    InData sb (entry h (eff i) e) ∧ usedIn h sb (entry h (eff i) e) = true := by
  rw [← own_eq sb h eff inside small] at some ⊢
  exact blocks.ledger.marked _ some

theorem entry_inj (blocks : Blocks sb h eff spare) {e f : Nat} (insideI : i < sb.ninodes)
    (insideJ : j < sb.ninodes) (smallE : e < 141) (smallF : f < 141)
    (some : entry h (eff i) e ≠ 0) (same : entry h (eff i) e = entry h (eff j) f) :
    i = j ∧ e = f := by
  rw [← own_eq sb h eff insideI smallE] at some same
  rw [← own_eq sb h eff insideJ smallF] at same
  exact Prod.mk.inj (blocks.ledger.injective _ _ some same)

theorem entry_addr {e : Nat} (direct : e ≤ 12) : entry h d e = d.addrs e := if_pos direct

theorem addr_data (blocks : Blocks sb h eff spare) {k : Nat} (inside : i < sb.ninodes)
    (direct : k ≤ 12) (some : (eff i).addrs k ≠ 0) :
    InData sb ((eff i).addrs k) ∧ usedIn h sb ((eff i).addrs k) = true := by
  have whole := entry_data blocks (e := k) inside (by omega) (by rwa [entry_addr direct])
  rwa [entry_addr direct] at whole

theorem indirect_inj (blocks : Blocks sb h eff spare) (insideI : i < sb.ninodes)
    (insideJ : j < sb.ninodes) (some : (eff i).addrs 12 ≠ 0)
    (same : (eff i).addrs 12 = (eff j).addrs 12) : i = j := by
  have here : ∀ l, entry h (eff l) 12 = (eff l).addrs 12 := fun _ => entry_addr (Nat.le_refl 12)
  rw [← here] at some
  rw [← here, ← here] at same
  exact (entry_inj blocks insideI insideJ (by omega) (by omega) some same).1

theorem spare_entry (blocks : Blocks sb h eff spare) {b e : Nat} (member : b ∈ spare)
    (inside : i < sb.ninodes) (small : e < 141) : entry h (eff i) e ≠ b := by
  rw [← own_eq sb h eff inside small]
  exact blocks.ledger.apart b member _

theorem blockOf_data (blocks : Blocks sb h eff spare) {k : Nat} (inside : i < sb.ninodes)
    (small : k < 140) (some : blockOf h (eff i) k ≠ 0) :
    InData sb (blockOf h (eff i) k) ∧ usedIn h sb (blockOf h (eff i) k) = true :=
  entry_data blocks inside (fileEntry_lt small) some

theorem index_small (blocks : Blocks sb h eff spare) {k : Nat} (inside : i < sb.ninodes)
    (below : 512 * k < (eff i).size) : k < 140 := by
  have := blocks.small i inside
  omega

end Entries

/-! Changing blocks. -/

section Changes
variable {sb : Superblock} {h : Nat → Block} {eff : Nat → Dinode} {spare : Set Nat} {i b : Nat}

/-- A block whose contents no entry, bitmap or superblock lookup reads. -/
structure Plain (sb : Superblock) (eff : Nat → Dinode) (y : Nat) : Prop where
  super : y ≠ 1
  bitmap : ∀ x < sb.size, bblock x sb.ninodes ≠ y
  indirect : ∀ i < sb.ninodes, (eff i).addrs 12 ≠ 0 → (eff i).addrs 12 ≠ y

theorem own_store {y : Nat} (plain : Plain sb eff y) (data : Block) :
    own sb (store h y data) eff = own sb h eff := by
  funext ⟨j, e⟩
  unfold own
  split
  · rename_i bounds
    exact entry_congr fun some => store_other _ _ (plain.indirect j bounds.1 some)
  · rfl

theorem blockOf_store {y k : Nat} (plain : Plain sb eff y) (data : Block) (inside : i < sb.ninodes) :
    blockOf (store h y data) (eff i) k = blockOf h (eff i) k :=
  entry_congr fun some => store_other _ _ (plain.indirect i inside some)

theorem blocks_store (geometry : Geometry sb) (blocks : Blocks sb h eff spare) {y : Nat}
    (plain : Plain sb eff y) (data : Block) : Blocks sb (store h y data) eff spare := by
  have used : ∀ x < sb.size, usedIn (store h y data) sb x = usedIn h sb x :=
    fun x inside => usedIn_congr (store_other _ _ (plain.bitmap x inside))
  refine ⟨?_, ?_, ?_, ?_, blocks.small, blocks.fields, blocks.clean⟩
  · rw [store_other _ _ plain.super.symm]
    exact blocks.super
  · refine ledger_congr blocks.ledger (fun x data => ?_) (own_store plain data)
    rw [used x (inData_size geometry data)]
  · intro x low
    rw [used x (low_size geometry low)]
    exact blocks.low x low
  · intro i inside k below
    rw [blockOf_store plain data inside]
    exact blocks.full i inside k below

theorem plain_iblock (blocks : Blocks sb h eff spare)
    (inside : i < sb.ninodes) : Plain sb eff (iblock i) := by
  have low := iblock_low _ inside
  refine ⟨by omega, ?_, ?_⟩
  · intro x small same
    have := bblock_low sb small
    omega
  · intro j bound some same
    have data := (addr_data blocks bound (Nat.le_refl 12) some).1.1
    rw [same, dataStart_eq] at data
    omega

theorem plain_data {y : Nat} (data : InData sb y)
    (indirect : ∀ i < sb.ninodes, (eff i).addrs 12 ≠ 0 → (eff i).addrs 12 ≠ y) :
    Plain sb eff y := by
  have low := data.1
  rw [dataStart_eq] at low
  refine ⟨by omega, ?_, indirect⟩
  rintro x small rfl
  exact low_notData (bblock_low sb small).2 data

theorem plain_blockOf (blocks : Blocks sb h eff spare) {k : Nat} (inside : i < sb.ninodes)
    (small : k < 140) (some : blockOf h (eff i) k ≠ 0) : Plain sb eff (blockOf h (eff i) k) := by
  refine plain_data (blockOf_data blocks inside small some).1 fun j bound _ same => ?_
  have clash := entry_inj blocks inside bound (fileEntry_lt small) (by omega : 12 < 141) some
    (by rw [entry_addr (Nat.le_refl 12)]; exact same.symm)
  exact fileEntry_ne k clash.2

theorem plain_spare (blocks : Blocks sb h eff spare) (member : b ∈ spare) : Plain sb eff b := by
  refine plain_data (blocks.ledger.pending b member).1 fun j bound _ same => ?_
  have apart := spare_entry blocks (e := 12) member bound (by omega)
  rw [entry_addr (Nat.le_refl 12)] at apart
  exact apart same

/-- What balloc does to the blocks. -/
def allocated (sb : Superblock) (h : Nat → Block) (b : Nat) : Nat → Block :=
  store (store h (bblock b sb.ninodes) (markUsed (h (bblock b sb.ninodes)) (b % bpb))) b 0

/-- What bfree does to the blocks. -/
def freed (sb : Superblock) (h : Nat → Block) (b : Nat) : Nat → Block :=
  store h (bblock b sb.ninodes) (markFree (h (bblock b sb.ninodes)) (b % bpb))

theorem own_bitmap (blocks : Blocks sb h eff spare) {x : Nat}
    (small : x < sb.size) (data : Block) :
    own sb (store h (bblock x sb.ninodes) data) eff = own sb h eff := by
  funext ⟨j, e⟩
  unfold own
  split
  · rename_i bounds
    refine entry_congr fun some => store_other _ _ fun same => ?_
    have inside := (addr_data blocks bounds.1 (Nat.le_refl 12) some).1
    rw [same] at inside
    exact low_notData (bblock_low _ small).2 inside
  · rfl

theorem blocks_bitmap (blocks : Blocks sb h eff spare) {x : Nat}
    {data : Block} {spare' : Set Nat} (small : x < sb.size)
    (ledger : Ledger (InData sb) (fun b => usedIn (store h (bblock x sb.ninodes) data) sb b = true)
      (own sb h eff) spare')
    (low : ∀ b < dataStart sb, usedIn (store h (bblock x sb.ninodes) data) sb b = true) :
    Blocks sb (store h (bblock x sb.ninodes) data) eff spare' := by
  have place := bblock_low sb small
  have table := own_bitmap blocks small data
  refine ⟨?_, by rw [table]; exact ledger, low, ?_, blocks.small, blocks.fields, blocks.clean⟩
  · rw [store_other _ _ (by omega)]
    exact blocks.super
  · intro j inside k below
    have entries := congrFun table (j, fileEntry k)
    have bound := fileEntry_lt (index_small blocks inside below)
    rw [own_eq _ _ _ inside bound, own_eq _ _ _ inside bound] at entries
    rw [blockOf, entries]
    exact blocks.full j inside k below

theorem blocks_alloc (geometry : Geometry sb) (blocks : Blocks sb h eff spare)
    (data : InData sb b) (free : usedIn h sb b = false) :
    Blocks sb (allocated sb h b) eff (insert b spare) := by
  have marked : Blocks sb
      (store h (bblock b sb.ninodes) (markUsed (h (bblock b sb.ninodes)) (b % bpb))) eff
      (insert b spare) := by
    apply blocks_bitmap blocks (inData_size geometry data)
    · have taken := ledger_take blocks.ledger data (by simp [free])
      refine ledger_congr taken (fun x _ => ?_) rfl
      simp [usedIn_markUsed]
    · intro x low
      rw [usedIn_markUsed, blocks.low x low, Bool.or_true]
  exact blocks_store geometry marked (plain_spare marked (Set.mem_insert b spare)) 0

theorem blocks_free (geometry : Geometry sb) (blocks : Blocks sb h eff spare) (member : b ∈ spare) :
    Blocks sb (freed sb h b) eff (spare \ {b}) := by
  have data := (blocks.ledger.pending b member).1
  apply blocks_bitmap blocks (inData_size geometry data)
  · refine ledger_congr (ledger_give blocks.ledger member) (fun x _ => ?_) rfl
    simp [usedIn_markFree]
  · intro x low
    have other : x ≠ b := fun same => low_notData low (same ▸ data)
    rw [usedIn_markFree, blocks.low x low]
    simp [other]

/-- Dinodes other than that of `i` are unchanged. -/
def setEff (eff : Nat → Dinode) (i : Nat) (d : Dinode) : Nat → Dinode :=
  fun j => if j = i then d else eff j

@[simp] theorem setEff_at (eff : Nat → Dinode) (i : Nat) (d : Dinode) : setEff eff i d i = d := by
  simp [setEff]

theorem setEff_other (eff : Nat → Dinode) {i j : Nat} (d : Dinode) (other : j ≠ i) :
    setEff eff i d j = eff j := by simp [setEff, other]

theorem entry_setAddr {d : Dinode} {k e : Nat} (direct : k ≤ 12)
    (blank : k = 12 → d.addrs 12 = 0 ∧ h b = 0#4096) :
    entry h (setAddr d k b) e = if e = k then b else entry h d e := by
  unfold entry
  by_cases low : e ≤ 12
  · simp [low, setAddr]
  · have other : e ≠ k := by omega
    rw [if_neg low, if_neg low, if_neg other]
    by_cases last : k = 12
    · -- A new indirect block is zero, so its entries are what they were without it.
      obtain ⟨none, zero⟩ := blank last
      subst last
      simp only [setAddr, none, ↓reduceIte, zero, getUint_zero, ite_self]
    · have same : (setAddr d k b).addrs 12 = d.addrs 12 := by
        simp [setAddr, show (12 : Nat) ≠ k by omega]
      rw [same]

theorem blocks_setAddr (geometry : Geometry sb) (blocks : Blocks sb h eff spare) {k : Nat}
    (inside : i < sb.ninodes) (live : (eff i).type ≠ 0) (direct : k ≤ 12)
    (empty : (eff i).addrs k = 0) (member : b ∈ spare) (zero : h b = 0#4096) :
    Blocks sb h (setEff eff i (setAddr (eff i) k b)) (spare \ {b}) := by
  have data := (blocks.ledger.pending b member).1
  have now : ∀ e, entry h (setAddr (eff i) k b) e = if e = k then b else entry h (eff i) e :=
    fun e => entry_setAddr direct fun last => ⟨last ▸ empty, zero⟩
  refine ⟨blocks.super, ?_, blocks.low, ?_, ?_, ?_, ?_⟩
  · apply ledger_attach blocks.ledger (s := (i, k)) member
    · rw [own_eq _ _ _ inside (by omega), entry_addr direct, empty]
    · rw [own_eq _ _ _ inside (by omega), setEff_at, now, if_pos rfl]
    · rintro ⟨j, e⟩ other
      unfold own
      split
      · by_cases here : j = i
        · subst here
          have off : e ≠ k := fun same => other (by rw [same])
          rw [setEff_at, now, if_neg off]
        · rw [setEff_other _ _ here]
      · rfl
  · intro j bound l below
    by_cases here : j = i
    · subst here
      rw [setEff_at] at below ⊢
      rw [blockOf, now]
      split
      · exact blocks.ledger.nonzero b data
      · exact blocks.full j bound l below
    · rw [setEff_other _ _ here] at below ⊢
      exact blocks.full j bound l below
  · intro j bound
    by_cases here : j = i
    · subst here
      rw [setEff_at]
      exact blocks.small j bound
    · rw [setEff_other _ _ here]
      exact blocks.small j bound
  · intro j bound
    by_cases here : j = i
    · subst here
      rw [setEff_at]
      have wide := geometry.wide
      have := inData_size geometry data
      exact setAddr_ok (blocks.fields j bound) (by omega) (by omega)
    · rw [setEff_other _ _ here]
      exact blocks.fields j bound
  · intro j bound
    by_cases here : j = i
    · subst here
      rw [setEff_at]
      exact fun free => absurd free live
    · rw [setEff_other _ _ here]
      exact blocks.clean j bound

theorem entry_putUint {d : Dinode} {j e : Nat} (some : d.addrs 12 ≠ 0) (small : j < 128)
    (fits : b < 2 ^ 32) :
    entry (store h (d.addrs 12) (putUint (h (d.addrs 12)) j b)) d e =
      if e = 13 + j then b else entry h d e := by
  unfold entry
  by_cases low : e ≤ 12
  · simp [low, show e ≠ 13 + j by omega]
  · rw [if_neg low, if_neg low, if_neg some, if_neg some, store_at]
    by_cases here : e = 13 + j
    · rw [if_pos here, here, Nat.add_sub_cancel_left, getUint_putUint_same _ small fits]
    · rw [if_neg here, getUint_putUint_other _ _ (by omega)]

theorem blocks_putUint (geometry : Geometry sb) (blocks : Blocks sb h eff spare) {j : Nat}
    (inside : i < sb.ninodes) (some : (eff i).addrs 12 ≠ 0) (small : j < 128)
    (empty : getUint (h ((eff i).addrs 12)) j = 0) (member : b ∈ spare) :
    Blocks sb (store h ((eff i).addrs 12) (putUint (h ((eff i).addrs 12)) j b)) eff
      (spare \ {b}) := by
  have data := (blocks.ledger.pending b member).1
  have home := (addr_data blocks inside (Nat.le_refl 12) some).1
  have wide := geometry.wide
  have fits : b < 2 ^ 32 := by
    have := inData_size geometry data
    omega
  have used : ∀ x < sb.size, usedIn (store h ((eff i).addrs 12)
      (putUint (h ((eff i).addrs 12)) j b)) sb x = usedIn h sb x := by
    intro x inside
    refine usedIn_congr (store_other _ _ fun same => ?_)
    rw [← same] at home
    exact low_notData (bblock_low _ inside).2 home
  have mine : ∀ e, entry (store h ((eff i).addrs 12) (putUint (h ((eff i).addrs 12)) j b)) (eff i) e =
      if e = 13 + j then b else entry h (eff i) e := fun e => entry_putUint some small fits
  have others : ∀ l < sb.ninodes, l ≠ i → ∀ e,
      entry (store h ((eff i).addrs 12) (putUint (h ((eff i).addrs 12)) j b)) (eff l) e =
        entry h (eff l) e := by
    intro l bound other e
    refine entry_congr fun there => store_other _ _ fun same => other ?_
    exact indirect_inj blocks bound inside there same
  refine ⟨?_, ?_, ?_, ?_, blocks.small, blocks.fields, blocks.clean⟩
  · have low := home.1
    rw [dataStart_eq] at low
    rw [store_other _ _ (by omega)]
    exact blocks.super
  · have attached : Ledger (InData sb) (fun b => usedIn h sb b = true)
        (own sb (store h ((eff i).addrs 12) (putUint (h ((eff i).addrs 12)) j b)) eff)
        (spare \ {b}) := by
      apply ledger_attach blocks.ledger (s := (i, 13 + j)) member
      · rw [own_eq _ _ _ inside (by omega), entry, if_neg (by omega), if_neg some,
          Nat.add_sub_cancel_left, empty]
      · rw [own_eq _ _ _ inside (by omega), mine, if_pos rfl]
      · rintro ⟨l, e⟩ other
        unfold own
        split
        · rename_i bounds
          by_cases here : l = i
          · subst here
            have off : e ≠ 13 + j := fun same => other (by rw [same])
            rw [mine, if_neg off]
          · exact others l bounds.1 here e
        · rfl
    refine ledger_congr attached (fun x area => ?_) rfl
    rw [used x (inData_size geometry area)]
  · intro x low
    rw [used x (low_size geometry low)]
    exact blocks.low x low
  · intro l bound k below
    by_cases here : l = i
    · subst here
      rw [blockOf, mine]
      split
      · exact blocks.ledger.nonzero b data
      · exact blocks.full l bound k below
    · rw [blockOf, others l bound here]
      exact blocks.full l bound k below

theorem blocks_setFields (blocks : Blocks sb h eff spare) {d : Dinode}
    (same : d.addrs = (eff i).addrs) (ok : DinodeOk d) (small : d.size ≤ 71680)
    (clean : d.type = 0 → ∀ k, d.addrs k = 0)
    (full : ∀ k, 512 * k < d.size → blockOf h d k ≠ 0) :
    Blocks sb h (setEff eff i d) spare := by
  have entries : ∀ j e, entry h (setEff eff i d j) e = entry h (eff j) e := by
    intro j e
    by_cases here : j = i
    · subst here
      rw [setEff_at, entry, entry, same]
    · rw [setEff_other _ _ here]
  refine ⟨blocks.super, ?_, blocks.low, ?_, ?_, ?_, ?_⟩
  · refine ledger_congr blocks.ledger (fun _ _ => Iff.rfl) ?_
    funext ⟨j, e⟩
    unfold own
    rw [entries]
  · intro j bound k below
    by_cases here : j = i
    · subst here
      rw [setEff_at] at below ⊢
      exact full k below
    · rw [setEff_other _ _ here] at below ⊢
      exact blocks.full j bound k below
  · intro j bound
    by_cases here : j = i
    · rw [here, setEff_at]
      exact small
    · rw [setEff_other _ _ here]
      exact blocks.small j bound
  · intro j bound
    by_cases here : j = i
    · rw [here, setEff_at]
      exact ok
    · rw [setEff_other _ _ here]
      exact blocks.fields j bound
  · intro j bound
    by_cases here : j = i
    · rw [here, setEff_at]
      exact clean
    · rw [setEff_other _ _ here]
      exact blocks.clean j bound

/-- The blocks named by the listed entries. -/
def blocksAt (value : Nat → Nat) (entries : List Nat) : Set Nat :=
  {b | b ≠ 0 ∧ ∃ e ∈ entries, value e = b}

theorem blocks_drop (blocks : Blocks sb h eff spare) {d : Dinode} (inside : i < sb.ninodes)
    (none : ∀ k, d.addrs k = 0) (ok : DinodeOk d) (empty : d.size = 0) :
    Blocks sb h (setEff eff i d)
      (spare ∪ blocksAt (entry h (eff i)) (List.range 141)) := by
  have gone : ∀ e, entry h d e = 0 := by
    intro e
    simp [entry, none]
  refine ⟨blocks.super, ?_, blocks.low, ?_, ?_, ?_, ?_⟩
  · have detached := ledger_detach (own sb h (setEff eff i d)) {slot | slot.1 = i}
      blocks.ledger ?_ ?_
    · have same : {b | b ≠ 0 ∧ ∃ s ∈ {slot : Nat × Nat | slot.1 = i}, own sb h eff s = b} =
          blocksAt (entry h (eff i)) (List.range 141) := by
        ext b
        constructor
        · rintro ⟨some, ⟨j, e⟩, rfl, owner⟩
          refine ⟨some, e, ?_, ?_⟩
          · by_contra outside
            rw [List.mem_range] at outside
            simp only [own, outside, and_false, ↓reduceIte] at owner
            exact some owner.symm
          · by_cases small : e < 141
            · rwa [own_eq _ _ _ inside small] at owner
            · simp only [own, small, and_false, ↓reduceIte] at owner
              exact absurd owner.symm some
        · rintro ⟨some, e, member, value⟩
          exact ⟨some, (i, e), rfl, by rw [own_eq _ _ _ inside (List.mem_range.mp member)]; exact value⟩
      rwa [same] at detached
    · rintro ⟨j, e⟩ rfl
      unfold own
      split
      · rw [setEff_at, gone]
      · rfl
    · rintro ⟨j, e⟩ other
      unfold own
      rw [setEff_other _ _ other]
  · intro j bound k below
    by_cases here : j = i
    · subst here
      rw [setEff_at, empty] at below
      omega
    · rw [setEff_other _ _ here] at below ⊢
      exact blocks.full j bound k below
  · intro j bound
    by_cases here : j = i
    · rw [here, setEff_at, empty]
      omega
    · rw [setEff_other _ _ here]
      exact blocks.small j bound
  · intro j bound
    by_cases here : j = i
    · rw [here, setEff_at]
      exact ok
    · rw [setEff_other _ _ here]
      exact blocks.fields j bound
  · intro j bound
    by_cases here : j = i
    · rw [here, setEff_at]
      exact fun _ => none
    · rw [setEff_other _ _ here]
      exact blocks.clean j bound

end Changes

/-! Inodes as byte arrays. -/

/-- What a user sees of an inode: its fields and the bytes below its size. -/
structure Node where
  type : Nat
  major : Nat
  minor : Nat
  nlink : Nat
  size : Nat
  byte : Nat → UInt8

/-- Byte `p` of the blocks of an inode, below its size or not. -/
def rawByte (h : Nat → Block) (d : Dinode) (p : Nat) : UInt8 :=
  byteAt (h (blockOf h d (p / 512))) (p % 512)

def nodeOf (h : Nat → Block) (d : Dinode) : Node :=
  { type := d.type
    major := d.major
    minor := d.minor
    nlink := d.nlink
    size := d.size
    byte := fun p => if p < d.size then rawByte h d p else 0 }

/-- Old contents overlaid with `data` at `off`. -/
def Node.write (node : Node) (off : Nat) (data : List UInt8) : Node :=
  { node with
    size := max node.size (off + data.length)
    byte := fun p => if off ≤ p ∧ p < off + data.length then data.getD (p - off) 0 else node.byte p }

/-- The `n` bytes from `off` on. -/
def readBytes (node : Node) (off n : Nat) : List UInt8 :=
  (List.range n).map fun p => node.byte (off + p)

/-- An inode as ialloc leaves it. -/
def newNode (type : Nat) : Node := ⟨type, 0, 0, 0, 0, fun _ => 0⟩

/-- What is left of an inode when its last reference is gone. -/
def freedNode (node : Node) : Node := { node with type := 0, size := 0, byte := fun _ => 0 }

/-- What a call may do to the inodes: the directories to which it may add an entry and the
inodes from which it may take a link. -/
structure Permit where
  adds : Nat → Prop
  removes : Nat → Prop

def setNode (nodes : Nat → Node) (i : Nat) (node : Node) : Nat → Node :=
  fun j => if j = i then node else nodes j

@[simp] theorem setNode_at (nodes : Nat → Node) (i : Nat) (node : Node) :
    setNode nodes i node i = node := if_pos rfl

theorem setNode_other (nodes : Nat → Node) {i j : Nat} (node : Node) (other : j ≠ i) :
    setNode nodes i node j = nodes j := if_neg other

section Nodes
variable {sb : Superblock} {h h' : Nat → Block} {eff : Nat → Dinode} {spare : Set Nat}
  {i j b : Nat}

theorem node_ext {a b : Node} (type : a.type = b.type) (major : a.major = b.major)
    (minor : a.minor = b.minor) (nlink : a.nlink = b.nlink) (size : a.size = b.size)
    (byte : ∀ p, a.byte p = b.byte p) : a = b := by
  cases a
  cases b
  simp only [Node.mk.injEq]
  exact ⟨type, major, minor, nlink, size, funext byte⟩

theorem nodeOf_congr {d d' : Dinode} (fields : d' = { d with addrs := d'.addrs })
    (raw : ∀ p < d.size, rawByte h' d' p = rawByte h d p) : nodeOf h' d' = nodeOf h d := by
  have type : d'.type = d.type := by rw [fields]
  have major : d'.major = d.major := by rw [fields]
  have minor : d'.minor = d.minor := by rw [fields]
  have nlink : d'.nlink = d.nlink := by rw [fields]
  have size : d'.size = d.size := by rw [fields]
  refine node_ext type major minor nlink size fun p => ?_
  simp only [nodeOf, size]
  split
  · rename_i below
    exact raw p below
  · rfl

theorem nodeOf_store (blocks : Blocks sb h eff spare) {y : Nat} (data : Block)
    (inside : j < sb.ninodes) (away : ∀ e < 141, entry h (eff j) e ≠ 0 → entry h (eff j) e ≠ y) :
    nodeOf (store h y data) (eff j) = nodeOf h (eff j) := by
  refine nodeOf_congr rfl fun p below => ?_
  have small : p / 512 < 140 := index_small blocks inside (by omega)
  have some := blocks.full j inside (p / 512) (by omega)
  have same : blockOf (store h y data) (eff j) (p / 512) = blockOf h (eff j) (p / 512) := by
    refine entry_congr fun there => store_other _ _ ?_
    have table : entry h (eff j) 12 = (eff j).addrs 12 := entry_addr (Nat.le_refl 12)
    rw [← table] at there ⊢
    exact away 12 (by omega) there
  have off : blockOf h (eff j) (p / 512) ≠ y := away _ (fileEntry_lt small) some
  rw [rawByte, rawByte, same, store_other _ _ off]

theorem nodeOf_store_low (blocks : Blocks sb h eff spare) {y : Nat} (data : Block)
    (inside : j < sb.ninodes) (low : y < dataStart sb) :
    nodeOf (store h y data) (eff j) = nodeOf h (eff j) := by
  refine nodeOf_store blocks data inside fun e small some same => ?_
  exact low_notData low (same ▸ (entry_data blocks inside small some).1)

theorem nodeOf_store_foreign (blocks : Blocks sb h eff spare) {e : Nat} (data : Block)
    (insideI : i < sb.ninodes) (insideJ : j < sb.ninodes) (other : j ≠ i) (small : e < 141) :
    nodeOf (store h (entry h (eff i) e) data) (eff j) = nodeOf h (eff j) := by
  refine nodeOf_store blocks data insideJ fun f bound there same => other ?_
  exact (entry_inj blocks insideJ insideI bound small there same).1

theorem dinodeAt_store {y : Nat} (data : Block) (away : iblock i ≠ y) :
    dinodeAt (store h y data) i = dinodeAt h i := by
  rw [dinodeAt, store_other _ _ away, dinodeAt]

theorem dinodeAt_data {y : Nat} (data : Block) (inside : i < sb.ninodes) (high : InData sb y) :
    dinodeAt (store h y data) i = dinodeAt h i := by
  apply dinodeAt_store
  have low := iblock_low _ inside
  have := high.1
  rw [dataStart_eq] at this
  omega

theorem dinodeAt_bitmap {x : Nat} (data : Block) (inside : i < sb.ninodes) (small : x < sb.size) :
    dinodeAt (store h (bblock x sb.ninodes) data) i = dinodeAt h i := by
  apply dinodeAt_store
  have low := iblock_low _ inside
  have := bblock_low sb small
  omega

theorem dinodeAt_putDinode (h : Nat → Block) {d : Dinode} (ok : DinodeOk d) :
    dinodeAt (store h (iblock i) (putDinode (h (iblock i)) (i % ipb) d)) j =
      if j = i then d else dinodeAt h j := by
  have bound : i % 8 < 8 := Nat.mod_lt _ (by decide)
  by_cases here : j = i
  · subst here
    rw [if_pos rfl, dinodeAt, store_at]
    exact getDinode_putDinode_same _ bound ok
  · rw [if_neg here, dinodeAt]
    by_cases shared : iblock j = iblock i
    · have apart : j % ipb ≠ i % ipb := by
        simp only [iblock, ipb] at shared ⊢
        omega
      rw [shared, store_at, getDinode_putDinode_other _ _ apart, ← shared]
      rfl
    · rw [store_other _ _ shared]
      rfl

end Nodes

/-! Growing an inode: it may get new blocks, and nothing else changes. -/

structure Grows (sb : Superblock) (i : Nat) (h h' : Nat → Block) (eff eff' : Nat → Dinode) : Prop where
  fields : eff' i = { eff i with addrs := (eff' i).addrs }
  others : ∀ j, j ≠ i → eff' j = eff j
  kept : ∀ k < 140, blockOf h (eff i) k ≠ 0 →
    blockOf h' (eff' i) k = blockOf h (eff i) k ∧
      h' (blockOf h (eff i) k) = h (blockOf h (eff i) k)
  nodes : ∀ j < sb.ninodes, j ≠ i → nodeOf h' (eff' j) = nodeOf h (eff j)
  dinodes : ∀ j < sb.ninodes, dinodeAt h' j = dinodeAt h j

section Growth
variable {sb : Superblock} {h h' h'' : Nat → Block} {eff eff' eff'' : Nat → Dinode}
  {spare : Set Nat} {i b : Nat}

theorem grows_refl (sb : Superblock) (i : Nat) (h : Nat → Block) (eff : Nat → Dinode) :
    Grows sb i h h eff eff :=
  ⟨rfl, fun _ _ => rfl, fun _ _ _ => ⟨rfl, rfl⟩, fun _ _ _ => rfl, fun _ _ => rfl⟩

theorem grows_trans (first : Grows sb i h h' eff eff') (second : Grows sb i h' h'' eff' eff'') :
    Grows sb i h h'' eff eff'' := by
  refine ⟨?_, ?_, ?_, ?_, ?_⟩
  · rw [second.fields, first.fields]
  · intro j other
    rw [second.others j other, first.others j other]
  · intro k small some
    obtain ⟨same, data⟩ := first.kept k small some
    obtain ⟨same', data'⟩ := second.kept k small (by rwa [same])
    rw [same] at same' data'
    exact ⟨same', data'.trans data⟩
  · intro j inside other
    rw [second.nodes j inside other, first.nodes j inside other]
  · intro j inside
    rw [second.dinodes j inside, first.dinodes j inside]

theorem grows_raw (grows : Grows sb i h h' eff eff') {p : Nat} (small : p / 512 < 140)
    (some : blockOf h (eff i) (p / 512) ≠ 0) : rawByte h' (eff' i) p = rawByte h (eff i) p := by
  obtain ⟨same, data⟩ := grows.kept (p / 512) small some
  rw [rawByte, rawByte, same, data]

theorem entry_ne_free (blocks : Blocks sb h eff spare) {j e : Nat} (free : usedIn h sb b = false)
    (inside : j < sb.ninodes) (small : e < 141) (some : entry h (eff j) e ≠ 0) :
    entry h (eff j) e ≠ b := by
  rintro rfl
  have used := (entry_data blocks inside small some).2
  rw [free] at used
  exact Bool.false_ne_true used

theorem allocated_other (geometry : Geometry sb) (h : Nat → Block) {x : Nat} (data : InData sb b)
    (area : InData sb x) (off : x ≠ b) : allocated sb h b x = h x := by
  have low := bblock_low sb (inData_size geometry data)
  have away : x ≠ bblock b sb.ninodes := fun same => low_notData low.2 (same ▸ area)
  rw [allocated, store_other _ _ off, store_other _ _ away]

theorem entry_allocated (geometry : Geometry sb) (blocks : Blocks sb h eff spare) (data : InData sb b)
    (free : usedIn h sb b = false) {j e : Nat} (bound : j < sb.ninodes) :
    entry (allocated sb h b) (eff j) e = entry h (eff j) e := by
  refine entry_congr fun there => ?_
  have table : entry h (eff j) 12 = (eff j).addrs 12 := entry_addr (Nat.le_refl 12)
  rw [← table] at there ⊢
  exact allocated_other geometry h data (entry_data blocks bound (by omega) there).1
    (entry_ne_free blocks free bound (by omega) there)

theorem grows_alloc (geometry : Geometry sb) (blocks : Blocks sb h eff spare) (data : InData sb b)
    (free : usedIn h sb b = false) (inside : i < sb.ninodes) :
    Grows sb i h (allocated sb h b) eff eff := by
  have size := inData_size geometry data
  have keeps : ∀ x, InData sb x → x ≠ b → allocated sb h b x = h x :=
    fun x => allocated_other geometry h data
  have entries : ∀ j < sb.ninodes, ∀ e, entry (allocated sb h b) (eff j) e = entry h (eff j) e :=
    fun j bound e => entry_allocated geometry blocks data free bound
  refine ⟨rfl, fun _ _ => rfl, ?_, ?_, ?_⟩
  · intro k small some
    refine ⟨entries i inside _, keeps _ (blockOf_data blocks inside small some).1 ?_⟩
    exact entry_ne_free blocks free inside (fileEntry_lt small) some
  · intro j bound _
    refine nodeOf_congr rfl fun p below => ?_
    have small : p / 512 < 140 := index_small blocks bound (by omega)
    have some := blocks.full j bound (p / 512) (by omega)
    have same : blockOf (allocated sb h b) (eff j) (p / 512) = blockOf h (eff j) (p / 512) :=
      entries j bound _
    have off : blockOf h (eff j) (p / 512) ≠ b :=
      entry_ne_free blocks free bound (fileEntry_lt small) some
    rw [rawByte, rawByte, same, keeps _ (blockOf_data blocks bound small some).1 off]
  · intro j bound
    rw [allocated, dinodeAt_data _ bound data, dinodeAt_bitmap _ bound size]

theorem grows_setAddr (sb : Superblock) {k : Nat} (direct : k ≤ 12) (empty : (eff i).addrs k = 0)
    (zero : h b = 0#4096) : Grows sb i h h eff (setEff eff i (setAddr (eff i) k b)) := by
  refine ⟨by rw [setEff_at]; rfl, fun j other => setEff_other _ _ other, ?_, ?_, fun _ _ => rfl⟩
  · intro l small some
    refine ⟨?_, rfl⟩
    have now := entry_setAddr (h := h) (b := b) (d := eff i) (k := k) (e := fileEntry l) direct
      fun last => ⟨last ▸ empty, zero⟩
    rw [setEff_at, blockOf, now, if_neg, blockOf]
    intro same
    rw [blockOf, same, entry_addr direct] at some
    exact some empty
  · intro j _ other
    rw [setEff_other _ _ other]

theorem grows_putUint (blocks : Blocks sb h eff spare) {j : Nat}
    (inside : i < sb.ninodes) (some : (eff i).addrs 12 ≠ 0)
    (empty : getUint (h ((eff i).addrs 12)) j = 0) :
    Grows sb i h (store h ((eff i).addrs 12) (putUint (h ((eff i).addrs 12)) j b)) eff eff := by
  have table : ∀ l, entry h (eff l) 12 = (eff l).addrs 12 := fun _ => entry_addr (Nat.le_refl 12)
  refine ⟨rfl, fun _ _ => rfl, ?_, ?_, ?_⟩
  · intro k bound held
    constructor
    · unfold blockOf entry at held ⊢
      split
      · rfl
      · rename_i high
        rw [if_neg high, if_neg some] at held
        have off : fileEntry k - 13 ≠ j := fun same => held (same ▸ empty)
        rw [store_at, getUint_putUint_other _ _ off]
    · refine store_other _ _ fun same => ?_
      rw [← table] at same
      exact fileEntry_ne k (entry_inj blocks inside inside (fileEntry_lt bound) (by omega) held same).2
  · intro l bound other
    rw [← table]
    exact nodeOf_store_foreign blocks _ inside bound other (by omega)
  · intro l bound
    exact dinodeAt_data _ bound (addr_data blocks inside (Nat.le_refl 12) some).1

end Growth

end Xv6.Disk
