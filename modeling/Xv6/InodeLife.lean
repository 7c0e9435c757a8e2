import Xv6.ContentSpec

/-! The life of an inode: itrunc, the freeing half of iput, and ialloc. While
itrunc runs, the inode has already let go of all its blocks in the abstract
state and they are spare; the loops give them back one by one. -/
namespace Xv6.InodeLife
open TraceMonad BitField RedoLog Layout Codec Bio Fs Disk DevSpec InodeSpec ContentSpec

/-- Only bitmap blocks differ. -/
def BitmapOnly (sb : Superblock) (h h' : Nat → Block) : Prop :=
  ∀ x, (∀ b < sb.size, bblock b sb.ninodes ≠ x) → h' x = h x

section BitmapOnly
variable {sb : Superblock} {h h' h'' : Nat → Block} {eff : Nat → Dinode} {spare : Set Nat} {i x : Nat}

theorem bitmapOnly_refl (sb : Superblock) (h : Nat → Block) : BitmapOnly sb h h := fun _ _ => rfl

theorem bitmapOnly_trans (first : BitmapOnly sb h h') (second : BitmapOnly sb h' h'') :
    BitmapOnly sb h h'' := fun x away => (second x away).trans (first x away)

theorem bitmapOnly_data (only : BitmapOnly sb h h') (data : InData sb x) : h' x = h x :=
  only x fun _ bound same => low_notData (bblock_low _ bound).2 (same ▸ data)

theorem bitmapOnly_dinode (only : BitmapOnly sb h h') (inside : i < sb.ninodes) :
    dinodeAt h' i = dinodeAt h i := by
  have low := iblock_low _ inside
  rw [dinodeAt, only, dinodeAt]
  intro b bound same
  have := bblock_low sb bound
  omega

theorem bitmapOnly_node (blocks : Blocks sb h eff spare) (only : BitmapOnly sb h h')
    (inside : i < sb.ninodes) : nodeOf h' (eff i) = nodeOf h (eff i) := by
  refine nodeOf_congr rfl fun p below => ?_
  have same : blockOf h' (eff i) (p / 512) = blockOf h (eff i) (p / 512) := entry_congr fun some =>
    bitmapOnly_data only (addr_data blocks inside (Nat.le_refl 12) some).1
  have data := (blockOf_data blocks inside (index_small blocks inside (by omega))
    (blocks.full i inside (p / 512) (by omega))).1
  rw [rawByte, same, bitmapOnly_data only data, rawByte]

end BitmapOnly

/-! Giving blocks back. -/

section Release
variable {t : Setting} {F : Set Nat} {H : Finset Nat} {h : Nat → Block} {eff : Nat → Dinode}
  {spare rest : Set Nat} {trans : Bool} {ip : Nat}

theorem release_spec {s : Dev} {b : Nat} (writes : Writes t) (holds : Holds t F h trans H s)
    (blocks : Blocks t.sb h eff spare) (room : Room t F 0) (few : H.card ≤ 1)
    (held : ∀ x ∈ H, x ∈ spare) (bitmaps : Bitmaps t F) (writable : Writable t trans)
    (member : b ∈ spare) :
    Ensures t.contract (bfree b) s (fun _ s' => ∃ h', Holds t F h' trans H s' ∧
      Blocks t.sb h' eff (spare \ {b}) ∧ BitmapOnly t.sb h h') := by
  obtain ⟨data, used⟩ := blocks.ledger.pending b member
  refine ensures_weaken (bfree_spec writes holds room few
    (fun x isHeld => blocks.ledger.pending x (held x isHeld)) bitmaps writable blocks.super data used) ?_
  intro _ s' holds'
  refine ⟨_, holds', blocks_free t.geometry blocks member, fun x away => ?_⟩
  exact store_other _ _ (away b (inData_size t.geometry data)).symm

theorem blocksAt_cons {value : Nat → Nat} {e : Nat} {es : List Nat} (some : value e ≠ 0)
    (distinct : ∀ f ∈ es, value e ≠ value f) (apart : value e ∉ rest) :
    (blocksAt value (e :: es) ∪ rest) \ {value e} = blocksAt value es ∪ rest := by
  ext b
  constructor
  · rintro ⟨⟨present, f, member, rfl⟩ | old, other⟩
    · rcases List.mem_cons.mp member with rfl | inside
      · exact absurd rfl other
      · exact Or.inl ⟨present, f, inside, rfl⟩
    · exact Or.inr old
  · rintro (⟨present, f, member, rfl⟩ | old)
    · exact ⟨Or.inl ⟨present, f, List.mem_cons_of_mem e member, rfl⟩, (distinct f member).symm⟩
    · exact ⟨Or.inr old, fun same => apart (same ▸ old)⟩

theorem blocksAt_zero {value : Nat → Nat} {e : Nat} {es : List Nat} (none : value e = 0) :
    blocksAt value (e :: es) = blocksAt value es := by
  ext b
  constructor
  · rintro ⟨present, f, member, rfl⟩
    rcases List.mem_cons.mp member with rfl | inside
    · exact absurd none present
    · exact ⟨present, f, inside, rfl⟩
  · rintro ⟨present, f, member, rfl⟩
    exact ⟨present, f, List.mem_cons_of_mem e member, rfl⟩

theorem blocksAt_congr {value value' : Nat → Nat} {es : List Nat}
    (same : ∀ e ∈ es, value' e = value e) : blocksAt value' es = blocksAt value es := by
  ext b
  constructor
  · rintro ⟨present, e, member, rfl⟩
    exact ⟨present, e, member, (same e member).symm⟩
  · rintro ⟨present, e, member, rfl⟩
    exact ⟨present, e, member, same e member⟩

theorem blocksAt_nil (value : Nat → Nat) : blocksAt value [] ∪ rest = rest := by
  simp [blocksAt]

/-- The values of the listed entries are distinct where they are not zero. -/
def Distinct (value : Nat → Nat) (es : List Nat) : Prop :=
  es.Pairwise fun e f => value e ≠ 0 → value e ≠ value f

theorem freeIndirect_spec {s : State} {data : Block} {es : List Nat} (writes : Writes t)
    (holds : Holds t F h trans H s.dev) (blocks : Blocks t.sb h eff (blocksAt (getUint data) es ∪ rest))
    (room : Room t F 0) (few : H.card ≤ 1) (held : ∀ x ∈ H, x ∈ rest) (bitmaps : Bitmaps t F)
    (writable : Writable t trans) (distinct : Distinct (getUint data) es)
    (apart : ∀ e ∈ es, getUint data e ≠ 0 → getUint data e ∉ rest) :
    Ensures t.contract (freeIndirect data es) s (fun _ s' => ∃ h' dev, s' = { s with dev := dev } ∧
      Holds t F h' trans H dev ∧ Blocks t.sb h' eff rest ∧ BitmapOnly t.sb h h') := by
  induction es generalizing s h with
  | nil =>
    rw [blocksAt_nil] at blocks
    exact ensures_pure ⟨h, s.dev, rfl, holds, blocks, bitmapOnly_refl t.sb h⟩
  | cons e es ih =>
    obtain ⟨first, later⟩ := List.pairwise_cons.mp distinct
    have apart' := fun f member => apart f (List.mem_cons_of_mem e member)
    rw [freeIndirect]
    by_cases none : getUint data e = 0
    · rw [blocksAt_zero none] at blocks
      exact ensures_quiet_then (whenever_false (not_not.mpr none) s) (ih holds blocks later apart')
    · rw [whenever_true none]
      refine ensures_within_then (release_spec writes holds blocks room few
        (fun x member => Or.inr (held x member)) bitmaps writable
        (Or.inl ⟨none, e, List.mem_cons_self, rfl⟩)) ?_
      rintro _ dev₁ ⟨h₁, holds₁, blocks₁, only₁⟩
      rw [blocksAt_cons none (fun f member => first f member none)
        (apart e List.mem_cons_self none)] at blocks₁
      refine ensures_weaken (ih (s := { s with dev := dev₁ }) holds₁ blocks₁ later apart') ?_
      rintro _ s' ⟨h', dev, rfl, holds', blocks', only'⟩
      exact ⟨h', dev, rfl, holds', blocks', bitmapOnly_trans only₁ only'⟩

/-- The listed addresses are zero now. -/
def clearAddrs (d : Dinode) (es : List Nat) : Dinode :=
  { d with addrs := fun k => if k ∈ es then 0 else d.addrs k }

theorem clearAddrs_cons (d : Dinode) (e : Nat) (es : List Nat) :
    clearAddrs (setAddr d e 0) es = clearAddrs d (e :: es) := by
  refine dinode_ext rfl rfl rfl rfl rfl fun k => ?_
  simp only [clearAddrs, setAddr, List.mem_cons]
  by_cases here : k = e <;> by_cases member : k ∈ es <;> simp [here, member]

theorem clearAddrs_zero {d : Dinode} {e : Nat} (none : d.addrs e = 0) (es : List Nat) :
    clearAddrs d (e :: es) = clearAddrs d es := by
  refine dinode_ext rfl rfl rfl rfl rfl fun k => ?_
  simp only [clearAddrs, List.mem_cons]
  by_cases here : k = e <;> by_cases member : k ∈ es <;> simp [here, member, none]

theorem freeDirect_spec {s : State} {d : Dinode} {es : List Nat} (writes : Writes t)
    (now : (s.icache ip).din = d) (holds : Holds t F h trans ∅ s.dev)
    (blocks : Blocks t.sb h eff (blocksAt d.addrs es ∪ rest)) (room : Room t F 0)
    (bitmaps : Bitmaps t F) (writable : Writable t trans) (nodup : es.Nodup)
    (distinct : Distinct d.addrs es) (apart : ∀ e ∈ es, d.addrs e ≠ 0 → d.addrs e ∉ rest) :
    Ensures t.contract (freeDirect ip es) s (fun _ s' => ∃ h' dev,
      s' = withDin { s with dev := dev } ip (clearAddrs d es) ∧ Holds t F h' trans ∅ dev ∧
        Blocks t.sb h' eff rest ∧ BitmapOnly t.sb h h') := by
  induction es generalizing s h d with
  | nil =>
    rw [blocksAt_nil] at blocks
    refine ensures_pure ⟨h, s.dev, ?_, holds, blocks, bitmapOnly_refl t.sb h⟩
    have same : clearAddrs d [] = (s.icache ip).din := by
      rw [now]
      exact dinode_ext rfl rfl rfl rfl rfl fun k => by simp [clearAddrs]
    rw [same]
    exact (withDin_same s ip).symm
  | cons e es ih =>
    obtain ⟨first, later⟩ := List.pairwise_cons.mp distinct
    obtain ⟨fresh, nodup'⟩ := List.nodup_cons.mp nodup
    have apart' := fun f member => apart f (List.mem_cons_of_mem e member)
    rw [freeDirect]
    apply ensures_inspect_then
    rw [now]
    by_cases none : d.addrs e = 0
    · rw [blocksAt_zero none] at blocks
      refine ensures_quiet_then (whenever_false (not_not.mpr none) s) ?_
      rw [clearAddrs_zero none]
      exact ih now holds blocks nodup' later apart'
    · rw [whenever_true none, bind_assoc_action]
      refine ensures_within_then (release_spec writes holds blocks room (by simp)
        (fun x member => absurd member (Finset.notMem_empty x)) bitmaps writable
        (Or.inl ⟨none, e, List.mem_cons_self, rfl⟩)) ?_
      rintro _ dev₁ ⟨h₁, holds₁, blocks₁, only₁⟩
      rw [blocksAt_cons none (fun f member => first f member none)
        (apart e List.mem_cons_self none)] at blocks₁
      apply ensures_quiet_then (setDin_done _ ip _)
      have others : ∀ f ∈ es, (setAddr d e 0).addrs f = d.addrs f := by
        intro f member
        have other : f ≠ e := fun same => fresh (same ▸ member)
        simp [setAddr, other]
      rw [← blocksAt_congr others] at blocks₁
      have dinNow : (({ s with dev := dev₁ } : State).icache ip).din = d := now
      rw [dinNow, ← clearAddrs_cons]
      refine ensures_weaken (ih (s := withDin { s with dev := dev₁ } ip (setAddr d e 0))
        (by simp [withDin]) holds₁ blocks₁ nodup' ?_ ?_) ?_
      · exact later.imp_of_mem fun {f g} left right holds some => by
          rw [others f left] at some ⊢
          rw [others g right]
          exact holds some
      · intro f member
        rw [others f member]
        exact apart' f member
      · rintro _ s' ⟨h', dev, rfl, holds', blocks', only'⟩
        refine ⟨h', dev, ?_, holds', blocks', bitmapOnly_trans only₁ only'⟩
        exact withDin_twice { s with dev := dev } ip _ _

/-- The indirect block and the blocks it names. -/
def tableBlocks (h : Nat → Block) (ind : Nat) : Set Nat :=
  {b | ind ≠ 0 ∧ b ∈ blocksAt (getUint (h ind)) (List.range 128) ∪ {ind}}

theorem tableBlocks_congr {h' : Nat → Block} {ind : Nat} (same : ind ≠ 0 → h' ind = h ind) :
    tableBlocks h' ind = tableBlocks h ind := by
  ext b
  refine and_congr_right fun some => ?_
  rw [same some]

theorem freeTable_spec {s : State} {d : Dinode} (writes : Writes t) (now : (s.icache ip).din = d)
    (holds : Holds t F h trans ∅ s.dev) (blocks : Blocks t.sb h eff (tableBlocks h (d.addrs 12)))
    (room : Room t F 0) (bitmaps : Bitmaps t F) (writable : Writable t trans)
    (distinct : d.addrs 12 ≠ 0 → Distinct (getUint (h (d.addrs 12))) (List.range 128))
    (apart : d.addrs 12 ≠ 0 → ∀ j ∈ List.range 128, getUint (h (d.addrs 12)) j ≠ 0 →
      getUint (h (d.addrs 12)) j ∉ ({d.addrs 12} : Set Nat)) :
    Ensures t.contract (whenever (d.addrs 12 ≠ 0) do
        let data ← onDev (bread (d.addrs 12))
        freeIndirect data (List.range 128)
        onDev (brelse (d.addrs 12))
        onDev (bfree (d.addrs 12))
        setDin ip fun d => setAddr d 12 0) s (fun _ s' => ∃ h' dev,
      s' = withDin { s with dev := dev } ip (setAddr d 12 0) ∧ Holds t F h' trans ∅ dev ∧
        Blocks t.sb h' eff ∅ ∧ BitmapOnly t.sb h h') := by
  by_cases none : d.addrs 12 = 0
  · have empty : tableBlocks h (d.addrs 12) = ∅ := Set.eq_empty_iff_forall_notMem.mpr
      fun b member => member.1 none
    rw [empty] at blocks
    refine ensures_whenever (fun some => absurd none some) fun _ => ?_
    refine ⟨h, s.dev, ?_, holds, blocks, bitmapOnly_refl t.sb h⟩
    have same : setAddr d 12 0 = (s.icache ip).din := by
      rw [now]
      refine dinode_ext rfl rfl rfl rfl rfl fun k => ?_
      by_cases here : k = 12
      · simp [setAddr, here, none]
      · simp [setAddr, here]
    rw [same]
    exact (withDin_same s ip).symm
  have full : tableBlocks h (d.addrs 12) =
      blocksAt (getUint (h (d.addrs 12))) (List.range 128) ∪ {d.addrs 12} := by
    ext b
    exact ⟨fun member => member.2, fun member => ⟨none, member⟩⟩
  rw [full] at blocks
  rw [whenever_true none]
  have low := (blocks.ledger.pending (d.addrs 12) (Or.inr rfl)).1.2
  refine ensures_within_then (bread_spec holds room (by simp) low (Finset.notMem_empty _)) ?_
  rintro _ dev₁ ⟨rfl, holds₁⟩
  rw [insert_empty_eq] at holds₁
  refine ensures_then (freeIndirect_spec (s := { s with dev := dev₁ }) writes holds₁ blocks room (by simp)
    (fun x member => Finset.mem_singleton.mp member) bitmaps writable (distinct none)
    (apart none)) ?_
  rintro _ _ ⟨h₂, dev₂, rfl, holds₂, blocks₂, only₂⟩
  refine ensures_within_then (brelse_spec holds₂ (Finset.mem_singleton_self _)) ?_
  intro _ dev₃ holds₃
  rw [Finset.erase_singleton] at holds₃
  refine ensures_within_then (release_spec writes holds₃ blocks₂ room (by simp)
    (fun x member => absurd member (Finset.notMem_empty x)) bitmaps writable rfl) ?_
  rintro _ dev₄ ⟨h₄, holds₄, blocks₄, only₄⟩
  rw [Set.sdiff_self] at blocks₄
  refine ensures_of_done (setDin_done _ ip _) (fun _ member => (List.not_mem_nil member).elim)
    ⟨h₄, dev₄, ?_, holds₄, blocks₄, bitmapOnly_trans only₂ only₄⟩
  rw [← now]

end Release

/-! itrunc. -/

section Itrunc
variable {t : Setting} {F : Set Nat} {h : Nat → Block} {eff : Nat → Dinode} {a : Snap} {s : State}
  {ip : Nat}

/-- A dinode without contents. -/
def truncated (d : Dinode) : Dinode := { d with size := 0, addrs := fun _ => 0 }

theorem pairwise_range {n : Nat} {R : Nat → Nat → Prop} (all : ∀ e f, e < f → f < n → R e f) :
    (List.range n).Pairwise R := by
  refine List.pairwise_lt_range.imp_of_mem fun {e f} _ right less => ?_
  exact all e f less (List.mem_range.mp right)

theorem blocksAt_split (h : Nat → Block) (d : Dinode) :
    ∅ ∪ blocksAt (entry h d) (List.range 141) =
      blocksAt d.addrs (List.range 12) ∪ tableBlocks h (d.addrs 12) := by
  ext b
  constructor
  · rintro (none | ⟨some, e, member, rfl⟩)
    · exact absurd none (Set.notMem_empty b)
    · have bound := List.mem_range.mp member
      by_cases direct : e < 12
      · rw [entry_addr (by omega)] at some ⊢
        exact Or.inl ⟨some, e, List.mem_range.mpr direct, rfl⟩
      · by_cases table : e = 12
        · subst table
          rw [entry_addr (Nat.le_refl 12)] at some ⊢
          exact Or.inr ⟨some, Or.inr rfl⟩
        · by_cases none : d.addrs 12 = 0
          · rw [entry, if_neg (by omega), if_pos none] at some
            exact absurd rfl some
          · rw [show e = 13 + (e - 13) by omega, entry_indirect none] at some ⊢
            exact Or.inr ⟨none, Or.inl ⟨some, e - 13, List.mem_range.mpr (by omega), rfl⟩⟩
  · rintro (⟨some, e, member, rfl⟩ | ⟨some, ⟨there, j, member, rfl⟩ | rfl⟩)
    · have bound := List.mem_range.mp member
      exact Or.inr ⟨some, e, List.mem_range.mpr (by omega), entry_addr (by omega)⟩
    · have bound := List.mem_range.mp member
      exact Or.inr ⟨there, 13 + j, List.mem_range.mpr (by omega), entry_indirect some⟩
    · exact Or.inr ⟨some, 12, List.mem_range.mpr (by omega), entry_addr (Nat.le_refl 12)⟩

theorem itrunc_core (writes : Writes t) (core : Core t F ∅ h eff ∅ a s) (mine : ip ∈ a.locked)
    (room : Room t F 0) (bitmaps : Bitmaps t F) (footprint : iblock (a.inums ip) ∈ F)
    (writable : Writable t a.trans) :
    Ensures t.contract (itrunc ip) s (fun _ s' => ∃ h' eff',
      Core t F ∅ h' eff' ∅ { a with stale := a.stale.erase (a.inums ip) } s' ∧
        (∀ j, j ≠ a.inums ip → eff' j = eff j) ∧
        eff' (a.inums ip) = truncated (eff (a.inums ip)) ∧
        ∀ j < t.sb.ninodes, j ≠ a.inums ip → nodeOf h' (eff j) = nodeOf h (eff j)) := by
  unfold itrunc
  simp only [ndirect, nindirect]
  have inside := core_mine core mine
  have ok := core.blocks.fields _ inside
  have din : (s.icache ip).din = eff (a.inums ip) := core_din core mine
  have okTrunc : DinodeOk (truncated (eff (a.inums ip))) :=
    ⟨ok.type, ok.major, ok.minor, ok.nlink, show 0 < 2 ^ 32 by decide, fun _ => show 0 < 2 ^ 32 by decide,
      fun _ _ => rfl⟩
  have dropped := blocks_drop core.blocks inside (d := truncated (eff (a.inums ip))) (fun _ => rfl)
    okTrunc rfl
  rw [blocksAt_split] at dropped
  have entries := fun e f (smallE : e < 141) (smallF : f < 141) =>
    entry_inj core.blocks inside inside smallE smallF
  have direct : ∀ e, e < 13 → entry h (eff (a.inums ip)) e = (eff (a.inums ip)).addrs e :=
    fun e small => entry_addr (by omega)
  -- Blocks of different entries differ: among the direct ones, and from the table.
  have distinct : Distinct (eff (a.inums ip)).addrs (List.range 12) := pairwise_range
    fun e f less bound some same => by
      rw [← direct e (by omega)] at some same
      rw [← direct f (by omega)] at same
      have := (entries e f (by omega) (by omega) some same).2
      omega
  have apart : ∀ e ∈ List.range 12, (eff (a.inums ip)).addrs e ≠ 0 →
      (eff (a.inums ip)).addrs e ∉ tableBlocks h ((eff (a.inums ip)).addrs 12) := by
    intro e member some inTable
    have small := List.mem_range.mp member
    rw [← direct e (by omega)] at some inTable
    obtain ⟨table, ⟨_, j, inRange, same⟩ | same⟩ := inTable
    · rw [← entry_indirect table] at same
      have := (entries e (13 + j) (by omega) (by have := List.mem_range.mp inRange; omega) some
        same.symm).2
      omega
    · rw [Set.mem_singleton_iff, ← direct 12 (by omega)] at same
      have := (entries e 12 (by omega) (by omega) some same).2
      omega
  apply ensures_then (freeDirect_spec writes din core.dev dropped room bitmaps writable
    List.nodup_range distinct apart)
  rintro _ _ ⟨h₁, dev₁, rfl, holds₁, blocks₁, only₁⟩
  have table : (eff (a.inums ip)).addrs 12 ≠ 0 →
      h₁ ((eff (a.inums ip)).addrs 12) = h ((eff (a.inums ip)).addrs 12) := fun some =>
    bitmapOnly_data only₁ (addr_data core.blocks inside (Nat.le_refl 12) some).1
  rw [← tableBlocks_congr table] at blocks₁
  apply ensures_inspect_then
  have din₁ : ((withDin { s with dev := dev₁ } ip
      (clearAddrs (eff (a.inums ip)) (List.range 12))).icache ip).din =
      clearAddrs (eff (a.inums ip)) (List.range 12) := by simp [withDin]
  have addr₁ : (clearAddrs (eff (a.inums ip)) (List.range 12)).addrs 12 =
      (eff (a.inums ip)).addrs 12 := by simp [clearAddrs]
  rw [din₁]
  refine ensures_then (freeTable_spec writes din₁ holds₁ (by rw [addr₁]; exact blocks₁) room bitmaps
    writable ?_ ?_) ?_
  · rw [addr₁]
    intro some
    rw [table some]
    refine pairwise_range fun e f less bound there same => ?_
    rw [← entry_indirect some] at there same
    rw [← entry_indirect some] at same
    have := (entries (13 + e) (13 + f) (by omega) (by omega) there same).2
    omega
  · rw [addr₁]
    intro some j member there same
    rw [table some, ← entry_indirect some] at there same
    rw [Set.mem_singleton_iff, ← direct 12 (by omega)] at same
    have := (entries (13 + j) 12 (by have := List.mem_range.mp member; omega) (by omega) there same).2
    omega
  rintro _ _ ⟨h₂, dev₂, rfl, holds₂, blocks₂, only₂⟩
  apply ensures_quiet_then (setDin_done _ ip _)
  have cleared : ∀ d' : Dinode, d' = setAddr (clearAddrs (eff (a.inums ip)) (List.range 12)) 12 0 →
      ({ d' with size := 0 } : Dinode) = truncated (eff (a.inums ip)) := by
    rintro _ rfl
    refine dinode_ext rfl rfl rfl rfl rfl fun k => ?_
    simp only [setAddr, clearAddrs, truncated, List.mem_range]
    by_cases here : k = 12
    · simp [here]
    · by_cases low : k < 12
      · simp [low]
      · simp [here, low, ok.beyond k (by omega)]
  rw [withDin_twice, cleared _ (by simp [withDin])]
  have only := bitmapOnly_trans only₁ only₂
  have core₂ : Core t F ∅ h₂ (setEff eff (a.inums ip) (truncated (eff (a.inums ip)))) ∅
      { a with stale := insert (a.inums ip) a.stale }
      (withDin { s with dev := dev₂ } ip (truncated (eff (a.inums ip)))) := by
    refine ⟨holds₂, blocks₂, ?_, cached_setDin core.cached mine rfl rfl rfl rfl, core.console⟩
    intro j bound fresh
    obtain ⟨other, clean⟩ := not_or.mp (fun member => fresh (Finset.mem_insert.mpr member))
    rw [setEff_other _ _ other, bitmapOnly_dinode only bound]
    exact core.synced j bound clean
  change Ensures _ (iupdate ip) (withDin (withDin { s with dev := dev₂ } ip
    (clearAddrs (eff (a.inums ip)) (List.range 12))) ip (truncated (eff (a.inums ip)))) _
  rw [withDin_twice]
  refine ensures_weaken (iupdate_core writes core₂ room (by simp) (Finset.notMem_empty _) mine
    footprint writable) ?_
  rintro _ s' ⟨h', core', nodes⟩
  have erased : (insert (a.inums ip) a.stale).erase (a.inums ip) = a.stale.erase (a.inums ip) :=
    Finset.erase_insert_eq_erase _ _
  rw [erased] at core'
  refine ⟨h', _, core', fun j other => setEff_other _ _ other, setEff_at _ _ _, ?_⟩
  intro j bound other
  have step := nodes j bound
  rw [setEff_other _ _ other] at step
  rw [step, bitmapOnly_node core.blocks only bound]

end Itrunc

/-! iput. -/

/-- The snapshot after iput freed the inode in slot `ip`. -/
def afterFree (a : Snap) (ip : Nat) : Snap :=
  { a with
    nodes := setNode a.nodes (a.inums ip) (freedNode (a.node ip))
    loaded := a.loaded \ {ip}
    refs := drop a.refs ip }

@[simp] theorem afterFree_nodes (a : Snap) (ip : Nat) :
    (afterFree a ip).nodes = setNode a.nodes (a.inums ip) (freedNode (a.node ip)) := rfl

section Iput
variable {t : Setting} {F : Set Nat} {h : Nat → Block} {eff : Nat → Dinode} {a : Snap} {s : State}
  {ip : Nat}

theorem iput_free_spec (writes : Writes t) (rep : Rep t F a s) (last : a.refs ip = 1)
    (free : ip ∉ a.locked) (ready : ip ∈ a.loaded) (unlinked : (a.node ip).nlink = 0)
    (fresh : a.inums ip ∉ a.stale) (room : Room t F 0) (bitmaps : Bitmaps t F)
    (footprint : iblock (a.inums ip) ∈ F) (writable : Writable t a.trans) :
    Ensures t.contract (iput ip) s (fun _ s' => Rep t F (afterFree a ip) s') := by
  obtain ⟨h, eff, world⟩ := rep
  have held : 0 < a.refs ip := by omega
  obtain ⟨_, _, _, inside⟩ := world.cached.slot ip held
  have valid := (world.cached.loaded ip held).mpr ready
  have node : a.node ip = nodeOf h (eff (a.inums ip)) := world.nodes _ inside
  have nlink : (s.icache ip).din.nlink = 0 := by
    rw [world.cached.copy ip held valid]
    rw [node] at unlinked
    exact unlinked
  have idle : (s.icache ip).busy = false := by
    rw [world.cached.busy]
    simpa using free
  apply ensures_inspect_then
  have lastUnlinked : (s.icache ip).lastUnlinked = true := by
    simp [Inode.lastUnlinked, world.cached.refs, last, valid, nlink]
  rw [whenever_true lastUnlinked, if_neg (by simp [idle]), ifree, bind_assoc_action]
  apply ensures_change_then
  have locked : Cached t.sb eff (a.lock ip)
      (setSlot s.icache ip fun i => { i with busy := true }) :=
    cached_lock world.cached held rfl rfl (world.cached.copy ip held valid) rfl valid
  have core₁ := (world_icache world locked rfl rfl rfl rfl).toCore
  have mine : ip ∈ (a.lock ip).locked := Finset.mem_insert_self ip a.locked
  rw [bind_assoc_action]
  refine ensures_then (itrunc_core writes core₁ mine room bitmaps footprint writable) ?_
  rintro _ s₂ ⟨h₂, eff₂, core₂, others₂, truncated₂, nodes₂⟩
  have empty₂ : eff₂ (a.inums ip) = truncated (eff (a.inums ip)) := truncated₂
  rw [bind_assoc_action]
  apply ensures_quiet_then (setDin_run core₂ mine _)
  have ok := core₂.blocks.fields _ inside
  have retyped := blocks_setFields (d := { eff₂ (a.inums ip) with type := 0 }) core₂.blocks rfl
    ⟨show 0 < 2 ^ 16 by decide, ok.major, ok.minor, ok.nlink, ok.size, ok.addrs, ok.beyond⟩
    (core₂.blocks.small _ inside) (fun _ k => by rw [empty₂]; rfl) fun k below => by
      rw [empty₂] at below
      exact absurd below (Nat.not_lt_zero _)
  rw [bind_assoc_action]
  refine ensures_then (iupdate_core writes (core_setDin core₂ mine retyped) room (by simp)
    (Finset.notMem_empty _) mine footprint writable) ?_
  rintro _ s₃ ⟨h₃, core₃, same₃⟩
  have nodes₃ : ∀ j < t.sb.ninodes,
      nodeOf h₃ (setEff eff₂ (a.inums ip) { eff₂ (a.inums ip) with type := 0 } j) =
        nodeOf h₂ (setEff eff₂ (a.inums ip) { eff₂ (a.inums ip) with type := 0 } j) := same₃
  apply ensures_change_then
  apply ensures_change
  have released : Cached t.sb (setEff eff₂ (a.inums ip) { eff₂ (a.inums ip) with type := 0 })
      { a with loaded := a.loaded \ {ip} }
      (setSlot s₃.icache ip fun i => { i with busy := false, valid := false }) := by
    refine cached_setSlot core₃.cached held rfl rfl rfl rfl (fun valid => Bool.noConfusion valid) ?_ ?_
      (fun member => absurd member free) (by simp)
    · simpa using free
    · intro k other
      simp [Snap.lock, other]
  have erased : (insert (a.inums ip) (a.stale.erase (a.inums ip))).erase (a.inums ip) = a.stale := by
    rw [Finset.erase_insert_eq_erase, Finset.erase_idem, Finset.erase_eq_of_notMem fresh]
  refine ⟨h₃, _, ⟨core₃.dev, core₃.blocks, fun j bound clean => core₃.synced j bound ?_,
    cached_congr (cached_drop released fun member => absurd member free) rfl rfl rfl rfl,
    core₃.console⟩, ?_⟩
  · exact fun member => clean (erased ▸ member)
  intro j bound
  refine Eq.trans ?_ (nodes₃ j bound).symm
  by_cases here : j = a.inums ip
  · rw [here, setEff_at, empty₂, afterFree_nodes, setNode_at, node]
    rfl
  · rw [setEff_other _ _ here, others₂ j here, nodes₂ j bound here, afterFree_nodes,
      setNode_other _ _ here]
    exact world.nodes j bound

end Iput

/-! ialloc. -/

section Ialloc
variable {t : Setting} {F : Set Nat} {a : Snap} {s : State} {type n : Nat}

theorem claim_spec {h : Nat → Block} {eff : Nat → Dinode} {i : Nat} (writes : Writes t)
    (world : World t F ∅ h eff ∅ a s) (absent : ∀ k, 0 < a.refs k → a.inums k ≠ i)
    (inside : i < t.sb.ninodes) (free : (eff i).type = 0) (room : Room t F (n + 1))
    (writable : Writable t a.trans) (small : type < 2 ^ 16)
    {dev : Dev} (holds : Holds t F h a.trans {iblock i} dev) :
    Ensures t.contract (logModify (iblock i)
        (putDinode (h (iblock i)) (i % ipb) { Dinode.zero with type := type })) dev
      (fun _ dev' => ∃ h' eff', Holds t (insert (iblock i) F) h' a.trans {iblock i} dev' ∧
        ∀ dev, Holds t (insert (iblock i) F) h' a.trans ∅ dev →
          World t (insert (iblock i) F) ∅ h' eff' ∅ (putNode a i (newNode type))
            { s with dev := dev }) := by
  have ok : DinodeOk { Dinode.zero with type := type } :=
    ⟨small, show 0 < 2 ^ 16 by decide, show 0 < 2 ^ 16 by decide, show 0 < 2 ^ 16 by decide,
      show 0 < 2 ^ 32 by decide, fun _ => show 0 < 2 ^ 32 by decide, fun _ _ => rfl⟩
  have low := iblock_low t.sb inside
  have start := dataStart_eq t.sb
  have claimed := blocks_setFields (d := { Dinode.zero with type := type }) (i := i) world.blocks
    (funext fun k => (world.blocks.clean i inside free k).symm) ok
    (show 0 ≤ 71680 by decide) (fun _ _ => rfl) (fun k below => absurd below (Nat.not_lt_zero _))
  refine ensures_weaken (logModify_spec writes (holds_mono holds (Set.subset_insert _ F))
    (room_less (room_insert room _) (Nat.zero_le n)) (by simp) (Finset.mem_singleton_self _)
    (Set.mem_insert _ F) writable) ?_
  intro _ dev' holds'
  refine ⟨_, setEff eff i { Dinode.zero with type := type }, holds', fun dev final => ?_⟩
  refine ⟨⟨final, ?_, ?_, ?_, world.console⟩, ?_⟩
  · exact blocks_store t.geometry claimed (plain_iblock claimed inside) _
  · intro j bound clean
    rw [dinodeAt_putDinode h ok]
    by_cases here : j = i
    · rw [if_pos here, here, setEff_at]
    · rw [if_neg here, setEff_other _ _ here]
      exact world.synced j bound clean
  · have cached := world.cached
    refine ⟨cached.refs, cached.slot, cached.unique, fun k held valid => ?_, cached.busy, cached.locked,
      cached.loaded⟩
    exact (cached.copy k held valid).trans (setEff_other _ _ (absent k held)).symm
  · intro j bound
    rw [nodeOf_store_low claimed _ bound (by omega)]
    by_cases here : j = i
    · rw [here, setEff_at, putNode_nodes, setNode_at]
      rfl
    · rw [setEff_other _ _ here, putNode_nodes, setNode_other _ _ here]
      exact world.nodes j bound

theorem iallocScan_spec {inums : List Nat} (writes : Writes t) (rep : Rep t F a s)
    (clean : a.stale = ∅) (live : ∀ k, 0 < a.refs k → (a.node k).type ≠ 0)
    (room : Room t F (n + 1)) (writable : Writable t a.trans) (small : type < 2 ^ 16)
    (bound : ∀ i ∈ inums, 0 < i ∧ i < t.sb.ninodes) (full : t.contract.halts .igetNoInodes)
    (none : t.contract.halts .iallocNoInodes) :
    Ensures t.contract (iallocScan type inums) s (fun ip s' => ∃ i a', 0 < i ∧ i < t.sb.ninodes ∧
      (a.nodes i).type = 0 ∧ Rep t (insert (iblock i) F) a' s' ∧
      Frame a.refs (putNode a i (newNode type)) a' ∧ a'.refs = bump a.refs ip ∧ a'.inums ip = i ∧
      a.refs ip = 0 ∧ ip ∉ a'.loaded) := by
  induction inums generalizing s with
  | nil => exact ensures_halt none
  | cons i rest ih =>
    obtain ⟨h, eff, world⟩ := rep
    obtain ⟨positive, inside⟩ := bound i List.mem_cons_self
    have low := iblock_low t.sb inside
    have start := dataStart_eq t.sb
    have area := t.geometry.area
    have room₀ : Room t F 0 := room_less room (Nat.zero_le _)
    have read : getDinode (h (iblock i)) (i % ipb) = eff i :=
      world.synced i inside (by rw [clean]; exact Finset.notMem_empty i)
    have node : a.nodes i = nodeOf h (eff i) := world.nodes i inside
    rw [iallocScan]
    refine ensures_within_then (bread_spec world.dev room₀ (by simp) (x := iblock i) (by omega)
      (Finset.notMem_empty _)) ?_
    rintro _ dev₁ ⟨rfl, holds₁⟩
    rw [insert_empty_eq] at holds₁
    rw [read]
    by_cases free : (eff i).type = 0
    · rw [if_pos free]
      have freeNode : (a.nodes i).type = 0 := by
        rw [node]
        exact free
      have absent : ∀ k, 0 < a.refs k → a.inums k ≠ i := fun k held same =>
        live k held (by rw [Snap.node, same]; exact freeNode)
      refine ensures_within_then (claim_spec writes world absent inside free room writable small
        holds₁) ?_
      rintro _ dev₂ ⟨h', eff', holds₂, after⟩
      refine ensures_within_then (brelse_spec holds₂ (Finset.mem_singleton_self _)) ?_
      intro _ dev₃ holds₃
      rw [Finset.erase_singleton] at holds₃
      refine ensures_weaken (iget_spec ⟨h', eff', after dev₃ holds₃⟩ positive inside full) ?_
      rintro ip s' ⟨a', rep', frame, refs, inum, cold⟩
      have unused : a.refs ip = 0 := by
        by_contra held
        have kept := frame.inums ip (Nat.pos_of_ne_zero held)
        exact absent ip (Nat.pos_of_ne_zero held) (kept.symm.trans inum)
      exact ⟨i, a', positive, inside, freeNode, rep', frame, refs, inum, unused, cold unused⟩
    · rw [if_neg free]
      refine ensures_within_then (brelse_spec holds₁ (Finset.mem_singleton_self _)) ?_
      intro _ dev₂ holds₂
      rw [Finset.erase_singleton] at holds₂
      have world₂ : World t F ∅ h eff ∅ a { s with dev := dev₂ } := world_dev world holds₂
      exact ih ⟨h, eff, world₂⟩ fun j member => bound j (List.mem_cons_of_mem i member)

theorem ialloc_spec (writes : Writes t) (rep : Rep t F a s) (clean : a.stale = ∅)
    (live : ∀ k, 0 < a.refs k → (a.node k).type ≠ 0) (room : Room t F (n + 1))
    (writable : Writable t a.trans) (small : type < 2 ^ 16) (full : t.contract.halts .igetNoInodes)
    (none : t.contract.halts .iallocNoInodes) :
    Ensures t.contract (Fs.ialloc type) s (fun ip s' => ∃ i a', 0 < i ∧ i < t.sb.ninodes ∧
      (a.nodes i).type = 0 ∧ Rep t (insert (iblock i) F) a' s' ∧
      Frame a.refs (putNode a i (newNode type)) a' ∧ a'.refs = bump a.refs ip ∧ a'.inums ip = i ∧
      a.refs ip = 0 ∧ ip ∉ a'.loaded) := by
  obtain ⟨h, eff, world⟩ := rep
  refine ensures_within_then (readsb_spec world.dev (room_less room (Nat.zero_le _)) (by simp)
    (Finset.notMem_empty _) world.blocks.super) ?_
  rintro _ dev₁ ⟨rfl, holds₁⟩
  refine iallocScan_spec writes ⟨h, eff, world_dev world holds₁⟩ clean live room writable small
    (fun i member => ?_) full none
  rw [List.mem_range'_1] at member
  omega

end Ialloc

end Xv6.InodeLife
