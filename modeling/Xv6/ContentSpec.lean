import Mathlib.Order.Interval.Finset.Nat
import Xv6.InodeSpec

/-! Specifications of bmap, readi and writei. A write covers a set `E` of table
entries of one inode; `Budget` says that the transaction has room for the blocks
of these entries and that enough data blocks are free for the entries that have
none. Each allocation uses up one entry of the budget, so it is an invariant of
the loops. -/
namespace Xv6.ContentSpec
open TraceMonad BitField RedoLog Layout Codec Bio Fs Disk DevSpec InodeSpec

/-! Counting what a call may still allocate and log. -/

section Counting
variable {t : Setting} {F : Set Nat} {E : Finset Nat} {h h' : Nat → Block} {d d' : Dinode}
  {b e n : Nat}

/-- The entries of `E` that have no block. -/
def shortage (h : Nat → Block) (d : Dinode) (E : Finset Nat) : Nat :=
  (E.filter fun e => entry h d e = 0).card

open Classical in
/-- The entries of `E` whose block is not in the footprint yet. -/
noncomputable def pending (h : Nat → Block) (d : Dinode) (E : Finset Nat) (F : Set Nat) : Nat :=
  (E.filter fun e => entry h d e = 0 ∨ entry h d e ∉ F).card

/-- `n` more sectors stay available when all of `E` is done. -/
structure Budget (t : Setting) (n : Nat) (F : Set Nat) (E : Finset Nat) (h : Nat → Block)
    (d : Dinode) : Prop where
  room : Room t F (n + pending h d E F)
  space : Space t (shortage h d E) h

theorem freeCount_congr {sb : Superblock} (same : ∀ b, InData sb b → usedIn h' sb b = usedIn h sb b) :
    freeCount sb h' = freeCount sb h := by
  unfold freeCount
  congr 1
  apply List.filter_congr
  intro b member
  rw [same b (mem_dataRange.mp member)]

theorem freeCount_alloc {sb : Superblock} (data : InData sb b) (free : usedIn h sb b = false)
    (now : ∀ x, InData sb x → usedIn h' sb x = (decide (x = b) || usedIn h sb x)) :
    freeCount sb h' + 1 = freeCount sb h := by
  have nodup : (List.range' (dataStart sb) (logStart sb - dataStart sb)).Nodup := List.nodup_range'
  have member : b ∈ (List.range' (dataStart sb) (logStart sb - dataStart sb)).filter
      (fun x => !usedIn h sb x) := List.mem_filter.mpr ⟨mem_dataRange.mpr data, by simp [free]⟩
  have removed : (List.range' (dataStart sb) (logStart sb - dataStart sb)).filter
      (fun x => !usedIn h' sb x) =
      ((List.range' (dataStart sb) (logStart sb - dataStart sb)).filter
        (fun x => !usedIn h sb x)).erase b := by
    rw [(nodup.filter _).erase_eq_filter, List.filter_filter]
    apply List.filter_congr
    intro x inside
    rw [now x (mem_dataRange.mp inside)]
    cases usedIn h sb x <;> simp [bne, beq_eq_decide]
  rw [freeCount, freeCount, removed, List.length_erase_of_mem member]
  have := List.length_pos_of_mem member
  omega

theorem budget_room (budget : Budget t n F E h d) : Room t F n := room_less budget.room (by omega)

theorem count_less {P Q : Nat → Prop} {_ : DecidablePred P} {_ : DecidablePred Q} (member : e ∈ E)
    (before : P e) (after : ¬ Q e) (others : ∀ f ∈ E, Q f → P f) :
    (E.filter Q).card + 1 ≤ (E.filter P).card := by
  apply Finset.card_lt_card
  refine ⟨fun f inside => ?_, fun all => ?_⟩
  · obtain ⟨isMember, holds⟩ := Finset.mem_filter.mp inside
    exact Finset.mem_filter.mpr ⟨isMember, others f isMember holds⟩
  · exact after (Finset.mem_filter.mp (all (Finset.mem_filter.mpr ⟨member, before⟩))).2

theorem budget_touch (budget : Budget t n F E h d) (member : e ∈ E) (some : entry h d e ≠ 0) :
    Budget t n (insert (entry h d e) F) E h d := by
  classical
  refine ⟨?_, budget.space⟩
  by_cases old : entry h d e ∈ F
  · rw [Set.insert_eq_of_mem old]
    exact budget.room
  · have fewer : pending h d E (insert (entry h d e) F) + 1 ≤ pending h d E F := by
      refine count_less member (Or.inr old) ?_ ?_
      · simp [some]
      · intro f _ waiting
        exact waiting.imp_right fun outside inside => outside (Set.mem_insert_of_mem _ inside)
    exact room_insert (room_less budget.room (by omega)) _

theorem budget_fill (budget : Budget t n F E h d) (member : e ∈ E) (empty : entry h d e = 0)
    (data : InData t.sb b) (free : usedIn h t.sb b = false) (some : b ≠ 0)
    (now : entry h' d' e = b) (others : ∀ f, f ≠ e → entry h' d' f = entry h d f)
    (used : ∀ x, InData t.sb x → usedIn h' t.sb x = (decide (x = b) || usedIn h t.sb x)) :
    Budget t n (insert b F) E h' d' := by
  classical
  constructor
  · have fewer : pending h' d' E (insert b F) + 1 ≤ pending h d E F := by
      refine count_less member (Or.inl empty) ?_ ?_
      · simp [now, some]
      · intro f _ waiting
        by_cases here : f = e
        · exact Or.inl (here ▸ empty)
        · rw [others f here] at waiting
          exact waiting.imp_right fun outside inside => outside (Set.mem_insert_of_mem _ inside)
    exact room_insert (room_less budget.room (by omega)) _
  · rcases budget.space with relied | count
    · exact Or.inl relied
    · right
      have fewer := freeCount_alloc data free used
      have less : shortage h' d' E + 1 ≤ shortage h d E := by
        refine count_less member empty (by rwa [now]) fun f _ none => ?_
        by_cases here : f = e
        · exact here ▸ empty
        · rwa [others f here] at none
      omega

theorem budget_one (budget : Budget t n F E h d) (member : e ∈ E) (empty : entry h d e = 0) :
    Room t F 1 ∧ Space t 1 h := by
  classical
  constructor
  · have some : 0 < pending h d E F :=
      Finset.card_pos.mpr ⟨e, Finset.mem_filter.mpr ⟨member, Or.inl empty⟩⟩
    exact room_less budget.room (by omega)
  · refine budget.space.imp_right fun count => le_trans ?_ count
    exact Finset.card_pos.mpr ⟨e, Finset.mem_filter.mpr ⟨member, empty⟩⟩

end Counting

/-! bmap. -/

/-- The entries bmap looks at for block `k` are in `E`. -/
def Covers (E : Finset Nat) (k : Nat) : Prop := fileEntry k ∈ E ∧ (12 ≤ k → 12 ∈ E)

/-- Block `k` of inode `i` exists, as `v`, and the rest only grew. -/
structure Mapped (t : Setting) (n i k : Nat) (E : Finset Nat) (F F' : Set Nat) (h h' : Nat → Block)
    (eff eff' : Nat → Dinode) (v : Nat) : Prop where
  grows : Grows t.sb i h h' eff eff'
  value : blockOf h' (eff' i) k = v
  some : v ≠ 0
  more : F ⊆ F'
  logged : v ∈ F'
  budget : Budget t n F' E h' (eff' i)
  same : blockOf h (eff i) k ≠ 0 → h' = h ∧ eff' = eff

section Bmap
variable {t : Setting} {F : Set Nat} {E : Finset Nat} {h : Nat → Block} {eff : Nat → Dinode}
  {a : Snap} {s : State} {ip k n : Nat}

theorem usedIn_allocated (h : Nat → Block) {b x : Nat} (data : InData t.sb b) (inside : InData t.sb x) :
    usedIn (allocated t.sb h b) t.sb x = (decide (x = b) || usedIn h t.sb x) := by
  have away : bblock x t.sb.ninodes ≠ b := fun same =>
    low_notData (bblock_low _ (inData_size t.geometry inside)).2 (same ▸ data)
  rw [allocated, usedIn_congr (store_other _ _ away), usedIn_markUsed]

theorem core_mine (core : Core t F ∅ h eff ∅ a s) (mine : ip ∈ a.locked) :
    a.inums ip < t.sb.ninodes :=
  (core.cached.slot ip (core.cached.locked ip mine).1).2.2.2

theorem bmapAddr_read (core : Core t F ∅ h eff ∅ a s) (mine : ip ∈ a.locked)
    (some : (eff (a.inums ip)).addrs k ≠ 0) :
    bmapAddr ip k s = (.done ((eff (a.inums ip)).addrs k) s, []) := by
  have same : (s.icache ip).din = eff (a.inums ip) := core_din core mine
  unfold bmapAddr
  rw [bind_done (rfl : getInode ip s = (.done (s.icache ip) s, [])), same, if_neg some]
  rfl

theorem bmapAddr_fill (writes : Writes t) (core : Core t F ∅ h eff ∅ a s) (mine : ip ∈ a.locked)
    (ahead : a.inums ip ∈ a.stale) (live : (eff (a.inums ip)).type ≠ 0) (bitmaps : Bitmaps t F)
    (writable : Writable t a.trans) (direct : k ≤ 12) (member : k ∈ E)
    (budget : Budget t n F E h (eff (a.inums ip))) (empty : (eff (a.inums ip)).addrs k = 0) :
    Ensures t.contract (bmapAddr ip k) s (fun v s' => v ≠ 0 ∧ ∃ h' eff',
      Core t (insert v F) ∅ h' eff' ∅ a s' ∧ Grows t.sb (a.inums ip) h h' eff eff' ∧
      (eff' (a.inums ip)).addrs k = v ∧ Budget t n (insert v F) E h' (eff' (a.inums ip))) := by
  have inside := core_mine core mine
  have vacant : entry h (eff (a.inums ip)) k = 0 := by rwa [entry_addr direct]
  obtain ⟨room, space⟩ := budget_one budget member vacant
  have same : (s.icache ip).din = eff (a.inums ip) := core_din core mine
  apply ensures_inspect_then
  rw [same, if_pos empty]
  refine ensures_within_then (balloc_spec writes core.dev room (by simp)
    (fun x isHeld => absurd isHeld (Finset.notMem_empty x)) bitmaps writable core.blocks.super
    core.blocks.low space) ?_
  rintro b dev₁ ⟨data, free, holds₁⟩
  have taken := blocks_alloc t.geometry core.blocks data free
  have zero : allocated t.sb h b b = 0#4096 := store_at _ _ _
  have attached := blocks_setAddr t.geometry taken inside live direct empty (Set.mem_insert b ∅) zero
  have gone : (insert b ∅ : Set Nat) \ {b} = ∅ := by simp
  rw [gone] at attached
  have grown := grows_trans (grows_alloc t.geometry core.blocks data free inside)
    (grows_setAddr t.sb direct empty zero)
  have core₁ : Core t (insert b F) ∅ (allocated t.sb h b) eff (insert b ∅) a { s with dev := dev₁ } :=
    ⟨holds₁, taken, fun j bound fresh => (grown.dinodes j bound).trans (core.synced j bound fresh),
      core.cached, core.console⟩
  apply ensures_quiet_then (setDin_run core₁ mine _)
  have nonzero : b ≠ 0 := core.blocks.ledger.nonzero b data
  refine ensures_pure ⟨nonzero, _, _, ⟨holds₁, attached, ?_, ?_, core.console⟩, grown, ?_, ?_⟩
  · intro j bound fresh
    have other : j ≠ a.inums ip := fun equal => fresh (equal ▸ ahead)
    rw [setEff_other _ _ other, grown.dinodes j bound]
    exact core.synced j bound fresh
  · exact cached_setDin core.cached mine rfl rfl rfl rfl
  · simp [setAddr]
  · rw [setEff_at]
    have entries : ∀ f, entry (allocated t.sb h b) (eff (a.inums ip)) f =
        entry h (eff (a.inums ip)) f := fun f => entry_allocated t.geometry core.blocks data free inside
    refine budget_fill budget member vacant data free nonzero ?_ ?_
      fun x area => usedIn_allocated h data area
    · rw [entry_setAddr direct fun last => ⟨last ▸ empty, zero⟩, if_pos rfl]
    · intro f other
      rw [entry_setAddr direct fun last => ⟨last ▸ empty, zero⟩, if_neg other, entries]

theorem entry_indirect {d : Dinode} {j : Nat} (some : d.addrs 12 ≠ 0) :
    entry h d (13 + j) = getUint (h (d.addrs 12)) j := by
  rw [entry, if_neg (by omega), if_neg some, Nat.add_sub_cancel_left]

theorem bmapEntry_fill {i j : Nat} {trans : Bool} {s : Dev} (writes : Writes t)
    (blocks : Blocks t.sb h eff ∅) (inside : i < t.sb.ninodes) (some : (eff i).addrs 12 ≠ 0)
    (holds : Holds t F h trans {(eff i).addrs 12} s) (footprint : (eff i).addrs 12 ∈ F)
    (bitmaps : Bitmaps t F) (writable : Writable t trans) (small : j < 128) (member : 13 + j ∈ E)
    (budget : Budget t n F E h (eff i)) (empty : getUint (h ((eff i).addrs 12)) j = 0) :
    Ensures t.contract (bmapEntry ((eff i).addrs 12) (h ((eff i).addrs 12)) j) s (fun v s' =>
      v ≠ 0 ∧ ∃ h', Holds t (insert v F) h' trans {(eff i).addrs 12} s' ∧
        Blocks t.sb h' eff ∅ ∧ Grows t.sb i h h' eff eff ∧ entry h' (eff i) (13 + j) = v ∧
        Budget t n (insert v F) E h' (eff i)) := by
  have home := addr_data blocks inside (Nat.le_refl 12) some
  have vacant : entry h (eff i) (13 + j) = 0 := by rwa [entry_indirect some]
  obtain ⟨room, space⟩ := budget_one budget member vacant
  have dataHeld : DataHeld t h {(eff i).addrs 12} := by
    intro x isHeld
    rw [Finset.mem_singleton.mp isHeld]
    exact home
  rw [bmapEntry, if_pos empty]
  refine ensures_then (balloc_spec writes holds room (by simp) dataHeld bitmaps writable blocks.super
    blocks.low space) ?_
  rintro b s₁ ⟨data, free, holds₁⟩
  have apart : (eff i).addrs 12 ≠ b := fun same => by
    rw [← same, home.2] at free
    exact Bool.noConfusion free
  have kept : allocated t.sb h b ((eff i).addrs 12) = h ((eff i).addrs 12) :=
    allocated_other t.geometry h data home.1 apart
  have taken := blocks_alloc t.geometry blocks data free
  have emptyStill : getUint (allocated t.sb h b ((eff i).addrs 12)) j = 0 := by rwa [kept]
  have attached := blocks_putUint t.geometry taken inside some small emptyStill (Set.mem_insert b ∅)
  have gone : (insert b ∅ : Set Nat) \ {b} = ∅ := by simp
  rw [gone] at attached
  have grown := grows_trans (grows_alloc t.geometry blocks data free inside)
    (grows_putUint (b := b) taken inside some emptyStill)
  refine ensures_then (logModify_spec writes holds₁ (room_insert room b) (by simp)
    (Finset.mem_singleton_self _) (Set.mem_insert_of_mem b footprint) writable) ?_
  intro _ s₂ holds₂
  have nonzero : b ≠ 0 := blocks.ledger.nonzero b data
  rw [← kept] at holds₂
  have fits : b < 2 ^ 32 := by
    have := t.geometry.wide
    have := inData_size t.geometry data
    omega
  have entries := fun e => entry_putUint (h := allocated t.sb h b) (e := e) some small fits
  refine ensures_pure ⟨nonzero, _, holds₂, attached, grown, ?_, ?_⟩
  · rw [entries, if_pos rfl]
  · refine budget_fill budget member vacant data free nonzero ?_ ?_ ?_
    · rw [entries, if_pos rfl]
    · intro f other
      rw [entries, if_neg other, entry_allocated t.geometry blocks data free inside]
    · intro x area
      rw [← usedIn_allocated h data area]
      refine usedIn_congr (store_other _ _ fun same => ?_)
      exact low_notData (bblock_low _ (inData_size t.geometry area)).2 (same ▸ home.1)

theorem blockOf_direct {d : Dinode} (direct : k < 12) : blockOf h d k = d.addrs k := by
  rw [blockOf, fileEntry, if_pos direct, entry_addr (by omega)]

theorem blockOf_indirect {d : Dinode} (high : 12 ≤ k) (some : d.addrs 12 ≠ 0) :
    blockOf h d k = getUint (h (d.addrs 12)) (k - 12) := by
  rw [blockOf, fileEntry, if_neg (by omega), show k + 1 = 13 + (k - 12) by omega, entry_indirect some]

theorem indirect_of_blockOf {d : Dinode} (high : 12 ≤ k) (some : blockOf h d k ≠ 0) :
    d.addrs 12 ≠ 0 := by
  intro none
  rw [blockOf, fileEntry, if_neg (by omega), entry, if_neg (by omega), if_pos none] at some
  exact some rfl

theorem bmap_read (core : Core t F ∅ h eff ∅ a s) (mine : ip ∈ a.locked) (room : Room t F 0)
    (small : k < 140) (some : blockOf h (eff (a.inums ip)) k ≠ 0) :
    Ensures t.contract (bmap ip k) s (fun v s' =>
      v = blockOf h (eff (a.inums ip)) k ∧ Core t F ∅ h eff ∅ a s') := by
  have quiet : ∀ event ∈ ([] : List Event), t.contract.rely event → t.contract.guar event :=
    fun _ member => (List.not_mem_nil member).elim
  unfold bmap
  by_cases direct : k < 12
  · rw [if_pos (by simpa only [ndirect] using direct)]
    rw [blockOf_direct direct] at some ⊢
    exact ensures_of_done (bmapAddr_read core mine some) quiet ⟨rfl, core⟩
  · rw [if_neg (by simpa only [ndirect] using direct),
      if_pos (by simp only [ndirect, nindirect]; omega)]
    have table := indirect_of_blockOf (by omega) some
    rw [blockOf_indirect (by omega) table] at some ⊢
    have home := addr_data core.blocks (core_mine core mine) (Nat.le_refl 12) table
    apply ensures_quiet_then (bmapAddr_read core mine table)
    refine ensures_within_then (bread_spec core.dev room (by simp) home.1.2
      (Finset.notMem_empty _)) ?_
    rintro _ dev₁ ⟨rfl, holds₁⟩
    rw [bmapEntry, if_neg (by simpa only [ndirect] using some)]
    apply ensures_within_quiet_then rfl
    refine ensures_within_then (brelse_spec holds₁ (Finset.mem_insert_self _ _)) ?_
    intro _ dev₂ holds₂
    rw [Finset.erase_insert (Finset.notMem_empty _)] at holds₂
    exact ensures_pure ⟨rfl, { core with dev := holds₂ }⟩

theorem bmapAddr_spec (writes : Writes t) (core : Core t F ∅ h eff ∅ a s) (mine : ip ∈ a.locked)
    (ahead : a.inums ip ∈ a.stale) (live : (eff (a.inums ip)).type ≠ 0) (bitmaps : Bitmaps t F)
    (writable : Writable t a.trans) (direct : k ≤ 12) (member : k ∈ E)
    (budget : Budget t n F E h (eff (a.inums ip))) :
    Ensures t.contract (bmapAddr ip k) s (fun v s' => v ≠ 0 ∧ ∃ h' eff',
      Core t (insert v F) ∅ h' eff' ∅ a s' ∧ Grows t.sb (a.inums ip) h h' eff eff' ∧
      (eff' (a.inums ip)).addrs k = v ∧ Budget t n (insert v F) E h' (eff' (a.inums ip)) ∧
      ((eff (a.inums ip)).addrs k ≠ 0 → h' = h ∧ eff' = eff)) := by
  by_cases empty : (eff (a.inums ip)).addrs k = 0
  · refine ensures_weaken (bmapAddr_fill writes core mine ahead live bitmaps writable direct member
      budget empty) ?_
    rintro v s' ⟨some, h', eff', core', grows, value, budget'⟩
    exact ⟨some, h', eff', core', grows, value, budget', fun old => absurd empty old⟩
  · refine ensures_of_done (bmapAddr_read core mine empty)
      (fun _ isEvent => (List.not_mem_nil isEvent).elim) ⟨empty, h, eff, ?_, grows_refl _ _ _ _, rfl, ?_,
        fun _ => ⟨rfl, rfl⟩⟩
    · exact { core with dev := holds_mono core.dev (Set.subset_insert _ F) }
    · have touched := budget_touch budget member (by rwa [entry_addr direct])
      rwa [entry_addr direct] at touched

theorem bmap_spec (writes : Writes t) (core : Core t F ∅ h eff ∅ a s) (mine : ip ∈ a.locked)
    (ahead : a.inums ip ∈ a.stale) (live : (eff (a.inums ip)).type ≠ 0) (bitmaps : Bitmaps t F)
    (writable : Writable t a.trans) (small : k < 140) (covers : Covers E k)
    (budget : Budget t n F E h (eff (a.inums ip))) :
    Ensures t.contract (bmap ip k) s (fun v s' => ∃ h' eff' F',
      Core t F' ∅ h' eff' ∅ a s' ∧ Mapped t n (a.inums ip) k E F F' h h' eff eff' v) := by
  unfold bmap
  by_cases direct : k < 12
  · rw [if_pos (by simpa only [ndirect] using direct)]
    have member : k ∈ E := by
      have here := covers.1
      rwa [fileEntry, if_pos direct] at here
    refine ensures_weaken (bmapAddr_spec writes core mine ahead live bitmaps writable (by omega) member
      budget) ?_
    rintro v s' ⟨some, h', eff', core', grows, value, budget', same⟩
    refine ⟨h', eff', _, core', grows, ?_, some, Set.subset_insert v F, Set.mem_insert v F, budget', ?_⟩
    · rw [blockOf_direct direct, value]
    · rwa [blockOf_direct direct]
  rw [if_neg (by simpa only [ndirect] using direct), if_pos (by simp only [ndirect, nindirect]; omega)]
  have member : 13 + (k - 12) ∈ E := by
    have here := covers.1
    rwa [fileEntry, if_neg direct, show k + 1 = 13 + (k - 12) by omega] at here
  refine ensures_then (bmapAddr_spec writes core mine ahead live bitmaps writable (Nat.le_refl 12)
    (covers.2 (by omega)) budget) ?_
  rintro _ s₁ ⟨some, h₁, eff₁, core₁, grows₁, rfl, budget₁, same₁⟩
  have inside := core_mine core₁ mine
  have home := addr_data core₁.blocks inside (Nat.le_refl 12) some
  refine ensures_within_then (bread_spec core₁.dev (room_less (budget_room budget₁) (Nat.zero_le n)) (by simp) home.1.2
    (Finset.notMem_empty _)) ?_
  rintro _ dev₂ ⟨rfl, holds₂⟩
  simp only [ndirect, insert_empty_eq] at holds₂ ⊢
  by_cases empty : getUint (h₁ ((eff₁ (a.inums ip)).addrs 12)) (k - 12) = 0
  · refine ensures_within_then (bmapEntry_fill writes core₁.blocks inside some holds₂
      (Set.mem_insert _ F) (fun b bound => Set.mem_insert_of_mem _ (bitmaps b bound)) writable (by omega)
      member budget₁ empty) ?_
    rintro v dev₃ ⟨present, h₃, holds₃, blocks₃, grows₃, value, budget₃⟩
    refine ensures_within_then (brelse_spec holds₃ (Finset.mem_singleton_self _)) ?_
    intro _ dev₄ holds₄
    rw [Finset.erase_singleton] at holds₄
    have synced : ∀ j < t.sb.ninodes, j ∉ a.stale → dinodeAt h₃ j = eff₁ j :=
      fun j bound fresh => (grows₃.dinodes j bound).trans (core₁.synced j bound fresh)
    refine ensures_pure ⟨h₃, eff₁, _, ⟨holds₄, blocks₃, synced, core₁.cached, core₁.console⟩,
      grows_trans grows₁ grows₃, ?_, present, ?_, Set.mem_insert _ _, budget₃, ?_⟩
    · rw [blockOf, fileEntry, if_neg direct, show k + 1 = 13 + (k - 12) by omega, value]
    · exact (Set.subset_insert _ F).trans (Set.subset_insert _ _)
    · -- The block was there before: then the indirect block was too, and its entry.
      intro there
      have table := indirect_of_blockOf (by omega) there
      obtain ⟨sameH, sameEff⟩ := same₁ table
      rw [blockOf_indirect (by omega) table, ← sameH, ← sameEff] at there
      exact absurd empty there
  · rw [bmapEntry, if_neg empty]
    apply ensures_within_quiet_then rfl
    refine ensures_within_then (brelse_spec holds₂ (Finset.mem_singleton_self _)) ?_
    intro _ dev₄ holds₄
    rw [Finset.erase_singleton] at holds₄
    have value : blockOf h₁ (eff₁ (a.inums ip)) k =
        getUint (h₁ ((eff₁ (a.inums ip)).addrs 12)) (k - 12) := blockOf_indirect (by omega) some
    have touched := budget_touch budget₁ member (by rwa [entry_indirect some])
    rw [entry_indirect some] at touched
    refine ensures_pure ⟨h₁, eff₁, _, { core₁ with dev := holds_mono holds₄ (Set.subset_insert _ _) },
      grows₁, value, empty, ?_, Set.mem_insert _ _, touched, ?_⟩
    · exact (Set.subset_insert _ F).trans (Set.subset_insert _ _)
    · exact fun there => same₁ (indirect_of_blockOf (by omega) there)

end Bmap

/-! readi. -/

/-- What readi returns, in terms of the inode's bytes. -/
def readValue (node : Node) (console : Nat → Option (List UInt8)) (off n : Nat) :
    Option (List UInt8) :=
  if node.type = tDev then if hasDevice node.major then console n else none
  else if off > node.size ∨ u32 (off + n) < off then none
  else some (readBytes node off (if u32 (off + n) > node.size then node.size - off else n))

theorem readValue_file {node : Node} {console : Nat → Option (List UInt8)} {off n : Nat}
    (file : node.type ≠ tDev) (inside : off ≤ node.size) (straight : off ≤ u32 (off + n)) :
    readValue node console off n =
      some (readBytes node off (if u32 (off + n) > node.size then node.size - off else n)) := by
  rw [readValue, if_neg file, if_neg (by omega)]

section Readi
variable {t : Setting} {F : Set Nat} {h : Nat → Block} {eff : Nat → Dinode} {a : Snap} {s : State}
  {ip : Nat}

theorem getBytes_raw (h : Nat → Block) (d : Dinode) {off m : Nat} (fits : off % 512 + m ≤ 512) :
    getBytes (h (blockOf h d (off / 512))) (off % 512) m =
      (List.range m).map fun p => rawByte h d (off + p) := by
  apply List.ext_getElem
  · simp
  · intro p left right
    rw [length_getBytes] at left
    rw [getElem_getBytes, List.getElem_map, List.getElem_range, rawByte,
      show (off + p) / 512 = off / 512 by omega, show (off + p) % 512 = off % 512 + p by omega]

theorem readiLoop_spec {fuel off left : Nat} (core : Core t F ∅ h eff ∅ a s) (mine : ip ∈ a.locked)
    (room : Room t F 0) (enough : left ≤ fuel) (below : off + left ≤ (eff (a.inums ip)).size) :
    Ensures t.contract (readiLoop ip fuel off left) s (fun bytes s' =>
      bytes = ((List.range left).map fun p => rawByte h (eff (a.inums ip)) (off + p)) ∧
        Core t F ∅ h eff ∅ a s') := by
  induction fuel generalizing off left s with
  | zero =>
    obtain rfl : left = 0 := by omega
    exact ensures_pure ⟨rfl, core⟩
  | succ fuel ih =>
    rw [readiLoop]
    by_cases finished : left = 0
    · subst finished
      exact ensures_pure ⟨rfl, core⟩
    rw [if_neg finished]
    simp only [bsize]
    have inside := core_mine core mine
    have some := core.blocks.full _ inside (off / 512) (by omega)
    have small := index_small core.blocks inside (k := off / 512) (by omega)
    refine ensures_then (bmap_read core mine room small some) ?_
    rintro _ s₁ ⟨rfl, core₁⟩
    have data := (blockOf_data core.blocks inside small some).1
    refine ensures_within_then (bread_spec core₁.dev room (by simp) data.2
      (Finset.notMem_empty _)) ?_
    rintro _ dev₂ ⟨rfl, holds₂⟩
    refine ensures_within_then (brelse_spec holds₂ (Finset.mem_insert_self _ _)) ?_
    intro _ dev₃ holds₃
    rw [Finset.erase_insert (Finset.notMem_empty _)] at holds₃
    have core₃ : Core t F ∅ h eff ∅ a { s₁ with dev := dev₃ } := { core₁ with dev := holds₃ }
    refine ensures_then (ih core₃ (by omega) (by omega)) ?_
    rintro _ s₄ ⟨rfl, core₄⟩
    refine ensures_pure ⟨?_, core₄⟩
    rw [getBytes_raw h _ (by omega)]
    conv_rhs => rw [show left = min left (512 - off % 512) + (left - min left (512 - off % 512))
      by omega, List.range_add, List.map_append, List.map_map]
    simp only [Function.comp_def, Nat.add_assoc]

theorem readi_core {off n : Nat} (core : Core t F ∅ h eff ∅ a s) (mine : ip ∈ a.locked)
    (room : Room t F 0) (word : n < 2 ^ 32) :
    Ensures t.contract (readi ip off n) s (fun bytes s' =>
      bytes = readValue (nodeOf h (eff (a.inums ip))) a.console off n ∧ Core t F ∅ h eff ∅ a s') := by
  have same : (s.icache ip).din = eff (a.inums ip) := core_din core mine
  have inside := core_mine core mine
  have small := core.blocks.small _ inside
  apply ensures_inspect_then
  rw [same]
  by_cases device : (eff (a.inums ip)).type = tDev
  · rw [if_pos device]
    by_cases present : hasDevice (eff (a.inums ip)).major = true
    · rw [if_pos present]
      refine ensures_inspect ⟨?_, core⟩
      simp [readValue, nodeOf, device, present, core.console]
    · rw [if_neg present]
      refine ensures_pure ⟨?_, core⟩
      simp [readValue, nodeOf, device, present]
  rw [if_neg device]
  by_cases bad : off > (eff (a.inums ip)).size ∨ u32 (off + n) < off
  · rw [if_pos bad]
    refine ensures_pure ⟨?_, core⟩
    rw [readValue, if_neg (by exact device), if_pos (by exact bad)]
  rw [if_neg bad]
  push Not at bad
  -- Without a wrap the count never reaches past the end of the file.
  have count : off + (if u32 (off + n) > (eff (a.inums ip)).size then (eff (a.inums ip)).size - off
      else n) ≤ (eff (a.inums ip)).size := by
    by_cases past : u32 (off + n) > (eff (a.inums ip)).size
    · rw [if_pos past]
      omega
    · rw [if_neg past]
      simp only [u32] at bad past
      omega
  refine ensures_then (readiLoop_spec core mine room (Nat.le_refl _) count) ?_
  rintro _ s₁ ⟨rfl, core₁⟩
  refine ensures_pure ⟨?_, core₁⟩
  rw [readValue_file (by exact device) (by exact bad.1) bad.2]
  refine congrArg some (List.map_congr_left fun p member => ?_)
  have less := List.mem_range.mp member
  exact (if_pos (by omega)).symm

theorem readi_spec {off n : Nat} (rep : Rep t F a s) (mine : ip ∈ a.locked) (room : Room t F 0)
    (word : n < 2 ^ 32) :
    Ensures t.contract (readi ip off n) s (fun bytes s' =>
      bytes = readValue (a.node ip) a.console off n ∧ Rep t F a s') := by
  obtain ⟨h, eff, world⟩ := rep
  refine ensures_weaken (readi_core world.toCore mine room word) ?_
  rintro _ s' ⟨rfl, core⟩
  have node : a.node ip = nodeOf h (eff (a.inums ip)) :=
    world.nodes _ (core_mine world.toCore mine)
  exact ⟨by rw [node], h, eff, core, world.nodes⟩

end Readi

/-! writei. -/

/-- The blocks of inode `i` hold `src` from `off` on and are otherwise as before;
other inodes and the dinodes on disk are unchanged. -/
structure Written (sb : Superblock) (i off : Nat) (src : List UInt8) (h h' : Nat → Block)
    (eff eff' : Nat → Dinode) : Prop where
  fields : eff' i = { eff i with addrs := (eff' i).addrs }
  others : ∀ j, j ≠ i → eff' j = eff j
  nodes : ∀ j < sb.ninodes, j ≠ i → nodeOf h' (eff' j) = nodeOf h (eff j)
  dinodes : ∀ j < sb.ninodes, dinodeAt h' j = dinodeAt h j
  full : ∀ p, off ≤ p → p < off + src.length → blockOf h' (eff' i) (p / 512) ≠ 0
  kept : ∀ k < 140, blockOf h (eff i) k ≠ 0 → blockOf h' (eff' i) k ≠ 0
  inside : ∀ p, off ≤ p → p < off + src.length → rawByte h' (eff' i) p = src.getD (p - off) 0
  outside : ∀ p, p / 512 < 140 → (p < off ∨ off + src.length ≤ p) →
    blockOf h (eff i) (p / 512) ≠ 0 → rawByte h' (eff' i) p = rawByte h (eff i) p
  same : (∀ p, off ≤ p → p < off + src.length → blockOf h (eff i) (p / 512) ≠ 0) → eff' = eff

section Written
variable {sb : Superblock} {h h₁ h₂ : Nat → Block} {eff eff₁ eff₂ : Nat → Dinode} {i off : Nat}

theorem written_nil (sb : Superblock) (i off : Nat) (h : Nat → Block) (eff : Nat → Dinode) :
    Written sb i off [] h h eff eff where
  fields := rfl
  others := fun _ _ => rfl
  nodes := fun _ _ _ => rfl
  dinodes := fun _ _ => rfl
  full := fun p low high => absurd high (by simp; omega)
  kept := fun _ _ some => some
  inside := fun p low high => absurd high (by simp; omega)
  outside := fun _ _ _ _ => rfl
  same := fun _ => rfl

theorem written_append {chunk rest : List UInt8} (first : Written sb i off chunk h h₁ eff eff₁)
    (second : Written sb i (off + chunk.length) rest h₁ h₂ eff₁ eff₂)
    (fits : off + (chunk ++ rest).length ≤ 71680) :
    Written sb i off (chunk ++ rest) h h₂ eff eff₂ := by
  rw [List.length_append] at fits
  refine ⟨?_, ?_, ?_, ?_, ?_, ?_, ?_, ?_, ?_⟩
  · rw [second.fields, first.fields]
  · intro j other
    rw [second.others j other, first.others j other]
  · intro j bound other
    rw [second.nodes j bound other, first.nodes j bound other]
  · intro j bound
    rw [second.dinodes j bound, first.dinodes j bound]
  · intro p low high
    rw [List.length_append] at high
    by_cases early : p < off + chunk.length
    · exact second.kept _ (by omega) (first.full p low early)
    · exact second.full p (by omega) (by omega)
  · exact fun k small some => second.kept k small (first.kept k small some)
  · intro p low high
    rw [List.length_append] at high
    by_cases early : p < off + chunk.length
    · rw [second.outside p (by omega) (Or.inl early) (first.full p low early),
        first.inside p low early, List.getD_append _ _ _ _ (by omega)]
    · rw [second.inside p (by omega) (by omega), List.getD_append_right _ _ _ _ (by omega),
        Nat.sub_sub]
  · intro p small away some
    rw [List.length_append] at away
    rw [second.outside p small (by omega) (first.kept _ small some),
      first.outside p small (by omega) some]
  · intro all
    have there : ∀ p, off ≤ p → p < off + (chunk ++ rest).length →
        blockOf h (eff i) (p / 512) ≠ 0 := all
    rw [List.length_append] at there
    have first' := first.same fun p low high => there p low (by omega)
    have second' := second.same fun p low high =>
      first.kept _ (by omega) (there p (by omega) (by omega))
    exact second'.trans first'

theorem written_store {chunk : List UInt8} (grows : Grows sb i h h₁ eff eff₁)
    (there : blockOf h₁ (eff₁ i) (off / 512) ≠ 0)
    (same : blockOf h (eff i) (off / 512) ≠ 0 → eff₁ = eff) (blocks : Blocks sb h₁ eff₁ ∅)
    (bound : i < sb.ninodes) (small : off / 512 < 140) (some : 0 < chunk.length)
    (fits : off % 512 + chunk.length ≤ 512) :
    Written sb i off chunk h (store h₁ (blockOf h₁ (eff₁ i) (off / 512))
      (setBytes (h₁ (blockOf h₁ (eff₁ i) (off / 512))) (off % 512) chunk)) eff eff₁ := by
  have plain := plain_blockOf blocks bound small there
  have data := (blockOf_data blocks bound small there).1
  have still : ∀ k, blockOf (store h₁ (blockOf h₁ (eff₁ i) (off / 512))
      (setBytes (h₁ (blockOf h₁ (eff₁ i) (off / 512))) (off % 512) chunk)) (eff₁ i) k =
        blockOf h₁ (eff₁ i) k := fun k => blockOf_store plain _ bound
  refine ⟨grows.fields, grows.others, ?_, ?_, ?_, ?_, ?_, ?_, ?_⟩
  · intro j inside other
    rw [blockOf, nodeOf_store_foreign blocks _ bound inside other (fileEntry_lt small)]
    exact grows.nodes j inside other
  · intro j inside
    rw [dinodeAt_data _ inside data]
    exact grows.dinodes j inside
  · intro p low high
    rw [still, show p / 512 = off / 512 by omega]
    exact there
  · intro k inside old
    rw [still, (grows.kept k inside old).1]
    exact old
  · intro p low high
    rw [rawByte, still, show p / 512 = off / 512 by omega, store_at,
      show p % 512 = off % 512 + (p - off) by omega,
      byteAt_setBytes_inside _ _ _ _ (by omega : p - off < chunk.length) (by omega)]
    exact (List.getD_eq_getElem _ _ _).symm
  · intro p inside away old
    rw [← grows_raw grows inside old, rawByte, still, rawByte]
    by_cases here : p / 512 = off / 512
    · rw [here, store_at, byteAt_setBytes_outside _ _ _ _ (by omega)]
    · have present : blockOf h₁ (eff₁ i) (p / 512) ≠ 0 := by
        rw [(grows.kept _ inside old).1]
        exact old
      rw [store_other]
      intro clash
      exact here (fileEntry_inj (entry_inj blocks bound bound (fileEntry_lt inside)
        (fileEntry_lt small) present clash).2)
  · exact fun all => same (all off (Nat.le_refl _) (by omega))

theorem written_chunk {chunk : List UInt8} {t : Setting} {n v : Nat} {E : Finset Nat} {F F' : Set Nat}
    (mapped : Mapped t n i (off / 512) E F F' h h₁ eff eff₁ v) (blocks : Blocks t.sb h₁ eff₁ ∅)
    (bound : i < t.sb.ninodes) (small : off / 512 < 140) (some : 0 < chunk.length)
    (fits : off % 512 + chunk.length ≤ 512) :
    Written t.sb i off chunk h (store h₁ v (setBytes (h₁ v) (off % 512) chunk)) eff eff₁ := by
  obtain ⟨grows, rfl, there, _, _, _, same⟩ := mapped
  exact written_store grows there (fun old => (same old).2) blocks bound small some fits

theorem written_node {src : List UInt8} {spare : Set Nat} (blocks : Blocks sb h eff spare)
    (bound : i < sb.ninodes) (written : Written sb i off src h h₁ eff eff₁)
    (start : off ≤ (eff i).size) :
    nodeOf h₁ { eff₁ i with size := max (eff i).size (off + src.length) } =
      (nodeOf h (eff i)).write off src := by
  have fields := written.fields
  have type : (eff₁ i).type = (eff i).type := by rw [fields]
  have major : (eff₁ i).major = (eff i).major := by rw [fields]
  have minor : (eff₁ i).minor = (eff i).minor := by rw [fields]
  have nlink : (eff₁ i).nlink = (eff i).nlink := by rw [fields]
  refine node_ext type major minor nlink rfl fun p => ?_
  have raw : rawByte h₁ { eff₁ i with size := max (eff i).size (off + src.length) } p =
      rawByte h₁ (eff₁ i) p := rfl
  simp only [nodeOf, Node.write, raw]
  by_cases range : off ≤ p ∧ p < off + src.length
  · rw [if_pos range, if_pos (lt_max_of_lt_right range.2)]
    exact written.inside p range.1 range.2
  · rw [if_neg range]
    by_cases below : p < (eff i).size
    · have small := index_small blocks bound (k := p / 512) (by omega)
      rw [if_pos below, if_pos (lt_max_of_lt_left below)]
      exact written.outside p small (by omega) (blocks.full i bound _ (by omega))
    · rw [if_neg below, if_neg]
      rw [lt_max_iff]
      omega

theorem written_full {src : List UInt8} {spare : Set Nat} (blocks : Blocks sb h eff spare)
    (bound : i < sb.ninodes) (written : Written sb i off src h h₁ eff eff₁)
    (start : off ≤ (eff i).size) {k : Nat} (below : 512 * k < max (eff i).size (off + src.length)) :
    blockOf h₁ (eff₁ i) k ≠ 0 := by
  by_cases old : 512 * k < (eff i).size
  · exact written.kept k (index_small blocks bound old) (blocks.full i bound k old)
  · have new := written.full (512 * k) (by omega) ((lt_max_iff.mp below).resolve_left old)
    rwa [Nat.mul_div_cancel_left k (by decide)] at new

end Written

section Writei
variable {t : Setting} {F : Set Nat} {E : Finset Nat} {h : Nat → Block} {eff : Nat → Dinode}
  {a : Snap} {s : State} {ip n : Nat}

theorem budget_store {y i : Nat} (budget : Budget t n F E h (eff i)) (plain : Plain t.sb eff y)
    (inside : i < t.sb.ninodes) (data : Block) : Budget t n F E (store h y data) (eff i) := by
  have entries : entry (store h y data) (eff i) = entry h (eff i) :=
    funext fun e => entry_congr fun some => store_other _ _ (plain.indirect i inside some)
  have count : freeCount t.sb (store h y data) = freeCount t.sb h := freeCount_congr fun b area =>
    usedIn_congr (store_other _ _ (plain.bitmap b (inData_size t.geometry area)))
  constructor
  · rw [pending, entries]
    exact budget.room
  · rw [Space, shortage, entries, count]
    exact budget.space

theorem writeiLoop_spec {fuel off : Nat} {src : List UInt8} (writes : Writes t)
    (core : Core t F ∅ h eff ∅ a s) (mine : ip ∈ a.locked) (ahead : a.inums ip ∈ a.stale)
    (live : (eff (a.inums ip)).type ≠ 0) (bitmaps : Bitmaps t F) (writable : Writable t a.trans)
    (enough : src.length ≤ fuel) (fits : off + src.length ≤ 71680)
    (covers : ∀ p, off ≤ p → p < off + src.length → Covers E (p / 512))
    (budget : Budget t n F E h (eff (a.inums ip))) :
    Ensures t.contract (writeiLoop ip fuel off src) s (fun _ s' => ∃ h' eff' F',
      Core t F' ∅ h' eff' ∅ a s' ∧ Written t.sb (a.inums ip) off src h h' eff eff' ∧ F ⊆ F' ∧
        Room t F' n) := by
  induction fuel generalizing off src s h eff F with
  | zero =>
    obtain rfl : src = [] := List.length_eq_zero_iff.mp (by omega)
    exact ensures_pure ⟨h, eff, F, core, written_nil _ _ _ _ _, subset_rfl, budget_room budget⟩
  | succ fuel ih =>
    rw [writeiLoop]
    by_cases finished : src.length = 0
    · rw [if_pos finished]
      obtain rfl := List.length_eq_zero_iff.mp finished
      exact ensures_pure ⟨h, eff, F, core, written_nil _ _ _ _ _, subset_rfl, budget_room budget⟩
    rw [if_neg finished]
    simp only [bsize]
    have inside := core_mine core mine
    have small : off / 512 < 140 := by omega
    refine ensures_then (bmap_spec writes core mine ahead live bitmaps writable small
      (covers off (Nat.le_refl off) (by omega)) budget) ?_
    rintro v s₁ ⟨h₁, eff₁, F₁, core₁, mapped⟩
    have value := mapped.value
    have there : blockOf h₁ (eff₁ (a.inums ip)) (off / 512) ≠ 0 := by
      rw [value]
      exact mapped.some
    have data := (blockOf_data core₁.blocks inside small there).1
    have plain := plain_blockOf core₁.blocks inside small there
    rw [value] at data plain
    have room₁ : Room t F₁ 0 := room_less mapped.budget.room (Nat.zero_le _)
    refine ensures_within_then (bread_spec core₁.dev room₁ (by simp) data.2
      (Finset.notMem_empty _)) ?_
    rintro _ dev₂ ⟨rfl, holds₂⟩
    refine ensures_within_then (logModify_spec writes holds₂ room₁ (by simp)
      (Finset.mem_insert_self _ _) mapped.logged writable) ?_
    intro _ dev₃ holds₃
    refine ensures_within_then (brelse_spec holds₃ (Finset.mem_insert_self _ _)) ?_
    intro _ dev₄ holds₄
    rw [Finset.erase_insert (Finset.notMem_empty _)] at holds₄
    have cut : (src.take (min src.length (512 - off % 512))).length =
        min src.length (512 - off % 512) := by simp
    have written₁ := written_chunk mapped core₁.blocks inside small
      (show 0 < (src.take (min src.length (512 - off % 512))).length by omega) (by omega)
    have live₁ : (eff₁ (a.inums ip)).type ≠ 0 := by
      rw [mapped.grows.fields]
      exact live
    have core₄ : Core t F₁ ∅ (store h₁ v (setBytes (h₁ v) (off % 512)
        (src.take (min src.length (512 - off % 512))))) eff₁ ∅ a { s₁ with dev := dev₄ } :=
      ⟨holds₄, blocks_store t.geometry core₁.blocks plain _,
        fun j bound fresh => (dinodeAt_data _ bound data).trans (core₁.synced j bound fresh),
        core₁.cached, core₁.console⟩
    have rest : (src.drop (min src.length (512 - off % 512))).length =
        src.length - min src.length (512 - off % 512) := List.length_drop
    refine ensures_weaken (ih core₄ live₁ (fun b bound => mapped.more (bitmaps b bound)) (by omega)
      (by omega) (fun p low high => covers p (by omega) (by omega))
      (budget_store mapped.budget plain inside _)) ?_
    rintro _ s' ⟨h', eff', F', core', written', more', room'⟩
    refine ⟨h', eff', F', core', ?_, mapped.more.trans more', room'⟩
    have whole := written_append written₁ (by rw [cut]; exact written') (by
      rw [List.take_append_drop]
      exact fits)
    rwa [List.take_append_drop] at whole

/-- The entries bmap looks at for bytes `off` to `off + n`. -/
def touched (off n : Nat) : Finset Nat :=
  (Finset.Ico (off / 512) ((off + n + 511) / 512)).image fileEntry ∪
    if 6144 < off + n then {12} else ∅

theorem covers_touched {off n p : Nat} (low : off ≤ p) (high : p < off + n) :
    Covers (touched off n) (p / 512) := by
  constructor
  · apply Finset.mem_union_left
    exact Finset.mem_image_of_mem _ (Finset.mem_Ico.mpr (by omega))
  · intro indirect
    apply Finset.mem_union_right
    rw [if_pos (by omega)]
    exact Finset.mem_singleton_self 12

theorem touched_card (off n : Nat) :
    (touched off n).card ≤ (off + n + 511) / 512 - off / 512 + if 6144 < off + n then 1 else 0 := by
  refine (Finset.card_union_le _ _).trans (Nat.add_le_add ?_ ?_)
  · exact Finset.card_image_le.trans (Nat.card_Ico _ _).le
  · split <;> simp

theorem core_stale (core : Core t F ∅ h eff ∅ a s) (i : Nat) :
    Core t F ∅ h eff ∅ { a with stale := insert i a.stale } s :=
  ⟨core.dev, core.blocks, fun j bound fresh => core.synced j bound fun old =>
    fresh (Finset.mem_insert_of_mem old), cached_congr core.cached rfl rfl rfl rfl, core.console⟩

/-- The snapshot with another node for inode `i`, on disk and in memory. -/
def putNode (a : Snap) (i : Nat) (node : Node) : Snap := { a with nodes := setNode a.nodes i node }

@[simp] theorem putNode_nodes (a : Snap) (i : Nat) (node : Node) :
    (putNode a i node).nodes = setNode a.nodes i node := rfl

@[simp] theorem putNode_inums (a : Snap) (i : Nat) (node : Node) :
    (putNode a i node).inums = a.inums := rfl

theorem writei_world {off : Nat} {src : List UInt8} (writes : Writes t)
    (world : World t F ∅ h eff ∅ a s) (mine : ip ∈ a.locked) (fresh : a.inums ip ∉ a.stale)
    (live : (eff (a.inums ip)).type ≠ 0) (file : (eff (a.inums ip)).type ≠ tDev)
    (bitmaps : Bitmaps t F) (writable : Writable t a.trans) (footprint : iblock (a.inums ip) ∈ F)
    (start : off ≤ (eff (a.inums ip)).size) (fits : off + src.length ≤ 71680)
    (budget : Budget t n F (touched off src.length) h (eff (a.inums ip))) :
    Ensures t.contract (writei ip src off) s (fun r s' => r = some src.length ∧ ∃ h' eff' F',
      F ⊆ F' ∧ Room t F' n ∧
        World t F' ∅ h' eff' ∅ (putNode a (a.inums ip) ((a.node ip).write off src)) s') := by
  have core := world.toCore
  have inside := core_mine core mine
  have din : (s.icache ip).din = eff (a.inums ip) := core_din core mine
  have node : a.node ip = nodeOf h (eff (a.inums ip)) := world.nodes _ inside
  have word : u32 (off + src.length) = off + src.length := Nat.mod_eq_of_lt (by omega)
  apply ensures_inspect_then
  rw [din, if_neg file, word, if_neg (by omega), if_neg (by simp only [maxfile, bsize]; omega)]
  refine ensures_then (writeiLoop_spec writes (core_stale core (a.inums ip)) mine
    (Finset.mem_insert_self _ _) live bitmaps writable (Nat.le_refl _) fits
    (fun p low high => covers_touched low high) budget) ?_
  rintro _ s₁ ⟨h₁, eff₁, F₁, core₁, written, more, room⟩
  have live₁ : (eff₁ (a.inums ip)).type ≠ 0 := by
    rw [written.fields]
    exact live
  have whole := written_node core.blocks inside written start
  refine ensures_then (ensures_whenever ?_ ?_ : Ensures t.contract _ s₁ fun _ s' => ∃ h' eff',
    World t F₁ ∅ h' eff' ∅ (putNode a (a.inums ip) ((a.node ip).write off src)) s') ?_
  · rintro ⟨_, past⟩
    have larger : max (eff (a.inums ip)).size (off + src.length) = off + src.length :=
      max_eq_right (by omega)
    rw [larger] at whole
    have ok := core₁.blocks.fields _ inside
    have grown := blocks_setFields (d := { eff₁ (a.inums ip) with size := off + src.length })
      core₁.blocks rfl
      ⟨ok.type, ok.major, ok.minor, ok.nlink, show off + src.length < 2 ^ 32 by omega, ok.addrs,
        ok.beyond⟩ fits (fun free => absurd free live₁) fun k below =>
          written_full core.blocks inside written start (by rw [larger]; exact below)
    apply ensures_quiet_then (setDin_run core₁ mine _)
    refine ensures_weaken (iupdate_core writes (core_setDin core₁ mine grown)
      (room_less room (Nat.zero_le n)) (by simp) (Finset.notMem_empty _) mine (more footprint)
      writable) ?_
    rintro _ s₂ ⟨h₂, core₂, same⟩
    have erased : (insert (a.inums ip) (insert (a.inums ip) a.stale)).erase (a.inums ip) = a.stale := by
      rw [Finset.insert_idem, Finset.erase_insert fresh]
    refine ⟨h₂, _, ⟨core₂.dev, core₂.blocks, fun j bound clean => core₂.synced j bound ?_,
      cached_congr core₂.cached rfl rfl rfl rfl, core₂.console⟩, ?_⟩
    · rw [erased]
      exact clean
    intro j bound
    by_cases here : j = a.inums ip
    · rw [here, putNode_nodes, setNode_at, same _ inside, setEff_at, whole, node]
    · rw [putNode_nodes, setNode_other _ _ here, same j bound, setEff_other _ _ here,
        written.nodes j bound here]
      exact world.nodes j bound
  · intro short
    have within : off + src.length ≤ (eff (a.inums ip)).size := by
      by_contra past
      exact short ⟨by omega, by omega⟩
    -- No block was allocated, so the dinode in force is still the one on disk.
    have unchanged : eff₁ = eff := written.same fun p low high =>
      core.blocks.full _ inside _ (by omega)
    subst unchanged
    have size : { eff₁ (a.inums ip) with
        size := max (eff₁ (a.inums ip)).size (off + src.length) } = eff₁ (a.inums ip) := by
      rw [max_eq_left within]
    rw [size] at whole
    refine ⟨h₁, eff₁, ⟨core₁.dev, core₁.blocks, ?_, cached_congr core₁.cached rfl rfl rfl rfl,
      core₁.console⟩, ?_⟩
    · intro j bound clean
      rw [written.dinodes j bound]
      exact core.synced j bound clean
    · intro j bound
      by_cases here : j = a.inums ip
      · rw [here, putNode_nodes, setNode_at, whole, node]
      · rw [putNode_nodes, setNode_other _ _ here, written.nodes j bound here]
        exact world.nodes j bound
  rintro _ s₂ ⟨h₂, eff₂, world₂⟩
  exact ensures_pure ⟨rfl, h₂, eff₂, F₁, more, room, world₂⟩

theorem pending_le (h : Nat → Block) (d : Dinode) (E : Finset Nat) (F : Set Nat) :
    pending h d E F ≤ E.card := by
  classical
  exact Finset.card_le_card (Finset.filter_subset _ E)

theorem writei_spec {off : Nat} {src : List UInt8} (writes : Writes t) (relies : Relies t)
    (rep : Rep t F a s) (mine : ip ∈ a.locked) (fresh : a.inums ip ∉ a.stale)
    (live : (a.node ip).type ≠ 0) (file : (a.node ip).type ≠ tDev) (bitmaps : Bitmaps t F)
    (writable : Writable t a.trans) (footprint : iblock (a.inums ip) ∈ F)
    (start : off ≤ (a.node ip).size) (fits : off + src.length ≤ 71680)
    (room : Room t F (n + (touched off src.length).card)) :
    Ensures t.contract (writei ip src off) s (fun r s' => r = some src.length ∧ ∃ F', F ⊆ F' ∧
      Room t F' n ∧ Rep t F' (putNode a (a.inums ip) ((a.node ip).write off src)) s') := by
  obtain ⟨h, eff, world⟩ := rep
  have node : a.node ip = nodeOf h (eff (a.inums ip)) := world.nodes _ (core_mine world.toCore mine)
  rw [node] at live file start
  have budget : Budget t n F (touched off src.length) h (eff (a.inums ip)) :=
    ⟨room_less room (Nat.add_le_add_left (pending_le _ _ _ _) n), Or.inl relies⟩
  refine ensures_weaken (writei_world writes world mine fresh live file bitmaps
    writable footprint start fits budget) ?_
  rintro _ s' ⟨rfl, h', eff', F', more, room', world'⟩
  exact ⟨rfl, F', more, room', h', eff', world'⟩

theorem writei_refused {off : Nat} {src : List UInt8} (rep : Rep t F a s) (mine : ip ∈ a.locked)
    (file : (a.node ip).type ≠ tDev)
    (bad : off > (a.node ip).size ∨ u32 (off + src.length) < off ∨ u32 (off + src.length) > 71680) :
    writei ip src off s = (.done none s, []) := by
  obtain ⟨shows, _⟩ := rep_shows rep mine
  unfold writei
  rw [bind_done (rfl : getInode ip s = (.done (s.icache ip) s, [])), shows.type, if_neg file,
    shows.size]
  by_cases early : off > (a.node ip).size ∨ u32 (off + src.length) < off
  · rw [if_pos early]
    rfl
  · rw [if_neg early, if_pos]
    · rfl
    · simp only [maxfile, bsize]
      tauto

theorem writei_device {off : Nat} {src : List UInt8} (rep : Rep t F a s) (mine : ip ∈ a.locked)
    (device : (a.node ip).type = tDev) :
    writei ip src off s =
      (.done (if hasDevice (a.node ip).major then some src.length else none) s, []) := by
  obtain ⟨shows, _⟩ := rep_shows rep mine
  unfold writei
  rw [bind_done (rfl : getInode ip s = (.done (s.icache ip) s, [])), shows.type, if_pos device,
    shows.major]
  rfl

end Writei

end Xv6.ContentSpec
