import Mathlib.Data.Finset.Card
import Mathlib.Data.List.Nodup
import Xv6.Bio

/-! What the buffer cache shows its callers. `view` forgets which buffer holds
what and in which order: it keeps the block contents bread would return, the
held sectors and the log. `Coherent pins loose` says that exactly the sectors in
`pins` have dirty buffers and that every other buffer equals its sector, apart
from the `loose` ones, which their holders have changed and not yet written.
Each operation of bio.c is described once by what it does to the view. -/
namespace Xv6.Cache
open TraceMonad RedoLog Layout Bio

structure SectorOk (pins loose : Finset Nat) (disk : Nat → Block) (x : Nat) (b : Buf) : Prop where
  valid : b.valid = true
  dirty : b.dirty = true ↔ x ∈ pins
  clean : x ∉ pins → x ∉ loose → b.data = disk x
  busy : x ∈ loose → b.busy = true

def BufOk (pins loose : Finset Nat) (disk : Nat → Block) (b : Buf) : Prop :=
  match b.sector with
  | none => b.busy = false ∧ b.dirty = false
  | some x => SectorOk pins loose disk x b

def Distinct (bcache : List Buf) : Prop := (bcache.filterMap Buf.sector).Nodup

structure Coherent (pins loose : Finset Nat) (s : Dev) : Prop where
  length : s.bcache.length = nbuf
  distinct : Distinct s.bcache
  bufs : ∀ b ∈ s.bcache, BufOk pins loose s.disk b
  pinned : ∀ x ∈ pins, ∃ b ∈ s.bcache, b.sector = some x

def held (s : Dev) : Finset Nat :=
  ((s.bcache.filter Buf.busy).filterMap Buf.sector).toFinset

structure View where
  blk : Nat → Block
  held : Finset Nat
  log : Log

def view (s : Dev) : View := ⟨content s, held s, s.log⟩

/-! Lists of buffers up to order. -/

theorem mem_of_lookup {bcache : List Buf} {x : Nat} {b : Buf}
    (found : lookupBuf bcache x = some b) : b ∈ bcache ∧ b.sector = some x := by
  refine ⟨List.mem_of_find?_eq_some found, ?_⟩
  simpa using List.find?_some found

theorem lookup_none_iff {bcache : List Buf} {x : Nat} :
    lookupBuf bcache x = none ↔ ∀ b ∈ bcache, b.sector ≠ some x := by
  simp [lookupBuf]

theorem distinct_eq {bcache : List Buf} {x : Nat} {a b : Buf} (distinct : Distinct bcache)
    (inA : a ∈ bcache) (inB : b ∈ bcache) (atA : a.sector = some x) (atB : b.sector = some x) :
    a = b := by
  induction bcache with
  | nil => cases inA
  | cons c rest ih =>
    have apart : ∀ d ∈ rest, c.sector = some x → d.sector ≠ some x := by
      intro d member atC atD
      simp only [Distinct, List.filterMap_cons, atC, List.nodup_cons] at distinct
      exact distinct.1 (List.mem_filterMap.mpr ⟨d, member, atD⟩)
    have tail : Distinct rest := by
      unfold Distinct at distinct ⊢
      rw [List.filterMap_cons] at distinct
      cases sector : c.sector with
      | none => simpa [sector] using distinct
      | some y =>
        simp only [sector, List.nodup_cons] at distinct
        exact distinct.2
    rcases List.mem_cons.mp inA with headA | tailA
    · rcases List.mem_cons.mp inB with headB | tailB
      · rw [headA, headB]
      · exact absurd atB (apart b tailB (headA ▸ atA))
    · rcases List.mem_cons.mp inB with headB | tailB
      · exact absurd atA (apart a tailA (headB ▸ atB))
      · exact ih tail tailA tailB

theorem lookup_of_mem {bcache : List Buf} {x : Nat} {b : Buf} (distinct : Distinct bcache)
    (member : b ∈ bcache) (sector : b.sector = some x) : lookupBuf bcache x = some b := by
  cases found : lookupBuf bcache x with
  | none => exact absurd sector (lookup_none_iff.mp found b member)
  | some c =>
    obtain ⟨inC, atC⟩ := mem_of_lookup found
    rw [distinct_eq distinct inC member atC sector]

theorem distinct_perm {left right : List Buf} (perm : left.Perm right) :
    Distinct left ↔ Distinct right :=
  (perm.filterMap Buf.sector).nodup_iff

theorem distinct_cons {b : Buf} {rest : List Buf} {x : Nat} (sector : b.sector = some x) :
    Distinct (b :: rest) ↔ (∀ c ∈ rest, c.sector ≠ some x) ∧ Distinct rest := by
  simp only [Distinct, List.filterMap_cons, sector, List.nodup_cons, List.mem_filterMap, not_exists,
    not_and]

theorem distinct_tail {b : Buf} {rest : List Buf} (distinct : Distinct (b :: rest)) :
    Distinct rest := by
  cases sector : b.sector with
  | none => simpa [Distinct, List.filterMap_cons, sector] using distinct
  | some x => exact ((distinct_cons sector).mp distinct).2

theorem split_at {bcache : List Buf} {x : Nat} {b : Buf} (distinct : Distinct bcache)
    (member : b ∈ bcache) (sector : b.sector = some x) :
    ∃ rest, bcache.Perm (b :: rest) ∧ ∀ c ∈ rest, c.sector ≠ some x := by
  refine ⟨bcache.erase b, List.perm_cons_erase member, ?_⟩
  have whole := (distinct_perm (List.perm_cons_erase member)).mp distinct
  exact ((distinct_cons sector).mp whole).1

theorem updateBuf_perm {bcache rest : List Buf} {x : Nat} {b : Buf} {f : Buf → Buf}
    (perm : bcache.Perm (b :: rest)) (sector : b.sector = some x)
    (others : ∀ c ∈ rest, c.sector ≠ some x) : (updateBuf bcache x f).Perm (f b :: rest) := by
  have same : rest.map (fun c => if c.sector == some x then f c else c) = rest := by
    conv_rhs => rw [← List.map_id rest]
    apply List.map_congr_left
    intro c member
    simp [others c member]
  have mapped := perm.map (fun c => if c.sector == some x then f c else c)
  rw [List.map_cons, same] at mapped
  simpa [updateBuf, sector] using mapped

theorem toFront_perm {bcache rest : List Buf} {x : Nat} {b : Buf} (distinct : Distinct bcache)
    (perm : bcache.Perm (b :: rest)) (sector : b.sector = some x)
    (others : ∀ c ∈ rest, c.sector ≠ some x) :
    (toFront bcache x).Perm ({ b with busy := false } :: rest) := by
  have found := lookup_of_mem distinct (perm.mem_iff.mpr List.mem_cons_self) sector
  have kept : (b :: rest).filter (fun c => c.sector != some x) = rest := by
    rw [List.filter_cons]
    simp only [sector, bne_self_eq_false, Bool.false_eq_true, ↓reduceIte]
    apply List.filter_eq_self.mpr
    intro c member
    simpa using others c member
  have filtered := perm.filter (fun c => c.sector != some x)
  rw [kept] at filtered
  simpa [toFront, found] using filtered

theorem recycle_some {x : Nat} {bcache after : List Buf} (taken : recycle x bcache = some after) :
    ∃ b rest, bcache.Perm (b :: rest) ∧ b.busy = false ∧ b.dirty = false ∧
      after.Perm (⟨some x, true, false, false, b.data⟩ :: rest) := by
  induction bcache generalizing after with
  | nil => simp [recycle] at taken
  | cons c rest ih =>
    rw [recycle] at taken
    cases tail : recycle x rest with
    | some rest' =>
      simp only [tail, Option.some.injEq] at taken
      subst taken
      obtain ⟨b, others, perm, idle, clean, perm'⟩ := ih tail
      exact ⟨b, c :: others, (perm.cons c).trans (List.Perm.swap b c others), idle, clean,
        (perm'.cons c).trans (List.Perm.swap _ c others)⟩
    | none =>
      simp only [tail] at taken
      by_cases kept : (c.busy || c.dirty) = true
      · simp [kept] at taken
      · simp only [Bool.or_eq_true, not_or, Bool.not_eq_true] at kept
        simp only [kept.1, kept.2, Bool.or_self, Bool.false_eq_true, ↓reduceIte,
          Option.some.injEq] at taken
        subst taken
        exact ⟨c, rest, List.Perm.refl _, kept.1, kept.2, List.Perm.refl _⟩

theorem recycle_none {x : Nat} {bcache : List Buf} (full : recycle x bcache = none) :
    ∀ b ∈ bcache, b.busy = true ∨ b.dirty = true := by
  induction bcache with
  | nil => simp
  | cons c rest ih =>
    rw [recycle] at full
    cases tail : recycle x rest with
    | some rest' => simp [tail] at full
    | none =>
      simp only [tail] at full
      by_cases kept : (c.busy || c.dirty) = true
      · intro b member
        rcases List.mem_cons.mp member with rfl | member
        · simpa using kept
        · exact ih tail b member
      · simp [kept] at full

/-! Contents and held sectors. -/

section Contents
variable {s : Dev} {pins loose : Finset Nat} {x : Nat} {b : Buf}

theorem sector_ok (coherent : Coherent pins loose s) (member : b ∈ s.bcache)
    (sector : b.sector = some x) : SectorOk pins loose s.disk x b := by
  have ok := coherent.bufs b member
  simpa only [BufOk, sector] using ok

theorem content_hit (coherent : Coherent pins loose s)
    (member : b ∈ s.bcache) (sector : b.sector = some x) : content s x = b.data := by
  simp [content, lookup_of_mem coherent.distinct member sector,
    (sector_ok coherent member sector).valid]

theorem content_miss (absent : ∀ b ∈ s.bcache, b.sector ≠ some x) :
    content s x = s.disk x := by
  simp [content, lookup_none_iff.mpr absent]

theorem content_disk (coherent : Coherent pins loose s) (free : x ∉ pins) (same : x ∉ loose) :
    content s x = s.disk x := by
  by_cases cached : ∃ b ∈ s.bcache, b.sector = some x
  · obtain ⟨b, member, sector⟩ := cached
    rw [content_hit coherent member sector]
    exact (sector_ok coherent member sector).clean free same
  · exact content_miss fun b member sector => cached ⟨b, member, sector⟩

theorem mem_held : x ∈ held s ↔ ∃ b ∈ s.bcache, b.busy = true ∧ b.sector = some x := by
  simp [held, and_assoc]

theorem full_card (coherent : Coherent pins loose s)
    (full : ∀ b ∈ s.bcache, b.busy = true ∨ b.dirty = true) :
    nbuf ≤ (held s ∪ pins).card := by
  have kept : ∀ b ∈ s.bcache, ∃ x, b.sector = some x ∧ x ∈ held s ∪ pins := by
    intro b member
    cases sector : b.sector with
    | none =>
      have ok := coherent.bufs b member
      simp only [BufOk, sector] at ok
      rcases full b member with busy | dirty
      · simp [ok.1] at busy
      · simp [ok.2] at dirty
    | some x =>
      refine ⟨x, rfl, Finset.mem_union.mpr ?_⟩
      rcases full b member with busy | dirty
      · exact Or.inl (mem_held.mpr ⟨b, member, busy, sector⟩)
      · exact Or.inr ((sector_ok coherent member sector).dirty.mp dirty)
  have all : (s.bcache.filterMap Buf.sector).length = s.bcache.length := by
    rw [List.length_filterMap_eq_countP, List.countP_eq_length]
    intro b member
    obtain ⟨x, sector, _⟩ := kept b member
    simp [sector]
  calc nbuf = (s.bcache.filterMap Buf.sector).length := by rw [all, coherent.length]
    _ = (s.bcache.filterMap Buf.sector).toFinset.card :=
        (List.toFinset_card_of_nodup coherent.distinct).symm
    _ ≤ (held s ∪ pins).card := by
        apply Finset.card_le_card
        intro x member
        obtain ⟨b, inside, sector⟩ := List.mem_filterMap.mp (List.mem_toFinset.mp member)
        obtain ⟨y, atY, good⟩ := kept b inside
        rw [sector] at atY
        cases atY
        exact good

theorem cached_card (coherent : Coherent pins loose s) {sectors : Finset Nat}
    (cached : ∀ x ∈ sectors, ∃ b ∈ s.bcache, b.sector = some x) : sectors.card ≤ nbuf := by
  have subset : sectors ⊆ (s.bcache.filterMap Buf.sector).toFinset := by
    intro x member
    obtain ⟨b, inside, sector⟩ := cached x member
    exact List.mem_toFinset.mpr (List.mem_filterMap.mpr ⟨b, inside, sector⟩)
  calc sectors.card ≤ (s.bcache.filterMap Buf.sector).toFinset.card := Finset.card_le_card subset
    _ ≤ (s.bcache.filterMap Buf.sector).length := List.toFinset_card_le _
    _ ≤ s.bcache.length := List.length_filterMap_le _ _
    _ = nbuf := coherent.length

theorem pins_card_lt (coherent : Coherent pins loose s) (mine : x ∈ held s) (free : x ∉ pins) :
    pins.card < nbuf := by
  have all : (insert x pins).card ≤ nbuf := by
    apply cached_card coherent
    intro y member
    rcases Finset.mem_insert.mp member with rfl | pin
    · obtain ⟨b, inside, _, sector⟩ := mem_held.mp mine
      exact ⟨b, inside, sector⟩
    · exact coherent.pinned y pin
  rwa [Finset.card_insert_of_notMem free] at all

end Contents

/-! Every operation replaces one buffer. -/

/-- `s'` has buffer `b'` of sector `x` where `s` has `b`: the same sector's old
buffer, or a recycled one. -/
structure Swap (s s' : Dev) (x : Nat) (b b' : Buf) (rest : List Buf) : Prop where
  before : s.bcache.Perm (b :: rest)
  after : s'.bcache.Perm (b' :: rest)
  sector : b'.sector = some x
  others : ∀ c ∈ rest, c.sector ≠ some x
  evicted : b.sector = some x ∨ (b.busy = false ∧ b.dirty = false)
  disk : ∀ y, y ≠ x → s'.disk y = s.disk y

section Swaps
variable {s s' : Dev} {pins pins' loose loose' : Finset Nat} {x : Nat} {b b' : Buf}
  {rest : List Buf}

theorem swap_coherent (coherent : Coherent pins loose s) (swap : Swap s s' x b b' rest)
    (samePins : ∀ y, y ≠ x → (y ∈ pins' ↔ y ∈ pins))
    (sameLoose : ∀ y, y ≠ x → (y ∈ loose' ↔ y ∈ loose))
    (ok : SectorOk pins' loose' s'.disk x b') : Coherent pins' loose' s' := by
  have whole := (distinct_perm swap.before).mp coherent.distinct
  constructor
  · have lengths := swap.before.length_eq
    rw [swap.after.length_eq, ← coherent.length, lengths]
    rfl
  · exact (distinct_perm swap.after).mpr
      ((distinct_cons swap.sector).mpr ⟨swap.others, distinct_tail whole⟩)
  · intro c member
    rcases List.mem_cons.mp (swap.after.mem_iff.mp member) with rfl | tail
    · simpa only [BufOk, swap.sector] using ok
    · have old := coherent.bufs c (swap.before.mem_iff.mpr (List.mem_cons_of_mem b tail))
      cases sector : c.sector with
      | none => simpa only [BufOk, sector] using old
      | some y =>
        have other : y ≠ x := fun same => swap.others c tail (same ▸ sector)
        simp only [BufOk, sector] at old ⊢
        refine ⟨old.valid, old.dirty.trans (samePins y other).symm, ?_, ?_⟩
        · intro free same
          rw [swap.disk y other]
          exact old.clean (fun h => free ((samePins y other).mpr h))
            (fun h => same ((sameLoose y other).mpr h))
        · exact fun h => old.busy ((sameLoose y other).mp h)
  · intro y member
    by_cases same : y = x
    · exact ⟨b', swap.after.mem_iff.mpr List.mem_cons_self, same ▸ swap.sector⟩
    · have oldPin := (samePins y same).mp member
      obtain ⟨c, inside, sector⟩ := coherent.pinned y oldPin
      rcases List.mem_cons.mp (swap.before.mem_iff.mp inside) with rfl | tail
      · rcases swap.evicted with atX | clean
        · rw [atX] at sector
          exact absurd (Option.some.inj sector).symm same
        · have dirty := (sector_ok coherent inside sector).dirty.mpr oldPin
          simp [clean.2] at dirty
      · exact ⟨c, swap.after.mem_iff.mpr (List.mem_cons_of_mem b' tail), sector⟩

theorem swap_content (coherent : Coherent pins loose s) (swap : Swap s s' x b b' rest)
    (coherent' : Coherent pins' loose' s') :
    content s' = store (content s) x b'.data := by
  funext y
  by_cases same : y = x
  · subst same
    rw [content_hit coherent' (swap.after.mem_iff.mpr List.mem_cons_self) swap.sector]
    simp [store]
  · rw [store, if_neg same]
    by_cases cached : ∃ c ∈ rest, c.sector = some y
    · obtain ⟨c, member, sector⟩ := cached
      rw [content_hit coherent' (swap.after.mem_iff.mpr (List.mem_cons_of_mem b' member)) sector,
        content_hit coherent (swap.before.mem_iff.mpr (List.mem_cons_of_mem b member)) sector]
    · have absent : ∀ c ∈ s'.bcache, c.sector ≠ some y := by
        intro c member sector
        rcases List.mem_cons.mp (swap.after.mem_iff.mp member) with rfl | tail
        · rw [swap.sector] at sector
          exact same (Option.some.inj sector).symm
        · exact cached ⟨c, tail, sector⟩
      rw [content_miss absent, swap.disk y same]
      -- If `y` was cached before, its buffer is the one recycled: clean and not held.
      by_cases old : b.sector = some y
      · have inside := swap.before.mem_iff.mpr (List.mem_cons_self (a := b) (l := rest))
        have ok := sector_ok coherent inside old
        rcases swap.evicted with atX | idle
        · rw [atX] at old
          exact absurd (Option.some.inj old).symm same
        · symm
          apply content_disk coherent
          · exact fun pin => by simpa [idle.2] using ok.dirty.mpr pin
          · exact fun changed => by simpa [idle.1] using ok.busy changed
      · symm
        apply content_miss
        intro c member sector
        rcases List.mem_cons.mp (swap.before.mem_iff.mp member) with rfl | tail
        · exact old sector
        · exact cached ⟨c, tail, sector⟩

theorem swap_held (swap : Swap s s' x b b' rest) :
    held s' = if b'.busy then insert x (held s) else (held s).erase x := by
  ext y
  have after : y ∈ held s' ↔ (b'.busy = true ∧ y = x) ∨ ∃ c ∈ rest, c.busy = true ∧ c.sector = some y := by
    rw [mem_held]
    constructor
    · rintro ⟨c, member, busy, sector⟩
      rcases List.mem_cons.mp (swap.after.mem_iff.mp member) with rfl | tail
      · rw [swap.sector] at sector
        exact Or.inl ⟨busy, (Option.some.inj sector).symm⟩
      · exact Or.inr ⟨c, tail, busy, sector⟩
    · rintro (⟨busy, same⟩ | ⟨c, tail, busy, sector⟩)
      · exact ⟨b', swap.after.mem_iff.mpr List.mem_cons_self, busy, same ▸ swap.sector⟩
      · exact ⟨c, swap.after.mem_iff.mpr (List.mem_cons_of_mem b' tail), busy, sector⟩
  have before : y ≠ x → (y ∈ held s ↔ ∃ c ∈ rest, c.busy = true ∧ c.sector = some y) := by
    intro other
    rw [mem_held]
    constructor
    · rintro ⟨c, member, busy, sector⟩
      rcases List.mem_cons.mp (swap.before.mem_iff.mp member) with rfl | tail
      · rcases swap.evicted with atX | idle
        · rw [atX] at sector
          exact absurd (Option.some.inj sector).symm other
        · simp [idle.1] at busy
      · exact ⟨c, tail, busy, sector⟩
    · rintro ⟨c, tail, busy, sector⟩
      exact ⟨c, swap.before.mem_iff.mpr (List.mem_cons_of_mem b tail), busy, sector⟩
  have none : ¬ ∃ c ∈ rest, c.busy = true ∧ c.sector = some x := by
    rintro ⟨c, tail, _, sector⟩
    exact swap.others c tail sector
  rw [after]
  by_cases same : y = x
  · subst same
    by_cases busy : b'.busy = true <;> simp [busy, none]
  · by_cases busy : b'.busy = true <;> simp [busy, same, before same]

end Swaps

/-! Operations of bio.c on the view. -/

def View.hold (v : View) (x : Nat) : View := { v with held := insert x v.held }

def View.release (v : View) (x : Nat) : View := { v with held := v.held.erase x }

def View.write (v : View) (x : Nat) (data : Block) : View :=
  { v with blk := store v.blk x data }

theorem lookup_updateBuf {bcache : List Buf} {x : Nat} {f : Buf → Buf}
    (keeps : ∀ b, (f b).sector = b.sector) :
    lookupBuf (updateBuf bcache x f) x = (lookupBuf bcache x).map f := by
  induction bcache with
  | nil => rfl
  | cons c rest ih =>
    by_cases here : c.sector = some x
    · simp [lookupBuf, updateBuf, here, keeps]
    · simpa [lookupBuf, updateBuf, here] using ih

section Operations
variable {s : Dev} {pins loose : Finset Nat} {x : Nat}

theorem held_split (coherent : Coherent pins loose s) (mine : x ∈ held s) :
    ∃ b rest, lookupBuf s.bcache x = some b ∧ b.busy = true ∧ b.sector = some x ∧
      b.data = content s x ∧ SectorOk pins loose s.disk x b ∧ s.bcache.Perm (b :: rest) ∧
      ∀ c ∈ rest, c.sector ≠ some x := by
  obtain ⟨b, member, busy, sector⟩ := mem_held.mp mine
  obtain ⟨rest, perm, others⟩ := split_at coherent.distinct member sector
  exact ⟨b, rest, lookup_of_mem coherent.distinct member sector, busy, sector,
    (content_hit coherent member sector).symm, sector_ok coherent member sector, perm, others⟩

theorem bread_run (coherent : Coherent pins loose s) (free : x ∉ held s) :
    (∃ s', bread x s = (.done (content s x) s', []) ∧ Coherent pins loose s' ∧
      view s' = (view s).hold x ∧ s'.disk = s.disk) ∨
    (bread x s = (.halt .bgetNoBuffers s, []) ∧ nbuf ≤ (held s ∪ pins).card ∧ x ∉ pins) := by
  cases cached : lookupBuf s.bcache x with
  | some b =>
    left
    obtain ⟨member, sector⟩ := mem_of_lookup cached
    have idle : b.busy = false := by
      rw [← Bool.not_eq_true]
      exact fun busy => free (mem_held.mpr ⟨b, member, busy, sector⟩)
    have ok := sector_ok coherent member sector
    have data := content_hit coherent member sector
    obtain ⟨rest, perm, others⟩ := split_at coherent.distinct member sector
    let s' : Dev := { s with bcache := updateBuf s.bcache x fun b => { b with busy := true } }
    have now : lookupBuf s'.bcache x = some { b with busy := true } := by
      have updated : lookupBuf s'.bcache x = (lookupBuf s.bcache x).map _ :=
        lookup_updateBuf fun _ => rfl
      rw [cached] at updated
      exact updated
    have swap : Swap s s' x b { b with busy := true } rest :=
      ⟨perm, updateBuf_perm perm sector others, sector, others, Or.inl sector, fun _ _ => rfl⟩
    have after : Coherent pins loose s' :=
      swap_coherent coherent swap (fun _ _ => Iff.rfl) (fun _ _ => Iff.rfl)
        ⟨ok.valid, ok.dirty, ok.clean, fun _ => rfl⟩
    refine ⟨s', ?_, after, ?_, rfl⟩
    · have valid := ok.valid
      simp only [s'] at now
      simp [bread, bget, getBuf, setBuf, whenever, bind_run, pure_run, inspect, change,
        cached, idle, now, valid, data, s']
    · simp only [view, View.hold, swap_content coherent swap after, swap_held swap, ← data,
        store_same]
      rfl
  | none =>
    have absent := lookup_none_iff.mp cached
    have unpinned : x ∉ pins := by
      intro pin
      obtain ⟨b, member, sector⟩ := coherent.pinned x pin
      exact absent b member sector
    cases taken : recycle x s.bcache with
    | none =>
      right
      refine ⟨?_, full_card coherent (recycle_none taken), unpinned⟩
      simp [bread, bget, bind_run, inspect, halt, cached, taken]
    | some bcache' =>
      left
      obtain ⟨b, rest, perm, idle, clean, perm'⟩ := recycle_some taken
      have others : ∀ c ∈ rest, c.sector ≠ some x := fun c member =>
        absent c (perm.mem_iff.mpr (List.mem_cons_of_mem b member))
      let fresh : Buf := ⟨some x, true, false, false, b.data⟩
      have inside : fresh ∈ bcache' := perm'.mem_iff.mpr List.mem_cons_self
      have distinct' : Distinct bcache' := (distinct_perm perm').mpr
        ((distinct_cons rfl).mpr
          ⟨others, distinct_tail ((distinct_perm perm).mp coherent.distinct)⟩)
      have now : lookupBuf bcache' x = some fresh := lookup_of_mem distinct' inside rfl
      let fill : Buf → Buf := fun b => { b with data := s.disk x, valid := true }
      let s' : Dev := { s with bcache := updateBuf bcache' x fill }
      have filled : lookupBuf s'.bcache x = some (fill fresh) := by
        have updated : lookupBuf s'.bcache x = (lookupBuf bcache' x).map fill :=
          lookup_updateBuf fun _ => rfl
        rw [now] at updated
        exact updated
      have swap : Swap s s' x b (fill fresh) rest :=
        ⟨perm, updateBuf_perm perm' rfl others, rfl, others, Or.inr ⟨idle, clean⟩,
          fun _ _ => rfl⟩
      have after : Coherent pins loose s' :=
        swap_coherent coherent swap (fun _ _ => Iff.rfl) (fun _ _ => Iff.rfl)
          ⟨rfl, by simp [fill, fresh, unpinned], fun _ _ => rfl, fun _ => rfl⟩
      have data : content s x = s.disk x := content_miss absent
      refine ⟨s', ?_, after, ?_, rfl⟩
      · simp only [s', fill] at filled
        simp [bread, bget, getBuf, iderw, setBuf, whenever, bind_run, pure_run, inspect, change,
          cached, taken, now, fresh, filled, data, s', fill]
      · simp only [view, View.hold, swap_content coherent swap after, swap_held swap, fill]
        rw [← data, store_same]
        rfl

theorem brelse_run (coherent : Coherent pins loose s) (mine : x ∈ held s) (tidy : x ∉ loose) :
    ∃ s', brelse x s = (.done () s', []) ∧ Coherent pins loose s' ∧
      view s' = (view s).release x ∧ s'.disk = s.disk := by
  obtain ⟨b, rest, found, busy, sector, data, ok, perm, others⟩ := held_split coherent mine
  let s' : Dev := { s with bcache := toFront s.bcache x }
  have swap : Swap s s' x b { b with busy := false } rest :=
    ⟨perm, toFront_perm coherent.distinct perm sector others, sector, others, Or.inl sector,
      fun _ _ => rfl⟩
  have after : Coherent pins loose s' :=
    swap_coherent coherent swap (fun _ _ => Iff.rfl) (fun _ _ => Iff.rfl)
      ⟨ok.valid, ok.dirty, ok.clean, fun changed => absurd changed tidy⟩
  refine ⟨s', ?_, after, ?_, rfl⟩
  · simp [brelse, getBuf, bind_run, pure_run, inspect, change, found, busy, s']
  · simp only [view, View.release, swap_content coherent swap after, swap_held swap, data,
      store_same]
    rfl

theorem bmodify_run (coherent : Coherent pins loose s) (mine : x ∈ held s) (new : Block) :
    ∃ s', bmodify x new s = (.done () s', []) ∧ Coherent pins (insert x loose) s' ∧
      view s' = (view s).write x new ∧ s'.disk = s.disk := by
  obtain ⟨b, rest, found, busy, sector, data, ok, perm, others⟩ := held_split coherent mine
  let s' : Dev := { s with bcache := updateBuf s.bcache x fun b => { b with data := new } }
  have swap : Swap s s' x b { b with data := new } rest :=
    ⟨perm, updateBuf_perm perm sector others, sector, others, Or.inl sector, fun _ _ => rfl⟩
  have after : Coherent pins (insert x loose) s' :=
    swap_coherent coherent swap (fun _ _ => Iff.rfl) (fun y other => by simp [other])
      ⟨ok.valid, ok.dirty, fun _ same => absurd (Finset.mem_insert_self x loose) same,
        fun _ => busy⟩
  refine ⟨s', rfl, after, ?_, rfl⟩
  simp only [view, View.write, swap_content coherent swap after, swap_held swap, busy,
    ↓reduceIte, Finset.insert_eq_self.mpr mine]
  rfl

theorem bwrite_run (coherent : Coherent pins loose s) (mine : x ∈ held s) :
    ∃ s', bwrite x s = (.done () s', [.write x (content s x)]) ∧
      Coherent (pins.erase x) (loose.erase x) s' ∧ view s' = view s ∧
      s'.disk = store s.disk x (content s x) := by
  obtain ⟨b, rest, found, busy, sector, data, ok, perm, others⟩ := held_split coherent mine
  let soil : Buf → Buf := fun b => { b with dirty := true }
  let clean : Buf → Buf := fun b => { b with dirty := false, valid := true }
  let s' : Dev :=
    { s with
      disk := store s.disk x (content s x)
      bcache := updateBuf (updateBuf s.bcache x soil) x clean }
  have soiled : lookupBuf (updateBuf s.bcache x soil) x = some (soil b) := by
    have updated : lookupBuf (updateBuf s.bcache x soil) x = (lookupBuf s.bcache x).map soil :=
      lookup_updateBuf fun _ => rfl
    rw [found] at updated
    exact updated
  have middle : (updateBuf s.bcache x soil).Perm (soil b :: rest) :=
    updateBuf_perm perm sector others
  have swap : Swap s s' x b (clean (soil b)) rest :=
    ⟨perm, updateBuf_perm middle sector others, sector, others, Or.inl sector,
      fun y other => by simp [s', store, other]⟩
  have after : Coherent (pins.erase x) (loose.erase x) s' :=
    swap_coherent coherent swap (fun y other => by simp [other]) (fun y other => by simp [other])
      ⟨rfl, by simp [clean], fun _ _ => by simp [s', store, clean, soil, data],
        fun changed => absurd changed (by simp)⟩
  refine ⟨s', ?_, after, ?_, rfl⟩
  · simp only [soil] at soiled
    simp [bwrite, getBuf, iderw, setBuf, bind_run, pure_run, inspect, change, emit, found, busy,
      soiled, data, s', soil, clean]
  · have stillHeld : (clean (soil b)).busy = true := busy
    have sameData : (clean (soil b)).data = content s x := data
    simp only [view, swap_content coherent swap after, swap_held swap, stillHeld, ↓reduceIte,
      Finset.insert_eq_self.mpr mine, sameData, store_same]
    rfl

theorem pin_run (coherent : Coherent pins loose s) (mine : x ∈ held s) :
    ∃ s', setBuf x (fun b => { b with dirty := true }) s = (.done () s', []) ∧
      Coherent (insert x pins) (loose.erase x) s' ∧ view s' = view s ∧ s'.disk = s.disk := by
  obtain ⟨b, rest, found, busy, sector, data, ok, perm, others⟩ := held_split coherent mine
  let s' : Dev := { s with bcache := updateBuf s.bcache x fun b => { b with dirty := true } }
  have swap : Swap s s' x b { b with dirty := true } rest :=
    ⟨perm, updateBuf_perm perm sector others, sector, others, Or.inl sector, fun _ _ => rfl⟩
  have after : Coherent (insert x pins) (loose.erase x) s' :=
    swap_coherent coherent swap (fun y other => by simp [other]) (fun y other => by simp [other])
      ⟨ok.valid, by simp, fun free => absurd (Finset.mem_insert_self x pins) free,
        fun changed => absurd changed (by simp)⟩
  refine ⟨s', rfl, after, ?_, rfl⟩
  simp only [view, swap_content coherent swap after, swap_held swap, busy, ↓reduceIte,
    Finset.insert_eq_self.mpr mine, data, store_same]
  rfl

end Operations

end Xv6.Cache
