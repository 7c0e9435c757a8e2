import Xv6.MallocSpec
import Xv6.GrowProc

/-! What malloc promises against what sbrk gave. `given` lists the memory that sbrk has
handed to morecore; a request is kept when the bytes behind the returned pointer lie in
it. The size that morecore asks for goes through sbrk's int. -/
namespace Xv6.Promises
open Malloc Intervals

/-- The memory that sbrk gave: addresses and numbers of bytes. -/
def Obtained (given : List (Nat × Nat)) (a : Nat) : Prop := ∃ g ∈ given, g.1 ≤ a ∧ a < g.1 + g.2

/-- All cells of a block were obtained. -/
def Held (given : List (Nat × Nat)) (b : Block) : Prop :=
  ∀ a, b.1 ≤ a → a < finish header b → Obtained given a

/-- The argument of sbrk as an int. -/
def asked (nbytes : Nat) : Int := Int.bmod (grow (unitsFor nbytes) * header) (2 ^ 32)

/-- What sbrk gave in a call of malloc that consumed its answer. -/
def received (nbytes : Nat) (reply : Option Nat) (after : Heap) : List (Nat × Nat) :=
  match reply, after.answers with
  | some p, [] => [(p, (asked nbytes).toNat)]
  | _, _ => []

/-- The largest request whose size fits into sbrk's int. -/
def limit : Nat := 2 ^ 31 - 32

/-- A success of sbrk gives memory above the earlier breaks and below 2^32. -/
def Offer (s : State) (nbytes : Nat) (reply : Option Nat) : Prop :=
  ∀ p, reply = some p → s.heap.brk ≤ p ∧ p + (asked nbytes).toNat ≤ 2 ^ 32

/-- The state after a call of malloc. -/
def called (s : State) (nbytes : Nat) (after : Heap) (p : Nat) : State :=
  ⟨after, if p = 0 then s.live else ⟨p, nbytes, after.mem.size (p - header)⟩ :: s.live⟩

/-- The states of a program that asks for at most `limit` bytes at a time, with what sbrk
has given so far. -/
inductive Reached (base : Nat) : State → List (Nat × Nat) → Prop
  | first (mem : Mem) (brk : Nat) : base + header ≤ brk → brk ≤ 2 ^ 32 →
      Reached base (fresh mem brk) []
  | malloc {s : State} {given : List (Nat × Nat)} {nbytes p : Nat} {reply : Option Nat}
      {after : Heap} : Reached base s given → nbytes ≤ limit → Offer s nbytes reply →
      malloc base { s.heap with answers := [reply] } nbytes = some (after, p) →
      Reached base (called s nbytes after p) (received nbytes reply after ++ given)
  | free {s next : State} {given : List (Nat × Nat)} {p : Nat} : Reached base s given →
      step base s (.free p) = some next → Reached base next given
  | write {s next : State} {given : List (Nat × Nat)} {a ptr size : Nat} : Reached base s given →
      step base s (.write a ptr size) = some next → Reached base next given

/-- What one call of malloc must satisfy: the argument of sbrk is the size of the units
that the new header counts, the bytes behind the pointer were obtained, and a null
pointer leaves the list as it was. -/
structure Kept (base : Nat) (s : State) (given : List (Nat × Nat)) (nbytes : Nat)
    (reply : Option Nat) (after : Heap) (p : Nat) : Prop where
  count : after.answers = [] → asked nbytes = (grow (unitsFor nbytes) * header : Nat)
  bytes : p ≠ 0 → ∀ a, p ≤ a → a < p + nbytes → Obtained (received nbytes reply after ++ given) a
  null : p = 0 → after.mem = (start base s.heap).mem ∧ after.freep = (start base s.heap).freep

/-- malloc(nbytes) returns and keeps its promise in every state and for every answer of
sbrk. -/
def NeverOverPromises (nbytes : Nat) : Prop :=
  ∀ base, 0 < base → ∀ s given reply, Reached base s given → Offer s nbytes reply →
    ∃ after p, malloc base { s.heap with answers := [reply] } nbytes = some (after, p) ∧
      Kept base s given nbytes reply after p

section Held
variable {given more : List (Nat × Nat)} {a b : Block} {blocks : List Block}

theorem held_append (held : Held given b) : Held (more ++ given) b := fun address low high =>
  let ⟨g, member, inside⟩ := held address low high
  ⟨g, List.mem_append_right more member, inside⟩

theorem held_part (all : ∀ c ∈ blocks, Held given c) (part : Part header blocks b) :
    Held given b := by
  obtain ⟨c, member, low, high⟩ := part
  exact fun address above below => all c member address (low.trans above) (below.trans_le high)

theorem held_union (first : Held given a) (second : Held given b)
    (touch : finish header a = b.1) : Held given (a.1, a.2 + b.2) := by
  intro address low high
  rw [finish_merge touch] at high
  by_cases inside : address < finish header a
  · exact first address low inside
  · exact second address (by omega) high

end Held

/-! Requests up to the limit. -/

section Small
variable {base nbytes : Nat} {s next : State} {given : List (Nat × Nat)} {reply : Option Nat}

theorem units_small (small : nbytes ≤ limit) :
    0 < unitsFor nbytes ∧ unitsFor nbytes * header < 2 ^ 31 ∧
      nbytes ≤ (unitsFor nbytes - 1) * header := by
  simp only [limit, unitsFor, header] at small ⊢
  omega

theorem asked_small (small : nbytes ≤ limit) :
    asked nbytes = (grow (unitsFor nbytes) * header : Nat) := grow_int (units_small small).2.1

theorem offer_legal (small : nbytes ≤ limit) (offer : Offer s nbytes reply) :
    Legal s.heap.brk (unitsFor nbytes) [reply] := by
  intro p rest is
  obtain ⟨rfl, -⟩ := List.cons.inj is
  have given := offer p rfl
  rw [asked_small small] at given
  exact given

/-- The free list and the blocks of the program lie in obtained memory. -/
def Honest (base : Nat) (s : State) (given : List (Nat × Nat)) : Prop :=
  Unused base s ∨ ∃ blocks, Layout base s.heap blocks (s.live.map Live.block) ∧ Usable s.live ∧
    ∀ b ∈ blocks ++ s.live.map Live.block, Held given b

theorem honest_start (image : 0 < base) (honest : Honest base s given) (reply : Option Nat) :
    ∃ blocks, Layout base { start base s.heap with answers := [reply] } blocks
        (s.live.map Live.block) ∧
      Usable s.live ∧ ∀ b ∈ blocks ++ s.live.map Live.block, Held given b := by
  rw [← start_answers]
  rcases honest with unused | ⟨blocks, layout, usable, held⟩
  · refine ⟨[], start_empty unused _, ?_, ?_⟩
    · rw [unused.live]
      exact fun e inside => (by cases inside)
    · rw [unused.live]
      exact fun b inside => (by cases inside)
  · rw [start, if_neg (layout_freep image layout)]
    exact ⟨blocks, layout_answers layout _, usable, held⟩

theorem held_received {after : Heap} {p : Nat} (small : nbytes ≤ limit)
    (consumed : after.answers = []) :
    Held (received nbytes (some p) after ++ given) (p, grow (unitsFor nbytes)) := by
  intro a low high
  refine ⟨(p, (asked nbytes).toNat), ?_, low, ?_⟩
  · rw [received]
    · exact List.mem_append_left given List.mem_cons_self
    · exact consumed
  · rw [asked_small small]
    exact high

theorem held_drawn {h after : Heap} {blocks now : List Block} (small : nbytes ≤ limit)
    (answers : h.answers = [reply]) (held : ∀ b ∈ blocks, Held given b)
    (drawn : Drawn h after blocks (unitsFor nbytes) now) :
    ∀ x ∈ now, Held (received nbytes reply after ++ given) x := by
  intro x inside
  rcases drawn with ⟨-, parts⟩ | ⟨p, left, right, rfl, consumed, parts⟩
  · exact held_append (held_part held (parts x inside))
  · rw [answers] at consumed
    obtain ⟨rfl, empty⟩ := List.cons.inj consumed
    refine held_part (insert_all (Held _) (fun a b => held_union) ?_ ?_) (parts x inside)
    · exact fun c member => held_append (held c member)
    · exact held_received small empty.symm

theorem malloc_kept (image : 0 < base) (honest : Honest base s given) (small : nbytes ≤ limit)
    (offer : Offer s nbytes reply) :
    ∃ after p, malloc base { s.heap with answers := [reply] } nbytes = some (after, p) ∧
      Kept base s given nbytes reply after p ∧
      Honest base (called s nbytes after p) (received nbytes reply after ++ given) := by
  obtain ⟨blocks, layout, usable, held⟩ := honest_start image honest reply
  obtain ⟨positive, fits, enough⟩ := units_small small
  have legal := offer_legal small offer
  have length := layout_length layout
  rw [malloc, start_answers]
  rcases search_layout layout positive fits length
      (show 2 * blocks.length + 4 ≤ 2 * ((start base s.heap).brk + 4) by
        change _ ≤ (start base s.heap).brk + 2 at length
        omega) with
    ⟨stuck, illegal⟩ | ⟨after, p, found, ⟨rfl, rfl⟩ | ⟨blocks', b, layout', rfl, size, drawn⟩⟩
  · rw [← start_brk s.heap] at legal
    exact absurd legal illegal
  · refine ⟨_, 0, found, ⟨fun _ => asked_small small, fun some => absurd rfl some,
      fun _ => ⟨rfl, rfl⟩⟩, .inr ⟨blocks, layout_answers layout _, usable, ?_⟩⟩
    exact fun c inside => held_append (held c inside)
  · have notNull : b.1 + header ≠ 0 := by
      simp only [header]
      omega
    have block : (Live.mk (b.1 + header) nbytes
        (after.mem.size (b.1 + header - header))).block = b := by
      rw [Live.block, Nat.add_sub_cancel, layout'.sizes b List.mem_cons_self]
    have blocksHeld := held_drawn small rfl
      (fun c inside => held c (List.mem_append_left _ inside)) drawn
    have lives : (called s nbytes after (b.1 + header)).live.map Live.block =
        b :: s.live.map Live.block := by
      rw [called, if_neg notNull, List.map_cons, block]
    refine ⟨after, _, found, ⟨fun _ => asked_small small, fun _ a low high => ?_,
      fun null => absurd null notNull⟩, .inr ⟨blocks', ?_, ?_, ?_⟩⟩
    · refine blocksHeld b List.mem_cons_self a ((Nat.le_add_right _ _).trans low) ?_
      rw [finish, size]
      simp only [header] at enough high ⊢
      omega
    · rw [lives]
      exact layout'
    · rw [called, if_neg notNull]
      intro e inside
      rcases List.mem_cons.mp inside with rfl | older
      · refine ⟨Nat.le_add_left _ _, ?_⟩
        change nbytes ≤ (after.mem.size (b.1 + header - header) - 1) * header
        rw [Nat.add_sub_cancel, layout'.sizes b List.mem_cons_self, size]
        exact enough
      · exact usable e older
    · rw [lives]
      intro c inside
      rcases List.mem_append.mp inside with isFree | isLive
      · exact blocksHeld c (List.mem_cons_of_mem b isFree)
      · rcases List.mem_cons.mp isLive with rfl | older
        · exact blocksHeld c List.mem_cons_self
        · exact held_append (held c (List.mem_append_right _ older))

theorem free_honest {p : Nat} (honest : Honest base s given)
    (stepped : step base s (.free p) = some next) : Honest base next given := by
  have known : ∃ e ∈ s.live, e.p = p := by
    simp only [step] at stepped
    split at stepped
    · next e found => exact ⟨e, List.mem_of_find?_eq_some found, by simpa using List.find?_some found⟩
    · cases stepped
  obtain ⟨e, inside, rfl⟩ := known
  rcases honest with unused | ⟨blocks, layout, usable, held⟩
  · rw [unused.live] at inside
    cases inside
  · obtain ⟨h', found, left, right, member, rfl, freed, after⟩ := free_live layout usable inside
    rw [freed] at stepped
    cases stepped
    refine .inr ⟨_, after, fun x within => usable x (List.mem_of_mem_erase within), ?_⟩
    intro c within
    rcases List.mem_append.mp within with isFree | isLive
    · refine insert_all (Held given) (fun a b => held_union) ?_ ?_ c isFree
      · exact fun d older => held d (List.mem_append_left _ older)
      · exact held _ (List.mem_append_right _ (List.mem_map_of_mem member))
    · obtain ⟨x, older, rfl⟩ := List.mem_map.mp isLive
      exact held _ (List.mem_append_right _
        (List.mem_map_of_mem (List.mem_of_mem_erase older)))

theorem write_honest {a ptr size : Nat} (honest : Honest base s given)
    (stepped : step base s (.write a ptr size) = some next) : Honest base next given := by
  simp only [step] at stepped
  split at stepped
  · next covered =>
      obtain ⟨e, member, covers⟩ := covered
      cases stepped
      rcases honest with unused | ⟨blocks, layout, usable, held⟩
      · rw [unused.live] at member
        cases member
      · exact .inr ⟨blocks, layout_write layout usable member covers ptr size, usable, held⟩
  · cases stepped

theorem fresh_honest {mem : Mem} {brk : Nat} (low : base + header ≤ brk) (high : brk ≤ 2 ^ 32) :
    Honest base (fresh mem brk) [] := .inl ⟨rfl, rfl, rfl, low, high⟩

theorem reached_honest (image : 0 < base) (reached : Reached base s given) :
    Honest base s given := by
  induction reached with
  | first mem brk low high => exact fresh_honest low high
  | malloc _ small offer run ih =>
    obtain ⟨after, p, run', -, honest⟩ := malloc_kept image ih small offer
    rw [run] at run'
    cases run'
    exact honest
  | free _ stepped ih => exact free_honest ih stepped
  | write _ stepped ih => exact write_honest ih stepped

end Small

/-! Larger requests. -/

section Large
variable {nbytes : Nat}

theorem bmod_large {nu : Nat} (low : 2 ^ 27 ≤ nu) (high : nu ≤ 2 ^ 28 + 1) :
    Int.bmod (nu * header) (2 ^ 32) ≤ 16 := by
  simp only [Int.bmod_def, header]
  split <;> omega

theorem grow_large {nu : Nat} (low : 2 ^ 27 ≤ nu) : grow nu = nu := by
  rw [grow, if_neg]
  omega

theorem units_large (large : limit < nbytes) (request : nbytes < 2 ^ 32) :
    2 ^ 27 ≤ unitsFor nbytes ∧ unitsFor nbytes ≤ 2 ^ 28 + 1 := by
  simp only [limit, unitsFor, header] at large ⊢
  omega

theorem asked_eq (large : limit < nbytes) (request : nbytes < 2 ^ 32) :
    asked nbytes = Int.bmod (unitsFor nbytes * header) (2 ^ 32) := by
  unfold asked
  congr 3
  exact grow_large (units_large large request).1

theorem asked_large (large : limit < nbytes) (request : nbytes < 2 ^ 32) : asked nbytes ≤ 16 := by
  have range := units_large large request
  rw [asked_eq large request]
  exact bmod_large range.1 range.2

theorem morecore_first {m : Mem} {base brk nu : Nat} (bound : Nat) (ptr : m.ptr base = base)
    (size : m.size base = 0) (above : base < brk) (large : 2 ^ 27 ≤ nu)
    (fits : brk ≤ brk ∧ brk + (Int.bmod (nu * header) (2 ^ 32)).toNat ≤ 2 ^ 32) :
    ∃ after, morecore (bound + 1)
        { mem := m, freep := base, brk, answers := [some brk], units := 0 } nu = some (after, true) ∧
      after.answers = [] ∧ after.freep = base ∧ after.mem.ptr base = brk ∧
      after.mem.size brk = nu := by
  have place : findPlace (m.setSize brk nu) brk (bound + 1) base = some base := by
    refine findPlace_stop (.inr ⟨?_, .inl above⟩)
    exact ptr.le
  have next : joinNext (m.setSize brk nu) brk base = (m.setSize brk nu).setPtr brk base := by
    rw [joinNext, if_neg, show (m.setSize brk nu).ptr base = base from ptr]
    change ¬ brk + _ = m.ptr base
    omega
  have previous : joinPrev ((m.setSize brk nu).setPtr brk base) brk base =
      ((m.setSize brk nu).setPtr brk base).setPtr base brk := by
    refine if_neg ?_
    change ¬ base + (m.setSize brk nu).size base * header = brk
    rw [setSize_other (Nat.ne_of_lt above), size]
    omega
  refine ⟨⟨((m.setSize brk nu).setPtr brk base).setPtr base brk, base,
    brk + (Int.bmod (nu * header) (2 ^ 32)).toNat, [], 0 + nu⟩, ?_, rfl, rfl, setPtr_self ..,
    setSize_self ..⟩
  rw [morecore, grow_large large]
  simp only [sbrk, if_pos fits, free, Nat.add_sub_cancel, place, next, previous,
    Option.bind_eq_bind, Option.bind_some, Option.map_some]

/-- The first call: sbrk returns the break, and malloc returns the address behind the new
header. -/
theorem malloc_first (base brk : Nat) (mem : Mem) (low : base + header ≤ brk)
    (room : brk + 16 ≤ 2 ^ 32) (large : limit < nbytes) (request : nbytes < 2 ^ 32) :
    ∃ after, malloc base { (fresh mem brk).heap with answers := [some brk] } nbytes =
      some (after, brk + header) ∧ after.answers = [] := by
  have range := units_large large request
  have above : base < brk := by
    simp only [header] at low
    omega
  have fits : brk ≤ brk ∧ brk + (Int.bmod (unitsFor nbytes * header) (2 ^ 32)).toNat ≤ 2 ^ 32 := by
    have small := asked_large large request
    rw [asked_eq large request] at small
    omega
  have begun : start base { (fresh mem brk).heap with answers := [some brk] } =
      { mem := (mem.setPtr base base).setSize base 0, freep := base, brk,
        answers := [some brk], units := 0 } := if_pos rfl
  generalize heap : (mem.setPtr base base).setSize base 0 = m at begun
  have ptr : m.ptr base = base := by
    rw [← heap]
    exact setPtr_self ..
  have size : m.size base = 0 := by
    rw [← heap]
    exact setSize_self ..
  obtain ⟨after, more, answers, freep, next, units⟩ :=
    morecore_first (brk + 1) ptr size above range.1 fits
  refine ⟨(carve after (unitsFor nbytes) base brk).1, ?_, ?_⟩
  · rw [malloc, begun]
    change search (brk + 2) (unitsFor nbytes) (2 * (brk + 3) + 1 + 1) _ base (m.ptr base) = _
    rw [ptr, search_refill]
    · rw [refill, more]
      dsimp only
      rw [freep, next, search, if_pos units.ge, carve, if_pos units]
    · change m.size base < _
      omega
  · rw [carve_answers]
    exact answers

theorem first_broken {base brk : Nat} {mem : Mem} {after : Heap} (large : limit < nbytes)
    (request : nbytes < 2 ^ 32) (consumed : after.answers = []) :
    ¬ Kept base (fresh mem brk) [] nbytes (some brk) after (brk + header) := by
  intro kept
  have notNull : brk + header ≠ 0 := by
    simp only [header]
    omega
  obtain ⟨g, member, -, below⟩ := kept.bytes notNull (brk + header) le_rfl (by omega)
  rw [received, List.append_nil, List.mem_singleton] at member
  · rw [member] at below
    have few := asked_large large request
    simp only [header] at below
    omega
  · exact consumed

theorem malloc_promise_iff (request : nbytes < 2 ^ 32) :
    NeverOverPromises nbytes ↔ nbytes ≤ limit := by
  refine ⟨fun never => ?_, fun small base image s given reply reached offer => ?_⟩
  · by_contra large
    have large : limit < nbytes := Nat.lt_of_not_le large
    have mem : Mem := ⟨fun _ => 0, fun _ => 0⟩
    have reached : Reached 4096 (fresh mem 8192) [] := .first mem 8192 (by decide) (by decide)
    have offer : Offer (fresh mem 8192) nbytes (some 8192) := by
      rintro p ⟨⟩
      have few := asked_large large request
      exact ⟨le_rfl, by omega⟩
    obtain ⟨after, p, run, kept⟩ := never 4096 (by decide) _ _ _ reached offer
    obtain ⟨after', run', consumed⟩ := malloc_first 4096 8192 mem (by decide) (by decide) large request
    rw [run'] at run
    cases run
    exact first_broken large request consumed kept
  · obtain ⟨after, p, run, kept, -⟩ :=
      malloc_kept image (reached_honest image reached) small offer
    exact ⟨after, p, run, kept⟩

theorem malloc_promise_hundred : NeverOverPromises 100 :=
  (malloc_promise_iff (by decide)).2 (by decide)

/-- The largest request: 2^28 + 1 units, for which sbrk is asked for 16 bytes. -/
theorem malloc_overpromises :
    asked (2 ^ 32 - 1) = 16 ∧ grow (unitsFor (2 ^ 32 - 1)) = 2 ^ 28 + 1 ∧
      ∃ after, malloc 4096
          { (fresh ⟨fun _ => 0, fun _ => 0⟩ 8192).heap with answers := [some 8192] } (2 ^ 32 - 1) =
        some (after, 8192 + header) ∧
      ¬ Kept 4096 (fresh ⟨fun _ => 0, fun _ => 0⟩ 8192) [] (2 ^ 32 - 1) (some 8192) after
        (8192 + header) := by
  have large : limit < 2 ^ 32 - 1 := by decide
  obtain ⟨after, run, consumed⟩ :=
    malloc_first 4096 8192 ⟨fun _ => 0, fun _ => 0⟩ (by decide) (by decide) large (by decide)
  exact ⟨by decide, by decide, after, run, first_broken large (by decide) consumed⟩

end Large

/-- The kernel's side of a negative size: growproc succeeds without doing anything when the
process is smaller than the size to give back. -/
theorem growproc_idle {m : Vm.Memory} {pgdir sz : Nat} {n : Int} (negative : n < 0)
    (int : -2 ^ 31 ≤ n) (less : sz + n < 0) (positive : 0 < sz) :
    GrowProc.growproc pgdir sz n m = (.done (some sz) m, []) := by
  have wrapped : sz ≤ ((sz + n) % 2 ^ 32).toNat := by omega
  have run : Probe.deallocuvm pgdir sz ((sz + n) % 2 ^ 32).toNat m = (.done sz m, []) := by
    rw [Probe.deallocuvm, if_pos wrapped]
    rfl
  rw [GrowProc.growproc, if_neg (by omega), if_pos negative, TraceMonad.bind_quiet run,
    if_neg (by omega)]
  rfl

end Xv6.Promises
