import Xv6.Intervals
import Xv6.Transition

/-! The allocator of user programs, ulib/umalloc.c, in the 64-bit build: a circular list of
free blocks with a roving pointer, first fit, and coalescing. An address stands for
the header at that address, and header words where no block starts may hold anything.
The answers of sbrk come with each call of malloc; the break is below 2^32, as sbrk
returns an int. -/
namespace Xv6.Malloc
open Transition Intervals

/-- sizeof(Header) -/
def header : Nat := 16

structure Mem where
  ptr : Nat → Nat
  size : Nat → Nat

def Mem.setPtr (m : Mem) (a value : Nat) : Mem := { m with ptr := Function.update m.ptr a value }

def Mem.setSize (m : Mem) (a value : Nat) : Mem :=
  { m with size := Function.update m.size a value }

/-- `answers` is what sbrk will return, with none for -1 and at the end of the list; `units`
counts what it has given, for the proofs. -/
structure Heap where
  mem : Mem
  freep : Nat
  brk : Nat
  answers : List (Option Nat)
  units : Nat

/-- The loop of free. -/
def findPlace (m : Mem) (bp : Nat) : (fuel : Nat) → (p : Nat) → Option Nat
  | 0, _ => none
  | fuel + 1, p =>
    if bp > p ∧ bp < m.ptr p then some p
    else if p ≥ m.ptr p ∧ (bp > p ∨ bp < m.ptr p) then some p
    else findPlace m bp fuel (m.ptr p)

/-- bp takes over the block after p, or points to it. -/
def joinNext (m : Mem) (bp p : Nat) : Mem :=
  if bp + m.size bp * header = m.ptr p then
    (m.setSize bp ((m.size bp + m.size (m.ptr p)) % 2 ^ 32)).setPtr bp (m.ptr (m.ptr p))
  else m.setPtr bp (m.ptr p)

/-- p takes over bp, or points to it. -/
def joinPrev (m : Mem) (bp p : Nat) : Mem :=
  if p + m.size p * header = bp then
    (m.setSize p ((m.size p + m.size bp) % 2 ^ 32)).setPtr p (m.ptr bp)
  else m.setPtr p bp

def free (fuel : Nat) (h : Heap) (ap : Nat) : Option Heap :=
  let bp := ap - header
  (findPlace h.mem bp fuel h.freep).map fun p =>
    { h with mem := joinPrev (joinNext h.mem bp p) bp p, freep := p }

/-- The size goes through the int parameter of sbrk. Fresh memory lies above every earlier
break. -/
def sbrk (h : Heap) (bytes : Int) : Option (Heap × Option Nat) :=
  match h.answers with
  | [] => some (h, none)
  | none :: rest => some ({ h with answers := rest }, none)
  | some p :: rest =>
    if h.brk ≤ p ∧ p + bytes.toNat ≤ 2 ^ 32 then
      some ({ h with answers := rest, brk := p + bytes.toNat }, some p)
    else none

/-- What morecore asks for. -/
def grow (nu : Nat) : Nat := if nu < 4096 then 4096 else nu

def morecore (fuel : Nat) (h : Heap) (nu : Nat) : Option (Heap × Bool) := do
  let nu := grow nu
  let (h, p) ← sbrk h (Int.bmod (nu * header) (2 ^ 32))
  match p with
  | none => some (h, false)
  | some p =>
    let h ← free fuel { h with mem := h.mem.setSize p nu, units := h.units + nu } (p + header)
    some (h, true)

/-- The whole block, or its tail. -/
def carve (h : Heap) (nunits prevp p : Nat) : Heap × Nat :=
  if h.mem.size p = nunits then
    ({ h with mem := h.mem.setPtr prevp (h.mem.ptr p), freep := prevp }, p + header)
  else
    let rest := h.mem.size p - nunits
    let tail := p + rest * header
    ({ h with mem := (h.mem.setSize p rest).setSize tail nunits, freep := prevp }, tail + header)

/-- The loop of malloc; 0 is the null pointer. -/
def search (bound nunits : Nat) : (fuel : Nat) → Heap → (prevp p : Nat) → Option (Heap × Nat)
  | 0, _, _, _ => none
  | fuel + 1, h, prevp, p =>
    if nunits ≤ h.mem.size p then some (carve h nunits prevp p)
    else if p = h.freep then
      match morecore bound h nunits with
      | none => none
      | some (h, false) => some (h, 0)
      | some (h, true) => search bound nunits fuel h h.freep (h.mem.ptr h.freep)
    else search bound nunits fuel h p (h.mem.ptr p)

def unitsFor (nbytes : Nat) : Nat := ((nbytes + header - 1) / header + 1) % 2 ^ 32

/-- base is the static header with which the list starts. -/
def start (base : Nat) (h : Heap) : Heap :=
  if h.freep = 0 then
    { h with mem := (h.mem.setPtr base base).setSize base 0, freep := base }
  else h

def malloc (base : Nat) (h : Heap) (nbytes : Nat) : Option (Heap × Nat) :=
  let h := start base h
  search (h.brk + 2) (unitsFor nbytes) (2 * (h.brk + 4)) h h.freep (h.mem.ptr h.freep)

/-! The program. -/

/-- A pointer that malloc returned, the bytes that were asked for, and the units of its
block. -/
structure Live where
  p : Nat
  nbytes : Nat
  units : Nat
  deriving DecidableEq, Repr

def Live.block (e : Live) : Block := (e.p - header, e.units)

structure State where
  heap : Heap
  live : List Live

inductive Label where
  | malloc (nbytes : Nat) (answers : List (Option Nat))
  | free (p : Nat)
  /-- the program writes into a block that it was given, so a header word over it changes -/
  | write (a ptr size : Nat)

/-- The 16 bytes at `a` meet the block behind the header. -/
def Live.covers (e : Live) (a : Nat) : Prop :=
  e.p < a + header ∧ a < e.p + (e.units - 1) * header

instance (e : Live) (a : Nat) : Decidable (e.covers a) := inferInstanceAs (Decidable (_ ∧ _))

def step (base : Nat) (s : State) : Label → Option State
  | .malloc nbytes answers =>
    if nbytes < 2 ^ 31 - 65536 then
      (malloc base { s.heap with answers } nbytes).map fun (heap, p) =>
        { heap, live := if p = 0 then s.live else
            ⟨p, nbytes, heap.mem.size (p - header)⟩ :: s.live }
    else none
  | .free p =>
    match s.live.find? (·.p = p) with
    | some e => (free (s.heap.brk + 2) s.heap p).map fun heap => ⟨heap, s.live.erase e⟩
    | none => none
  | .write a ptr size =>
    if ∃ e ∈ s.live, e.covers a then
      some { s with heap.mem := (s.heap.mem.setPtr a ptr).setSize a size }
    else none

/-- The first call of malloc finds freep null. -/
def fresh (mem : Mem) (brk : Nat) : State := ⟨⟨mem, 0, brk, [], 0⟩, []⟩

/-! The list in memory. -/

section Links
variable {m m' : Mem} {a z : Nat} {left right blocks : List Block} {b : Block}

/-- Blocks that follow `a` by next pointers. -/
def Links (m : Mem) : Nat → List Block → Prop
  | _, [] => True
  | a, b :: rest => m.ptr a = b.1 ∧ m.size b.1 = b.2 ∧ Links m b.1 rest

def lastAddr : Nat → List Block → Nat
  | a, [] => a
  | _, b :: rest => lastAddr b.1 rest

/-- The last of the blocks points to z. -/
def Path (m : Mem) (a : Nat) (blocks : List Block) (z : Nat) : Prop :=
  Links m a blocks ∧ m.ptr (lastAddr a blocks) = z

theorem lastAddr_append : lastAddr a (left ++ right) = lastAddr (lastAddr a left) right := by
  induction left generalizing a with
  | nil => rfl
  | cons b rest ih => exact ih

theorem links_append :
    Links m a (left ++ right) ↔ Links m a left ∧ Links m (lastAddr a left) right := by
  induction left generalizing a with
  | nil => exact ⟨fun links => ⟨trivial, links⟩, fun both => both.2⟩
  | cons b rest ih => simp only [List.cons_append, Links, lastAddr, ih, and_assoc]

theorem path_append :
    Path m a (left ++ right) z ↔ Links m a left ∧ Path m (lastAddr a left) right z := by
  rw [Path, links_append, lastAddr_append, and_assoc]
  rfl

theorem path_cons : Path m a (b :: right) z ↔ m.ptr a = b.1 ∧ m.size b.1 = b.2 ∧ Path m b.1 right z := by
  simp only [Path, Links, lastAddr, and_assoc]

theorem lastAddr_mem : lastAddr a blocks ∈ a :: blocks.map Prod.fst := by
  induction blocks generalizing a with
  | nil => exact List.mem_cons_self
  | cons b rest ih => exact List.mem_cons_of_mem a ih

theorem nodes_split :
    a :: blocks.map Prod.fst = (a :: blocks.map Prod.fst).dropLast ++ [lastAddr a blocks] := by
  induction blocks generalizing a with
  | nil => rfl
  | cons b rest ih =>
    rw [List.map_cons, List.dropLast_cons_of_ne_nil (List.cons_ne_nil _ _), List.cons_append]
    exact congrArg (a :: ·) ih

theorem exists_front {x : Nat} (inside : x ∈ a :: blocks.map Prod.fst) :
    ∃ left right, blocks = left ++ right ∧ x = lastAddr a left := by
  induction blocks generalizing a with
  | nil => exact ⟨[], [], rfl, List.mem_singleton.mp inside⟩
  | cons b rest ih =>
    rcases List.mem_cons.mp inside with rfl | later
    · exact ⟨[], b :: rest, rfl, rfl⟩
    · obtain ⟨left, right, is, last⟩ := ih later
      exact ⟨b :: left, right, by rw [is, List.cons_append], last⟩

theorem links_frame (links : Links m a blocks)
    (ptrs : ∀ x ∈ (a :: blocks.map Prod.fst).dropLast, m'.ptr x = m.ptr x)
    (sizes : ∀ x ∈ blocks.map Prod.fst, m'.size x = m.size x) : Links m' a blocks := by
  induction blocks generalizing a with
  | nil => trivial
  | cons b rest ih =>
    rw [List.map_cons, List.dropLast_cons_of_ne_nil (List.cons_ne_nil _ _)] at ptrs
    refine ⟨?_, ?_, ih links.2.2 ?_ ?_⟩
    · rw [ptrs a List.mem_cons_self]
      exact links.1
    · rw [sizes b.1 List.mem_cons_self]
      exact links.2.1
    · exact fun x inside => ptrs x (List.mem_cons_of_mem a inside)
    · exact fun x inside => sizes x (List.mem_cons_of_mem b.1 inside)

theorem path_moved {a' : Nat} (path : Path m a blocks z) (start : m'.ptr a' = m.ptr a)
    (ptrs : ∀ x ∈ blocks.map Prod.fst, m'.ptr x = m.ptr x)
    (sizes : ∀ x ∈ blocks.map Prod.fst, m'.size x = m.size x) : Path m' a' blocks z := by
  induction blocks generalizing a a' with
  | nil => exact ⟨trivial, start.trans path.2⟩
  | cons b rest ih =>
    obtain ⟨first, size, tail⟩ := path_cons.mp path
    refine path_cons.mpr ⟨start.trans first, ?_, ih tail ?_ ?_ ?_⟩
    · rw [sizes b.1 List.mem_cons_self, size]
    · exact ptrs b.1 List.mem_cons_self
    · exact fun x inside => ptrs x (List.mem_cons_of_mem b.1 inside)
    · exact fun x inside => sizes x (List.mem_cons_of_mem b.1 inside)

end Links

/-! The loop of free stops before the next larger address. -/

section Place
variable {m : Mem} {bp base a : Nat} {left right blocks : List Block} {fuel : Nat}

def Stops (m : Mem) (bp p : Nat) : Prop :=
  bp > p ∧ bp < m.ptr p ∨ p ≥ m.ptr p ∧ (bp > p ∨ bp < m.ptr p)

theorem findPlace_stop {p : Nat} (stops : Stops m bp p) : findPlace m bp (fuel + 1) p = some p := by
  rw [findPlace]
  by_cases first : bp > p ∧ bp < m.ptr p
  · rw [if_pos first]
  · rw [if_neg first, if_pos (stops.resolve_left first)]

theorem findPlace_next {p : Nat} (goes : ¬ Stops m bp p) :
    findPlace m bp (fuel + 1) p = findPlace m bp fuel (m.ptr p) := by
  rw [Stops, not_or] at goes
  rw [findPlace, if_neg goes.1, if_neg goes.2]

theorem findPlace_walk (links : Links m a blocks)
    (goes : ∀ x ∈ (a :: blocks.map Prod.fst).dropLast, ¬ Stops m bp x) :
    findPlace m bp (fuel + blocks.length) a = findPlace m bp fuel (lastAddr a blocks) := by
  induction blocks generalizing a with
  | nil => rfl
  | cons b rest ih =>
    rw [List.map_cons, List.dropLast_cons_of_ne_nil (List.cons_ne_nil _ _)] at goes
    rw [List.length_cons, ← Nat.add_assoc, findPlace_next (goes a List.mem_cons_self), links.1]
    exact ih links.2.2 fun x inside => goes x (List.mem_cons_of_mem a inside)

theorem ptr_next (links : Links m a blocks) {x : Nat}
    (inside : x ∈ (a :: blocks.map Prod.fst).dropLast)
    (sorted : (a :: blocks.map Prod.fst).Pairwise (· < ·)) :
    x < m.ptr x ∧ m.ptr x ∈ blocks.map Prod.fst := by
  induction blocks generalizing a with
  | nil => cases inside
  | cons b rest ih =>
    rw [List.map_cons, List.dropLast_cons_of_ne_nil (List.cons_ne_nil _ _)] at inside
    rw [List.map_cons, List.pairwise_cons] at sorted
    rcases List.mem_cons.mp inside with rfl | later
    · rw [links.1]
      exact ⟨sorted.1 b.1 List.mem_cons_self, List.mem_cons_self⟩
    · obtain ⟨less, next⟩ := ih links.2.2 later sorted.2
      exact ⟨less, List.mem_cons_of_mem b.1 next⟩

theorem spaced_sorted (spaced : Spaced header (base + header) blocks) :
    (base :: blocks.map Prod.fst).Pairwise (· < ·) := by
  have general : ∀ (blocks : List Block) (low : Nat), Spaced header low blocks →
      (blocks.map Prod.fst).Pairwise (· < ·) ∧ ∀ x ∈ blocks.map Prod.fst, low ≤ x := by
    intro blocks
    induction blocks with
    | nil => exact fun _ _ => ⟨List.Pairwise.nil, fun x inside => (by cases inside)⟩
    | cons b rest ih =>
      intro low spaced
      obtain ⟨sorted, above⟩ := ih _ spaced.2.2
      have first := spaced.1
      refine ⟨List.pairwise_cons.mpr ⟨fun x inside => ?_, sorted⟩, fun x inside => ?_⟩
      · have beyond := above x inside
        simp only [finish] at beyond
        omega
      · rcases List.mem_cons.mp inside with rfl | later
        · exact first
        · have beyond := above x later
          simp only [finish] at beyond
          omega
  obtain ⟨sorted, above⟩ := general blocks _ spaced
  refine List.pairwise_cons.mpr ⟨fun x inside => ?_, sorted⟩
  have beyond := above x inside
  simp only [header] at beyond
  omega

theorem findPlace_spec (path : Path m base (left ++ right) base)
    (sorted : (base :: (left ++ right).map Prod.fst).Pairwise (· < ·))
    (lefts : ∀ x ∈ base :: left.map Prod.fst, x < bp) (rights : ∀ x ∈ right.map Prod.fst, bp < x)
    {p : Nat} (node : p ∈ base :: (left ++ right).map Prod.fst)
    (enough : (left ++ right).length + 2 ≤ fuel) :
    findPlace m bp fuel p = some (lastAddr base left) := by
  obtain ⟨links, tail⟩ := path_append.mp path
  have nodes : base :: (left ++ right).map Prod.fst =
      (base :: left.map Prod.fst) ++ right.map Prod.fst := by
    rw [List.map_append, List.cons_append]
  rw [nodes, List.pairwise_append] at sorted
  have below : lastAddr base left < bp := lefts _ lastAddr_mem
  have stops : Stops m bp (lastAddr base left) := by
    cases right with
    | nil =>
      -- the last node, whose next pointer goes back to base
      have wraps : m.ptr (lastAddr base left) = base := tail.2
      refine .inr ⟨?_, .inl below⟩
      rw [wraps]
      have node : lastAddr base left ∈ base :: left.map Prod.fst := lastAddr_mem
      rcases List.mem_cons.mp node with is | inside
      · rw [is]
      · exact Nat.le_of_lt ((List.pairwise_cons.mp sorted.1).1 _ inside)
    | cons r rest =>
      refine .inl ⟨below, ?_⟩
      rw [(path_cons.mp tail).1]
      exact rights r.1 List.mem_cons_self
  have goesLeft : ∀ x ∈ (base :: left.map Prod.fst).dropLast, ¬ Stops m bp x := by
    intro x inside
    obtain ⟨less, next⟩ := ptr_next links inside sorted.1
    have before := lefts _ (List.mem_cons_of_mem base next)
    rintro (⟨-, after⟩ | ⟨wraps, -⟩) <;> omega
  have fromFront : ∀ front back, left = front ++ back → ∀ fuel,
      findPlace m bp (fuel + 1 + back.length) (lastAddr base front) =
        some (lastAddr base left) := by
    intro front back is fuel
    subst is
    have goes : ∀ x ∈ (lastAddr base front :: back.map Prod.fst).dropLast, ¬ Stops m bp x := by
      intro x inside
      apply goesLeft
      have split : base :: (front ++ back).map Prod.fst =
          (base :: front.map Prod.fst).dropLast ++
            (lastAddr base front :: back.map Prod.fst) := by
        rw [List.map_append, ← List.cons_append]
        conv_lhs => rw [nodes_split]
        rw [List.append_assoc, List.singleton_append]
      rw [split, List.dropLast_append_of_ne_nil (List.cons_ne_nil _ _)]
      exact List.mem_append_right _ inside
    rw [findPlace_walk (links_append.mp links).2 goes, ← lastAddr_append]
    exact findPlace_stop stops
  rw [List.length_append] at enough
  rw [nodes] at node
  rcases List.mem_append.mp node with inLeft | inRight
  · obtain ⟨front, back, is, rfl⟩ := exists_front inLeft
    obtain ⟨spare, rfl⟩ : ∃ spare, fuel = spare + 1 + back.length := by
      have count := congrArg List.length is
      rw [List.length_append] at count
      exact ⟨fuel - 1 - back.length, by omega⟩
    exact fromFront front back is spare
  · -- the walk goes to the end of the list and starts again at base
    obtain ⟨front, back, is, rfl⟩ :=
      exists_front (List.mem_cons_of_mem (lastAddr base left) inRight)
    have upper : (lastAddr base left :: right.map Prod.fst).Pairwise (· < ·) :=
      List.pairwise_cons.mpr ⟨fun x inside => sorted.2.2 _ lastAddr_mem x inside, sorted.2.1⟩
    have goes : ∀ x ∈ right.map Prod.fst, ¬ Stops m bp x := by
      intro x inside
      have above := rights x inside
      have node : x ∈ lastAddr base left :: right.map Prod.fst := List.mem_cons_of_mem _ inside
      rw [nodes_split] at node
      rintro (⟨before, -⟩ | ⟨wraps, before | after⟩)
      · omega
      · omega
      · rcases List.mem_append.mp node with earlier | last
        · have less := (ptr_next tail.1 earlier upper).1
          omega
        · have ends := tail.2
          rw [← List.mem_singleton.mp last] at ends
          have low := lefts base List.mem_cons_self
          omega
    have backIn : ∀ x ∈ lastAddr (lastAddr base left) front :: back.map Prod.fst,
        x ∈ right.map Prod.fst := by
      intro x inside
      rcases List.mem_cons.mp inside with rfl | later
      · exact inRight
      · rw [is, List.map_append]
        exact List.mem_append_right _ later
    have count := congrArg List.length is
    rw [List.length_append] at count
    obtain ⟨spare, rfl⟩ : ∃ spare, fuel = spare + 1 + left.length + 1 + back.length :=
      ⟨fuel - 2 - left.length - back.length, by omega⟩
    have linked := tail.1
    rw [is, links_append] at linked
    rw [findPlace_walk linked.2 fun x inside =>
        goes x (backIn x ((List.dropLast_sublist _).subset inside)),
      findPlace_next (goes _ (backIn _ lastAddr_mem)), ← lastAddr_append, ← is, tail.2]
    exact fromFront [] left rfl spare

end Place

end Xv6.Malloc
