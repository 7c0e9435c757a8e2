import Mathlib.Algebra.Order.Ring.Int
import Mathlib.Data.List.Basic
import Mathlib.Order.Nat

/-! Lists of blocks of cells, each cell of `width` bytes: sorted by address, disjoint, and
with a gap between neighbours. A block is inserted by merging it with the neighbours
that it touches. -/
namespace Xv6.Intervals

/-- The address and the number of cells. -/
abbrev Block := Nat × Nat

variable {width low : Nat} {a b c : Block} {left right blocks : List Block}

def finish (width : Nat) (b : Block) : Nat := b.1 + b.2 * width

def Apart (width : Nat) (a b : Block) : Prop := finish width a ≤ b.1 ∨ finish width b ≤ a.1

/-- Neighbours do not even touch. -/
def Spaced (width : Nat) : Nat → List Block → Prop
  | _, [] => True
  | low, b :: rest => low ≤ b.1 ∧ 0 < b.2 ∧ Spaced width (finish width b + 1) rest

def total (blocks : List Block) : Nat := (blocks.map Prod.snd).sum

def mergeRight (width : Nat) (b : Block) : List Block → Block × List Block
  | [] => (b, [])
  | r :: rest => if finish width b = r.1 then ((b.1, b.2 + r.2), rest) else (b, r :: rest)

def mergeLeft (width : Nat) (left : List Block) (b : Block) (right : List Block) : List Block :=
  match left.getLast? with
  | some l =>
    if finish width l = b.1 then left.dropLast ++ (l.1, l.2 + b.2) :: right
    else left ++ b :: right
  | none => b :: right

def insert (width : Nat) (left : List Block) (b : Block) (right : List Block) : List Block :=
  mergeLeft width left (mergeRight width b right).1 (mergeRight width b right).2

/-- A block that lies in one of others. -/
def Part (width : Nat) (blocks : List Block) (x : Block) : Prop :=
  ∃ y ∈ blocks, y.1 ≤ x.1 ∧ finish width x ≤ finish width y

/-- The least address after some blocks. -/
def top (width : Nat) : Nat → List Block → Nat
  | low, [] => low
  | _, b :: rest => top width (finish width b + 1) rest

theorem part_self (inside : b ∈ blocks) : Part width blocks b := ⟨b, inside, le_rfl, le_rfl⟩

theorem apart_symm (apart : Apart width a b) : Apart width b a := apart.symm

theorem finish_merge (touch : finish width a = b.1) :
    finish width (a.1, a.2 + b.2) = finish width b := by
  simp only [finish] at touch ⊢
  rw [Nat.add_mul]
  omega

theorem spaced_mono {low' : Nat} (spaced : Spaced width low blocks) (le : low' ≤ low) :
    Spaced width low' blocks := by
  cases blocks with
  | nil => trivial
  | cons b rest => exact ⟨le.trans spaced.1, spaced.2⟩

theorem spaced_append :
    Spaced width low (left ++ right) ↔
      Spaced width low left ∧ Spaced width (top width low left) right := by
  induction left generalizing low with
  | nil => exact ⟨fun spaced => ⟨trivial, spaced⟩, fun both => both.2⟩
  | cons b rest ih =>
    simp only [List.cons_append, Spaced, top, ih, and_assoc]

theorem spaced_low (spaced : Spaced width low blocks) (inside : b ∈ blocks) : low ≤ b.1 := by
  induction blocks generalizing low with
  | nil => cases inside
  | cons c rest ih =>
    rcases List.mem_cons.mp inside with rfl | later
    · exact spaced.1
    · have beyond := ih spaced.2.2 later
      have first := spaced.1
      simp only [finish] at beyond
      have positive : 0 ≤ c.2 * width := Nat.zero_le _
      omega

theorem spaced_pos (spaced : Spaced width low blocks) (inside : b ∈ blocks) : 0 < b.2 := by
  induction blocks generalizing low with
  | nil => cases inside
  | cons c rest ih =>
    rcases List.mem_cons.mp inside with rfl | later
    · exact spaced.2.1
    · exact ih spaced.2.2 later

theorem spaced_lt (spaced : Spaced width low (left ++ b :: right)) :
    (∀ l ∈ left, finish width l < b.1) ∧ ∀ r ∈ right, finish width b < r.1 := by
  induction left generalizing low with
  | nil => exact ⟨fun l inside => (by cases inside), fun r inside => spaced_low spaced.2.2 inside⟩
  | cons c rest ih =>
    obtain ⟨before, after⟩ := ih spaced.2.2
    refine ⟨fun l inside => ?_, after⟩
    rcases List.mem_cons.mp inside with rfl | later
    · exact spaced_low spaced.2.2 (List.mem_append_right rest List.mem_cons_self)
    · exact before l later

theorem spaced_remove (spaced : Spaced width low (left ++ b :: right)) :
    Spaced width low (left ++ right) := by
  rw [spaced_append] at spaced ⊢
  refine ⟨spaced.1, spaced_mono spaced.2.2.2 ?_⟩
  have first := spaced.2.1
  simp only [finish]
  omega

theorem spaced_shrink {size : Nat} (spaced : Spaced width low (left ++ b :: right))
    (positive : 0 < size) (le : size ≤ b.2) : Spaced width low (left ++ (b.1, size) :: right) := by
  rw [spaced_append] at spaced ⊢
  refine ⟨spaced.1, spaced.2.1, positive, spaced_mono spaced.2.2.2 ?_⟩
  have less := Nat.mul_le_mul_right width le
  simp only [finish]
  omega

theorem exists_place (spaced : Spaced width low blocks) (apart : ∀ c ∈ blocks, Apart width b c) :
    ∃ left right, blocks = left ++ right ∧ (∀ l ∈ left, finish width l ≤ b.1) ∧
      ∀ r ∈ right, finish width b ≤ r.1 := by
  induction blocks generalizing low with
  | nil => exact ⟨[], [], rfl, fun _ inside => (by cases inside), fun _ inside => (by cases inside)⟩
  | cons c rest ih =>
    by_cases before : finish width c ≤ b.1
    · obtain ⟨left, right, is, lefts, rights⟩ :=
        ih spaced.2.2 fun d inside => apart d (List.mem_cons_of_mem c inside)
      refine ⟨c :: left, right, by rw [is, List.cons_append], ?_, rights⟩
      intro l inside
      rcases List.mem_cons.mp inside with rfl | later
      · exact before
      · exact lefts l later
    · have after : finish width b ≤ c.1 := by
        rcases apart c List.mem_cons_self with after | impossible
        · exact after
        · exact absurd impossible before
      refine ⟨[], c :: rest, rfl, fun _ inside => (by cases inside), ?_⟩
      intro r inside
      rcases List.mem_cons.mp inside with rfl | later
      · exact after
      · have beyond := spaced_low spaced.2.2 later
        simp only [finish] at beyond after ⊢
        omega

theorem spaced_length {high : Nat} (wide : 0 < width) (spaced : Spaced width low blocks)
    (below : ∀ b ∈ blocks, finish width b ≤ high) (le : low ≤ high) :
    low + blocks.length ≤ high := by
  induction blocks generalizing low with
  | nil => exact le
  | cons b rest ih =>
    have ends := below b List.mem_cons_self
    have cells := Nat.mul_pos spaced.2.1 wide
    have first := spaced.1
    have size : finish width b = b.1 + b.2 * width := rfl
    cases rest with
    | nil =>
      simp only [List.length_singleton]
      omega
    | cons c others =>
      have next : finish width b + 1 ≤ c.1 := spaced.2.2.1
      have after := below c (List.mem_cons_of_mem b List.mem_cons_self)
      have grows : c.1 ≤ finish width c := Nat.le_add_right _ _
      have tail := ih spaced.2.2 (fun d inside => below d (List.mem_cons_of_mem b inside))
        (by omega)
      rw [List.length_cons]
      omega

section Merge

theorem mergeRight_spaced (spaced : Spaced width low right)
    (fits : ∀ r ∈ right, finish width b ≤ r.1) :
    Spaced width (finish width (mergeRight width b right).1 + 1) (mergeRight width b right).2 := by
  cases right with
  | nil => trivial
  | cons r rest =>
    rw [mergeRight]
    by_cases touch : finish width b = r.1
    · rw [if_pos touch]
      change Spaced width (finish width (b.1, b.2 + r.2) + 1) rest
      rw [finish_merge touch]
      exact spaced.2.2
    · rw [if_neg touch]
      have le := fits r List.mem_cons_self
      exact ⟨by change finish width b + 1 ≤ r.1; omega, spaced.2⟩

theorem mergeRight_fst : (mergeRight width b right).1.1 = b.1 := by
  cases right with
  | nil => rfl
  | cons r rest =>
    rw [mergeRight]
    split <;> rfl

theorem mergeRight_size : b.2 ≤ (mergeRight width b right).1.2 := by
  cases right with
  | nil => exact le_rfl
  | cons r rest =>
    rw [mergeRight]
    split
    · exact Nat.le_add_right _ _
    · exact le_rfl

theorem mergeRight_total :
    (mergeRight width b right).1.2 + total (mergeRight width b right).2 = b.2 + total right := by
  cases right with
  | nil => rfl
  | cons r rest =>
    rw [mergeRight]
    split
    · simp only [total, List.map_cons, List.sum_cons]
      omega
    · rfl

theorem mergeRight_subset : ∀ c ∈ (mergeRight width b right).2, c ∈ right := by
  cases right with
  | nil => exact fun c inside => inside
  | cons r rest =>
    rw [mergeRight]
    split
    · exact fun c inside => List.mem_cons_of_mem r inside
    · exact fun c inside => inside

theorem mergeRight_finish {high : Nat} (first : finish width b ≤ high)
    (all : ∀ r ∈ right, finish width r ≤ high) :
    finish width (mergeRight width b right).1 ≤ high := by
  cases right with
  | nil => exact first
  | cons r rest =>
    rw [mergeRight]
    split
    · rename_i touch
      change finish width (b.1, b.2 + r.2) ≤ high
      rw [finish_merge touch]
      exact all r List.mem_cons_self
    · exact first

theorem mergeLeft_concat (front : List Block) (l : Block) :
    mergeLeft width (front ++ [l]) b right =
      if finish width l = b.1 then front ++ (l.1, l.2 + b.2) :: right
      else front ++ l :: b :: right := by
  simp [mergeLeft]

theorem mergeLeft_spaced (spaced : Spaced width low left)
    (fits : ∀ l ∈ left, finish width l ≤ b.1) (above : low ≤ b.1) (positive : 0 < b.2)
    (rest : Spaced width (finish width b + 1) right) :
    Spaced width low (mergeLeft width left b right) := by
  rcases List.eq_nil_or_concat' left with rfl | ⟨front, l, rfl⟩
  · exact ⟨above, positive, rest⟩
  · rw [mergeLeft_concat]
    rw [spaced_append] at spaced
    by_cases touch : finish width l = b.1
    · rw [if_pos touch, spaced_append]
      refine ⟨spaced.1, spaced.2.1, Nat.add_pos_left spaced.2.2.1 _, ?_⟩
      rw [finish_merge touch]
      exact rest
    · have le := fits l (List.mem_append_right front (List.mem_singleton_self l))
      rw [if_neg touch, spaced_append]
      exact ⟨spaced.1, spaced.2.1, spaced.2.2.1, by omega, positive, rest⟩

theorem mergeLeft_total : total (mergeLeft width left b right) =
    total left + b.2 + total right := by
  rcases List.eq_nil_or_concat' left with rfl | ⟨front, l, rfl⟩
  · simp [mergeLeft, total]
  · rw [mergeLeft_concat]
    split
    · simp only [total, List.map_append, List.map_cons, List.map_nil, List.sum_append,
        List.sum_cons, List.sum_nil]
      omega
    · simp only [total, List.map_append, List.map_cons, List.map_nil, List.sum_append,
        List.sum_cons, List.sum_nil]
      omega

theorem insert_spaced (spaced : Spaced width low (left ++ right))
    (lefts : ∀ l ∈ left, finish width l ≤ b.1) (rights : ∀ r ∈ right, finish width b ≤ r.1)
    (above : low ≤ b.1) (positive : 0 < b.2) :
    Spaced width low (insert width left b right) := by
  rw [spaced_append] at spaced
  have first := @mergeRight_fst width b right
  refine mergeLeft_spaced spaced.1 ?_ ?_ (positive.trans_le mergeRight_size)
    (mergeRight_spaced spaced.2 rights)
  · rw [first]
    exact lefts
  · rw [first]
    exact above

theorem insert_total : total (insert width left b right) = total (left ++ right) + b.2 := by
  have merged := @mergeRight_total width b right
  rw [insert, mergeLeft_total]
  simp only [total, List.map_append, List.sum_append] at merged ⊢
  omega

/-- What holds of the blocks, and of two that touch also of their union, holds after an
insertion. -/
theorem insert_all (property : Block → Prop)
    (union : ∀ a b, property a → property b → finish width a = b.1 → property (a.1, a.2 + b.2))
    (all : ∀ c ∈ left ++ right, property c) (this : property b) :
    ∀ c ∈ insert width left b right, property c := by
  have merged : property (mergeRight width b right).1 ∧
      ∀ c ∈ (mergeRight width b right).2, property c := by
    have rights : ∀ c ∈ right, property c := fun c inside => all c (List.mem_append_right left inside)
    cases right with
    | nil => exact ⟨this, fun c inside => (by cases inside)⟩
    | cons r rest =>
      rw [mergeRight]
      split
      · rename_i touch
        exact ⟨union b r this (rights r List.mem_cons_self) touch,
          fun c inside => rights c (List.mem_cons_of_mem r inside)⟩
      · exact ⟨this, rights⟩
  have lefts : ∀ c ∈ left, property c := fun c inside => all c (List.mem_append_left right inside)
  intro c inside
  rw [insert] at inside
  rcases List.eq_nil_or_concat' left with rfl | ⟨front, l, rfl⟩
  · rcases List.mem_cons.mp inside with rfl | later
    · exact merged.1
    · exact merged.2 c later
  · rw [mergeLeft_concat] at inside
    have last := lefts l (List.mem_append_right front (List.mem_singleton_self l))
    have fronts : ∀ d ∈ front, property d := fun d within => lefts d (List.mem_append_left _ within)
    split at inside
    · rename_i touch
      rcases List.mem_append.mp inside with earlier | later
      · exact fronts c earlier
      · rcases List.mem_cons.mp later with rfl | beyond
        · exact union l _ last merged.1 touch
        · exact merged.2 c beyond
    · rcases List.mem_append.mp inside with earlier | later
      · exact fronts c earlier
      · rcases List.mem_cons.mp later with rfl | beyond
        · exact last
        · rcases List.mem_cons.mp beyond with rfl | beyond
          · exact merged.1
          · exact merged.2 c beyond

theorem insert_length :
    (insert width left b right).length ≤ (left ++ right).length + 1 := by
  have merged : (mergeRight width b right).2.length ≤ right.length := by
    cases right with
    | nil => exact le_rfl
    | cons r rest =>
      rw [mergeRight]
      split
      · exact Nat.le_succ _
      · exact le_rfl
  rw [insert]
  rcases List.eq_nil_or_concat' left with rfl | ⟨front, l, rfl⟩
  · simp only [mergeLeft, List.getLast?_nil, List.length_cons, List.nil_append]
    omega
  · rw [mergeLeft_concat]
    split
    · simp only [List.length_append, List.length_cons, List.length_nil]
      omega
    · simp only [List.length_append, List.length_cons, List.length_nil]
      omega

theorem insert_large : ∃ c ∈ insert width left b right, b.2 ≤ c.2 := by
  have size := @mergeRight_size width b right
  rw [insert]
  rcases List.eq_nil_or_concat' left with rfl | ⟨front, l, rfl⟩
  · exact ⟨_, List.mem_cons_self, size⟩
  · rw [mergeLeft_concat]
    split
    · exact ⟨_, List.mem_append_right _ List.mem_cons_self, size.trans (Nat.le_add_left _ _)⟩
    · exact ⟨_, List.mem_append_right _ (List.mem_cons_of_mem _ List.mem_cons_self), size⟩

theorem apart_ne (wide : 0 < width) (first : 0 < a.2) (second : 0 < b.2)
    (apart : Apart width a b) : a.1 ≠ b.1 := by
  have cellsA := Nat.mul_pos first wide
  have cellsB := Nat.mul_pos second wide
  simp only [Apart, finish] at apart
  omega

theorem apart_part (apart : Apart width c b) (starts : b.1 ≤ a.1)
    (ends : finish width a ≤ finish width b) : Apart width c a := by
  simp only [Apart] at apart ⊢
  omega

theorem apart_union (wide : 0 < width) (positive : 0 < c.2) (touch : finish width a = b.1)
    (first : Apart width c a) (second : Apart width c b) : Apart width c (a.1, a.2 + b.2) := by
  have grows : c.1 < finish width c := by
    have cells := Nat.mul_pos positive wide
    simp only [finish]
    omega
  have ends := finish_merge touch
  simp only [Apart] at first second ⊢
  rw [ends]
  have bounds : b.1 ≤ finish width b := Nat.le_add_right _ _
  omega

end Merge

end Xv6.Intervals
