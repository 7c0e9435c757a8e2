import Mathlib.Data.List.Basic

/-! Circular doubly linked lists. A ring is a path of next and prev links from a
head through a list of nodes and back to the head. `unlink` and `pushFront` are the
four pointer assignments of an intrusive list, and `seek` follows one kind of link
until it finds a node or is back at the head. -/
namespace Xv6.LinkedRing

structure Links (Node : Type) where
  next : Node → Node
  prev : Node → Node

section Links
variable {Node : Type} [DecidableEq Node]

def Links.setNext (links : Links Node) (a b : Node) : Links Node :=
  { links with next := fun x => if x = a then b else links.next x }

def Links.setPrev (links : Links Node) (a b : Node) : Links Node :=
  { links with prev := fun x => if x = a then b else links.prev x }

/-- The neighbours of `b` point at each other. -/
def unlink (links : Links Node) (b : Node) : Links Node :=
  let links := links.setPrev (links.next b) (links.prev b)
  links.setNext (links.prev b) (links.next b)

/-- `b` becomes the node after the head. -/
def pushFront (links : Links Node) (head b : Node) : Links Node :=
  let links := links.setNext b (links.next head)
  let links := links.setPrev b head
  let links := links.setPrev (links.next head) b
  links.setNext head b

def seek (follow : Node → Node) (stop : Node) (wanted : Node → Bool) : Nat → Node → Option Node
  | 0, _ => none
  | fuel + 1, x =>
    if x = stop then none
    else if wanted x then some x
    else seek follow stop wanted fuel (follow x)

end Links

section Shape
variable {Node : Type}

/-- Links in both directions from `a` through the nodes of the list to `b`. -/
def Path (links : Links Node) : Node → List Node → Node → Prop
  | a, [], b => links.next a = b ∧ links.prev b = a
  | a, x :: rest, b => links.next a = x ∧ links.prev x = a ∧ Path links x rest b

structure IsRing (links : Links Node) (head : Node) (nodes : List Node) : Prop where
  path : Path links head nodes head
  nodup : (head :: nodes).Nodup

end Shape

section Paths
variable {Node : Type} {links after : Links Node} {a b c : Node} {nodes left right : List Node}

theorem path_append :
    Path links a (left ++ b :: right) c ↔ Path links a left b ∧ Path links b right c := by
  induction left generalizing a with
  | nil => simp [Path, and_assoc]
  | cons y rest ih => simp only [List.cons_append, Path, ih, and_assoc]

theorem path_congr (path : Path links a nodes b) (next : ∀ x ∈ a :: nodes, after.next x = links.next x)
    (prev : ∀ x ∈ nodes ++ [b], after.prev x = links.prev x) : Path after a nodes b := by
  induction nodes generalizing a with
  | nil =>
    refine ⟨?_, ?_⟩
    · rw [next a (List.mem_singleton.mpr rfl)]
      exact path.1
    · rw [prev b (List.mem_singleton.mpr rfl)]
      exact path.2
  | cons y rest ih =>
    obtain ⟨first, back, tail⟩ := path
    refine ⟨?_, ?_, ih tail ?_ ?_⟩
    · rw [next a List.mem_cons_self, first]
    · rw [prev y List.mem_cons_self, back]
    · exact fun x member => next x (List.mem_cons_of_mem _ member)
    · exact fun x member => prev x (List.mem_cons_of_mem _ member)

theorem path_prev_mem (path : Path links a nodes b) : links.prev b ∈ a :: nodes := by
  induction nodes generalizing a with
  | nil => simp [path.2]
  | cons y rest ih => exact List.mem_cons_of_mem _ (ih path.2.2)

theorem path_next_mem (path : Path links a nodes b) : links.next a ∈ nodes ++ [b] := by
  cases nodes with
  | nil => simp [path.1]
  | cons y rest => simp [path.1]

theorem path_redirect (path : Path links a nodes b) (nodup : (a :: nodes).Nodup)
    (turned : after.next (links.prev b) = c) (back : after.prev c = links.prev b)
    (next : ∀ x, x ≠ links.prev b → after.next x = links.next x)
    (prev : ∀ x ∈ nodes, after.prev x = links.prev x) : Path after a nodes c := by
  induction nodes generalizing a with
  | nil =>
    obtain ⟨_, last⟩ := path
    rw [last] at turned back
    exact ⟨turned, back⟩
  | cons y rest ih =>
    obtain ⟨first, before, tail⟩ := path
    obtain ⟨fresh, nodup'⟩ := List.nodup_cons.mp nodup
    -- The last node of the path lies behind `a`.
    have other : a ≠ links.prev b := fun same => fresh (same ▸ path_prev_mem tail)
    refine ⟨?_, ?_, ih tail nodup' fun x member => prev x (List.mem_cons_of_mem _ member)⟩
    · rw [next a other, first]
    · rw [prev y List.mem_cons_self, before]

theorem path_inverse (path : Path links a nodes b) :
    (∀ x ∈ a :: nodes, links.prev (links.next x) = x) ∧
      ∀ x ∈ nodes ++ [b], links.next (links.prev x) = x := by
  induction nodes generalizing a with
  | nil =>
    obtain ⟨first, last⟩ := path
    simp [first, last]
  | cons y rest ih =>
    obtain ⟨first, back, tail⟩ := path
    obtain ⟨ahead, behind⟩ := ih tail
    refine ⟨fun x member => ?_, fun x member => ?_⟩
    · rcases List.mem_cons.mp member with rfl | member
      · rw [first, back]
      · exact ahead x member
    · rcases List.mem_cons.mp member with rfl | member
      · rw [back, first]
      · exact behind x member

theorem ring_inverse {head : Node} (ring : IsRing links head nodes) (x : Node) (member : x ∈ head :: nodes) :
    links.prev (links.next x) = x ∧ links.next (links.prev x) = x := by
  obtain ⟨ahead, behind⟩ := path_inverse ring.path
  refine ⟨ahead x member, behind x ?_⟩
  simp only [List.mem_append, List.mem_cons, List.not_mem_nil, or_false] at member ⊢
  exact member.symm

end Paths

section Rings
variable {Node : Type} [DecidableEq Node] {links : Links Node} {b head : Node}
  {nodes left right : List Node}

theorem ring_unlink (ring : IsRing links head (left ++ b :: right)) :
    IsRing (unlink links b) head (left ++ right) := by
  obtain ⟨path, nodup⟩ := ring
  obtain ⟨before, behind⟩ := path_append.mp path
  have parts : (head :: left).Nodup ∧ (b :: right).Nodup ∧
      ∀ x ∈ head :: left, ∀ y ∈ b :: right, x ≠ y := List.nodup_append.mp nodup
  obtain ⟨nodupLeft, nodupRight, apart⟩ := parts
  have lastLeft : links.prev b ∈ head :: left := path_prev_mem before
  have firstRight : links.next b ∈ right ++ [head] := path_next_mem behind
  have notSelf : b ≠ links.next b := by
    intro same
    rw [← same] at firstRight
    rcases List.mem_append.mp firstRight with inRight | isHead
    · exact (List.nodup_cons.mp nodupRight).1 inRight
    · exact apart head List.mem_cons_self b List.mem_cons_self (List.mem_singleton.mp isHead).symm
  have shape : unlink links b = (links.setPrev (links.next b) (links.prev b)).setNext (links.prev b)
      (links.next b) := by
    simp only [unlink, Links.setPrev, if_neg notSelf]
  have next : ∀ x, x ≠ links.prev b → (unlink links b).next x = links.next x := by
    intro x other
    rw [shape]
    exact if_neg other
  have prev : ∀ x, x ≠ links.next b → (unlink links b).prev x = links.prev x := by
    intro x other
    rw [shape]
    exact if_neg other
  have turned : (unlink links b).next (links.prev b) = links.next b := by
    rw [shape]
    exact if_pos rfl
  have back : (unlink links b).prev (links.next b) = links.prev b := by
    rw [shape]
    exact if_pos rfl
  refine ⟨?_, ?_⟩
  · have start : Path (unlink links b) head left (links.next b) := by
      refine path_redirect before nodupLeft turned back next fun x member => prev x fun same => ?_
      rw [← same] at firstRight
      rcases List.mem_append.mp firstRight with inRight | isHead
      · exact apart x (List.mem_cons_of_mem _ member) x (List.mem_cons_of_mem _ inRight) rfl
      · rw [List.mem_singleton.mp isHead] at member
        exact (List.nodup_cons.mp nodupLeft).1 member
    cases right with
    | nil =>
      rw [behind.1] at start
      simpa using start
    | cons y rest =>
      obtain ⟨first, _, tail⟩ := behind
      rw [first] at start
      refine path_append.mpr ⟨start, path_congr tail (fun x member => next x fun same => ?_)
        fun x member => prev x fun same => ?_⟩
      · exact apart _ lastLeft x (List.mem_cons_of_mem _ member) same.symm
      · rw [first] at same
        rw [same] at member
        rcases List.mem_append.mp member with inRest | isHead
        · exact (List.nodup_cons.mp (List.nodup_cons.mp nodupRight).2).1 inRest
        · exact apart head List.mem_cons_self y (by simp) (List.mem_singleton.mp isHead).symm
  · refine List.nodup_append.mpr ⟨nodupLeft, (List.nodup_cons.mp nodupRight).2, ?_⟩
    exact fun x inLeft y inRight => apart x inLeft y (List.mem_cons_of_mem _ inRight)

theorem ring_pushFront (ring : IsRing links head nodes) (fresh : b ∉ head :: nodes) :
    IsRing (pushFront links head b) head (b :: nodes) := by
  obtain ⟨path, nodup⟩ := ring
  obtain ⟨notHead, notIn⟩ : b ≠ head ∧ b ∉ nodes := by simpa using fresh
  obtain ⟨headOut, nodup'⟩ := List.nodup_cons.mp nodup
  have firstIn := path_next_mem path
  have notFirst : b ≠ links.next head := by
    intro same
    rw [← same] at firstIn
    rcases List.mem_append.mp firstIn with member | isHead
    · exact notIn member
    · exact notHead (List.mem_singleton.mp isHead)
  have next : ∀ x, (pushFront links head b).next x =
      if x = head then b else if x = b then links.next head else links.next x := fun x => rfl
  have prev : ∀ x, (pushFront links head b).prev x =
      if x = links.next head then b else if x = b then head else links.prev x := by
    intro x
    simp only [pushFront, Links.setNext, Links.setPrev, if_neg notHead.symm]
  refine ⟨⟨?_, ?_, ?_⟩, ?_⟩
  · rw [next, if_pos rfl]
  · rw [prev, if_neg notFirst, if_pos rfl]
  · cases nodes with
    | nil =>
      refine ⟨?_, ?_⟩
      · rw [next, if_neg notHead, if_pos rfl]
        exact path.1
      · rw [prev, if_pos path.1.symm]
    | cons y rest =>
      obtain ⟨first, _, tail⟩ := path
      refine ⟨?_, ?_, path_congr tail (fun x member => ?_) fun x member => ?_⟩
      · rw [next, if_neg notHead, if_pos rfl, first]
      · rw [prev, if_pos first.symm]
      · have notTop : x ≠ head := by
          rintro rfl
          exact headOut member
        have notB : x ≠ b := by
          rintro rfl
          exact notIn member
        rw [next, if_neg notTop, if_neg notB]
      · have notY : x ≠ links.next head := by
          rw [first]
          intro same
          rw [same] at member
          rcases List.mem_append.mp member with inRest | isHead
          · exact (List.nodup_cons.mp nodup').1 inRest
          · exact headOut (List.mem_singleton.mp isHead ▸ List.mem_cons_self)
        have notB : x ≠ b := by
          intro same
          rw [same] at member
          rcases List.mem_append.mp member with inRest | isHead
          · exact notIn (List.mem_cons_of_mem _ inRest)
          · exact notHead (List.mem_singleton.mp isHead)
        rw [prev, if_neg notY, if_neg notB]
  · simp only [List.nodup_cons, List.mem_cons, not_or]
    exact ⟨⟨notHead.symm, headOut⟩, notIn, nodup'⟩

theorem ring_moveFront (ring : IsRing links head (left ++ b :: right)) :
    IsRing (pushFront (unlink links b) head b) head (b :: (left ++ right)) := by
  refine ring_pushFront (ring_unlink ring) fun member => ?_
  have nodup := ring.nodup
  rw [← List.cons_append, List.nodup_append] at nodup
  obtain ⟨_, nodupRight, apart⟩ := nodup
  rw [← List.cons_append] at member
  rcases List.mem_append.mp member with inLeft | inRight
  · exact apart b inLeft b List.mem_cons_self rfl
  · exact (List.nodup_cons.mp nodupRight).1 inRight

end Rings

section Seeking
variable {Node : Type} [DecidableEq Node] {links : Links Node} {follow : Node → Node}
  {wanted : Node → Bool} {a b head x : Node} {nodes : List Node} {fuel : Nat}

theorem seek_some (found : seek follow head wanted fuel a = some b) : b ≠ head ∧ wanted b = true := by
  induction fuel generalizing a with
  | zero => cases found
  | succ fuel ih =>
    unfold seek at found
    split at found
    · cases found
    · rename_i notHead
      split at found
      · rename_i hit
        cases found
        exact ⟨notHead, hit⟩
      · exact ih found

theorem seek_path_none (path : Path links a nodes head) (outside : head ∉ nodes)
    (enough : nodes.length < fuel) (missed : seek links.next head wanted fuel (links.next a) = none)
    (member : x ∈ nodes) : wanted x = false := by
  induction nodes generalizing a fuel with
  | nil => cases member
  | cons y rest ih =>
    obtain ⟨first, _, tail⟩ := path
    obtain ⟨notHead, outside'⟩ := not_or.mp (fun either => outside (List.mem_cons.mpr either))
    cases fuel with
    | zero => cases enough
    | succ fuel =>
      rw [first, seek, if_neg fun same => notHead same.symm] at missed
      split at missed
      · cases missed
      · rename_i miss
        rcases List.mem_cons.mp member with rfl | member
        · simpa using miss
        · exact ih tail outside' (Nat.lt_of_succ_lt_succ enough) missed member

theorem seek_ring_none (ring : IsRing links head nodes) (enough : nodes.length < fuel)
    (missed : seek links.next head wanted fuel (links.next head) = none) (member : x ∈ nodes) :
    wanted x = false :=
  seek_path_none ring.path (List.nodup_cons.mp ring.nodup).1 enough missed member

end Seeking

end Xv6.LinkedRing
