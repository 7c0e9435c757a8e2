import Mathlib.Logic.Function.Basic

/-! Linked nodes with one role each. The role of a node says which role the node at
each of its slots must have (`child`); some roles are `linked`: a node has one only
when a slot leads to it. Roles are unique, so what a slot leads to is known from the
roles alone. The rules say what attaching a node, detaching a node without children
and giving up a whole subtree keep. -/
namespace Xv6.RoleForest

universe u v w
variable {Node : Type u} {Slot : Type v} {Role : Type w}

structure Shape (Node : Type u) (Slot : Type v) (Role : Type w) where
  child : Role → Node → Slot → Option Role
  linked : Role → Prop
  child_linked : ∀ {role node slot r}, child role node slot = some r → linked r

structure Forest (shape : Shape Node Slot Role) (link : Node → Slot → Option Node)
    (role : Node → Role) : Prop where
  down : ∀ q s r p, shape.child (role q) q s = some r → link q s = some p → role p = r
  up : ∀ p, shape.linked (role p) →
    ∃ q s, shape.child (role q) q s = some (role p) ∧ link q s = some p

/-- A role with neither a parent nor children at a node. -/
def Shape.Loose (shape : Shape Node Slot Role) (r : Role) (p : Node) : Prop :=
  ¬ shape.linked r ∧ ∀ s, shape.child r p s = none

section Rules
variable {shape : Shape Node Slot Role} {link link' : Node → Slot → Option Node}
  {role role' : Node → Role} {p q : Node} {s : Slot} {r : Role}

theorem forest_congr (forest : Forest shape link role)
    (same : ∀ q s r, shape.child (role q) q s = some r → link' q s = link q s) :
    Forest shape link' role where
  down q s r p slot there := forest.down q s r p slot (same q s r slot ▸ there)
  up p linked := by
    obtain ⟨q, s, slot, there⟩ := forest.up p linked
    exact ⟨q, s, slot, same q s _ slot ▸ there⟩

/-- A set of nodes that holds a node of the forest exactly when it holds its parent is
given up: its nodes become loose. -/
theorem forest_prune (forest : Forest shape link role) (pruned : Node → Prop)
    (closed : ∀ q s r p, shape.child (role q) q s = some r → link q s = some p →
      (pruned p ↔ pruned q))
    (kept : ∀ q, ¬ pruned q → role' q = role q) (gone : ∀ q, pruned q → shape.Loose (role' q) q)
    (same : ∀ q s, ¬ pruned q → link' q s = link q s) : Forest shape link' role' := by
  constructor
  · intro q s r p slot there
    by_cases mine : pruned q
    · rw [(gone q mine).2] at slot
      cases slot
    · rw [kept q mine] at slot
      rw [same q s mine] at there
      rw [kept p fun theirs => mine ((closed q s r p slot there).mp theirs)]
      exact forest.down q s r p slot there
  · intro p linked
    by_cases mine : pruned p
    · exact ((gone p mine).1 linked).elim
    · rw [kept p mine] at linked ⊢
      obtain ⟨q, s, slot, there⟩ := forest.up p linked
      have stays : ¬ pruned q := fun theirs => mine ((closed q s _ p slot there).mpr theirs)
      exact ⟨q, s, by rw [kept q stays, slot], by rw [same q s stays, there]⟩

variable [DecidableEq Node]

theorem forest_update (forest : Forest shape link role) (loose : shape.Loose (role p) p)
    (loose' : shape.Loose r p) : Forest shape link (Function.update role p r) := by
  refine forest_prune forest (· = p) ?_ (fun q other => Function.update_of_ne other ..) ?_
    fun _ _ _ => rfl
  · intro q s child c slot there
    constructor
    · rintro rfl
      exact (loose.1 (forest.down q s child c slot there ▸ shape.child_linked slot)).elim
    · rintro rfl
      rw [loose.2] at slot
      cases slot
  · rintro q rfl
    rwa [Function.update_self]

theorem forest_root (forest : Forest shape link role) (loose : shape.Loose (role p) p)
    (root : ¬ shape.linked r) (blank : ∀ s, link' p s = none)
    (same : ∀ q s, q ≠ p → link' q s = link q s) :
    Forest shape link' (Function.update role p r) := by
  constructor
  · intro q s child c slot there
    have other : q ≠ p := by
      rintro rfl
      rw [blank] at there
      cases there
    rw [Function.update_of_ne other] at slot
    rw [same q s other] at there
    have is := forest.down q s child c slot there
    have away : c ≠ p := by
      rintro rfl
      exact loose.1 (is ▸ shape.child_linked slot)
    rw [Function.update_of_ne away, is]
  · intro c linked
    have away : c ≠ p := by
      rintro rfl
      rw [Function.update_self] at linked
      exact root linked
    rw [Function.update_of_ne away] at linked ⊢
    obtain ⟨q, s, slot, there⟩ := forest.up c linked
    have other : q ≠ p := by
      rintro rfl
      rw [loose.2] at slot
      cases slot
    exact ⟨q, s, by rwa [Function.update_of_ne other], by rwa [same q s other]⟩

theorem forest_attach (forest : Forest shape link role)
    (slot : shape.child (role q) q s = some r) (empty : link q s = none)
    (loose : shape.Loose (role p) p) (here : link' q s = some p)
    (same : ∀ q' s', q' ≠ p → ¬ (q' = q ∧ s' = s) → link' q' s' = link q' s')
    (blank : ∀ s', shape.child r p s' ≠ none → link' p s' = none) :
    Forest shape link' (Function.update role p r) := by
  have apart : q ≠ p := by
    rintro rfl
    rw [loose.2] at slot
    cases slot
  constructor
  · intro q' s' child c slot' there
    by_cases self : q' = p
    · subst self
      rw [Function.update_self] at slot'
      rw [blank s' (by simp [slot'])] at there
      cases there
    · rw [Function.update_of_ne self] at slot'
      by_cases new : q' = q ∧ s' = s
      · obtain ⟨rfl, rfl⟩ := new
        rw [slot] at slot'
        rw [here] at there
        cases slot'
        cases there
        rw [Function.update_self]
      · rw [same q' s' self new] at there
        have is := forest.down q' s' child c slot' there
        have away : c ≠ p := by
          rintro rfl
          exact loose.1 (is ▸ shape.child_linked slot')
        rw [Function.update_of_ne away, is]
  · intro c linked
    by_cases self : c = p
    · subst self
      exact ⟨q, s, by rw [Function.update_of_ne apart, Function.update_self, slot], here⟩
    · rw [Function.update_of_ne self] at linked ⊢
      obtain ⟨q', s', slot', there⟩ := forest.up c linked
      have other : q' ≠ p := by
        rintro rfl
        rw [loose.2] at slot'
        cases slot'
      have old : ¬ (q' = q ∧ s' = s) := by
        rintro ⟨rfl, rfl⟩
        rw [empty] at there
        cases there
      exact ⟨q', s', by rwa [Function.update_of_ne other], by rwa [same q' s' other old]⟩

theorem forest_detach (forest : Forest shape link role)
    (there : link q s = some p) (childless : ∀ s, shape.child (role p) p s = none)
    (only : ∀ q' s', shape.child (role q') q' s' = some (role p) → q' = q ∧ s' = s)
    (loose : shape.Loose r p) (gone : link' q s = none)
    (same : ∀ q' s', q' ≠ p → ¬ (q' = q ∧ s' = s) → link' q' s' = link q' s') :
    Forest shape link' (Function.update role p r) := by
  constructor
  · intro q' s' child c slot there'
    have other : q' ≠ p := by
      rintro rfl
      rw [Function.update_self, loose.2] at slot
      cases slot
    rw [Function.update_of_ne other] at slot
    have old : ¬ (q' = q ∧ s' = s) := by
      rintro ⟨rfl, rfl⟩
      rw [gone] at there'
      cases there'
    rw [same q' s' other old] at there'
    have is := forest.down q' s' child c slot there'
    have away : c ≠ p := by
      rintro rfl
      exact old (only q' s' (is ▸ slot))
    rw [Function.update_of_ne away, is]
  · intro c linked
    have away : c ≠ p := by
      rintro rfl
      rw [Function.update_self] at linked
      exact loose.1 linked
    rw [Function.update_of_ne away] at linked ⊢
    obtain ⟨q', s', slot, there'⟩ := forest.up c linked
    have other : q' ≠ p := by
      rintro rfl
      rw [childless] at slot
      cases slot
    have old : ¬ (q' = q ∧ s' = s) := by
      rintro ⟨rfl, rfl⟩
      rw [there] at there'
      exact away (Option.some.inj there').symm
    exact ⟨q', s', by rwa [Function.update_of_ne other], by rwa [same q' s' other old]⟩

end Rules

end Xv6.RoleForest
