import Mathlib.Data.Set.Insert
import Mathlib.Logic.Function.Basic

/-! Exclusive ownership of marked cells. A table gives every slot the cell it
owns, with zero for none; the allocator marks cells of a region as used. The
ledger balances when each marked cell of the region has exactly one owner or is
spare: taken from the allocator and not yet entered in the table, or removed
from the table and not yet given back. -/
namespace Xv6.Ownership

variable {Slot : Type}

structure Ledger (region used : Nat → Prop) (own : Slot → Nat) (spare : Set Nat) : Prop where
  nonzero : ∀ b, region b → b ≠ 0
  injective : ∀ s t, own s ≠ 0 → own s = own t → s = t
  marked : ∀ s, own s ≠ 0 → region (own s) ∧ used (own s)
  pending : ∀ b ∈ spare, region b ∧ used b
  apart : ∀ b ∈ spare, ∀ s, own s ≠ b
  covered : ∀ b, region b → used b → b ∈ spare ∨ ∃ s, own s = b

section Rules
variable {region used : Nat → Prop} {own : Slot → Nat} {spare : Set Nat} {b : Nat}

theorem ledger_congr {used' : Nat → Prop} {own' : Slot → Nat}
    (ledger : Ledger region used own spare) (sameUsed : ∀ x, region x → (used' x ↔ used x))
    (sameOwn : own' = own) : Ledger region used' own' spare := by
  subst sameOwn
  refine ⟨ledger.nonzero, ledger.injective, ?_, ?_, ledger.apart, ?_⟩
  · intro s some
    obtain ⟨inside, mark⟩ := ledger.marked s some
    exact ⟨inside, (sameUsed _ inside).mpr mark⟩
  · intro x member
    obtain ⟨inside, mark⟩ := ledger.pending x member
    exact ⟨inside, (sameUsed x inside).mpr mark⟩
  · intro x inside mark
    exact ledger.covered x inside ((sameUsed x inside).mp mark)

theorem ledger_take (ledger : Ledger region used own spare) (inside : region b)
    (fresh : ¬ used b) : Ledger region (fun x => x = b ∨ used x) own (insert b spare) := by
  refine ⟨ledger.nonzero, ledger.injective, ?_, ?_, ?_, ?_⟩
  · exact fun s owner => ⟨(ledger.marked s owner).1, Or.inr (ledger.marked s owner).2⟩
  · rintro x (rfl | member)
    · exact ⟨inside, Or.inl rfl⟩
    · exact ⟨(ledger.pending x member).1, Or.inr (ledger.pending x member).2⟩
  · rintro x (rfl | member) s same
    · subst same
      exact fresh (ledger.marked s (ledger.nonzero _ inside)).2
    · exact ledger.apart x member s same
  · rintro x area (rfl | mark)
    · exact Or.inl (Set.mem_insert x spare)
    · exact (ledger.covered x area mark).imp_left (Set.mem_insert_of_mem b)

theorem ledger_give (ledger : Ledger region used own spare) (member : b ∈ spare) :
    Ledger region (fun x => x ≠ b ∧ used x) own (spare \ {b}) := by
  refine ⟨ledger.nonzero, ledger.injective, ?_, ?_, ?_, ?_⟩
  · intro s owner
    obtain ⟨inside, mark⟩ := ledger.marked s owner
    exact ⟨inside, ledger.apart b member s, mark⟩
  · rintro x ⟨old, other⟩
    exact ⟨(ledger.pending x old).1, other, (ledger.pending x old).2⟩
  · exact fun x old => ledger.apart x old.1
  · rintro x inside ⟨other, mark⟩
    exact (ledger.covered x inside mark).imp_left fun old => ⟨old, other⟩

theorem ledger_attach {own' : Slot → Nat} (ledger : Ledger region used own spare)
    (member : b ∈ spare) {s : Slot} (empty : own s = 0) (now : own' s = b)
    (others : ∀ t, t ≠ s → own' t = own t) : Ledger region used own' (spare \ {b}) := by
  have notOwned := ledger.apart b member
  refine ⟨ledger.nonzero, ?_, ?_, fun x old => ledger.pending x old.1, ?_, ?_⟩
  · intro t u owner same
    by_cases atT : t = s
    · by_cases atU : u = s
      · rw [atT, atU]
      · rw [atT, now, others u atU] at same
        exact absurd same.symm (notOwned u)
    · rw [others t atT] at owner same
      by_cases atU : u = s
      · rw [atU, now] at same
        exact absurd same (notOwned t)
      · rw [others u atU] at same
        exact ledger.injective t u owner same
  · intro t owner
    by_cases here : t = s
    · rw [here, now]
      exact ledger.pending b member
    · rw [others t here] at owner ⊢
      exact ledger.marked t owner
  · rintro x ⟨old, other⟩ t same
    by_cases here : t = s
    · rw [here, now] at same
      exact other same.symm
    · rw [others t here] at same
      exact ledger.apart x old t same
  · intro x area mark
    by_cases here : x = b
    · exact Or.inr ⟨s, by rw [now, here]⟩
    · rcases ledger.covered x area mark with old | ⟨t, owner⟩
      · exact Or.inl ⟨old, here⟩
      · refine Or.inr ⟨t, ?_⟩
        rw [others t ?_, owner]
        rintro rfl
        exact ledger.nonzero x area (owner.symm.trans empty)

theorem ledger_detach (own' : Slot → Nat) (dropped : Set Slot)
    (ledger : Ledger region used own spare) (gone : ∀ s ∈ dropped, own' s = 0)
    (kept : ∀ s, s ∉ dropped → own' s = own s) :
    Ledger region used own' (spare ∪ {b | b ≠ 0 ∧ ∃ s ∈ dropped, own s = b}) := by
  have still : ∀ s, own' s ≠ 0 → s ∉ dropped ∧ own' s = own s := by
    intro s some
    have stays : s ∉ dropped := fun member => some (gone s member)
    exact ⟨stays, kept s stays⟩
  refine ⟨ledger.nonzero, ?_, ?_, ?_, ?_, ?_⟩
  · intro s t some same
    have here := (still s some).2
    have there := (still t (same ▸ some)).2
    exact ledger.injective s t (here ▸ some) (here ▸ there ▸ same)
  · intro s some
    have here := (still s some).2
    rw [here]
    exact ledger.marked s (here ▸ some)
  · rintro x (old | ⟨some, s, _, rfl⟩)
    · exact ledger.pending x old
    · exact ledger.marked s some
  · rintro x (old | ⟨some, s, member, rfl⟩) t same
    · have owner : own' t ≠ 0 := same ▸ ledger.nonzero x (ledger.pending x old).1
      rw [(still t owner).2] at same
      exact ledger.apart x old t same
    · have owner : own' t ≠ 0 := same ▸ some
      obtain ⟨stays, whole⟩ := still t owner
      rw [whole] at same
      exact stays (ledger.injective s t some same.symm ▸ member)
  · intro x area mark
    rcases ledger.covered x area mark with old | ⟨s, owner⟩
    · exact Or.inl (Or.inl old)
    · by_cases member : s ∈ dropped
      · exact Or.inl (Or.inr ⟨ledger.nonzero x area, s, member, owner⟩)
      · exact Or.inr ⟨s, by rw [kept s member, owner]⟩

end Rules

end Xv6.Ownership
