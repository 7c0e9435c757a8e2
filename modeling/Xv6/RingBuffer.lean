import Mathlib.Data.Nat.ModEq

/-! Ring buffers with two free-running counters. The counters wrap at `modulus`, the
cells are indexed by remainder modulo `size`, and `size` divides `modulus`, so the
cells stay in step when a counter wraps. -/
namespace Xv6.RingBuffer

universe u
variable {α : Type u} {size modulus : Nat}

structure Buffer (α : Type u) where
  cells : Nat → α
  nread : Nat
  nwrite : Nat

def push (size modulus : Nat) (ring : Buffer α) (x : α) : Buffer α :=
  { ring with
    cells := fun i => if i = ring.nwrite % size then x else ring.cells i
    nwrite := (ring.nwrite + 1) % modulus }

def front (size : Nat) (ring : Buffer α) : α := ring.cells (ring.nread % size)

def pop (modulus : Nat) (ring : Buffer α) : Buffer α :=
  { ring with nread := (ring.nread + 1) % modulus }

/-- The difference of the counters modulo `modulus`. -/
def used (modulus : Nat) (ring : Buffer α) : Nat := (ring.nwrite + modulus - ring.nread) % modulus

/-- The buffered elements, oldest first. -/
def content (size modulus : Nat) (ring : Buffer α) : List α :=
  (List.range (used modulus ring)).map fun k => ring.cells ((ring.nread + k) % size)

/-- At most `size` elements lie between the counters. -/
structure Fits (size modulus : Nat) (ring : Buffer α) : Prop where
  bound : ring.nread < modulus
  ahead : ∃ n ≤ size, ring.nwrite = (ring.nread + n) % modulus

section Rules
variable {ring : Buffer α} {x : α} {n : Nat}

theorem used_eq (bound : ring.nread < modulus) (small : n < modulus)
    (ahead : ring.nwrite = (ring.nread + n) % modulus) : used modulus ring = n := by
  rw [used, ahead]
  by_cases wraps : ring.nread + n < modulus
  · rw [Nat.mod_eq_of_lt wraps, show ring.nread + n + modulus - ring.nread = n + modulus by omega,
      Nat.add_mod_right, Nat.mod_eq_of_lt small]
  · have once : (ring.nread + n) % modulus = ring.nread + n - modulus := by
      rw [Nat.mod_eq_sub_mod (by omega), Nat.mod_eq_of_lt (by omega)]
    rw [once, show ring.nread + n - modulus + modulus - ring.nread = n by omega,
      Nat.mod_eq_of_lt small]

theorem used_le (fits : Fits size modulus ring) (room : size < modulus) :
    used modulus ring ≤ size := by
  obtain ⟨n, le, ahead⟩ := fits.ahead
  rw [used_eq fits.bound (by omega) ahead]
  exact le

theorem used_lt (fits : Fits size modulus ring) (room : size < modulus)
    (notFull : ring.nwrite ≠ (ring.nread + size) % modulus) : used modulus ring < size := by
  obtain ⟨n, le, ahead⟩ := fits.ahead
  rw [used_eq fits.bound (by omega) ahead]
  refine lt_of_le_of_ne le fun same => notFull ?_
  rw [ahead, same]

theorem used_pos (fits : Fits size modulus ring) (room : size < modulus)
    (notEmpty : ring.nread ≠ ring.nwrite) : 0 < used modulus ring := by
  obtain ⟨n, le, ahead⟩ := fits.ahead
  rw [used_eq fits.bound (by omega) ahead]
  refine Nat.pos_of_ne_zero fun none => notEmpty ?_
  rw [ahead, none, Nat.add_zero, Nat.mod_eq_of_lt fits.bound]

theorem nwrite_eq (fits : Fits size modulus ring) (room : size < modulus) :
    ring.nwrite = (ring.nread + used modulus ring) % modulus := by
  obtain ⟨n, le, ahead⟩ := fits.ahead
  rw [used_eq fits.bound (by omega) ahead]
  exact ahead

theorem fits_push (fits : Fits size modulus ring) (room : size < modulus)
    (less : used modulus ring < size) (x : α) :
    Fits size modulus (push size modulus ring x) ∧
      used modulus (push size modulus ring x) = used modulus ring + 1 := by
  have ahead : (push size modulus ring x).nwrite =
      ((push size modulus ring x).nread + (used modulus ring + 1)) % modulus := by
    simp only [push]
    rw [nwrite_eq fits room, Nat.mod_add_mod, Nat.add_assoc]
  exact ⟨⟨fits.bound, _, less, ahead⟩, used_eq fits.bound (by omega) ahead⟩

theorem fits_pop (fits : Fits size modulus ring) (room : size < modulus)
    (more : 0 < used modulus ring) :
    Fits size modulus (pop modulus ring) ∧ used modulus (pop modulus ring) + 1 = used modulus ring := by
  have le := used_le fits room
  have bound : (pop modulus ring).nread < modulus := Nat.mod_lt _ (by omega)
  have ahead : (pop modulus ring).nwrite =
      ((pop modulus ring).nread + (used modulus ring - 1)) % modulus := by
    simp only [pop]
    rw [nwrite_eq fits room, Nat.mod_add_mod,
      show ring.nread + 1 + (used modulus ring - 1) = ring.nread + used modulus ring by omega]
  refine ⟨⟨bound, _, by omega, ahead⟩, ?_⟩
  rw [used_eq bound (by omega) ahead]
  omega

theorem content_push (fits : Fits size modulus ring) (room : size < modulus)
    (divides : size ∣ modulus) (less : used modulus ring < size) (x : α) :
    content size modulus (push size modulus ring x) = content size modulus ring ++ [x] := by
  rw [content, (fits_push fits room less x).2, List.range_succ, List.map_append, content]
  have last : ring.nwrite % size = (ring.nread + used modulus ring) % size := by
    rw [nwrite_eq fits room, Nat.mod_mod_of_dvd _ divides]
  congr 1
  · -- the cells in use are not the one that is written
    apply List.map_congr_left
    intro k below
    rw [List.mem_range] at below
    have apart : (ring.nread + k) % size ≠ ring.nwrite % size := by
      rw [last]
      intro same
      have close : k ≡ used modulus ring [MOD size] := Nat.ModEq.add_left_cancel' ring.nread same
      have equal := close.eq_of_lt_of_lt (by omega) less
      omega
    simp only [push, if_neg apart]
  · simp [push, last]

theorem content_pop (fits : Fits size modulus ring) (room : size < modulus)
    (divides : size ∣ modulus) (more : 0 < used modulus ring) :
    content size modulus ring = front size ring :: content size modulus (pop modulus ring) := by
  have count := (fits_pop fits room more).2
  rw [content, ← count, List.range_succ_eq_map, List.map_cons, content, List.map_map]
  refine congrArg₂ List.cons (by simp [front]) (List.map_congr_left fun k _ => ?_)
  have cell : ((pop modulus ring).nread + k) % size = (ring.nread + (k + 1)) % size := by
    simp only [pop]
    rw [← Nat.mod_mod_of_dvd _ divides, Nat.mod_add_mod, Nat.mod_mod_of_dvd _ divides,
      show ring.nread + 1 + k = ring.nread + (k + 1) by omega]
  rw [cell]
  rfl

end Rules

end Xv6.RingBuffer
