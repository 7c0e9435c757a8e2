import Mathlib.Algebra.Order.Ring.Int
import Mathlib.Logic.Function.Basic

/-! The two functions memmove, of the kernel and of the user library. The kernel copies
downwards when the destination starts inside the source; the user library always copies
upwards, which repeats the first bytes of the source there. -/
namespace Xv6.MemMove

/-- The byte at each address. -/
abbrev Bytes := Nat → UInt8

/-- `while(n-- > 0) *d++ = *s++;` -/
def copyUp : (n d s : Nat) → Bytes → Bytes
  | 0, _, _, m => m
  | n + 1, d, s, m => copyUp n ((d + 1) % 2 ^ 64) ((s + 1) % 2 ^ 64) (Function.update m d (m s))

/-- `while(n-- > 0) *--d = *--s;` -/
def copyDown : (n d s : Nat) → Bytes → Bytes
  | 0, _, _, m => m
  | n + 1, d, s, m => copyDown n (d - 1) (s - 1) (Function.update m (d - 1) (m (s - 1)))

/-- memmove of the kernel, with n a uint. -/
def kernelMemmove (dst src n : Nat) (m : Bytes) : Nat × Bytes :=
  if src < dst ∧ (src + n) % 2 ^ 64 > dst then
    (dst, copyDown n ((dst + n) % 2 ^ 64) ((src + n) % 2 ^ 64) m)
  else (dst, copyUp n dst src m)

/-- memmove of the user library, with n an int: the loop does not start for a negative n. -/
def userMemmove (dst src n : Nat) (m : Bytes) : Nat × Bytes :=
  if n < 2 ^ 31 then (dst, copyUp n dst src m) else (dst, m)

/-- The memory in which the destination holds what the source held. -/
def moved (dst src n : Nat) (m : Bytes) : Bytes := fun a =>
  if dst ≤ a ∧ a < dst + n then m (src + (a - dst)) else m a

section Moved
variable {dst src n i a : Nat} {m : Bytes}

theorem moved_inside (low : i < n) : moved dst src n m (dst + i) = m (src + i) := by
  rw [moved, if_pos (by omega), Nat.add_sub_cancel_left]

theorem moved_outside (out : a < dst ∨ dst + n ≤ a) : moved dst src n m a = m a :=
  if_neg (by omega)

theorem eq_moved {next : Bytes} (inside : ∀ i < n, next (dst + i) = m (src + i))
    (outside : ∀ a, a < dst ∨ dst + n ≤ a → next a = m a) : next = moved dst src n m := by
  funext a
  by_cases within : dst ≤ a ∧ a < dst + n
  · obtain ⟨i, rfl⟩ := Nat.exists_eq_add_of_le within.1
    have low : i < n := by omega
    rw [inside i low, moved_inside low]
  · have out : a < dst ∨ dst + n ≤ a := by omega
    rw [outside a out, moved_outside out]

end Moved

section Copies
variable {n d s i a : Nat} {m : Bytes}

theorem copyUp_succ (low : d + (n + 1) < 2 ^ 64) (low' : s + (n + 1) < 2 ^ 64) :
    copyUp (n + 1) d s m = copyUp n (d + 1) (s + 1) (Function.update m d (m s)) := by
  rw [copyUp, Nat.mod_eq_of_lt (by omega), Nat.mod_eq_of_lt (by omega)]

theorem copyUp_outside (low : d + n < 2 ^ 64) (low' : s + n < 2 ^ 64)
    (out : a < d ∨ d + n ≤ a) : copyUp n d s m a = m a := by
  induction n generalizing d s m with
  | zero => rfl
  | succ n ih =>
    rw [copyUp_succ low low', ih (by omega) (by omega) (by omega),
      Function.update_of_ne (by omega)]

/-- A source that does not start below the destination is read before it is overwritten. -/
theorem copyUp_inside (low : d + n < 2 ^ 64) (low' : s + n < 2 ^ 64) (apart : d ≤ s ∨ s + n ≤ d)
    (within : i < n) : copyUp n d s m (d + i) = m (s + i) := by
  induction n generalizing d s m i with
  | zero => omega
  | succ n ih =>
    rw [copyUp_succ low low']
    cases i with
    | zero => rw [copyUp_outside (by omega) (by omega) (by omega), Nat.add_zero,
        Function.update_self, Nat.add_zero]
    | succ i =>
      have step := ih (d := d + 1) (s := s + 1) (m := Function.update m d (m s)) (i := i)
        (by omega) (by omega) (by omega) (by omega)
      rw [show d + 1 + i = d + (i + 1) by omega, show s + 1 + i = s + (i + 1) by omega] at step
      rw [step, Function.update_of_ne (by omega)]

theorem copyUp_repeats (low : d + n < 2 ^ 64) (below : s < d) (within : i < n) :
    copyUp n d s m (d + i) = copyUp n d s m (s + i) := by
  induction n generalizing d s m i with
  | zero => omega
  | succ n ih =>
    rw [copyUp_succ low (by omega)]
    cases i with
    | zero =>
      simp only [Nat.add_zero]
      rw [copyUp_outside (by omega) (by omega) (by omega), Function.update_self,
        copyUp_outside (by omega) (by omega) (by omega), Function.update_of_ne (by omega)]
    | succ i =>
      have step := ih (d := d + 1) (s := s + 1) (m := Function.update m d (m s)) (i := i)
        (by omega) (by omega) (by omega)
      rwa [show d + 1 + i = d + (i + 1) by omega,
        show s + 1 + i = s + (i + 1) by omega] at step

theorem copyDown_moved (below : s < d) : copyDown n (d + n) (s + n) m = moved d s n m := by
  induction n generalizing m with
  | zero => exact eq_moved (fun i low => by omega) fun a _ => rfl
  | succ n ih =>
    rw [copyDown, show d + (n + 1) - 1 = d + n by omega, show s + (n + 1) - 1 = s + n by omega, ih]
    refine eq_moved (fun i low => ?_) fun a out => ?_
    · by_cases last : i = n
      · rw [last, moved_outside (by omega), Function.update_self]
      · rw [moved_inside (by omega), Function.update_of_ne (by omega)]
    · rw [moved_outside (by omega), Function.update_of_ne (by omega)]

end Copies

section Move
variable {dst src n : Nat} {m : Bytes}

/-- The source repeats itself at the distance of the destination. -/
def Periodic (dst src n : Nat) (m : Bytes) : Prop :=
  src < dst → ∀ i, i + (dst - src) < n → m (src + (i + (dst - src))) = m (src + i)

theorem kernel_moves (source : src + n < 2 ^ 64) (target : dst + n < 2 ^ 64) :
    kernelMemmove dst src n m = (dst, moved dst src n m) := by
  rw [kernelMemmove, Nat.mod_eq_of_lt source, Nat.mod_eq_of_lt target]
  split
  · next overlap => rw [copyDown_moved overlap.1]
  · next apart =>
    rw [eq_moved (fun i low => copyUp_inside target source (by omega) low)
      fun a out => copyUp_outside target source out]

/-- Copying upwards moves the source exactly when what is overwritten early is the same. -/
theorem copyUp_moved_iff (source : src + n < 2 ^ 64) (target : dst + n < 2 ^ 64) :
    copyUp n dst src m = moved dst src n m ↔ Periodic dst src n m := by
  constructor
  · intro is below i low
    have repeats := copyUp_repeats (m := m) target below low
    rw [is, moved_inside low, show src + (i + (dst - src)) = dst + i by omega,
      moved_inside (by omega)] at repeats
    rwa [show dst + i = src + (i + (dst - src)) by omega] at repeats
  · intro periodic
    refine eq_moved (fun i => ?_) fun a out => copyUp_outside target source out
    by_cases below : src < dst
    -- every byte is the one a period below, down to those of the first period
    · induction i using Nat.strongRecOn with
      | ind i ih =>
        intro low
        rw [copyUp_repeats target below low]
        by_cases first : i < dst - src
        · exact copyUp_outside target source (by omega)
        · have earlier := ih (i - (dst - src)) (by omega) (by omega)
          have period := periodic below (i - (dst - src)) (by omega)
          rw [show i - (dst - src) + (dst - src) = i by omega] at period
          rw [show src + i = dst + (i - (dst - src)) by omega, earlier, ← period]
          congr 1
          omega
    · exact fun low => copyUp_inside target source (by omega) low

/-- Both functions move the source, and so agree, exactly when an upward copy does. -/
theorem memmove_iff (source : src + n < 2 ^ 64) (target : dst + n < 2 ^ 64) :
    (kernelMemmove dst src n m = (dst, moved dst src n m) ∧
      userMemmove dst src n m = (dst, moved dst src n m) ∧
      userMemmove dst src n m = kernelMemmove dst src n m) ↔
    if n < 2 ^ 31 then Periodic dst src n m else ∀ i < n, m (dst + i) = m (src + i) := by
  rw [kernel_moves source target, userMemmove]
  split
  · simp only [Prod.mk.injEq, true_and, and_self]
    exact copyUp_moved_iff source target
  · simp only [Prod.mk.injEq, true_and, and_self]
    constructor
    · intro same i low
      rw [congrFun same (dst + i), moved_inside low]
    · exact fun same => eq_moved same fun _ _ => rfl

theorem memmove_up : let m : Bytes := fun a => if a = 5 then 1 else 0
    (kernelMemmove 4 5 2 m = (4, moved 4 5 2 m) ∧ userMemmove 4 5 2 m = (4, moved 4 5 2 m) ∧
      userMemmove 4 5 2 m = kernelMemmove 4 5 2 m) ↔
    if 2 < 2 ^ 31 then Periodic 4 5 2 m else ∀ i < 2, m (4 + i) = m (5 + i) :=
  memmove_iff (by decide) (by decide)

/-- Two bytes moved up by one: the user library writes the first of them twice. -/
theorem memmove_overlap : let m : Bytes := fun a => if a = 5 then 1 else 0
    userMemmove 5 4 2 m ≠ (5, moved 5 4 2 m) ∧
      userMemmove 5 4 2 m ≠ kernelMemmove 5 4 2 m := by
  intro m
  have user : (userMemmove 5 4 2 m).2 6 = 0 := by decide
  have kernel : (kernelMemmove 5 4 2 m).2 6 = 1 := by decide
  have expected : moved 5 4 2 m 6 = 1 := by decide
  constructor
  · intro is
    rw [is] at user
    simp [expected] at user
  · intro is
    rw [is, kernel] at user
    cases user

end Move

end Xv6.MemMove
