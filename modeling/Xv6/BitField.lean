import Mathlib.Data.Nat.Bitwise

/-! Fields of a fixed-width little-endian word. A field is a bit range; storing
into one leaves every disjoint field alone. Byte strings are runs of adjacent
eight-bit fields. Nothing here depends on what the word encodes. -/
namespace Xv6.BitField

variable {w : Nat}

def field (word : BitVec w) (off len : Nat) : Nat := (word.toNat >>> off) % 2 ^ len

def setField (word : BitVec w) (off len value : Nat) : BitVec w :=
  BitVec.ofNat w (word.toNat >>> (off + len) <<< (off + len) ||| (value % 2 ^ len) <<< off |||
    word.toNat % 2 ^ off)

theorem field_zero (off len : Nat) : field (0#w) off len = 0 := by
  simp [field]

theorem testBit_field (word : BitVec w) (off len i : Nat) :
    (field word off len).testBit i = (decide (i < len) && word.toNat.testBit (off + i)) := by
  simp [field, Nat.testBit_mod_two_pow, Nat.testBit_shiftRight]

theorem testBit_setField (word : BitVec w) (off len value i : Nat) :
    (setField word off len value).toNat.testBit i =
      (decide (i < w) && if off ≤ i ∧ i < off + len then value.testBit (i - off)
        else word.toNat.testBit i) := by
  simp only [setField, BitVec.toNat_ofNat, Nat.testBit_mod_two_pow, Nat.testBit_or,
    Nat.testBit_shiftLeft, Nat.testBit_shiftRight]
  by_cases low : i < off
  · simp [low, show ¬ off ≤ i by omega, show ¬ off + len ≤ i by omega]
  · by_cases inside : i < off + len
    · simp [low, inside, show off ≤ i by omega, show ¬ off + len ≤ i by omega,
        show i - off < len by omega]
    · have above : off + len + (i - (off + len)) = i := by omega
      simp [low, inside, show off + len ≤ i by omega, show ¬ i - off < len by omega, above]

theorem field_setField_same (word : BitVec w) (off len value : Nat) (fits : off + len ≤ w) :
    field (setField word off len value) off len = value % 2 ^ len := by
  apply Nat.eq_of_testBit_eq
  intro i
  rw [testBit_field, testBit_setField, Nat.testBit_mod_two_pow]
  by_cases inside : i < len
  · simp [inside, show off + i < w by omega]
  · simp [inside]

theorem field_setField_disjoint (word : BitVec w) (off len value off' len' : Nat)
    (apart : off' + len' ≤ off ∨ off + len ≤ off') :
    field (setField word off len value) off' len' = field word off' len' := by
  apply Nat.eq_of_testBit_eq
  intro i
  rw [testBit_field, testBit_field, testBit_setField]
  by_cases inside : i < len'
  · have outside : ¬ (off ≤ off' + i ∧ off' + i < off + len) := by omega
    by_cases valid : off' + i < w
    · simp [outside, valid]
    · have high : word.toNat.testBit (off' + i) = false :=
        Nat.testBit_eq_false_of_lt (lt_of_lt_of_le word.isLt
          (Nat.pow_le_pow_right (by decide) (by omega)))
      simp [valid, high]
  · simp [inside]

def byteAt (word : BitVec w) (i : Nat) : UInt8 := UInt8.ofNat (field word (8 * i) 8)

def setBytes (word : BitVec w) (off : Nat) : List UInt8 → BitVec w
  | [] => word
  | byte :: rest => setBytes (setField word (8 * off) 8 byte.toNat) (off + 1) rest

def getBytes (word : BitVec w) (off : Nat) : Nat → List UInt8
  | 0 => []
  | n + 1 => byteAt word off :: getBytes word (off + 1) n

theorem byteAt_zero (i : Nat) : byteAt (0#w) i = 0 := by
  simp [byteAt, field_zero]

theorem byteAt_setField_same (word : BitVec w) (i : Nat) (byte : UInt8) (fits : 8 * i + 8 ≤ w) :
    byteAt (setField word (8 * i) 8 byte.toNat) i = byte := by
  rw [byteAt, field_setField_same word (8 * i) 8 byte.toNat fits,
    Nat.mod_eq_of_lt (by simpa using byte.toNat_lt), UInt8.ofNat_toNat]

theorem byteAt_setField_other (word : BitVec w) (i j : Nat) (byte : UInt8) (apart : i ≠ j) :
    byteAt (setField word (8 * i) 8 byte.toNat) j = byteAt word j := by
  rw [byteAt, byteAt, field_setField_disjoint _ _ _ _ _ _ (by omega)]

theorem byteAt_setBytes_outside (word : BitVec w) (off : Nat) (bytes : List UInt8) (i : Nat)
    (outside : i < off ∨ off + bytes.length ≤ i) :
    byteAt (setBytes word off bytes) i = byteAt word i := by
  induction bytes generalizing word off with
  | nil => rfl
  | cons byte rest ih =>
    simp only [List.length_cons] at outside
    rw [setBytes, ih _ _ (by omega), byteAt_setField_other _ _ _ _ (by omega)]

theorem byteAt_setBytes_inside (word : BitVec w) (off : Nat) (bytes : List UInt8) (i : Nat)
    (inside : i < bytes.length) (fits : 8 * (off + bytes.length) ≤ w) :
    byteAt (setBytes word off bytes) (off + i) = bytes[i] := by
  induction bytes generalizing word off i with
  | nil => simp at inside
  | cons byte rest ih =>
    simp only [List.length_cons] at inside fits
    cases i with
    | zero =>
      rw [setBytes, byteAt_setBytes_outside _ _ _ _ (by omega)]
      simpa using byteAt_setField_same word off byte (by omega)
    | succ i =>
      have tail := ih (setField word (8 * off) 8 byte.toNat) (off + 1) i (by omega) (by omega)
      rw [setBytes, show off + (i + 1) = off + 1 + i by omega, tail]
      rfl

@[simp] theorem length_getBytes (word : BitVec w) (off n : Nat) :
    (getBytes word off n).length = n := by
  induction n generalizing off with
  | zero => rfl
  | succ n ih => simp [getBytes, ih]

theorem getElem_getBytes (word : BitVec w) (off n i : Nat) (inside : i < (getBytes word off n).length) :
    (getBytes word off n)[i] = byteAt word (off + i) := by
  induction n generalizing off i with
  | zero => simp [getBytes] at inside
  | succ n ih =>
    cases i with
    | zero => rfl
    | succ i =>
      simp only [getBytes, List.getElem_cons_succ]
      rw [ih]
      congr 1
      omega

end Xv6.BitField
