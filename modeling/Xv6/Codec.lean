import Xv6.Bio

/-! Reading back what the on-disk encodings store. -/
namespace Xv6.Codec
open BitField Layout Bio

/-! Words of a block. -/

theorem getUint_putUint_same (block : Block) {i value : Nat} (inside : i < 128)
    (fits : value < 2 ^ 32) : getUint (putUint block i value) i = value := by
  rw [getUint, putUint, field_setField_same _ _ _ _ (by omega), Nat.mod_eq_of_lt fits]

theorem getUint_putUint_other (block : Block) {i j : Nat} (value : Nat) (apart : j ≠ i) :
    getUint (putUint block i value) j = getUint block j := by
  rw [getUint, putUint, field_setField_disjoint _ _ _ _ _ _ (by omega), getUint]

theorem getUint_zero (i : Nat) : getUint 0#4096 i = 0 := field_zero _ _

/-! The log header. -/

theorem getUint_entries (block : Block) (entries : List Nat) (base j : Nat)
    (fits : ∀ x ∈ entries, x < 2 ^ 32) (inside : base + entries.length ≤ 128) :
    getUint ((entries.zipIdx base).foldl (fun b entry => putUint b entry.2 entry.1) block) j =
      if base ≤ j then (entries[j - base]?).getD (getUint block j) else getUint block j := by
  induction entries generalizing block base with
  | nil => simp
  | cons x rest ih =>
    simp only [List.length_cons] at inside
    rw [List.zipIdx_cons, List.foldl_cons,
      ih _ (base + 1) (fun y member => fits y (List.mem_cons_of_mem x member)) (by omega)]
    by_cases here : j = base
    · subst here
      simp [getUint_putUint_same block (by omega : j < 128) (fits x List.mem_cons_self)]
    · rw [getUint_putUint_other _ _ here]
      by_cases later : base + 1 ≤ j
      · rw [if_pos later, if_pos (by omega), show j - base = j - (base + 1) + 1 by omega,
          List.getElem?_cons_succ]
      · rw [if_neg later, if_neg (by omega)]

theorem getHeader_putHeader (block : Block) (lh : List Nat) (fits : ∀ x ∈ lh, x < 2 ^ 32)
    (short : lh.length ≤ 127) : getHeader (putHeader block lh) = lh := by
  have count : getUint (putHeader block lh) 0 = lh.length := by
    rw [putHeader, getUint_entries _ lh 1 0 fits (by omega), if_neg (by omega)]
    exact getUint_putUint_same block (by omega) (by omega)
  rw [getHeader, count, if_pos (by omega)]
  apply List.ext_getElem
  · simp
  · intro i small inside
    rw [List.getElem_map, List.getElem_range, putHeader, getUint_entries _ lh 1 (i + 1) fits (by omega)]
    simp [inside]

/-! Bits of the bitmap. -/

theorem bitSet_markUsed (block : Block) (i j : Nat) (inside : i < 4096) :
    bitSet (markUsed block i) j = (decide (j = i) || bitSet block j) := by
  by_cases same : j = i
  · subst same
    simp [bitSet, markUsed, field_setField_same block j 1 1 (by omega)]
  · simp [bitSet, markUsed, same, field_setField_disjoint block i 1 1 j 1 (by omega)]

theorem bitSet_markFree (block : Block) (i j : Nat) (inside : i < 4096) :
    bitSet (markFree block i) j = (!decide (j = i) && bitSet block j) := by
  by_cases same : j = i
  · subst same
    simp [bitSet, markFree, field_setField_same block j 1 0 (by omega)]
  · simp [bitSet, markFree, same, field_setField_disjoint block i 1 0 j 1 (by omega)]

/-! The superblock. -/

theorem getSuperblock_putSuperblock (block : Block) (sb : Superblock) (size : sb.size < 2 ^ 32)
    (nblocks : sb.nblocks < 2 ^ 32) (ninodes : sb.ninodes < 2 ^ 32) (nlog : sb.nlog < 2 ^ 32) :
    getSuperblock (putSuperblock block sb) = sb := by
  unfold getSuperblock putSuperblock
  simp only [field_setField_disjoint _ _ _ _ _ _ (show (0 : Nat) + 32 ≤ 96 ∨ 96 + 32 ≤ 0 by omega),
    field_setField_disjoint _ _ _ _ _ _ (show (0 : Nat) + 32 ≤ 64 ∨ 64 + 32 ≤ 0 by omega),
    field_setField_disjoint _ _ _ _ _ _ (show (0 : Nat) + 32 ≤ 32 ∨ 32 + 32 ≤ 0 by omega),
    field_setField_disjoint _ _ _ _ _ _ (show (32 : Nat) + 32 ≤ 96 ∨ 96 + 32 ≤ 32 by omega),
    field_setField_disjoint _ _ _ _ _ _ (show (32 : Nat) + 32 ≤ 64 ∨ 64 + 32 ≤ 32 by omega),
    field_setField_disjoint _ _ _ _ _ _ (show (64 : Nat) + 32 ≤ 96 ∨ 96 + 32 ≤ 64 by omega),
    field_setField_same _ _ _ _ (show (0 : Nat) + 32 ≤ 4096 by omega),
    field_setField_same _ _ _ _ (show (32 : Nat) + 32 ≤ 4096 by omega),
    field_setField_same _ _ _ _ (show (64 : Nat) + 32 ≤ 4096 by omega),
    field_setField_same _ _ _ _ (show (96 : Nat) + 32 ≤ 4096 by omega),
    Nat.mod_eq_of_lt size, Nat.mod_eq_of_lt nblocks, Nat.mod_eq_of_lt ninodes,
    Nat.mod_eq_of_lt nlog]

/-! Dinodes. -/

/-- The fields hold what their C types can. -/
structure DinodeOk (din : Dinode) : Prop where
  type : din.type < 2 ^ 16
  major : din.major < 2 ^ 16
  minor : din.minor < 2 ^ 16
  nlink : din.nlink < 2 ^ 16
  size : din.size < 2 ^ 32
  addrs : ∀ k, din.addrs k < 2 ^ 32
  beyond : ∀ k, 13 ≤ k → din.addrs k = 0

theorem dinode_ext {a b : Dinode} (type : a.type = b.type) (major : a.major = b.major)
    (minor : a.minor = b.minor) (nlink : a.nlink = b.nlink) (size : a.size = b.size)
    (addrs : ∀ k, a.addrs k = b.addrs k) : a = b := by
  cases a
  cases b
  simp only [Dinode.mk.injEq]
  exact ⟨type, major, minor, nlink, size, funext addrs⟩

theorem field_putAddrs_outside (block : Block) (n : Nat) (addrs : Nat → Nat) (k off len : Nat)
    (outside : off + len ≤ 512 * n + 96 ∨ 512 * n + 96 + 32 * k ≤ off) :
    field (putAddrs block n addrs k) off len = field block off len := by
  induction k with
  | zero => rfl
  | succ k ih =>
    rw [putAddrs, field_setField_disjoint _ _ _ _ _ _ (by omega), ih (by omega)]

theorem field_putAddrs_inside (block : Block) (n : Nat) (addrs : Nat → Nat) (k j : Nat)
    (small : k ≤ 13) (inside : j < k) (node : n < 8) :
    field (putAddrs block n addrs k) (512 * n + 96 + 32 * j) 32 = addrs j % 2 ^ 32 := by
  induction k with
  | zero => omega
  | succ k ih =>
    rw [putAddrs]
    by_cases last : j = k
    · subst last
      rw [field_setField_same _ _ _ _ (by omega)]
    · rw [field_setField_disjoint _ _ _ _ _ _ (by omega), ih (by omega) (by omega)]

theorem getDinode_putDinode_same (block : Block) {n : Nat} {din : Dinode} (node : n < 8)
    (ok : DinodeOk din) : getDinode (putDinode block n din) n = din := by
  apply dinode_ext
  · simp only [getDinode, putDinode]
    rw [field_putAddrs_outside _ _ _ _ _ _ (by omega),
      field_setField_disjoint _ _ _ _ _ _ (by omega), field_setField_disjoint _ _ _ _ _ _ (by omega),
      field_setField_disjoint _ _ _ _ _ _ (by omega), field_setField_disjoint _ _ _ _ _ _ (by omega),
      field_setField_same _ _ _ _ (by omega), Nat.mod_eq_of_lt ok.type]
  · simp only [getDinode, putDinode]
    rw [field_putAddrs_outside _ _ _ _ _ _ (by omega),
      field_setField_disjoint _ _ _ _ _ _ (by omega), field_setField_disjoint _ _ _ _ _ _ (by omega),
      field_setField_disjoint _ _ _ _ _ _ (by omega), field_setField_same _ _ _ _ (by omega),
      Nat.mod_eq_of_lt ok.major]
  · simp only [getDinode, putDinode]
    rw [field_putAddrs_outside _ _ _ _ _ _ (by omega),
      field_setField_disjoint _ _ _ _ _ _ (by omega), field_setField_disjoint _ _ _ _ _ _ (by omega),
      field_setField_same _ _ _ _ (by omega), Nat.mod_eq_of_lt ok.minor]
  · simp only [getDinode, putDinode]
    rw [field_putAddrs_outside _ _ _ _ _ _ (by omega),
      field_setField_disjoint _ _ _ _ _ _ (by omega), field_setField_same _ _ _ _ (by omega),
      Nat.mod_eq_of_lt ok.nlink]
  · simp only [getDinode, putDinode]
    rw [field_putAddrs_outside _ _ _ _ _ _ (by omega), field_setField_same _ _ _ _ (by omega),
      Nat.mod_eq_of_lt ok.size]
  · intro k
    simp only [getDinode, putDinode]
    by_cases inside : k < 13
    · rw [if_pos inside, field_putAddrs_inside _ _ _ _ _ (by omega) inside node,
        Nat.mod_eq_of_lt (ok.addrs k)]
    · rw [if_neg inside, ok.beyond k (by omega)]

theorem getDinode_putDinode_other (block : Block) {n m : Nat} (din : Dinode) (apart : m ≠ n) :
    getDinode (putDinode block n din) m = getDinode block m := by
  have away : ∀ off len, 512 * m ≤ off → off + len ≤ 512 * m + 512 →
      field (putDinode block n din) off len = field block off len := by
    intro off len low high
    rw [putDinode, field_putAddrs_outside _ _ _ _ _ _ (by omega),
      field_setField_disjoint _ _ _ _ _ _ (by omega), field_setField_disjoint _ _ _ _ _ _ (by omega),
      field_setField_disjoint _ _ _ _ _ _ (by omega), field_setField_disjoint _ _ _ _ _ _ (by omega),
      field_setField_disjoint _ _ _ _ _ _ (by omega)]
  apply dinode_ext
  · exact away _ _ (by omega) (by omega)
  · exact away _ _ (by omega) (by omega)
  · exact away _ _ (by omega) (by omega)
  · exact away _ _ (by omega) (by omega)
  · exact away _ _ (by omega) (by omega)
  · intro k
    simp only [getDinode]
    split
    · exact away _ _ (by omega) (by omega)
    · rfl

theorem setAddr_ok {din : Dinode} {k addr : Nat} (ok : DinodeOk din) (inside : k < 13)
    (fits : addr < 2 ^ 32) : DinodeOk (setAddr din k addr) := by
  refine ⟨ok.type, ok.major, ok.minor, ok.nlink, ok.size, ?_, ?_⟩
  · intro j
    simp only [setAddr]
    split
    · exact fits
    · exact ok.addrs j
  · intro j beyond
    simp only [setAddr]
    rw [if_neg (by omega)]
    exact ok.beyond j beyond

/-! Directory entries. -/

theorem length_strncpy (name : List UInt8) (n : Nat) : (strncpy name n).length = n := by
  induction n generalizing name with
  | zero => rfl
  | succ n ih =>
    rw [strncpy]
    split
    · simp
    · simp [ih]

theorem decodeDirent_encodeDirent (de : Dirent) (fits : de.inum < 2 ^ 16) :
    decodeDirent (encodeDirent de) = de := by
  have inum : (UInt8.ofNat de.inum).toNat + 256 * (UInt8.ofNat (de.inum / 256)).toNat = de.inum := by
    rw [UInt8.toNat_ofNat', UInt8.toNat_ofNat']
    omega
  cases de
  simpa [decodeDirent, encodeDirent] using inum

end Xv6.Codec
