import Xv6.Fs

/-! The regions of the disk. The macros of fs.h put every inode and every bitmap bit at a place
of its own, and balloc and bfree use the same bit for a block, as long as the block numbers of
the disk fit into the int that balloc counts with. -/
namespace Xv6.Regions
open Layout Fs

/-- The value of 32 bits as an int. -/
def toInt (x : Nat) : Int := if x % 2 ^ 32 < 2 ^ 31 then x % 2 ^ 32 else x % 2 ^ 32 - 2 ^ 32

/-- A bit of the bitmap: its block, the byte in the block and the bit in the byte. -/
structure Bit where
  sector : Nat
  byte : Nat
  bit : Nat
deriving DecidableEq

/-- `bread(dev, BBLOCK(b, sb.ninodes))`, `bp->data[bi/8]` and `1 << (bi % 8)` in balloc. Here
b is an int, so b/BPB is a signed division, and the sum is cut to the uint that bread takes. -/
def ballocBit (sb : Superblock) (b bi : Nat) : Bit :=
  { sector := (((toInt b).tdiv bpb + (sb.ninodes / ipb : Nat) + 3) % 2 ^ 32).toNat
    byte := bi / 8
    bit := bi % 8 }

/-- The same in bfree, where b is a uint and `bi = b % BPB`. -/
def bfreeBit (sb : Superblock) (b : Nat) : Bit :=
  { sector := u32 (bblock b sb.ninodes)
    byte := b % bpb / 8
    bit := b % bpb % 8 }

/-- The first byte on the disk of an inode, and their size. -/
def inodeByte (i : Nat) : Nat := u32 (iblock i) * bsize + i % ipb * 64

/-- The superblocks that pass the assertion of mkfs. -/
structure Formatted (sb : Superblock) : Prop where
  size : sb.size < 2 ^ 32
  sum : sb.nblocks + dataStart sb + sb.nlog = sb.size

/-- The regions are in order and nothing shares a place. -/
structure Apart (sb : Superblock) : Prop where
  inodes : ∀ i < sb.ninodes, 2 ≤ u32 (iblock i)
  bitmap : ∀ i < sb.ninodes, ∀ b < sb.size, u32 (iblock i) < (bfreeBit sb b).sector
  data : ∀ b < sb.size, (bfreeBit sb b).sector < dataStart sb
  log : dataStart sb ≤ logStart sb
  inode : ∀ i < sb.ninodes, ∀ j < sb.ninodes, i ≠ j →
    inodeByte i + 64 ≤ inodeByte j ∨ inodeByte j + 64 ≤ inodeByte i
  bit : ∀ b < sb.size, ∀ c < sb.size, bfreeBit sb b = bfreeBit sb c → b = c
  same : ∀ b bi, b % bpb = 0 → bi < bpb → b + bi < sb.size →
    ballocBit sb b bi = bfreeBit sb (b + bi)

section Formatted
variable {sb : Superblock} {i b bi : Nat}

theorem sector_eq (formatted : Formatted sb) (low : b < sb.size) :
    (bfreeBit sb b).sector = bblock b sb.ninodes := by
  have sum := formatted.sum
  have size := formatted.size
  simp only [dataStart, ipb, bpb] at sum
  refine Nat.mod_eq_of_lt ?_
  simp only [bblock, ipb, bpb]
  omega

theorem inode_eq (formatted : Formatted sb) (low : i < sb.ninodes) :
    u32 (iblock i) = iblock i := by
  have sum := formatted.sum
  have size := formatted.size
  simp only [dataStart, ipb, bpb] at sum
  refine Nat.mod_eq_of_lt ?_
  simp only [iblock, ipb]
  omega

theorem balloc_sector (formatted : Formatted sb) (low : b < sb.size) (small : b < 2 ^ 31) :
    (ballocBit sb b bi).sector = bblock b sb.ninodes := by
  have sector := sector_eq formatted low
  have isInt : toInt b = b := by
    rw [toInt]
    omega
  have isDiv : (toInt b).tdiv bpb = (b / bpb : Nat) := by
    rw [isInt]
    rfl
  rw [← sector]
  simp only [ballocBit, bfreeBit, isDiv, u32, bblock]
  omega

theorem balloc_differs : (ballocBit sb (2 ^ 31) 0).sector ≠ (bfreeBit sb (2 ^ 31)).sector := by
  have isDiv : (toInt (2 ^ 31)).tdiv bpb = -524288 := by decide
  have quotient : 2 ^ 31 / bpb = 524288 := by decide
  simp only [ballocBit, bfreeBit, isDiv, u32, bblock, quotient]
  omega

theorem balloc_same (formatted : Formatted sb) (int : sb.size ≤ 2 ^ 31) (start : b % bpb = 0)
    (low : bi < bpb) (inside : b + bi < sb.size) :
    ballocBit sb b bi = bfreeBit sb (b + bi) := by
  have quotient : (b + bi) / bpb = b / bpb := by
    rw [bpb] at *
    omega
  have rest : (b + bi) % bpb = bi := by
    rw [bpb] at *
    omega
  have sector : (ballocBit sb b bi).sector = (bfreeBit sb (b + bi)).sector := by
    rw [balloc_sector formatted (by omega) (by omega), sector_eq formatted inside, bblock,
      bblock, quotient]
  simp only [Bit.mk.injEq, ballocBit, bfreeBit, rest, and_self, and_true]
  exact sector

/-- The regions are apart exactly when every block number is an int. -/
theorem regions_apart_iff (formatted : Formatted sb) : Apart sb ↔ sb.size ≤ 2 ^ 31 := by
  constructor
  · intro apart
    by_contra large
    have same := apart.same (2 ^ 31) 0 (by decide) (by decide) (by omega)
    exact balloc_differs (congrArg Bit.sector same)
  · intro int
    have sum := formatted.sum
    refine ⟨fun i low => ?_, fun i low b inside => ?_, fun b inside => ?_, by rw [logStart]; omega,
      fun i low j low' differ => ?_, fun b inside c inside' same => ?_,
      fun b bi start low inside => balloc_same formatted int start low inside⟩
    · rw [inode_eq formatted low, iblock]
      exact Nat.le_add_left 2 _
    · rw [inode_eq formatted low, sector_eq formatted inside, iblock, bblock, ipb, bpb]
      omega
    · rw [sector_eq formatted inside, bblock, dataStart, ipb, bpb]
      omega
    · rw [inodeByte, inodeByte, inode_eq formatted low, inode_eq formatted low', iblock, iblock,
        bsize, ipb]
      omega
    · have sector := congrArg Bit.sector same
      have byte := congrArg Bit.byte same
      have bit := congrArg Bit.bit same
      rw [sector_eq formatted inside, sector_eq formatted inside'] at sector
      simp only [bfreeBit, bblock, bpb] at sector byte bit
      omega

end Formatted

theorem regions_apart_stock :
    Apart ⟨1024, 985, 200, 10⟩ ↔ (⟨1024, 985, 200, 10⟩ : Superblock).size ≤ 2 ^ 31 :=
  regions_apart_iff ⟨by decide, by decide⟩

/-- A disk of 2 ^ 31 + 1 blocks: balloc looks for the bit of the block 2 ^ 31 far behind the
bitmap. -/
theorem regions_large : Formatted ⟨2147483649, 2146959322, 200, 10⟩ ∧
    ¬ Apart ⟨2147483649, 2146959322, 200, 10⟩ := by
  refine ⟨⟨by decide, by decide⟩, fun apart => ?_⟩
  have same := apart.same (2 ^ 31) 0 (by decide) (by decide) (by decide)
  exact balloc_differs (congrArg Bit.sector same)

end Xv6.Regions
