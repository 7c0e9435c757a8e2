import Xv6.BitField
import Xv6.Layout

/-! sys_read of kernel/sysfile.c with argptr, fileread, readi and piperead, down to
the addresses that the kernel stores to. The count is a C int that argptr widens to 64
bits, piperead compares as a signed number and readi takes as a uint. -/
namespace Xv6.ReadCall
open BitField Layout

/-- The bytes stored, in order, and the value returned, if the call returns. -/
structure Reply where
  stores : List (Nat × UInt8)
  ret : Option Int
  deriving DecidableEq

def Reply.after (stores : List (Nat × UInt8)) (later : Reply) : Reply :=
  ⟨stores ++ later.stores, later.ret⟩

/-- memmove to `dst`. -/
def storesAt (dst : Nat) (bytes : List UInt8) : List (Nat × UInt8) :=
  (bytes.zipIdx dst).map fun entry => (entry.2, entry.1)

/-- The check of argptr: `i >= proc->sz || i+size > proc->sz` fails. -/
def argptr (sz : Nat) (i : BitVec 64) (size : BitVec 32) : Option Nat :=
  if i.toNat ≥ sz ∨ (i + size.signExtend 64).toNat > sz then none else some i.toNat

/-- An inode that is not a device, locked by fileread. -/
structure File where
  size : Nat
  bounded : size ≤ maxfile * bsize
  block : Fin maxfile → Block

/-- bread(ip->dev, bmap(ip, bn)); bmap panics behind the last block. -/
def File.read (file : File) (bn : Nat) : Option Block :=
  if inside : bn < maxfile then some (file.block ⟨bn, inside⟩) else none

def readiLoop (file : File) (result : Int) : Nat → Nat → Nat → Nat → Reply
  | 0, _, _, _ => ⟨[], some result⟩
  | fuel + 1, dst, off, left =>
    if left = 0 then ⟨[], some result⟩
    else
      match file.read (off / bsize) with
      | none => ⟨[], none⟩
      | some data =>
        let m := min left (bsize - off % bsize)
        .after (storesAt dst (getBytes data (off % bsize) m))
          (readiLoop file result fuel (dst + m) (u32 (off + m)) (left - m))

/-- The uint n that readi returns is an int for its caller. -/
def readi (file : File) (dst off n : Nat) : Reply :=
  if off > file.size ∨ u32 (off + n) < off then ⟨[], some (-1)⟩
  else
    let n := if u32 (off + n) > file.size then file.size - off else n
    readiLoop file (BitVec.ofNat 32 n).toInt n dst off n

/-- What one passage of piperead's loop test sees under p->lock. -/
structure Glimpse where
  bytes : List UInt8
  writeopen : Bool
  killed : Bool

/-- `i` counts up to n; the pipe has `bytes` left. -/
def pipereadCopy (addr : Nat) (n : Int) : List UInt8 → Nat → Reply
  | [], i => ⟨[], some i⟩
  | byte :: rest, i =>
    if (i : Int) < n then .after [(addr + i, byte)] (pipereadCopy addr n rest (i + 1))
    else ⟨[], some i⟩

/-- The list is what the passages see until the process no longer wakes up. -/
def piperead (addr : Nat) (n : Int) : List Glimpse → Reply
  | [] => ⟨[], none⟩
  | glimpse :: later =>
    if glimpse.bytes = [] ∧ glimpse.writeopen then
      if glimpse.killed then ⟨[], some (-1)⟩ else piperead addr n later
    else pipereadCopy addr n glimpse.bytes 0

inductive Source
  | pipe (glimpses : List Glimpse)
  | inode (file : File) (off : Nat)

/-- struct file, for a pipe or a regular file. -/
structure OpenFile where
  readable : Bool
  source : Source

def fileread (f : OpenFile) (addr : Nat) (n : BitVec 32) : Reply :=
  if f.readable = false then ⟨[], some (-1)⟩
  else
    match f.source with
    | .pipe glimpses => piperead addr n.toInt glimpses
    | .inode file off => readi file addr off n.toNat

/-- sys_read, once argfd has found the file. -/
def sysRead (sz : Nat) (f : OpenFile) (p : BitVec 64) (n : BitVec 32) : Reply :=
  match argptr sz p n with
  | none => ⟨[], some (-1)⟩
  | some addr => fileread f addr n

/-- All stores go to the caller's buffer and memory, and no more is reported. -/
def Confined (sz p : Nat) (n : Int) (reply : Reply) : Prop :=
  (∀ entry ∈ reply.stores, p ≤ entry.1 ∧ (entry.1 : Int) < p + max n 0 ∧ entry.1 < sz) ∧
    ∀ r, reply.ret = some r → r ≤ max n 0

section Stores
variable {dst addr i : Nat}

theorem mem_storesAt {bytes : List UInt8} {entry : Nat × UInt8}
    (member : entry ∈ storesAt dst bytes) : dst ≤ entry.1 ∧ entry.1 < dst + bytes.length := by
  obtain ⟨pair, found, rfl⟩ := List.mem_map.mp member
  obtain ⟨low, high, _⟩ := List.mem_zipIdx (x := pair.1) (i := pair.2) found
  exact ⟨low, by omega⟩

theorem readiLoop_stores (file : File) (result : Int) (fuel dst off left : Nat) :
    (∀ entry ∈ (readiLoop file result fuel dst off left).stores,
      dst ≤ entry.1 ∧ entry.1 < dst + left) ∧
    ∀ r, (readiLoop file result fuel dst off left).ret = some r → r = result := by
  induction fuel generalizing dst off left with
  | zero => simp [readiLoop]
  | succ fuel ih =>
    unfold readiLoop
    split
    · simp
    · split
      · simp
      · rename_i data found
        obtain ⟨stores, ret⟩ := ih (dst + min left (bsize - off % bsize))
          (u32 (off + min left (bsize - off % bsize))) (left - min left (bsize - off % bsize))
        refine ⟨fun entry member => ?_, ret⟩
        rcases List.mem_append.mp member with here | later
        · have range := mem_storesAt here
          rw [length_getBytes] at range
          omega
        · have range := stores entry later
          omega

theorem pipereadCopy_confined {bytes : List UInt8} {n : Int} (low : (i : Int) ≤ max n 0) :
    (∀ entry ∈ (pipereadCopy addr n bytes i).stores,
      addr ≤ entry.1 ∧ (entry.1 : Int) < addr + max n 0) ∧
    ∀ r, (pipereadCopy addr n bytes i).ret = some r → r ≤ max n 0 := by
  induction bytes generalizing i with
  | nil =>
    refine ⟨by simp [pipereadCopy], ?_⟩
    rintro r returned
    cases returned
    exact low
  | cons byte rest ih =>
    unfold pipereadCopy
    split
    · rename_i more
      obtain ⟨stores, ret⟩ := ih (i := i + 1) (by omega)
      refine ⟨fun entry member => ?_, ret⟩
      rcases List.mem_cons.mp member with rfl | later
      · exact ⟨Nat.le_add_right _ _, by push_cast; omega⟩
      · exact stores entry later
    · refine ⟨by simp, ?_⟩
      rintro r returned
      cases returned
      exact low

theorem piperead_confined (addr : Nat) (n : Int) (glimpses : List Glimpse) :
    (∀ entry ∈ (piperead addr n glimpses).stores,
      addr ≤ entry.1 ∧ (entry.1 : Int) < addr + max n 0) ∧
    ∀ r, (piperead addr n glimpses).ret = some r → r ≤ max n 0 := by
  induction glimpses with
  | nil => simp [piperead]
  | cons glimpse later ih =>
    unfold piperead
    split
    · split
      · refine ⟨by simp, ?_⟩
        rintro r returned
        cases returned
        omega
      · exact ih
    · exact pipereadCopy_confined (by omega)

end Stores

section Calls
variable {file : File} {sz off addr : Nat} {p : BitVec 64} {n : BitVec 32} {f : OpenFile}

theorem toNat_of_nonneg (positive : 0 ≤ n.toInt) : (n.toNat : Int) = n.toInt := by
  have := n.isLt
  rw [BitVec.toInt_eq_toNat_cond] at positive ⊢
  split
  · rfl
  · split at positive <;> omega

theorem toNat_of_neg (negative : n.toInt < 0) : (n.toNat : Int) = n.toInt + 2 ^ 32 := by
  have := n.isLt
  rw [BitVec.toInt_eq_toNat_cond] at negative ⊢
  split
  · split at negative <;> omega
  · omega

theorem argptr_addr (passed : argptr sz p n = some addr) : addr = p.toNat ∧ addr < sz := by
  unfold argptr at passed
  split at passed
  · cases passed
  · cases passed
    exact ⟨rfl, by omega⟩

theorem argptr_end (small : sz < 2 ^ 32) (passed : argptr sz p n = some addr)
    (positive : 0 ≤ n.toInt) : addr + n.toInt ≤ sz := by
  obtain ⟨rfl, below⟩ := argptr_addr passed
  have unsigned := toNat_of_nonneg positive
  have widened : (n.signExtend 64).toNat = n.toNat := by
    have sign : n.msb = false := by
      rw [BitVec.msb_eq_toInt, decide_eq_false_iff_not]
      omega
    rw [BitVec.signExtend_eq_setWidth_of_msb_false sign, BitVec.toNat_setWidth]
    have := n.isLt
    omega
  unfold argptr at passed
  split at passed
  · cases passed
  · rename_i checked
    rw [BitVec.toNat_add, widened] at checked
    have := n.isLt
    omega

theorem readi_confined (positive : 0 ≤ n.toInt)
    (fits : addr + n.toInt ≤ sz) : Confined sz addr n.toInt (readi file addr off n.toNat) := by
  have count := toNat_of_nonneg positive
  have bounded : file.size ≤ 71680 := file.bounded
  have width := n.isLt
  have high : n.toInt < 2 ^ 31 := BitVec.toInt_lt
  unfold readi
  split
  · refine ⟨by simp, ?_⟩
    rintro r returned
    cases returned
    omega
  · rename_i inside
    dsimp only
    have wrap : u32 (off + n.toNat) = off + n.toNat := by
      simp only [u32] at inside ⊢
      omega
    have less : (if u32 (off + n.toNat) > file.size then file.size - off else n.toNat) ≤ n.toNat := by
      rw [wrap]
      split <;> omega
    generalize (if u32 (off + n.toNat) > file.size then file.size - off else n.toNat) = m at less
    obtain ⟨stores, ret⟩ := readiLoop_stores file (BitVec.ofNat 32 m).toInt m addr off m
    refine ⟨fun entry member => ?_, fun r returned => ?_⟩
    · have range := stores entry member
      omega
    · rw [ret r returned, BitVec.toInt_eq_toNat_cond, BitVec.toNat_ofNat]
      split <;> omega

theorem readi_negative (negative : n.toInt < 0) (harmless : -n.toInt ≤ off ∨ file.size ≤ off) :
    Confined sz addr n.toInt (readi file addr off n.toNat) := by
  have count := toNat_of_neg negative
  have low : -(2 : Int) ^ 31 ≤ n.toInt := BitVec.le_toInt n
  have bounded : file.size ≤ 71680 := file.bounded
  unfold readi
  split
  · refine ⟨by simp, ?_⟩
    rintro r returned
    cases returned
    omega
  · rename_i inside
    dsimp only
    have atEnd : off = file.size ∧ u32 (off + n.toNat) > file.size := by
      simp only [u32] at inside ⊢
      omega
    rw [if_pos atEnd.2, atEnd.1, Nat.sub_self]
    refine ⟨by simp [readiLoop], ?_⟩
    rintro r returned
    cases returned
    change (0 : Int) ≤ _
    omega

theorem readi_escapes (negative : n.toInt < 0) (before : off < -n.toInt) (more : off < file.size) :
    ¬Confined sz addr n.toInt (readi file addr off n.toNat) := by
  have count := toNat_of_neg negative
  have low : -(2 : Int) ^ 31 ≤ n.toInt := BitVec.le_toInt n
  have bounded : file.size ≤ 71680 := file.bounded
  have wrap : ¬(off > file.size ∨ u32 (off + n.toNat) < off) := by
    simp only [u32]
    omega
  have clipped : u32 (off + n.toNat) > file.size := by
    simp only [u32]
    omega
  intro confined
  rw [readi, if_neg wrap] at confined
  simp only [if_pos clipped] at confined
  -- The first block is there, and its first byte is stored at addr.
  have inside : off / bsize < maxfile := by
    simp only [bsize, maxfile]
    omega
  obtain ⟨left, rest⟩ : ∃ left, file.size - off = left + 1 := ⟨file.size - off - 1, by omega⟩
  rw [rest, readiLoop, if_neg (by omega), File.read, dif_pos inside] at confined
  obtain ⟨m, some⟩ : ∃ m, min (left + 1) (bsize - off % bsize) = m + 1 :=
    ⟨min left (bsize - off % bsize - 1), by simp only [bsize]; omega⟩
  simp only [some] at confined
  have stored : (addr, byteAt (file.block ⟨off / bsize, inside⟩) (off % bsize)) ∈
      storesAt addr (getBytes (file.block ⟨off / bsize, inside⟩) (off % bsize) (m + 1)) := by
    simp [storesAt, getBytes]
  have range := confined.1 _ (List.mem_append_left _ stored)
  simp only at range
  omega

/-- For calls that pass the argument checks, all stores of read lie in the buffer and in
the process, and the count returned is at most n, exactly when n is not negative or
nothing is read. -/
theorem stores_confined_iff (small : sz < 2 ^ 32) (passed : argptr sz p n = some addr) :
    Confined sz p.toNat n.toInt (sysRead sz f p n) ↔
      (0 ≤ n.toInt ∨ f.readable = false ∨
        ∀ file off, f.source = .inode file off → -n.toInt ≤ off ∨ file.size ≤ off) := by
  obtain ⟨rfl, below⟩ := argptr_addr passed
  obtain ⟨readable, source⟩ := f
  simp only [sysRead, passed, fileread]
  cases readable with
  | false =>
    refine iff_of_true ⟨by simp, ?_⟩ (.inr (.inl rfl))
    rintro r returned
    cases returned
    omega
  | true =>
    by_cases positive : 0 ≤ n.toInt
    · refine iff_of_true ?_ (.inl positive)
      have fits := argptr_end small passed positive
      cases source with
      | pipe glimpses =>
        obtain ⟨stores, ret⟩ := piperead_confined p.toNat n.toInt glimpses
        refine ⟨fun entry member => ?_, ret⟩
        have range := stores entry member
        exact ⟨range.1, range.2, by omega⟩
      | inode file off => exact readi_confined positive fits
    · have negative : n.toInt < 0 := by omega
      cases source with
      | pipe glimpses =>
        obtain ⟨stores, ret⟩ := piperead_confined p.toNat n.toInt glimpses
        refine iff_of_true ⟨fun entry member => ?_, ret⟩ (.inr (.inr fun _ _ same => nomatch same))
        have range := stores entry member
        omega
      | inode file off =>
        constructor
        · intro confined
          refine .inr (.inr fun file' off' same => ?_)
          cases same
          by_contra neither
          exact readi_escapes negative (by omega) (by omega) confined
        · rintro (now | never | harmless)
          · exact absurd now positive
          · cases never
          · exact readi_negative negative (harmless file off rfl)

end Calls

/-- A file of one byte. -/
def shortFile : File := ⟨1, by decide, fun _ => 0⟩

theorem read_four_confined :
    argptr 8192 4096 4 = some 4096 ∧
      Confined 8192 4096 4 (sysRead 8192 ⟨true, .inode shortFile 0⟩ 4096 4) := by
  have passed : argptr 8192 4096 4 = some 4096 := by decide
  exact ⟨passed, (stores_confined_iff (by decide) passed).mpr (.inl (by decide))⟩

/-- read(fd, 1, -1) on that file stores a byte and returns 1. -/
theorem read_minus_one_stores :
    argptr 8192 1 (-1) = some 1 ∧
      sysRead 8192 ⟨true, .inode shortFile 0⟩ 1 (-1) = ⟨[(1, 0)], some 1⟩ ∧
      ¬Confined 8192 1 (-1) (sysRead 8192 ⟨true, .inode shortFile 0⟩ 1 (-1)) := by
  have reply : sysRead 8192 ⟨true, .inode shortFile 0⟩ 1 (-1) = ⟨[(1, 0)], some 1⟩ := by
    decide +kernel
  refine ⟨by decide, reply, fun confined => ?_⟩
  rw [reply] at confined
  exact absurd (confined.2 1 rfl) (by decide)

end Xv6.ReadCall
