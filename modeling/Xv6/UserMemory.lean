import Xv6.ExecFrame
import Xv6.Isolation

/-! The user memory of an address space as one array of bytes. A page shows a part of the
array; writing bytes into it lays them over the array at the address of the page. -/
namespace Xv6.UserMemory
open TraceMonad BitField Vm VmSpec PageTables AddressSpaces ExecPlan Growth Allocation Loading
open Isolation

/-- The array img with bytes laid over it at a. -/
def overlay (img : Nat → UInt8) (a : Nat) (bytes : List UInt8) (x : Nat) : UInt8 :=
  if a ≤ x then (bytes[x - a]?).getD (img x) else img x

section Overlay
variable {img : Nat → UInt8} {a x : Nat} {bytes : List UInt8}

theorem overlay_inside (low : a ≤ x) (inside : x - a < bytes.length) :
    overlay img a bytes x = bytes[x - a] := by
  rw [overlay, if_pos low, List.getElem?_eq_getElem inside, Option.getD_some]

theorem overlay_outside (outside : x < a ∨ a + bytes.length ≤ x) :
    overlay img a bytes x = img x := by
  unfold overlay
  split_ifs with low
  · rw [List.getElem?_eq_none (by omega), Option.getD_none]
  · rfl

end Overlay

/-- The page holds the bytes of img from base on. -/
def Shows (content : Page) (base : Nat) (img : Nat → UInt8) : Prop :=
  ∀ i < pgsize, byteAt content i = img (base + i)

section Pages
variable {content : Page} {base off : Nat} {img : Nat → UInt8} {bytes : List UInt8}

theorem shows_setBytes (shows_ : Shows content base img) (fits : off + bytes.length ≤ pgsize) :
    Shows (setBytes content off bytes) base (overlay img (base + off) bytes) := by
  intro i inside
  by_cases here : off ≤ i ∧ i < off + bytes.length
  · obtain ⟨j, rfl⟩ := Nat.exists_eq_add_of_le here.1
    have bound : j < bytes.length := by omega
    rw [overlay_inside (by omega) (by omega)]
    have index : base + (off + j) - (base + off) = j := by omega
    simp only [index]
    exact byteAt_setBytes_inside content off bytes j bound (by simp only [pgsize] at fits; omega)
  · rw [overlay_outside (by omega), byteAt_setBytes_outside _ _ _ _ (by omega), shows_ i inside]

end Pages

/-- The pages below n are mapped, page k with the flags that `flags k` says, and hold img. -/
def Image (m : Memory) (d : Nat) (flags : Nat → Nat) (n : Nat) (img : Nat → UInt8) : Prop :=
  ∀ k < n, ∃ p, pteAt m d k = some (entry p (flags k)) ∧ Shows (m.page p) (k * pgsize) img

/-- Flags of pages that are present. -/
def Flagged (flags : Nat → Nat) : Prop := ∀ k, flags k < 4096 ∧ (flags k).testBit 0 = true

section Images
variable {m next : Memory} {role : Nat → Role} {d n k p q off : Nat} {flags : Nat → Nat}
  {img : Nat → UInt8} {bytes : List UInt8}

theorem leafAt_entry (flagged : Flagged flags) (pte : pteAt m d k = some (entry p (flags k))) :
    leafAt m d k = some p := by
  rw [leafAt, pte, Option.bind_some, present_entry (flagged k).2, if_pos rfl,
    pteAddr_entry (flagged k).1]

theorem role_entry (roles : Roles m role) (dir : role d = .dir) (flagged : Flagged flags)
    (low : k < 510 * 512) (pte : pteAt m d k = some (entry p (flags k))) :
    role p = .leaf d (k / 512) (k % 512) :=
  (leafAt_iff roles dir low).1 (leafAt_entry flagged pte)

theorem pteAt_write {content : Page} (roles : Roles m role) (dir : role d = .dir)
    (low : k < 510 * 512) (plain : Plain role q) :
    pteAt (m.setPage q content) d k = pteAt m d k := by
  refine pteAt_congr roles dir low fun t is => word_plain plain ?_
  rcases is with rfl | ⟨i, table⟩
  · exact .inl dir
  · exact .inr ⟨d, i, table⟩

/-- The user memory of e is as before. -/
def Kept (m next : Memory) (e : Nat) : Prop :=
  ∀ k < 510 * 512, pteAt next e k = pteAt m e k ∧
    ∀ p, leafAt m e k = some p → next.page p = m.page p

theorem leafAt_kept {e : Nat} (kept : Kept m next e) (low : k < 510 * 512) :
    leafAt next e k = leafAt m e k := by
  rw [leafAt, leafAt, (kept k low).1]

theorem kept_trans {middle : Memory} {e : Nat} (first : Kept m middle e)
    (second : Kept middle next e) : Kept m next e := by
  intro k low
  refine ⟨(second k low).1.trans (first k low).1, fun p found => ?_⟩
  rw [(second k low).2 p (by rw [leafAt_kept first low, found]), (first k low).2 p found]

theorem kept_of_spared {e : Nat} (roles : Roles m role) (dir : role e = .dir)
    (other : role d = .dir) (apart : e ≠ d) (spared : Spared m next role d) : Kept m next e := by
  have foreign : ∀ q, q = e ∨ (∃ i, role q = .table e i) ∨ (∃ i j, role q = .leaf e i j) →
      next.page q = m.page q := by
    rintro q (rfl | ⟨i, table⟩ | ⟨i, j, leaf⟩)
    · exact spared q apart (by simp [dir, own]) (by simp [dir])
    · refine spared q ?_ (by simp [table, own, apart]) (by simp [table])
      rintro rfl
      simp [other] at table
    · refine spared q ?_ (by simp [leaf, own, apart]) (by simp [leaf])
      rintro rfl
      simp [other] at leaf
  refine fun k low => ⟨pteAt_congr roles dir low fun q is j => ?_, fun p found => ?_⟩
  · rw [word, word, foreign q (is.imp_right .inl)]
  · exact foreign p (.inr (.inr ⟨_, _, (leafAt_iff roles dir low).1 found⟩))

theorem kept_withSpace {e u v : Nat} {rest : List Nat} (roles : Roles m role) (dir : role e = .dir)
    (freelist : m.freelist = u :: v :: d :: rest) : Kept m (withSpace m u v d rest) e := by
  intro k low
  refine ⟨pteAt_congr roles dir low fun q is j => ?_, fun p found => ?_⟩
  · have busy : role q ≠ .free := by
      rcases is with rfl | ⟨i, table⟩
      · simp [dir]
      · simp [table]
    rw [word, word, (withSpace_used roles freelist busy).1]
  · have leaf := (leafAt_iff roles dir low).1 found
    exact (withSpace_used roles freelist (by simp [leaf])).1

theorem plain_leaf {i j : Nat} (leaf : role p = .leaf d i j) : Plain role p := by
  simp [Plain, leaf]

theorem image_write (image : Image m d flags n img) (roles : Roles m role) (dir : role d = .dir)
    (flagged : Flagged flags) (bound : n ≤ 510 * 512) (inside : k < n)
    (pte : pteAt m d k = some (entry p (flags k))) (fits : off + bytes.length ≤ pgsize) :
    Image (m.setPage p (setBytes (m.page p) off bytes)) d flags n
      (overlay img (k * pgsize + off) bytes) := by
  intro j below
  obtain ⟨q, pte', shown⟩ := image j below
  have leaf := role_entry roles dir flagged (by omega) pte
  refine ⟨q, (pteAt_write roles dir (by omega) (plain_leaf leaf)).trans pte', ?_⟩
  rw [Memory.setPage]
  by_cases here : j = k
  · subst here
    have same := leaf_unique roles leaf (role_entry roles dir flagged (by omega) pte')
    subst same
    simp only [if_true]
    exact shows_setBytes shown fits
  · -- Another page: it is not the one written, and its addresses are not touched.
    have apart : q ≠ p := by
      rintro rfl
      have other := role_entry roles dir flagged (by omega) pte'
      rw [leaf, Role.leaf.injEq] at other
      omega
    simp only [if_neg apart]
    intro i small
    rw [overlay_outside, shown i small]
    simp only [pgsize] at small fits ⊢
    omega

end Images

end Xv6.UserMemory
