import Mathlib.Data.List.Basic
import Mathlib.Logic.Relation

/-! Redo logging over an arbitrary memory of cells. A log is a header cell that
names the target cells and one slot cell for each of them. Recovery copies the
slots to the targets and blanks the header. The memory is `Quiet` when the
header names nothing and `Sealed` when it names a complete transaction. A crash
inside recovery leaves one of the two, so any number of interrupted recoveries
followed by a complete one is atomic. -/
namespace Xv6.RedoLog

variable {Addr Val : Type} [DecidableEq Addr]

def store (memory : Addr → Val) (addr : Addr) (val : Val) : Addr → Val :=
  fun x => if x = addr then val else memory x

def storeAll (memory : Addr → Val) : List (Addr × Val) → Addr → Val
  | [] => memory
  | write :: rest => storeAll (store memory write.1 write.2) rest

@[simp] theorem store_at (memory : Addr → Val) (addr : Addr) (val : Val) :
    store memory addr val addr = val := by simp [store]

theorem store_other (memory : Addr → Val) {addr x : Addr} (val : Val) (other : x ≠ addr) :
    store memory addr val x = memory x := by simp [store, other]

theorem store_same (memory : Addr → Val) (addr : Addr) : store memory addr (memory addr) = memory := by
  funext x
  by_cases same : x = addr <;> simp [store, same]

theorem storeAll_append (memory : Addr → Val) (early later : List (Addr × Val)) :
    storeAll memory (early ++ later) = storeAll (storeAll memory early) later := by
  induction early generalizing memory with
  | nil => rfl
  | cons write rest ih => exact ih (store memory write.1 write.2)

/-- Writes whose values are a function of their address settle every address
they mention, in whatever order and however often they are made. -/
theorem storeAll_function (memory goal : Addr → Val) (writes : List (Addr × Val))
    (agree : ∀ write ∈ writes, write.2 = goal write.1) (x : Addr) :
    storeAll memory writes x = if x ∈ writes.map Prod.fst then goal x else memory x := by
  induction writes generalizing memory with
  | nil => simp [storeAll]
  | cons write rest ih =>
    rw [storeAll, ih _ fun later member => agree later (List.mem_cons_of_mem write member)]
    have head := agree write List.mem_cons_self
    by_cases later : x ∈ rest.map Prod.fst
    · simp [later]
    · by_cases here : x = write.1
      · subst here
        simp [later, head]
      · simp [later, here, store_other _ _ here]

theorem storeAll_outside (memory : Addr → Val) (writes : List (Addr × Val)) {x : Addr}
    (outside : ∀ write ∈ writes, write.1 ≠ x) : storeAll memory writes x = memory x := by
  induction writes generalizing memory with
  | nil => rfl
  | cons write rest ih =>
    rw [storeAll, ih _ fun later member => outside later (List.mem_cons_of_mem write member),
      store_other _ _ (outside write List.mem_cons_self).symm]

theorem storeAll_same (memory : Addr → Val) (writes : List (Addr × Val))
    (agree : ∀ write ∈ writes, write.2 = memory write.1) : storeAll memory writes = memory := by
  funext x
  rw [storeAll_function memory memory writes agree, ite_self]

/-- Where the log lies and how its header is read. -/
structure Format (Addr Val : Type) where
  header : Addr
  slot : Nat → Addr
  decode : Val → List Addr
  blank : Val → Val
  home : Addr → Prop

section Recovery
variable (format : Format Addr Val)

/-- The copies recovery makes, then the header it erases. -/
def copies (memory : Addr → Val) : List (Addr × Val) :=
  (format.decode (memory format.header)).zipIdx.map fun entry =>
    (entry.1, memory (format.slot entry.2))

def replay (memory : Addr → Val) : List (Addr × Val) :=
  copies format memory ++ [(format.header, format.blank (memory format.header))]

structure Quiet (base memory : Addr → Val) : Prop where
  empty : format.decode (memory format.header) = []
  kept : ∀ x, format.home x → memory x = base x

structure Sealed (targets : List Addr) (base goal memory : Addr → Val) : Prop where
  named : format.decode (memory format.header) = targets
  saved : ∀ entry ∈ targets.zipIdx, memory (format.slot entry.2) = goal entry.1
  partly : ∀ x, format.home x → memory x = base x ∨ memory x = goal x
  rest : ∀ x, format.home x → x ∉ targets → goal x = base x

structure Sound (targets : List Addr) : Prop where
  blanks : ∀ val, format.decode (format.blank val) = []
  inside : ∀ x ∈ targets, format.home x
  offHeader : ¬ format.home format.header
  offSlots : ∀ entry ∈ targets.zipIdx, ¬ format.home (format.slot entry.2)
  apart : ∀ entry ∈ targets.zipIdx, format.slot entry.2 ≠ format.header

variable {format} {targets : List Addr} {base goal memory : Addr → Val}

omit [DecidableEq Addr] in
theorem copies_quiet (quiet : Quiet format base memory) : copies format memory = [] := by
  simp [copies, quiet.empty]

omit [DecidableEq Addr] in
theorem home_off_header (sound : Sound format targets) {x : Addr} (home : format.home x) :
    x ≠ format.header := fun same => sound.offHeader (same ▸ home)

theorem quiet_blanked (sound : Sound format targets) (val : Val)
    (kept : ∀ x, format.home x → memory x = base x) :
    Quiet format base (store memory format.header (format.blank val)) := by
  refine ⟨by simp [sound.blanks], fun x home => ?_⟩
  rw [store_other _ _ (home_off_header sound home)]
  exact kept x home

theorem quiet_crash (sound : Sound format targets) (quiet : Quiet format base memory) (k : Nat) :
    Quiet format base (storeAll memory ((replay format memory).take k)) := by
  rw [replay, copies_quiet quiet, List.nil_append]
  cases k with
  | zero => exact quiet
  | succ k =>
    rw [List.take_succ_cons, List.take_nil]
    exact quiet_blanked sound _ quiet.kept

omit [DecidableEq Addr] in
theorem copies_agree (sealed : Sealed format targets base goal memory) :
    ∀ write ∈ copies format memory, write.2 = goal write.1 ∧ write.1 ∈ targets := by
  intro write member
  rw [copies, sealed.named] at member
  obtain ⟨entry, inside, rfl⟩ := List.mem_map.mp member
  exact ⟨sealed.saved entry inside, List.fst_mem_of_mem_zipIdx inside⟩

omit [DecidableEq Addr] in
theorem copies_targets (sealed : Sealed format targets base goal memory) :
    (copies format memory).map Prod.fst = targets := by
  rw [copies, sealed.named, List.map_map]
  exact List.zipIdx_map_fst 0 targets

theorem sealed_copying (sound : Sound format targets) (sealed : Sealed format targets base goal memory)
    (k : Nat) : Sealed format targets base goal (storeAll memory ((copies format memory).take k)) := by
  have some : ∀ write ∈ (copies format memory).take k, write.2 = goal write.1 ∧ write.1 ∈ targets :=
    fun write member => copies_agree sealed write (List.mem_of_mem_take member)
  have outside : ∀ x, ¬ format.home x →
      storeAll memory ((copies format memory).take k) x = memory x := by
    intro x away
    apply storeAll_outside
    intro write member same
    exact away (same ▸ sound.inside _ (some write member).2)
  refine ⟨?_, ?_, ?_, sealed.rest⟩
  · rw [outside _ sound.offHeader, sealed.named]
  · intro entry member
    rw [outside _ (sound.offSlots entry member), sealed.saved entry member]
  · intro x home
    rw [storeAll_function memory goal _ fun write member => (some write member).1]
    split
    · exact Or.inr rfl
    · exact sealed.partly x home

theorem copied_goal (sealed : Sealed format targets base goal memory) {x : Addr}
    (home : format.home x) : storeAll memory (copies format memory) x = goal x := by
  rw [storeAll_function memory goal _ fun write member => (copies_agree sealed write member).1,
    copies_targets sealed]
  split
  · rfl
  · rename_i untouched
    rcases sealed.partly x home with old | new
    · rw [old, sealed.rest x home untouched]
    · exact new

theorem sealed_finish (sound : Sound format targets) (sealed : Sealed format targets base goal memory) :
    Quiet format goal (storeAll memory (replay format memory)) := by
  rw [replay, storeAll_append]
  exact quiet_blanked sound _ fun x home => copied_goal sealed home

theorem sealed_crash (sound : Sound format targets) (sealed : Sealed format targets base goal memory)
    (k : Nat) :
    Sealed format targets base goal (storeAll memory ((replay format memory).take k)) ∨
      Quiet format goal (storeAll memory ((replay format memory).take k)) := by
  by_cases short : k ≤ (copies format memory).length
  · left
    rw [replay, List.take_append_of_le_length short]
    exact sealed_copying sound sealed k
  · right
    have all : (replay format memory).length ≤ k := by
      simp only [replay, List.length_append, List.length_singleton]
      omega
    rw [List.take_of_length_le all]
    exact sealed_finish sound sealed

/-- One recovery, stopped after any number of its writes. -/
def Crash (format : Format Addr Val) (before after : Addr → Val) : Prop :=
  ∃ k, after = storeAll before ((replay format before).take k)

/-- The states interrupted recoveries can leave behind. -/
def Recovering (format : Format Addr Val) (targets : List Addr) (base goal memory : Addr → Val) : Prop :=
  Quiet format base memory ∨ Sealed format targets base goal memory ∨ Quiet format goal memory

theorem recovering_crash (sound : Sound format targets) {after : Addr → Val}
    (state : Recovering format targets base goal memory) (crash : Crash format memory after) :
    Recovering format targets base goal after := by
  obtain ⟨k, rfl⟩ := crash
  rcases state with quiet | sealed | quiet
  · exact Or.inl (quiet_crash sound quiet k)
  · exact Or.inr (sealed_crash sound sealed k)
  · exact Or.inr (Or.inr (quiet_crash sound quiet k))

theorem recovering_finish (sound : Sound format targets)
    (state : Recovering format targets base goal memory) :
    Quiet format base (storeAll memory (replay format memory)) ∨
      Quiet format goal (storeAll memory (replay format memory)) := by
  have whole : (replay format memory).take (replay format memory).length = replay format memory :=
    List.take_length
  rcases state with quiet | sealed | quiet
  · left
    rw [← whole]
    exact quiet_crash sound quiet _
  · exact Or.inr (sealed_finish sound sealed)
  · right
    rw [← whole]
    exact quiet_crash sound quiet _

end Recovery

end Xv6.RedoLog
