import Mathlib.Computability.Language

/-! The matcher of grep.c. A string is the list of its bytes before the NUL, so the end of the
list is where the source reads a NUL. The matcher agrees with the language of the pattern. -/
namespace Xv6.Regex

def caret : UInt8 := 94
def dollar : UInt8 := 36
def dot : UInt8 := 46
def star : UInt8 := 42

/-- The loop of matchstar, where `here` is matchhere for the rest of the pattern. -/
def starLoop (c : UInt8) (here : List UInt8 → Bool) : List UInt8 → Bool
  | [] => here []
  | t :: text => here (t :: text) || (t == c || c == dot) && starLoop c here text

/-- One character of the pattern against one of the text, then the rest. -/
def single (c : UInt8) (here : List UInt8 → Bool) : List UInt8 → Bool
  | [] => false
  | t :: text => (c == dot || c == t) && here text

def matchhere : List UInt8 → List UInt8 → Bool
  | [], _ => true
  | [c], text => if c = dollar then text.isEmpty else single c (fun _ => true) text
  | c :: next :: re, text =>
    if next = star then starLoop c (matchhere re) text
    else single c (matchhere (next :: re)) text

def matchstar (c : UInt8) (re text : List UInt8) : Bool := starLoop c (matchhere re) text

/-- The loop of match: the empty text at the end is tried too. -/
def matchLoop (re : List UInt8) : List UInt8 → Bool
  | [] => matchhere re []
  | t :: text => matchhere re (t :: text) || matchLoop re text

def matchText (re text : List UInt8) : Bool :=
  if re.head? = some caret then matchhere re.tail text else matchLoop re text

/-- matchhere as its four tests: the end of the pattern apart, `re[1] == '*'`, a final `$`, and
a character. -/
theorem matchhere_cons (c : UInt8) (re text : List UInt8) : matchhere (c :: re) text =
    if re.head? = some star then matchstar c re.tail text
    else if c = dollar ∧ re = [] then text.isEmpty
    else single c (matchhere re) text := by
  cases re with
  | nil => simp [matchhere]
  | cons next re => simp [matchhere, matchstar]

/-! The pattern as a language. -/

inductive Item where
  | one (c : UInt8)
  | many (c : UInt8)
deriving DecidableEq

/-- The items of a pattern, and whether it ends with a lone `$`. -/
structure Pattern where
  items : List Item
  final : Bool
deriving DecidableEq

def Pattern.push (item : Item) (rest : Pattern) : Pattern := ⟨item :: rest.items, rest.final⟩

def parse : List UInt8 → Pattern
  | [] => ⟨[], false⟩
  | [c] => if c = dollar then ⟨[], true⟩ else ⟨[.one c], false⟩
  | c :: next :: re =>
    if next = star then (parse re).push (.many c) else (parse (next :: re)).push (.one c)

/-- The characters that c stands for. -/
def Fits (c t : UInt8) : Prop := c = dot ∨ c = t

def letter (c : UInt8) : Language UInt8 := {w | ∃ t, Fits c t ∧ w = [t]}

def Item.language : Item → Language UInt8
  | .one c => letter c
  | .many c => KStar.kstar (letter c)

def language (items : List Item) : Language UInt8 := (items.map Item.language).prod

/-- The text starts with a word of the pattern, which is all of it before a final `$`. -/
def Pattern.Begins (pattern : Pattern) (text : List UInt8) : Prop :=
  ∃ w rest, w ++ rest = text ∧ w ∈ language pattern.items ∧ (pattern.final = true → rest = [])

/-- Some suffix of the text starts with a word of the pattern; after a `^` it is the text. -/
def Found (re text : List UInt8) : Prop :=
  if re.head? = some caret then (parse re.tail).Begins text
  else ∃ suffix, suffix <:+ text ∧ (parse re).Begins suffix

section Words
variable {c t : UInt8} {w text : List UInt8} {items : List Item} {here : List UInt8 → Bool}

theorem mem_one : w ∈ language (.one c :: items) ↔
    ∃ t rest, w = t :: rest ∧ Fits c t ∧ rest ∈ language items := by
  rw [language, List.map_cons, List.prod_cons, Language.mem_mul]
  constructor
  · rintro ⟨-, ⟨t, fits, rfl⟩, rest, member, rfl⟩
    exact ⟨t, rest, rfl, fits, member⟩
  · rintro ⟨t, rest, rfl, fits, member⟩
    exact ⟨[t], ⟨t, fits, rfl⟩, rest, member, rfl⟩

theorem mem_repeat : w ∈ KStar.kstar (letter c) ↔ ∀ t ∈ w, Fits c t := by
  rw [Language.mem_kstar]
  constructor
  · rintro ⟨words, rfl, all⟩ t member
    obtain ⟨word, among, inside⟩ := List.mem_flatten.1 member
    obtain ⟨t', fits, rfl⟩ := all word among
    rw [List.mem_singleton.1 inside]
    exact fits
  · intro all
    refine ⟨w.map fun t => [t], by rw [← List.flatMap_def, List.flatMap_singleton'], fun word among => ?_⟩
    obtain ⟨t, member, rfl⟩ := List.mem_map.1 among
    exact ⟨t, all t member, rfl⟩

theorem mem_many : w ∈ language (.many c :: items) ↔
    ∃ front rest, w = front ++ rest ∧ (∀ t ∈ front, Fits c t) ∧ rest ∈ language items := by
  rw [language, List.map_cons, List.prod_cons, Language.mem_mul]
  constructor
  · rintro ⟨front, member, rest, member', rfl⟩
    exact ⟨front, rest, rfl, mem_repeat.1 member, member'⟩
  · rintro ⟨front, rest, rfl, all, member⟩
    exact ⟨front, mem_repeat.2 all, rest, member, rfl⟩

theorem single_iff : single c here text = true ↔
    ∃ t rest, text = t :: rest ∧ Fits c t ∧ here rest = true := by
  cases text <;> simp [single, Fits]

theorem starLoop_iff : starLoop c here text = true ↔
    ∃ front rest, text = front ++ rest ∧ (∀ t ∈ front, Fits c t) ∧ here rest = true := by
  induction text with
  | nil =>
    rw [starLoop]
    constructor
    · exact fun is => ⟨[], [], rfl, fun _ member => by simp at member, is⟩
    · rintro ⟨front, rest, empty, -, is⟩
      rwa [(List.append_eq_nil_iff.1 empty.symm).2] at is
  | cons t text ih =>
    simp only [starLoop, Bool.or_eq_true, Bool.and_eq_true, beq_iff_eq, ih]
    constructor
    · rintro (is | ⟨fits, front, rest, rfl, all, is⟩)
      · exact ⟨[], t :: text, rfl, fun _ member => by simp at member, is⟩
      · refine ⟨t :: front, rest, rfl, fun t' member => ?_, is⟩
        rcases List.mem_cons.1 member with rfl | member
        · exact fits.symm.imp_right Eq.symm
        · exact all t' member
    · rintro ⟨front, rest, split, all, is⟩
      cases front with
      | nil =>
        rw [List.nil_append] at split
        exact .inl (by rwa [split])
      | cons t' front =>
        rw [List.cons_append, List.cons.injEq] at split
        obtain ⟨rfl, rfl⟩ := split
        have fits := all t List.mem_cons_self
        exact .inr ⟨fits.symm.imp_left Eq.symm, front, rest, rfl,
          fun t' member => all t' (List.mem_cons_of_mem t member), is⟩

end Words

section Matching
variable {c : UInt8} {re text : List UInt8} {pattern : Pattern}

theorem begins_empty : (⟨[], false⟩ : Pattern).Begins text :=
  ⟨[], text, rfl, Language.nil_mem_one, fun last => by cases last⟩

theorem begins_final : (⟨[], true⟩ : Pattern).Begins text ↔ text = [] := by
  constructor
  · rintro ⟨w, rest, rfl, member, last⟩
    rw [last rfl, (Language.mem_one w).1 member]
    rfl
  · rintro rfl
    exact ⟨[], [], rfl, Language.nil_mem_one, fun _ => rfl⟩

theorem begins_one : (pattern.push (.one c)).Begins text ↔
    ∃ t rest, text = t :: rest ∧ Fits c t ∧ pattern.Begins rest := by
  constructor
  · rintro ⟨w, rest, rfl, member, last⟩
    obtain ⟨t, w, rfl, fits, member⟩ := mem_one.1 member
    exact ⟨t, w ++ rest, rfl, fits, w, rest, rfl, member, last⟩
  · rintro ⟨t, -, rfl, fits, w, rest, rfl, member, last⟩
    exact ⟨t :: w, rest, rfl, mem_one.2 ⟨t, w, rfl, fits, member⟩, last⟩

theorem begins_many : (pattern.push (.many c)).Begins text ↔
    ∃ front rest, text = front ++ rest ∧ (∀ t ∈ front, Fits c t) ∧ pattern.Begins rest := by
  constructor
  · rintro ⟨w, rest, rfl, member, last⟩
    obtain ⟨front, w, rfl, all, member⟩ := mem_many.1 member
    exact ⟨front, w ++ rest, List.append_assoc .., all, w, rest, rfl, member, last⟩
  · rintro ⟨front, -, rfl, all, w, rest, rfl, member, last⟩
    exact ⟨front ++ w, rest, List.append_assoc .., mem_many.2 ⟨front, w, rfl, all, member⟩, last⟩

-- By the recursion of matchhere, which is the one of parse.
theorem matchhere_iff : ∀ re text, matchhere re text = true ↔ (parse re).Begins text
  | [], text => iff_of_true rfl begins_empty
  | [c], text => by
      rw [matchhere, parse]
      split
      · rw [begins_final, List.isEmpty_iff]
      · rw [show (⟨[.one c], false⟩ : Pattern) = Pattern.push (.one c) ⟨[], false⟩ from rfl,
          begins_one, single_iff]
        simp only [begins_empty]
  | c :: next :: re, text => by
      rw [matchhere, parse]
      split
      · rw [begins_many, starLoop_iff]
        simp only [matchhere_iff re]
      · rw [begins_one, single_iff]
        simp only [matchhere_iff (next :: re)]

theorem matchLoop_iff : matchLoop re text = true ↔
    ∃ suffix, suffix <:+ text ∧ matchhere re suffix = true := by
  induction text with
  | nil => simp [matchLoop]
  | cons t text ih =>
    rw [matchLoop, Bool.or_eq_true, ih]
    constructor
    · rintro (here | ⟨suffix, isSuffix, later⟩)
      · exact ⟨_, List.suffix_refl _, here⟩
      · exact ⟨suffix, isSuffix.trans (List.suffix_cons t text), later⟩
    · rintro ⟨suffix, isSuffix, is⟩
      rcases List.suffix_cons_iff.1 isSuffix with rfl | inner
      · exact .inl is
      · exact .inr ⟨suffix, inner, is⟩

/-- match finds exactly the texts that the pattern describes. -/
theorem matchText_iff (re text : List UInt8) : matchText re text = true ↔ Found re text := by
  rw [matchText, Found]
  split
  · exact matchhere_iff re.tail text
  · rw [matchLoop_iff]
    simp only [matchhere_iff]

/-- `^a*.$` on aab. -/
example : matchText [caret, 97, star, dot, dollar] [97, 97, 98] = true := by decide

end Matching

end Xv6.Regex
