import TaggedWire.Scan.State
import TaggedWire.Schema.Basic

/-! # Words

    Names of letters, digits and underscores. A generator puts names into
    source text as they are, so what holds of the text depends on what a
    name can contain: a word holds none of the characters that mean
    something between names. -/

namespace TaggedWire

/-! ## Word characters -/

/-- Letters and digits of ASCII, and the underscore. -/
def isWordChar (c : Char) : Bool := c.isAlphanum || c == '_'

/-- The punctuation of generated text. -/
def separators : List Char :=
  [' ', '\n', ',', '/', '(', ')', '{', '}', '\'', '"']

theorem isWordChar_of_isDigit {c : Char} (h : c.isDigit = true) : isWordChar c = true := by
  simp [isWordChar, Char.isAlphanum, h]

theorem isWordChar_ne {c d : Char} (h : isWordChar c = true) (hd : d ∈ separators) : c ≠ d := by
  have hnone : separators.any isWordChar = false := by decide
  rintro rfl
  exact List.any_eq_false.mp hnone c hd h

theorem Quote.openedBy?_wordChar {c : Char} (h : isWordChar c = true) : openedBy? c = none := by
  rw [openedBy?, if_neg (isWordChar_ne h (by decide)), if_neg (isWordChar_ne h (by decide))]

/-- Word characters lie between the blanks of ASCII and all others. -/
theorem toNat_of_isWordChar {c : Char} (h : isWordChar c = true) :
    0x20 < c.toNat ∧ c.toNat < 0x85 := by
  delta isWordChar Char.isAlphanum Char.isAlpha Char.isUpper Char.isLower Char.isDigit at h
  simp only [Bool.or_eq_true, Bool.and_eq_true, decide_eq_true_eq, UInt32.le_iff_toNat_le,
    ge_iff_le, beq_iff_eq] at h
  change (((65 ≤ c.toNat ∧ c.toNat ≤ 90) ∨ (97 ≤ c.toNat ∧ c.toNat ≤ 122)) ∨
    (48 ≤ c.toNat ∧ c.toNat ≤ 57)) ∨ c = '_' at h
  rcases h with ((h | h) | h) | rfl
  · omega
  · omega
  · omega
  · decide

theorem isBlank_wordChar {c : Char} (h : isWordChar c = true) : isBlank c = false := by
  have hbounds := toNat_of_isWordChar h
  simp only [isBlank, blankRanges, List.any_cons, List.any_nil, Bool.or_eq_false_iff,
    Bool.and_eq_false_iff, decide_eq_false_iff_not, and_true]
  omega

/-! ## Words -/

/-- Not empty, and of word characters only. -/
def IsWord (name : String) : Prop := name ≠ "" ∧ ∀ c ∈ name.toList, isWordChar c = true

instance : DecidablePred IsWord := fun name =>
  decidable_of_iff (name ≠ "" ∧ name.toList.all isWordChar = true) (by rw [List.all_eq_true]; rfl)

/-- A decimal number has word characters only. -/
theorem isWordChar_of_mem_toString {n : Nat} {c : Char} (h : c ∈ (toString n).toList) :
    isWordChar c = true := by
  rw [Nat.toString_eq_repr, Nat.toList_repr] at h
  exact isWordChar_of_isDigit (Nat.isDigit_of_mem_toDigits (by decide) (by decide) h)

/-! ## Schemas whose names are words -/

/-- The enumeration that a field type refers to is named by a word. -/
def FieldType.WordNames : FieldType → Prop
  | .primitive _ => True
  | .optional inner => inner.WordNames
  | .enumRef name => IsWord name

instance FieldType.decidableWordNames : DecidablePred FieldType.WordNames
  | .primitive _ => inferInstanceAs (Decidable True)
  | .optional inner => decidableWordNames inner
  | .enumRef name => inferInstanceAs (Decidable (IsWord name))

/-- All names in a message are words. -/
structure Message.WordNames (m : Message) : Prop where
  name : IsWord m.name
  fields : ∀ f ∈ m.fields, IsWord f.name ∧ f.type.WordNames

/-- All names in an enumeration are words. -/
structure Enumeration.WordNames (e : Enumeration) : Prop where
  name : IsWord e.name
  variants : ∀ variant ∈ e.variants, IsWord variant

/-- All names in a category are words. -/
structure Category.WordNames (c : Category) : Prop where
  name : IsWord c.name
  messages : ∀ m ∈ c.messages, m.WordNames

/-- All names in a schema are words. -/
structure Schema.WordNames (s : Schema) : Prop where
  enums : ∀ e ∈ s.enums, e.WordNames
  categories : ∀ c ∈ s.categories, c.WordNames

end TaggedWire
