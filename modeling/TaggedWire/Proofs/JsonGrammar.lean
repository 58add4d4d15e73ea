import Mathlib.Data.List.Forall2
import TaggedWire.JsonText.Skip

/-! # The grammar of JSON text

    What a JSON text may look like, said without a reader. Every text is a
    list of characters; blanks may stand between any two tokens.

    Strings appear twice. `StringText` relates a string to its spellings: a
    character stands for itself, or is escaped by a letter, or by the hex
    digits of its UTF-16 units. `IsString` is a string whose content is of no
    interest: there any four hex digits will do, so half of a pair may stand
    alone.

    `IsJson` is any JSON value. Its items are part of the same relation, so
    that one induction follows values through all the containers they are
    in. -/

namespace TaggedWire.JsonText

/-! ## Blanks -/

/-- Blanks between tokens. -/
def Blanks (s : List Char) : Prop := ∀ c ∈ s, c ∈ [' ', '\t', '\n', '\r']

/-- A text with blanks on both sides. -/
def Padded (text : List Char → Prop) (s : List Char) : Prop :=
  ∃ before t after, s = before ++ t ++ after ∧ Blanks before ∧ text t ∧ Blanks after

theorem Blanks.nil : Blanks [] := fun _ h => (List.not_mem_nil h).elim

theorem Padded.self {text : List Char → Prop} {s : List Char} (h : text s) : Padded text s :=
  ⟨[], s, [], (List.append_nil s).symm, .nil, h, .nil⟩

/-! ## Strings -/

/-- The hex digits with their values. -/
def hexDigits : List (Char × Nat) :=
  "0123456789abcdef".toList.zipIdx ++ "ABCDEF".toList.zipIdx 10

/-- A `\u` escape: four hex digits. -/
inductive UnitEscape : Nat → List Char → Prop
  | mk {a b c d : Char} {w x y z : Nat} :
      (a, w) ∈ hexDigits → (b, x) ∈ hexDigits → (c, y) ∈ hexDigits → (d, z) ∈ hexDigits →
      UnitEscape (((w * 16 + x) * 16 + y) * 16 + z) ['\\', 'u', a, b, c, d]

/-- The UTF-16 units of a character: one, or two for a character above the
    basic plane. -/
def utf16Units (c : Char) : List Nat :=
  if c.toNat < 0x10000 then [c.toNat]
  else [0xd800 + (c.toNat - 0x10000) / 0x400, 0xdc00 + (c.toNat - 0x10000) % 0x400]

/-- The letters that escape a character, with that character. -/
def letterEscapes : List (Char × Char) :=
  [('"', '"'), ('\\', '\\'), ('/', '/'), ('b', '\x08'), ('f', '\x0c'), ('n', '\n'), ('r', '\r'),
    ('t', '\t')]

/-- A character that may stand for itself in a string. -/
def IsPlain (c : Char) : Prop := 0x20 ≤ c.toNat ∧ c ≠ '"' ∧ c ≠ '\\'

instance (c : Char) : Decidable (IsPlain c) := inferInstanceAs (Decidable (_ ∧ _))

/-- The spellings of a character in a string. -/
inductive CharText : Char → List Char → Prop
  | plain {c : Char} : IsPlain c → CharText c [c]
  | letter {letter c : Char} : (letter, c) ∈ letterEscapes → CharText c ['\\', letter]
  | units {c : Char} {escapes : List (List Char)} :
      List.Forall₂ UnitEscape (utf16Units c) escapes → CharText c escapes.flatten

/-- The spellings of a list of characters. -/
inductive CharsText : List Char → List Char → Prop
  | nil : CharsText [] []
  | cons {c : Char} {cs s t : List Char} :
      CharText c s → CharsText cs t → CharsText (c :: cs) (s ++ t)

/-- The spellings of a string, with its quotes. -/
def StringText (text : String) (s : List Char) : Prop :=
  ∃ body, CharsText text.toList body ∧ s = '"' :: (body ++ ['"'])

/-- Plain characters spell themselves. -/
theorem charsText_plain {s : List Char} (h : ∀ c ∈ s, IsPlain c) : CharsText s s := by
  induction s with
  | nil => exact .nil
  | cons c s ih =>
    exact .cons (.plain (h c List.mem_cons_self)) (ih fun d hd => h d (List.mem_cons_of_mem c hd))

/-- What may stand between the quotes of a string. -/
inductive IsContent : List Char → Prop
  | nil : IsContent []
  | plain {c : Char} {s : List Char} : IsPlain c → IsContent s → IsContent (c :: s)
  | letter {letter c : Char} {s : List Char} :
      (letter, c) ∈ letterEscapes → IsContent s → IsContent ('\\' :: letter :: s)
  | unit {n : Nat} {escape s : List Char} :
      UnitEscape n escape → IsContent s → IsContent (escape ++ s)

/-- A string, whatever it spells. -/
def IsString (s : List Char) : Prop := ∃ body, IsContent body ∧ s = '"' :: (body ++ ['"'])

/-! ## Numbers -/

/-- One digit or more. -/
def IsDigits (s : List Char) : Prop := s ≠ [] ∧ ∀ c ∈ s, c.isDigit = true

/-- The digits before the point: no zero in front of others. -/
def IsWhole (s : List Char) : Prop := IsDigits s ∧ (s.head? = some '0' → s = ['0'])

/-- Nothing, or a point and digits. -/
def IsFraction (s : List Char) : Prop := s = [] ∨ ∃ digits, IsDigits digits ∧ s = '.' :: digits

/-- Nothing, or a letter, perhaps a sign, and digits. -/
def IsExponent (s : List Char) : Prop :=
  s = [] ∨ ∃ letter sign digits, letter ∈ ['e', 'E'] ∧ sign ∈ [[], ['+'], ['-']] ∧
    IsDigits digits ∧ s = letter :: (sign ++ digits)

/-- A number. -/
def IsNumber (s : List Char) : Prop :=
  ∃ sign whole fraction exponent, s = sign ++ (whole ++ (fraction ++ exponent)) ∧
    sign ∈ [[], ['-']] ∧ IsWhole whole ∧ IsFraction fraction ∧ IsExponent exponent

/-! ## Values -/

/-- The character that opens a container. -/
def Container.opening : Container → Char
  | .array => '['
  | .object => '{'

/-- What stands in front of a value in a container: blanks, and in an object
    a key with its colon. -/
def Leads : Container → List Char → Prop
  | .array, s => Blanks s
  | .object, s => ∃ before key between after, s = before ++ (key ++ (between ++ ':' :: after)) ∧
      Blanks before ∧ IsString key ∧ Blanks between ∧ Blanks after

/-- The parts of JSON text that contain each other. -/
inductive Part where
  | value
  /-- The items of a container, from behind the character that opens it to
      the one that closes it. -/
  | items (container : Container)

/-- JSON values, and the items of containers. -/
inductive IsJson : Part → List Char → Prop
  | word {text : String} : text ∈ ["null", "true", "false"] → IsJson .value text.toList
  | number {s : List Char} : IsNumber s → IsJson .value s
  | string {s : List Char} : IsString s → IsJson .value s
  | empty (container : Container) {blanks : List Char} :
      Blanks blanks → IsJson .value (container.opening :: (blanks ++ [container.closing]))
  | full (container : Container) {s : List Char} :
      IsJson (.items container) s →
      IsJson .value (container.opening :: (s ++ [container.closing]))
  | last {container : Container} {lead s blanks : List Char} :
      Leads container lead → IsJson .value s → Blanks blanks →
      IsJson (.items container) (lead ++ (s ++ blanks))
  | more {container : Container} {lead s blanks rest : List Char} :
      Leads container lead → IsJson .value s → Blanks blanks → IsJson (.items container) rest →
      IsJson (.items container) (lead ++ (s ++ (blanks ++ ',' :: rest)))

/-! ## Containers of known items -/

/-- Items with commas between them. -/
inductive Separated {α : Type} (item : α → List Char → Prop) : List α → List Char → Prop
  | last {a : α} {s : List Char} : item a s → Separated item [a] s
  | more {a : α} {as : List α} {s t : List Char} :
      item a s → Separated item as t → Separated item (a :: as) (s ++ ',' :: t)

/-- A container with the given items. -/
inductive Enclosed {α : Type} (container : Container) (item : α → List Char → Prop) :
    List α → List Char → Prop
  | empty {blanks : List Char} :
      Blanks blanks →
      Enclosed container item [] (container.opening :: (blanks ++ [container.closing]))
  | full {as : List α} {s : List Char} :
      Separated item as s →
      Enclosed container item as (container.opening :: (s ++ [container.closing]))

/-- Items are at most one more than there are characters for commas. -/
theorem Separated.length_le {α : Type} {item : α → List Char → Prop} {as : List α}
    {s : List Char} (h : Separated item as s) : as.length ≤ s.length + 1 := by
  induction h with
  | last _ => simp
  | more _ _ ih =>
    simp only [List.length_cons, List.length_append]
    omega

/-! ## Records -/

/-- A field of a record as it is written: its key, whether it may be left
    out, and the texts of its value. -/
structure FieldText where
  key : String
  optional : Prop
  value : List Char → Prop

/-- A member of the object of a record: a field with its value, or a key that
    is no field with any value. -/
def MemberText (fields : List FieldText) (key : String) (s : List Char) : Prop :=
  ∃ name value, s = name ++ ':' :: value ∧ Padded (StringText key) name ∧
    ((∃ field ∈ fields, field.key = key ∧ Padded field.value value) ∨
      (∀ field ∈ fields, field.key ≠ key) ∧ Padded (IsJson .value) value)

/-- The texts of a record: an object in which every field stands once, or not
    at all if it may be left out, in any order and among any other keys. -/
def RecordText (fields : List FieldText) (s : List Char) : Prop :=
  ∃ keys, Enclosed .object (MemberText fields) keys s ∧
    ∀ field ∈ fields, keys.count field.key = 1 ∨ keys.count field.key = 0 ∧ field.optional

end TaggedWire.JsonText
