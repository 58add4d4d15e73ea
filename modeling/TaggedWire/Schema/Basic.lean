import TaggedWire.Schema.FieldType

/-! # Schemas

    A schema lists enumerations and categories of messages. Declaration
    order *is* the wire format: the tag of a message is its position in its
    category, and the byte of a variant is its position in its enumeration.
    One byte carries either number, so only the first 256 entries of a list
    can be named on the wire.

    Nothing here rejects a schema: names may repeat, lists may be empty or
    too long. Lookups by name take the first match.
-/

namespace TaggedWire

/-- How many entries one byte can number. -/
def maxTags : Nat := 256

/-! ## Declarations -/

/-- A named, typed slot of a message. -/
structure Field where
  name : String
  type : FieldType
  deriving DecidableEq, Repr

/-- A message: a name and its fields in wire order. -/
structure Message where
  name : String
  fields : List Field := []
  deriving DecidableEq, Repr

/-- A message without fields is its tag and nothing else. -/
def Message.isUnit (m : Message) : Bool := m.fields.isEmpty

/-- A category: the messages that share one tag space. -/
structure Category where
  name : String
  messages : List Message := []
  deriving DecidableEq, Repr

/-- An enumeration: a name and its variants in wire order. -/
structure Enumeration where
  name : String
  variants : List String
  deriving DecidableEq, Repr

/-- A protocol: its enumerations and categories in declaration order. -/
structure Schema where
  enums : List Enumeration := []
  categories : List Category := []
  deriving DecidableEq, Repr

/-! ## Numbering

    The numbers of the entries of a list, shared by categories and
    enumerations. -/

/-- The entries that a byte can number, each with its number. -/
def tagged {α : Type} (entries : List α) : List (UInt8 × α) :=
  (entries.take maxTags).zipIdx.map fun (entry, position) =>
    (UInt8.ofNat position, entry)

/-- The position of the first entry that satisfies `p`, if a byte can hold
    that position. -/
def bytePosition? {α : Type} (p : α → Bool) (entries : List α) : Option UInt8 :=
  match entries.findIdx? p with
  | some position => if position < maxTags then some (UInt8.ofNat position) else none
  | none => none

/-! ## Lookups -/

namespace Category

/-- The messages that have a tag, in order, each with its tag. -/
def tagged (c : Category) : List (UInt8 × Message) :=
  TaggedWire.tagged c.messages

/-- The tag of the first message called `name`, among those that have one. -/
def tagOf? (c : Category) (name : String) : Option UInt8 :=
  (c.tagged.find? fun entry => entry.2.name == name).map Prod.fst

/-- The message with a given tag. -/
def messageByTag? (c : Category) (tag : UInt8) : Option Message :=
  c.messages[tag.toNat]?

/-- The first message called `name`, whether or not it has a tag. -/
def messageNamed? (c : Category) (name : String) : Option Message :=
  c.messages.find? (·.name == name)

end Category

namespace Enumeration

/-- The byte of the first variant called `variant`. A variant whose first
    position does not fit a byte has none. -/
def indexOf? (e : Enumeration) (variant : String) : Option UInt8 :=
  bytePosition? (· == variant) e.variants

/-- The variant with a given byte. -/
def variant? (e : Enumeration) (index : UInt8) : Option String :=
  e.variants[index.toNat]?

/-- The number of variants. -/
def size (e : Enumeration) : Nat := e.variants.length

/-- The field type that refers to this enumeration. -/
def toFieldType (e : Enumeration) : FieldType := .enumRef e.name

end Enumeration

namespace Schema

/-- The first enumeration called `name`. -/
def enumNamed? (s : Schema) (name : String) : Option Enumeration :=
  s.enums.find? (·.name == name)

/-- The first category called `name`. -/
def categoryNamed? (s : Schema) (name : String) : Option Category :=
  s.categories.find? (·.name == name)

end Schema

end TaggedWire
