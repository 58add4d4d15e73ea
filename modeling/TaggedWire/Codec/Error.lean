import TaggedWire.Value.Basic

/-! # Why a message could not be coded

    One constructor per cause. The wording is in `CodecError.message` and
    nowhere else.
-/

namespace TaggedWire

/-- A cause for a failed encoding or decoding. -/
inductive CodecError where
  /-- The input ran out inside a value. -/
  | unexpectedEnd
  /-- No message of the category has this tag. -/
  | unknownTag (category : String) (tag : UInt8)
  /-- No variant of the enumeration has this byte. -/
  | enumOutOfRange (name : String) (index : UInt8) (count : Nat)
  /-- The schema has no such category. -/
  | unknownCategory (name : String)
  /-- The schema has no such enumeration. -/
  | unknownEnum (name : String)
  /-- The category has no such message, or none with a tag. -/
  | unknownMessage (category name : String)
  /-- The enumeration has no such variant, or none with a byte. -/
  | unknownVariant (name variant : String)
  /-- The message has a different number of fields. -/
  | fieldCount (message : String) (expected found : Nat)
  /-- A value has the wrong shape for its field. -/
  | fieldMismatch (expected : FieldType) (found : ValueKind)
  /-- A string has more bytes than its length byte can say. -/
  | stringTooLong (length : Nat)
  /-- The bytes of a string are not UTF-8. -/
  | invalidUtf8
  /-- A present optional directly inside an optional. -/
  | nestedOptional
  deriving DecidableEq, Repr

/-- The text of a codec error. -/
def CodecError.message : CodecError → String
  | .unexpectedEnd => "input ended before the value was complete"
  | .unknownTag category tag => s!"unknown tag {tag} for category `{category}`"
  | .enumOutOfRange name index count =>
      s!"byte {index} is out of range for enum `{name}` ({count} variants)"
  | .unknownCategory name => s!"no category named `{name}`"
  | .unknownEnum name => s!"no enum named `{name}`"
  | .unknownMessage category name => s!"category `{category}` has no message `{name}`"
  | .unknownVariant name variant => s!"enum `{name}` has no variant `{variant}`"
  | .fieldCount message expected found =>
      s!"message `{message}` expects {expected} fields, got {found}"
  | .fieldMismatch expected found =>
      s!"expected {expected.describe}, found {found.describe}"
  | .stringTooLong length => s!"string of {length} bytes does not fit a one-byte length"
  | .invalidUtf8 => "string is not valid UTF-8"
  | .nestedOptional => "optional values cannot be nested directly"

end TaggedWire
