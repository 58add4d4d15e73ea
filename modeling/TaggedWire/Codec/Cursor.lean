import TaggedWire.Codec.Encode

/-! # Decoding from a buffer

    A `CursorReader` reads a buffer from a position and leaves the position
    after what it took, also when it fails:

      * a fixed-size primitive that does not fit in the rest of the buffer
        takes nothing;
      * a string takes its length byte before it looks for its text, and its
        text before the text is checked;
      * an optional takes its presence byte, a variant its byte, before
        anything else is decided.

    Any nonzero byte is a true truth value or a present optional.
-/

namespace TaggedWire

/-- Reads at a position; the position survives a failure. -/
abbrev CursorReader := EStateM CodecError Nat

namespace Cursor

/-! ## Bytes -/

/-- Take the byte at the position. -/
def readByte (buf : List UInt8) : CursorReader UInt8 := fun index =>
  match buf[index]? with
  | some byte => .ok byte (index + 1)
  | none => .error .unexpectedEnd index

/-- Take `count` bytes at the position, or none at all. -/
def readBytes (buf : List UInt8) (count : Nat) : CursorReader (List UInt8) := fun index =>
  if index + count ≤ buf.length then .ok ((buf.drop index).take count) (index + count)
  else .error .unexpectedEnd index

/-- Check that `count` bytes are left, taking nothing. -/
def requireRoom (buf : List UInt8) (count : Nat) : CursorReader Unit := fun index =>
  if buf.length - index < count then .error .unexpectedEnd index
  else .ok () index

/-! ## Primitives -/

/-- Take a float. -/
def readSingle (buf : List UInt8) : CursorReader Single := do
  let bytes ← readBytes buf 4
  return ⟨UInt32.ofNat (BigEndian.decode bytes)⟩

/-- Take a length byte and that many bytes of text. -/
def readString (buf : List UInt8) : CursorReader String := do
  let length ← readByte buf
  let bytes ← readBytes buf length.toNat
  match Utf8.decode? bytes with
  | some text => return text
  | none => throw .invalidUtf8

/-- Take a primitive value. -/
def readPrimitive (buf : List UInt8) (kind : Primitive) : CursorReader Value := do
  match kind.fixedSize? with
  | some size => requireRoom buf size
  | none => pure ()
  match kind with
  | .string => return .string (← readString buf)
  | .float => return .float (← readSingle buf)
  | .u8 => return .u8 (← readByte buf)
  | .u16 => return .u16 (UInt16.ofNat (BigEndian.decode (← readBytes buf 2)))
  | .u32 => return .u32 (UInt32.ofNat (BigEndian.decode (← readBytes buf 4)))
  | .bool => return .bool ((← readByte buf) > 0)
  | .floatPair => do
      let x ← readSingle buf
      let y ← readSingle buf
      return .floatPair x y

end Cursor

/-! ## Values and messages -/

namespace Schema

/-- The variant of a declared enumeration with a given byte. -/
def decodeEnum (s : Schema) (name : String) (byte : UInt8) : Except CodecError Value :=
  match s.enumNamed? name with
  | none => .error (.unknownEnum name)
  | some declared =>
      match declared.variant? byte with
      | none => .error (.enumOutOfRange declared.name byte declared.size)
      | some variant => .ok (.enum variant)

/-- Take a value of a given type from a buffer. -/
def decodeValue (s : Schema) (buf : List UInt8) : FieldType → CursorReader Value
  | .primitive kind => Cursor.readPrimitive buf kind
  | .optional inner => do
      if (← Cursor.readByte buf) = 0 then return .absent
      if inner.isOptional then throw .nestedOptional
      return .present (← s.decodeValue buf inner)
  | .enumRef name => do
      match s.decodeEnum name (← Cursor.readByte buf) with
      | .ok v => return v
      | .error e => throw e

/-- Take the values of a list of fields, in order. -/
def decodeFields (s : Schema) (buf : List UInt8) : List Field → CursorReader (List Value)
  | [] => return []
  | field :: fields => do
      let v ← s.decodeValue buf field.type
      let values ← s.decodeFields buf fields
      return v :: values

/-- Take a message of a category from a buffer. -/
def decodeMessage (s : Schema) (category : String) (buf : List UInt8) :
    CursorReader MessageValue := do
  match s.findCategory category with
  | .error e => throw e
  | .ok c =>
      match findMessage c (← Cursor.readByte buf) with
      | .error e => throw e
      | .ok declared => return ⟨declared.name, ← s.decodeFields buf declared.fields⟩

end Schema

end TaggedWire
