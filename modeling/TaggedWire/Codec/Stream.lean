import TaggedWire.Codec.Cursor

/-! # Decoding from a stream

    A `StreamReader` takes bytes one at a time from what is still to come.
    A byte that was taken is gone, also when the value it belonged to turns
    out to be incomplete. The wire format is the one of the buffer decoder;
    only what a failure leaves behind differs.
-/

namespace TaggedWire

/-- Takes bytes from a stream; what is left survives a failure. -/
abbrev StreamReader := EStateM CodecError (List UInt8)

namespace Stream

/-! ## Bytes -/

/-- Take the next byte. -/
def nextByte : StreamReader UInt8
  | [] => .error .unexpectedEnd []
  | byte :: rest => .ok byte rest

/-- Take `count` bytes, one after another. -/
def nextBytes : Nat → StreamReader (List UInt8)
  | 0 => return []
  | count + 1 => do
      let byte ← nextByte
      let bytes ← nextBytes count
      return byte :: bytes

/-! ## Primitives -/

/-- Take a float. -/
def nextSingle : StreamReader Single := do
  let bytes ← nextBytes 4
  return ⟨UInt32.ofNat (BigEndian.decode bytes)⟩

/-- Take a length byte and that many bytes of text. -/
def nextString : StreamReader String := do
  let length ← nextByte
  let bytes ← nextBytes length.toNat
  match Utf8.decode? bytes with
  | some text => return text
  | none => throw .invalidUtf8

/-- Take a primitive value. -/
def nextPrimitive : Primitive → StreamReader Value
  | .string => return .string (← nextString)
  | .float => return .float (← nextSingle)
  | .u8 => return .u8 (← nextByte)
  | .u16 => return .u16 (UInt16.ofNat (BigEndian.decode (← nextBytes 2)))
  | .u32 => return .u32 (UInt32.ofNat (BigEndian.decode (← nextBytes 4)))
  | .bool => return .bool ((← nextByte) > 0)
  | .floatPair => do
      let x ← nextSingle
      let y ← nextSingle
      return .floatPair x y

end Stream

/-! ## Values and messages -/

namespace Schema

/-- Take a value that is not optional. -/
def streamLeaf (s : Schema) : FieldType → StreamReader Value
  | .primitive kind => Stream.nextPrimitive kind
  | .enumRef name => do
      match s.decodeEnum name (← Stream.nextByte) with
      | .ok v => return v
      | .error e => throw e
  | .optional _ => throw .nestedOptional

/-- Take a value of a given type from a stream. -/
def streamValue (s : Schema) : FieldType → StreamReader Value
  | .optional inner => do
      if (← Stream.nextByte) = 0 then return .absent
      return .present (← s.streamLeaf inner)
  | type => s.streamLeaf type

/-- Take the values of a list of fields, in order. -/
def streamFields (s : Schema) : List Field → StreamReader (List Value)
  | [] => return []
  | field :: fields => do
      let v ← s.streamValue field.type
      let values ← s.streamFields fields
      return v :: values

/-- Take a message of a category from a stream. -/
def streamMessage (s : Schema) (category : String) : StreamReader MessageValue := do
  match s.findCategory category with
  | .error e => throw e
  | .ok c =>
      match findMessage c (← Stream.nextByte) with
      | .error e => throw e
      | .ok declared => return ⟨declared.name, ← s.streamFields declared.fields⟩

end Schema

end TaggedWire
