import TaggedWire.Codec.BigEndian
import TaggedWire.Codec.Error
import TaggedWire.Schema.Basic
import TaggedWire.Text.Utf8

/-! # Encoding

    A message is its tag byte followed by its fields in declaration order,
    with nothing between them:

      * a string is one length byte and its UTF-8 bytes;
      * numbers are big-endian, floats by their bits;
      * a truth value is `0` or `1`;
      * an optional is `0`, or `1` and the inner value;
      * a variant is its position in its enumeration.

    An `Encoder` appends to an output. When a value cannot be written, what
    was appended before the failure stays in the output: the caller of
    `encodeValue` sees the presence byte of an optional whose content
    failed. `encodeMessage` starts from an output of its own and gives the
    bytes only on success.
-/

namespace TaggedWire

/-- Appends to an output; the output so far survives a failure. -/
abbrev Encoder := EStateM CodecError (List UInt8)

namespace Encoder

/-- Append bytes to the output. -/
def append (bytes : List UInt8) : Encoder Unit := fun out => .ok () (out ++ bytes)

@[simp] theorem append_run (bytes out : List UInt8) :
    append bytes out = .ok () (out ++ bytes) := rfl

end Encoder

/-! ## Primitives -/

/-- The longest string, in bytes, that a length byte can announce. -/
def maxStringLength : Nat := 255

/-- The byte of a truth value. -/
def boolByte (b : Bool) : UInt8 := if b then 1 else 0

/-- The bytes of a primitive value. -/
def primitiveBytes : Primitive → Value → Except CodecError (List UInt8)
  | .string, .string text =>
      let bytes := Utf8.encode text
      if bytes.length ≤ maxStringLength then .ok (UInt8.ofNat bytes.length :: bytes)
      else .error (.stringTooLong bytes.length)
  | .float, .float x => .ok (BigEndian.encode 4 x.bits.toNat)
  | .u8, .u8 n => .ok [n]
  | .u16, .u16 n => .ok (BigEndian.encode 2 n.toNat)
  | .u32, .u32 n => .ok (BigEndian.encode 4 n.toNat)
  | .bool, .bool b => .ok [boolByte b]
  | .floatPair, .floatPair x y =>
      .ok (BigEndian.encode 4 x.bits.toNat ++ BigEndian.encode 4 y.bits.toNat)
  | kind, v => .error (.fieldMismatch (.primitive kind) v.kind)

/-! ## Values -/

namespace Schema

/-- The byte of a variant of a declared enumeration. -/
def encodeEnum (s : Schema) (name variant : String) : Except CodecError UInt8 :=
  match s.enumNamed? name with
  | none => .error (.unknownEnum name)
  | some declared =>
      match declared.indexOf? variant with
      | none => .error (.unknownVariant declared.name variant)
      | some index => .ok index

/-- Append one value of a given type. -/
def encodeValue (s : Schema) : FieldType → Value → Encoder Unit
  | .primitive kind, v =>
      match primitiveBytes kind v with
      | .ok bytes => Encoder.append bytes
      | .error e => throw e
  | .optional _, .absent => Encoder.append [0]
  | .optional inner, .present v =>
      if inner.isOptional then throw .nestedOptional
      else do
        Encoder.append [1]
        s.encodeValue inner v
  | .enumRef name, .enum variant =>
      match s.encodeEnum name variant with
      | .ok index => Encoder.append [index]
      | .error e => throw e
  | type, v => throw (.fieldMismatch type v.kind)

/-- Append the values of a list of fields, in order. -/
def encodeFields (s : Schema) : List Field → List Value → Encoder Unit
  | field :: fields, v :: values => do
      s.encodeValue field.type v
      s.encodeFields fields values
  | _, _ => pure ()

/-! ## Messages -/

/-- The first field whose value has the wrong shape. -/
def firstMisfit? (fields : List Field) (values : List Value) : Option (Field × Value) :=
  (fields.zip values).find? fun (field, v) => !v.fits field.type

/-- The category called `name`. -/
def findCategory (s : Schema) (name : String) : Except CodecError Category :=
  match s.categoryNamed? name with
  | some c => .ok c
  | none => .error (.unknownCategory name)

/-- The message of a category with a given tag. -/
def findMessage (c : Category) (tag : UInt8) : Except CodecError Message :=
  match c.messageByTag? tag with
  | some m => .ok m
  | none => .error (.unknownTag c.name tag)

/-- The bytes of a message of a category. The shape of every field is
    checked before any is written, so a mismatch names the whole type of
    the field. -/
def encodeMessage (s : Schema) (category : String) (m : MessageValue) :
    Except CodecError (List UInt8) := do
  let c ← s.findCategory category
  match c.tagOf? m.name with
  | none => throw (.unknownMessage c.name m.name)
  | some tag =>
      let declared ← findMessage c tag
      if declared.fields.length ≠ m.fields.length then
        throw (.fieldCount declared.name declared.fields.length m.fields.length)
      match firstMisfit? declared.fields m.fields with
      | some (field, v) => throw (.fieldMismatch field.type v.kind)
      | none =>
          match s.encodeFields declared.fields m.fields [tag] with
          | .ok _ out => return out
          | .error e _ => throw e

end Schema

end TaggedWire
