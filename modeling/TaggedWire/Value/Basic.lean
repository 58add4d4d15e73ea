import TaggedWire.Schema.FieldType
import TaggedWire.Value.Single

/-! # Values

    The data that a schema-driven codec reads and writes. A `Value` knows
    its own kind but not the field type it was made for; `fits` says
    whether the two agree. Fitting is about shape only: a string may still
    be too long for the wire and a variant may still be undeclared.

    Structural equality of values compares floats by their bits. `numEq`
    compares them as numbers.
-/

namespace TaggedWire

/-! ## Kinds -/

/-- The outermost shape of a value. -/
inductive ValueKind where
  | string
  | float
  | u8
  | u16
  | u32
  | bool
  | floatPair
  | optional
  | enum
  deriving DecidableEq, Repr

/-- The name of a kind in error messages. -/
def ValueKind.describe : ValueKind → String
  | .string => "string"
  | .float => "float"
  | .u8 => "u8"
  | .u16 => "u16"
  | .u32 => "u32"
  | .bool => "bool"
  | .floatPair => "float_pair"
  | .optional => "optional"
  | .enum => "enum"

/-! ## Values -/

/-- One field's worth of data. -/
inductive Value where
  | string (text : String)
  | float (x : Single)
  | u8 (n : UInt8)
  | u16 (n : UInt16)
  | u32 (n : UInt32)
  | bool (b : Bool)
  | floatPair (x y : Single)
  /-- An optional value that is not there. -/
  | absent
  /-- An optional value that is there. -/
  | present (inner : Value)
  /-- A variant of some enumeration, by name. -/
  | enum (variant : String)
  deriving DecidableEq, Repr

namespace Value

/-- The kind of a value. -/
def kind : Value → ValueKind
  | .string _ => .string
  | .float _ => .float
  | .u8 _ => .u8
  | .u16 _ => .u16
  | .u32 _ => .u32
  | .bool _ => .bool
  | .floatPair _ _ => .floatPair
  | .absent => .optional
  | .present _ => .optional
  | .enum _ => .enum

/-- Whether a value has the shape of a primitive. -/
def fitsPrimitive : Primitive → Value → Bool
  | .string, .string _ => true
  | .float, .float _ => true
  | .u8, .u8 _ => true
  | .u16, .u16 _ => true
  | .u32, .u32 _ => true
  | .bool, .bool _ => true
  | .floatPair, .floatPair _ _ => true
  | _, _ => false

/-- Whether a value has the shape of a field type. -/
def fits : FieldType → Value → Bool
  | .primitive kind, v => v.fitsPrimitive kind
  | .optional _, .absent => true
  | .optional inner, .present v => v.fits inner
  | .enumRef _, .enum _ => true
  | _, _ => false

/-- Equality of values with floats compared as numbers. Values of different
    kinds are never equal. -/
def numEq : Value → Value → Bool
  | .string a, .string b => a == b
  | .float a, .float b => a.numEq b
  | .u8 a, .u8 b => a == b
  | .u16 a, .u16 b => a == b
  | .u32 a, .u32 b => a == b
  | .bool a, .bool b => a == b
  | .floatPair a b, .floatPair c d => a.numEq c && b.numEq d
  | .absent, .absent => true
  | .present a, .present b => a.numEq b
  | .enum a, .enum b => a == b
  | _, _ => false

end Value

/-! ## Messages -/

/-- A message with its data: a name and one value per field. -/
structure MessageValue where
  name : String
  fields : List Value := []
  deriving DecidableEq, Repr

/-- Equality of two lists of values with floats compared as numbers. -/
def valuesNumEq : List Value → List Value → Bool
  | [], [] => true
  | a :: as, b :: bs => a.numEq b && valuesNumEq as bs
  | _, _ => false

/-- Equality of messages with floats compared as numbers. -/
def MessageValue.numEq (a b : MessageValue) : Bool :=
  a.name == b.name && valuesNumEq a.fields b.fields

end TaggedWire
