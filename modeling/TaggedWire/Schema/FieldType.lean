/-! # Field types

    A field of a message is a primitive, an optional field, or a reference
    to a declared enumeration. References are by name: a schema may mention
    an enumeration it never declares, and the codec and the lint say so
    where it matters.

    `describe` is the spelling that error messages use.
-/

namespace TaggedWire

/-! ## Primitives -/

/-- The primitive kinds of data on the wire. -/
inductive Primitive where
  | string
  | float
  | u8
  | u16
  | u32
  | bool
  | floatPair
  deriving DecidableEq, Repr

namespace Primitive

/-- Every primitive, in declaration order. -/
def all : List Primitive :=
  [.string, .float, .u8, .u16, .u32, .bool, .floatPair]

/-- The schema-level name of a primitive. -/
def describe : Primitive → String
  | .string => "string"
  | .float => "float"
  | .u8 => "u8"
  | .u16 => "u16"
  | .u32 => "u32"
  | .bool => "bool"
  | .floatPair => "float_pair"

/-- How many bytes a primitive takes, for those where the value does not
    matter. A string carries its own length, so it has no fixed size. -/
def fixedSize? : Primitive → Option Nat
  | .string => none
  | .u8 | .bool => some 1
  | .u16 => some 2
  | .float | .u32 => some 4
  | .floatPair => some 8

end Primitive

/-! ## Field types -/

/-- How one field is encoded. -/
inductive FieldType where
  /-- A primitive kind. -/
  | primitive (kind : Primitive)
  /-- A presence byte, then the inner value if it is there. -/
  | optional (inner : FieldType)
  /-- One byte: the position of a variant in the named enumeration. -/
  | enumRef (name : String)
  deriving DecidableEq, Repr

namespace FieldType

/-- The spelling of a field type in messages to people. -/
def describe : FieldType → String
  | .primitive kind => kind.describe
  | .optional inner => s!"optional<{inner.describe}>"
  | .enumRef name => s!"enum {name}"

/-- Whether the outermost layer is an optional. -/
def isOptional : FieldType → Bool
  | .optional _ => true
  | _ => false

/-- The size of a field type that always takes the same number of bytes
    because it is a fixed-size primitive. -/
def fixedSize? : FieldType → Option Nat
  | .primitive kind => kind.fixedSize?
  | _ => none

@[simp] theorem isOptional_primitive (kind : Primitive) :
    (primitive kind).isOptional = false := rfl

@[simp] theorem isOptional_optional (inner : FieldType) :
    (optional inner).isOptional = true := rfl

@[simp] theorem isOptional_enumRef (name : String) :
    (enumRef name).isOptional = false := rfl

end FieldType

end TaggedWire
