import TaggedWire.Codec.BigEndian
import TaggedWire.Text.Utf8
import TaggedWire.Value.Single

/-! # Primitive routines

    A generated codec leaves the primitives to a set of routines. Writing
    is the same for every codec; reading comes in two sorts, from a buffer
    at a cursor and from a stream of bytes.

    These routines know no reasons for a failure, only that there is one.
    A string that is too long for its length byte is not refused but sent
    as the empty string.
-/

namespace TaggedWire.Starship

/-! ## Writing -/

/-- How a codec appends primitives to an output. -/
structure Writers where
  string : String → List UInt8 → List UInt8
  float : Single → List UInt8 → List UInt8
  u8 : UInt8 → List UInt8 → List UInt8
  u16 : UInt16 → List UInt8 → List UInt8
  u32 : UInt32 → List UInt8 → List UInt8
  bool : Bool → List UInt8 → List UInt8
  floatPair : Single × Single → List UInt8 → List UInt8

/-- Append a string behind its length, or the empty string in its place if
    the length does not fit a byte. -/
def writeString (text : String) (out : List UInt8) : List UInt8 :=
  let bytes := Utf8.encode text
  if bytes.length < 256 then out ++ (UInt8.ofNat bytes.length :: bytes) else out ++ [0]

/-- Append a float. -/
def writeFloat (x : Single) (out : List UInt8) : List UInt8 :=
  out ++ BigEndian.encode 4 x.bits.toNat

/-- The writers of both flavors. -/
def writers : Writers where
  string := writeString
  float := writeFloat
  u8 n out := out ++ [n]
  u16 n out := out ++ BigEndian.encode 2 n.toNat
  u32 n out := out ++ BigEndian.encode 4 n.toNat
  bool b out := out ++ [if b then 1 else 0]
  floatPair pair out := writeFloat pair.2 (writeFloat pair.1 out)

/-! ## Reading -/

/-- The input is not a message. -/
inductive Malformed where
  | malformed
  deriving DecidableEq, Repr

/-- The routines of a codec that reads in a monad. -/
structure Routines (m : Type → Type) extends Writers where
  /-- The next byte: a tag or a presence byte. -/
  readByte : m UInt8
  readString : m String
  readFloat : m Single
  readU8 : m UInt8
  readU16 : m UInt16
  readU32 : m UInt32
  readBool : m Bool
  readFloatPair : m (Single × Single)

/-- The float of four bytes. -/
def floatOfBytes (bytes : List UInt8) : Single := ⟨UInt32.ofNat (BigEndian.decode bytes)⟩

/-! ### From a buffer -/

/-- Reads at a position, which survives a failure. -/
abbrev AtCursor := EStateM Malformed Nat

namespace AtCursor

/-- Take a number of bytes, or none at all. -/
def take (buf : List UInt8) (size : Nat) : AtCursor (List UInt8) := fun index =>
  if index + size ≤ buf.length then .ok ((buf.drop index).take size) (index + size)
  else .error .malformed index

/-- Take one byte. -/
def byte (buf : List UInt8) : AtCursor UInt8 := fun index =>
  match buf[index]? with
  | some b => .ok b (index + 1)
  | none => .error .malformed index

/-- Take a string. -/
def string (buf : List UInt8) : AtCursor String := do
  let size ← byte buf
  match Utf8.decode? (← take buf size.toNat) with
  | some text => return text
  | none => throw .malformed

/-- The routines of the buffer flavor. A pair is taken at once. -/
def routines (buf : List UInt8) : Routines AtCursor where
  toWriters := writers
  readByte := byte buf
  readString := string buf
  readFloat := return floatOfBytes (← take buf 4)
  readU8 := byte buf
  readU16 := return UInt16.ofNat (BigEndian.decode (← take buf 2))
  readU32 := return UInt32.ofNat (BigEndian.decode (← take buf 4))
  readBool := return (← byte buf) > 0
  readFloatPair := do
    let bytes ← take buf 8
    return (floatOfBytes (bytes.take 4), floatOfBytes (bytes.drop 4))

end AtCursor

/-! ### From a stream -/

/-- Takes bytes from a stream; what is left survives a failure. -/
abbrev FromStream := EStateM Malformed (List UInt8)

namespace FromStream

/-- Take one byte. -/
def byte : FromStream UInt8
  | [] => .error .malformed []
  | b :: rest => .ok b rest

/-- Take a number of bytes, one after another. -/
def take : Nat → FromStream (List UInt8)
  | 0 => return []
  | size + 1 => do
      let b ← byte
      return b :: (← take size)

/-- Take a string. -/
def string : FromStream String := do
  let size ← byte
  match Utf8.decode? (← take size.toNat) with
  | some text => return text
  | none => throw .malformed

/-- Take a float. -/
def float : FromStream Single := return floatOfBytes (← take 4)

/-- The routines of the stream flavor. A pair is one float after the
    other. -/
def routines : Routines FromStream where
  toWriters := writers
  readByte := byte
  readString := string
  readFloat := float
  readU8 := byte
  readU16 := return UInt16.ofNat (BigEndian.decode (← take 2))
  readU32 := return UInt32.ofNat (BigEndian.decode (← take 4))
  readBool := return (← byte) > 0
  readFloatPair := do
    let x ← float
    return (x, ← float)

end FromStream

end TaggedWire.Starship
