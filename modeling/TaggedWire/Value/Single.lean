/-! # Single-precision numbers by their bits

    The codec moves 32-bit floating-point numbers without looking at them:
    a NaN keeps its payload and a zero its sign. `Single` is therefore the
    bit pattern, with structural equality. Comparing two of them *as
    numbers* is a separate relation, `numEq`, in which a NaN differs from
    everything and both zeros are the same.
-/

namespace TaggedWire

/-- A 32-bit floating-point number, as its bit pattern. -/
structure Single where
  bits : UInt32
  deriving DecidableEq, Repr

namespace Single

/-- The bits without the sign. -/
def magnitude (x : Single) : UInt32 := x.bits &&& 0x7fffffff

/-- All exponent bits set and a payload. -/
def isNaN (x : Single) : Bool := x.magnitude > 0x7f800000

/-- Zero of either sign. -/
def isZero (x : Single) : Bool := x.magnitude == 0

/-- Equality of numbers: false on a NaN, true on two zeros, and otherwise
    equality of bits. -/
def numEq (x y : Single) : Bool :=
  !x.isNaN && !y.isNaN && (x.bits == y.bits || (x.isZero && y.isZero))

end Single

end TaggedWire
