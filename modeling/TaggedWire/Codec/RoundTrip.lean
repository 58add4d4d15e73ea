import TaggedWire.Codec.Stream

/-! # Sending a message to oneself

    `Schema.roundTrip` encodes a message and decodes the bytes both ways,
    noting how far each decoder came and whether it gave the message back.
    "The same" is equality with floats compared as numbers, so a message
    that holds a NaN never compares equal, although its bits do arrive.
-/

namespace TaggedWire

/-- What came of encoding a message and decoding it again. -/
structure RoundTrip where
  bytes : List UInt8
  /-- Where the buffer decoder stopped. -/
  index : Nat
  /-- How many bytes the stream decoder took. -/
  consumed : Nat
  /-- The buffer decoder gave the message back. -/
  equal : Bool
  /-- The stream decoder gave the message back. -/
  streamEqual : Bool
  deriving DecidableEq, Repr

/-- The state a reader stopped in, and its answer if it gave one. -/
def stoppedAt {ε σ α : Type} : EStateM.Result ε σ α → σ × Option α
  | .ok a state => (state, some a)
  | .error _ state => (state, none)

/-- Encode a message, then decode it from a buffer and from a stream. -/
def Schema.roundTrip (s : Schema) (category : String) (m : MessageValue) :
    Except CodecError RoundTrip := do
  let bytes ← s.encodeMessage category m
  let (index, fromBuffer) := stoppedAt (s.decodeMessage category bytes 0)
  let (rest, fromStream) := stoppedAt (s.streamMessage category bytes)
  return {
    bytes
    index
    consumed := bytes.length - rest.length
    equal := fromBuffer.any (·.numEq m)
    streamEqual := fromStream.any (·.numEq m) }

end TaggedWire
