import TaggedWire.Starship.Message
import TaggedWire.Starship.Routines

/-! # The starship codec

    What the code generated for the starship protocol does: `serialize`
    appends a message to an output, `deserialize` reads one. The routines
    are a parameter, so that the same codec reads from a buffer and from a
    stream. Unlike the schema-driven codec it cannot fail to write.
-/

namespace TaggedWire.Starship

/-! ## Writing -/

/-- Append an optional value: a presence byte, then the value. -/
def writeOptional {α : Type} (write : α → List UInt8 → List UInt8) :
    Option α → List UInt8 → List UInt8
  | some a, out => write a (out ++ [1])
  | none, out => out ++ [0]

/-- Append a part kind. -/
def PartKind.serialize (kind : PartKind) (out : List UInt8) : List UInt8 := out ++ [kind.toByte]

/-- Append a message. -/
def ToServer.serialize (w : Writers) (m : ToServer) (out : List UInt8) : List UInt8 :=
  match m with
  | .handshake client session name =>
      out ++ [0] |> w.string client |> writeOptional w.string session |> w.string name
  | .setThrusters forward backward clockwise counterClockwise =>
      out ++ [1] |> w.bool forward |> w.bool backward |> w.bool clockwise |>
        w.bool counterClockwise
  | .commitGrab grabbedId x y => out ++ [2] |> w.u16 grabbedId |> w.float x |> w.float y
  | .moveGrab x y => out ++ [3] |> w.float x |> w.float y
  | .releaseGrab => out ++ [4]
  | .beamOut => out ++ [5]
  | .requestUpdate => out ++ [6]
  | .sendChatMessage msg => out ++ [7] |> w.string msg

/-- Append a message. -/
def ToClient.serialize (w : Writers) (m : ToClient) (out : List UInt8) : List UInt8 :=
  match m with
  | .handshakeAccepted id coreId canBeamout =>
      out ++ [0] |> w.u16 id |> w.u16 coreId |> w.bool canBeamout
  | .addCelestialObject name displayName radius id position =>
      out ++ [1] |> w.string name |> w.string displayName |> w.float radius |> w.u16 id |>
        w.floatPair position
  | .addPart id kind => out ++ [2] |> w.u16 id |> kind.serialize
  | .movePart id x y rotationN rotationI =>
      out ++ [3] |> w.u16 id |> w.float x |> w.float y |> w.float rotationN |>
        w.float rotationI
  | .updatePartMeta id owningPlayer thrustMode =>
      out ++ [4] |> w.u16 id |> writeOptional w.u16 owningPlayer |> w.u8 thrustMode
  | .removePart id => out ++ [5] |> w.u16 id
  | .addPlayer id coreId name => out ++ [6] |> w.u16 id |> w.u16 coreId |> w.string name
  | .updatePlayerMeta id forward backward clockwise counterClockwise grabbedPart =>
      out ++ [7] |> w.u16 id |> w.bool forward |> w.bool backward |> w.bool clockwise |>
        w.bool counterClockwise |> writeOptional w.u16 grabbedPart
  | .removePlayer id => out ++ [8] |> w.u16 id
  | .postSimulationTick yourPower => out ++ [9] |> w.u32 yourPower
  | .updateMyMeta maxPower canBeamout => out ++ [10] |> w.u32 maxPower |> w.bool canBeamout
  | .beamOutAnimation playerId => out ++ [11] |> w.u16 playerId
  | .incinerationAnimation playerId => out ++ [12] |> w.u16 playerId
  | .messagePack count => out ++ [13] |> w.u16 count
  | .updatePlayerVelocity id velX velY => out ++ [14] |> w.u16 id |> w.float velX |> w.float velY
  | .chatMessage username msg color =>
      out ++ [15] |> w.string username |> w.string msg |> w.string color

/-! ## Reading -/

section

variable {m : Type → Type} [Monad m] [MonadExceptOf Malformed m]

/-- Take an optional value: any nonzero presence byte means that it is
    there. -/
def readOptional {α : Type} (r : Routines m) (read : m α) : m (Option α) := do
  if (← r.readByte) > 0 then return some (← read) else return none

/-- Take a part kind. -/
def PartKind.deserialize (r : Routines m) : m PartKind := do
  match PartKind.ofByte? (← r.readByte) with
  | some kind => return kind
  | none => throw Malformed.malformed

/-- Take a message. Its fields are read in order. -/
def ToServer.deserialize (r : Routines m) : m ToServer := do
  match ← r.readByte with
  | 0 => return .handshake (← r.readString) (← readOptional r r.readString) (← r.readString)
  | 1 =>
      return .setThrusters (← r.readBool) (← r.readBool) (← r.readBool) (← r.readBool)
  | 2 => return .commitGrab (← r.readU16) (← r.readFloat) (← r.readFloat)
  | 3 => return .moveGrab (← r.readFloat) (← r.readFloat)
  | 4 => return .releaseGrab
  | 5 => return .beamOut
  | 6 => return .requestUpdate
  | 7 => return .sendChatMessage (← r.readString)
  | _ => throw Malformed.malformed

/-- Take a message. Its fields are read in order. -/
def ToClient.deserialize (r : Routines m) : m ToClient := do
  match ← r.readByte with
  | 0 => return .handshakeAccepted (← r.readU16) (← r.readU16) (← r.readBool)
  | 1 =>
      return .addCelestialObject (← r.readString) (← r.readString) (← r.readFloat)
        (← r.readU16) (← r.readFloatPair)
  | 2 => return .addPart (← r.readU16) (← PartKind.deserialize r)
  | 3 =>
      return .movePart (← r.readU16) (← r.readFloat) (← r.readFloat) (← r.readFloat)
        (← r.readFloat)
  | 4 => return .updatePartMeta (← r.readU16) (← readOptional r r.readU16) (← r.readU8)
  | 5 => return .removePart (← r.readU16)
  | 6 => return .addPlayer (← r.readU16) (← r.readU16) (← r.readString)
  | 7 =>
      return .updatePlayerMeta (← r.readU16) (← r.readBool) (← r.readBool) (← r.readBool)
        (← r.readBool) (← readOptional r r.readU16)
  | 8 => return .removePlayer (← r.readU16)
  | 9 => return .postSimulationTick (← r.readU32)
  | 10 => return .updateMyMeta (← r.readU32) (← r.readBool)
  | 11 => return .beamOutAnimation (← r.readU16)
  | 12 => return .incinerationAnimation (← r.readU16)
  | 13 => return .messagePack (← r.readU16)
  | 14 => return .updatePlayerVelocity (← r.readU16) (← r.readFloat) (← r.readFloat)
  | 15 => return .chatMessage (← r.readString) (← r.readString) (← r.readString)
  | _ => throw Malformed.malformed

end

end TaggedWire.Starship
