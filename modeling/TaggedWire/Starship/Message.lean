import TaggedWire.Value.Basic

/-! # Starship messages

    The messages of the starship protocol as Lean types, one constructor
    per message. `toValue` is the view of a message that the schema-driven
    codec works on.
-/

namespace TaggedWire.Starship

/-! ## Parts -/

/-- The kinds of parts a ship is built from. -/
inductive PartKind where
  | core
  | cargo
  | landingThruster
  | hub
  | solarPanel
  | thruster
  | superThruster
  | ecoThruster
  | powerHub
  | hubThruster
  | landingWheel
  deriving DecidableEq, Repr

namespace PartKind

/-- The name of a part kind in the schema. -/
def name : PartKind → String
  | .core => "Core"
  | .cargo => "Cargo"
  | .landingThruster => "LandingThruster"
  | .hub => "Hub"
  | .solarPanel => "SolarPanel"
  | .thruster => "Thruster"
  | .superThruster => "SuperThruster"
  | .ecoThruster => "EcoThruster"
  | .powerHub => "PowerHub"
  | .hubThruster => "HubThruster"
  | .landingWheel => "LandingWheel"

/-- The byte of a part kind. -/
def toByte : PartKind → UInt8
  | .core => 0
  | .cargo => 1
  | .landingThruster => 2
  | .hub => 3
  | .solarPanel => 4
  | .thruster => 5
  | .superThruster => 6
  | .ecoThruster => 7
  | .powerHub => 8
  | .hubThruster => 9
  | .landingWheel => 10

/-- The part kind with a given byte. -/
def ofByte? : UInt8 → Option PartKind
  | 0 => some .core
  | 1 => some .cargo
  | 2 => some .landingThruster
  | 3 => some .hub
  | 4 => some .solarPanel
  | 5 => some .thruster
  | 6 => some .superThruster
  | 7 => some .ecoThruster
  | 8 => some .powerHub
  | 9 => some .hubThruster
  | 10 => some .landingWheel
  | _ => none

@[simp] theorem ofByte?_toByte (kind : PartKind) : ofByte? kind.toByte = some kind := by
  cases kind <;> rfl

end PartKind

/-! ## To the server -/

/-- A message from a client to the server. -/
inductive ToServer where
  | handshake (client : String) (session : Option String) (name : String)
  | setThrusters (forward backward clockwise counterClockwise : Bool)
  | commitGrab (grabbedId : UInt16) (x y : Single)
  | moveGrab (x y : Single)
  | releaseGrab
  | beamOut
  | requestUpdate
  | sendChatMessage (msg : String)
  deriving DecidableEq, Repr

/-! ## To the client -/

/-- A message from the server to a client. -/
inductive ToClient where
  | handshakeAccepted (id coreId : UInt16) (canBeamout : Bool)
  | addCelestialObject (name displayName : String) (radius : Single) (id : UInt16)
      (position : Single × Single)
  | addPart (id : UInt16) (kind : PartKind)
  | movePart (id : UInt16) (x y rotationN rotationI : Single)
  | updatePartMeta (id : UInt16) (owningPlayer : Option UInt16) (thrustMode : UInt8)
  | removePart (id : UInt16)
  | addPlayer (id coreId : UInt16) (name : String)
  | updatePlayerMeta (id : UInt16)
      (thrustForward thrustBackward thrustClockwise thrustCounterClockwise : Bool)
      (grabbedPart : Option UInt16)
  | removePlayer (id : UInt16)
  | postSimulationTick (yourPower : UInt32)
  | updateMyMeta (maxPower : UInt32) (canBeamout : Bool)
  | beamOutAnimation (playerId : UInt16)
  | incinerationAnimation (playerId : UInt16)
  | messagePack (count : UInt16)
  | updatePlayerVelocity (id : UInt16) (velX velY : Single)
  | chatMessage (username msg color : String)
  deriving DecidableEq, Repr

/-! ## As values -/

/-- An optional value as a value. -/
def optionalValue {α : Type} (f : α → Value) : Option α → Value
  | none => .absent
  | some a => .present (f a)

/-- A message as the schema-driven codec sees it. -/
def ToServer.toValue : ToServer → MessageValue
  | .handshake client session name =>
      ⟨"Handshake", [.string client, optionalValue .string session, .string name]⟩
  | .setThrusters forward backward clockwise counterClockwise =>
      ⟨"SetThrusters",
        [.bool forward, .bool backward, .bool clockwise, .bool counterClockwise]⟩
  | .commitGrab grabbedId x y => ⟨"CommitGrab", [.u16 grabbedId, .float x, .float y]⟩
  | .moveGrab x y => ⟨"MoveGrab", [.float x, .float y]⟩
  | .releaseGrab => ⟨"ReleaseGrab", []⟩
  | .beamOut => ⟨"BeamOut", []⟩
  | .requestUpdate => ⟨"RequestUpdate", []⟩
  | .sendChatMessage msg => ⟨"SendChatMessage", [.string msg]⟩

/-- A message as the schema-driven codec sees it. -/
def ToClient.toValue : ToClient → MessageValue
  | .handshakeAccepted id coreId canBeamout =>
      ⟨"HandshakeAccepted", [.u16 id, .u16 coreId, .bool canBeamout]⟩
  | .addCelestialObject name displayName radius id position =>
      ⟨"AddCelestialObject",
        [.string name, .string displayName, .float radius, .u16 id,
         .floatPair position.1 position.2]⟩
  | .addPart id kind => ⟨"AddPart", [.u16 id, .enum kind.name]⟩
  | .movePart id x y rotationN rotationI =>
      ⟨"MovePart", [.u16 id, .float x, .float y, .float rotationN, .float rotationI]⟩
  | .updatePartMeta id owningPlayer thrustMode =>
      ⟨"UpdatePartMeta", [.u16 id, optionalValue .u16 owningPlayer, .u8 thrustMode]⟩
  | .removePart id => ⟨"RemovePart", [.u16 id]⟩
  | .addPlayer id coreId name => ⟨"AddPlayer", [.u16 id, .u16 coreId, .string name]⟩
  | .updatePlayerMeta id forward backward clockwise counterClockwise grabbedPart =>
      ⟨"UpdatePlayerMeta",
        [.u16 id, .bool forward, .bool backward, .bool clockwise, .bool counterClockwise,
         optionalValue .u16 grabbedPart]⟩
  | .removePlayer id => ⟨"RemovePlayer", [.u16 id]⟩
  | .postSimulationTick yourPower => ⟨"PostSimulationTick", [.u32 yourPower]⟩
  | .updateMyMeta maxPower canBeamout => ⟨"UpdateMyMeta", [.u32 maxPower, .bool canBeamout]⟩
  | .beamOutAnimation playerId => ⟨"BeamOutAnimation", [.u16 playerId]⟩
  | .incinerationAnimation playerId => ⟨"IncinerationAnimation", [.u16 playerId]⟩
  | .messagePack count => ⟨"MessagePack", [.u16 count]⟩
  | .updatePlayerVelocity id velX velY =>
      ⟨"UpdatePlayerVelocity", [.u16 id, .float velX, .float velY]⟩
  | .chatMessage username msg color =>
      ⟨"ChatMessage", [.string username, .string msg, .string color]⟩

/-- The name of a message. -/
def ToServer.name (m : ToServer) : String := m.toValue.name

/-- The name of a message. -/
def ToClient.name (m : ToClient) : String := m.toValue.name

end TaggedWire.Starship
