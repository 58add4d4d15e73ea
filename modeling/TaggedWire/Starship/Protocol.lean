import TaggedWire.Scan.Mapping
import TaggedWire.Schema.Basic

/-! # The starship protocol

    The protocol of a small browser game, as a schema. Declaration order is
    the wire format: moving a message changes its tag and breaks every
    client built against the old order, so messages are only ever appended.
-/

namespace TaggedWire.Starship

/-! ## Enumerations -/

/-- The kinds of parts a ship is built from. -/
def partKind : Enumeration where
  name := "PartKind"
  variants :=
    ["Core", "Cargo", "LandingThruster", "Hub", "SolarPanel", "Thruster", "SuperThruster",
     "EcoThruster", "PowerHub", "HubThruster", "LandingWheel"]

/-! ## Messages -/

/-- What a client sends to the server. -/
def toServer : Category where
  name := "ToServerMsg"
  messages :=
    [{ name := "Handshake"
       fields :=
        [⟨"client", .primitive .string⟩, ⟨"session", .optional (.primitive .string)⟩,
         ⟨"name", .primitive .string⟩] },
     { name := "SetThrusters"
       fields :=
        [⟨"forward", .primitive .bool⟩, ⟨"backward", .primitive .bool⟩,
         ⟨"clockwise", .primitive .bool⟩, ⟨"counter_clockwise", .primitive .bool⟩] },
     { name := "CommitGrab"
       fields :=
        [⟨"grabbed_id", .primitive .u16⟩, ⟨"x", .primitive .float⟩, ⟨"y", .primitive .float⟩] },
     { name := "MoveGrab"
       fields := [⟨"x", .primitive .float⟩, ⟨"y", .primitive .float⟩] },
     { name := "ReleaseGrab" },
     { name := "BeamOut" },
     { name := "RequestUpdate" },
     { name := "SendChatMessage"
       fields := [⟨"msg", .primitive .string⟩] }]

/-- What the server sends to a client. -/
def toClient : Category where
  name := "ToClientMsg"
  messages :=
    [{ name := "HandshakeAccepted"
       fields :=
        [⟨"id", .primitive .u16⟩, ⟨"core_id", .primitive .u16⟩,
         ⟨"can_beamout", .primitive .bool⟩] },
     { name := "AddCelestialObject"
       fields :=
        [⟨"name", .primitive .string⟩, ⟨"display_name", .primitive .string⟩,
         ⟨"radius", .primitive .float⟩, ⟨"id", .primitive .u16⟩,
         ⟨"position", .primitive .floatPair⟩] },
     { name := "AddPart"
       fields := [⟨"id", .primitive .u16⟩, ⟨"kind", .enumRef "PartKind"⟩] },
     { name := "MovePart"
       fields :=
        [⟨"id", .primitive .u16⟩, ⟨"x", .primitive .float⟩, ⟨"y", .primitive .float⟩,
         ⟨"rotation_n", .primitive .float⟩, ⟨"rotation_i", .primitive .float⟩] },
     { name := "UpdatePartMeta"
       fields :=
        [⟨"id", .primitive .u16⟩, ⟨"owning_player", .optional (.primitive .u16)⟩,
         ⟨"thrust_mode", .primitive .u8⟩] },
     { name := "RemovePart"
       fields := [⟨"id", .primitive .u16⟩] },
     { name := "AddPlayer"
       fields :=
        [⟨"id", .primitive .u16⟩, ⟨"core_id", .primitive .u16⟩, ⟨"name", .primitive .string⟩] },
     { name := "UpdatePlayerMeta"
       fields :=
        [⟨"id", .primitive .u16⟩, ⟨"thrust_forward", .primitive .bool⟩,
         ⟨"thrust_backward", .primitive .bool⟩, ⟨"thrust_clockwise", .primitive .bool⟩,
         ⟨"thrust_counter_clockwise", .primitive .bool⟩,
         ⟨"grabed_part", .optional (.primitive .u16)⟩] },
     { name := "RemovePlayer"
       fields := [⟨"id", .primitive .u16⟩] },
     { name := "PostSimulationTick"
       fields := [⟨"your_power", .primitive .u32⟩] },
     { name := "UpdateMyMeta"
       fields := [⟨"max_power", .primitive .u32⟩, ⟨"can_beamout", .primitive .bool⟩] },
     { name := "BeamOutAnimation"
       fields := [⟨"player_id", .primitive .u16⟩] },
     { name := "IncinerationAnimation"
       fields := [⟨"player_id", .primitive .u16⟩] },
     { name := "MessagePack"
       fields := [⟨"count", .primitive .u16⟩] },
     { name := "UpdatePlayerVelocity"
       fields :=
        [⟨"id", .primitive .u16⟩, ⟨"vel_x", .primitive .float⟩, ⟨"vel_y", .primitive .float⟩] },
     { name := "ChatMessage"
       fields :=
        [⟨"username", .primitive .string⟩, ⟨"msg", .primitive .string⟩,
         ⟨"color", .primitive .string⟩] }]

/-! ## The protocol -/

/-- The whole protocol. -/
def protocol : Schema where
  enums := [partKind]
  categories := [toServer, toClient]

/-- The lookup tables of the browser client, named from its point of view. -/
def mappingTargets : List MappingTarget :=
  [.forDeclaration "ToClientMsg" "FromServer", .forDeclaration "ToServerMsg" "ToServer"]

end TaggedWire.Starship
