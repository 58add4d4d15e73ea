import TaggedWire.Proofs.Framing
import TaggedWire.Proofs.StarshipReading

/-! # What the starship encoders send

    The encoders written for the starship protocol cannot refuse a message.
    Where the schema-driven encoder fails, because a string has more bytes
    than its length byte can say, they send the empty string. This is all
    that they do differently: they append the bytes of the message with
    every overlong string replaced, `clipped`, and that message is what
    arrives.

    As for the decoders, the argument has two halves. Message by message, the
    typed encoder appends the tag and calls its routines in the order in
    which the schema lists the fields (`inOrder_toServer`,
    `inOrder_toClient`); this is the same for every set of routines and for
    every relation between a writer and a value. And each routine appends
    what the schema-driven encoder gives (`writing_writers`). -/

namespace TaggedWire

/-! ## Overlong strings -/

/-- A string, or the empty one if a length byte cannot announce it. -/
def clip (text : String) : String :=
  if (Utf8.encode text).length ≤ maxStringLength then text else ""

/-- A value with its string clipped, also inside an optional. -/
def Value.clipped : Value → Value
  | .string text => .string (clip text)
  | .present inner => .present inner.clipped
  | v => v

/-- A message with all of its strings clipped. -/
def MessageValue.clipped (m : MessageValue) : MessageValue :=
  { m with fields := m.fields.map Value.clipped }

namespace Starship

/-- A message with all of its strings clipped. -/
def ToServer.clipped : ToServer → ToServer
  | .handshake client session name =>
      .handshake (clip client) (session.map clip) (clip name)
  | .sendChatMessage msg => .sendChatMessage (clip msg)
  | m => m

/-- A message with all of its strings clipped. -/
def ToClient.clipped : ToClient → ToClient
  | .addCelestialObject name displayName radius id position =>
      .addCelestialObject (clip name) (clip displayName) radius id position
  | .addPlayer id coreId name => .addPlayer id coreId (clip name)
  | .chatMessage username msg color => .chatMessage (clip username) (clip msg) (clip color)
  | m => m

/-- An optional value is clipped where there is one. -/
theorem clipped_optionalValue {α : Type} (f : α → Value) (o : Option α) :
    (optionalValue f o).clipped = optionalValue (fun a => (f a).clipped) o := by
  cases o with
  | none => rfl
  | some a => rfl

theorem optionalValue_map {α β : Type} (f : β → Value) (g : α → β) (o : Option α) :
    optionalValue f (o.map g) = optionalValue (fun a => f (g a)) o := by
  cases o with
  | none => rfl
  | some a => rfl

/-- Clipping the typed message clips every string of its view. -/
theorem ToServer.toValue_clipped (m : ToServer) : m.clipped.toValue = m.toValue.clipped := by
  cases m <;>
    simp [ToServer.clipped, ToServer.toValue, MessageValue.clipped, Value.clipped,
      clipped_optionalValue, optionalValue_map]

theorem ToClient.toValue_clipped (m : ToClient) : m.clipped.toValue = m.toValue.clipped := by
  cases m <;>
    simp [ToClient.clipped, ToClient.toValue, MessageValue.clipped, Value.clipped,
      clipped_optionalValue]

/-! ## Messages are told apart by their views -/

theorem optionalValue_inj {α : Type} {f : α → Value} (hf : Function.Injective f)
    {o o' : Option α} : optionalValue f o = optionalValue f o' ↔ o = o' := by
  refine ⟨fun h => ?_, fun h => h ▸ rfl⟩
  cases o with
  | none =>
    cases o' with
    | none => rfl
    | some b => cases h
  | some a =>
    cases o' with
    | none => cases h
    | some b =>
      injection h with h
      rw [hf h]

theorem PartKind.name_inj {kind kind' : PartKind} : kind.name = kind'.name ↔ kind = kind' := by
  cases kind <;> cases kind' <;> simp [PartKind.name]

theorem ToServer.toValue_injective : Function.Injective ToServer.toValue := by
  intro m m' h
  have hsession := @optionalValue_inj _ Value.string fun _ _ h => Value.string.inj h
  -- Messages of two constructors differ in their names, of one in some field.
  cases m <;> cases m' <;>
    simp only [ToServer.toValue, MessageValue.mk.injEq, String.reduceEq, false_and] at h
  all_goals simp_all

theorem ToClient.toValue_injective : Function.Injective ToClient.toValue := by
  intro m m' h
  have hnumber := @optionalValue_inj _ Value.u16 fun _ _ h => Value.u16.inj h
  cases m <;> cases m' <;>
    simp only [ToClient.toValue, MessageValue.mk.injEq, String.reduceEq, false_and] at h
  all_goals simp_all [PartKind.name_inj, Prod.ext_iff]

/-! ## Messages, field by field

    What follows is about a relation between the writers, the field types
    and the values, given by what it says of each routine. -/

section

variable {w : Writers} {R : FieldType → Value → (List UInt8 → List UInt8) → Prop}

/-- The routines of a codec, each related to the values that it writes. -/
structure Writing (w : Writers) (R : FieldType → Value → (List UInt8 → List UInt8) → Prop) :
    Prop where
  string : ∀ text, R (.primitive .string) (.string text) (w.string text)
  float : ∀ x, R (.primitive .float) (.float x) (w.float x)
  u8 : ∀ n, R (.primitive .u8) (.u8 n) (w.u8 n)
  u16 : ∀ n, R (.primitive .u16) (.u16 n) (w.u16 n)
  u32 : ∀ n, R (.primitive .u32) (.u32 n) (w.u32 n)
  bool : ∀ b, R (.primitive .bool) (.bool b) (w.bool b)
  floatPair : ∀ pair, R (.primitive .floatPair) (.floatPair pair.1 pair.2) (w.floatPair pair)
  optional : ∀ {α : Type} {kind : Primitive} {view : α → Value}
    {write : α → List UInt8 → List UInt8}, (∀ a, R (.primitive kind) (view a) (write a)) →
      ∀ o, R (.optional (.primitive kind)) (optionalValue view o) (writeOptional write o)
  partKind : ∀ kind : PartKind, R (.enumRef "PartKind") (.enum kind.name) kind.serialize

/-- A writer that goes through a list of fields and writes one value after
    another. -/
inductive WritesAll (R : FieldType → Value → (List UInt8 → List UInt8) → Prop) :
    List Field → List Value → (List UInt8 → List UInt8) → Prop where
  | nil : WritesAll R [] [] id
  | cons {field : Field} {fields : List Field} {v : Value} {values : List Value}
      {write more : List UInt8 → List UInt8} (first : R field.type v write)
      (rest : WritesAll R fields values more) :
      WritesAll R (field :: fields) (v :: values) fun out => more (write out)

/-- An encoder of a category that appends the tag of a message and then writes
    its fields as they are declared. -/
def InOrder (R : FieldType → Value → (List UInt8 → List UInt8) → Prop) (c : Category)
    (m : MessageValue) (write : List UInt8 → List UInt8) : Prop :=
  ∃ tag declared fields, c.tagOf? m.name = some tag ∧ c.messageByTag? tag = some declared ∧
    WritesAll R declared.fields m.fields fields ∧ ∀ out, write out = fields (out ++ [tag])

theorem inOrder_toServer (h : Writing w R) (m : ToServer) :
    InOrder R toServer m.toValue (m.serialize w) := by
  cases m with
  | handshake client session name =>
    exact ⟨_, _, _, rfl, rfl, .cons (h.string client) <| .cons (h.optional h.string session) <|
      .cons (h.string name) .nil, fun _ => rfl⟩
  | setThrusters forward backward clockwise counterClockwise =>
    exact ⟨_, _, _, rfl, rfl, .cons (h.bool forward) <| .cons (h.bool backward) <|
      .cons (h.bool clockwise) <| .cons (h.bool counterClockwise) .nil, fun _ => rfl⟩
  | commitGrab grabbedId x y =>
    exact ⟨_, _, _, rfl, rfl, .cons (h.u16 grabbedId) <| .cons (h.float x) <|
      .cons (h.float y) .nil, fun _ => rfl⟩
  | moveGrab x y =>
    exact ⟨_, _, _, rfl, rfl, .cons (h.float x) <| .cons (h.float y) .nil, fun _ => rfl⟩
  | releaseGrab => exact ⟨_, _, _, rfl, rfl, .nil, fun _ => rfl⟩
  | beamOut => exact ⟨_, _, _, rfl, rfl, .nil, fun _ => rfl⟩
  | requestUpdate => exact ⟨_, _, _, rfl, rfl, .nil, fun _ => rfl⟩
  | sendChatMessage msg => exact ⟨_, _, _, rfl, rfl, .cons (h.string msg) .nil, fun _ => rfl⟩

theorem inOrder_toClient (h : Writing w R) (m : ToClient) :
    InOrder R toClient m.toValue (m.serialize w) := by
  cases m with
  | handshakeAccepted id coreId canBeamout =>
    exact ⟨_, _, _, rfl, rfl, .cons (h.u16 id) <| .cons (h.u16 coreId) <|
      .cons (h.bool canBeamout) .nil, fun _ => rfl⟩
  | addCelestialObject name displayName radius id position =>
    exact ⟨_, _, _, rfl, rfl, .cons (h.string name) <| .cons (h.string displayName) <|
      .cons (h.float radius) <| .cons (h.u16 id) <| .cons (h.floatPair position) .nil,
      fun _ => rfl⟩
  | addPart id kind =>
    exact ⟨_, _, _, rfl, rfl, .cons (h.u16 id) <| .cons (h.partKind kind) .nil, fun _ => rfl⟩
  | movePart id x y rotationN rotationI =>
    exact ⟨_, _, _, rfl, rfl, .cons (h.u16 id) <| .cons (h.float x) <| .cons (h.float y) <|
      .cons (h.float rotationN) <| .cons (h.float rotationI) .nil, fun _ => rfl⟩
  | updatePartMeta id owningPlayer thrustMode =>
    exact ⟨_, _, _, rfl, rfl, .cons (h.u16 id) <| .cons (h.optional h.u16 owningPlayer) <|
      .cons (h.u8 thrustMode) .nil, fun _ => rfl⟩
  | removePart id => exact ⟨_, _, _, rfl, rfl, .cons (h.u16 id) .nil, fun _ => rfl⟩
  | addPlayer id coreId name =>
    exact ⟨_, _, _, rfl, rfl, .cons (h.u16 id) <| .cons (h.u16 coreId) <|
      .cons (h.string name) .nil, fun _ => rfl⟩
  | updatePlayerMeta id forward backward clockwise counterClockwise grabbedPart =>
    exact ⟨_, _, _, rfl, rfl, .cons (h.u16 id) <| .cons (h.bool forward) <|
      .cons (h.bool backward) <| .cons (h.bool clockwise) <| .cons (h.bool counterClockwise) <|
      .cons (h.optional h.u16 grabbedPart) .nil, fun _ => rfl⟩
  | removePlayer id => exact ⟨_, _, _, rfl, rfl, .cons (h.u16 id) .nil, fun _ => rfl⟩
  | postSimulationTick yourPower =>
    exact ⟨_, _, _, rfl, rfl, .cons (h.u32 yourPower) .nil, fun _ => rfl⟩
  | updateMyMeta maxPower canBeamout =>
    exact ⟨_, _, _, rfl, rfl, .cons (h.u32 maxPower) <| .cons (h.bool canBeamout) .nil,
      fun _ => rfl⟩
  | beamOutAnimation playerId =>
    exact ⟨_, _, _, rfl, rfl, .cons (h.u16 playerId) .nil, fun _ => rfl⟩
  | incinerationAnimation playerId =>
    exact ⟨_, _, _, rfl, rfl, .cons (h.u16 playerId) .nil, fun _ => rfl⟩
  | messagePack count => exact ⟨_, _, _, rfl, rfl, .cons (h.u16 count) .nil, fun _ => rfl⟩
  | updatePlayerVelocity id velX velY =>
    exact ⟨_, _, _, rfl, rfl, .cons (h.u16 id) <| .cons (h.float velX) <|
      .cons (h.float velY) .nil, fun _ => rfl⟩
  | chatMessage username msg color =>
    exact ⟨_, _, _, rfl, rfl, .cons (h.string username) <| .cons (h.string msg) <|
      .cons (h.string color) .nil, fun _ => rfl⟩

end

/-! ## Routines -/

/-- The writer appends the bytes of this value of this type. -/
def Writes (type : FieldType) (v : Value) (write : List UInt8 → List UInt8) : Prop :=
  ∃ bytes, protocol.valueBytes type v = .ok bytes ∧ ∀ out, write out = out ++ bytes

/-- A string is clipped, and all that is clipped can be written. -/
theorem writes_string (text : String) :
    Writes (.primitive .string) (.string (clip text)) (writers.string text) := by
  by_cases hfits : (Utf8.encode text).length ≤ maxStringLength
  · refine ⟨UInt8.ofNat (Utf8.encode text).length :: Utf8.encode text, ?_, fun out => ?_⟩
    · simp [Schema.valueBytes, primitiveBytes, clip, hfits]
    · have hlt : (Utf8.encode text).length < 256 := Nat.lt_succ_of_le hfits
      simp [writers, writeString, hlt]
  · refine ⟨[0], ?_, fun out => ?_⟩
    · rw [clip, if_neg hfits]
      rfl
    · have hge : ¬ (Utf8.encode text).length < 256 := fun h => hfits (Nat.le_of_lt_succ h)
      simp [writers, writeString, hge]

theorem writes_float (x : Single) : Writes (.primitive .float) (.float x) (writers.float x) :=
  ⟨_, rfl, fun _ => rfl⟩

theorem writes_u8 (n : UInt8) : Writes (.primitive .u8) (.u8 n) (writers.u8 n) :=
  ⟨_, rfl, fun _ => rfl⟩

theorem writes_u16 (n : UInt16) : Writes (.primitive .u16) (.u16 n) (writers.u16 n) :=
  ⟨_, rfl, fun _ => rfl⟩

theorem writes_u32 (n : UInt32) : Writes (.primitive .u32) (.u32 n) (writers.u32 n) :=
  ⟨_, rfl, fun _ => rfl⟩

theorem writes_bool (b : Bool) : Writes (.primitive .bool) (.bool b) (writers.bool b) :=
  ⟨_, rfl, fun _ => rfl⟩

theorem writes_floatPair (pair : Single × Single) :
    Writes (.primitive .floatPair) (.floatPair pair.1 pair.2) (writers.floatPair pair) :=
  ⟨_, rfl, fun _ => List.append_assoc _ _ _⟩

/-- An optional of a primitive is a presence byte and the primitive. -/
theorem writes_optional {α : Type} {kind : Primitive} {view : α → Value}
    {write : α → List UInt8 → List UInt8}
    (h : ∀ a, Writes (.primitive kind) (view a) (write a)) (o : Option α) :
    Writes (.optional (.primitive kind)) (optionalValue view o) (writeOptional write o) := by
  cases o with
  | none => exact ⟨[0], rfl, fun _ => rfl⟩
  | some a =>
    obtain ⟨bytes, hbytes, hwrite⟩ := h a
    refine ⟨1 :: bytes, ?_, fun out => ?_⟩
    · exact Schema.valueBytes_optional_ok_iff.mpr (.inr ⟨_, bytes, rfl, rfl, hbytes, rfl⟩)
    · simp [writeOptional, hwrite]

theorem writes_partKind (kind : PartKind) :
    Writes (.enumRef "PartKind") (.enum kind.name) kind.serialize := by
  refine ⟨[kind.toByte], ?_, fun _ => rfl⟩
  cases kind <;> rfl

/-- Every routine writes its value, and the string routine a clipped one. -/
theorem writing_writers : Writing writers fun type v => Writes type v.clipped where
  string := writes_string
  float := writes_float
  u8 := writes_u8
  u16 := writes_u16
  u32 := writes_u32
  bool := writes_bool
  floatPair := writes_floatPair
  optional := by
    intro α kind view write h o
    rw [clipped_optionalValue]
    exact writes_optional h o
  partKind := writes_partKind

/-! ## Messages -/

/-- The bytes of the fields are appended one after another. -/
theorem WritesAll.fieldsBytes {fields : List Field} {values : List Value}
    {write : List UInt8 → List UInt8}
    (h : WritesAll (fun type v => Writes type v.clipped) fields values write) :
    fields.length = (values.map Value.clipped).length ∧
      ∃ bytes, protocol.fieldsBytes fields (values.map Value.clipped) = .ok bytes ∧
        ∀ out, write out = out ++ bytes := by
  induction h with
  | nil => exact ⟨rfl, [], rfl, fun out => (List.append_nil out).symm⟩
  | @cons _ _ _ _ write more hfirst _ ih =>
    obtain ⟨first, hbytes, hwrite⟩ := hfirst
    obtain ⟨hlen, rest, hrest, hmore⟩ := ih
    refine ⟨congrArg Nat.succ hlen, first ++ rest, ?_, fun out => ?_⟩
    · exact Schema.fieldsBytes_cons_ok_iff.mpr ⟨first, rest, hbytes, hrest, rfl⟩
    · show more (write out) = _
      rw [hmore, hwrite, List.append_assoc]

/-- The encoder appends what the schema-driven encoder gives for this
    message. -/
def Sends (category : String) (m : MessageValue) (write : List UInt8 → List UInt8) : Prop :=
  ∃ bytes, protocol.encodeMessage category m = .ok bytes ∧ ∀ out, write out = out ++ bytes

/-- **A message** is its tag and then its fields. -/
theorem sends_of_inOrder {category : String} {c : Category} {m : MessageValue}
    {write : List UInt8 → List UInt8} (hc : protocol.findCategory category = .ok c)
    (h : InOrder (fun type v => Writes type v.clipped) c m write) :
    Sends category m.clipped write := by
  obtain ⟨tag, declared, fields, htag, hdeclared, hfields, hwrite⟩ := h
  obtain ⟨hlen, body, hbody, happend⟩ := hfields.fieldsBytes
  have hfound : Schema.findMessage c tag = .ok declared := by rw [Schema.findMessage, hdeclared]
  have hfit := Schema.firstMisfit?_of_fieldsBytes hlen hbody
  refine ⟨tag :: body, ?_, fun out => ?_⟩
  · exact Schema.encodeMessage_ok_iff.mpr
      ⟨c, tag, declared, body, hc, htag, hfound, hlen, hfit, hbody, rfl⟩
  · rw [hwrite, happend, List.append_assoc]
    rfl

theorem sends_toServer (m : ToServer) :
    Sends "ToServerMsg" m.clipped.toValue (m.serialize writers) := by
  rw [m.toValue_clipped]
  exact sends_of_inOrder rfl (inOrder_toServer writing_writers m)

theorem sends_toClient (m : ToClient) :
    Sends "ToClientMsg" m.clipped.toValue (m.serialize writers) := by
  rw [m.toValue_clipped]
  exact sends_of_inOrder rfl (inOrder_toClient writing_writers m)

/-! ## Arrival -/

/-- A typed reader takes a message where the schema-driven reader takes its
    view, if no other message has that view. -/
theorem Mirrors.eq_of_ok {σ μ : Type} {view : μ → MessageValue} {x : EStateM Malformed σ μ}
    {y : EStateM CodecError σ MessageValue} (h : Mirrors view x y)
    (hview : Function.Injective view) {m : μ} {start stop : σ}
    (hy : y start = .ok (view m) stop) : x start = .ok m stop := by
  have hread := h.at start
  rw [hy] at hread
  cases hx : x start with
  | error e state => rw [hx] at hread; exact hread.elim
  | ok found state =>
    rw [hx] at hread
    obtain ⟨hfound, rfl⟩ := hread
    rw [hview hfound]

/-- **Arrival**: both typed decoders take back a message that the
    schema-driven encoder has written, and nothing of what follows. -/
theorem arrives {μ : Type} {view : μ → MessageValue} {category : String} {c : Category}
    {fromBuffer : List UInt8 → AtCursor μ} {fromStream : FromStream μ}
    (hc : protocol.findCategory category = .ok c) (hview : Function.Injective view)
    (hbuffer : ∀ buf, Mirrors view (fromBuffer buf)
      (readMessage (.unknownTag c.name) (Cursor.readByte buf) (protocol.decodeValue buf) c))
    (hstream : Mirrors view fromStream
      (readMessage (.unknownTag c.name) Stream.nextByte protocol.streamValue c))
    {m : μ} {bytes : List UInt8} (hbytes : protocol.encodeMessage category (view m) = .ok bytes)
    (before rest : List UInt8) :
    fromBuffer (before ++ bytes ++ rest) before.length =
        .ok m (before.length + bytes.length) ∧
      fromStream (bytes ++ rest) = .ok m rest := by
  have hback := Schema.readsBack_message hbytes
  have hback' := (protocol.readAlike_message category (before ++ bytes ++ rest)
    before.length).of_readsBack hback
  rw [decodeMessage_eq hc] at hback'
  rw [streamMessage_eq hc] at hback
  exact ⟨(hbuffer _).eq_of_ok hview hback', hstream.eq_of_ok hview (hback rest)⟩

/-- **Agreement**: whatever is in the output before, the encoders of both
    flavors append the same bytes, and these are what the schema-driven
    encoder gives for the message with every overlong string clipped. That
    message is what both decoders take from these bytes, whatever
    follows, and they stop right behind them. -/
theorem starship_encoders_agree (out rest : List UInt8) :
    (∀ m : ToServer, m.clipped.toValue = m.toValue.clipped ∧ ∃ bytes,
      protocol.encodeMessage "ToServerMsg" m.toValue.clipped = .ok bytes ∧
      (∀ buf, m.serialize (AtCursor.routines buf).toWriters out = out ++ bytes) ∧
      m.serialize FromStream.routines.toWriters out = out ++ bytes ∧
      ToServer.deserialize (AtCursor.routines (out ++ bytes ++ rest)) out.length =
        .ok m.clipped (out.length + bytes.length) ∧
      ToServer.deserialize FromStream.routines (bytes ++ rest) = .ok m.clipped rest) ∧
    (∀ m : ToClient, m.clipped.toValue = m.toValue.clipped ∧ ∃ bytes,
      protocol.encodeMessage "ToClientMsg" m.toValue.clipped = .ok bytes ∧
      (∀ buf, m.serialize (AtCursor.routines buf).toWriters out = out ++ bytes) ∧
      m.serialize FromStream.routines.toWriters out = out ++ bytes ∧
      ToClient.deserialize (AtCursor.routines (out ++ bytes ++ rest)) out.length =
        .ok m.clipped (out.length + bytes.length) ∧
      ToClient.deserialize FromStream.routines (bytes ++ rest) = .ok m.clipped rest) := by
  have hserver : protocol.findCategory "ToServerMsg" = .ok toServer := rfl
  have hclient : protocol.findCategory "ToClientMsg" = .ok toClient := rfl
  refine ⟨fun m => ?_, fun m => ?_⟩
  · obtain ⟨bytes, hbytes, happend⟩ := sends_toServer m
    have harrives := arrives hserver ToServer.toValue_injective
      (fun buf => mirrors_toServer (cursor_mirroring buf)) (mirrors_toServer stream_mirroring)
      hbytes out rest
    rw [m.toValue_clipped] at hbytes
    exact ⟨m.toValue_clipped, bytes, hbytes, fun _ => happend out, happend out, harrives⟩
  · obtain ⟨bytes, hbytes, happend⟩ := sends_toClient m
    have harrives := arrives hclient ToClient.toValue_injective
      (fun buf => mirrors_toClient (cursor_mirroring buf)) (mirrors_toClient stream_mirroring)
      hbytes out rest
    rw [m.toValue_clipped] at hbytes
    exact ⟨m.toValue_clipped, bytes, hbytes, fun _ => happend out, happend out, harrives⟩

end Starship

end TaggedWire
