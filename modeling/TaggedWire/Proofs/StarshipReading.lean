import TaggedWire.Proofs.Lockstep
import TaggedWire.Starship.Codec
import TaggedWire.Starship.Protocol
import Mathlib.Tactic.IntervalCases

/-! # The starship decoders agree with the schema

    The code for the starship protocol and the schema-driven codec are two
    implementations of one format. On every input they take the same bytes:
    both give the same message, or both fail, and in either case they stop
    at the same place. This holds for reading from a buffer and for reading
    from a stream.

    The argument has two halves. Message by message, the typed reader calls
    its routines in the order in which the schema lists the fields
    (`mirrors_toServer`, `mirrors_toClient`); this is the same for every set
    of routines and for every reader that goes through the fields. And each
    set of routines reads a primitive as the schema-driven reader of the same
    sort does (`cursor_mirroring`, `stream_mirroring`). -/

namespace TaggedWire.Starship

variable {ε σ α β γ : Type}

/-! ## Mirroring -/

/-- What a typed reader and a schema-driven reader come to: `view` of the
    same value, or a failure, in the same state. -/
def SameReading (view : α → β) :
    EStateM.Result Malformed σ α → EStateM.Result CodecError σ β → Prop :=
  Outcomes Eq (fun _ _ s t => s = t) fun a b => view a = b

/-- A typed reader that does what another reader does, whatever failures
    that has. -/
def Mirrors (view : α → β) (x : EStateM Malformed σ α) (y : EStateM ε σ β) : Prop :=
  Lockstep Eq Eq (fun _ _ s t => s = t) (fun a b => view a = b) x y

theorem Mirrors.at {view : α → β} {x : EStateM Malformed σ α} {y : EStateM CodecError σ β}
    (h : Mirrors view x y) (s : σ) : SameReading view (x s) (y s) := h s s rfl

theorem mirrors_pure {view : α → β} {a : α} {b : β} (h : view a = b) :
    Mirrors view (pure a : EStateM Malformed σ α) (pure b : EStateM ε σ β) := lockstep_pure h

theorem mirrors_throw {view : α → β} {e : Malformed} {e' : ε} :
    Mirrors view (throw e : EStateM Malformed σ α) (throw e' : EStateM ε σ β) :=
  lockstep_throw fun _ _ h => h

theorem mirrors_bind {δ : Type} {view : α → β} {view' : γ → δ} {x : EStateM Malformed σ α}
    {y : EStateM ε σ β} {f : α → EStateM Malformed σ γ} {g : β → EStateM ε σ δ}
    (h : Mirrors view x y) (hfg : ∀ a, Mirrors view' (f a) (g (view a))) :
    Mirrors view' (x >>= f) (y >>= g) := by
  refine lockstep_bind h ?_
  rintro a _ rfl
  exact hfg a

/-- The other reader may wrap the value it has read. -/
theorem Mirrors.wrap {view : α → β} {x : EStateM Malformed σ α} {y : EStateM ε σ β}
    (h : Mirrors view x y) (f : β → γ) :
    Mirrors (fun a => f (view a)) x (y >>= fun b => pure (f b)) := by
  rw [← bind_pure x]
  exact mirrors_bind h fun a => mirrors_pure rfl

/-! ## Readers that go through the fields

    The two schema-driven decoders differ in how they take a byte and a
    value. What they do with a list of fields and with a tag is the same
    program. -/

/-- Take the values of a list of fields with a reader for values. -/
def readFields (value : FieldType → EStateM ε σ Value) : List Field → EStateM ε σ (List Value)
  | [] => return []
  | field :: fields => do
      let v ← value field.type
      let values ← readFields value fields
      return v :: values

/-- Take the rest of a message of a category, once its tag is there. -/
def readTagged (refuse : UInt8 → ε) (value : FieldType → EStateM ε σ Value) (c : Category)
    (tag : UInt8) : EStateM ε σ MessageValue :=
  match c.messageByTag? tag with
  | none => throw (refuse tag)
  | some declared => do return ⟨declared.name, ← readFields value declared.fields⟩

/-- Take a message of a category with readers for tags and values. -/
def readMessage (refuse : UInt8 → ε) (byte : EStateM ε σ UInt8)
    (value : FieldType → EStateM ε σ Value) (c : Category) : EStateM ε σ MessageValue :=
  byte >>= readTagged refuse value c

theorem decodeFields_eq (s : Schema) (buf : List UInt8) (fields : List Field) :
    s.decodeFields buf fields = readFields (s.decodeValue buf) fields := by
  induction fields with
  | nil => rfl
  | cons field fields ih => rw [Schema.decodeFields, readFields, ih]

theorem streamFields_eq (s : Schema) (fields : List Field) :
    s.streamFields fields = readFields s.streamValue fields := by
  induction fields with
  | nil => rfl
  | cons field fields ih => rw [Schema.streamFields, readFields, ih]

theorem decodeMessage_eq {s : Schema} {category : String} {c : Category}
    (h : s.findCategory category = .ok c) (buf : List UInt8) :
    s.decodeMessage category buf =
      readMessage (.unknownTag c.name) (Cursor.readByte buf) (s.decodeValue buf) c := by
  have hfields : s.decodeFields buf = readFields (s.decodeValue buf) :=
    funext (decodeFields_eq s buf)
  unfold Schema.decodeMessage readMessage readTagged Schema.findMessage
  rw [h, hfields]
  refine bind_congr fun tag => ?_
  cases c.messageByTag? tag with
  | none => rfl
  | some declared => rfl

theorem streamMessage_eq {s : Schema} {category : String} {c : Category}
    (h : s.findCategory category = .ok c) :
    s.streamMessage category =
      readMessage (.unknownTag c.name) Stream.nextByte s.streamValue c := by
  have hfields : s.streamFields = readFields s.streamValue := funext (streamFields_eq s)
  unfold Schema.streamMessage readMessage readTagged Schema.findMessage
  rw [h, hfields]
  refine bind_congr fun tag => ?_
  cases c.messageByTag? tag with
  | none => rfl
  | some declared => rfl

/-! ## Routines -/

/-- The routines of a typed codec read what another reader reads. `byte` and
    `value` are the parts of that reader. -/
structure Mirroring (r : Routines (EStateM Malformed σ)) (byte : EStateM ε σ UInt8)
    (value : FieldType → EStateM ε σ Value) : Prop where
  tag : Mirrors id r.readByte byte
  string : Mirrors Value.string r.readString (value (.primitive .string))
  float : Mirrors Value.float r.readFloat (value (.primitive .float))
  u8 : Mirrors Value.u8 r.readU8 (value (.primitive .u8))
  u16 : Mirrors Value.u16 r.readU16 (value (.primitive .u16))
  u32 : Mirrors Value.u32 r.readU32 (value (.primitive .u32))
  bool : Mirrors Value.bool r.readBool (value (.primitive .bool))
  floatPair : Mirrors (fun pair => Value.floatPair pair.1 pair.2) r.readFloatPair
    (value (.primitive .floatPair))
  optional : ∀ {α : Type} {kind : Primitive} {read : EStateM Malformed σ α} {view : α → Value},
    Mirrors view read (value (.primitive kind)) →
      Mirrors (optionalValue view) (readOptional r read) (value (.optional (.primitive kind)))
  partKind : Mirrors (fun kind => Value.enum kind.name) (PartKind.deserialize r)
    (value (.enumRef "PartKind"))

section

variable {r : Routines (EStateM Malformed σ)}

/-- Any nonzero presence byte announces a value. -/
theorem mirrors_present {byte : EStateM ε σ UInt8} {value : EStateM ε σ Value}
    {read : EStateM Malformed σ α} {view : α → Value} (hbyte : Mirrors id r.readByte byte)
    (hread : Mirrors view read value) :
    Mirrors (optionalValue view) (readOptional r read) (do
      if (← byte) = 0 then return .absent
      return .present (← value)) := by
  refine mirrors_bind hbyte fun presence => ?_
  by_cases hzero : presence = 0
  · subst hzero
    exact mirrors_pure rfl
  · have hpos : presence > 0 := UInt8.pos_iff_ne_zero.mpr hzero
    simp only [hpos, hzero, id, if_true, if_false]
    exact mirrors_bind hread fun a => mirrors_pure rfl

/-- A byte that is none of the first few numbers is at least as large as
    their count. -/
theorem le_toNat_of_unlisted {byte : UInt8} {count : Nat}
    (h : ∀ k < count, byte ≠ UInt8.ofNat k) : count ≤ byte.toNat := by
  by_contra hlt
  exact h byte.toNat (Nat.not_le.mp hlt) UInt8.ofNat_toNat.symm

/-- The part kinds are numbered as the protocol lists them. -/
theorem variant?_partKind (byte : UInt8) :
    partKind.variant? byte = (PartKind.ofByte? byte).map PartKind.name := by
  unfold PartKind.ofByte?
  split
  case h_12 =>
    -- The arm for every other byte: the number is past the last variant.
    have hmany : 11 ≤ byte.toNat :=
      le_toNat_of_unlisted (by intro k hk; interval_cases k <;> assumption)
    exact List.getElem?_eq_none hmany
  all_goals rfl

theorem mirrors_partKind {byte : EStateM CodecError σ UInt8} (hbyte : Mirrors id r.readByte byte) :
    Mirrors (fun kind => Value.enum kind.name) (PartKind.deserialize r) (do
      match protocol.decodeEnum "PartKind" (← byte) with
      | .ok v => return v
      | .error e => throw e) := by
  refine mirrors_bind hbyte fun number => ?_
  have hfound : protocol.enumNamed? "PartKind" = some partKind := rfl
  unfold Schema.decodeEnum
  simp only [hfound, id, variant?_partKind]
  cases PartKind.ofByte? number with
  | none => exact mirrors_throw
  | some kind => exact mirrors_pure rfl

end

/-! ## Messages -/

section

variable {r : Routines (EStateM Malformed σ)} {byte : EStateM ε σ UInt8}
  {value : FieldType → EStateM ε σ Value} {refuse : UInt8 → ε}

/-- The first of several fields: the typed reader takes it and goes on, and
    so does the other reader. -/
theorem mirrors_field {view : α → Value} {view' : γ → β} {x : EStateM Malformed σ α}
    {f : α → EStateM Malformed σ γ} {field : Field} {fields : List Field}
    {k : List Value → EStateM ε σ β} (h : Mirrors view x (value field.type))
    (hmore : ∀ a, Mirrors view' (f a) (readFields value fields >>= fun values =>
      k (view a :: values))) :
    Mirrors view' (x >>= f) (readFields value (field :: fields) >>= k) := by
  rw [readFields, bind_assoc]
  refine mirrors_bind h fun a => ?_
  rw [bind_assoc]
  simp only [pure_bind]
  exact hmore a

theorem mirrors_end {view : α → β} {a : α} {b : β} {k : List Value → EStateM ε σ β}
    (hk : k [] = pure b) (h : view a = b) :
    Mirrors view (pure a : EStateM Malformed σ α) (readFields value [] >>= k) := by
  rw [readFields, pure_bind, hk]
  exact mirrors_pure h

/-- A tag that no message has makes both readers fail. -/
theorem mirrors_unknown {view : α → MessageValue} {c : Category} {tag : UInt8} {e : Malformed}
    (h : c.messages.length ≤ tag.toNat) :
    Mirrors view (throw e : EStateM Malformed σ α) (readTagged refuse value c tag) := by
  have hnone : c.messageByTag? tag = none := List.getElem?_eq_none h
  simp only [readTagged, hnone]
  exact mirrors_throw

theorem mirrors_toServer (h : Mirroring r byte value) :
    Mirrors ToServer.toValue (ToServer.deserialize r) (readMessage refuse byte value toServer) := by
  unfold ToServer.deserialize readMessage
  refine mirrors_bind h.tag fun tag => ?_
  -- One case for each message, with its fields in order, and one for the rest.
  split
  · exact mirrors_field h.string fun _ => mirrors_field (h.optional h.string) fun _ =>
      mirrors_field h.string fun _ => mirrors_end rfl rfl
  · exact mirrors_field h.bool fun _ => mirrors_field h.bool fun _ =>
      mirrors_field h.bool fun _ => mirrors_field h.bool fun _ => mirrors_end rfl rfl
  · exact mirrors_field h.u16 fun _ => mirrors_field h.float fun _ =>
      mirrors_field h.float fun _ => mirrors_end rfl rfl
  · exact mirrors_field h.float fun _ => mirrors_field h.float fun _ => mirrors_end rfl rfl
  · exact mirrors_end rfl rfl
  · exact mirrors_end rfl rfl
  · exact mirrors_end rfl rfl
  · exact mirrors_field h.string fun _ => mirrors_end rfl rfl
  · refine mirrors_unknown (le_toNat_of_unlisted ?_)
    intro k (hk : k < 8)
    interval_cases k <;> assumption

theorem mirrors_toClient (h : Mirroring r byte value) :
    Mirrors ToClient.toValue (ToClient.deserialize r) (readMessage refuse byte value toClient) := by
  unfold ToClient.deserialize readMessage
  refine mirrors_bind h.tag fun tag => ?_
  -- As above: sixteen messages, and the tags that are none of them.
  split
  · exact mirrors_field h.u16 fun _ => mirrors_field h.u16 fun _ =>
      mirrors_field h.bool fun _ => mirrors_end rfl rfl
  · exact mirrors_field h.string fun _ => mirrors_field h.string fun _ =>
      mirrors_field h.float fun _ => mirrors_field h.u16 fun _ =>
      mirrors_field h.floatPair fun _ => mirrors_end rfl rfl
  · exact mirrors_field h.u16 fun _ => mirrors_field h.partKind fun _ => mirrors_end rfl rfl
  · exact mirrors_field h.u16 fun _ => mirrors_field h.float fun _ =>
      mirrors_field h.float fun _ => mirrors_field h.float fun _ =>
      mirrors_field h.float fun _ => mirrors_end rfl rfl
  · exact mirrors_field h.u16 fun _ => mirrors_field (h.optional h.u16) fun _ =>
      mirrors_field h.u8 fun _ => mirrors_end rfl rfl
  · exact mirrors_field h.u16 fun _ => mirrors_end rfl rfl
  · exact mirrors_field h.u16 fun _ => mirrors_field h.u16 fun _ =>
      mirrors_field h.string fun _ => mirrors_end rfl rfl
  · exact mirrors_field h.u16 fun _ => mirrors_field h.bool fun _ =>
      mirrors_field h.bool fun _ => mirrors_field h.bool fun _ => mirrors_field h.bool fun _ =>
      mirrors_field (h.optional h.u16) fun _ => mirrors_end rfl rfl
  · exact mirrors_field h.u16 fun _ => mirrors_end rfl rfl
  · exact mirrors_field h.u32 fun _ => mirrors_end rfl rfl
  · exact mirrors_field h.u32 fun _ => mirrors_field h.bool fun _ => mirrors_end rfl rfl
  · exact mirrors_field h.u16 fun _ => mirrors_end rfl rfl
  · exact mirrors_field h.u16 fun _ => mirrors_end rfl rfl
  · exact mirrors_field h.u16 fun _ => mirrors_end rfl rfl
  · exact mirrors_field h.u16 fun _ => mirrors_field h.float fun _ =>
      mirrors_field h.float fun _ => mirrors_end rfl rfl
  · exact mirrors_field h.string fun _ => mirrors_field h.string fun _ =>
      mirrors_field h.string fun _ => mirrors_end rfl rfl
  · refine mirrors_unknown (le_toNat_of_unlisted ?_)
    intro k (hk : k < 16)
    interval_cases k <;> assumption

end

/-! ## Reading from a buffer -/

theorem mirrors_byte (buf : List UInt8) :
    Mirrors id (AtCursor.byte buf) (Cursor.readByte buf) := by
  rintro index _ rfl
  unfold AtCursor.byte Cursor.readByte
  cases buf[index]? with
  | none => rfl
  | some byte => exact ⟨rfl, rfl⟩

theorem mirrors_take (buf : List UInt8) (size : Nat) :
    Mirrors id (AtCursor.take buf size) (Cursor.readBytes buf size) := by
  rintro index _ rfl
  unfold AtCursor.take Cursor.readBytes
  by_cases hfits : index + size ≤ buf.length
  · rw [if_pos hfits, if_pos hfits]
    exact ⟨rfl, rfl⟩
  · rw [if_neg hfits, if_neg hfits]
    rfl

theorem mirrors_single (buf : List UInt8) :
    Mirrors id (AtCursor.routines buf).readFloat (Cursor.readSingle buf) :=
  mirrors_bind (mirrors_take buf 4) fun _ => mirrors_pure rfl

theorem mirrors_string (buf : List UInt8) :
    Mirrors id (AtCursor.string buf) (Cursor.readString buf) := by
  refine mirrors_bind (mirrors_byte buf) fun size => ?_
  refine mirrors_bind (mirrors_take buf size.toNat) fun bytes => ?_
  simp only [id]
  cases Utf8.decode? bytes with
  | none => exact mirrors_throw
  | some text => exact mirrors_pure rfl

/-- A check for room before a reader that fails in the same way without
    it. -/
theorem mirrors_requireRoom {view : α → β} {x : AtCursor α} {y : CursorReader β}
    {buf : List UInt8} {size : Nat} (h : Mirrors view x y)
    (hshort : ∀ index, buf.length - index < size → y index = .error .unexpectedEnd index) :
    Mirrors view x (Cursor.requireRoom buf size >>= fun _ => y) := by
  rintro index _ rfl
  have hxy := h index index rfl
  show Outcomes _ _ _ _ (EStateM.bind (Cursor.requireRoom buf size) (fun _ => y) index)
  unfold EStateM.bind Cursor.requireRoom
  by_cases hroom : buf.length - index < size
  · rw [hshort index hroom] at hxy
    rw [if_pos hroom]
    exact hxy
  · rw [if_neg hroom]
    exact hxy

/-- Bytes that are not there are not taken. -/
theorem readBytes_short {buf : List UInt8} {size index : Nat} (g : List UInt8 → CursorReader β)
    (h : buf.length - index < size) :
    (Cursor.readBytes buf size >>= g) index = .error .unexpectedEnd index := by
  have hshort : ¬ index + size ≤ buf.length := by omega
  exact run_bind_of_error (if_neg hshort)

theorem readByte_short {buf : List UInt8} {index : Nat} (g : UInt8 → CursorReader β)
    (h : buf.length - index < 1) :
    (Cursor.readByte buf >>= g) index = .error .unexpectedEnd index := by
  have hnone : buf[index]? = none := List.getElem?_eq_none (by omega)
  refine run_bind_of_error ?_
  rw [Cursor.readByte, hnone]

theorem readBytes_room {buf : List UInt8} {size index : Nat} (g : List UInt8 → CursorReader β)
    (h : index + size ≤ buf.length) :
    (Cursor.readBytes buf size >>= g) index =
      g ((buf.drop index).take size) (index + size) := by
  exact run_bind_of_ok (if_pos h)

/-- One side takes eight bytes at once. The other makes sure of eight bytes
    and then takes four and four. -/
theorem mirrors_floatPair (buf : List UInt8) :
    Mirrors (fun pair => Value.floatPair pair.1 pair.2) (AtCursor.routines buf).readFloatPair
      (Cursor.readPrimitive buf .floatPair) := by
  rintro index _ rfl
  show Outcomes _ _ _ (EStateM.bind (AtCursor.take buf 8) _ index)
    (EStateM.bind (Cursor.requireRoom buf 8) _ index)
  unfold EStateM.bind AtCursor.take Cursor.requireRoom
  by_cases hfits : index + 8 ≤ buf.length
  · rw [if_pos hfits, if_neg (by omega)]
    -- The eight bytes at once are the first four and the next four.
    unfold Cursor.readSingle
    simp only [bind_assoc, pure_bind]
    rw [readBytes_room _ (by omega), readBytes_room _ (by omega)]
    refine ⟨?_, rfl⟩
    simp only [floatOfBytes, List.take_take, List.drop_take, List.drop_drop]
    rfl
  · rw [if_neg hfits, if_pos (by omega)]
    rfl

/-- **From a buffer**: the routines take what the schema-driven reader
    takes, up to the position where either of them fails. -/
theorem cursor_mirroring (buf : List UInt8) :
    Mirroring (AtCursor.routines buf) (Cursor.readByte buf) (protocol.decodeValue buf) where
  tag := mirrors_byte buf
  string := (mirrors_string buf).wrap Value.string
  float := by
    refine mirrors_requireRoom ((mirrors_single buf).wrap Value.float) fun index hshort => ?_
    unfold Cursor.readSingle
    rw [bind_assoc]
    exact readBytes_short _ hshort
  u8 := mirrors_requireRoom ((mirrors_byte buf).wrap Value.u8) fun _ hshort =>
    readByte_short _ hshort
  u16 := mirrors_requireRoom (mirrors_bind (mirrors_take buf 2) fun _ => mirrors_pure rfl)
    fun _ hshort => readBytes_short _ hshort
  u32 := mirrors_requireRoom (mirrors_bind (mirrors_take buf 4) fun _ => mirrors_pure rfl)
    fun _ hshort => readBytes_short _ hshort
  bool := mirrors_requireRoom (mirrors_bind (mirrors_byte buf) fun _ => mirrors_pure rfl)
    fun _ hshort => readByte_short _ hshort
  floatPair := mirrors_floatPair buf
  optional hread := mirrors_present (mirrors_byte buf) hread
  partKind := mirrors_partKind (mirrors_byte buf)

/-! ## Reading from a stream -/

theorem mirrors_nextByte : Mirrors id FromStream.byte Stream.nextByte := by
  rintro rest _ rfl
  cases rest with
  | nil => rfl
  | cons byte rest => exact ⟨rfl, rfl⟩

theorem mirrors_nextBytes (size : Nat) :
    Mirrors id (FromStream.take size) (Stream.nextBytes size) := by
  induction size with
  | zero => exact mirrors_pure rfl
  | succ size ih =>
    refine mirrors_bind mirrors_nextByte fun byte => ?_
    exact mirrors_bind ih fun bytes => mirrors_pure rfl

theorem mirrors_nextSingle : Mirrors id FromStream.float Stream.nextSingle :=
  mirrors_bind (mirrors_nextBytes 4) fun _ => mirrors_pure rfl

theorem mirrors_nextString : Mirrors id FromStream.string Stream.nextString := by
  refine mirrors_bind mirrors_nextByte fun size => ?_
  refine mirrors_bind (mirrors_nextBytes size.toNat) fun bytes => ?_
  simp only [id]
  cases Utf8.decode? bytes with
  | none => exact mirrors_throw
  | some text => exact mirrors_pure rfl

/-- **From a stream**: the routines take what the schema-driven reader
    takes, byte by byte. -/
theorem stream_mirroring :
    Mirroring FromStream.routines Stream.nextByte protocol.streamValue where
  tag := mirrors_nextByte
  string := mirrors_nextString.wrap Value.string
  float := mirrors_nextSingle.wrap Value.float
  u8 := mirrors_nextByte.wrap Value.u8
  u16 := mirrors_bind (mirrors_nextBytes 2) fun _ => mirrors_pure rfl
  u32 := mirrors_bind (mirrors_nextBytes 4) fun _ => mirrors_pure rfl
  bool := mirrors_bind mirrors_nextByte fun _ => mirrors_pure rfl
  floatPair := mirrors_bind mirrors_nextSingle fun _ =>
    mirrors_bind mirrors_nextSingle fun _ => mirrors_pure rfl
  optional hread := mirrors_present mirrors_nextByte hread
  partKind := mirrors_partKind mirrors_nextByte

/-! ## Agreement -/

/-- **Agreement**: on every buffer, from every position, and on the stream
    of the bytes there, the starship decoders give the message that the
    schema-driven decoders give and fail where these fail. They stop at the
    same position and leave the same bytes of the stream, also when they
    fail. -/
theorem starship_decoders_agree (buf : List UInt8) (start : Nat) :
    (SameReading ToServer.toValue (ToServer.deserialize (AtCursor.routines buf) start)
        (protocol.decodeMessage "ToServerMsg" buf start) ∧
      SameReading ToClient.toValue (ToClient.deserialize (AtCursor.routines buf) start)
        (protocol.decodeMessage "ToClientMsg" buf start)) ∧
    (SameReading ToServer.toValue (ToServer.deserialize FromStream.routines (buf.drop start))
        (protocol.streamMessage "ToServerMsg" (buf.drop start)) ∧
      SameReading ToClient.toValue (ToClient.deserialize FromStream.routines (buf.drop start))
        (protocol.streamMessage "ToClientMsg" (buf.drop start))) := by
  have hserver : protocol.findCategory "ToServerMsg" = .ok toServer := rfl
  have hclient : protocol.findCategory "ToClientMsg" = .ok toClient := rfl
  rw [decodeMessage_eq hserver, decodeMessage_eq hclient, streamMessage_eq hserver,
    streamMessage_eq hclient]
  -- The messages are compared once; only the routines differ.
  have hbuf := cursor_mirroring buf
  refine ⟨⟨?_, ?_⟩, ?_, ?_⟩
  · exact (mirrors_toServer hbuf).at start
  · exact (mirrors_toClient hbuf).at start
  · exact (mirrors_toServer stream_mirroring).at (buf.drop start)
  · exact (mirrors_toClient stream_mirroring).at (buf.drop start)

end TaggedWire.Starship
