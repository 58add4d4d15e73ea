import TaggedWire.Proofs.Acceptance

/-! # How many bytes a value takes

    The bytes of a value are counted in four places. A table has the sizes
    of the primitives, and the buffer decoder checks for room by it. The
    encoder, the buffer decoder and the stream decoder each write or take
    the bytes of every kind on their own. `Value.wireSize` is one count,
    made of the value alone, and all of them keep to it:

      * the encoder, since each byte it writes has a truth mark and a value
        has as many marks as its size says;
      * the stream decoder, by `Completes`, which follows a reader part by
        part and counts the bytes that are gone;
      * the buffer decoder, since it takes what the stream decoder takes.

    What was decoded need not be what would be encoded: a presence byte may
    be any byte but zero, and where a variant is listed twice its second
    byte is never written. The sizes agree all the same. -/

namespace TaggedWire

variable {α β : Type}

/-! ## Sizes -/

/-- How many bytes a value takes: a string its length byte and its text, an
    optional its presence byte and what is inside, a variant one byte, and
    every other primitive the fixed size of its kind. -/
def Value.wireSize : Value → Nat
  | .string text => 1 + text.utf8ByteSize
  | .float _ => Primitive.float.fixedSize?.get rfl
  | .u8 _ => Primitive.u8.fixedSize?.get rfl
  | .u16 _ => Primitive.u16.fixedSize?.get rfl
  | .u32 _ => Primitive.u32.fixedSize?.get rfl
  | .bool _ => Primitive.bool.fixedSize?.get rfl
  | .floatPair _ _ => Primitive.floatPair.fixedSize?.get rfl
  | .absent => 1
  | .present inner => 1 + inner.wireSize
  | .enum _ => 1

/-- The sum of the sizes of a list of values. -/
def sizeOfValues : List Value → Nat
  | [] => 0
  | v :: values => v.wireSize + sizeOfValues values

/-- How many bytes a message takes: its tag and its fields. -/
def MessageValue.wireSize (m : MessageValue) : Nat := 1 + sizeOfValues m.fields

/-- A primitive of a kind with a fixed size takes that size. -/
theorem Value.wireSize_of_fitsPrimitive {kind : Primitive} {v : Value} {size : Nat}
    (hv : v.fitsPrimitive kind = true) (hsize : kind.fixedSize? = some size) :
    v.wireSize = size := by
  unfold Value.fitsPrimitive at hv
  split at hv
  -- A string has no fixed size, and the last case has values of another kind.
  case h_1 => cases hsize
  case h_8 => cases hv
  all_goals
    cases hsize
    rfl

/-- A value has one mark for each byte of its size. -/
theorem Value.length_truthMarks_eq (v : Value) : v.truthMarks.length = v.wireSize := by
  induction v with
  | string text => rw [truthMarks, List.length_replicate, Utf8.length_encode, wireSize]
  | present inner ih => rw [truthMarks, List.length_cons, ih, wireSize, Nat.add_comm]
  | _ => rfl

/-! ## What is written -/

namespace Schema

variable {s : Schema}

theorem length_valueBytes {type : FieldType} {v : Value} {bytes : List UInt8}
    (h : s.valueBytes type v = .ok bytes) : bytes.length = v.wireSize := by
  rw [← length_truthMarks h, v.length_truthMarks_eq]

theorem length_fieldsBytes {fields : List Field} {values : List Value} {bytes : List UInt8}
    (hlen : fields.length = values.length) (h : s.fieldsBytes fields values = .ok bytes) :
    bytes.length = sizeOfValues values := by
  induction fields generalizing values bytes with
  | nil =>
    have hvalues : values = [] := List.length_eq_zero_iff.mp hlen.symm
    subst hvalues
    cases h
    rfl
  | cons field fields ih =>
    cases values with
    | nil => cases hlen
    | cons v values =>
      obtain ⟨first, more, hfirst, hmore, rfl⟩ := fieldsBytes_cons_ok_iff.mp h
      rw [List.length_append, length_valueBytes hfirst, ih (Nat.succ.inj hlen) hmore,
        sizeOfValues]

theorem length_encodeMessage {category : String} {m : MessageValue} {bytes : List UInt8}
    (h : s.encodeMessage category m = .ok bytes) : bytes.length = m.wireSize := by
  obtain ⟨c, tag, declared, body, _, _, _, hlen, _, hbody, rfl⟩ := encodeMessage_ok_iff.mp h
  rw [List.length_cons, length_fieldsBytes hlen hbody, MessageValue.wireSize, Nat.add_comm]

/-- What `encodeValue` appends has the size of the value. -/
theorem encodeValue_appends {type : FieldType} {v : Value} {out written : List UInt8}
    (h : s.encodeValue type v out = .ok () written) :
    ∃ bytes, written = out ++ bytes ∧ bytes.length = v.wireSize := by
  rw [encodeValue_run] at h
  cases hbytes : s.valueBytes type v with
  | error e => rw [hbytes] at h; cases h
  | ok bytes =>
    rw [hbytes] at h
    cases h
    exact ⟨bytes, rfl, length_valueBytes hbytes⟩

end Schema

/-! ## What is taken -/

/-- A reader that takes the rest of an answer of which `before` bytes are
    gone: together they are as many as the size of the answer says. -/
def Completes (size : α → Nat) (before : Nat) (y : StreamReader α) : Prop :=
  ∀ input a rest, y input = .ok a rest →
    ∃ taken, input = taken ++ rest ∧ taken.length + before = size a

section

variable {size : β → Nat} {before : Nat}

theorem completes_pure {b : β} (h : before = size b) :
    Completes size before (pure b : StreamReader β) := by
  intro input a rest hread
  cases hread
  exact ⟨[], rfl, by rw [List.length_nil, Nat.zero_add, h]⟩

theorem completes_throw (e : CodecError) : Completes size before (throw e : StreamReader β) := by
  intro input a rest hread
  cases hread

/-- **Sequencing**: what the first reader takes is gone for the second. -/
theorem completes_bind {first : α → Nat} {y : StreamReader α} {g : α → StreamReader β}
    (h : Completes first 0 y) (hg : ∀ a, Completes size (before + first a) (g a)) :
    Completes size before (y >>= g) := by
  intro input b rest hread
  obtain ⟨a, between, hfirst, hsecond⟩ := run_bind_ok_cases hread
  obtain ⟨taken, rfl, htaken⟩ := h _ _ _ hfirst
  obtain ⟨more, rfl, hmore⟩ := hg a _ _ _ hsecond
  refine ⟨taken ++ more, (List.append_assoc _ _ _).symm, ?_⟩
  rw [List.length_append]
  omega

end

theorem completes_byte : Completes (fun _ => 1) 0 Stream.nextByte := by
  intro input byte rest hread
  obtain ⟨taken, rfl, rfl⟩ := recognizes_byte.only hread
  exact ⟨[byte], rfl, rfl⟩

/-- What is taken for a primitive is as long as what would be written for
    it. -/
theorem completes_primitive (kind : Primitive) :
    Completes Value.wireSize 0 (Stream.nextPrimitive kind) := by
  intro input v rest hread
  -- Only enumerations depend on the schema, so any schema will do.
  obtain ⟨taken, rfl, bytes, hbytes, hvariant⟩ := (Schema.recognizes_primitive {} kind).only hread
  refine ⟨taken, rfl, ?_⟩
  rw [Nat.add_zero, hvariant.1, Schema.length_valueBytes hbytes]

namespace Schema

variable (s : Schema)

theorem wireSize_of_decodeEnum {s : Schema} {name : String} {byte : UInt8} {v : Value}
    (h : s.decodeEnum name byte = .ok v) : v.wireSize = 1 := by
  unfold decodeEnum at h
  split at h
  · cases h
  · split at h
    · cases h
    · cases h
      rfl

/-- What is not optional. A variant may have been decoded from a byte that it
    is never encoded to, so its size is taken from what was decoded. -/
theorem completes_leaf (type : FieldType) : Completes Value.wireSize 0 (s.streamLeaf type) := by
  cases type with
  | primitive kind => exact completes_primitive kind
  | optional inner => exact completes_throw .nestedOptional
  | enumRef name =>
    unfold streamLeaf
    refine completes_bind completes_byte fun byte => ?_
    cases hv : s.decodeEnum name byte with
    | error e => exact completes_throw e
    | ok v => exact completes_pure (wireSize_of_decodeEnum hv).symm

theorem completes_value (type : FieldType) : Completes Value.wireSize 0 (s.streamValue type) := by
  cases type with
  | primitive kind => exact s.completes_leaf (.primitive kind)
  | enumRef name => exact s.completes_leaf (.enumRef name)
  | optional inner =>
    unfold streamValue
    refine completes_bind completes_byte fun presence => ?_
    by_cases hzero : presence = 0
    · rw [if_pos hzero]
      exact completes_pure rfl
    · -- Any other byte counts as one, whatever would have been written.
      rw [if_neg hzero]
      refine completes_bind (s.completes_leaf inner) fun v => completes_pure ?_
      rw [Value.wireSize, Nat.zero_add]

theorem completes_fields (fields : List Field) :
    Completes sizeOfValues 0 (s.streamFields fields) := by
  induction fields with
  | nil => exact completes_pure rfl
  | cons field fields ih =>
    refine completes_bind (s.completes_value field.type) fun v => ?_
    refine completes_bind ih fun values => completes_pure ?_
    rw [sizeOfValues, Nat.zero_add]

theorem completes_message (category : String) :
    Completes MessageValue.wireSize 0 (s.streamMessage category) := by
  unfold streamMessage
  cases s.findCategory category with
  | error e => exact completes_throw e
  | ok c =>
    refine completes_bind completes_byte fun tag => ?_
    cases findMessage c tag with
    | error e => exact completes_throw e
    | ok declared =>
      refine completes_bind (s.completes_fields declared.fields) fun values => completes_pure ?_
      rw [MessageValue.wireSize, Nat.zero_add]

end Schema

/-! ## The law -/

/-- Two decoders, for a buffer and for a stream, that both take as many bytes
    as the size of their answer says. -/
structure TakesSize (x : List UInt8 → CursorReader α) (y : StreamReader α) (size : α → Nat) :
    Prop where
  /-- The position advances by the size. -/
  buffer : ∀ buf start a stop, x buf start = .ok a stop → stop = start + size a
  /-- That many bytes are gone from the front of the stream. -/
  stream : ∀ input a rest, y input = .ok a rest →
    ∃ taken, input = taken ++ rest ∧ taken.length = size a

theorem takesSize_of_completes {x : List UInt8 → CursorReader α} {y : StreamReader α}
    {size : α → Nat} (halike : ∀ buf start, ReadAlike buf start (x buf) y)
    (hy : Completes size 0 y) : TakesSize x y size where
  buffer := by
    intro buf start a stop hread
    obtain ⟨taken, rest, hdrop, rfl, hstream⟩ := (halike buf start).ok_iff.mp hread
    obtain ⟨taken', htaken', hsize⟩ := hy _ _ _ hstream
    -- Both leave the same rest behind, so both have taken the same bytes.
    rw [hdrop] at htaken'
    rw [List.append_cancel_right htaken', ← hsize, Nat.add_zero]
  stream := hy

namespace Schema

/-- **One size law**: a primitive of fixed size has the size that the table
    gives its kind. For every type, encoding a value appends as many bytes
    as its size says, and both decoders take as many as the size of the
    value they answer with. For every category, the same holds of messages,
    whose size is one byte more than the sizes of their fields. -/
theorem wire_size_law (s : Schema) :
    (∀ kind v size, Value.fitsPrimitive kind v = true → kind.fixedSize? = some size →
      v.wireSize = size) ∧
    (∀ type, (∀ v out written, s.encodeValue type v out = .ok () written →
        ∃ bytes, written = out ++ bytes ∧ bytes.length = v.wireSize) ∧
      TakesSize (s.decodeValue · type) (s.streamValue type) Value.wireSize) ∧
    (∀ category, (∀ m bytes, s.encodeMessage category m = .ok bytes →
        bytes.length = m.wireSize) ∧
      TakesSize (s.decodeMessage category) (s.streamMessage category) MessageValue.wireSize) := by
  refine ⟨fun kind v size => Value.wireSize_of_fitsPrimitive, fun type => ⟨?_, ?_⟩,
    fun category => ⟨?_, ?_⟩⟩
  · intro v out written hwritten
    exact encodeValue_appends hwritten
  · exact takesSize_of_completes (fun buf start => s.readAlike_value buf start type)
      (s.completes_value type)
  · intro m bytes hbytes
    exact length_encodeMessage hbytes
  · exact takesSize_of_completes (s.readAlike_message category) (s.completes_message category)

/-- The decoders are given a variant by its second byte, a truth value and a
    presence byte that no encoder writes, and a character of two bytes. -/
theorem wire_size_law_repeated :
    let s : Schema :=
      { enums := [⟨"Side", ["Left", "Left"]⟩]
        categories := [⟨"Game", [⟨"Move",
          [⟨"side", .enumRef "Side"⟩, ⟨"fast", .primitive .bool⟩,
           ⟨"note", .optional (.primitive .string)⟩]⟩]⟩] }
    let m : MessageValue := ⟨"Move", [.enum "Left", .bool true, .present (.string "né")]⟩
    let pair : Value := .floatPair ⟨0⟩ ⟨1⟩
    let written : List UInt8 := [7, 1, 0, 0, 0, 0, 0, 0, 0, 1]
    pair.wireSize = 8 ∧
      s.encodeValue (.optional (.primitive .floatPair)) (.present pair) [7] = .ok () written ∧
      (∃ bytes, written = [7] ++ bytes ∧ bytes.length = (Value.present pair).wireSize) ∧
      s.encodeMessage "Game" m = .ok [0, 0, 1, 1, 3, 0x6e, 0xc3, 0xa9] ∧ 8 = m.wireSize ∧
      s.decodeMessage "Game" [9, 0, 1, 7, 5, 3, 0x6e, 0xc3, 0xa9, 9] 1 = .ok m 9 ∧
      9 = 1 + m.wireSize := by
  intro s m pair written
  obtain ⟨hkinds, hvalues, hmessages⟩ := wire_size_law s
  have hwritten : s.encodeValue (.optional (.primitive .floatPair)) (.present pair) [7] =
      .ok () written := rfl
  have hencoded : s.encodeMessage "Game" m = .ok [0, 0, 1, 1, 3, 0x6e, 0xc3, 0xa9] := by
    decide +kernel
  have hread : s.decodeMessage "Game" [9, 0, 1, 7, 5, 3, 0x6e, 0xc3, 0xa9, 9] 1 = .ok m 9 := rfl
  exact ⟨hkinds .floatPair pair 8 rfl rfl, hwritten, (hvalues _).1 _ _ _ hwritten, hencoded,
    (hmessages "Game").1 _ _ hencoded, hread, (hmessages "Game").2.buffer _ _ _ _ hread⟩

end Schema

end TaggedWire
