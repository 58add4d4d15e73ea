import TaggedWire.Proofs.CursorStream
import TaggedWire.Proofs.Encoding
import TaggedWire.Proofs.Numbering
import Mathlib.Data.List.Forall2

/-! # Messages one after another

    The bytes of a message need no marks around them. Messages written one
    after another come back one after another, in the same order, with
    nothing left over and nothing taken from what follows, whatever comes
    before and after them in a buffer or a stream.

    The proof is about the stream decoder: `ReadsBack` says that a reader
    takes exactly the given bytes from any stream that starts with them.
    What holds for the stream decoder holds for the buffer decoder, since
    the two read alike. -/

namespace TaggedWire

variable {α β : Type}

/-! ## Reading back -/

/-- The reader takes exactly these bytes and answers with this value,
    whatever follows. -/
def ReadsBack (y : StreamReader α) (bytes : List UInt8) (a : α) : Prop :=
  ∀ rest, y (bytes ++ rest) = .ok a rest

theorem readsBack_pure (a : α) : ReadsBack (pure a : StreamReader α) [] a := fun _ => rfl

theorem readsBack_bind {y : StreamReader α} {g : α → StreamReader β} {bytes more : List UInt8}
    {a : α} {b : β} (h : ReadsBack y bytes a) (hg : ReadsBack (g a) more b) :
    ReadsBack (y >>= g) (bytes ++ more) b := by
  intro rest
  rw [List.append_assoc, run_bind_of_ok (h (more ++ rest))]
  exact hg rest

/-- A second part that takes nothing. -/
theorem readsBack_answer {y : StreamReader α} {g : α → StreamReader β} {bytes : List UInt8}
    {a : α} {b : β} (h : ReadsBack y bytes a) (hg : g a = pure b) :
    ReadsBack (y >>= g) bytes b := by
  rw [← List.append_nil bytes]
  refine readsBack_bind h ?_
  rw [hg]
  exact readsBack_pure b

theorem readsBack_byte (byte : UInt8) : ReadsBack Stream.nextByte [byte] byte := fun _ => rfl

theorem readsBack_bytes (bytes : List UInt8) :
    ReadsBack (Stream.nextBytes bytes.length) bytes bytes := by
  intro rest
  have hle : bytes.length ≤ (bytes ++ rest).length := by
    rw [List.length_append]
    exact Nat.le_add_right _ _
  rw [Stream.nextBytes_run, if_pos hle, List.take_left, List.drop_left]

/-- A buffer reader takes the same bytes as a stream reader that it reads
    alike with, wherever they stand in the buffer. -/
theorem ReadAlike.of_readsBack {x : CursorReader α} {y : StreamReader α}
    {before bytes after : List UInt8} {a : α}
    (halike : ReadAlike (before ++ bytes ++ after) before.length x y) (h : ReadsBack y bytes a) :
    x before.length = .ok a (before.length + bytes.length) := by
  have hdrop : (before ++ bytes ++ after).drop before.length = bytes ++ after := by
    rw [List.append_assoc, List.drop_left]
  refine halike.ok_iff.mpr ⟨bytes, after, hdrop, rfl, ?_⟩
  rw [hdrop]
  exact h after

/-! ## Primitives -/

/-- A number that fits its width, with `f` applied to it. -/
theorem readsBack_number (width : Nat) {n : Nat} (f : Nat → α) (hn : n < Nat.pow 256 width) :
    ReadsBack (Stream.nextBytes width >>= fun bytes => pure (f (BigEndian.decode bytes)))
      (BigEndian.encode width n) (f n) := by
  have hbytes := readsBack_bytes (BigEndian.encode width n)
  rw [BigEndian.length_encode] at hbytes
  refine readsBack_answer hbytes ?_
  have hback : BigEndian.decode (BigEndian.encode width n) = n := by
    rw [BigEndian.decode_encode]
    exact Nat.mod_eq_of_lt hn
  rw [hback]

theorem readsBack_single (x : Single) :
    ReadsBack Stream.nextSingle (BigEndian.encode 4 x.bits.toNat) x := by
  have hread := readsBack_number 4 (fun n => (⟨UInt32.ofNat n⟩ : Single)) x.bits.toNat_lt
  rwa [UInt32.ofNat_toNat] at hread

/-- A string that its length byte can announce. -/
theorem readsBack_string {text : String} (h : (Utf8.encode text).length ≤ maxStringLength) :
    ReadsBack Stream.nextString
      (UInt8.ofNat (Utf8.encode text).length :: Utf8.encode text) text := by
  have hlength : (UInt8.ofNat (Utf8.encode text).length).toNat = (Utf8.encode text).length :=
    UInt8.toNat_ofNat_of_lt' (Nat.lt_succ_of_le h)
  refine readsBack_bind (readsBack_byte _) ?_
  rw [hlength]
  refine readsBack_answer (readsBack_bytes (Utf8.encode text)) ?_
  rw [Utf8.decode?_encode]

theorem readsBack_primitive {kind : Primitive} {v : Value} {bytes : List UInt8}
    (h : primitiveBytes kind v = .ok bytes) :
    ReadsBack (Stream.nextPrimitive kind) bytes v := by
  unfold primitiveBytes at h
  split at h
  · -- A string is the only primitive that may fail to be written.
    dsimp only at h
    split at h
    · rename_i hle
      cases h
      exact readsBack_answer (readsBack_string hle) rfl
    · cases h
  · cases h
    exact readsBack_answer (readsBack_single _) rfl
  · cases h
    exact readsBack_answer (readsBack_byte _) rfl
  · rename_i n
    cases h
    have hread := readsBack_number 2 (fun n => Value.u16 (UInt16.ofNat n)) n.toNat_lt
    rwa [UInt16.ofNat_toNat] at hread
  · rename_i n
    cases h
    have hread := readsBack_number 4 (fun n => Value.u32 (UInt32.ofNat n)) n.toNat_lt
    rwa [UInt32.ofNat_toNat] at hread
  · rename_i b
    cases h
    have htruth : decide (boolByte b > 0) = b := by cases b <;> rfl
    refine readsBack_answer (readsBack_byte (boolByte b)) ?_
    rw [htruth]
  · cases h
    exact readsBack_bind (readsBack_single _) (readsBack_answer (readsBack_single _) rfl)
  · cases h

/-! ## Values -/

namespace Schema

theorem decodeEnum_of_encodeEnum {s : Schema} {name variant : String} {index : UInt8}
    (h : s.encodeEnum name variant = .ok index) :
    s.decodeEnum name index = .ok (.enum variant) := by
  unfold encodeEnum at h
  unfold decodeEnum
  cases hdeclared : s.enumNamed? name with
  | none => rw [hdeclared] at h; cases h
  | some declared =>
    cases hindex : declared.indexOf? variant with
    | none => rw [hdeclared] at h; simp only [hindex] at h; cases h
    | some found =>
      rw [hdeclared] at h
      simp only [hindex] at h
      cases h
      simp only [Enumeration.variant?_of_indexOf? hindex]

/-- What is not optional is read back by the reader for leaves. -/
theorem readsBack_leaf {s : Schema} {type : FieldType} {v : Value} {bytes : List UInt8}
    (hplain : type.isOptional = false) (h : s.valueBytes type v = .ok bytes) :
    ReadsBack (s.streamLeaf type) bytes v := by
  cases type with
  | optional inner => cases hplain
  | primitive kind => exact readsBack_primitive h
  | enumRef name =>
    obtain ⟨variant, index, rfl, hindex, rfl⟩ := valueBytes_enumRef_ok_iff.mp h
    refine readsBack_answer (readsBack_byte index) ?_
    rw [decodeEnum_of_encodeEnum hindex]

theorem readsBack_value {s : Schema} {type : FieldType} {v : Value} {bytes : List UInt8}
    (h : s.valueBytes type v = .ok bytes) : ReadsBack (s.streamValue type) bytes v := by
  cases type with
  | primitive kind => exact readsBack_leaf rfl h
  | enumRef name => exact readsBack_leaf rfl h
  | optional inner =>
    unfold streamValue
    rcases valueBytes_optional_ok_iff.mp h with ⟨rfl, rfl⟩ | ⟨w, body, rfl, hplain, hbody, rfl⟩
    · exact readsBack_answer (readsBack_byte 0) rfl
    · refine readsBack_bind (readsBack_byte 1) ?_
      exact readsBack_answer (readsBack_leaf hplain hbody) rfl

theorem readsBack_fields {s : Schema} {fields : List Field} {values : List Value}
    {bytes : List UInt8} (hlen : fields.length = values.length)
    (h : s.fieldsBytes fields values = .ok bytes) :
    ReadsBack (s.streamFields fields) bytes values := by
  induction fields generalizing values bytes with
  | nil =>
    cases values with
    | nil => cases h; exact readsBack_pure []
    | cons v values => cases hlen
  | cons field fields ih =>
    cases values with
    | nil => cases hlen
    | cons v values =>
      obtain ⟨first, more, hfirst, hmore, rfl⟩ := fieldsBytes_cons_ok_iff.mp h
      refine readsBack_bind (readsBack_value hfirst) ?_
      exact readsBack_answer (ih (Nat.succ.inj hlen) hmore) rfl

/-- The tag of a name leads back to a message of that name. -/
theorem findMessage_name {c : Category} {name : String} {tag : UInt8} {declared : Message}
    (htag : c.tagOf? name = some tag) (hm : findMessage c tag = .ok declared) :
    declared.name = name := by
  obtain ⟨found, hfound, hname⟩ := Category.messageByTag?_of_tagOf? htag
  rw [findMessage_ok_iff, hfound] at hm
  cases hm
  exact hname

theorem readsBack_message {s : Schema} {category : String} {m : MessageValue}
    {bytes : List UInt8} (h : s.encodeMessage category m = .ok bytes) :
    ReadsBack (s.streamMessage category) bytes m := by
  obtain ⟨c, tag, declared, body, hc, htag, hm, hlen, _, hbody, rfl⟩ := encodeMessage_ok_iff.mp h
  unfold streamMessage
  rw [hc]
  refine readsBack_bind (readsBack_byte tag) ?_
  rw [hm]
  refine readsBack_answer (readsBack_fields hlen hbody) ?_
  rw [findMessage_name htag hm]

theorem encodeMessage_ne_nil {s : Schema} {category : String} {m : MessageValue}
    {bytes : List UInt8} (h : s.encodeMessage category m = .ok bytes) : bytes ≠ [] := by
  obtain ⟨_, _, _, _, _, _, _, _, _, _, rfl⟩ := encodeMessage_ok_iff.mp h
  exact List.cons_ne_nil _ _

/-! ## Sequences of messages -/

/-- Take a number of messages from a buffer, one after another. -/
def decodeMessages (s : Schema) (category : String) (buf : List UInt8) :
    Nat → CursorReader (List MessageValue)
  | 0 => return []
  | count + 1 => do
      let m ← s.decodeMessage category buf
      let ms ← s.decodeMessages category buf count
      return m :: ms

/-- Take a number of messages from a stream, one after another. -/
def streamMessages (s : Schema) (category : String) : Nat → StreamReader (List MessageValue)
  | 0 => return []
  | count + 1 => do
      let m ← s.streamMessage category
      let ms ← s.streamMessages category count
      return m :: ms

/-- Messages with their encodings, in order. -/
def Frames (s : Schema) (category : String) : List MessageValue → List (List UInt8) → Prop :=
  List.Forall₂ fun m bytes => s.encodeMessage category m = .ok bytes

theorem readAlike_messages (s : Schema) (category : String) (buf : List UInt8) (start : Nat)
    (count : Nat) :
    ReadAlike buf start (s.decodeMessages category buf count)
      (s.streamMessages category count) := by
  induction count with
  | zero => exact readAlike_pure []
  | succ count ih =>
    refine readAlike_bind (s.readAlike_message category buf start) fun m => ?_
    exact readAlike_bind ih fun ms => readAlike_pure (m :: ms)

theorem readsBack_messages {s : Schema} {category : String} {ms : List MessageValue}
    {frames : List (List UInt8)} (h : s.Frames category ms frames) :
    ReadsBack (s.streamMessages category ms.length) frames.flatten ms := by
  induction h with
  | nil => exact readsBack_pure []
  | cons hm _ ih =>
    rw [List.flatten_cons]
    exact readsBack_bind (readsBack_message hm) (readsBack_answer ih rfl)

/-- The buffer decoder takes the same bytes as the stream decoder. -/
theorem decodeMessages_of_streamMessages {s : Schema} {category : String} {count : Nat}
    {ms : List MessageValue} {bytes : List UInt8}
    (h : ReadsBack (s.streamMessages category count) bytes ms) (before after : List UInt8) :
    s.decodeMessages category (before ++ bytes ++ after) count before.length =
      .ok ms (before.length + bytes.length) :=
  (s.readAlike_messages category _ _ count).of_readsBack h

/-- Two lists of messages with the same bytes are the same: the first
    message of both is what a reader takes from these bytes. -/
theorem frames_unique {s : Schema} {category : String} {ms ms' : List MessageValue}
    {frames frames' : List (List UInt8)} (h : s.Frames category ms frames)
    (h' : s.Frames category ms' frames') (hbytes : frames.flatten = frames'.flatten) :
    ms = ms' := by
  induction h generalizing ms' frames' with
  | nil =>
    cases h' with
    | nil => rfl
    | cons hm' _ =>
      rw [List.flatten_nil, List.flatten_cons] at hbytes
      exact (encodeMessage_ne_nil hm' (List.append_eq_nil_iff.mp hbytes.symm).1).elim
  | @cons m bytes ms frames hm _ ih =>
    cases h' with
    | nil =>
      rw [List.flatten_nil, List.flatten_cons] at hbytes
      exact (encodeMessage_ne_nil hm (List.append_eq_nil_iff.mp hbytes).1).elim
    | @cons m' bytes' ms' frames' hm' htail' =>
      rw [List.flatten_cons, List.flatten_cons] at hbytes
      -- One reading of the common bytes gives the first message of each list.
      have hread := readsBack_message hm frames.flatten
      rw [hbytes, readsBack_message hm' frames'.flatten] at hread
      injection hread with hsame hrest
      rw [hsame, ih htail' hrest.symm]

/-- **Framing**: messages that were encoded one after another are decoded
    one after another, from a buffer with any bytes before and after them
    and from a stream with any bytes after them. Both decoders give exactly
    these messages and stop right behind them. The bytes determine the
    messages. -/
theorem framing_round_trip (s : Schema) (category : String) {ms : List MessageValue}
    {frames : List (List UInt8)} (h : s.Frames category ms frames)
    (before after : List UInt8) :
    s.decodeMessages category (before ++ frames.flatten ++ after) ms.length before.length =
        .ok ms (before.length + frames.flatten.length) ∧
      s.streamMessages category ms.length (frames.flatten ++ after) = .ok ms after ∧
      ∀ ms' frames', s.Frames category ms' frames' → frames'.flatten = frames.flatten →
        ms' = ms := by
  have hread := readsBack_messages h
  refine ⟨decodeMessages_of_streamMessages hread before after, hread after, ?_⟩
  intro ms' frames' h' hbytes
  exact frames_unique h' h hbytes

/-- Repeated names, a doubled optional, a NaN with a payload and a negative
    zero, between bytes that belong to nothing. -/
theorem framing_round_trip_nan :
    let s : Schema :=
      { enums := [⟨"Side", ["Left", "Left", "Right"]⟩, ⟨"Side", []⟩]
        categories :=
          [⟨"Game", [⟨"Move",
            [⟨"speed", .primitive .float⟩, ⟨"note", .optional (.optional (.primitive .u8))⟩,
             ⟨"side", .enumRef "Side"⟩]⟩, ⟨"Move", []⟩]⟩] }
    let ms : List MessageValue :=
      [⟨"Move", [.float ⟨0x7fc00001⟩, .absent, .enum "Right"]⟩,
       ⟨"Move", [.float ⟨0x80000000⟩, .absent, .enum "Left"]⟩]
    let frames : List (List UInt8) := [[0, 0x7f, 0xc0, 0, 1, 0, 2], [0, 0x80, 0, 0, 0, 0, 0]]
    s.Frames "Game" ms frames ∧
      s.decodeMessages "Game" ([9, 9] ++ frames.flatten ++ [7]) 2 2 = .ok ms 16 := by
  intro s ms frames
  have h : s.Frames "Game" ms frames := .cons rfl (.cons rfl .nil)
  exact ⟨h, (framing_round_trip s "Game" h [9, 9] [7]).1⟩

end Schema

end TaggedWire
