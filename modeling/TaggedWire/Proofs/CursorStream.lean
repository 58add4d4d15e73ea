import TaggedWire.Proofs.Lockstep

/-! # Buffer and stream decoding agree

    The buffer decoder and the stream decoder are two programs. One checks
    the room for a whole value before it takes anything and recurses
    through optionals; the other takes byte after byte and goes through a
    separate reader for what is not optional. On every input, well-formed
    or not, they give the same answer or fail for the same reason.

    `InStep` relates a position in the buffer to what is left of the
    stream: the position has moved by as many bytes as the stream has lost.
    It holds at every point where neither decoder has failed. Only a
    failure for want of input breaks it, since the buffer decoder then
    leaves bytes that the stream decoder has taken. -/

namespace TaggedWire

open EStateM (Result)

variable {α β : Type} {buf : List UInt8} {start : Nat}

/-! ## Positions and streams -/

/-- The position has moved on from `start` by the number of bytes that were
    taken from the stream of the bytes at `start`. -/
def InStep (buf : List UInt8) (start index : Nat) (rest : List UInt8) : Prop :=
  ∃ taken, buf.drop start = taken ++ rest ∧ index = start + taken.length

/-- Both decoders fail for the same reason. At the end of the input the
    stream is used up; otherwise they are still in step. -/
def SameFailure (buf : List UInt8) (start : Nat) (e e' : CodecError) (index : Nat)
    (rest : List UInt8) : Prop :=
  e = e' ∧ if e = .unexpectedEnd then rest = [] else InStep buf start index rest

/-- A buffer reader and a stream reader that cannot be told apart. -/
def ReadAlike (buf : List UInt8) (start : Nat) (x : CursorReader α) (y : StreamReader α) :
    Prop :=
  Lockstep (InStep buf start) (InStep buf start) (SameFailure buf start) Eq x y

theorem inStep_start (buf : List UInt8) (start : Nat) :
    InStep buf start start (buf.drop start) := ⟨[], rfl, rfl⟩

/-- What is left of the stream is what is left of the buffer. -/
theorem InStep.rest_eq {index : Nat} {rest : List UInt8} (h : InStep buf start index rest) :
    rest = buf.drop index := by
  obtain ⟨taken, hdrop, rfl⟩ := h
  rw [← List.drop_drop, hdrop, List.drop_left]

/-- Taking bytes from both sides keeps them in step. -/
theorem InStep.advance {index count : Nat} {rest : List UInt8}
    (h : InStep buf start index rest) (hcount : count ≤ rest.length) :
    InStep buf start (index + count) (rest.drop count) := by
  obtain ⟨taken, hdrop, rfl⟩ := h
  refine ⟨taken ++ rest.take count, ?_, ?_⟩
  · rw [List.append_assoc, List.take_append_drop, hdrop]
  · rw [List.length_append, List.length_take_of_le hcount, Nat.add_assoc]

theorem InStep.length_rest {index : Nat} {rest : List UInt8} (h : InStep buf start index rest) :
    rest.length = buf.length - index := by
  rw [h.rest_eq, List.length_drop]

/-- Failures with a reason other than missing input leave both in step. -/
theorem readAlike_throw {e : CodecError} (he : e ≠ .unexpectedEnd) :
    ReadAlike buf start (throw e : CursorReader α) (throw e : StreamReader α) := by
  refine lockstep_throw fun index rest hstep => ⟨rfl, ?_⟩
  rw [if_neg he]
  exact hstep

theorem readAlike_bind {x : CursorReader α} {y : StreamReader α} {f : α → CursorReader β}
    {g : α → StreamReader β} (h : ReadAlike buf start x y)
    (hfg : ∀ a, ReadAlike buf start (f a) (g a)) :
    ReadAlike buf start (x >>= f) (y >>= g) := by
  refine lockstep_bind h ?_
  rintro a _ rfl
  exact hfg a

theorem readAlike_pure (a : α) :
    ReadAlike buf start (pure a : CursorReader α) (pure a : StreamReader α) :=
  lockstep_pure rfl

/-- What a buffer reader takes is what the stream reader takes. -/
theorem ReadAlike.ok_iff {x : CursorReader α} {y : StreamReader α} (h : ReadAlike buf start x y)
    {a : α} {stop : Nat} :
    x start = .ok a stop ↔
      ∃ taken rest, buf.drop start = taken ++ rest ∧ stop = start + taken.length ∧
        y (buf.drop start) = .ok a rest := by
  have hxy := h start _ (inStep_start buf start)
  constructor
  · intro hx
    rw [hx] at hxy
    cases hy : y (buf.drop start) with
    | error e rest => rw [hy] at hxy; exact hxy.elim
    | ok b rest =>
      rw [hy] at hxy
      obtain ⟨rfl, taken, htaken, hstop⟩ := hxy
      exact ⟨taken, rest, htaken, hstop, rfl⟩
  · rintro ⟨taken, rest, htaken, rfl, hy⟩
    rw [hy] at hxy
    cases hx : x start with
    | error e index => rw [hx] at hxy; exact hxy.elim
    | ok b index =>
      rw [hx] at hxy
      obtain ⟨rfl, taken', htaken', rfl⟩ := hxy
      rw [htaken] at htaken'
      rw [List.append_cancel_right htaken']

/-! ## Bytes -/

namespace Stream

/-- Taking bytes one after another gives all of them or uses the stream
    up. -/
theorem nextBytes_run (count : Nat) (rest : List UInt8) :
    nextBytes count rest =
      if count ≤ rest.length then .ok (rest.take count) (rest.drop count)
      else .error .unexpectedEnd [] := by
  induction count generalizing rest with
  | zero => rfl
  | succ count ih =>
    cases rest with
    | nil => rfl
    | cons byte rest =>
      have hbyte : nextByte (byte :: rest) = .ok byte rest := rfl
      simp only [nextBytes, bind, EStateM.bind, pure, EStateM.pure, hbyte, ih]
      by_cases hle : count ≤ rest.length
      · have hle' : count + 1 ≤ (byte :: rest).length := Nat.succ_le_succ hle
        rw [if_pos hle, if_pos hle']
        rfl
      · have hle' : ¬ count + 1 ≤ (byte :: rest).length := by
          intro h
          exact hle (Nat.le_of_succ_le_succ h)
        rw [if_neg hle, if_neg hle']

end Stream

/-- Both are in step, and the position is inside the buffer. -/
def InsideStep (buf : List UInt8) (start index : Nat) (rest : List UInt8) : Prop :=
  InStep buf start index rest ∧ index ≤ buf.length

/-- A byte that was read leaves the position inside the buffer. -/
theorem lockstep_byte (buf : List UInt8) (start : Nat) :
    Lockstep (InStep buf start) (InsideStep buf start) (SameFailure buf start) Eq
      (Cursor.readByte buf) Stream.nextByte := by
  intro index rest hstep
  have hrest := hstep.rest_eq
  have hlen := hstep.length_rest
  cases rest with
  | nil =>
    have hnone : buf[index]? = none := by
      rw [← List.head?_drop, ← hrest, List.head?_nil]
    simp only [Cursor.readByte, hnone, Stream.nextByte]
    exact ⟨rfl, rfl⟩
  | cons byte rest =>
    have hsome : buf[index]? = some byte := by
      rw [← List.head?_drop, ← hrest, List.head?_cons]
    rw [List.length_cons] at hlen
    simp only [Cursor.readByte, hsome, Stream.nextByte]
    exact ⟨rfl, hstep.advance (Nat.succ_le_succ (Nat.zero_le _)), by omega⟩

theorem readAlike_byte (buf : List UInt8) (start : Nat) :
    ReadAlike buf start (Cursor.readByte buf) Stream.nextByte :=
  (lockstep_byte buf start).weaken fun _ _ h => h.1

/-- Bytes are taken alike, except for no bytes at a position past the end:
    the stream gives them and the buffer does not. -/
theorem InStep.bytes {index count : Nat} {rest : List UInt8} (h : InStep buf start index rest)
    (hinside : index ≤ buf.length ∨ 0 < count) :
    Outcomes (InStep buf start) (SameFailure buf start) Eq
      (Cursor.readBytes buf count index) (Stream.nextBytes count rest) := by
  have hfits : index + count ≤ buf.length ↔ count ≤ rest.length := by
    rw [h.length_rest]
    omega
  rw [Stream.nextBytes_run]
  unfold Cursor.readBytes
  by_cases hle : count ≤ rest.length
  · rw [if_pos hle, if_pos (hfits.mpr hle), ← h.rest_eq]
    exact ⟨rfl, h.advance hle⟩
  · rw [if_neg hle, if_neg (mt hfits.mp hle)]
    exact ⟨rfl, rfl⟩

theorem readAlike_bytes {count : Nat} (hcount : 0 < count) :
    ReadAlike buf start (Cursor.readBytes buf count) (Stream.nextBytes count) := by
  intro index rest hstep
  exact hstep.bytes (Or.inr hcount)

/-! ## Primitives -/

/-- A stream reader that cannot do with less than `size` bytes. -/
def NeedsBytes (size : Nat) (y : StreamReader α) : Prop :=
  ∀ rest : List UInt8, rest.length < size → y rest = .error .unexpectedEnd []

theorem needsBytes_byte : NeedsBytes 1 Stream.nextByte := by
  intro rest hshort
  have hnil : rest = [] := List.length_eq_zero_iff.mp (Nat.lt_one_iff.mp hshort)
  rw [hnil]
  rfl

theorem needsBytes_bytes (count : Nat) : NeedsBytes count (Stream.nextBytes count) := by
  intro rest hshort
  rw [Stream.nextBytes_run, if_neg (Nat.not_le.mpr hshort)]

theorem NeedsBytes.bind {size : Nat} {y : StreamReader α} (h : NeedsBytes size y)
    (g : α → StreamReader β) : NeedsBytes size (y >>= g) := by
  intro rest hshort
  exact run_bind_of_error (h rest hshort)

/-- A first part that takes `count` bytes, and a second part that needs
    `size` more. -/
theorem needsBytes_bytes_bind {count size : Nat} {g : List UInt8 → StreamReader β}
    (hg : ∀ bytes, NeedsBytes size (g bytes)) :
    NeedsBytes (count + size) (Stream.nextBytes count >>= g) := by
  intro rest hshort
  by_cases hle : count ≤ rest.length
  · have htaken : Stream.nextBytes count rest = .ok (rest.take count) (rest.drop count) := by
      rw [Stream.nextBytes_run, if_pos hle]
    rw [run_bind_of_ok htaken]
    refine hg _ _ ?_
    rw [List.length_drop]
    omega
  · exact (needsBytes_bytes count).bind g rest (Nat.not_le.mp hle)

/-- A check for room beforehand changes nothing for a reader that would
    have failed without that room. -/
theorem readAlike_requireRoom {size : Nat} {x : CursorReader α} {y : StreamReader α}
    (h : ReadAlike buf start x y) (hneeds : NeedsBytes size y) :
    ReadAlike buf start (Cursor.requireRoom buf size >>= fun _ => x) y := by
  intro index rest hstep
  show Outcomes _ _ _ (EStateM.bind (Cursor.requireRoom buf size) (fun _ => x) index) _
  unfold EStateM.bind Cursor.requireRoom
  by_cases hshort : buf.length - index < size
  · rw [if_pos hshort, hneeds rest (hstep.length_rest.symm ▸ hshort)]
    exact ⟨rfl, rfl⟩
  · rw [if_neg hshort]
    exact h index rest hstep

theorem readAlike_single (buf : List UInt8) (start : Nat) :
    ReadAlike buf start (Cursor.readSingle buf) Stream.nextSingle :=
  readAlike_bind (readAlike_bytes (by decide)) fun _ => readAlike_pure _

theorem readAlike_string (buf : List UInt8) (start : Nat) :
    ReadAlike buf start (Cursor.readString buf) Stream.nextString := by
  refine lockstep_bind (lockstep_byte buf start) ?_
  rintro length _ rfl
  -- The text may be empty; it is the length byte that keeps it inside.
  refine lockstep_bind (fun index rest hstep => hstep.1.bytes (Or.inl hstep.2)) ?_
  rintro bytes _ rfl
  cases Utf8.decode? bytes with
  | none => exact readAlike_throw (by decide)
  | some text => exact readAlike_pure text

theorem readAlike_primitive (buf : List UInt8) (start : Nat) (kind : Primitive) :
    ReadAlike buf start (Cursor.readPrimitive buf kind) (Stream.nextPrimitive kind) := by
  unfold Cursor.readPrimitive Stream.nextPrimitive
  cases kind with
  | string =>
    exact readAlike_bind (readAlike_string buf start) fun _ => readAlike_pure _
  | float =>
    refine readAlike_requireRoom ?_ ((needsBytes_bytes 4).bind _ |>.bind _)
    exact readAlike_bind (readAlike_single buf start) fun _ => readAlike_pure _
  | u8 =>
    refine readAlike_requireRoom ?_ (needsBytes_byte.bind _)
    exact readAlike_bind (readAlike_byte buf start) fun _ => readAlike_pure _
  | u16 =>
    refine readAlike_requireRoom ?_ ((needsBytes_bytes 2).bind _)
    exact readAlike_bind (readAlike_bytes (by decide)) fun _ => readAlike_pure _
  | u32 =>
    refine readAlike_requireRoom ?_ ((needsBytes_bytes 4).bind _)
    exact readAlike_bind (readAlike_bytes (by decide)) fun _ => readAlike_pure _
  | bool =>
    refine readAlike_requireRoom ?_ (needsBytes_byte.bind _)
    exact readAlike_bind (readAlike_byte buf start) fun _ => readAlike_pure _
  | floatPair =>
    -- With four to seven bytes left the first single could still be read; it
    -- is the pair as a whole that needs eight.
    have hneeds : NeedsBytes 8 (Stream.nextPrimitive .floatPair) := by
      unfold Stream.nextPrimitive Stream.nextSingle
      simp only [bind_assoc]
      exact needsBytes_bytes_bind fun _ => (needsBytes_bytes 4).bind _
    refine readAlike_requireRoom ?_ hneeds
    refine readAlike_bind (readAlike_single buf start) fun _ => ?_
    exact readAlike_bind (readAlike_single buf start) fun _ => readAlike_pure _

/-! ## Values and messages -/

namespace Schema

theorem decodeEnum_ne_unexpectedEnd {s : Schema} {name : String} {byte : UInt8} {e : CodecError}
    (h : s.decodeEnum name byte = .error e) : e ≠ .unexpectedEnd := by
  rintro rfl
  unfold decodeEnum at h
  split at h
  · cases h
  · split at h <;> cases h

theorem readAlike_enum (s : Schema) (buf : List UInt8) (start : Nat) (name : String) :
    ReadAlike buf start (s.decodeValue buf (.enumRef name)) (s.streamLeaf (.enumRef name)) := by
  unfold decodeValue streamLeaf
  refine readAlike_bind (readAlike_byte buf start) fun byte => ?_
  cases h : s.decodeEnum name byte with
  | ok v => exact readAlike_pure v
  | error e => exact readAlike_throw (decodeEnum_ne_unexpectedEnd h)

/-- What is not optional is read alike by the recursive reader and by the
    reader for leaves. -/
theorem readAlike_leaf (s : Schema) (buf : List UInt8) (start : Nat) {type : FieldType}
    (h : type.isOptional = false) :
    ReadAlike buf start (s.decodeValue buf type) (s.streamLeaf type) := by
  cases type with
  | primitive kind => exact readAlike_primitive buf start kind
  | optional inner => cases h
  | enumRef name => exact s.readAlike_enum buf start name

/-- Neither decoder gets past an optional directly inside an optional, so
    one level of recursion is all there is. -/
theorem readAlike_value (s : Schema) (buf : List UInt8) (start : Nat) (type : FieldType) :
    ReadAlike buf start (s.decodeValue buf type) (s.streamValue type) := by
  cases type with
  | primitive kind => exact s.readAlike_leaf buf start rfl
  | enumRef name => exact s.readAlike_leaf buf start rfl
  | optional inner =>
    unfold decodeValue streamValue
    refine readAlike_bind (readAlike_byte buf start) fun byte => ?_
    refine lockstep_ite Iff.rfl (fun _ => readAlike_pure _) fun _ => ?_
    cases inner with
    | optional inner =>
      refine lockstep_throw fun index rest hstep => ⟨rfl, ?_⟩
      exact hstep
    | primitive kind =>
      exact readAlike_bind (s.readAlike_leaf buf start rfl) fun _ => readAlike_pure _
    | enumRef name =>
      exact readAlike_bind (s.readAlike_leaf buf start rfl) fun _ => readAlike_pure _

theorem readAlike_fields (s : Schema) (buf : List UInt8) (start : Nat) (fields : List Field) :
    ReadAlike buf start (s.decodeFields buf fields) (s.streamFields fields) := by
  induction fields with
  | nil => exact readAlike_pure []
  | cons field fields ih =>
    unfold decodeFields streamFields
    refine readAlike_bind (s.readAlike_value buf start field.type) fun v => ?_
    exact readAlike_bind ih fun values => readAlike_pure (v :: values)

theorem readAlike_message (s : Schema) (category : String) (buf : List UInt8) (start : Nat) :
    ReadAlike buf start (s.decodeMessage category buf) (s.streamMessage category) := by
  unfold decodeMessage streamMessage
  cases hc : s.findCategory category with
  | error e =>
    -- A category or a tag that is not declared is not a want of input.
    refine readAlike_throw ?_
    rintro rfl
    unfold findCategory at hc
    split at hc <;> cases hc
  | ok c =>
    refine readAlike_bind (readAlike_byte buf start) fun tag => ?_
    cases hm : findMessage c tag with
    | error e =>
      refine readAlike_throw ?_
      rintro rfl
      unfold findMessage at hm
      split at hm <;> cases hm
    | ok declared =>
      exact readAlike_bind (s.readAlike_fields buf start declared.fields) fun _ =>
        readAlike_pure _

end Schema

/-! ## Agreement -/

/-- **Agreement**: decoding a message or a value from a buffer at any
    position and decoding it from the stream of the bytes there end alike.
    The answers are equal or the failures are; unless the input ran out,
    the position has moved by the number of bytes taken from the stream;
    and if it ran out, the stream is used up. -/
theorem cursor_stream_agree (s : Schema) (buf : List UInt8) (start : Nat) :
    (∀ category, Outcomes (InStep buf start) (SameFailure buf start) Eq
      (s.decodeMessage category buf start) (s.streamMessage category (buf.drop start))) ∧
    (∀ type, Outcomes (InStep buf start) (SameFailure buf start) Eq
      (s.decodeValue buf type start) (s.streamValue type (buf.drop start))) := by
  refine ⟨fun category => ?_, fun type => ?_⟩
  · exact s.readAlike_message category buf start start _ (inStep_start buf start)
  · exact s.readAlike_value buf start type start _ (inStep_start buf start)

end TaggedWire
