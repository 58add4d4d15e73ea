import TaggedWire.Proofs.Framing

/-! # Messages that were cut short

    A decoder that is given only the beginning of a message says that the
    input ended, wherever the cut is: behind the tag, inside a number,
    between a presence byte and its value or inside a character of a
    string. It never takes the beginning for a shorter message, and no
    other check fails first.

    The reason is that a reader works from left to right. What it has
    decided stays decided when more bytes follow (`Incremental`), be it an
    answer or a refusal. On the beginning of a message it can therefore
    have decided nothing, since on the whole message it takes every byte.
    -/

namespace TaggedWire

variable {α β : Type}

/-! ## Deciding from left to right -/

/-- A reader that does not look beyond what it takes: after the same bytes
    it gives the same answer or refuses for the same reason, whatever
    follows them. Only for want of input is nothing decided. -/
structure Incremental (y : StreamReader α) : Prop where
  /-- An answer is made of the bytes that were taken. -/
  answer : ∀ {input a rest}, y input = .ok a rest →
    ∃ taken, input = taken ++ rest ∧ ReadsBack y taken a
  /-- So is a refusal. -/
  refusal : ∀ {input e rest}, y input = .error e rest → e ≠ .unexpectedEnd →
    ∃ taken, input = taken ++ rest ∧ ∀ more, y (taken ++ more) = .error e more

theorem incremental_pure (a : α) : Incremental (pure a : StreamReader α) where
  answer := by
    intro input b rest hread
    cases hread
    exact ⟨[], rfl, readsBack_pure a⟩
  refusal := by
    intro input e rest hread
    cases hread

theorem incremental_throw (e : CodecError) : Incremental (throw e : StreamReader α) where
  answer := by
    intro input a rest hread
    cases hread
  refusal := by
    intro input e' rest hread _
    cases hread
    exact ⟨[], rfl, fun more => rfl⟩

/-- **Sequencing**: the second reader starts where the first has stopped, and
    neither looks further. -/
theorem incremental_bind {y : StreamReader α} {g : α → StreamReader β} (h : Incremental y)
    (hg : ∀ a, Incremental (g a)) : Incremental (y >>= g) where
  answer := by
    intro input b rest hread
    obtain ⟨a, between, hfirst, hsecond⟩ := run_bind_ok_cases hread
    obtain ⟨first, rfl, hback⟩ := h.answer hfirst
    obtain ⟨second, rfl, hback'⟩ := (hg a).answer hsecond
    exact ⟨first ++ second, (List.append_assoc _ _ _).symm, readsBack_bind hback hback'⟩
  refusal := by
    intro input e rest hread he
    rcases run_bind_error_cases hread with hfirst | ⟨a, between, hfirst, hsecond⟩
    · -- The first reader has refused, and the second never starts.
      obtain ⟨taken, hinput, hsame⟩ := h.refusal hfirst he
      exact ⟨taken, hinput, fun more => run_bind_of_error (hsame more)⟩
    · obtain ⟨first, rfl, hback⟩ := h.answer hfirst
      obtain ⟨second, rfl, hsame⟩ := (hg a).refusal hsecond he
      refine ⟨first ++ second, (List.append_assoc _ _ _).symm, fun more => ?_⟩
      rw [List.append_assoc, run_bind_of_ok (hback (second ++ more))]
      exact hsame more

/-- **Cut short**: where a reader takes all of some bytes, it finds the input
    ended on every shorter beginning of them. -/
theorem Incremental.cut_short {y : StreamReader α} (h : Incremental y) {bytes w : List UInt8}
    {a : α} (hback : ReadsBack y bytes a) (hw : w <+: bytes) (hne : w ≠ bytes) :
    ∃ rest, y w = .error .unexpectedEnd rest := by
  obtain ⟨missing, rfl⟩ := hw
  have hwhole : y (w ++ missing) = .ok a [] := by
    have hread := hback []
    rwa [List.append_nil] at hread
  cases hcut : y w with
  | ok b rest =>
    -- It would stop at the same place with the missing bytes still to come.
    obtain ⟨taken, rfl, hback'⟩ := h.answer hcut
    have hagain := hback' (rest ++ missing)
    rw [← List.append_assoc, hwhole] at hagain
    injection hagain with _ hrest
    have hmissing : missing = [] := (List.append_eq_nil_iff.mp hrest.symm).2
    rw [hmissing, List.append_nil] at hne
    exact absurd rfl hne
  | error e rest =>
    by_cases he : e = .unexpectedEnd
    · rw [he]
      exact ⟨rest, rfl⟩
    · -- It would refuse the whole for the same reason.
      obtain ⟨taken, rfl, hsame⟩ := h.refusal hcut he
      have hagain := hsame (rest ++ missing)
      rw [← List.append_assoc, hwhole] at hagain
      cases hagain

/-! ## Primitives -/

theorem incremental_byte : Incremental Stream.nextByte where
  answer := by
    intro input byte rest hread
    cases input with
    | nil => cases hread
    | cons found input =>
      cases hread
      exact ⟨[byte], rfl, readsBack_byte byte⟩
  refusal := by
    intro input e rest hread he
    cases input with
    | nil => cases hread; exact absurd rfl he
    | cons found input => cases hread

theorem incremental_bytes (count : Nat) : Incremental (Stream.nextBytes count) := by
  induction count with
  | zero => exact incremental_pure []
  | succ count ih =>
    refine incremental_bind incremental_byte fun byte => ?_
    exact incremental_bind ih fun bytes => incremental_pure (byte :: bytes)

theorem incremental_single : Incremental Stream.nextSingle :=
  incremental_bind (incremental_bytes 4) fun _ => incremental_pure _

/-- The text of a string is checked when all of it has been taken. -/
theorem incremental_string : Incremental Stream.nextString := by
  refine incremental_bind incremental_byte fun length => ?_
  refine incremental_bind (incremental_bytes length.toNat) fun bytes => ?_
  cases Utf8.decode? bytes with
  | none => exact incremental_throw .invalidUtf8
  | some text => exact incremental_pure text

theorem incremental_primitive (kind : Primitive) : Incremental (Stream.nextPrimitive kind) := by
  cases kind with
  | string => exact incremental_bind incremental_string fun _ => incremental_pure _
  | float => exact incremental_bind incremental_single fun _ => incremental_pure _
  | u8 => exact incremental_bind incremental_byte fun _ => incremental_pure _
  | u16 => exact incremental_bind (incremental_bytes 2) fun _ => incremental_pure _
  | u32 => exact incremental_bind (incremental_bytes 4) fun _ => incremental_pure _
  | bool => exact incremental_bind incremental_byte fun _ => incremental_pure _
  | floatPair =>
    refine incremental_bind incremental_single fun _ => ?_
    exact incremental_bind incremental_single fun _ => incremental_pure _

/-! ## Values and messages -/

namespace Schema

variable (s : Schema)

theorem incremental_leaf (type : FieldType) : Incremental (s.streamLeaf type) := by
  cases type with
  | primitive kind => exact incremental_primitive kind
  | optional inner => exact incremental_throw .nestedOptional
  | enumRef name =>
    unfold streamLeaf
    refine incremental_bind incremental_byte fun byte => ?_
    cases s.decodeEnum name byte with
    | ok v => exact incremental_pure v
    | error e => exact incremental_throw e

theorem incremental_value (type : FieldType) : Incremental (s.streamValue type) := by
  cases type with
  | primitive kind => exact s.incremental_leaf (.primitive kind)
  | enumRef name => exact s.incremental_leaf (.enumRef name)
  | optional inner =>
    unfold streamValue
    refine incremental_bind incremental_byte fun presence => ?_
    by_cases hzero : presence = 0
    · rw [if_pos hzero]
      exact incremental_pure Value.absent
    · rw [if_neg hzero]
      exact incremental_bind (s.incremental_leaf inner) fun _ => incremental_pure _

theorem incremental_fields (fields : List Field) : Incremental (s.streamFields fields) := by
  induction fields with
  | nil => exact incremental_pure []
  | cons field fields ih =>
    refine incremental_bind (s.incremental_value field.type) fun v => ?_
    exact incremental_bind ih fun values => incremental_pure (v :: values)

theorem incremental_message (category : String) : Incremental (s.streamMessage category) := by
  unfold streamMessage
  cases s.findCategory category with
  | error e => exact incremental_throw e
  | ok c =>
    refine incremental_bind incremental_byte fun tag => ?_
    cases findMessage c tag with
    | error e => exact incremental_throw e
    | ok declared =>
      exact incremental_bind (s.incremental_fields declared.fields) fun _ => incremental_pure _

variable {s}

/-! ## Truncation -/

/-- **Truncation**: on every proper prefix of an encoded message both
    decoders fail because the input ended. The stream is then used up. -/
theorem truncation_detected {category : String} {m : MessageValue} {bytes w : List UInt8}
    (h : s.encodeMessage category m = .ok bytes) (hw : w <+: bytes) (hne : w ≠ bytes) :
    (∃ index, s.decodeMessage category w 0 = .error .unexpectedEnd index) ∧
      s.streamMessage category w = .error .unexpectedEnd [] := by
  obtain ⟨rest, hstream⟩ :=
    (s.incremental_message category).cut_short (readsBack_message h) hw hne
  -- The buffer decoder fails alike, and at the end of the input nothing is left.
  have hboth := s.readAlike_message category w 0 0 w (inStep_start w 0)
  rw [hstream] at hboth
  cases hcursor : s.decodeMessage category w 0 with
  | ok found index => rw [hcursor] at hboth; exact hboth.elim
  | error e index =>
    rw [hcursor] at hboth
    obtain ⟨rfl, hrest⟩ := hboth
    rw [if_pos rfl] at hrest
    rw [hrest] at hstream
    exact ⟨⟨index, rfl⟩, hstream⟩

/-- The cut is inside a character of two bytes, in the string of an optional
    whose presence byte and length are there. -/
theorem truncation_detected_accent :
    let s : Schema :=
      { enums := [⟨"Side", ["Left", "Right"]⟩]
        categories := [⟨"Chat", [⟨"Quit", []⟩, ⟨"Say",
          [⟨"side", .enumRef "Side"⟩, ⟨"note", .optional (.primitive .string)⟩,
           ⟨"loud", .primitive .bool⟩]⟩]⟩] }
    let m : MessageValue := ⟨"Say", [.enum "Right", .present (.string "né"), .bool true]⟩
    s.encodeMessage "Chat" m = .ok [1, 1, 1, 3, 0x6e, 0xc3, 0xa9, 1] ∧
      (∃ index, s.decodeMessage "Chat" [1, 1, 1, 3, 0x6e, 0xc3] 0 =
        .error .unexpectedEnd index) ∧
      s.streamMessage "Chat" [1, 1, 1, 3, 0x6e, 0xc3] = .error .unexpectedEnd [] := by
  intro s m
  have hencoded : s.encodeMessage "Chat" m = .ok [1, 1, 1, 3, 0x6e, 0xc3, 0xa9, 1] := by
    decide +kernel
  exact ⟨hencoded, truncation_detected hencoded ⟨[0xa9, 1], rfl⟩ (by decide)⟩

end Schema

end TaggedWire
