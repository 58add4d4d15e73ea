import TaggedWire.Codec.Encode

/-! # What encoding appends

    An `Encoder` threads an output through the parts of a value and keeps
    what was written before a failure. Where it succeeds, the output is of
    no concern: `valueBytes` and `fieldsBytes` are the bytes that a value or
    the values of a message add, as functions of the schema and the value
    alone, and `encodeValue_run` and `encodeFields_run` say that these bytes
    are what is appended.

    `encodeMessage_ok_iff` lists everything that has to hold for a message
    to be encoded, and says what its bytes are. -/

namespace TaggedWire

namespace Schema

/-! ## Bytes of values -/

/-- The bytes of a value of a given type. -/
def valueBytes (s : Schema) : FieldType → Value → Except CodecError (List UInt8)
  | .primitive kind, v => primitiveBytes kind v
  | .optional _, .absent => .ok [0]
  | .optional inner, .present v =>
      if inner.isOptional then .error .nestedOptional
      else (s.valueBytes inner v).map (1 :: ·)
  | .enumRef name, .enum variant => (s.encodeEnum name variant).map fun index => [index]
  | type, v => .error (.fieldMismatch type v.kind)

/-- The bytes of the values of a list of fields, in order. -/
def fieldsBytes (s : Schema) : List Field → List Value → Except CodecError (List UInt8)
  | field :: fields, v :: values => do
      let bytes ← s.valueBytes field.type v
      let more ← s.fieldsBytes fields values
      return bytes ++ more
  | _, _ => .ok []

theorem valueBytes_optional_ok_iff {s : Schema} {inner : FieldType} {v : Value}
    {bytes : List UInt8} :
    s.valueBytes (.optional inner) v = .ok bytes ↔
      (v = .absent ∧ bytes = [0]) ∨
        ∃ w body, v = .present w ∧ inner.isOptional = false ∧
          s.valueBytes inner w = .ok body ∧ bytes = 1 :: body := by
  constructor
  · intro h
    cases v with
    | absent => cases h; exact .inl ⟨rfl, rfl⟩
    | present w =>
      unfold valueBytes at h
      split at h
      · cases h
      · rename_i hplain
        cases hbody : s.valueBytes inner w with
        | error e => rw [hbody] at h; cases h
        | ok body =>
          rw [hbody] at h
          cases h
          exact .inr ⟨w, body, rfl, Bool.eq_false_iff.mpr hplain, hbody, rfl⟩
    | _ => cases h
  · rintro (⟨rfl, rfl⟩ | ⟨w, body, rfl, hplain, hbody, rfl⟩)
    · rfl
    · simp [valueBytes, hplain, hbody, Except.map]

theorem valueBytes_enumRef_ok_iff {s : Schema} {name : String} {v : Value}
    {bytes : List UInt8} :
    s.valueBytes (.enumRef name) v = .ok bytes ↔
      ∃ variant index, v = .enum variant ∧ s.encodeEnum name variant = .ok index ∧
        bytes = [index] := by
  constructor
  · intro h
    cases v with
    | enum variant =>
      unfold valueBytes at h
      cases hindex : s.encodeEnum name variant with
      | error e => rw [hindex] at h; cases h
      | ok index =>
        rw [hindex] at h
        cases h
        exact ⟨variant, index, rfl, hindex, rfl⟩
    | _ => cases h
  · rintro ⟨variant, index, rfl, hindex, rfl⟩
    simp [valueBytes, hindex, Except.map]

theorem fieldsBytes_cons_ok_iff {s : Schema} {field : Field} {fields : List Field} {v : Value}
    {values : List Value} {bytes : List UInt8} :
    s.fieldsBytes (field :: fields) (v :: values) = .ok bytes ↔
      ∃ first more, s.valueBytes field.type v = .ok first ∧
        s.fieldsBytes fields values = .ok more ∧ bytes = first ++ more := by
  constructor
  · intro h
    unfold fieldsBytes at h
    cases hfirst : s.valueBytes field.type v with
    | error e => rw [hfirst] at h; cases h
    | ok first =>
      cases hmore : s.fieldsBytes fields values with
      | error e => rw [hfirst, hmore] at h; cases h
      | ok more =>
        rw [hfirst, hmore] at h
        cases h
        exact ⟨first, more, rfl, rfl, rfl⟩
  · rintro ⟨first, more, hfirst, hmore, rfl⟩
    rw [fieldsBytes, hfirst, hmore]
    rfl

/-! ### Shapes -/

/-- A primitive that can be written has the shape of its kind. -/
theorem fitsPrimitive_of_primitiveBytes {kind : Primitive} {v : Value} {bytes : List UInt8}
    (h : primitiveBytes kind v = .ok bytes) : v.fitsPrimitive kind = true := by
  unfold primitiveBytes at h
  split at h
  case h_8 => cases h
  all_goals rfl

/-- A value that can be written has the shape of its type. -/
theorem fits_of_valueBytes {s : Schema} {type : FieldType} {v : Value} {bytes : List UInt8}
    (h : s.valueBytes type v = .ok bytes) : v.fits type = true := by
  induction type generalizing v bytes with
  | primitive kind => exact fitsPrimitive_of_primitiveBytes h
  | enumRef name =>
    obtain ⟨variant, index, rfl, _, _⟩ := valueBytes_enumRef_ok_iff.mp h
    rfl
  | optional inner ih =>
    rcases valueBytes_optional_ok_iff.mp h with ⟨rfl, _⟩ | ⟨w, body, rfl, _, hbody, _⟩
    · rfl
    · exact ih hbody

/-- Values that can be written pass the check of their shapes. -/
theorem firstMisfit?_of_fieldsBytes {s : Schema} {fields : List Field} {values : List Value}
    {bytes : List UInt8} (hlen : fields.length = values.length)
    (h : s.fieldsBytes fields values = .ok bytes) : firstMisfit? fields values = none := by
  induction fields generalizing values bytes with
  | nil => rfl
  | cons field fields ih =>
    cases values with
    | nil => cases hlen
    | cons v values =>
      obtain ⟨first, more, hfirst, hmore, _⟩ := fieldsBytes_cons_ok_iff.mp h
      have hrest := ih (Nat.succ.inj hlen) hmore
      unfold firstMisfit? at hrest ⊢
      simp [fits_of_valueBytes hfirst, hrest]

/-! ### Running the encoder -/

/-- What a value that cannot be written leaves in the output: the presence
    byte, if it is inside an optional that may hold values. -/
def strayBytes : FieldType → Value → List UInt8
  | .optional inner, .present _ => if inner.isOptional then [] else [1]
  | _, _ => []

theorem strayBytes_of_not_optional {type : FieldType} (h : type.isOptional = false) (v : Value) :
    strayBytes type v = [] := by
  cases type with
  | primitive kind => rfl
  | optional inner => cases h
  | enumRef name => rfl

/-- **Encoding a value** appends its bytes, or fails and leaves the stray
    bytes. -/
theorem encodeValue_run (s : Schema) (type : FieldType) (v : Value) (out : List UInt8) :
    s.encodeValue type v out =
      match s.valueBytes type v with
      | .ok bytes => .ok () (out ++ bytes)
      | .error e => .error e (out ++ strayBytes type v) := by
  fun_induction s.valueBytes type v generalizing out with
  | case1 kind v =>
    unfold encodeValue
    cases primitiveBytes kind v with
    | ok bytes => rfl
    | error e => simp only [strayBytes, List.append_nil]; rfl
  | case2 inner => rfl
  | case3 inner v hnested =>
    simp only [encodeValue, strayBytes, hnested, if_true, List.append_nil]
    rfl
  | case4 inner v hplain ih =>
    -- The presence byte is out before the value inside is tried.
    simp only [encodeValue, strayBytes, hplain]
    show EStateM.bind (Encoder.append [1]) (fun _ => s.encodeValue inner v) out = _
    unfold EStateM.bind
    have hstray := strayBytes_of_not_optional (Bool.eq_false_iff.mpr hplain) v
    simp only [Encoder.append_run, ih, hstray, List.append_nil]
    cases s.valueBytes inner v with
    | ok bytes => simp [Except.map]
    | error e => rfl
  | case5 name variant =>
    simp only [encodeValue]
    cases s.encodeEnum name variant with
    | ok index => rfl
    | error e => simp only [strayBytes, List.append_nil]; rfl
  | case6 type v hprimitive habsent hpresent henum =>
    -- The value is of another kind than its type, and nothing is written.
    have hstray : strayBytes type v = [] := by
      unfold strayBytes
      split
      · exact (hpresent _ _ rfl rfl).elim
      · rfl
    rw [encodeValue, hstray, List.append_nil]
    · rfl
    · exact hprimitive
    · exact habsent
    · exact hpresent
    · exact henum

/-- **Encoding a list of values** appends their bytes in order, or fails
    with the first failure among them. -/
theorem encodeFields_run (s : Schema) (fields : List Field) (values : List Value)
    (out : List UInt8) :
    (match s.encodeFields fields values out with
      | .ok _ out' => Except.ok out'
      | .error e _ => .error e) = (s.fieldsBytes fields values).map (out ++ ·) := by
  fun_induction s.fieldsBytes fields values generalizing out with
  | case1 field fields v values ih =>
    unfold encodeFields
    simp only [bind, EStateM.bind, encodeValue_run]
    cases s.valueBytes field.type v with
    | error e => rfl
    | ok bytes =>
      simp only [ih]
      cases s.fieldsBytes fields values with
      | error e => rfl
      | ok more => simp [Except.map, Except.bind, pure, Except.pure]
  | case2 fields values hnil =>
    rw [encodeFields]
    · simp [Except.map, pure, EStateM.pure]
    · exact hnil

/-! ## Bytes of messages -/

theorem findCategory_ok_iff {s : Schema} {name : String} {c : Category} :
    s.findCategory name = .ok c ↔ s.categoryNamed? name = some c := by
  unfold findCategory
  cases s.categoryNamed? name <;> simp

theorem findMessage_ok_iff {c : Category} {tag : UInt8} {m : Message} :
    findMessage c tag = .ok m ↔ c.messageByTag? tag = some m := by
  unfold findMessage
  cases c.messageByTag? tag <;> simp

section

variable {s : Schema} {category : String} {m : MessageValue} {c : Category} {tag : UInt8}
  {declared : Message}

theorem encodeMessage_of_untagged (hc : s.findCategory category = .ok c)
    (htag : c.tagOf? m.name = none) :
    s.encodeMessage category m = .error (.unknownMessage c.name m.name) := by
  simp [encodeMessage, hc, htag, bind, Except.bind, throw, throwThe, MonadExceptOf.throw]

theorem encodeMessage_of_count (hc : s.findCategory category = .ok c)
    (htag : c.tagOf? m.name = some tag) (hm : findMessage c tag = .ok declared)
    (hlen : declared.fields.length ≠ m.fields.length) :
    s.encodeMessage category m =
      .error (.fieldCount declared.name declared.fields.length m.fields.length) := by
  simp [encodeMessage, hc, htag, hm, hlen, bind, Except.bind, throw, throwThe,
    MonadExceptOf.throw]

theorem encodeMessage_of_misfit {field : Field} {v : Value}
    (hc : s.findCategory category = .ok c) (htag : c.tagOf? m.name = some tag)
    (hm : findMessage c tag = .ok declared)
    (hlen : declared.fields.length = m.fields.length)
    (hmisfit : firstMisfit? declared.fields m.fields = some (field, v)) :
    s.encodeMessage category m = .error (.fieldMismatch field.type v.kind) := by
  simp [encodeMessage, hc, htag, hm, hlen, hmisfit, bind, Except.bind, throw, throwThe,
    MonadExceptOf.throw]

end

/-- With the message found and every value in shape, only writing the
    values can still fail. -/
theorem encodeMessage_of_fits {s : Schema} {category : String} {m : MessageValue}
    {c : Category} {tag : UInt8} {declared : Message}
    (hc : s.findCategory category = .ok c) (htag : c.tagOf? m.name = some tag)
    (hm : findMessage c tag = .ok declared)
    (hlen : declared.fields.length = m.fields.length)
    (hfit : firstMisfit? declared.fields m.fields = none) :
    s.encodeMessage category m =
      (s.fieldsBytes declared.fields m.fields).map (tag :: ·) := by
  have hfields := s.encodeFields_run declared.fields m.fields [tag]
  unfold encodeMessage
  simp only [hc, htag, hm, hlen, hfit, bind, Except.bind, ne_eq, not_true_eq_false, if_false]
  exact hfields

/-- **Encoding a message** succeeds exactly when the message is declared,
    every value has the shape of its field and can be written; the bytes
    are the tag and then those of the values. -/
theorem encodeMessage_ok_iff {s : Schema} {category : String} {m : MessageValue}
    {bytes : List UInt8} :
    s.encodeMessage category m = .ok bytes ↔
      ∃ c tag declared body,
        s.findCategory category = .ok c ∧ c.tagOf? m.name = some tag ∧
        findMessage c tag = .ok declared ∧ declared.fields.length = m.fields.length ∧
        firstMisfit? declared.fields m.fields = none ∧
        s.fieldsBytes declared.fields m.fields = .ok body ∧ bytes = tag :: body := by
  constructor
  · intro h
    -- Every check that fails makes the whole encoding fail.
    cases hc : s.findCategory category with
    | error e => simp [encodeMessage, hc, bind, Except.bind] at h
    | ok c =>
      cases htag : c.tagOf? m.name with
      | none =>
        rw [encodeMessage_of_untagged hc htag] at h
        cases h
      | some tag =>
        cases hm : findMessage c tag with
        | error e => simp [encodeMessage, hc, htag, hm, bind, Except.bind] at h
        | ok declared =>
          by_cases hlen : declared.fields.length = m.fields.length
          · cases hfit : firstMisfit? declared.fields m.fields with
            | some misfit =>
              rw [encodeMessage_of_misfit hc htag hm hlen hfit] at h
              cases h
            | none =>
              rw [encodeMessage_of_fits hc htag hm hlen hfit] at h
              cases hbody : s.fieldsBytes declared.fields m.fields with
              | error e => rw [hbody] at h; cases h
              | ok body =>
                rw [hbody] at h
                cases h
                exact ⟨c, tag, declared, body, rfl, htag, hm, hlen, hfit, hbody, rfl⟩
          · rw [encodeMessage_of_count hc htag hm hlen] at h
            cases h
  · rintro ⟨c, tag, declared, body, hc, htag, hm, hlen, hfit, hbody, rfl⟩
    rw [encodeMessage_of_fits hc htag hm hlen hfit, hbody]
    rfl

end Schema

end TaggedWire
