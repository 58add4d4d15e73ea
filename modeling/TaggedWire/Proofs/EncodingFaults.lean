import TaggedWire.Proofs.Encoding
import TaggedWire.Proofs.Numbering

/-! # Why a message cannot be encoded

    Encoding looks for the category, then for the message, then at the number
    of fields, then at the shape of every value, and only then it writes.
    `Schema.EncodeFault` says what each of these steps can find wrong, in
    terms of the schema and the message alone: every cause names the first
    place where something is wrong, and counts only if the steps before found
    nothing. `Schema.Unwritable` does the same for a single value that has the
    right shape.

    The check of shapes and the writing are two separate case distinctions
    over types and values. They agree at every depth: what passes the check
    never fails for its shape when it is written
    (`Schema.Unwritable.isWriteFault`). -/

namespace TaggedWire

/-! ## First entries -/

section

variable {α : Type} {q : α → Prop} {entries : List α} {entry found : α}

/-- The first entry of a list with some property. -/
def IsFirst (q : α → Prop) (entries : List α) (found : α) : Prop :=
  ∃ before after, entries = before ++ found :: after ∧ q found ∧ ∀ other ∈ before, ¬ q other

theorem IsFirst.property (h : IsFirst q entries found) : q found := by
  obtain ⟨_, _, _, hfound, _⟩ := h
  exact hfound

theorem isFirst_cons_iff :
    IsFirst q (entry :: entries) found ↔
      (found = entry ∧ q entry) ∨ (¬ q entry ∧ IsFirst q entries found) := by
  constructor
  · intro ⟨before, after, hsplit, hfound, hbefore⟩
    cases before with
    | nil =>
      left
      obtain ⟨rfl, -⟩ := List.cons.inj hsplit
      exact ⟨rfl, hfound⟩
    | cons other before =>
      right
      obtain ⟨rfl, hrest⟩ := List.cons.inj hsplit
      obtain ⟨hentry, hothers⟩ := List.forall_mem_cons.mp hbefore
      exact ⟨hentry, before, after, hrest, hfound, hothers⟩
  · intro h
    rcases h with ⟨rfl, hentry⟩ | ⟨hentry, before, after, hsplit, hfound, hbefore⟩
    · exact ⟨[], entries, rfl, hentry, nofun⟩
    · refine ⟨entry :: before, after, by rw [hsplit]; rfl, hfound, ?_⟩
      exact List.forall_mem_cons.mpr ⟨hentry, hbefore⟩

/-- Some entry is the first with the property, or none has it. -/
theorem exists_isFirst_or (q : α → Prop) (entries : List α) :
    (∃ found, IsFirst q entries found) ∨ ∀ other ∈ entries, ¬ q other := by
  induction entries with
  | nil =>
    right
    nofun
  | cons entry entries ih =>
    by_cases hentry : q entry
    · left
      exact ⟨entry, isFirst_cons_iff.mpr (.inl ⟨rfl, hentry⟩)⟩
    · rcases ih with ⟨found, hfound⟩ | hnone
      · left
        exact ⟨found, isFirst_cons_iff.mpr (.inr ⟨hentry, hfound⟩)⟩
      · right
        exact List.forall_mem_cons.mpr ⟨hentry, hnone⟩

/-- A search finds the first entry. -/
theorem IsFirst.find?_eq {p : α → Bool} (h : IsFirst q entries found)
    (hp : ∀ a, p a = true ↔ q a) : entries.find? p = some found := by
  obtain ⟨before, after, hsplit, hfound, hbefore⟩ := h
  rw [List.find?_eq_some_iff_append]
  refine ⟨(hp found).mpr hfound, before, after, hsplit, ?_⟩
  intro other hother
  rw [Bool.not_eq_true', ← Bool.not_eq_true, hp]
  exact hbefore other hother

end

/-! ## Values that cannot be written -/

/-- The errors about values of the right shape. -/
def CodecError.IsWriteFault : CodecError → Prop
  | .nestedOptional | .stringTooLong _ | .unknownEnum _ | .unknownVariant .. => True
  | _ => False

namespace Schema

variable {s : Schema}

/-- Why a value of the right shape cannot be written. -/
inductive Unwritable (s : Schema) : FieldType → Value → CodecError → Prop
  /-- A value that is there, of an optional directly inside an optional. -/
  | nested {inner : FieldType} {v : Value} :
      Unwritable s (.optional (.optional inner)) (.present v) .nestedOptional
  /-- A value that is there and cannot be written itself. -/
  | inside {inner : FieldType} {v : Value} {e : CodecError} :
      inner.isOptional = false → Unwritable s inner v e →
      Unwritable s (.optional inner) (.present v) e
  /-- A string with more bytes than its length byte can say. -/
  | tooLong {text : String} :
      maxStringLength < (Utf8.encode text).length →
      Unwritable s (.primitive .string) (.string text) (.stringTooLong (Utf8.encode text).length)
  /-- A variant of an enumeration that is not declared. -/
  | noEnum {name variant : String} :
      (∀ declared ∈ s.enums, declared.name ≠ name) →
      Unwritable s (.enumRef name) (.enum variant) (.unknownEnum name)
  /-- A variant that the enumeration lacks, or has only where no byte gets to. -/
  | noVariant {name variant : String} {declared : Enumeration} :
      IsFirst (fun other => other.name = name) s.enums declared →
      variant ∉ declared.variants.take maxTags →
      Unwritable s (.enumRef name) (.enum variant) (.unknownVariant name variant)

/-- The shape of the value is never the reason, and neither is a tag. -/
theorem Unwritable.isWriteFault {type : FieldType} {v : Value} {e : CodecError}
    (h : s.Unwritable type v e) : e.IsWriteFault := by
  induction h with
  | nested => trivial
  | inside _ _ ih => exact ih
  | tooLong _ => trivial
  | noEnum _ => trivial
  | noVariant _ _ => trivial

/-- Such a value is not written, and its cause is the error. -/
theorem Unwritable.valueBytes_eq {type : FieldType} {v : Value} {e : CodecError}
    (h : s.Unwritable type v e) : s.valueBytes type v = .error e := by
  induction h with
  | nested => rfl
  | inside hplain _ ih => simp [valueBytes, hplain, ih, Except.map]
  | tooLong hlong =>
    have hnot : ¬ (Utf8.encode _).length ≤ maxStringLength := Nat.not_le.mpr hlong
    simp [valueBytes, primitiveBytes, hnot]
  | @noEnum name variant hnone =>
    have hfound : s.enumNamed? name = none := by simpa [enumNamed?] using hnone
    simp [valueBytes, encodeEnum, hfound, Except.map]
  | @noVariant name variant declared hfirst hmissing =>
    have hfound : s.enumNamed? name = some declared := hfirst.find?_eq fun _ => beq_iff_eq
    have hindex : declared.indexOf? variant = none := by
      apply bytePosition?_eq_none_iff.mpr
      intro other hother
      rw [beq_eq_false_iff_ne]
      intro hsame
      exact hmissing (hsame ▸ hother)
    have hname : declared.name = name := hfirst.property
    simp [valueBytes, encodeEnum, hfound, hindex, hname, Except.map]

/-- A primitive of the right shape is written unless it is too long. -/
theorem unwritable_or_primitiveBytes (s : Schema) {kind : Primitive} {v : Value}
    (hfits : v.fitsPrimitive kind = true) :
    (∃ e, s.Unwritable (.primitive kind) v e) ∨ ∃ bytes, primitiveBytes kind v = .ok bytes := by
  unfold primitiveBytes
  split
  · rename_i text
    by_cases hshort : (Utf8.encode text).length ≤ maxStringLength
    · right
      exact ⟨_, if_pos hshort⟩
    · left
      exact ⟨_, .tooLong (Nat.lt_of_not_le hshort)⟩
  case h_8 hstring hfloat hu8 hu16 hu32 hbool hpair =>
    -- No other kind of value has the shape.
    cases kind <;> cases v <;> simp_all [Value.fitsPrimitive]
  all_goals
    right
    exact ⟨_, rfl⟩

theorem unwritable_or_encodeEnum (s : Schema) (name variant : String) :
    (∃ e, s.Unwritable (.enumRef name) (.enum variant) e) ∨
      ∃ index, s.encodeEnum name variant = .ok index := by
  rcases exists_isFirst_or (fun declared : Enumeration => declared.name = name) s.enums with
    ⟨declared, hfirst⟩ | hnone
  · have hfound : s.enumNamed? name = some declared := hfirst.find?_eq fun _ => beq_iff_eq
    cases hindex : declared.indexOf? variant with
    | some index =>
      right
      exact ⟨index, by simp [encodeEnum, hfound, hindex]⟩
    | none =>
      left
      refine ⟨_, .noVariant hfirst fun hmem => ?_⟩
      have hnot := bytePosition?_eq_none_iff.mp hindex variant hmem
      rw [beq_self_eq_true] at hnot
      cases hnot
  · left
    exact ⟨_, .noEnum hnone⟩

/-- **The two case distinctions agree**: what has the right shape can be
    written, or there is a reason other than its shape. -/
theorem unwritable_or_valueBytes (s : Schema) {type : FieldType} {v : Value}
    (hfits : v.fits type = true) :
    (∃ e, s.Unwritable type v e) ∨ ∃ bytes, s.valueBytes type v = .ok bytes := by
  induction type generalizing v with
  | primitive kind => exact unwritable_or_primitiveBytes s hfits
  | enumRef name =>
    cases v with
    | enum variant =>
      rcases unwritable_or_encodeEnum s name variant with hunwritable | ⟨index, hindex⟩
      · exact .inl hunwritable
      · right
        exact ⟨[index], valueBytes_enumRef_ok_iff.mpr ⟨variant, index, rfl, hindex, rfl⟩⟩
    | _ => cases hfits
  | optional inner ih =>
    cases v with
    | absent => exact .inr ⟨[0], rfl⟩
    | present w =>
      by_cases hplain : inner.isOptional = false
      · rcases ih hfits with ⟨e, hunwritable⟩ | ⟨body, hbody⟩
        · exact .inl ⟨e, .inside hplain hunwritable⟩
        · right
          exact ⟨1 :: body, valueBytes_optional_ok_iff.mpr
            (.inr ⟨w, body, rfl, hplain, hbody, rfl⟩)⟩
      · cases inner with
        | optional deeper => exact .inl ⟨_, .nested⟩
        | primitive kind => exact absurd rfl hplain
        | enumRef name => exact absurd rfl hplain
    | _ => cases hfits

/-- A value of the right shape fails to be encoded for a reason other than
    its shape. -/
theorem unwritable_of_encodeValue {type : FieldType} {v : Value} {out out' : List UInt8}
    {e : CodecError} (hfits : v.fits type = true)
    (h : s.encodeValue type v out = .error e out') : s.Unwritable type v e := by
  rw [encodeValue_run] at h
  rcases unwritable_or_valueBytes s hfits with ⟨e', hunwritable⟩ | ⟨bytes, hbytes⟩
  · rw [hunwritable.valueBytes_eq] at h
    cases h
    exact hunwritable
  · rw [hbytes] at h
    cases h

/-! ### Lists of values -/

/-- Every value has the shape of its field. -/
def InShape (fields : List Field) (values : List Value) : Prop :=
  ∀ pair ∈ fields.zip values, pair.2.fits pair.1.type = true

/-- The first value that cannot be written, and why. -/
def FirstUnwritable (s : Schema) (fields : List Field) (values : List Value) (e : CodecError) :
    Prop :=
  ∃ field v, IsFirst (fun pair => ∃ e, s.Unwritable pair.1.type pair.2 e) (fields.zip values)
    (field, v) ∧ s.Unwritable field.type v e

/-- Writing stops at the first value that cannot be written. -/
theorem FirstUnwritable.fieldsBytes_eq {fields : List Field} {values : List Value}
    {e : CodecError} (hshape : InShape fields values) (h : s.FirstUnwritable fields values e) :
    s.fieldsBytes fields values = .error e := by
  obtain ⟨field, v, hfirst, hunwritable⟩ := h
  induction fields generalizing values with
  | nil =>
    obtain ⟨before, after, hsplit, -⟩ := hfirst
    simp at hsplit
  | cons other fields ih =>
    cases values with
    | nil =>
      obtain ⟨before, after, hsplit, -⟩ := hfirst
      simp at hsplit
    | cons w values =>
      rw [List.zip_cons_cons, isFirst_cons_iff] at hfirst
      obtain ⟨hfits, hrest⟩ := List.forall_mem_cons.mp hshape
      rw [fieldsBytes]
      rcases hfirst with ⟨hsame, -⟩ | ⟨hwritten, hlater⟩
      · obtain ⟨rfl, rfl⟩ := Prod.mk.inj hsame
        rw [hunwritable.valueBytes_eq]
        rfl
      · -- The values before it are written.
        obtain ⟨bytes, hbytes⟩ := (unwritable_or_valueBytes s hfits).resolve_left hwritten
        rw [hbytes, ih hrest hlater]
        rfl

/-- Values of the right shape are written unless one of them cannot be. -/
theorem firstUnwritable_or_fieldsBytes (s : Schema) {fields : List Field} {values : List Value}
    (hshape : InShape fields values) :
    (∃ e, s.FirstUnwritable fields values e) ∨
      ∃ bytes, s.fieldsBytes fields values = .ok bytes := by
  rcases exists_isFirst_or (fun pair : Field × Value => ∃ e, s.Unwritable pair.1.type pair.2 e)
    (fields.zip values) with ⟨⟨field, v⟩, hfirst⟩ | hnone
  · left
    obtain ⟨e, hunwritable⟩ := hfirst.property
    exact ⟨e, field, v, hfirst, hunwritable⟩
  · right
    induction fields generalizing values with
    | nil => exact ⟨[], by simp [fieldsBytes]⟩
    | cons field fields ih =>
      cases values with
      | nil => exact ⟨[], by simp [fieldsBytes]⟩
      | cons v values =>
        obtain ⟨hfits, hrest⟩ := List.forall_mem_cons.mp hshape
        obtain ⟨hwritten, hothers⟩ := List.forall_mem_cons.mp hnone
        obtain ⟨first, hfirst⟩ := (unwritable_or_valueBytes s hfits).resolve_left hwritten
        obtain ⟨more, hmore⟩ := ih hrest hothers
        exact ⟨first ++ more, fieldsBytes_cons_ok_iff.mpr ⟨first, more, hfirst, hmore, rfl⟩⟩

/-! ## Messages that cannot be encoded -/

/-- The message that a name stands for in a category: the first of that name
    that has a tag, in the first category of its name. -/
def Finds (s : Schema) (category name : String) (declared : Message) : Prop :=
  ∃ c, IsFirst (fun other => other.name = category) s.categories c ∧
    IsFirst (fun other => other.name = name) (c.messages.take maxTags) declared

/-- Why a message cannot be encoded. There are five kinds of faults, and each
    counts only if there is none of those before it. -/
inductive EncodeFault (s : Schema) (category : String) (m : MessageValue) : CodecError → Prop
  /-- No category has the name. -/
  | category (missing : ∀ c ∈ s.categories, c.name ≠ category) :
      EncodeFault s category m (.unknownCategory category)
  /-- No message of the category that has a tag has the name. -/
  | message {c : Category} (first : IsFirst (fun other => other.name = category) s.categories c)
      (missing : ∀ declared ∈ c.messages.take maxTags, declared.name ≠ m.name) :
      EncodeFault s category m (.unknownMessage category m.name)
  /-- The message has another number of fields. -/
  | count {declared : Message} (finds : s.Finds category m.name declared)
      (differ : declared.fields.length ≠ m.fields.length) :
      EncodeFault s category m
        (.fieldCount m.name declared.fields.length m.fields.length)
  /-- The first value that does not have the shape of its field. -/
  | misfit {declared : Message} {field : Field} {v : Value}
      (finds : s.Finds category m.name declared)
      (count : declared.fields.length = m.fields.length)
      (first : IsFirst (fun pair => pair.2.fits pair.1.type = false)
        (declared.fields.zip m.fields) (field, v)) :
      EncodeFault s category m (.fieldMismatch field.type v.kind)
  /-- The first value that cannot be written. -/
  | unwritable {declared : Message} {e : CodecError} (finds : s.Finds category m.name declared)
      (count : declared.fields.length = m.fields.length)
      (shape : InShape declared.fields m.fields)
      (first : s.FirstUnwritable declared.fields m.fields e) : EncodeFault s category m e

section

variable {category : String} {m : MessageValue}

theorem findCategory_of_isFirst {c : Category}
    (h : IsFirst (fun other => other.name = category) s.categories c) :
    s.findCategory category = .ok c :=
  findCategory_ok_iff.mpr (h.find?_eq fun _ => beq_iff_eq)

/-- The lookups lead to the message by way of its tag. -/
theorem Finds.lookups {declared : Message} (h : s.Finds category m.name declared) :
    ∃ c tag, s.findCategory category = .ok c ∧ c.tagOf? m.name = some tag ∧
      findMessage c tag = .ok declared ∧ declared.name = m.name := by
  obtain ⟨c, hc, hdeclared⟩ := h
  have hfind : (c.messages.take maxTags).find? (·.name == m.name) = some declared :=
    hdeclared.find?_eq fun _ => beq_iff_eq
  obtain ⟨tag, htag, hget⟩ := exists_bytePosition?_iff.mpr hfind
  rw [← c.tagOf?_eq] at htag
  exact ⟨c, tag, findCategory_of_isFirst hc, htag, findMessage_ok_iff.mpr hget,
    hdeclared.property⟩

theorem firstMisfit?_eq_none_iff {fields : List Field} {values : List Value} :
    firstMisfit? fields values = none ↔ InShape fields values := by
  unfold firstMisfit? InShape
  rw [List.find?_eq_none]
  simp

/-- **Encoding stops at a fault**. -/
theorem EncodeFault.encodeMessage_eq {e : CodecError} (h : s.EncodeFault category m e) :
    s.encodeMessage category m = .error e := by
  cases h with
  | category hmissing =>
    have hnone : s.findCategory category = .error (.unknownCategory category) := by
      have hfound : s.categoryNamed? category = none := by simpa [categoryNamed?] using hmissing
      rw [findCategory, hfound]
    rw [encodeMessage, hnone]
    rfl
  | @message c hfirst hmissing =>
    have hname : c.name = category := hfirst.property
    have htag : c.tagOf? m.name = none := by
      rw [c.tagOf?_eq, bytePosition?_eq_none_iff]
      intro declared hdeclared
      rw [beq_eq_false_iff_ne]
      exact hmissing declared hdeclared
    rw [encodeMessage_of_untagged (findCategory_of_isFirst hfirst) htag, hname]
  | @count declared hfinds hdiffer =>
    obtain ⟨c, tag, hc, htag, hdeclared, hname⟩ := hfinds.lookups
    rw [encodeMessage_of_count hc htag hdeclared hdiffer, hname]
  | @misfit declared field v hfinds hcount hfirst =>
    obtain ⟨c, tag, hc, htag, hdeclared, -⟩ := hfinds.lookups
    have hmisfit : firstMisfit? declared.fields m.fields = some (field, v) := by
      apply hfirst.find?_eq
      simp
    exact encodeMessage_of_misfit hc htag hdeclared hcount hmisfit
  | unwritable hfinds hcount hshape hfirst =>
    obtain ⟨c, tag, hc, htag, hdeclared, -⟩ := hfinds.lookups
    rw [encodeMessage_of_fits hc htag hdeclared hcount (firstMisfit?_eq_none_iff.mpr hshape),
      hfirst.fieldsBytes_eq hshape]
    rfl

/-- **Every message** has a fault or is encoded. -/
theorem encodeFault_or_encoded (s : Schema) (category : String) (m : MessageValue) :
    (∃ e, s.EncodeFault category m e) ∨ ∃ bytes, s.encodeMessage category m = .ok bytes := by
  rcases exists_isFirst_or (fun c : Category => c.name = category) s.categories with
    ⟨c, hc⟩ | hnone
  case inr => exact .inl ⟨_, .category hnone⟩
  rcases exists_isFirst_or (fun declared : Message => declared.name = m.name)
    (c.messages.take maxTags) with ⟨declared, hdeclared⟩ | hnone
  case inr => exact .inl ⟨_, .message hc hnone⟩
  have hfinds : s.Finds category m.name declared := ⟨c, hc, hdeclared⟩
  by_cases hcount : declared.fields.length = m.fields.length
  case neg => exact .inl ⟨_, .count hfinds hcount⟩
  rcases exists_isFirst_or (fun pair : Field × Value => pair.2.fits pair.1.type = false)
    (declared.fields.zip m.fields) with ⟨⟨field, v⟩, hmisfit⟩ | hfits
  case inl => exact .inl ⟨_, .misfit hfinds hcount hmisfit⟩
  have hshape : InShape declared.fields m.fields := by
    intro pair hpair
    exact Bool.not_eq_false _ ▸ hfits pair hpair
  rcases firstUnwritable_or_fieldsBytes s hshape with ⟨e, hfirst⟩ | ⟨body, hbody⟩
  · exact .inl ⟨e, .unwritable hfinds hcount hshape hfirst⟩
  · right
    obtain ⟨c, tag, hc, htag, hmessage, -⟩ := hfinds.lookups
    exact ⟨tag :: body, encodeMessage_ok_iff.mpr
      ⟨c, tag, declared, body, hc, htag, hmessage, hcount, firstMisfit?_eq_none_iff.mpr hshape,
        hbody, rfl⟩⟩

/-- A fault is never about a tag: a message that is found by its name has
    one. -/
theorem EncodeFault.ne_unknownTag {e : CodecError} (h : s.EncodeFault category m e)
    (name : String) (tag : UInt8) : e ≠ .unknownTag name tag := by
  cases h with
  | unwritable _ _ _ hfirst =>
    obtain ⟨_, _, _, hunwritable⟩ := hfirst
    rintro rfl
    exact hunwritable.isWriteFault
  | _ => nofun

end

/-- **Encoding errors are exact.** A message is encoded unless it has a fault,
    and the error is that fault: of the category, of the name, of the number
    of fields, of the first value with another shape, of the first value that
    cannot be written, in this order. No error is about a tag, and writing a
    value of the right shape never fails for its shape. -/
theorem encoding_errors_exact (s : Schema) (category : String) (m : MessageValue) :
    (∀ e, s.encodeMessage category m = .error e ↔ s.EncodeFault category m e) ∧
    ((∃ bytes, s.encodeMessage category m = .ok bytes) ↔ ∀ e, ¬ s.EncodeFault category m e) ∧
    (∀ name tag, s.encodeMessage category m ≠ .error (.unknownTag name tag)) ∧
    ∀ type v out e out', v.fits type = true → s.encodeValue type v out = .error e out' →
      ∀ expected found, e ≠ .fieldMismatch expected found := by
  have hexact (e : CodecError) :
      s.encodeMessage category m = .error e ↔ s.EncodeFault category m e := by
    constructor
    · intro h
      rcases encodeFault_or_encoded s category m with ⟨e', hfault⟩ | ⟨bytes, hbytes⟩
      · rw [hfault.encodeMessage_eq] at h
        cases h
        exact hfault
      · rw [hbytes] at h
        cases h
    · intro hfault
      exact hfault.encodeMessage_eq
  refine ⟨hexact, ⟨?_, ?_⟩, ?_, ?_⟩
  · intro ⟨bytes, hbytes⟩ e hfault
    rw [hfault.encodeMessage_eq] at hbytes
    cases hbytes
  · intro hnone
    exact (encodeFault_or_encoded s category m).resolve_left (not_exists.mpr hnone)
  · intro name tag h
    exact ((hexact _).mp h).ne_unknownTag name tag rfl
  · intro type v out e out' hfits h expected found hmismatch
    have hfault := (unwritable_of_encodeValue hfits h).isWriteFault
    rw [hmismatch] at hfault
    exact hfault

end Schema

end TaggedWire
