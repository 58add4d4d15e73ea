import Mathlib.Data.List.Forall2
import TaggedWire.Proofs.CleanSchemas
import TaggedWire.Proofs.CursorStream
import TaggedWire.Proofs.Encoding
import TaggedWire.Proofs.Numbering

/-! # Faults of a schema

    Some failures of the codec are the fault of the schema and not of the
    data: a name that is used twice, a list that is too long, an optional
    inside an optional, a reference that leads nowhere. In a clean schema
    there are none of these. Every value that a field admits can be written,
    and reading fails only because of the bytes. -/

namespace TaggedWire

/-! ## Values that a field admits -/

/-- Every string in a value has a length that its length byte can say. -/
def Value.ShortStrings : Value → Prop
  | .string text => (Utf8.encode text).length ≤ maxStringLength
  | .present inner => inner.ShortStrings
  | _ => True

namespace Schema

/-- Every variant in a value is one of the enumeration that its type refers
    to. -/
def KnownVariants (s : Schema) : FieldType → Value → Prop
  | .enumRef name, .enum variant => ∃ e ∈ s.enums, e.name = name ∧ variant ∈ e.variants
  | .optional inner, .present v => s.KnownVariants inner v
  | _, _ => True

/-- A value that may stand in a field of a type: it has the shape of the
    type, its variants are known, and its strings are not too long. -/
structure Admits (s : Schema) (type : FieldType) (v : Value) : Prop where
  fits : v.fits type = true
  variants : s.KnownVariants type v
  strings : v.ShortStrings

/-- One admitted value for each field. -/
def AdmitsAll (s : Schema) : List Field → List Value → Prop :=
  List.Forall₂ fun field v => s.Admits field.type v

end Schema

/-! ## Lookups in a clean schema -/

theorem Schema.Clean.findCategory {s : Schema} (hclean : s.Clean) {c : Category}
    (hc : c ∈ s.categories) : s.findCategory c.name = .ok c :=
  findCategory_ok_iff.mpr (hclean.categoryNamed? hc)

/-- Every message of a clean category has a tag, under which it is found. -/
theorem Category.Clean.tagOf? {s : Schema} {c : Category} (hclean : c.Clean s) {m : Message}
    (hm : m ∈ c.messages) :
    ∃ tag, c.tagOf? m.name = some tag ∧ Schema.findMessage c tag = .ok m := by
  obtain ⟨tag, htag⟩ := exists_number_of_mem hclean.numbered hm
  exact ⟨tag, Category.tagOf?_of_messageByTag? hclean.nodup htag,
    Schema.findMessage_ok_iff.mpr htag⟩

/-- A clean enumeration has a byte for its variants and for nothing else. -/
theorem Enumeration.Clean.indexOf?_isSome_iff {e : Enumeration} (hclean : e.Clean)
    (variant : String) : (∃ index, e.indexOf? variant = some index) ↔ variant ∈ e.variants := by
  constructor
  · intro ⟨index, hindex⟩
    exact List.mem_of_getElem? (Enumeration.variant?_of_indexOf? hindex)
  · intro hvariant
    obtain ⟨index, hindex⟩ := exists_number_of_mem hclean.numbered hvariant
    exact ⟨index, Enumeration.indexOf?_of_variant? hclean.nodup hindex⟩

/-! ## Encoding -/

theorem primitiveBytes_ok_iff (kind : Primitive) (v : Value) :
    (∃ bytes, primitiveBytes kind v = .ok bytes) ↔
      v.fitsPrimitive kind = true ∧ v.ShortStrings := by
  unfold primitiveBytes
  split
  · -- A string is the only primitive that can be too long.
    rename_i text
    by_cases hshort : (Utf8.encode text).length ≤ maxStringLength
    · simp [Value.fitsPrimitive, Value.ShortStrings, hshort]
    · simp [Value.fitsPrimitive, Value.ShortStrings, hshort]
  case h_8 hstring hfloat hu8 hu16 hu32 hbool hpair =>
    cases kind <;> cases v <;> simp_all [Value.fitsPrimitive]
  all_goals simp [Value.fitsPrimitive, Value.ShortStrings]

namespace Schema

variable {s : Schema}

theorem encodeEnum_ok_iff (hclean : s.Clean) (name variant : String) :
    (∃ index, s.encodeEnum name variant = .ok index) ↔
      ∃ e ∈ s.enums, e.name = name ∧ variant ∈ e.variants := by
  unfold encodeEnum
  constructor
  · intro ⟨index, h⟩
    cases hdeclared : s.enumNamed? name with
    | none =>
      rw [hdeclared] at h
      cases h
    | some e =>
      have he : e ∈ s.enums := List.mem_of_find?_eq_some hdeclared
      have hname : e.name = name := by simpa using List.find?_some hdeclared
      cases hindex : e.indexOf? variant with
      | none => simp [hdeclared, hindex] at h
      | some index =>
        have hvariant := ((hclean.enums e he).indexOf?_isSome_iff variant).mp ⟨index, hindex⟩
        exact ⟨e, he, hname, hvariant⟩
  · intro ⟨e, he, hname, hvariant⟩
    obtain ⟨index, hindex⟩ := ((hclean.enums e he).indexOf?_isSome_iff variant).mpr hvariant
    refine ⟨index, ?_⟩
    simp [← hname, hclean.enumNamed? he, hindex]

/-- **What a field admits can be written**, and nothing else can. -/
theorem valueBytes_ok_iff (hclean : s.Clean) {type : FieldType} (hunnested : type.Unnested)
    (v : Value) : (∃ bytes, s.valueBytes type v = .ok bytes) ↔ s.Admits type v := by
  induction type generalizing v with
  | primitive kind =>
    have hprimitive := primitiveBytes_ok_iff kind v
    constructor
    · intro h
      have ⟨hfits, hshort⟩ := hprimitive.mp h
      exact ⟨hfits, by simp [KnownVariants], hshort⟩
    · intro h
      exact hprimitive.mpr ⟨h.fits, h.strings⟩
  | optional inner ih =>
    have ⟨hplain, hinner⟩ := hunnested
    constructor
    · intro ⟨bytes, h⟩
      rcases valueBytes_optional_ok_iff.mp h with ⟨rfl, _⟩ | ⟨w, body, rfl, _, hbody, _⟩
      · exact ⟨rfl, trivial, trivial⟩
      · have hw := (ih hinner w).mp ⟨body, hbody⟩
        exact ⟨hw.fits, hw.variants, hw.strings⟩
    · intro h
      have hfits := h.fits
      cases v with
      | absent => exact ⟨[0], rfl⟩
      | present w =>
        obtain ⟨body, hbody⟩ := (ih hinner w).mpr ⟨hfits, h.variants, h.strings⟩
        exact ⟨1 :: body, valueBytes_optional_ok_iff.mpr
          (.inr ⟨w, body, rfl, hplain, hbody, rfl⟩)⟩
      | _ => cases hfits
  | enumRef name =>
    constructor
    · intro ⟨bytes, h⟩
      obtain ⟨variant, index, rfl, hindex, _⟩ := valueBytes_enumRef_ok_iff.mp h
      have hknown := (encodeEnum_ok_iff hclean name variant).mp ⟨index, hindex⟩
      exact ⟨rfl, hknown, trivial⟩
    · intro h
      have hfits := h.fits
      cases v with
      | enum variant =>
        obtain ⟨index, hindex⟩ := (encodeEnum_ok_iff hclean name variant).mpr h.variants
        exact ⟨[index], valueBytes_enumRef_ok_iff.mpr ⟨variant, index, rfl, hindex, rfl⟩⟩
      | _ => cases hfits

theorem fieldsBytes_ok_iff (hclean : s.Clean) {fields : List Field}
    (hunnested : ∀ f ∈ fields, f.type.Unnested) {values : List Value}
    (hlen : fields.length = values.length) :
    (∃ bytes, s.fieldsBytes fields values = .ok bytes) ↔ s.AdmitsAll fields values := by
  induction fields generalizing values with
  | nil =>
    cases values with
    | nil => exact ⟨fun _ => .nil, fun _ => ⟨[], rfl⟩⟩
    | cons v values => cases hlen
  | cons field fields ih =>
    cases values with
    | nil => cases hlen
    | cons v values =>
      have ⟨hfield, hfields⟩ := List.forall_mem_cons.mp hunnested
      have hfirst := valueBytes_ok_iff hclean hfield v
      have hrest := ih hfields (Nat.succ.inj hlen)
      constructor
      · intro ⟨bytes, h⟩
        obtain ⟨first, more, hbytes, hmore, _⟩ := fieldsBytes_cons_ok_iff.mp h
        exact .cons (hfirst.mp ⟨first, hbytes⟩) (hrest.mp ⟨more, hmore⟩)
      · intro h
        cases h with
        | cons hadmits hall =>
          obtain ⟨first, hbytes⟩ := hfirst.mpr hadmits
          obtain ⟨more, hmore⟩ := hrest.mpr hall
          exact ⟨first ++ more, fieldsBytes_cons_ok_iff.mpr ⟨first, more, hbytes, hmore, rfl⟩⟩

/-- A message of a clean schema is encoded exactly when each of its fields
    admits its value. -/
theorem encodeMessage_ok_iff_admitsAll (hclean : s.Clean) {c : Category}
    (hc : c ∈ s.categories) {m : Message} (hm : m ∈ c.messages) (values : List Value) :
    (∃ bytes, s.encodeMessage c.name ⟨m.name, values⟩ = .ok bytes) ↔
      s.AdmitsAll m.fields values := by
  have hcategory := hclean.categories c hc
  have hunnested : ∀ f ∈ m.fields, f.type.Unnested :=
    fun f hf => ((hcategory.messages m hm).fields f hf).unnested
  have hfound := hclean.findCategory hc
  obtain ⟨tag, htag, hmessage⟩ := hcategory.tagOf? hm
  constructor
  · intro ⟨bytes, h⟩
    obtain ⟨c', tag', m', body, hc', htag', hm', hlen, _, hbody, _⟩ := encodeMessage_ok_iff.mp h
    -- Names are used once, so the lookups lead to this message.
    rw [hfound] at hc'
    cases hc'
    rw [htag] at htag'
    cases htag'
    rw [hmessage] at hm'
    cases hm'
    exact (fieldsBytes_ok_iff hclean hunnested hlen).mp ⟨body, hbody⟩
  · intro h
    have hlen : m.fields.length = values.length := h.length_eq
    obtain ⟨body, hbody⟩ := (fieldsBytes_ok_iff hclean hunnested hlen).mpr h
    have hfit := firstMisfit?_of_fieldsBytes hlen hbody
    exact ⟨tag :: body, encodeMessage_ok_iff.mpr
      ⟨c, tag, m, body, hfound, htag, hmessage, hlen, hfit, hbody, rfl⟩⟩

end Schema

/-! ## Decoding -/

/-- The failures that are due to the bytes. -/
def CodecError.IsInputFault : CodecError → Prop
  | .unexpectedEnd | .unknownTag .. | .enumOutOfRange .. | .invalidUtf8 => True
  | _ => False

/-- A reader that fails only because of its input. -/
def Faultless {σ α : Type} (x : EStateM CodecError σ α) : Prop :=
  ∀ state e state', x state = .error e state' → e.IsInputFault

section

variable {σ α β : Type}

theorem faultless_pure (a : α) : Faultless (pure a : EStateM CodecError σ α) := by
  intro state e state' h
  cases h

theorem faultless_throw {e : CodecError} (h : e.IsInputFault) :
    Faultless (throw e : EStateM CodecError σ α) := by
  intro state e' state' hthrow
  cases hthrow
  exact h

theorem faultless_bind {x : EStateM CodecError σ α} {f : α → EStateM CodecError σ β}
    (hx : Faultless x) (hf : ∀ a, Faultless (f a)) : Faultless (x >>= f) := by
  intro state e state' h
  rcases run_bind_error_cases h with hfirst | ⟨a, between, _, hsecond⟩
  · exact hx state e state' hfirst
  · exact hf a between e state' hsecond

end

theorem faultless_byte : Faultless Stream.nextByte := by
  intro input e rest h
  cases input with
  | nil =>
    cases h
    trivial
  | cons byte input => cases h

theorem faultless_bytes (count : Nat) : Faultless (Stream.nextBytes count) := by
  intro input e rest h
  rw [Stream.nextBytes_run] at h
  by_cases hle : count ≤ input.length
  · rw [if_pos hle] at h
    cases h
  · rw [if_neg hle] at h
    cases h
    trivial

theorem faultless_single : Faultless Stream.nextSingle :=
  faultless_bind (faultless_bytes 4) fun _ => faultless_pure _

theorem faultless_string : Faultless Stream.nextString := by
  apply faultless_bind faultless_byte
  intro length
  apply faultless_bind (faultless_bytes length.toNat)
  intro bytes
  cases Utf8.decode? bytes with
  | some text => exact faultless_pure text
  | none => exact faultless_throw (e := .invalidUtf8) trivial

theorem faultless_primitive (kind : Primitive) : Faultless (Stream.nextPrimitive kind) := by
  cases kind with
  | string => exact faultless_bind faultless_string fun _ => faultless_pure _
  | float => exact faultless_bind faultless_single fun _ => faultless_pure _
  | u8 => exact faultless_bind faultless_byte fun _ => faultless_pure _
  | u16 => exact faultless_bind (faultless_bytes 2) fun _ => faultless_pure _
  | u32 => exact faultless_bind (faultless_bytes 4) fun _ => faultless_pure _
  | bool => exact faultless_bind faultless_byte fun _ => faultless_pure _
  | floatPair =>
    apply faultless_bind faultless_single
    intro x
    exact faultless_bind faultless_single fun _ => faultless_pure _

namespace Schema

variable {s : Schema}

/-- A byte of a declared enumeration can only be out of range. -/
theorem decodeEnum_inputFault {name : String} (hdeclared : ∃ e ∈ s.enums, e.name = name)
    {byte : UInt8} {e : CodecError} (h : s.decodeEnum name byte = .error e) : e.IsInputFault := by
  unfold decodeEnum at h
  cases hfound : s.enumNamed? name with
  | none =>
    have hsome := (enumNamed?_isNone_iff s name).mpr hdeclared
    rw [hfound] at hsome
    cases hsome
  | some declared =>
    rw [hfound] at h
    cases hvariant : declared.variant? byte with
    | some variant => simp [hvariant] at h
    | none =>
      simp only [hvariant] at h
      cases h
      trivial

theorem faultless_leaf {type : FieldType} (hplain : type.isOptional = false)
    (hresolved : s.Resolves type) : Faultless (s.streamLeaf type) := by
  cases type with
  | primitive kind => exact faultless_primitive kind
  | optional inner => cases hplain
  | enumRef name =>
    apply faultless_bind faultless_byte
    intro byte
    cases hvariant : s.decodeEnum name byte with
    | ok v => exact faultless_pure v
    | error e => exact faultless_throw (decodeEnum_inputFault hresolved hvariant)

theorem faultless_value {type : FieldType} (hunnested : type.Unnested)
    (hresolved : s.Resolves type) : Faultless (s.streamValue type) := by
  cases type with
  | primitive kind => exact faultless_leaf rfl hresolved
  | enumRef name => exact faultless_leaf rfl hresolved
  | optional inner =>
    apply faultless_bind faultless_byte
    intro byte
    by_cases habsent : byte = 0
    · rw [if_pos habsent]
      exact faultless_pure _
    · rw [if_neg habsent]
      exact faultless_bind (faultless_leaf hunnested.1 hresolved) fun _ => faultless_pure _

theorem faultless_fields {fields : List Field} (h : ∀ f ∈ fields, f.Clean s) :
    Faultless (s.streamFields fields) := by
  induction fields with
  | nil => exact faultless_pure []
  | cons field fields ih =>
    have ⟨hfield, hfields⟩ := List.forall_mem_cons.mp h
    apply faultless_bind (faultless_value hfield.unnested hfield.resolved)
    intro v
    exact faultless_bind (ih hfields) fun _ => faultless_pure _

theorem faultless_message (hclean : s.Clean) {c : Category} (hc : c ∈ s.categories) :
    Faultless (s.streamMessage c.name) := by
  unfold streamMessage
  rw [hclean.findCategory hc]
  apply faultless_bind faultless_byte
  intro tag
  cases hmessage : findMessage c tag with
  | error e =>
    have hunknown : e.IsInputFault := by
      unfold findMessage at hmessage
      cases hfound : c.messageByTag? tag with
      | some m => simp [hfound] at hmessage
      | none =>
        simp only [hfound] at hmessage
        cases hmessage
        trivial
    exact faultless_throw hunknown
  | ok m =>
    have hm : m ∈ c.messages := List.mem_of_getElem? (findMessage_ok_iff.mp hmessage)
    have hfields := ((hclean.categories c hc).messages m hm).fields
    exact faultless_bind (faultless_fields hfields) fun _ => faultless_pure _

/-- The buffer decoder fails as the stream decoder does. -/
theorem faultless_decodeMessage (hclean : s.Clean) {c : Category} (hc : c ∈ s.categories)
    (buf : List UInt8) : Faultless (s.decodeMessage c.name buf) := by
  intro start e index h
  have halike := s.readAlike_message c.name buf start start _ (inStep_start buf start)
  rw [h] at halike
  cases hstream : s.streamMessage c.name (buf.drop start) with
  | ok m rest =>
    rw [hstream] at halike
    exact halike.elim
  | error e' rest =>
    rw [hstream] at halike
    rw [halike.1]
    exact faultless_message hclean hc _ _ _ hstream

/-! ## Clean schemas -/

/-- **No faults in a clean schema.** In a category of a schema without
    warnings, a message is encoded exactly when there is one value for each
    field and the fields admit their values; and both decoders, whatever
    the bytes, fail only because of the bytes. -/
theorem faultless_of_lint {s : Schema} (hlint : s.lint = []) {c : Category}
    (hc : c ∈ s.categories) :
    (∀ m ∈ c.messages, ∀ values,
      (∃ bytes, s.encodeMessage c.name ⟨m.name, values⟩ = .ok bytes) ↔
        s.AdmitsAll m.fields values) ∧
    (∀ buf start e index, s.decodeMessage c.name buf start = .error e index → e.IsInputFault) ∧
    (∀ input e rest, s.streamMessage c.name input = .error e rest → e.IsInputFault) := by
  have hclean : s.Clean := s.lint_eq_nil_iff.mp hlint
  refine ⟨?_, ?_, ?_⟩
  · intro m hm values
    exact encodeMessage_ok_iff_admitsAll hclean hc hm values
  · intro buf
    exact faultless_decodeMessage hclean hc buf
  · exact faultless_message hclean hc

/-- An optional variant and a string that is not of ASCII. -/
theorem faultless_of_lint_door :
    let s : Schema :=
      { enums := [⟨"Side", ["Left", "Right"]⟩]
        categories :=
          [⟨"Door", [⟨"Shut", []⟩, ⟨"Open",
            [⟨"side", .optional (.enumRef "Side")⟩, ⟨"note", .primitive .string⟩]⟩]⟩] }
    s.lint = [] ∧
      (∃ bytes, s.encodeMessage "Door" ⟨"Open", [.present (.enum "Right"), .string "é"]⟩ =
        .ok bytes) ∧
      (∀ buf start e index, s.decodeMessage "Door" buf start = .error e index →
        e.IsInputFault) := by
  intro s
  have hlint : s.lint = [] := by decide
  obtain ⟨hencode, hdecode, -⟩ := faultless_of_lint hlint List.mem_cons_self
  refine ⟨hlint, ?_, hdecode⟩
  refine (hencode _ (List.mem_cons_of_mem _ List.mem_cons_self) _).mpr (.cons ?_ (.cons ?_ .nil))
  · exact ⟨rfl, ⟨_, List.mem_cons_self, rfl, by decide⟩, trivial⟩
  · have hshort : (Utf8.encode "é").length ≤ maxStringLength := by decide +kernel
    exact ⟨rfl, trivial, hshort⟩

end Schema

end TaggedWire
