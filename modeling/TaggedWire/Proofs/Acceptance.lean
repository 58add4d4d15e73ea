import TaggedWire.Proofs.Framing

/-! # What the decoders accept

    A decoder takes more than an encoder writes in one respect only: any
    nonzero byte is a true truth value or a present optional, where the
    encoder writes a one. In a schema where no two messages of a category
    and no two variants of an enumeration share a name, this is all. What
    is accepted as a message is the encoding of that message, up to its
    truth bytes.

    `truthMarks` says which bytes of a message are truth bytes and
    `TruthVariant` that two byte strings agree up to these. `Recognizes`
    ties a reader to the bytes it takes for each value, in both directions
    at once, so that one walk over types and fields settles what is
    accepted and what is given back. -/

namespace TaggedWire

variable {α β : Type}

/-! ## Truth bytes -/

/-- For each byte of an encoded value, whether it is a truth value or the
    presence byte of an optional. -/
def Value.truthMarks : Value → List Bool
  | .string text => List.replicate (1 + (Utf8.encode text).length) false
  | .float _ => List.replicate 4 false
  | .u8 _ => [false]
  | .u16 _ => List.replicate 2 false
  | .u32 _ => List.replicate 4 false
  | .bool _ => [true]
  | .floatPair _ _ => List.replicate 8 false
  | .absent => [true]
  | .present inner => true :: inner.truthMarks
  | .enum _ => [false]

/-- For each byte of an encoded message, whether it is a truth byte. The
    tag is none. -/
def MessageValue.truthMarks (m : MessageValue) : List Bool :=
  false :: m.fields.flatMap Value.truthMarks

/-- The bytes `w` are as long as `b` and differ from `b` only in marked
    positions, where `b` has a one and `w` any byte but zero. -/
def TruthVariant (marks : List Bool) (w b : List UInt8) : Prop :=
  w.length = b.length ∧
    ∀ i : Nat, w[i]? = b[i]? ∨
      (marks[i]? = some true ∧ b[i]? = some 1 ∧ ∃ byte, w[i]? = some byte ∧ byte ≠ 0)

theorem TruthVariant.refl (marks : List Bool) (b : List UInt8) : TruthVariant marks b b :=
  ⟨rfl, fun _ => .inl rfl⟩

/-- Without marks there is no difference. -/
theorem truthVariant_unmarked {marks : List Bool} {w b : List UInt8} (h : true ∉ marks) :
    TruthVariant marks w b ↔ w = b := by
  constructor
  · rintro ⟨_, hbytes⟩
    apply List.ext_getElem?
    intro i
    rcases hbytes i with hsame | ⟨hmark, _⟩
    · exact hsame
    · exact (h (List.mem_of_getElem? hmark)).elim
  · rintro rfl
    exact TruthVariant.refl marks w

theorem truthVariant_nil {w : List UInt8} : TruthVariant [] w [] ↔ w = [] :=
  truthVariant_unmarked (List.not_mem_nil)

theorem truthVariant_cons {mark : Bool} {marks : List Bool} {w b : List UInt8} {byte : UInt8} :
    TruthVariant (mark :: marks) w (byte :: b) ↔
      ∃ found rest, w = found :: rest ∧ (found = byte ∨ mark = true ∧ byte = 1 ∧ found ≠ 0) ∧
        TruthVariant marks rest b := by
  constructor
  · rintro ⟨hlen, hbytes⟩
    cases w with
    | nil => cases hlen
    | cons found rest =>
      refine ⟨found, rest, rfl, ?_, Nat.succ.inj hlen, fun i => ?_⟩
      · simpa using hbytes 0
      · simpa using hbytes (i + 1)
  · rintro ⟨found, rest, rfl, hfirst, hlen, hrest⟩
    refine ⟨congrArg Nat.succ hlen, fun i => ?_⟩
    cases i with
    | zero => simpa using hfirst
    | succ i => simpa using hrest i

/-- A variant of two parts is a variant of each. -/
theorem truthVariant_append {marks more : List Bool} {w b c : List UInt8}
    (hlen : marks.length = b.length) :
    TruthVariant (marks ++ more) w (b ++ c) ↔
      ∃ first rest, w = first ++ rest ∧ TruthVariant marks first b ∧
        TruthVariant more rest c := by
  induction b generalizing marks w with
  | nil =>
    have hmarks : marks = [] := List.length_eq_zero_iff.mp hlen
    subst hmarks
    simp [truthVariant_nil]
  | cons byte b ih =>
    cases marks with
    | nil => cases hlen
    | cons mark marks =>
      have ih' := fun w => @ih marks w (Nat.succ.inj hlen)
      simp only [List.cons_append, truthVariant_cons, ih']
      constructor
      · rintro ⟨found, _, rfl, hfound, first, rest, rfl, hfirst, hrest⟩
        exact ⟨found :: first, rest, rfl, ⟨found, first, rfl, hfound, hfirst⟩, hrest⟩
      · rintro ⟨_, rest, rfl, ⟨found, first, rfl, hfound, hfirst⟩, hrest⟩
        exact ⟨found, first ++ rest, rfl, hfound, first, rest, rfl, hfirst, hrest⟩

/-! ## Recognition -/

/-- A reader takes exactly the bytes that `spelled` relates to a value, and
    answers with that value. -/
structure Recognizes (y : StreamReader α) (spelled : List UInt8 → α → Prop) : Prop where
  /-- Bytes that spell a value are taken for it, whatever follows. -/
  back : ∀ {taken a}, spelled taken a → ReadsBack y taken a
  /-- What is taken for a value spells it. -/
  only : ∀ {input a rest}, y input = .ok a rest → ∃ taken, input = taken ++ rest ∧ spelled taken a

section

variable {y : StreamReader α} {g : α → StreamReader β} {spelled spelled' : List UInt8 → α → Prop}

theorem Recognizes.congr (h : Recognizes y spelled)
    (hiff : ∀ taken a, spelled taken a ↔ spelled' taken a) : Recognizes y spelled' where
  back hspelled := h.back ((hiff _ _).mpr hspelled)
  only hread := by
    obtain ⟨taken, hinput, hspelled⟩ := h.only hread
    exact ⟨taken, hinput, (hiff _ _).mp hspelled⟩

theorem recognizes_pure (a : α) :
    Recognizes (pure a : StreamReader α) fun taken b => taken = [] ∧ b = a where
  back := by
    rintro _ _ ⟨rfl, rfl⟩
    exact readsBack_pure _
  only := by
    intro input b rest hread
    cases hread
    exact ⟨[], rfl, rfl, rfl⟩

theorem recognizes_throw (e : CodecError) :
    Recognizes (throw e : StreamReader α) fun _ _ => False where
  back := False.elim
  only hread := by cases hread

/-- **Sequencing**: what a reader takes, and then what the next one takes. -/
theorem recognizes_bind {more : α → List UInt8 → β → Prop} (h : Recognizes y spelled)
    (hg : ∀ a, Recognizes (g a) (more a)) :
    Recognizes (y >>= g) fun taken b =>
      ∃ a first rest, taken = first ++ rest ∧ spelled first a ∧ more a rest b where
  back := by
    rintro _ b ⟨a, first, rest, rfl, hfirst, hrest⟩
    exact readsBack_bind (h.back hfirst) ((hg a).back hrest)
  only := by
    intro input b rest hread
    obtain ⟨a, between, hfirst, hsecond⟩ := run_bind_ok_cases hread
    obtain ⟨first, rfl, hspelled⟩ := h.only hfirst
    obtain ⟨second, rfl, hspelled'⟩ := (hg a).only hsecond
    exact ⟨first ++ second, (List.append_assoc _ _ _).symm, a, first, second, rfl, hspelled,
      hspelled'⟩

/-- **Checking**: the answer of a reader is made of what it has taken, or
    refused. -/
theorem Recognizes.check (h : Recognizes y spelled) (f : α → Option β)
    (hsome : ∀ a b, f a = some b → g a = pure b) (hnone : ∀ a, f a = none → ∃ e, g a = throw e) :
    Recognizes (y >>= g) fun taken b => ∃ a, spelled taken a ∧ f a = some b := by
  have hg : ∀ a, Recognizes (g a) fun taken b => taken = [] ∧ f a = some b := by
    intro a
    cases ha : f a with
    | none =>
      obtain ⟨e, he⟩ := hnone a ha
      rw [he]
      exact (recognizes_throw e).congr fun _ _ => by simp
    | some b =>
      rw [hsome a b ha]
      exact (recognizes_pure b).congr fun _ _ => by simp [eq_comm]
  refine (recognizes_bind h hg).congr fun taken b => ?_
  constructor
  · rintro ⟨a, first, _, rfl, hspelled, rfl, hb⟩
    exact ⟨a, by rwa [List.append_nil], hb⟩
  · rintro ⟨a, hspelled, hb⟩
    exact ⟨a, taken, [], (List.append_nil taken).symm, hspelled, rfl, hb⟩

theorem Recognizes.map (h : Recognizes y spelled) (f : α → β) :
    Recognizes (y >>= fun a => pure (f a)) fun taken b => ∃ a, spelled taken a ∧ f a = b := by
  refine (h.check (fun a => some (f a)) (by simp) (by simp)).congr fun taken b => ?_
  simp only [Option.some.injEq]

theorem recognizes_byte : Recognizes Stream.nextByte fun taken byte => taken = [byte] where
  back := by
    rintro _ byte rfl
    exact readsBack_byte byte
  only := by
    intro input byte rest hread
    cases input with
    | nil => cases hread
    | cons found input => cases hread; exact ⟨[byte], rfl, rfl⟩

theorem recognizes_bytes (count : Nat) :
    Recognizes (Stream.nextBytes count) fun taken bytes =>
      taken = bytes ∧ bytes.length = count where
  back := by
    rintro _ bytes ⟨rfl, rfl⟩
    exact readsBack_bytes _
  only := by
    intro input bytes rest hread
    rw [Stream.nextBytes_run] at hread
    split at hread
    · rename_i hle
      cases hread
      exact ⟨input.take count, (List.take_append_drop count input).symm, rfl,
        List.length_take_of_le hle⟩
    · cases hread

end

/-! ## Primitives -/

theorem recognizes_number (width : Nat) (f : Nat → α) :
    Recognizes (Stream.nextBytes width >>= fun bytes => pure (f (BigEndian.decode bytes)))
      fun taken a => ∃ n < Nat.pow 256 width, taken = BigEndian.encode width n ∧ a = f n where
  back := by
    rintro _ _ ⟨n, hn, rfl, rfl⟩
    exact readsBack_number width f hn
  only := by
    intro input a rest hread
    obtain ⟨taken, rfl, bytes, ⟨rfl, rfl⟩, rfl⟩ := ((recognizes_bytes width).map _).only hread
    exact ⟨taken, rfl, BigEndian.decode taken, BigEndian.decode_lt taken,
      (BigEndian.encode_decode taken).symm, rfl⟩

theorem recognizes_single :
    Recognizes Stream.nextSingle fun taken x => taken = BigEndian.encode 4 x.bits.toNat where
  back := by
    rintro _ x rfl
    exact readsBack_single x
  only := by
    intro input x rest hread
    obtain ⟨taken, rfl, n, hn, rfl, rfl⟩ :=
      (recognizes_number 4 fun n => (⟨UInt32.ofNat n⟩ : Single)).only hread
    refine ⟨_, rfl, ?_⟩
    rw [UInt32.toNat_ofNat_of_lt' hn]

theorem recognizes_string :
    Recognizes Stream.nextString fun taken text =>
      (Utf8.encode text).length ≤ maxStringLength ∧
        taken = UInt8.ofNat (Utf8.encode text).length :: Utf8.encode text where
  back := by
    rintro _ text ⟨hle, rfl⟩
    exact readsBack_string hle
  only := by
    intro input text rest hread
    have hshape : Recognizes Stream.nextString _ :=
      recognizes_bind recognizes_byte fun length =>
        (recognizes_bytes length.toNat).check Utf8.decode? (fun _ _ h => by rw [h])
          fun _ h => ⟨.invalidUtf8, by rw [h]⟩
    obtain ⟨_, rfl, length, _, _, rfl, rfl, bytes, ⟨rfl, hlength⟩, htext⟩ := hshape.only hread
    -- The length byte says how many bytes the text has, so these fit.
    have hbytes := Utf8.encode_of_decode? htext
    subst hbytes
    have hlt := length.toNat_lt
    refine ⟨_, rfl, by rw [hlength]; exact Nat.le_of_lt_succ hlt, ?_⟩
    rw [hlength, UInt8.ofNat_toNat]
    rfl

/-- What is taken for a primitive is what would be written for it, unless
    it is a truth value. -/
theorem primitiveBytes_of_nextPrimitive {kind : Primitive} (hkind : kind ≠ .bool) {v : Value}
    {input rest : List UInt8} (h : Stream.nextPrimitive kind input = .ok v rest) :
    ∃ taken, input = taken ++ rest ∧ primitiveBytes kind v = .ok taken := by
  cases kind with
  | bool => exact (hkind rfl).elim
  | string =>
    obtain ⟨taken, rfl, text, ⟨hle, rfl⟩, rfl⟩ := (recognizes_string.map Value.string).only h
    exact ⟨_, rfl, by simp [primitiveBytes, hle]⟩
  | float =>
    obtain ⟨taken, rfl, x, rfl, rfl⟩ := (recognizes_single.map Value.float).only h
    exact ⟨_, rfl, rfl⟩
  | u8 =>
    obtain ⟨taken, rfl, n, rfl, rfl⟩ := (recognizes_byte.map Value.u8).only h
    exact ⟨_, rfl, rfl⟩
  | u16 =>
    obtain ⟨taken, rfl, n, hn, rfl, rfl⟩ :=
      (recognizes_number 2 fun n => Value.u16 (UInt16.ofNat n)).only h
    exact ⟨_, rfl, by rw [primitiveBytes, UInt16.toNat_ofNat_of_lt' hn]⟩
  | u32 =>
    obtain ⟨taken, rfl, n, hn, rfl, rfl⟩ :=
      (recognizes_number 4 fun n => Value.u32 (UInt32.ofNat n)).only h
    exact ⟨_, rfl, by rw [primitiveBytes, UInt32.toNat_ofNat_of_lt' hn]⟩
  | floatPair =>
    obtain ⟨taken, rfl, x, _, _, rfl, rfl, y, rfl, rfl⟩ :=
      (recognizes_bind recognizes_single fun x =>
        recognizes_single.map (Value.floatPair x)).only h
    exact ⟨_, rfl, rfl⟩

/-- Of the primitives only truth values have truth bytes. -/
theorem unmarked_of_fitsPrimitive {kind : Primitive} (hkind : kind ≠ .bool) {v : Value}
    (h : v.fitsPrimitive kind = true) : true ∉ v.truthMarks := by
  unfold Value.fitsPrimitive at h
  split at h <;> simp_all [Value.truthMarks]

/-- A byte reads as a truth value if it is the byte of that value or stands
    for it. -/
theorem truthByte_iff {found : UInt8} {b : Bool} :
    decide (found > 0) = b ↔ found = boolByte b ∨ true = true ∧ boolByte b = 1 ∧ found ≠ 0 := by
  have hpos : found > 0 ↔ found ≠ 0 := UInt8.pos_iff_ne_zero
  cases b with
  | false => simp [boolByte, hpos]
  | true =>
    simp only [boolByte, decide_eq_true_eq, hpos, if_true, true_and]
    constructor
    · exact .inr
    · rintro (rfl | h)
      · decide
      · exact h

/-! ## Values -/

namespace Schema

variable {s : Schema}

/-- The bytes are those of a value of a given type, up to its truth
    bytes. -/
def Spells (s : Schema) (type : FieldType) (taken : List UInt8) (v : Value) : Prop :=
  ∃ bytes, s.valueBytes type v = .ok bytes ∧ TruthVariant v.truthMarks taken bytes

theorem length_truthMarks_primitive {kind : Primitive} {v : Value} {bytes : List UInt8}
    (h : primitiveBytes kind v = .ok bytes) : v.truthMarks.length = bytes.length := by
  unfold primitiveBytes at h
  split at h
  case h_1 text =>
    dsimp only at h
    split at h
    · cases h
      simp [Value.truthMarks, Nat.add_comm]
    · cases h
  case h_8 => cases h
  all_goals
    cases h
    simp [Value.truthMarks]

/-- Every byte of a value has a mark. -/
theorem length_truthMarks {type : FieldType} {v : Value} {bytes : List UInt8}
    (h : s.valueBytes type v = .ok bytes) : v.truthMarks.length = bytes.length := by
  induction type generalizing v bytes with
  | primitive kind => exact length_truthMarks_primitive h
  | enumRef name =>
    obtain ⟨variant, index, rfl, _, rfl⟩ := valueBytes_enumRef_ok_iff.mp h
    rfl
  | optional inner ih =>
    rcases valueBytes_optional_ok_iff.mp h with ⟨rfl, rfl⟩ | ⟨w, body, rfl, _, hbody, rfl⟩
    · rfl
    · exact congrArg Nat.succ (ih hbody)

theorem recognizes_primitive (s : Schema) (kind : Primitive) :
    Recognizes (Stream.nextPrimitive kind) (s.Spells (.primitive kind)) := by
  by_cases hbool : kind = .bool
  · subst hbool
    refine (recognizes_byte.map fun byte => Value.bool (byte > 0)).congr fun taken v => ?_
    constructor
    · rintro ⟨byte, rfl, rfl⟩
      refine ⟨[boolByte (byte > 0)], rfl, truthVariant_cons.mpr ⟨byte, [], rfl, ?_, .refl _ _⟩⟩
      exact truthByte_iff.mp rfl
    · rintro ⟨bytes, hbytes, hvariant⟩
      cases v with
      | bool b =>
        cases hbytes
        obtain ⟨found, rest, rfl, hfound, hrest⟩ := truthVariant_cons.mp hvariant
        rw [truthVariant_nil.mp hrest]
        exact ⟨found, rfl, congrArg Value.bool (truthByte_iff.mpr hfound)⟩
      | _ => cases hbytes
  · -- Everything else has no truth bytes, so it is spelled in one way only.
    have hplain : ∀ taken v, primitiveBytes kind v = .ok taken ↔
        s.Spells (.primitive kind) taken v := by
      intro taken v
      constructor
      · intro hbytes
        exact ⟨taken, hbytes, .refl _ _⟩
      · rintro ⟨bytes, hbytes, hvariant⟩
        have hmarks := unmarked_of_fitsPrimitive hbool (fitsPrimitive_of_primitiveBytes hbytes)
        rw [(truthVariant_unmarked hmarks).mp hvariant]
        exact hbytes
    refine Recognizes.congr ⟨?_, ?_⟩ hplain
    · exact readsBack_primitive
    · exact primitiveBytes_of_nextPrimitive hbool

/-- Every enumeration lists each of its variants once. -/
def DistinctVariants (s : Schema) : Prop := ∀ e ∈ s.enums, e.variants.Nodup

/-- Where the variants differ, a byte that was decoded is encoded again. -/
theorem encodeEnum_of_decodeEnum (hdistinct : s.DistinctVariants) {name : String} {byte : UInt8}
    {v : Value} (h : s.decodeEnum name byte = .ok v) :
    ∃ variant, v = .enum variant ∧ s.encodeEnum name variant = .ok byte := by
  unfold decodeEnum at h
  cases hdeclared : s.enumNamed? name with
  | none => rw [hdeclared] at h; cases h
  | some declared =>
    rw [hdeclared] at h
    cases hvariant : declared.variant? byte with
    | none => simp only [hvariant] at h; cases h
    | some variant =>
      simp only [hvariant] at h
      cases h
      have hnodup := hdistinct declared (List.mem_of_find?_eq_some hdeclared)
      refine ⟨variant, rfl, ?_⟩
      simp only [encodeEnum, hdeclared, Enumeration.indexOf?_of_variant? hnodup hvariant]

theorem recognizes_enum (hdistinct : s.DistinctVariants) (name : String) :
    Recognizes (s.streamLeaf (.enumRef name)) (s.Spells (.enumRef name)) := by
  have hread : Recognizes (s.streamLeaf (.enumRef name)) _ :=
    recognizes_byte.check (fun byte => (s.decodeEnum name byte).toOption)
      (fun byte v h => by cases hv : s.decodeEnum name byte <;> simp_all [Except.toOption])
      (fun byte h => by cases hv : s.decodeEnum name byte <;> simp_all [Except.toOption])
  refine hread.congr fun taken v => ?_
  constructor
  · rintro ⟨byte, rfl, hv⟩
    have hdecoded : s.decodeEnum name byte = .ok v := by
      cases h : s.decodeEnum name byte <;> simp_all [Except.toOption]
    obtain ⟨variant, rfl, hindex⟩ := encodeEnum_of_decodeEnum hdistinct hdecoded
    exact ⟨[byte], valueBytes_enumRef_ok_iff.mpr ⟨variant, byte, rfl, hindex, rfl⟩, .refl _ _⟩
  · rintro ⟨bytes, hbytes, hvariant⟩
    obtain ⟨variant, index, rfl, hindex, rfl⟩ := valueBytes_enumRef_ok_iff.mp hbytes
    have htaken : taken = [index] :=
      (truthVariant_unmarked (by simp [Value.truthMarks])).mp hvariant
    refine ⟨index, htaken, ?_⟩
    rw [decodeEnum_of_encodeEnum hindex]
    rfl

/-- What is not optional is recognized by the reader for leaves. -/
theorem recognizes_leaf (hdistinct : s.DistinctVariants) {type : FieldType}
    (h : type.isOptional = false) : Recognizes (s.streamLeaf type) (s.Spells type) := by
  cases type with
  | primitive kind => exact s.recognizes_primitive kind
  | optional inner => cases h
  | enumRef name => exact recognizes_enum hdistinct name

/-- An optional is a zero, or any other byte and what is inside. -/
theorem spells_optional_iff {inner : FieldType} {taken : List UInt8} {v : Value} :
    s.Spells (.optional inner) taken v ↔
      ∃ presence rest, taken = presence :: rest ∧
        ((presence = 0 ∧ rest = [] ∧ v = .absent) ∨
          (presence ≠ 0 ∧ inner.isOptional = false ∧ ∃ w, s.Spells inner rest w ∧
            v = .present w)) := by
  constructor
  · rintro ⟨bytes, hbytes, hvariant⟩
    rcases valueBytes_optional_ok_iff.mp hbytes with
      ⟨rfl, rfl⟩ | ⟨w, body, rfl, hplain, hbody, rfl⟩
    · obtain ⟨presence, rest, rfl, hpresence, hrest⟩ := truthVariant_cons.mp hvariant
      have hzero : presence = 0 := by simpa using hpresence
      exact ⟨presence, rest, rfl, .inl ⟨hzero, truthVariant_nil.mp hrest, rfl⟩⟩
    · obtain ⟨presence, rest, rfl, hpresence, hrest⟩ := truthVariant_cons.mp hvariant
      have hnonzero : presence ≠ 0 := by
        rcases hpresence with rfl | ⟨_, _, h⟩
        · decide
        · exact h
      exact ⟨presence, rest, rfl, .inr ⟨hnonzero, hplain, w, ⟨body, hbody, hrest⟩, rfl⟩⟩
  · rintro ⟨presence, rest, rfl, ⟨rfl, rfl, rfl⟩ | ⟨hnonzero, hplain, w, ⟨body, hbody, hrest⟩, rfl⟩⟩
    · exact ⟨[0], rfl, .refl _ _⟩
    · refine ⟨1 :: body, ?_, truthVariant_cons.mpr ⟨presence, rest, rfl, ?_, hrest⟩⟩
      · exact valueBytes_optional_ok_iff.mpr (.inr ⟨w, body, rfl, hplain, hbody, rfl⟩)
      · exact .inr ⟨rfl, rfl, hnonzero⟩

theorem recognizes_value (hdistinct : s.DistinctVariants) (type : FieldType) :
    Recognizes (s.streamValue type) (s.Spells type) := by
  cases type with
  | primitive kind => exact s.recognizes_primitive kind
  | enumRef name => exact recognizes_enum hdistinct name
  | optional inner =>
    have hinside : ∀ presence : UInt8, Recognizes
        (do
          if presence = 0 then return .absent
          return .present (← s.streamLeaf inner) : StreamReader Value)
        fun rest v => (presence = 0 ∧ rest = [] ∧ v = .absent) ∨
          (presence ≠ 0 ∧ inner.isOptional = false ∧ ∃ w, s.Spells inner rest w ∧
            v = .present w) := by
      intro presence
      by_cases hzero : presence = 0
      · simp only [hzero, if_true]
        exact (recognizes_pure Value.absent).congr fun _ _ => by simp
      · simp only [hzero, if_false]
        cases hplain : inner.isOptional with
        | false =>
          exact ((recognizes_leaf hdistinct hplain).map Value.present).congr fun _ _ => by
            simp [hzero, eq_comm]
        | true =>
          -- The reader for leaves refuses an optional inside an optional.
          cases inner with
          | optional inner => exact (recognizes_throw .nestedOptional).congr fun _ _ => by simp
          | _ => cases hplain
    refine (recognizes_bind recognizes_byte hinside).congr fun taken v => ?_
    rw [spells_optional_iff]
    constructor
    · rintro ⟨presence, _, rest, rfl, rfl, h⟩
      exact ⟨presence, rest, rfl, h⟩
    · rintro ⟨presence, rest, rfl, h⟩
      exact ⟨presence, [presence], rest, rfl, rfl, h⟩

/-! ## Messages -/

theorem recognizes_fields (hdistinct : s.DistinctVariants) (fields : List Field) :
    Recognizes (s.streamFields fields) fun taken values =>
      fields.length = values.length ∧ ∃ bytes, s.fieldsBytes fields values = .ok bytes ∧
        TruthVariant (values.flatMap Value.truthMarks) taken bytes := by
  induction fields with
  | nil =>
    refine (recognizes_pure []).congr fun taken values => ?_
    constructor
    · rintro ⟨rfl, rfl⟩
      exact ⟨rfl, [], rfl, .refl _ _⟩
    · rintro ⟨hlen, bytes, hbytes, hvariant⟩
      have hvalues : values = [] := List.length_eq_zero_iff.mp hlen.symm
      subst hvalues
      cases hbytes
      exact ⟨truthVariant_nil.mp hvariant, rfl⟩
  | cons field fields ih =>
    refine (recognizes_bind (recognizes_value hdistinct field.type) fun v =>
      ih.map (v :: ·)).congr fun taken values => ?_
    constructor
    · rintro ⟨v, first, rest, rfl, ⟨bytes, hbytes, hfirst⟩, values, ⟨hlen, more, hmore, hrest⟩, rfl⟩
      refine ⟨congrArg Nat.succ hlen, bytes ++ more, ?_, ?_⟩
      · exact fieldsBytes_cons_ok_iff.mpr ⟨bytes, more, hbytes, hmore, rfl⟩
      · exact (truthVariant_append (length_truthMarks hbytes)).mpr ⟨first, rest, rfl, hfirst, hrest⟩
    · rintro ⟨hlen, bytes, hbytes, hvariant⟩
      cases values with
      | nil => cases hlen
      | cons v values =>
        obtain ⟨bytes, more, hfirst, hmore, rfl⟩ := fieldsBytes_cons_ok_iff.mp hbytes
        obtain ⟨first, rest, rfl, hvariant, hvariant'⟩ :=
          (truthVariant_append (length_truthMarks hfirst)).mp hvariant
        exact ⟨v, first, rest, rfl, ⟨bytes, hfirst, hvariant⟩, values,
          ⟨Nat.succ.inj hlen, more, hmore, hvariant'⟩, rfl⟩

/-- No two messages of the category share a name. -/
def DistinctMessages (s : Schema) (category : String) : Prop :=
  ∀ c, s.categoryNamed? category = some c → (c.messages.map (·.name)).Nodup

/-- The bytes behind a tag spell the fields of the message with that tag. -/
def SpellsBody (s : Schema) (c : Category) (tag : UInt8) (rest : List UInt8) (m : MessageValue) :
    Prop :=
  ∃ declared, findMessage c tag = .ok declared ∧ declared.name = m.name ∧
    declared.fields.length = m.fields.length ∧
    ∃ bytes, s.fieldsBytes declared.fields m.fields = .ok bytes ∧
      TruthVariant (m.fields.flatMap Value.truthMarks) rest bytes

theorem recognizes_message (hdistinct : s.DistinctVariants) {category : String}
    (hnames : s.DistinctMessages category) :
    Recognizes (s.streamMessage category) fun taken m =>
      ∃ bytes, s.encodeMessage category m = .ok bytes ∧
        TruthVariant m.truthMarks taken bytes := by
  cases hc : s.findCategory category with
  | error e =>
    unfold streamMessage
    rw [hc]
    refine (recognizes_throw e).congr fun taken m => ⟨False.elim, ?_⟩
    rintro ⟨bytes, hbytes, _⟩
    obtain ⟨c, _, _, _, hfound, _⟩ := encodeMessage_ok_iff.mp hbytes
    rw [hc] at hfound
    cases hfound
  | ok c =>
    unfold streamMessage
    rw [hc]
    refine Recognizes.congr (recognizes_bind recognizes_byte
      fun tag => (?body : Recognizes _ (s.SpellsBody c tag))) fun taken m => ?_
    case body =>
      cases hm : findMessage c tag with
      | error e =>
        refine (recognizes_throw e).congr fun _ _ => ⟨False.elim, ?_⟩
        rintro ⟨declared, hdeclared, _⟩
        rw [hm] at hdeclared
        cases hdeclared
      | ok declared =>
        refine ((recognizes_fields hdistinct declared.fields).map
          (MessageValue.mk declared.name)).congr fun rest m => ?_
        constructor
        · rintro ⟨values, hvalues, rfl⟩
          exact ⟨declared, hm, rfl, hvalues⟩
        · rintro ⟨found, hfound, hname, hvalues⟩
          rw [hm] at hfound
          cases hfound
          exact ⟨m.fields, hvalues, by rw [hname]⟩
    constructor
    · rintro ⟨tag, _, rest, rfl, rfl, declared, hm, hname, hlen, body, hbytes, hvariant⟩
      refine ⟨tag :: body, ?_, truthVariant_cons.mpr ⟨tag, rest, rfl, .inl rfl, hvariant⟩⟩
      -- The name of the message leads back to the tag, since no other bears it.
      have htag : c.tagOf? m.name = some tag := by
        rw [← hname]
        exact Category.tagOf?_of_messageByTag? (hnames c (findCategory_ok_iff.mp hc))
          (findMessage_ok_iff.mp hm)
      exact encodeMessage_ok_iff.mpr ⟨c, tag, declared, body, hc, htag, hm, hlen,
        firstMisfit?_of_fieldsBytes hlen hbytes, hbytes, rfl⟩
    · rintro ⟨bytes, hbytes, hvariant⟩
      obtain ⟨c', tag, declared, body, hc', htag, hm, hlen, _, hbody, rfl⟩ :=
        encodeMessage_ok_iff.mp hbytes
      rw [hc] at hc'
      cases hc'
      obtain ⟨found, rest, rfl, hfound, hrest⟩ := truthVariant_cons.mp hvariant
      have htag' : found = tag := by simpa using hfound
      exact ⟨found, [found], rest, rfl, rfl, declared, htag' ▸ hm, findMessage_name htag hm, hlen,
        body, hbody, hrest⟩

/-- What the buffer decoder takes from any position is a message that can
    be encoded, spelled up to its truth bytes. -/
theorem decodeMessage_ok_iff (hdistinct : s.DistinctVariants) {category : String}
    (hnames : s.DistinctMessages category) {buf : List UInt8} {start stop : Nat}
    {m : MessageValue} :
    s.decodeMessage category buf start = .ok m stop ↔
      ∃ taken rest bytes, buf.drop start = taken ++ rest ∧ stop = start + taken.length ∧
        s.encodeMessage category m = .ok bytes ∧ TruthVariant m.truthMarks taken bytes := by
  have hread := recognizes_message hdistinct hnames
  rw [(s.readAlike_message category buf start).ok_iff]
  constructor
  · rintro ⟨taken, rest, hdrop, rfl, hstream⟩
    obtain ⟨taken', htaken, bytes, hbytes, hvariant⟩ := hread.only hstream
    rw [hdrop] at htaken
    have hsame := List.append_cancel_right htaken
    exact ⟨taken, rest, bytes, hdrop, rfl, hbytes, hsame ▸ hvariant⟩
  · rintro ⟨taken, rest, bytes, hdrop, rfl, hbytes, hvariant⟩
    refine ⟨taken, rest, hdrop, rfl, ?_⟩
    rw [hdrop]
    exact hread.back ⟨bytes, hbytes, hvariant⟩ rest

/-- Each value of a message that can be encoded has the shape of its
    field. -/
theorem fits_of_encodeMessage {category : String} {m : MessageValue} {bytes : List UInt8}
    (h : s.encodeMessage category m = .ok bytes) :
    ∃ c declared, s.categoryNamed? category = some c ∧ declared ∈ c.messages ∧
      declared.name = m.name ∧
      List.Forall₂ (fun (field : Field) v => v.fits field.type = true) declared.fields
        m.fields := by
  obtain ⟨c, tag, declared, body, hc, htag, hm, hlen, hfit, _, _⟩ := encodeMessage_ok_iff.mp h
  refine ⟨c, declared, findCategory_ok_iff.mp hc,
    List.mem_of_getElem? (findMessage_ok_iff.mp hm), findMessage_name htag hm, ?_⟩
  rw [List.forall₂_iff_zip]
  refine ⟨hlen, fun {field v} hmem => ?_⟩
  have hnone := List.find?_eq_none.mp hfit (field, v) hmem
  simpa using hnone

/-- **Acceptance**: let no two messages of the category and no two variants
    of an enumeration share a name. Then a byte string as a whole is
    decoded to a message exactly when it is the encoding of that message,
    up to truth bytes. Hence whatever is decoded, from any position, has
    values of the declared shapes and is encoded again; the encoding has as
    many bytes as were taken, differs from these in truth bytes only, and
    is decoded to the same message. -/
theorem decoder_accepts_iff (hdistinct : s.DistinctVariants) {category : String}
    (hnames : s.DistinctMessages category) :
    (∀ w m, s.decodeMessage category w 0 = .ok m w.length ↔
      ∃ b, s.encodeMessage category m = .ok b ∧ TruthVariant m.truthMarks w b) ∧
    (∀ buf start m stop, s.decodeMessage category buf start = .ok m stop →
      (∃ c declared, s.categoryNamed? category = some c ∧ declared ∈ c.messages ∧
        declared.name = m.name ∧
        List.Forall₂ (fun (field : Field) v => v.fits field.type = true) declared.fields
          m.fields) ∧
      ∃ b, s.encodeMessage category m = .ok b ∧ stop = start + b.length ∧
        TruthVariant m.truthMarks ((buf.drop start).take b.length) b ∧
        s.decodeMessage category b 0 = .ok m b.length) := by
  constructor
  · intro w m
    rw [decodeMessage_ok_iff hdistinct hnames]
    constructor
    · rintro ⟨taken, rest, bytes, hw, hlen, hbytes, hvariant⟩
      -- Nothing is left over, so what was taken is everything.
      have hrest : rest = [] := by
        have hsum := congrArg List.length hw
        simp only [List.drop_zero, List.length_append, Nat.zero_add] at hsum hlen
        exact List.length_eq_zero_iff.mp (by omega)
      have htaken : w = taken := by simpa [hrest] using hw
      exact ⟨bytes, hbytes, htaken ▸ hvariant⟩
    · rintro ⟨b, hb, hvariant⟩
      exact ⟨w, [], b, (List.append_nil w).symm, (Nat.zero_add _).symm, hb, hvariant⟩
  · intro buf start m stop hread
    obtain ⟨taken, rest, bytes, hdrop, rfl, hbytes, hvariant⟩ :=
      (decodeMessage_ok_iff hdistinct hnames).mp hread
    have hlen : taken.length = bytes.length := hvariant.1
    have htaken : (buf.drop start).take bytes.length = taken := by
      rw [hdrop, ← hlen, List.take_left]
    refine ⟨fits_of_encodeMessage hbytes, bytes, hbytes, by rw [hlen], htaken ▸ hvariant, ?_⟩
    exact (decodeMessage_ok_iff hdistinct hnames).mpr ⟨bytes, [], bytes,
      (List.append_nil bytes).symm, (Nat.zero_add _).symm, hbytes, .refl _ _⟩

/-- A truth value and a presence byte that no encoder writes. -/
theorem decoder_accepts_iff_signal :
    let s : Schema :=
      { enums := [⟨"Side", ["Left", "Right"]⟩]
        categories := [⟨"Game", [⟨"Stop", []⟩, ⟨"Move",
          [⟨"side", .enumRef "Side"⟩, ⟨"fast", .primitive .bool⟩,
           ⟨"note", .optional (.primitive .u8)⟩]⟩]⟩] }
    let m : MessageValue := ⟨"Move", [.enum "Right", .bool true, .present (.u8 5)]⟩
    s.DistinctVariants ∧ s.DistinctMessages "Game" ∧
      s.decodeMessage "Game" [1, 1, 7, 9, 5] 0 = .ok m 5 ∧
      ∃ b, s.encodeMessage "Game" m = .ok b ∧ TruthVariant m.truthMarks [1, 1, 7, 9, 5] b := by
  intro s m
  have hdistinct : s.DistinctVariants := by
    intro e he
    have hside : e = ⟨"Side", ["Left", "Right"]⟩ := by simpa [s] using he
    subst hside
    decide
  have hnames : s.DistinctMessages "Game" := by
    intro c hc
    cases hc
    decide
  have hread : s.decodeMessage "Game" [1, 1, 7, 9, 5] 0 = .ok m 5 := rfl
  exact ⟨hdistinct, hnames, hread, ((decoder_accepts_iff hdistinct hnames).1 _ m).mp hread⟩

end Schema

end TaggedWire
