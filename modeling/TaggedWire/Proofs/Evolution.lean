import TaggedWire.Proofs.Framing

/-! # Schemas that only grow

    A schema grows when messages are appended to its categories, variants
    to its enumerations, and new enumerations and categories to the whole.
    Nothing is moved or taken away, so every number keeps its meaning.

    Peers with the older and the newer schema understand each other as far
    as they can. What the older peer sends means the same to the newer one.
    What the newer peer sends, the older one either understands in the same
    way or refuses, for one of three reasons (`Outdated`); it never takes
    one message for another. The heart of the argument is `Behind`: on
    every input, an older decoder does what the newer one does, or fails
    for such a reason. -/

namespace TaggedWire

variable {α β σ : Type}

/-! ## Growth -/

/-- An enumeration with variants appended. -/
structure Enumeration.Grows (e e' : Enumeration) : Prop where
  name : e'.name = e.name
  variants : e.variants <+: e'.variants

/-- A category with messages appended. -/
structure Category.Grows (c c' : Category) : Prop where
  name : c'.name = c.name
  messages : c.messages <+: c'.messages

/-- Entries that grow where they stand, and new ones behind them. -/
def GrowInPlace (R : α → α → Prop) (entries entries' : List α) : Prop :=
  ∃ grown added, entries' = grown ++ added ∧ List.Forall₂ R entries grown

/-- A schema with everything appended that may be appended. -/
structure Schema.Grows (s s' : Schema) : Prop where
  enums : GrowInPlace Enumeration.Grows s.enums s'.enums
  categories : GrowInPlace Category.Grows s.categories s'.categories

/-! ## Lookups in what has grown -/

/-- The first match stays the first match, since nothing comes before it
    that did not. -/
theorem GrowInPlace.find? {R : α → α → Prop} {p : α → Bool} {entries entries' : List α}
    (h : GrowInPlace R entries entries') (hp : ∀ a b, R a b → p b = p a) {a : α}
    (ha : entries.find? p = some a) : ∃ b, entries'.find? p = some b ∧ R a b := by
  obtain ⟨grown, added, rfl, hgrown⟩ := h
  induction hgrown with
  | nil => cases ha
  | @cons here there _ _ hhere _ ih =>
    rw [List.cons_append, List.find?_cons, hp here there hhere]
    rw [List.find?_cons] at ha
    cases hmatch : p here with
    | true =>
      rw [hmatch] at ha
      cases ha
      exact ⟨there, rfl, hhere⟩
    | false =>
      rw [hmatch] at ha
      exact ih ha

theorem getElem?_of_grown {entries entries' : List α} (h : entries <+: entries') {i : Nat}
    {a : α} (ha : entries[i]? = some a) : entries'[i]? = some a := by
  obtain ⟨hlt, rfl⟩ := List.getElem?_eq_some_iff.mp ha
  exact List.prefix_iff_getElem?.mp h i hlt

/-- What has a number keeps it. -/
theorem bytePosition?_of_grown {p : α → Bool} {entries entries' : List α}
    (h : entries <+: entries') {number : UInt8} (hn : bytePosition? p entries = some number) :
    bytePosition? p entries' = some number := by
  rw [bytePosition?_eq_some_iff] at hn ⊢
  exact h.findIdx?_eq_some hn

namespace Schema

variable {s s' : Schema}

theorem Grows.enumNamed? (h : s.Grows s') {name : String} {e : Enumeration}
    (he : s.enumNamed? name = some e) : ∃ e', s'.enumNamed? name = some e' ∧ e.Grows e' := by
  refine h.enums.find? (fun a b hab => ?_) he
  rw [hab.name]

theorem Grows.categoryNamed? (h : s.Grows s') {name : String} {c : Category}
    (hc : s.categoryNamed? name = some c) :
    ∃ c', s'.categoryNamed? name = some c' ∧ c.Grows c' := by
  refine h.categories.find? (fun a b hab => ?_) hc
  rw [hab.name]

/-! ## Encoding with the newer schema -/

theorem Grows.encodeEnum (h : s.Grows s') {name variant : String} {index : UInt8}
    (hindex : s.encodeEnum name variant = .ok index) :
    s'.encodeEnum name variant = .ok index := by
  unfold Schema.encodeEnum at hindex
  cases he : s.enumNamed? name with
  | none => rw [he] at hindex; cases hindex
  | some e =>
    rw [he] at hindex
    cases hfound : e.indexOf? variant with
    | none => simp only [hfound] at hindex; cases hindex
    | some found =>
      simp only [hfound] at hindex
      cases hindex
      obtain ⟨e', he', hgrows⟩ := h.enumNamed? he
      have hfound' : e'.indexOf? variant = some index :=
        bytePosition?_of_grown hgrows.variants hfound
      simp only [Schema.encodeEnum, he', hfound']

theorem Grows.valueBytes (h : s.Grows s') {type : FieldType} {v : Value} {bytes : List UInt8}
    (hbytes : s.valueBytes type v = .ok bytes) : s'.valueBytes type v = .ok bytes := by
  induction type generalizing v bytes with
  | primitive kind => exact hbytes
  | enumRef name =>
    obtain ⟨variant, index, rfl, hindex, rfl⟩ := valueBytes_enumRef_ok_iff.mp hbytes
    exact valueBytes_enumRef_ok_iff.mpr ⟨variant, index, rfl, h.encodeEnum hindex, rfl⟩
  | optional inner ih =>
    rcases valueBytes_optional_ok_iff.mp hbytes with ⟨rfl, rfl⟩ | ⟨w, body, rfl, hplain, hbody, rfl⟩
    · rfl
    · exact valueBytes_optional_ok_iff.mpr (.inr ⟨w, body, rfl, hplain, ih hbody, rfl⟩)

theorem Grows.fieldsBytes (h : s.Grows s') {fields : List Field} {values : List Value}
    {bytes : List UInt8} (hbytes : s.fieldsBytes fields values = .ok bytes) :
    s'.fieldsBytes fields values = .ok bytes := by
  induction fields generalizing values bytes with
  | nil => exact hbytes
  | cons field fields ih =>
    cases values with
    | nil => exact hbytes
    | cons v values =>
      obtain ⟨first, more, hfirst, hmore, rfl⟩ := fieldsBytes_cons_ok_iff.mp hbytes
      exact fieldsBytes_cons_ok_iff.mpr ⟨first, more, h.valueBytes hfirst, ih hmore, rfl⟩

/-- What can be encoded is encoded in the same way. -/
theorem Grows.encodeMessage (h : s.Grows s') {category : String} {m : MessageValue}
    {bytes : List UInt8} (hbytes : s.encodeMessage category m = .ok bytes) :
    s'.encodeMessage category m = .ok bytes := by
  obtain ⟨c, tag, declared, body, hc, htag, hm, hlen, hfit, hbody, rfl⟩ :=
    encodeMessage_ok_iff.mp hbytes
  obtain ⟨c', hc', hgrows⟩ := h.categoryNamed? (findCategory_ok_iff.mp hc)
  have htag' : c'.tagOf? m.name = some tag := by
    rw [Category.tagOf?_eq] at htag ⊢
    exact bytePosition?_of_grown hgrows.messages htag
  have hm' : findMessage c' tag = .ok declared :=
    findMessage_ok_iff.mpr (getElem?_of_grown hgrows.messages (findMessage_ok_iff.mp hm))
  exact encodeMessage_ok_iff.mpr ⟨c', tag, declared, body, findCategory_ok_iff.mpr hc', htag',
    hm', hlen, hfit, h.fieldsBytes hbody, rfl⟩

end Schema

/-! ## Decoding with the older schema -/

/-- The reasons for which an older schema refuses what a newer one takes:
    a number or an enumeration that it does not know. -/
def Outdated : CodecError → Prop
  | .unknownTag _ _ => True
  | .enumOutOfRange _ _ _ => True
  | .unknownEnum _ => True
  | _ => False

/-- A reader that does what another one does, or fails because it is
    outdated. -/
def Behind (x y : EStateM CodecError σ α) : Prop :=
  ∀ start, x start = y start ∨ ∃ e stop, x start = .error e stop ∧ Outdated e

theorem Behind.refl (x : EStateM CodecError σ α) : Behind x x := fun _ => .inl rfl

theorem behind_throw {e : CodecError} (h : Outdated e) (y : EStateM CodecError σ α) :
    Behind (throw e) y := fun start => .inr ⟨e, start, rfl, h⟩

/-- **Sequencing**: a reader that is behind, and then one that is behind. -/
theorem behind_bind {x y : EStateM CodecError σ α} {f g : α → EStateM CodecError σ β}
    (h : Behind x y) (hfg : ∀ a, Behind (f a) (g a)) : Behind (x >>= f) (y >>= g) := by
  intro start
  rcases h start with hsame | ⟨e, stop, hfail, he⟩
  · cases hy : y start with
    | ok a between =>
      rw [run_bind_of_ok (hsame.trans hy), run_bind_of_ok hy]
      exact hfg a between
    | error e stop =>
      rw [run_bind_of_error (hsame.trans hy), run_bind_of_error hy]
      exact .inl rfl
  · exact .inr ⟨e, stop, run_bind_of_error hfail, he⟩

namespace Schema

variable {s s' : Schema}

theorem Grows.decodeEnum (h : s.Grows s') (name : String) (byte : UInt8) :
    s.decodeEnum name byte = s'.decodeEnum name byte ∨
      ∃ e, s.decodeEnum name byte = .error e ∧ Outdated e := by
  cases he : s.enumNamed? name with
  | none => exact .inr ⟨.unknownEnum name, by simp only [Schema.decodeEnum, he], trivial⟩
  | some e =>
    obtain ⟨e', he', hgrows⟩ := h.enumNamed? he
    cases hvariant : e.variant? byte with
    | none =>
      exact .inr ⟨.enumOutOfRange e.name byte e.size,
        by simp only [Schema.decodeEnum, he, hvariant], trivial⟩
    | some variant =>
      have hvariant' : e'.variant? byte = some variant :=
        getElem?_of_grown hgrows.variants hvariant
      simp only [Schema.decodeEnum, he, he', hvariant, hvariant', true_or]

theorem Grows.decodeValue (h : s.Grows s') (buf : List UInt8) (type : FieldType) :
    Behind (s.decodeValue buf type) (s'.decodeValue buf type) := by
  induction type with
  | primitive kind => exact Behind.refl _
  | enumRef name =>
    unfold Schema.decodeValue
    refine behind_bind (Behind.refl _) fun byte => ?_
    rcases h.decodeEnum name byte with hsame | ⟨e, hfail, he⟩
    · rw [hsame]
      exact Behind.refl _
    · rw [hfail]
      exact behind_throw he _
  | optional inner ih =>
    unfold Schema.decodeValue
    refine behind_bind (Behind.refl _) fun presence => ?_
    by_cases hzero : presence = 0
    · rw [if_pos hzero, if_pos hzero]
      exact Behind.refl _
    · rw [if_neg hzero, if_neg hzero]
      by_cases hnested : inner.isOptional = true
      · rw [if_pos hnested, if_pos hnested]
        exact Behind.refl _
      · rw [if_neg hnested, if_neg hnested]
        exact behind_bind ih fun v => Behind.refl _

theorem Grows.decodeFields (h : s.Grows s') (buf : List UInt8) (fields : List Field) :
    Behind (s.decodeFields buf fields) (s'.decodeFields buf fields) := by
  induction fields with
  | nil => exact Behind.refl _
  | cons field fields ih =>
    unfold Schema.decodeFields
    refine behind_bind (h.decodeValue buf field.type) fun v => ?_
    exact behind_bind ih fun values => Behind.refl _

/-- In a category that both schemas have, the older decoder is behind the
    newer one. -/
theorem Grows.decodeMessage (h : s.Grows s') {category : String} {c : Category}
    (hc : s.categoryNamed? category = some c) (buf : List UInt8) :
    Behind (s.decodeMessage category buf) (s'.decodeMessage category buf) := by
  obtain ⟨c', hc', hgrows⟩ := h.categoryNamed? hc
  unfold Schema.decodeMessage
  rw [findCategory_ok_iff.mpr hc, findCategory_ok_iff.mpr hc']
  refine behind_bind (Behind.refl _) fun tag => ?_
  cases hm : c.messageByTag? tag with
  | none =>
    have hfail : findMessage c tag = .error (.unknownTag c.name tag) := by
      simp only [findMessage, hm]
    have houtdated : Outdated (.unknownTag c.name tag) := trivial
    rw [hfail]
    exact behind_throw houtdated _
  | some declared =>
    have hm' : findMessage c' tag = .ok declared :=
      findMessage_ok_iff.mpr (getElem?_of_grown hgrows.messages hm)
    rw [findMessage_ok_iff.mpr hm, hm']
    exact behind_bind (h.decodeFields buf declared.fields) fun values => Behind.refl _

/-- **Evolution**: let the schema grow, and take any category that it had
    before. What the older schema encodes, the newer one encodes to the same
    bytes. What the older schema decodes, from any position of any buffer,
    the newer one decodes to the same message, up to the same position.
    And what the newer schema encodes, the older one decodes to the same
    message wherever it stands, or refuses because it is outdated. -/
theorem append_only_evolution (h : s.Grows s') {c : Category} (hc : c ∈ s.categories) :
    (∀ m b, s.encodeMessage c.name m = .ok b → s'.encodeMessage c.name m = .ok b) ∧
    (∀ buf start m stop, s.decodeMessage c.name buf start = .ok m stop →
      s'.decodeMessage c.name buf start = .ok m stop) ∧
    (∀ m b, s'.encodeMessage c.name m = .ok b → ∀ before after,
      s.decodeMessage c.name (before ++ b ++ after) before.length =
          .ok m (before.length + b.length) ∨
        ∃ e stop, s.decodeMessage c.name (before ++ b ++ after) before.length =
          .error e stop ∧ Outdated e) := by
  obtain ⟨first, hfirst⟩ : ∃ first, s.categoryNamed? c.name = some first :=
    Option.isSome_iff_exists.mp (List.find?_isSome.mpr ⟨c, hc, beq_self_eq_true _⟩)
  refine ⟨fun m b hb => h.encodeMessage hb, fun buf start m stop hread => ?_,
    fun m b hb before after => ?_⟩
  · rcases h.decodeMessage hfirst buf start with hsame | ⟨e, stop, hfail, _⟩
    · rw [← hsame]
      exact hread
    · rw [hfail] at hread
      cases hread
  · -- The newer schema reads its own bytes back, and the older one is behind.
    have hback := (s'.readAlike_message c.name (before ++ b ++ after)
      before.length).of_readsBack (readsBack_message hb)
    rcases h.decodeMessage hfirst (before ++ b ++ after) before.length with hsame | hfail
    · exact .inl (hsame.trans hback)
    · exact .inr hfail

/-- A new variant is refused by a peer that does not know it. -/
theorem append_only_evolution_turn :
    let older : Schema :=
      { enums := [⟨"Side", ["Left"]⟩]
        categories := [⟨"Game", [⟨"Stop", []⟩, ⟨"Turn", [⟨"side", .enumRef "Side"⟩]⟩]⟩] }
    let newer : Schema :=
      { enums := [⟨"Side", ["Left", "Right"]⟩, ⟨"Speed", ["Slow"]⟩]
        categories := [⟨"Game", [⟨"Stop", []⟩, ⟨"Turn", [⟨"side", .enumRef "Side"⟩]⟩,
          ⟨"Run", [⟨"speed", .enumRef "Speed"⟩]⟩]⟩, ⟨"Chat", []⟩] }
    let m : MessageValue := ⟨"Turn", [.enum "Right"]⟩
    older.Grows newer ∧ newer.encodeMessage "Game" m = .ok [1, 1] ∧
      (older.decodeMessage "Game" [1, 1] 0 = .ok m 2 ∨
        ∃ e stop, older.decodeMessage "Game" [1, 1] 0 = .error e stop ∧ Outdated e) := by
  intro older newer m
  have hgrows : older.Grows newer :=
    { enums := ⟨[_], [⟨"Speed", ["Slow"]⟩], rfl, .cons ⟨rfl, ["Right"], rfl⟩ .nil⟩
      categories := ⟨[_], [⟨"Chat", []⟩], rfl,
        .cons ⟨rfl, [⟨"Run", [⟨"speed", .enumRef "Speed"⟩]⟩], rfl⟩ .nil⟩ }
  have hb : newer.encodeMessage "Game" m = .ok [1, 1] := rfl
  exact ⟨hgrows, hb,
    (append_only_evolution hgrows (List.mem_singleton_self _)).2.2 m [1, 1] hb [] []⟩

end Schema

end TaggedWire
