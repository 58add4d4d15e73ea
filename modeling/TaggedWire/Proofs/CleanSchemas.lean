import TaggedWire.Schema.Lint

/-! # Clean schemas

    A schema is clean if nothing is wrong with it that a warning could be
    about. `Schema.Clean` says so without going through the checks: names
    of one kind differ, lists are neither empty nor too long to number, no
    optional stands directly inside another, and every reference leads
    somewhere. `Schema.lint_eq_nil_iff` says that the checks find nothing
    exactly then. -/

namespace TaggedWire

/-! ## What the checks are after -/

/-- No optional stands directly inside an optional. -/
def FieldType.Unnested : FieldType → Prop
  | .primitive _ => True
  | .optional inner => inner.isOptional = false ∧ inner.Unnested
  | .enumRef _ => True

/-- The enumeration that a field type refers to, if any, is declared. -/
def Schema.Resolves (s : Schema) : FieldType → Prop
  | .primitive _ => True
  | .optional inner => s.Resolves inner
  | .enumRef name => ∃ e ∈ s.enums, e.name = name

/-- A field with a name of its own and a type that works. -/
structure Field.Clean (s : Schema) (f : Field) : Prop where
  unreserved : f.name ∉ reservedFieldNames
  unnested : f.type.Unnested
  resolved : s.Resolves f.type

/-- A message with distinct clean fields. -/
structure Message.Clean (s : Schema) (m : Message) : Prop where
  nodup : (m.fields.map (·.name)).Nodup
  fields : ∀ f ∈ m.fields, f.Clean s

/-- An enumeration with distinct variants, each of which has a byte. -/
structure Enumeration.Clean (e : Enumeration) : Prop where
  nonempty : e.variants ≠ []
  numbered : e.variants.length ≤ maxTags
  nodup : e.variants.Nodup

/-- A category with distinct clean messages, each of which has a tag. -/
structure Category.Clean (s : Schema) (c : Category) : Prop where
  nonempty : c.messages ≠ []
  numbered : c.messages.length ≤ maxTags
  nodup : (c.messages.map (·.name)).Nodup
  messages : ∀ m ∈ c.messages, m.Clean s

/-- A schema with nothing to warn about. The names of enumerations differ
    among themselves, and so do those of categories; a category may still
    be called like an enumeration. -/
structure Schema.Clean (s : Schema) : Prop where
  enumNames : (s.enums.map (·.name)).Nodup
  categoryNames : (s.categories.map (·.name)).Nodup
  enums : ∀ e ∈ s.enums, e.Clean
  categories : ∀ c ∈ s.categories, c.Clean s

/-! ## Names and numbers -/

theorem repeatsAfter_eq_nil_iff (seen names : List String) :
    repeatsAfter seen names = [] ↔ names.Nodup ∧ ∀ name ∈ names, name ∉ seen := by
  -- What was seen grows by the name that is passed, so it is generalized.
  induction names generalizing seen with
  | nil => simp
  | cons name rest ih =>
    by_cases hseen : name ∈ seen
    · rw [repeatsAfter_cons_of_mem hseen]
      simp [hseen]
    · rw [repeatsAfter_cons_of_not_mem hseen, ih, List.nodup_cons]
      constructor
      · intro ⟨hnodup, hnew⟩
        have hfirst : name ∉ rest := fun h => hnew name h List.mem_cons_self
        have hrest : ∀ other ∈ rest, other ∉ seen :=
          fun other h hmem => hnew other h (List.mem_cons_of_mem _ hmem)
        exact ⟨⟨hfirst, hnodup⟩, List.forall_mem_cons.mpr ⟨hseen, hrest⟩⟩
      · intro ⟨⟨hfirst, hnodup⟩, hnew⟩
        refine ⟨hnodup, fun other hother hmem => ?_⟩
        rcases List.mem_cons.mp hmem with hsame | hmem
        · exact hfirst (hsame ▸ hother)
        · exact hnew other (List.mem_cons_of_mem _ hother) hmem

theorem duplicateWarnings_eq_nil_iff (kind : NameKind) (names : List String) :
    duplicateWarnings kind names = [] ↔ names.Nodup := by
  rw [duplicateWarnings, List.map_eq_nil_iff, repeats, repeatsAfter_eq_nil_iff]
  simp

theorem overflowWarnings_eq_nil_iff (name : String) (count : Nat) :
    overflowWarnings name count = [] ↔ count ≤ maxTags := by
  unfold overflowWarnings
  by_cases hmany : count > maxTags
  · simp [hmany]
  · simp [hmany, Nat.not_lt.mp hmany]

/-! ## Fields -/

section

variable (s : Schema)

theorem enumNamed?_isNone_iff (name : String) :
    (s.enumNamed? name).isNone = false ↔ ∃ e ∈ s.enums, e.name = name := by
  rw [Schema.enumNamed?, Option.isNone_eq_false_iff, List.find?_isSome]
  simp only [beq_iff_eq]

theorem typeWarnings_eq_nil_iff (message field : String) (type : FieldType) :
    typeWarnings s message field type = [] ↔ type.Unnested ∧ s.Resolves type := by
  induction type with
  | primitive kind => simp [typeWarnings, FieldType.Unnested, Schema.Resolves]
  | optional inner ih =>
    rw [typeWarnings, List.append_eq_nil_iff, ih, FieldType.Unnested, Schema.Resolves]
    cases hinner : inner.isOptional with
    | true => simp
    | false => simp
  | enumRef name =>
    rw [typeWarnings, FieldType.Unnested, Schema.Resolves, true_and, ← enumNamed?_isNone_iff]
    cases (s.enumNamed? name).isNone with
    | true => simp
    | false => simp

theorem fieldWarnings_eq_nil_iff (message : String) (f : Field) :
    fieldWarnings s message f = [] ↔ f.Clean s := by
  rw [fieldWarnings, List.append_eq_nil_iff, typeWarnings_eq_nil_iff]
  by_cases hreserved : f.name ∈ reservedFieldNames
  · rw [if_pos hreserved]
    constructor
    · intro ⟨h, _⟩
      cases h
    · intro h
      exact absurd hreserved h.unreserved
  · rw [if_neg hreserved]
    constructor
    · intro ⟨_, hunnested, hresolved⟩
      exact ⟨hreserved, hunnested, hresolved⟩
    · intro h
      exact ⟨rfl, h.unnested, h.resolved⟩

/-! ## Declarations -/

theorem messageWarnings_eq_nil_iff (m : Message) : messageWarnings s m = [] ↔ m.Clean s := by
  rw [messageWarnings, List.append_eq_nil_iff, duplicateWarnings_eq_nil_iff,
    List.flatMap_eq_nil_iff]
  simp only [fieldWarnings_eq_nil_iff]
  exact ⟨fun ⟨hnodup, hfields⟩ => ⟨hnodup, hfields⟩, fun h => ⟨h.nodup, h.fields⟩⟩

theorem enumWarnings_eq_nil_iff (e : Enumeration) : enumWarnings e = [] ↔ e.Clean := by
  have hempty : (if e.variants.isEmpty then [Warning.emptyEnum e.name] else []) = [] ↔
      e.variants ≠ [] := by
    cases e.variants <;> simp
  rw [enumWarnings, List.append_eq_nil_iff, List.append_eq_nil_iff, hempty,
    overflowWarnings_eq_nil_iff, duplicateWarnings_eq_nil_iff]
  exact ⟨fun ⟨⟨hnonempty, hnumbered⟩, hnodup⟩ => ⟨hnonempty, hnumbered, hnodup⟩,
    fun h => ⟨⟨h.nonempty, h.numbered⟩, h.nodup⟩⟩

theorem categoryWarnings_eq_nil_iff (c : Category) : categoryWarnings s c = [] ↔ c.Clean s := by
  have hempty : (if c.messages.isEmpty then [Warning.emptyCategory c.name] else []) = [] ↔
      c.messages ≠ [] := by
    cases c.messages <;> simp
  rw [categoryWarnings, List.append_eq_nil_iff, List.append_eq_nil_iff, List.append_eq_nil_iff,
    hempty, overflowWarnings_eq_nil_iff, duplicateWarnings_eq_nil_iff, List.flatMap_eq_nil_iff]
  simp only [messageWarnings_eq_nil_iff]
  exact ⟨fun ⟨⟨⟨hnonempty, hnumbered⟩, hnodup⟩, hmessages⟩ =>
      ⟨hnonempty, hnumbered, hnodup, hmessages⟩,
    fun h => ⟨⟨⟨h.nonempty, h.numbered⟩, h.nodup⟩, h.messages⟩⟩

/-- **The checks are exact**: they find nothing in a clean schema, and a
    schema in which they find nothing is clean. -/
theorem Schema.lint_eq_nil_iff : s.lint = [] ↔ s.Clean := by
  rw [Schema.lint, List.append_eq_nil_iff, List.append_eq_nil_iff, List.append_eq_nil_iff,
    duplicateWarnings_eq_nil_iff, duplicateWarnings_eq_nil_iff, List.flatMap_eq_nil_iff,
    List.flatMap_eq_nil_iff]
  simp only [enumWarnings_eq_nil_iff, categoryWarnings_eq_nil_iff]
  exact ⟨fun ⟨⟨⟨henumNames, hcategoryNames⟩, henums⟩, hcategories⟩ =>
      ⟨henumNames, hcategoryNames, henums, hcategories⟩,
    fun h => ⟨⟨⟨h.enumNames, h.categoryNames⟩, h.enums⟩, h.categories⟩⟩

end

/-! ## Looking up names that are used once -/

/-- Where no two entries share a key, looking for the key of an entry finds
    the entry. -/
theorem find?_of_nodup {α : Type} {key : α → String} {entries : List α}
    (hnodup : (entries.map key).Nodup) {entry : α} (h : entry ∈ entries) :
    entries.find? (fun other => key other == key entry) = some entry := by
  induction entries with
  | nil => cases h
  | cons first rest ih =>
    rw [List.map_cons, List.nodup_cons] at hnodup
    by_cases hkey : key first = key entry
    · -- The first match bears the key, and no later entry does.
      have hsame : entry = first := by
        rcases List.mem_cons.mp h with hfirst | hrest
        · exact hfirst
        · exact absurd (hkey ▸ List.mem_map_of_mem hrest) hnodup.1
      rw [hsame]
      simp
    · have hrest : entry ∈ rest := by
        rcases List.mem_cons.mp h with hfirst | hrest
        · exact absurd (congrArg key hfirst.symm) hkey
        · exact hrest
      have hskip : (key first == key entry) = false := by simpa using hkey
      rw [List.find?_cons, hskip]
      exact ih hnodup.2 hrest

namespace Schema.Clean

variable {s : Schema} (hclean : s.Clean)
include hclean

theorem enumNamed? {e : Enumeration} (he : e ∈ s.enums) : s.enumNamed? e.name = some e :=
  find?_of_nodup hclean.enumNames he

theorem categoryNamed? {c : Category} (hc : c ∈ s.categories) :
    s.categoryNamed? c.name = some c :=
  find?_of_nodup hclean.categoryNames hc

end Schema.Clean

end TaggedWire
