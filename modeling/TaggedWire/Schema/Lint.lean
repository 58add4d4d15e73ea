import TaggedWire.Schema.Basic

/-! # Advisory checks on a schema

    A schema with repeated names, empty or over-long lists, doubled
    optionals or dangling references is not rejected, but it will not make
    a useful protocol. `Schema.lint` lists what is wrong, in a fixed order:

      * repeated names of enumerations, then of categories;
      * for each enumeration: no variants, too many, repeated variants;
      * for each category: no messages, too many, repeated messages, and
        then the fields of each message.

    A name that occurs `n` times gives `n - 1` warnings.
-/

namespace TaggedWire

/-! ## Warnings -/

/-- The kinds of names that have to be distinct. -/
inductive NameKind where
  | enum
  | category
  | variant
  | message
  | field
  deriving DecidableEq, Repr

/-- The word for a kind of name in a warning. -/
def NameKind.describe : NameKind → String
  | .enum => "enum"
  | .category => "category"
  | .variant => "variant"
  | .message => "message"
  | .field => "field"

/-- Something in a schema that will not work on the wire. -/
inductive Warning where
  /-- A name is used again after its first use. -/
  | duplicateName (kind : NameKind) (name : String)
  /-- A category without messages. -/
  | emptyCategory (name : String)
  /-- An enumeration without variants. -/
  | emptyEnum (name : String)
  /-- More entries than a byte can number. -/
  | tagOverflow (name : String) (count : Nat)
  /-- An optional directly inside an optional. -/
  | nestedOptional (message field : String)
  /-- A field called like a parameter of the generated routines. -/
  | reservedFieldName (message field : String)
  /-- A reference to an enumeration that is not declared. -/
  | unknownEnum (message field target : String)
  deriving DecidableEq, Repr

/-- The text of a warning. -/
def Warning.message : Warning → String
  | .duplicateName kind name => s!"duplicate {kind.describe} name `{name}`"
  | .emptyCategory name => s!"category `{name}` has no messages"
  | .emptyEnum name => s!"enum `{name}` has no variants"
  | .tagOverflow name count =>
      s!"`{name}` declares {count} entries, more than fit in one byte"
  | .nestedOptional message field =>
      s!"field `{message}.{field}` nests an optional inside an optional"
  | .reservedFieldName message field =>
      s!"field `{message}.{field}` shadows a generated codec parameter"
  | .unknownEnum message field target =>
      s!"field `{message}.{field}` references undeclared enum `{target}`"

/-! ## The checks -/

/-- Field names that the generated routines use for themselves. -/
def reservedFieldNames : List String := ["out", "buf", "index"]

/-- The elements of a list that already occurred in `seen` or earlier in the
    list, in order. -/
def repeatsAfter (seen : List String) : List String → List String
  | [] => []
  | name :: rest =>
      if name ∈ seen then name :: repeatsAfter seen rest
      else repeatsAfter (name :: seen) rest

/-- Every use of a name after its first. -/
def repeats (names : List String) : List String := repeatsAfter [] names

/-- One warning for each repeated use of a name. -/
def duplicateWarnings (kind : NameKind) (names : List String) : List Warning :=
  (repeats names).map (.duplicateName kind)

/-- The warning about a list that is longer than a byte can number. -/
def overflowWarnings (name : String) (count : Nat) : List Warning :=
  if count > maxTags then [.tagOverflow name count] else []

/-- Warnings about one field type: one for each optional that directly
    contains another, and one for a reference to nothing. -/
def typeWarnings (s : Schema) (message field : String) : FieldType → List Warning
  | .primitive _ => []
  | .optional inner =>
      (if inner.isOptional then [.nestedOptional message field] else []) ++
        typeWarnings s message field inner
  | .enumRef target =>
      if (s.enumNamed? target).isNone then [.unknownEnum message field target] else []

/-- Warnings about one field. -/
def fieldWarnings (s : Schema) (message : String) (field : Field) : List Warning :=
  (if field.name ∈ reservedFieldNames then [.reservedFieldName message field.name] else []) ++
    typeWarnings s message field.name field.type

/-- Warnings about one message. -/
def messageWarnings (s : Schema) (message : Message) : List Warning :=
  duplicateWarnings .field (message.fields.map (·.name)) ++
    message.fields.flatMap (fieldWarnings s message.name)

/-- Warnings about one enumeration. -/
def enumWarnings (e : Enumeration) : List Warning :=
  (if e.variants.isEmpty then [.emptyEnum e.name] else []) ++
    overflowWarnings e.name e.variants.length ++
    duplicateWarnings .variant e.variants

/-- Warnings about one category. -/
def categoryWarnings (s : Schema) (c : Category) : List Warning :=
  (if c.messages.isEmpty then [.emptyCategory c.name] else []) ++
    overflowWarnings c.name c.messages.length ++
    duplicateWarnings .message (c.messages.map (·.name)) ++
    c.messages.flatMap (messageWarnings s)

/-- Everything that is wrong with a schema. -/
def Schema.lint (s : Schema) : List Warning :=
  duplicateWarnings .enum (s.enums.map (·.name)) ++
    duplicateWarnings .category (s.categories.map (·.name)) ++
    s.enums.flatMap enumWarnings ++
    s.categories.flatMap (categoryWarnings s)

/-! ## Small facts about repeats -/

@[simp] theorem repeatsAfter_nil (seen : List String) : repeatsAfter seen [] = [] := rfl

theorem repeatsAfter_cons_of_mem {seen : List String} {name : String}
    (h : name ∈ seen) (rest : List String) :
    repeatsAfter seen (name :: rest) = name :: repeatsAfter seen rest := by
  simp [repeatsAfter, h]

theorem repeatsAfter_cons_of_not_mem {seen : List String} {name : String}
    (h : name ∉ seen) (rest : List String) :
    repeatsAfter seen (name :: rest) = repeatsAfter (name :: seen) rest := by
  simp [repeatsAfter, h]

end TaggedWire
