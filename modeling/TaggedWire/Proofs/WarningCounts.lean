import Mathlib.Data.List.Count
import Mathlib.Data.List.Dedup
import TaggedWire.Proofs.CleanSchemas

/-! # How many warnings

    `CleanSchemas` says when the checks find nothing. Here is how much they
    find. The warnings about repeated names are those of the lists of names
    in a schema, list after list (`filter_lint_isDuplicate`), and a list
    gives one for each name beyond the first of its kind: what is repeated
    and one copy of each name are the list again (`repeats_append_dedup`).
    The warnings about nested optionals are those of the fields, field after
    field, one for each optional layer but the innermost
    (`filter_lint_isNested`). -/

namespace TaggedWire

/-! ## Repeats in one list -/

/-- A name that was seen before is repeated each time; a name that was not
    is repeated each time but the first. -/
theorem count_repeatsAfter (seen names : List String) (name : String) :
    (repeatsAfter seen names).count name =
      if name ∈ seen then names.count name else names.count name - 1 := by
  -- What was seen grows along the list, so it is general in the induction.
  induction names generalizing seen with
  | nil => simp
  | cons first rest ih =>
    by_cases hfirst : first ∈ seen
    · rw [repeatsAfter_cons_of_mem hfirst, List.count_cons, List.count_cons, ih seen]
      by_cases hname : name ∈ seen
      · rw [if_pos hname, if_pos hname]
      · have hdiffer : (first == name) = false := by
          rw [beq_eq_false_iff_ne]
          intro hsame
          exact hname (hsame ▸ hfirst)
        rw [if_neg hname, if_neg hname, hdiffer]
        simp
    · rw [repeatsAfter_cons_of_not_mem hfirst, List.count_cons, ih (first :: seen)]
      by_cases hsame : first = name
      · -- This is the first use of the name, and from here on it counts as seen.
        rw [if_pos (List.mem_cons.mpr (.inl hsame.symm)), if_neg (hsame ▸ hfirst)]
        simp [hsame]
      · have hmem : name ∈ first :: seen ↔ name ∈ seen := by
          rw [List.mem_cons]
          exact or_iff_right (Ne.symm hsame)
        simp [hmem, hsame]

/-- A name that occurs `n` times is repeated `n - 1` times. -/
theorem count_repeats (names : List String) (name : String) :
    (repeats names).count name = names.count name - 1 := by
  rw [repeats, count_repeatsAfter, if_neg List.not_mem_nil]

/-- **What is repeated** and one copy of each name make up the list. -/
theorem repeats_append_dedup (names : List String) :
    (repeats names ++ names.dedup).Perm names := by
  rw [List.perm_iff_count]
  intro name
  rw [List.count_append, count_repeats, List.count_dedup]
  by_cases hname : name ∈ names
  · have hpos : 0 < names.count name := List.count_pos_iff.mpr hname
    rw [if_pos hname]
    omega
  · rw [if_neg hname, List.count_eq_zero_of_not_mem hname]

/-- A list gives as many warnings as it is longer than its distinct names. -/
theorem length_duplicateWarnings (kind : NameKind) (names : List String) :
    (duplicateWarnings kind names).length = names.length - names.dedup.length := by
  have hlength := (repeats_append_dedup names).length_eq
  rw [List.length_append] at hlength
  rw [duplicateWarnings, List.length_map]
  omega

/-! ## Kinds of warnings -/

/-- Whether a warning is about a repeated name of a kind. -/
def Warning.isDuplicate (kind : NameKind) : Warning → Bool
  | .duplicateName other _ => other == kind
  | _ => false

/-- Whether a warning is about an optional inside an optional. -/
def Warning.isNested : Warning → Bool
  | .nestedOptional .. => true
  | _ => false

/-- All messages of a schema. -/
def Schema.messages (s : Schema) : List Message := s.categories.flatMap (·.messages)

/-- The lists of names of one kind in a schema. Names of enumerations and of
    categories are one list each; every other list belongs to one
    declaration. -/
def Schema.nameLists (s : Schema) : NameKind → List (List String)
  | .enum => [s.enums.map (·.name)]
  | .category => [s.categories.map (·.name)]
  | .variant => s.enums.map (·.variants)
  | .message => s.categories.map fun c => c.messages.map (·.name)
  | .field => s.messages.map fun m => m.fields.map (·.name)

/-- How many optionals stand around the innermost type. -/
def FieldType.layers : FieldType → Nat
  | .primitive _ => 0
  | .optional inner => inner.layers + 1
  | .enumRef _ => 0

theorem FieldType.layers_eq_zero_iff (type : FieldType) :
    type.layers = 0 ↔ type.isOptional = false := by
  cases type with
  | primitive kind => simp [layers]
  | optional inner => simp [layers]
  | enumRef name => simp [layers]

/-- The warnings about nested optionals in a field: one for each layer but
    the innermost. -/
def nestingWarnings (message : String) (f : Field) : List Warning :=
  List.replicate (f.type.layers - 1) (.nestedOptional message f.name)

/-! ## Selected warnings

    Only repeated names and nested optionals can give several warnings in
    one check. Selecting among these two kinds leaves the checks of the
    lists and types, in the order of the schema. -/

/-- A selection among the warnings about repeated names and nested
    optionals. -/
structure Selects (p : Warning → Bool) : Prop where
  emptyCategory : ∀ name, p (.emptyCategory name) = false
  emptyEnum : ∀ name, p (.emptyEnum name) = false
  tagOverflow : ∀ name count, p (.tagOverflow name count) = false
  reservedFieldName : ∀ message field, p (.reservedFieldName message field) = false
  unknownEnum : ∀ message field target, p (.unknownEnum message field target) = false

theorem selects_isDuplicate (kind : NameKind) : Selects (Warning.isDuplicate kind) where
  emptyCategory _ := rfl
  emptyEnum _ := rfl
  tagOverflow _ _ := rfl
  reservedFieldName _ _ := rfl
  unknownEnum _ _ _ := rfl

theorem selects_isNested : Selects Warning.isNested where
  emptyCategory _ := rfl
  emptyEnum _ := rfl
  tagOverflow _ _ := rfl
  reservedFieldName _ _ := rfl
  unknownEnum _ _ _ := rfl

/-- A check that gives at most one warning, which is not selected. -/
theorem filter_check {p : Warning → Bool} {w : Warning} (h : p w = false) (condition : Prop)
    [Decidable condition] : (if condition then [w] else []).filter p = [] := by
  by_cases hcondition : condition
  · rw [if_pos hcondition, List.filter_cons, h]
    rfl
  · rw [if_neg hcondition]
    rfl

section

variable {p : Warning → Bool} (hp : Selects p) (s : Schema)
include hp

/-- **One type**: a warning for each optional layer that holds another. -/
theorem filter_typeWarnings (message field : String) (type : FieldType) :
    (typeWarnings s message field type).filter p =
      (List.replicate (type.layers - 1) (.nestedOptional message field)).filter p := by
  induction type with
  | primitive base => rfl
  | optional inner ih =>
    show List.filter p (_ ++ typeWarnings s message field inner) =
      (List.replicate inner.layers _).filter p
    rw [List.filter_append, ih, ← List.filter_append]
    cases hinner : inner.isOptional with
    | false =>
      -- The layer is the innermost one, and nothing is below it.
      have hnone : inner.layers = 0 := inner.layers_eq_zero_iff.mpr hinner
      rw [hnone]
      rfl
    | true =>
      have hsome : inner.layers ≠ 0 := by
        intro hzero
        rw [inner.layers_eq_zero_iff.mp hzero] at hinner
        cases hinner
      have hsucc : inner.layers = inner.layers - 1 + 1 := by omega
      rw [hsucc, List.replicate_succ, Nat.add_sub_cancel]
      rfl
  | enumRef name => exact filter_check (hp.unknownEnum message field name) _

theorem filter_fieldWarnings (message : String) (f : Field) :
    (fieldWarnings s message f).filter p = (nestingWarnings message f).filter p := by
  rw [fieldWarnings, List.filter_append, filter_check (hp.reservedFieldName message f.name),
    filter_typeWarnings hp]
  rfl

theorem filter_messageWarnings (m : Message) :
    (messageWarnings s m).filter p =
      (duplicateWarnings .field (m.fields.map (·.name))).filter p ++
        m.fields.flatMap fun f => (nestingWarnings m.name f).filter p := by
  rw [messageWarnings, List.filter_append, List.filter_flatMap]
  simp only [filter_fieldWarnings hp]

theorem filter_overflowWarnings (name : String) (count : Nat) :
    (overflowWarnings name count).filter p = [] :=
  filter_check (hp.tagOverflow name count) _

theorem filter_enumWarnings (e : Enumeration) :
    (enumWarnings e).filter p = (duplicateWarnings .variant e.variants).filter p := by
  rw [enumWarnings, List.filter_append, List.filter_append, filter_check (hp.emptyEnum e.name),
    filter_overflowWarnings hp]
  rfl

theorem filter_categoryWarnings (c : Category) :
    (categoryWarnings s c).filter p =
      (duplicateWarnings .message (c.messages.map (·.name))).filter p ++
        c.messages.flatMap fun m => (messageWarnings s m).filter p := by
  rw [categoryWarnings, List.filter_append, List.filter_append, List.filter_append,
    filter_check (hp.emptyCategory c.name), filter_overflowWarnings hp, List.filter_flatMap]
  rfl

theorem filter_lint :
    s.lint.filter p =
      (duplicateWarnings .enum (s.enums.map (·.name))).filter p ++
        (duplicateWarnings .category (s.categories.map (·.name))).filter p ++
        (s.enums.flatMap fun e => (duplicateWarnings .variant e.variants).filter p) ++
        s.categories.flatMap fun c =>
          (duplicateWarnings .message (c.messages.map (·.name))).filter p ++
            c.messages.flatMap fun m => (messageWarnings s m).filter p := by
  rw [Schema.lint, List.filter_append, List.filter_append, List.filter_append,
    List.filter_flatMap, List.filter_flatMap]
  simp only [filter_enumWarnings hp, filter_categoryWarnings hp]

end

/-! ## The two kinds -/

/-- The warnings of a list of names are those of its own kind. -/
theorem filter_isDuplicate_duplicateWarnings (kind other : NameKind) (names : List String) :
    (duplicateWarnings other names).filter (Warning.isDuplicate kind) =
      if other = kind then duplicateWarnings other names else [] := by
  unfold duplicateWarnings
  by_cases hkind : other = kind
  · rw [if_pos hkind, List.filter_eq_self]
    intro w hw
    obtain ⟨name, _, rfl⟩ := List.mem_map.mp hw
    exact beq_iff_eq.mpr hkind
  · rw [if_neg hkind, List.filter_eq_nil_iff]
    intro w hw
    obtain ⟨name, _, rfl⟩ := List.mem_map.mp hw
    simpa [Warning.isDuplicate] using hkind

theorem filter_isDuplicate_nestingWarnings (kind : NameKind) (message : String) (f : Field) :
    (nestingWarnings message f).filter (Warning.isDuplicate kind) = [] := by
  rw [nestingWarnings, List.filter_eq_nil_iff]
  intro w hw
  rw [List.eq_of_mem_replicate hw]
  exact Bool.false_ne_true

theorem filter_isNested_duplicateWarnings (kind : NameKind) (names : List String) :
    (duplicateWarnings kind names).filter Warning.isNested = [] := by
  rw [duplicateWarnings, List.filter_eq_nil_iff]
  intro w hw
  obtain ⟨name, _, rfl⟩ := List.mem_map.mp hw
  exact Bool.false_ne_true

theorem filter_isNested_nestingWarnings (message : String) (f : Field) :
    (nestingWarnings message f).filter Warning.isNested = nestingWarnings message f := by
  rw [nestingWarnings, List.filter_eq_self]
  intro w hw
  rw [List.eq_of_mem_replicate hw]
  rfl

theorem flatMap_none {α : Type} (entries : List α) :
    entries.flatMap (fun _ => ([] : List Warning)) = [] :=
  List.flatMap_eq_nil_iff.mpr fun _ _ => rfl

/-- **Repeated names**: the warnings of a kind are those of the lists of
    names of that kind, in order. -/
theorem filter_lint_isDuplicate (s : Schema) (kind : NameKind) :
    s.lint.filter (Warning.isDuplicate kind) =
      (s.nameLists kind).flatMap (duplicateWarnings kind) := by
  rw [filter_lint (selects_isDuplicate kind)]
  simp only [filter_messageWarnings (selects_isDuplicate kind),
    filter_isDuplicate_duplicateWarnings, filter_isDuplicate_nestingWarnings, flatMap_none]
  -- Each kind leaves the checks of one kind of lists.
  cases kind with
  | enum => simp [Schema.nameLists, flatMap_none]
  | category => simp [Schema.nameLists, flatMap_none]
  | variant => simp [Schema.nameLists, flatMap_none, List.flatMap_map]
  | message => simp [Schema.nameLists, flatMap_none, List.flatMap_map]
  | field =>
    simp [Schema.nameLists, flatMap_none, Schema.messages, List.flatMap_map, List.flatMap_assoc]

/-- **Nested optionals**: the warnings about them are those of the fields, in
    order. -/
theorem filter_lint_isNested (s : Schema) :
    s.lint.filter Warning.isNested =
      s.messages.flatMap fun m => m.fields.flatMap (nestingWarnings m.name) := by
  rw [filter_lint selects_isNested]
  simp only [filter_messageWarnings selects_isNested, filter_isNested_duplicateWarnings,
    filter_isNested_nestingWarnings, flatMap_none, List.nil_append]
  rw [Schema.messages, List.flatMap_assoc]

/-! ## Lint -/

/-- **Lint is exact.** There is nothing to warn about exactly if the schema
    is clean. The warnings about repeated names of a kind are those of the
    lists of names of that kind, one list after the other, and a list gives
    one for each use of a name after its first, hence as many as it has
    names beyond the distinct ones. The warnings about nested optionals are
    those of the fields, one for each optional layer of the type but one. -/
theorem lint_exact (s : Schema) :
    (s.lint = [] ↔ s.Clean) ∧
    (∀ kind, s.lint.filter (Warning.isDuplicate kind) =
      (s.nameLists kind).flatMap (duplicateWarnings kind)) ∧
    (∀ kind names, (duplicateWarnings kind names).length =
      names.length - names.dedup.length) ∧
    (∀ kind names name, (duplicateWarnings kind names).count (.duplicateName kind name) =
      names.count name - 1) ∧
    s.lint.filter Warning.isNested =
      s.messages.flatMap fun m => m.fields.flatMap fun f =>
        List.replicate (f.type.layers - 1) (.nestedOptional m.name f.name) := by
  refine ⟨s.lint_eq_nil_iff, filter_lint_isDuplicate s, length_duplicateWarnings, ?_,
    filter_lint_isNested s⟩
  intro kind names name
  have hinj : Function.Injective (Warning.duplicateName kind) := by
    intro a b h
    injection h
  rw [duplicateWarnings, List.count_map_of_injective _ _ hinj, count_repeats]

/-- Names that are repeated twice, and an optional three layers deep. -/
example :
    (Schema.lint
      { enums := [⟨"E", ["A", "B", "A", "A"]⟩]
        categories := [{ name := "C", messages := [{
          name := "M", fields := [⟨"f", .optional (.optional (.optional (.enumRef "E")))⟩] }] }]
      }).map Warning.message =
    ["duplicate variant name `A`", "duplicate variant name `A`",
     "field `M.f` nests an optional inside an optional",
     "field `M.f` nests an optional inside an optional"] := by decide

end TaggedWire
