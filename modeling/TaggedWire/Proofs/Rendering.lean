import TaggedWire.Generator.Render

/-! # Rendering on a file tree

    What a rendering does, read off its steps: it fails if a list is too
    long to number, it reads the headers, and it extracts the tables. It
    only looks at the tree and leaves it as it is. -/

namespace TaggedWire

/-! ## Steps -/

namespace Step

variable {α β : Type}

/-- The outcome of a step on a file tree. -/
def on (step : Step (StateM FileTree) α) (t : FileTree) : Except GeneratorError α × FileTree :=
  step.run.run t

theorem on_pure (a : α) (t : FileTree) : on (pure a) t = (.ok a, t) := rfl

theorem on_bind_ok {step : Step (StateM FileTree) α} {next : α → Step (StateM FileTree) β}
    {a : α} {t u : FileTree} (h : on step t = (.ok a, u)) :
    on (step >>= next) t = on (next a) u := by
  show (match step.run.run t with
    | (result, tree) => (ExceptT.bindCont next result).run tree) = _
  rw [show step.run.run t = _ from h]
  rfl

theorem on_bind_error {step : Step (StateM FileTree) α} {next : α → Step (StateM FileTree) β}
    {e : GeneratorError} {t u : FileTree} (h : on step t = (.error e, u)) :
    on (step >>= next) t = (.error e, u) := by
  show (match step.run.run t with
    | (result, tree) => (ExceptT.bindCont next result).run tree) = _
  rw [show step.run.run t = _ from h]
  rfl

theorem on_file_ok {action : FileAction} {path : String}
    {run : StateM FileTree (Except FileError α)} {a : α} {t u : FileTree}
    (h : run.run t = (.ok a, u)) : on (Step.file action path run) t = (.ok a, u) := by
  unfold on Step.file
  rw [ExceptT.run_mk, StateT.run_bind, h]
  rfl

theorem on_file_error {action : FileAction} {path : String}
    {run : StateM FileTree (Except FileError α)} {cause : FileError} {t u : FileTree}
    (h : run.run t = (.error cause, u)) :
    on (Step.file action path run) t = (.error (.file action path cause), u) := by
  unfold on Step.file
  rw [ExceptT.run_mk, StateT.run_bind, h]
  rfl

end Step

/-! ## Lists that are too long -/

/-- The overflow of one list, if it has too many entries. -/
def overflow? (name : String) (count : Nat) : Option (String × Nat) :=
  if count > maxTags then some (name, count) else none

theorem overflow?_eq_none_iff {name : String} {count : Nat} :
    overflow? name count = none ↔ count ≤ maxTags := by
  simp [overflow?]

theorem overflow?_eq_some_iff {name : String} {count : Nat} {found : String × Nat} :
    overflow? name count = some found ↔ maxTags < count ∧ found = (name, count) := by
  simp [overflow?, eq_comm]

theorem firstOverflow?_append (a b : List Warning) :
    firstOverflow? (a ++ b) = (firstOverflow? a).or (firstOverflow? b) := by
  induction a with
  | nil => rfl
  | cons w a ih =>
    cases w with
    | tagOverflow name count => rfl
    | _ => exact ih

theorem firstOverflow?_flatMap {α : Type} (entries : List α) (warnings : α → List Warning) :
    firstOverflow? (entries.flatMap warnings) =
      entries.findSome? fun entry => firstOverflow? (warnings entry) := by
  induction entries with
  | nil => rfl
  | cons entry entries ih =>
    rw [List.flatMap_cons, firstOverflow?_append, List.findSome?_cons, ih]
    cases firstOverflow? (warnings entry) <;> rfl

theorem firstOverflow?_overflowWarnings (name : String) (count : Nat) :
    firstOverflow? (overflowWarnings name count) = overflow? name count := by
  unfold overflowWarnings overflow?
  split <;> rfl

/-! The other warnings do not matter. -/

theorem firstOverflow?_duplicateWarnings (kind : NameKind) (names : List String) :
    firstOverflow? (duplicateWarnings kind names) = none := by
  unfold duplicateWarnings
  induction repeats names with
  | nil => rfl
  | cons name rest ih => exact ih

theorem firstOverflow?_typeWarnings (s : Schema) (message field : String) (type : FieldType) :
    firstOverflow? (typeWarnings s message field type) = none := by
  induction type with
  | primitive kind => rfl
  | optional inner ih =>
    rw [typeWarnings, firstOverflow?_append, ih]
    split <;> rfl
  | enumRef name =>
    rw [typeWarnings]
    split <;> rfl

theorem firstOverflow?_messageWarnings (s : Schema) (m : Message) :
    firstOverflow? (messageWarnings s m) = none := by
  rw [messageWarnings, firstOverflow?_append, firstOverflow?_duplicateWarnings,
    firstOverflow?_flatMap, Option.none_or, List.findSome?_eq_none_iff]
  intro f _
  rw [fieldWarnings, firstOverflow?_append, firstOverflow?_typeWarnings]
  split <;> rfl

theorem firstOverflow?_enumWarnings (e : Enumeration) :
    firstOverflow? (enumWarnings e) = overflow? e.name e.variants.length := by
  rw [enumWarnings, firstOverflow?_append, firstOverflow?_append,
    firstOverflow?_overflowWarnings, firstOverflow?_duplicateWarnings, Option.or_none]
  split <;> rfl

theorem firstOverflow?_categoryWarnings (s : Schema) (c : Category) :
    firstOverflow? (categoryWarnings s c) = overflow? c.name c.messages.length := by
  have hmessages : c.messages.findSome? (fun m => firstOverflow? (messageWarnings s m)) = none :=
    List.findSome?_eq_none_iff.mpr fun m _ => firstOverflow?_messageWarnings s m
  rw [categoryWarnings, firstOverflow?_append, firstOverflow?_append, firstOverflow?_append,
    firstOverflow?_overflowWarnings, firstOverflow?_duplicateWarnings, firstOverflow?_flatMap,
    hmessages, Option.or_none, Option.or_none]
  split <;> rfl

/-- **The overflow of a schema** is that of its first enumeration with too
    many variants, or else of its first category with too many messages. -/
theorem firstOverflow?_lint (s : Schema) :
    firstOverflow? s.lint =
      (s.enums.findSome? fun e => overflow? e.name e.variants.length).or
        (s.categories.findSome? fun c => overflow? c.name c.messages.length) := by
  rw [Schema.lint, firstOverflow?_append, firstOverflow?_append, firstOverflow?_append,
    firstOverflow?_duplicateWarnings, firstOverflow?_duplicateWarnings, firstOverflow?_flatMap,
    firstOverflow?_flatMap]
  simp only [firstOverflow?_enumWarnings, firstOverflow?_categoryWarnings, Option.none_or]

/-- Every list of a schema is short enough to number. -/
structure Schema.Numbered (s : Schema) : Prop where
  enums : ∀ e ∈ s.enums, e.variants.length ≤ maxTags
  categories : ∀ c ∈ s.categories, c.messages.length ≤ maxTags

theorem firstOverflow?_eq_none_iff (s : Schema) : firstOverflow? s.lint = none ↔ s.Numbered := by
  -- One list after another has no overflow, so there is no first one.
  rw [firstOverflow?_lint, Option.or_eq_none_iff, List.findSome?_eq_none_iff,
    List.findSome?_eq_none_iff]
  simp only [overflow?_eq_none_iff]
  exact ⟨fun h => ⟨h.1, h.2⟩, fun h => ⟨h.enums, h.categories⟩⟩

theorem Schema.Numbered.firstOverflow? {s : Schema} (h : s.Numbered) :
    firstOverflow? s.lint = none :=
  (firstOverflow?_eq_none_iff s).mpr h

/-! ## Headers -/

/-- The text of a header on a file tree: none is an empty one. -/
def HeaderText (t : FileTree) : Option String → String → Prop
  | none, text => text = ""
  | some path, text => t.readText path = .ok text

theorem readHeader_on {t : FileTree} {header : Option String} {text : String}
    (h : HeaderText t header text) : Step.on (readHeader header) t = (.ok text, t) := by
  cases header with
  | none =>
    rw [HeaderText] at h
    rw [h]
    rfl
  | some path =>
    have hread : (MonadFiles.readText path : StateM FileTree _).run t = (t.readText path, t) := rfl
    rw [HeaderText] at h
    exact Step.on_file_ok (h ▸ hread)

/-! ## The whole rendering -/

/-- **A rendering succeeds** if no list is too long, both headers can be
    read, and every table can be extracted. -/
theorem Config.render_on (c : Config) {s : Schema} {t : FileTree}
    {rustHeader typescriptHeader : String} {tables : List MappingTable}
    (hlint : firstOverflow? s.lint = none)
    (hrust : HeaderText t c.rust.header rustHeader)
    (htypescript : HeaderText t c.typescript.header typescriptHeader)
    (htables : extractTables (splice rustHeader (Rust.emit c.rust.flavor s)) (c.mappingTargets s) =
      .ok tables) :
    Step.on (c.render s) t =
      (.ok {
        rust := splice rustHeader (Rust.emit c.rust.flavor s)
        typescript := splice typescriptHeader (TypeScript.emit s)
        mappings := banner ++ String.join (tables.map MappingTable.render)
        warnings := s.lint }, t) := by
  have hmappings : Step.on
      (mappingModule (splice rustHeader (Rust.emit c.rust.flavor s)) (c.mappingTargets s)) t =
        (.ok (banner ++ String.join (tables.map MappingTable.render)), t) := by
    unfold mappingModule renderMappings
    rw [htables]
    rfl
  unfold Config.render
  simp only [hlint]
  rw [Step.on_bind_ok (readHeader_on hrust), Step.on_bind_ok (readHeader_on htypescript),
    Step.on_bind_ok hmappings, Step.on_pure]

end TaggedWire
