import TaggedWire.Proofs.CleanSchemas
import TaggedWire.Proofs.RenderObstacles
import TaggedWire.Proofs.ScanOrder

/-! # The tables of the categories

    Without settings of its own a generator makes one table for each
    category, anchored on the declaration of the category. Enumerations are
    declared in the same way and come first, so a category shares its anchor
    with an enumeration of the same name, and the table then lists the
    variants of that. No warning is about names across the two kinds: in a
    clean schema the tables are right exactly for the categories that have
    no such namesake. -/

namespace TaggedWire

/-! ## What is listed under a name -/

/-- The names in the first declaration of a type: the variants of the first
    enumeration of that name, or else the messages of the first category. -/
def Schema.listedUnder? (s : Schema) (name : String) : Option (List String) :=
  match s.enumNamed? name with
  | some e => some e.variants
  | none => (s.categoryNamed? name).map fun c => c.messages.map (·.name)

namespace Rust

theorem find?_declarations (flavor : Flavor) (s : Schema) (name : String) :
    ((declarations flavor s).find? (·.name == name)).map (·.listed) = s.listedUnder? name := by
  have henums : (s.enums.find? fun e => e.name == name) = s.enumNamed? name := rfl
  have hcategories : (s.categories.find? fun c => c.name == name) = s.categoryNamed? name := rfl
  rw [declarations, List.find?_append, List.find?_map, List.find?_map, Schema.listedUnder?]
  simp only [Function.comp_def, henums, hcategories]
  cases s.enumNamed? name with
  | some e => rfl
  | none =>
    rw [Option.map_none, Option.none_or, Option.map_map]
    rfl

/-- The extraction lists what is listed under a name. -/
theorem orderedNames_listedUnder {flavor : Flavor} {s : Schema} {header name : String}
    {listed : List String} (hwords : s.WordNames) (h : s.listedUnder? name = some listed)
    (hheader : ¬ (anchorOf name).toList <:+: header.toList) :
    orderedNames (splice header (emit flavor s)) (anchorOf name) = .ok listed := by
  rw [← find?_declarations flavor] at h
  obtain ⟨d, hfound, hlisted⟩ := Option.map_eq_some_iff.mp h
  obtain ⟨hname, before, after, hsplit, hnew⟩ := List.find?_eq_some_iff_append.mp hfound
  have hname : d.name = name := eq_of_beq hname
  subst hname
  rw [← hlisted]
  apply orderedNames_first hwords hsplit ?_ hheader
  intro other hother hsame
  have hdiffer := hnew other hother
  rw [hsame, beq_self_eq_true] at hdiffer
  cases hdiffer

end Rust

/-! ## Categories and their namesakes -/

/-- The table of a category. It has the messages in the order of their tags,
    unless an enumeration has the name of the category: then it has the
    variants of that. -/
structure Schema.CategoryTable (s : Schema) (c : Category) (table : MappingTable) : Prop where
  exportName : table.exportName = c.name
  messages : (∀ e ∈ s.enums, e.name ≠ c.name) →
    table.names = c.messages.map (·.name) ∧
      ∀ name, table.idOf? name = (c.tagOf? name).map UInt8.toNat
  namesake : ∀ e ∈ s.enums, e.name = c.name → table.names = e.variants

section

variable {s : Schema} (hclean : s.Clean) (hwords : s.WordNames)
include hclean

/-- What is listed under the name of a category makes its table. -/
theorem exists_categoryTable {c : Category} (hc : c ∈ s.categories) :
    ∃ listed, s.listedUnder? c.name = some listed ∧ s.CategoryTable c ⟨c.name, listed⟩ := by
  unfold Schema.listedUnder?
  cases hnamed : s.enumNamed? c.name with
  | some e =>
    have he : e ∈ s.enums := List.mem_of_find?_eq_some hnamed
    have hname : e.name = c.name := by simpa using List.find?_some hnamed
    refine ⟨e.variants, rfl, rfl, ?_, ?_⟩
    · intro hnone
      exact absurd hname (hnone e he)
    · -- The names of enumerations differ, so there is only one namesake.
      intro other hother hsame
      have hfound := hclean.enumNamed? hother
      rw [hsame, hnamed] at hfound
      cases hfound
      rfl
  | none =>
    refine ⟨c.messages.map (·.name), by rw [hclean.categoryNamed? hc]; rfl, rfl, ?_, ?_⟩
    · intro _
      exact ⟨rfl, c.idOf?_messages (hclean.categories c hc).numbered c.name⟩
    · intro e he hsame
      have hfound := hclean.enumNamed? he
      rw [hsame, hnamed] at hfound
      cases hfound

include hwords

/-- The tables of some categories, extracted from a codec without a
    header. -/
theorem extractTables_categories (flavor : Flavor) {categories : List Category}
    (hsub : ∀ c ∈ categories, c ∈ s.categories) :
    ∃ tables, List.Forall₂ s.CategoryTable categories tables ∧
      extractTables (splice "" (Rust.emit flavor s))
        (categories.map fun c => .forDeclaration c.name c.name) = .ok tables := by
  induction categories with
  | nil => exact ⟨[], .nil, rfl⟩
  | cons c categories ih =>
    obtain ⟨hc, hrest⟩ := List.forall_mem_cons.mp hsub
    obtain ⟨tables, htables, hextracts⟩ := ih hrest
    obtain ⟨listed, hlisted, htable⟩ := exists_categoryTable hclean hc
    have hheader : ¬ (Rust.anchorOf c.name).toList <:+: "".toList :=
      fun h => Rust.anchorOf_ne_nil c.name (List.infix_nil.mp h)
    have hnames : orderedNames (splice "" (Rust.emit flavor s)) (Rust.anchorOf c.name) =
        .ok listed := Rust.orderedNames_listedUnder hwords hlisted hheader
    have hextract : (MappingTarget.forDeclaration c.name c.name).extract
        (splice "" (Rust.emit flavor s)) = .ok ⟨c.name, listed⟩ :=
      MappingTarget.extract_of_orderedNames hnames
    refine ⟨⟨c.name, listed⟩ :: tables, .cons htable htables, ?_⟩
    rw [List.map_cons, extractTables, hextract, hextracts]
    rfl

end

theorem Schema.Clean.numbered {s : Schema} (hclean : s.Clean) : s.Numbered :=
  ⟨fun e he => (hclean.enums e he).numbered, fun c hc => (hclean.categories c hc).numbered⟩

/-! ## The generator -/

/-- **Tables of a schema without warnings.** Without headers and without
    targets of its own, a generator renders every schema that has no
    warnings and whose names are words, with one table for each category.
    The table has the messages of the category in the order of their tags,
    unless an enumeration has the name of the category: then it has the
    variants of that. -/
theorem category_tables_of_lint {s : Schema} (config : Config) (t : FileTree)
    (hlint : s.lint = []) (hwords : s.WordNames) (hrust : config.rust.header = none)
    (htypescript : config.typescript.header = none) (hmappings : config.mappings = []) :
    ∃ sources tables, Step.on (config.render s) t = (.ok sources, t) ∧
      extractTables sources.rust (config.mappingTargets s) = .ok tables ∧
      sources.mappings = banner ++ String.join (tables.map MappingTable.render) ∧
      List.Forall₂ s.CategoryTable s.categories tables := by
  have hclean : s.Clean := s.lint_eq_nil_iff.mp hlint
  have htargets : config.mappingTargets s =
      s.categories.map fun c => .forDeclaration c.name c.name := by
    simp [Config.mappingTargets, hmappings]
  obtain ⟨tables, htables, hextracts⟩ :=
    extractTables_categories hclean hwords config.rust.flavor (fun _ hc => hc)
  rw [← htargets] at hextracts
  have hheader : HeaderText t config.rust.header "" := by rw [hrust, HeaderText]
  have hheader' : HeaderText t config.typescript.header "" := by rw [htypescript, HeaderText]
  have hrender := config.render_on hclean.numbered.firstOverflow? hheader hheader' hextracts
  exact ⟨_, tables, hrender, hextracts, rfl, htables⟩

/-- A schema without warnings in which an enumeration and a category share
    their name. -/
def namesakeSchema : Schema where
  enums := [⟨"Lamp", ["Red", "Green"]⟩]
  categories :=
    [⟨"Door", [⟨"Shut", []⟩, ⟨"Open", [⟨"lamp", .enumRef "Lamp"⟩]⟩]⟩, ⟨"Lamp", [⟨"Off", []⟩]⟩]

theorem wordNames_namesakeSchema : namesakeSchema.WordNames := by
  refine ⟨List.forall_mem_singleton.mpr ⟨by decide, by decide⟩,
    List.forall_mem_cons.mpr ⟨⟨by decide, ?_⟩, List.forall_mem_singleton.mpr ⟨by decide, ?_⟩⟩⟩
  · exact List.forall_mem_cons.mpr ⟨⟨by decide, by decide⟩,
      List.forall_mem_singleton.mpr ⟨by decide, by decide⟩⟩
  · exact List.forall_mem_singleton.mpr ⟨by decide, by decide⟩

theorem category_tables_of_lint_namesake :
    namesakeSchema.lint = [] ∧ ∃ sources tables,
      Step.on (({} : Config).render namesakeSchema) {} = (.ok sources, {}) ∧
      extractTables sources.rust (({} : Config).mappingTargets namesakeSchema) = .ok tables ∧
      List.Forall₂ namesakeSchema.CategoryTable namesakeSchema.categories tables := by
  have hlint : namesakeSchema.lint = [] := by decide
  obtain ⟨sources, tables, hrender, hextract, -, htables⟩ :=
    category_tables_of_lint {} {} hlint wordNames_namesakeSchema rfl rfl rfl
  exact ⟨hlint, sources, tables, hrender, hextract, htables⟩

/-- **A schema without warnings may get a wrong table.** -/
theorem category_tables_may_differ :
    ¬ ∀ (s : Schema) (config : Config) (t : FileTree), s.lint = [] → s.WordNames →
      config.rust.header = none → config.typescript.header = none → config.mappings = [] →
      ∃ sources tables, Step.on (config.render s) t = (.ok sources, t) ∧
        extractTables sources.rust (config.mappingTargets s) = .ok tables ∧
        List.Forall₂ (fun c table => table.names = c.messages.map (·.name)) s.categories
          tables := by
  intro hright
  obtain ⟨sources, tables, hrender, hextract, htables⟩ := hright namesakeSchema {} {}
    (by decide) wordNames_namesakeSchema rfl rfl rfl
  obtain ⟨-, hrendered⟩ := render_ok_iff.mp hrender
  obtain ⟨rustHeader, _, _, hheader, _, _, hsources⟩ := hrendered.texts
  have hheader : rustHeader = "" := hheader
  rw [hsources, hheader] at hextract
  -- The second table is that of the enumeration.
  obtain ⟨found, hfound, hextracts⟩ := extractTables_categories
    (namesakeSchema.lint_eq_nil_iff.mp (by decide)) wordNames_namesakeSchema .async (fun _ hc => hc)
  have hsame : (.ok tables : Except ScanError (List MappingTable)) = .ok found :=
    hextract.symm.trans hextracts
  cases hsame
  cases hfound with
  | cons _ hfound =>
    cases hfound with
    | cons hlamp _ =>
      cases htables with
      | cons _ htables =>
        cases htables with
        | cons hnames _ =>
          have hvariants := hlamp.namesake _ List.mem_cons_self rfl
          rw [hnames] at hvariants
          exact absurd hvariants (by decide)

end TaggedWire
