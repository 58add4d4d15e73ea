import TaggedWire.Proofs.DeclarationText
import TaggedWire.Proofs.Rendering

/-! # The order of a table is the order of the tags

    A lookup table is read off the finished codec, not off the schema. The
    codec lists the entries of every declaration in the order of their
    tags, and the extraction keeps that order, so the number of a name in
    its table is the number that stands for it on the wire. -/

namespace TaggedWire

/-! ## Targets and their tables -/

/-- The names of the declared types, enumerations first. -/
def Schema.typeNames (s : Schema) : List String :=
  s.enums.map (·.name) ++ s.categories.map (·.name)

/-- A target for the table of a declared type. -/
def Schema.HasTarget (s : Schema) (target : MappingTarget) : Prop :=
  ∃ name ∈ s.typeNames, ∃ exportName, target = .forDeclaration name exportName

/-- The table of a target as the wire has it: the names of the declared type
    in order, each with its number on the wire. -/
def Schema.TableOf (s : Schema) (target : MappingTarget) (table : MappingTable) : Prop :=
  (∃ e ∈ s.enums, target = .forDeclaration e.name table.exportName ∧
    table.names = e.variants ∧
    ∀ name, table.idOf? name = (e.indexOf? name).map UInt8.toNat) ∨
  (∃ c ∈ s.categories, target = .forDeclaration c.name table.exportName ∧
    table.names = c.messages.map (·.name) ∧
    ∀ name, table.idOf? name = (c.tagOf? name).map UInt8.toNat)

/-- The same settings with another flavor. -/
def Config.withFlavor (c : Config) (flavor : Flavor) : Config :=
  { c with rust := { c.rust with flavor } }

/-- Configured or not, the targets are those of declared types. -/
theorem Config.hasTarget_of_mem {c : Config} {s : Schema} {target : MappingTarget}
    (htargets : ∀ target ∈ c.mappings, s.HasTarget target)
    (h : target ∈ c.mappingTargets s) : s.HasTarget target := by
  unfold Config.mappingTargets at h
  split at h
  · obtain ⟨category, hcategory, rfl⟩ := List.mem_map.mp h
    exact ⟨category.name, List.mem_append_right _ (List.mem_map_of_mem hcategory), _, rfl⟩
  · exact htargets target h

/-! ## Numbers in a table -/

theorem Enumeration.idOf?_variants {e : Enumeration} (h : e.variants.length ≤ maxTags)
    (exportName name : String) :
    MappingTable.idOf? ⟨exportName, e.variants⟩ name = (e.indexOf? name).map UInt8.toNat :=
  (bytePosition?_map_toNat h).symm

theorem Category.idOf?_messages {c : Category} (h : c.messages.length ≤ maxTags)
    (exportName name : String) :
    MappingTable.idOf? ⟨exportName, c.messages.map (·.name)⟩ name =
      (c.tagOf? name).map UInt8.toNat := by
  rw [c.tagOf?_eq, bytePosition?_map_toNat h, MappingTable.idOf?, List.findIdx?_map]
  rfl

/-! ## Extraction -/

theorem MappingTarget.extract_of_orderedNames {source : String} {target : MappingTarget}
    {names : List String} (h : orderedNames source target.anchor = .ok names) :
    target.extract source = .ok ⟨target.exportName, names⟩ := by
  unfold MappingTarget.extract
  rw [h]
  rfl

section

variable {s : Schema} {header : String}

/-- The table of one target, in both flavors. -/
theorem extract_target (hwords : s.WordNames) (hdistinct : s.typeNames.Nodup)
    (hnumbered : s.Numbered) {target : MappingTarget} (htarget : s.HasTarget target)
    (hheader : ¬ target.anchor.toList <:+: header.toList) :
    ∃ table, s.TableOf target table ∧
      ∀ flavor, target.extract (splice header (Rust.emit flavor s)) = .ok table := by
  obtain ⟨name, hname, exportName, rfl⟩ := htarget
  rw [Rust.anchor_forDeclaration] at hheader
  rcases List.mem_append.mp hname with hname | hname
  · obtain ⟨e, he, rfl⟩ := List.mem_map.mp hname
    refine ⟨⟨exportName, e.variants⟩, .inl ⟨e, he, rfl, rfl, ?_⟩, fun flavor => ?_⟩
    · exact e.idOf?_variants (hnumbered.enums e he) exportName
    · have hd : ⟨e.name, e.variants, Rust.enumLines flavor e⟩ ∈ Rust.declarations flavor s :=
        List.mem_append_left _ (List.mem_map_of_mem he)
      have hnames := Rust.orderedNames_splice hwords hdistinct hd hheader
      exact MappingTarget.extract_of_orderedNames hnames
  · obtain ⟨c, hc, rfl⟩ := List.mem_map.mp hname
    refine ⟨⟨exportName, c.messages.map (·.name)⟩, .inr ⟨c, hc, rfl, rfl, ?_⟩, fun flavor => ?_⟩
    · exact c.idOf?_messages (hnumbered.categories c hc) exportName
    · have hd : ⟨c.name, c.messages.map (·.name), Rust.categoryLines flavor c⟩ ∈
          Rust.declarations flavor s := List.mem_append_right _ (List.mem_map_of_mem hc)
      have hnames := Rust.orderedNames_splice hwords hdistinct hd hheader
      exact MappingTarget.extract_of_orderedNames hnames

/-- The tables of a list of targets, in both flavors. -/
theorem extractTables_targets (hwords : s.WordNames) (hdistinct : s.typeNames.Nodup)
    (hnumbered : s.Numbered) {targets : List MappingTarget}
    (htargets : ∀ target ∈ targets, s.HasTarget target)
    (hheader : ∀ target ∈ targets, ¬ target.anchor.toList <:+: header.toList) :
    ∃ tables, List.Forall₂ s.TableOf targets tables ∧
      ∀ flavor, extractTables (splice header (Rust.emit flavor s)) targets = .ok tables := by
  induction targets with
  | nil => exact ⟨[], .nil, fun _ => rfl⟩
  | cons target targets ih =>
    obtain ⟨htarget, htargets⟩ := List.forall_mem_cons.mp htargets
    obtain ⟨hfree, hheader⟩ := List.forall_mem_cons.mp hheader
    obtain ⟨table, htable, hextract⟩ := extract_target hwords hdistinct hnumbered htarget hfree
    obtain ⟨tables, htables, hextracts⟩ := ih htargets hheader
    refine ⟨table :: tables, .cons htable htables, fun flavor => ?_⟩
    rw [extractTables, hextract, hextracts]
    rfl

end

/-! ## The generator -/

/-- **Scan order is tag order.** Let all names of a schema be words, its
    types have distinct names and its lists be short enough to number, and
    let the Rust header hold none of the anchors. Then rendering succeeds,
    and the tables extracted from the finished codec have the names of the
    declared types in order, with the numbers of the wire, whatever the
    flavor. -/
theorem scan_order_eq_tag_order {s : Schema} {c : Config} {t : FileTree}
    {rustHeader typescriptHeader : String} (hwords : s.WordNames) (hdistinct : s.typeNames.Nodup)
    (hnumbered : s.Numbered) (hrust : HeaderText t c.rust.header rustHeader)
    (htypescript : HeaderText t c.typescript.header typescriptHeader)
    (htargets : ∀ target ∈ c.mappings, s.HasTarget target)
    (hheader : ∀ target ∈ c.mappingTargets s, ¬ target.anchor.toList <:+: rustHeader.toList) :
    ∃ tables, List.Forall₂ s.TableOf (c.mappingTargets s) tables ∧
      ∀ flavor, ∃ sources, Step.on ((c.withFlavor flavor).render s) t = (.ok sources, t) ∧
        sources.rust = splice rustHeader (Rust.emit flavor s) ∧
        extractTables sources.rust (c.mappingTargets s) = .ok tables := by
  obtain ⟨tables, htables, hextracts⟩ := extractTables_targets hwords hdistinct hnumbered
    (fun target => c.hasTarget_of_mem htargets) hheader
  refine ⟨tables, htables, fun flavor => ?_⟩
  have hrender := (c.withFlavor flavor).render_on hnumbered.firstOverflow? hrust
    htypescript (hextracts flavor)
  exact ⟨_, hrender, rfl, hextracts flavor⟩

/-- A schema with the words of an anchor among its names. -/
def lampSchema : Schema where
  enums := [⟨"Color", ["Red", "enum"]⟩]
  categories :=
    [{ name := "Lamp"
       messages :=
        [{ name := "Off" },
         { name := "pub", fields := [⟨"enum", .optional (.enumRef "Color")⟩] }] }]

/-- Settings with a header and two tables. -/
def lampConfig : Config where
  rust := { header := some "lamp.rs" }
  mappings := [.forDeclaration "Lamp" "LAMP", .forDeclaration "Color" "COLOR"]

/-- A tree with a header that declares a type of its own. -/
def lampTree : FileTree where
  entries := [(["lamp.rs"], .file "pub enum Lampshade \x7b Lamp \x7d".toUTF8)]

theorem scan_order_eq_tag_order_lamp :
    ∃ tables, List.Forall₂ lampSchema.TableOf (lampConfig.mappingTargets lampSchema) tables ∧
      ∀ flavor, ∃ sources,
        Step.on ((lampConfig.withFlavor flavor).render lampSchema) lampTree =
          (.ok sources, lampTree) ∧
        sources.rust =
          splice "pub enum Lampshade \x7b Lamp \x7d" (Rust.emit flavor lampSchema) ∧
        extractTables sources.rust (lampConfig.mappingTargets lampSchema) = .ok tables := by
  have hwords : lampSchema.WordNames := by
    refine ⟨List.forall_mem_singleton.mpr ⟨by decide, by decide⟩,
      List.forall_mem_singleton.mpr ⟨by decide, ?_⟩⟩
    exact List.forall_mem_cons.mpr ⟨⟨by decide, by decide⟩,
      List.forall_mem_singleton.mpr ⟨by decide, by decide⟩⟩
  have hnumbered : lampSchema.Numbered := ⟨by decide, by decide⟩
  have htargets : ∀ target ∈ lampConfig.mappings, lampSchema.HasTarget target :=
    List.forall_mem_cons.mpr ⟨⟨"Lamp", by decide, "LAMP", rfl⟩,
      List.forall_mem_singleton.mpr ⟨"Color", by decide, "COLOR", rfl⟩⟩
  have hheader : lampTree.readText "lamp.rs" = .ok "pub enum Lampshade \x7b Lamp \x7d" := by
    decide +kernel
  exact scan_order_eq_tag_order hwords (by decide) hnumbered hheader rfl htargets
    (by decide +kernel)

end TaggedWire
