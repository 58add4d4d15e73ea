import TaggedWire.Proofs.Rendering

/-! # Obstacles to rendering

    A rendering goes through its steps in a fixed order and stops at the
    first that fails. `Config.Obstacle` says what that is, cause by cause,
    and `Config.Rendered` what there is when nothing is in the way. Every
    rendering ends in one of the two, and the tree is left as it is. -/

namespace TaggedWire

/-! ## First failures -/

/-- The first entry that is too long, with its length. -/
theorem findSome?_overflow_iff {α : Type} {entries : List α} {name : α → String}
    {count : α → Nat} {found : String × Nat} :
    (entries.findSome? fun entry => overflow? (name entry) (count entry)) = some found ↔
      ∃ before entry after, entries = before ++ entry :: after ∧
        (∀ other ∈ before, count other ≤ maxTags) ∧ maxTags < count entry ∧
        found = (name entry, count entry) := by
  rw [List.findSome?_eq_some_iff]
  simp only [overflow?_eq_none_iff, overflow?_eq_some_iff]
  constructor
  · intro ⟨before, entry, after, hsplit, ⟨hmany, hfound⟩, hbefore⟩
    exact ⟨before, entry, after, hsplit, hbefore, hmany, hfound⟩
  · intro ⟨before, entry, after, hsplit, hbefore, hmany, hfound⟩
    exact ⟨before, entry, after, hsplit, ⟨hmany, hfound⟩, hbefore⟩

/-- The tables of a list of targets fail with the first target that does. -/
theorem extractTables_error_iff {source : String} {targets : List MappingTarget}
    {cause : ScanError} :
    extractTables source targets = .error cause ↔
      ∃ before target after, targets = before ++ target :: after ∧
        (∀ other ∈ before, ∃ table, other.extract source = .ok table) ∧
        target.extract source = .error cause := by
  induction targets with
  | nil => simp [extractTables, pure, Except.pure]
  | cons first rest ih =>
    rw [extractTables]
    cases hfirst : first.extract source with
    | error cause' =>
      constructor
      · intro h
        cases h
        exact ⟨[], first, rest, rfl, nofun, hfirst⟩
      · intro ⟨before, target, after, hsplit, hbefore, hcause⟩
        -- The first target fails, so nothing comes before the one that does.
        cases before with
        | nil =>
          cases hsplit
          rw [hfirst] at hcause
          cases hcause
          rfl
        | cons other before =>
          cases hsplit
          obtain ⟨table, htable⟩ := hbefore first List.mem_cons_self
          rw [hfirst] at htable
          cases htable
    | ok table =>
      have hskip : (Except.ok table >>= fun table => extractTables source rest >>=
          fun tables => pure (table :: tables)) = Except.error cause ↔
          extractTables source rest = .error cause := by
        cases extractTables source rest with
        | ok tables => simp [bind, Except.bind, pure, Except.pure]
        | error cause' => simp [bind, Except.bind]
      rw [hskip, ih]
      constructor
      · intro ⟨before, target, after, hsplit, hbefore, hcause⟩
        refine ⟨first :: before, target, after, by rw [hsplit]; rfl, ?_, hcause⟩
        exact List.forall_mem_cons.mpr ⟨⟨table, hfirst⟩, hbefore⟩
      · intro ⟨before, target, after, hsplit, hbefore, hcause⟩
        cases before with
        | nil =>
          cases hsplit
          rw [hfirst] at hcause
          cases hcause
        | cons other before =>
          cases hsplit
          exact ⟨before, target, after, rfl, fun o ho => hbefore o (List.mem_cons_of_mem _ ho),
            hcause⟩

/-! ## Obstacles -/

/-- What keeps a schema from being rendered. There are five kinds of
    obstacles, and each counts only if there is none of those before it. -/
inductive Config.Obstacle (c : Config) (s : Schema) (t : FileTree) : GeneratorError → Prop where
  /-- The first enumeration with too many variants. -/
  | enum {before after : List Enumeration} {e : Enumeration}
      (split : s.enums = before ++ e :: after)
      (first : ∀ other ∈ before, other.variants.length ≤ maxTags)
      (many : maxTags < e.variants.length) :
      Obstacle c s t (.tagOverflow e.name e.variants.length)
  /-- The first category with too many messages. -/
  | category {before after : List Category} {d : Category}
      (enums : ∀ e ∈ s.enums, e.variants.length ≤ maxTags)
      (split : s.categories = before ++ d :: after)
      (first : ∀ other ∈ before, other.messages.length ≤ maxTags)
      (many : maxTags < d.messages.length) :
      Obstacle c s t (.tagOverflow d.name d.messages.length)
  /-- A Rust header that cannot be read. -/
  | rustHeader {path : String} {cause : FileError} (numbered : s.Numbered)
      (header : c.rust.header = some path) (unread : t.readText path = .error cause) :
      Obstacle c s t (.file .read path cause)
  /-- A TypeScript header that cannot be read. -/
  | typescriptHeader {rustHeader path : String} {cause : FileError} (numbered : s.Numbered)
      (rust : HeaderText t c.rust.header rustHeader)
      (header : c.typescript.header = some path) (unread : t.readText path = .error cause) :
      Obstacle c s t (.file .read path cause)
  /-- The first target that has no table in the finished Rust text. -/
  | table {rustHeader typescriptHeader : String} {before after : List MappingTarget}
      {target : MappingTarget} {cause : ScanError} (numbered : s.Numbered)
      (rust : HeaderText t c.rust.header rustHeader)
      (typescript : HeaderText t c.typescript.header typescriptHeader)
      (split : c.mappingTargets s = before ++ target :: after)
      (first : ∀ other ∈ before, ∃ table,
        other.extract (splice rustHeader (Rust.emit c.rust.flavor s)) = .ok table)
      (missing : target.extract (splice rustHeader (Rust.emit c.rust.flavor s)) = .error cause) :
      Obstacle c s t (.scan cause)

/-- The texts of a rendering without obstacles. -/
structure Config.Rendered (c : Config) (s : Schema) (t : FileTree) (sources : GeneratedSources) :
    Prop where
  numbered : s.Numbered
  texts : ∃ rustHeader typescriptHeader tables, HeaderText t c.rust.header rustHeader ∧
    HeaderText t c.typescript.header typescriptHeader ∧
    extractTables (splice rustHeader (Rust.emit c.rust.flavor s)) (c.mappingTargets s) =
      .ok tables ∧
    sources = {
      rust := splice rustHeader (Rust.emit c.rust.flavor s)
      typescript := splice typescriptHeader (TypeScript.emit s)
      mappings := banner ++ String.join (tables.map MappingTable.render)
      warnings := s.lint }

section

variable {c : Config} {s : Schema} {t u : FileTree}

/-! ## Rendering stops at an obstacle -/

theorem readHeader_on_error {header : Option String} {path : String} {cause : FileError}
    (hheader : header = some path) (h : t.readText path = .error cause) :
    Step.on (readHeader header) t = (.error (.file .read path cause), t) := by
  have hread : (MonadFiles.readText path : StateM FileTree _).run t = (t.readText path, t) := rfl
  rw [hheader]
  rw [h] at hread
  exact Step.on_file_error hread

theorem mappingModule_on_error {source : String} {targets : List MappingTarget}
    {cause : ScanError} (h : extractTables source targets = .error cause) :
    Step.on (mappingModule source targets) t = (.error (.scan cause), t) := by
  unfold mappingModule renderMappings
  rw [h]
  rfl

theorem render_on_overflow {name : String} {count : Nat}
    (h : firstOverflow? s.lint = some (name, count)) :
    Step.on (c.render s) t = (.error (.tagOverflow name count), t) := by
  unfold Config.render
  simp only [h]
  rfl

theorem firstOverflow?_of_enum {before after : List Enumeration} {e : Enumeration}
    (hsplit : s.enums = before ++ e :: after)
    (hfirst : ∀ other ∈ before, other.variants.length ≤ maxTags)
    (hmany : maxTags < e.variants.length) :
    firstOverflow? s.lint = some (e.name, e.variants.length) := by
  have hfound : (s.enums.findSome? fun e => overflow? e.name e.variants.length) =
      some (e.name, e.variants.length) :=
    findSome?_overflow_iff.mpr ⟨before, e, after, hsplit, hfirst, hmany, rfl⟩
  rw [firstOverflow?_lint, hfound, Option.some_or]

theorem firstOverflow?_of_category {before after : List Category} {d : Category}
    (henums : ∀ e ∈ s.enums, e.variants.length ≤ maxTags)
    (hsplit : s.categories = before ++ d :: after)
    (hfirst : ∀ other ∈ before, other.messages.length ≤ maxTags)
    (hmany : maxTags < d.messages.length) :
    firstOverflow? s.lint = some (d.name, d.messages.length) := by
  have hnone : (s.enums.findSome? fun e => overflow? e.name e.variants.length) = none :=
    List.findSome?_eq_none_iff.mpr fun e he => overflow?_eq_none_iff.mpr (henums e he)
  have hfound : (s.categories.findSome? fun d => overflow? d.name d.messages.length) =
      some (d.name, d.messages.length) :=
    findSome?_overflow_iff.mpr ⟨before, d, after, hsplit, hfirst, hmany, rfl⟩
  rw [firstOverflow?_lint, hnone, hfound, Option.none_or]

/-- **Rendering stops at an obstacle**, and leaves the tree as it is. -/
theorem Config.Obstacle.render_on {e : GeneratorError} (h : c.Obstacle s t e) :
    Step.on (c.render s) t = (.error e, t) := by
  cases h with
  | enum hsplit hfirst hmany =>
    exact render_on_overflow (firstOverflow?_of_enum hsplit hfirst hmany)
  | category henums hsplit hfirst hmany =>
    exact render_on_overflow (firstOverflow?_of_category henums hsplit hfirst hmany)
  | rustHeader hnumbered hheader hunread =>
    unfold Config.render
    simp only [hnumbered.firstOverflow?]
    exact Step.on_bind_error (readHeader_on_error hheader hunread)
  | typescriptHeader hnumbered hrust hheader hunread =>
    unfold Config.render
    simp only [hnumbered.firstOverflow?]
    rw [Step.on_bind_ok (readHeader_on hrust)]
    exact Step.on_bind_error (readHeader_on_error hheader hunread)
  | table hnumbered hrust htypescript hsplit hfirst hmissing =>
    have hextract := extractTables_error_iff.mpr ⟨_, _, _, hsplit, hfirst, hmissing⟩
    unfold Config.render
    simp only [hnumbered.firstOverflow?]
    rw [Step.on_bind_ok (readHeader_on hrust), Step.on_bind_ok (readHeader_on htypescript)]
    exact Step.on_bind_error (mappingModule_on_error hextract)

theorem Config.Rendered.render_on {sources : GeneratedSources} (h : c.Rendered s t sources) :
    Step.on (c.render s) t = (.ok sources, t) := by
  obtain ⟨hnumbered, _, _, _, hrust, htypescript, htables, rfl⟩ := h
  exact c.render_on hnumbered.firstOverflow? hrust htypescript htables

/-! ## Nothing else happens -/

/-- A list of a schema is too long, or all can be numbered. -/
theorem obstacle_or_numbered (c : Config) (s : Schema) (t : FileTree) :
    (∃ e, c.Obstacle s t e) ∨ s.Numbered := by
  cases hfirst : firstOverflow? s.lint with
  | none => exact .inr ((firstOverflow?_eq_none_iff s).mp hfirst)
  | some found =>
    rw [firstOverflow?_lint, Option.or_eq_some_iff] at hfirst
    rcases hfirst with henums | ⟨hnone, hcategories⟩
    · obtain ⟨before, e, after, hsplit, hbefore, hmany, -⟩ := findSome?_overflow_iff.mp henums
      exact .inl ⟨_, .enum hsplit hbefore hmany⟩
    · obtain ⟨before, d, after, hsplit, hbefore, hmany, -⟩ := findSome?_overflow_iff.mp hcategories
      have hshort : ∀ e ∈ s.enums, e.variants.length ≤ maxTags := by
        intro e he
        exact overflow?_eq_none_iff.mp (List.findSome?_eq_none_iff.mp hnone e he)
      exact .inl ⟨_, .category hshort hsplit hbefore hmany⟩

/-- A header has a text, or it cannot be read. -/
theorem headerText_or_unread (t : FileTree) (header : Option String) :
    (∃ text, HeaderText t header text) ∨
      ∃ path cause, header = some path ∧ t.readText path = .error cause := by
  cases header with
  | none => exact .inl ⟨"", rfl⟩
  | some path =>
    cases hread : t.readText path with
    | ok text => exact .inl ⟨text, hread⟩
    | error cause => exact .inr ⟨path, cause, rfl, hread⟩

/-- **Every rendering** stops at an obstacle or gives the texts. -/
theorem obstacle_or_rendered (c : Config) (s : Schema) (t : FileTree) :
    (∃ e, c.Obstacle s t e) ∨ ∃ sources, c.Rendered s t sources := by
  rcases obstacle_or_numbered c s t with hobstacle | hnumbered
  · exact .inl hobstacle
  rcases headerText_or_unread t c.rust.header with ⟨rustHeader, hrust⟩ | ⟨path, cause, hpath, hread⟩
  case inr => exact .inl ⟨_, .rustHeader hnumbered hpath hread⟩
  rcases headerText_or_unread t c.typescript.header with
    ⟨typescriptHeader, htypescript⟩ | ⟨path, cause, hpath, hread⟩
  case inr => exact .inl ⟨_, .typescriptHeader hnumbered hrust hpath hread⟩
  cases htables : extractTables (splice rustHeader (Rust.emit c.rust.flavor s))
      (c.mappingTargets s) with
  | ok tables =>
    exact .inr ⟨_, hnumbered, _, _, _, hrust, htypescript, htables, rfl⟩
  | error cause =>
    obtain ⟨before, target, after, hsplit, hfirst, hmissing⟩ := extractTables_error_iff.mp htables
    exact .inl ⟨_, .table hnumbered hrust htypescript hsplit hfirst hmissing⟩

theorem render_error_iff {e : GeneratorError} :
    Step.on (c.render s) t = (.error e, u) ↔ u = t ∧ c.Obstacle s t e := by
  constructor
  · intro h
    rcases obstacle_or_rendered c s t with ⟨e', hobstacle⟩ | ⟨sources, hrendered⟩
    · rw [hobstacle.render_on] at h
      cases h
      exact ⟨rfl, hobstacle⟩
    · rw [hrendered.render_on] at h
      cases h
  · intro ⟨hu, hobstacle⟩
    rw [hu, hobstacle.render_on]

theorem render_ok_iff {sources : GeneratedSources} :
    Step.on (c.render s) t = (.ok sources, u) ↔ u = t ∧ c.Rendered s t sources := by
  constructor
  · intro h
    rcases obstacle_or_rendered c s t with ⟨e, hobstacle⟩ | ⟨sources', hrendered⟩
    · rw [hobstacle.render_on] at h
      cases h
    · rw [hrendered.render_on] at h
      cases h
      exact ⟨rfl, hrendered⟩
  · intro ⟨hu, hrendered⟩
    rw [hu, hrendered.render_on]

end

end TaggedWire
