import Mathlib.Data.List.Infix
import TaggedWire.Proofs.CategoryTables
import TaggedWire.Proofs.Numbering
import TaggedWire.Proofs.StagedWriting

/-! # Runs that fail while rendering

    A run renders before it writes. What stops the rendering stops the run,
    with the same error and before anything is on disk, and no error of the
    writing looks like one of the rendering. If nothing stops it, every
    message and every variant has its number and its arms in the texts. -/

namespace TaggedWire

/-! ## Errors of writing -/

/-- Errors of the rendering: a list that is too long, a header that cannot
    be read, or a table without names. -/
def GeneratorError.InRendering : GeneratorError → Prop
  | .tagOverflow _ _ => True
  | .file .read _ _ => True
  | .scan _ => True
  | _ => False

theorem Config.Obstacle.inRendering {c : Config} {s : Schema} {t : FileTree} {e : GeneratorError}
    (h : c.Obstacle s t e) : e.InRendering := by
  cases h <;> trivial

/-- A step that fails with none of the errors of the rendering. -/
def Step.PastRendering {α : Type} (step : Step (StateM FileTree) α) : Prop :=
  ∀ t e u, Step.on step t = (.error e, u) → ¬ e.InRendering

namespace Step

variable {α β : Type}

theorem pastRendering_pure (a : α) : PastRendering (pure a) := fun _ _ _ h => by cases h

theorem pastRendering_bind {step : Step (StateM FileTree) α} {next : α → Step (StateM FileTree) β}
    (h : PastRendering step) (hnext : ∀ a, PastRendering (next a)) :
    PastRendering (step >>= next) := by
  intro t e u hrun
  cases hstep : on step t with
  | mk result v =>
    cases result with
    | ok a =>
      rw [on_bind_ok hstep] at hrun
      exact hnext a v e u hrun
    | error e' =>
      rw [on_bind_error hstep] at hrun
      cases hrun
      exact h t e u hstep

theorem pastRendering_file {action : FileAction} (haction : action ≠ .read) (path : String)
    (run : StateM FileTree (Except FileError α)) : PastRendering (Step.file action path run) := by
  intro t e u h
  cases hrun : run.run t with
  | mk result v =>
    cases result with
    | ok a =>
      rw [on_file_ok hrun] at h
      cases h
    | error cause =>
      rw [on_file_error hrun] at h
      cases h
      cases action <;> first | exact id | exact absurd rfl haction

theorem pastRendering_makeParent (path : String) : PastRendering (makeParent path) := by
  unfold makeParent
  split
  · exact pastRendering_pure ()
  · split
    · exact pastRendering_pure ()
    · exact pastRendering_file (by decide) _ _

theorem pastRendering_stage (path text : String) : PastRendering (stage path text) := by
  unfold stage
  apply pastRendering_bind (pastRendering_makeParent path)
  intro _
  apply pastRendering_bind (pastRendering_file (by decide) _ _)
  intro _
  exact pastRendering_pure _

theorem pastRendering_stageAll (staged : List Staged) (outputs : List (String × String)) :
    PastRendering (ExceptT.mk (stageAll staged outputs)) := by
  induction outputs generalizing staged with
  | nil => exact pastRendering_pure staged
  | cons out outputs ih =>
    intro t e u h
    have h : (stageAll (m := StateM FileTree) staged (out :: outputs)).run t = (.error e, u) := h
    cases htext : t.hasText out.1 out.2 with
    | true =>
      rw [stageAll_same htext] at h
      exact ih staged t e u h
    | false =>
      rw [stageAll_differs htext] at h
      cases hstage : on (stage out.1 out.2) t with
      | mk result v =>
        rw [hstage] at h
        cases result with
        | ok one => exact ih (staged ++ [one]) v e u h
        | error e' =>
          cases h
          exact pastRendering_stage out.1 out.2 t e v hstage

theorem pastRendering_replaceAll (staged : List Staged) :
    PastRendering (ExceptT.mk (replaceAll staged)) := by
  induction staged with
  | nil => exact pastRendering_pure ()
  | cons one rest ih =>
    intro t e u h
    have h : (replaceAll (m := StateM FileTree) (one :: rest)).run t = (.error e, u) := h
    rw [replaceAll, StateT.run_bind] at h
    cases hrename : (MonadFiles.renameFile one.temporary one.path : StateM FileTree _).run t with
    | mk result v =>
      rw [hrename] at h
      cases result with
      | ok _ => exact ih v e u h
      | error cause =>
        have hresult : (.error (.file .replace one.path cause) : Except GeneratorError Unit) =
          .error e := congrArg Prod.fst h
        cases hresult
        exact id

theorem pastRendering_write (c : Config) (sources : GeneratedSources) :
    PastRendering (c.write sources) := by
  unfold Config.write
  apply pastRendering_bind (pastRendering_stageAll [] _)
  intro staged
  exact pastRendering_replaceAll staged

end Step

/-- **A run stops at an obstacle**, and only there with an error of the
    rendering. -/
theorem run_error_iff {c : Config} {s : Schema} {t u : FileTree} {e : GeneratorError} :
    Step.on (c.run s) t = (.error e, u) ∧ e.InRendering ↔ u = t ∧ c.Obstacle s t e := by
  unfold Config.run
  cases hrender : Step.on (c.render s) t with
  | mk result v =>
    cases result with
    | error e' =>
      obtain ⟨rfl, hobstacle⟩ := render_error_iff.mp hrender
      rw [Step.on_bind_error hrender]
      constructor
      · intro ⟨hrun, _⟩
        cases hrun
        exact ⟨rfl, hobstacle⟩
      · intro ⟨hu, hother⟩
        have hsame := render_error_iff.mpr ⟨rfl, hother⟩
        rw [hrender] at hsame
        cases hsame
        exact ⟨by rw [hu], hobstacle.inRendering⟩
    | ok sources =>
      rw [Step.on_bind_ok hrender]
      constructor
      · -- The run got as far as writing.
        intro ⟨hrun, hin⟩
        have hpast : Step.PastRendering (c.write sources >>= fun _ => pure sources) :=
          Step.pastRendering_bind (Step.pastRendering_write c sources) fun _ =>
            Step.pastRendering_pure sources
        exact absurd hin (hpast v e u hrun)
      · intro ⟨_, hobstacle⟩
        have hstops := render_error_iff.mpr ⟨rfl, hobstacle⟩
        rw [hrender] at hstops
        cases hstops

/-- A run finds a list too long if and only if there is one. -/
theorem run_tagOverflow_iff {c : Config} {s : Schema} {t : FileTree} :
    (∃ name count u, Step.on (c.run s) t = (.error (.tagOverflow name count), u)) ↔
      (∃ e ∈ s.enums, maxTags < e.variants.length) ∨
        ∃ d ∈ s.categories, maxTags < d.messages.length := by
  constructor
  · intro ⟨name, count, u, hrun⟩
    obtain ⟨-, hobstacle⟩ := run_error_iff.mp ⟨hrun, trivial⟩
    cases hobstacle with
    | enum hsplit _ hmany => exact .inl ⟨_, by simp [hsplit], hmany⟩
    | category _ hsplit _ hmany => exact .inr ⟨_, by simp [hsplit], hmany⟩
  · intro hlong
    have hnot : ¬ s.Numbered := by
      intro hnumbered
      rcases hlong with ⟨e, he, hmany⟩ | ⟨d, hd, hmany⟩
      · exact absurd (hnumbered.enums e he) (Nat.not_le.mpr hmany)
      · exact absurd (hnumbered.categories d hd) (Nat.not_le.mpr hmany)
    obtain ⟨e, hobstacle⟩ := (obstacle_or_numbered c s t).resolve_right hnot
    have hrun := (run_error_iff.mpr ⟨rfl, hobstacle⟩).1
    cases hobstacle with
    | enum => exact ⟨_, _, _, hrun⟩
    | category => exact ⟨_, _, _, hrun⟩
    | rustHeader hnumbered | typescriptHeader hnumbered | table hnumbered =>
      exact absurd hnumbered hnot

/-! ## Arms -/

theorem infix_block (head : String) (lines : List Line) : lines <:+: block head lines :=
  ⟨[.opening head], [.closing], rfl⟩

/-- Some lines stand in a block with a given head. -/
def HasArm (lines : List Line) (head : String) (arm : List Line) : Prop :=
  ∃ body, arm <:+: body ∧ block head body <:+: lines

namespace HasArm

variable {lines more arm body : List Line} {head other : String}

theorem here (h : arm <:+: body) : HasArm (TaggedWire.block head body) head arm :=
  ⟨body, h, List.infix_refl _⟩

theorem mono (h : HasArm lines head arm) (hsub : lines <:+: more) : HasArm more head arm := by
  obtain ⟨body, harm, hblock⟩ := h
  exact ⟨body, harm, hblock.trans hsub⟩

theorem left (h : HasArm lines head arm) : HasArm (lines ++ more) head arm :=
  h.mono (List.prefix_append lines more).isInfix

theorem right (h : HasArm lines head arm) : HasArm (more ++ lines) head arm :=
  h.mono (List.suffix_append more lines).isInfix

theorem cons {line : Line} (h : HasArm lines head arm) : HasArm (line :: lines) head arm :=
  h.mono (List.suffix_cons line lines).isInfix

theorem block (h : HasArm lines head arm) : HasArm (TaggedWire.block other lines) head arm :=
  h.mono (infix_block other lines)

end HasArm

/-- Some lines stand in a text one after another. -/
def HasLines (text : String) (lines : List Line) : Prop :=
  ∃ depth before after, text = before ++ String.join (renderLines depth lines) ++ after

theorem hasLines_splice {lines all : List Line} (header : String) (h : lines <:+: all) :
    HasLines (splice header (layout all)) lines := by
  obtain ⟨above, below, rfl⟩ := h
  refine ⟨openBlocks 0 above, banner ++ endLine header ++ String.join (renderLines 0 above),
    String.join (renderLines (openBlocks 0 (above ++ lines)) below), ?_⟩
  rw [splice, layout, renderLines_append, renderLines_append, String.join_append,
    String.join_append]
  simp only [String.append_assoc]

theorem infix_flatMap_of_mem {α : Type} {entries : List α} (lines : α → List Line) {entry : α}
    (h : entry ∈ entries) : lines entry <:+: entries.flatMap lines := by
  rw [List.flatMap_def]
  exact List.infix_of_mem_flatten (List.mem_map_of_mem h)

/-- What is emitted for an entry behind a blank line. -/
theorem infix_flatMap_blank {α : Type} {entries : List α} (lines : α → List Line) {entry : α}
    (h : entry ∈ entries) : lines entry <:+: entries.flatMap fun entry => .blank :: lines entry :=
  (List.suffix_cons .blank (lines entry)).isInfix.trans
    (infix_flatMap_of_mem (fun entry => .blank :: lines entry) h)

/-- What the pattern of a message binds: its fields by name, in order. -/
def Message.binding (m : Message) : String :=
  if m.fields = [] then "" else " \x7b " ++ ", ".intercalate (m.fields.map (·.name)) ++ " \x7d"

theorem variantPattern_eq (m : Message) :
    Rust.variantPattern m = s!"Self::{m.name}{m.binding}" := by
  unfold Rust.variantPattern Message.binding
  simp only [Message.isUnit, List.isEmpty_iff]
  split
  · exact String.append_empty.symm
  · simp only [String.append_assoc]
    rfl

/-- The arms of a message in both codecs. The tag stands in the arm that
    writes it and in front of the arms that it selects. -/
structure Category.MessageArms (flavor : Flavor) (d : Category) (tag : UInt8) (m : Message) :
    Prop where
  serialize : HasArm (Rust.categoryLines flavor d) "match self"
    (block s!"Self::{m.name}{m.binding} =>"
      (.plain s!"out.push({tag});" :: m.fields.map fun f => .plain (Rust.serialize f.type f.name)))
  deserialize : HasArm (Rust.categoryLines flavor d) "match tag"
    (if m.fields = [] then [.plain s!"{tag} => Ok(Self::{m.name}),"]
      else
        block s!"{tag} =>"
          ((m.fields.map fun f => .plain (Rust.deserialize flavor f.type f.name)) ++
            [.plain s!"Ok(Self::{m.name}{m.binding})"]))
  messageClass : HasArm (TypeScript.categoryLines d) s!"export namespace {d.name}"
    (block s!"export class {m.name}"
      (.plain s!"static readonly id = {tag};" ::
        (m.fields.map fun f => .plain s!"{TypeScript.typedName f};") ++
        block ("constructor(" ++ ", ".intercalate (m.fields.map TypeScript.typedName) ++ ")")
          (m.fields.map fun f => .plain s!"this.{f.name} = {f.name};") ++
        block "serialize(): Uint8Array"
          (.plain s!"const out: number[] = [{m.name}.id];" ::
            (m.fields.map fun f => .plain (TypeScript.serialize f.type s!"this.{f.name}")) ++
            [.plain "return new Uint8Array(out);"])))
  deserializeCase : HasArm (TypeScript.categoryLines d) "switch (tag)"
    (block s!"case {tag}:"
      ((m.fields.flatMap fun f =>
          [.plain s!"let {TypeScript.typedName f};",
           .plain (TypeScript.deserialize f.type f.name)]) ++
        [.plain (s!"return new {m.name}(" ++ ", ".intercalate (m.fields.map (·.name)) ++ ");")]))

/-- The arms of a variant in both codecs. -/
structure Enumeration.VariantArms (flavor : Flavor) (e : Enumeration) (byte : UInt8)
    (variant : String) : Prop where
  serialize : HasArm (Rust.enumLines flavor e) "match self"
    [.plain s!"Self::{variant} => {byte},"]
  deserialize : HasArm (Rust.enumLines flavor e) "match tag"
    [.plain s!"{byte} => Ok(Self::{variant}),"]
  member : HasArm (TypeScript.enumLines e) s!"export enum {e.name}"
    [.plain s!"{variant} = {byte},"]

theorem messageArms_of_mem (flavor : Flavor) {d : Category} {tag : UInt8} {m : Message}
    (h : (tag, m) ∈ d.tagged) : d.MessageArms flavor tag m := by
  have harms (arm : UInt8 × Message → List Line) (more : List Line) :
      arm (tag, m) <:+: d.tagged.flatMap arm ++ more :=
    (infix_flatMap_of_mem arm h).trans (List.prefix_append _ more).isInfix
  constructor
  · have hself := infix_flatMap_of_mem (fun entry => Rust.serializeArm entry.1 entry.2) h
    rw [← variantPattern_eq]
    exact (HasArm.here hself).block.left.left.block.right
  · have htag := harms (fun entry => Rust.deserializeArm flavor entry.1 entry.2)
      [Rust.otherwiseFails]
    have harm : HasArm (Rust.categoryLines flavor d) "match tag"
        (Rust.deserializeArm flavor tag m) := (HasArm.here htag).right.block.right.block.right
    simp only [Rust.deserializeArm, variantPattern_eq, Message.isUnit, List.isEmpty_iff] at harm
    exact harm
  · exact HasArm.here (harms (fun entry => TypeScript.messageLines entry.1 entry.2) _)
  · have hcase := harms fun entry => TypeScript.deserializeCase entry.1 entry.2
    exact (HasArm.here (hcase _)).cons.block.right.block

theorem variantArms_of_getElem? (flavor : Flavor) {e : Enumeration} {byte : UInt8}
    {variant : String} (h : e.variants[byte.toNat]? = some variant) :
    e.VariantArms flavor byte variant := by
  have harms (arm : String × Nat → Line) (more : List Line) :
      [arm (variant, byte.toNat)] <:+: e.variants.zipIdx.map arm ++ more := by
    have hmem : (variant, byte.toNat) ∈ e.variants.zipIdx := List.mem_zipIdx_iff_getElem?.mpr h
    rw [List.singleton_infix_iff]
    exact List.mem_append_left more (List.mem_map_of_mem hmem)
  constructor
  · have hself := harms (fun entry => .plain s!"Self::{entry.1} => {entry.2},") []
    rw [List.append_nil] at hself
    exact (HasArm.here hself).block.left.left.left.left.block.right
  · have htag := harms (fun entry => .plain s!"{entry.2} => Ok(Self::{entry.1}),")
      [Rust.otherwiseFails]
    exact (HasArm.here htag).right.block.right.block.right
  · have hmember := harms (fun entry => .plain s!"{entry.1} = {entry.2},") []
    rw [List.append_nil] at hmember
    exact (HasArm.here hmember).left

/-- Every message of a category has its position as its tag, and its arms are
    in the texts. -/
structure Category.Covered (flavor : Flavor) (sources : GeneratedSources) (d : Category) :
    Prop where
  tagged_length : d.tagged.length = d.messages.length
  arms : ∀ position m, d.messages[position]? = some m → ∃ tag : UInt8, tag.toNat = position ∧
    d.tagged[position]? = some (tag, m) ∧ d.MessageArms flavor tag m
  rust : HasLines sources.rust (Rust.categoryLines flavor d)
  typescript : HasLines sources.typescript (TypeScript.categoryLines d)

/-- Every variant of an enumeration has its position as its byte, and its
    arms are in the texts. -/
structure Enumeration.Covered (flavor : Flavor) (sources : GeneratedSources) (e : Enumeration) :
    Prop where
  arms : ∀ position variant, e.variants[position]? = some variant → ∃ byte : UInt8,
    byte.toNat = position ∧ e.VariantArms flavor byte variant
  rust : HasLines sources.rust (Rust.enumLines flavor e)
  typescript : HasLines sources.typescript (TypeScript.enumLines e)

section

variable {c : Config} {s : Schema} {t : FileTree} {sources : GeneratedSources}
  (h : c.Rendered s t sources)
include h

theorem Config.Rendered.category_covered {d : Category} (hd : d ∈ s.categories) :
    d.Covered c.rust.flavor sources := by
  have hlength : d.messages.length ≤ maxTags := h.numbered.categories d hd
  obtain ⟨rustHeader, typescriptHeader, tables, -, -, -, rfl⟩ := h.texts
  refine ⟨length_tagged hlength, ?_, ?_, ?_⟩
  · intro position m hm
    obtain ⟨tag, htag, htagged⟩ := tagged_getElem? hlength hm
    exact ⟨tag, htag, htagged, messageArms_of_mem _ (List.mem_of_getElem? htagged)⟩
  · apply hasLines_splice
    exact (infix_flatMap_blank _ hd).trans (List.suffix_append _ _).isInfix
  · apply hasLines_splice
    exact (infix_flatMap_blank _ hd).trans (List.suffix_append _ _).isInfix

theorem Config.Rendered.enum_covered {e : Enumeration} (he : e ∈ s.enums) :
    e.Covered c.rust.flavor sources := by
  have hlength : e.variants.length ≤ maxTags := h.numbered.enums e he
  obtain ⟨rustHeader, typescriptHeader, tables, -, -, -, rfl⟩ := h.texts
  refine ⟨?_, ?_, ?_⟩
  · intro position variant hvariant
    obtain ⟨byte, hbyte, -⟩ := tagged_getElem? hlength hvariant
    rw [← hbyte] at hvariant
    exact ⟨byte, hbyte, variantArms_of_getElem? _ hvariant⟩
  · apply hasLines_splice
    exact (infix_flatMap_blank _ he).trans (List.prefix_append _ _).isInfix
  · apply hasLines_splice
    exact (infix_flatMap_blank _ he).trans (List.prefix_append _ _).isInfix

end

/-! ## The whole run -/

/-- **Why a run fails while rendering.** A run has an error of the rendering
    if and only if there is an obstacle with that error, and then the tree is
    as it was. In particular it finds a list too long if and only if there is
    one. A rendering that succeeds has numbered every message and every
    variant by its position, and there are arms for all of them. -/
theorem run_failing_in_rendering (c : Config) (s : Schema) (t : FileTree) :
    (∀ e u, Step.on (c.run s) t = (.error e, u) ∧ e.InRendering ↔ u = t ∧ c.Obstacle s t e) ∧
    ((∃ name count u, Step.on (c.run s) t = (.error (.tagOverflow name count), u)) ↔
      (∃ e ∈ s.enums, maxTags < e.variants.length) ∨
        ∃ d ∈ s.categories, maxTags < d.messages.length) ∧
    ∀ sources u, Step.on (c.render s) t = (.ok sources, u) →
      (∀ d ∈ s.categories, d.Covered c.rust.flavor sources) ∧
        ∀ e ∈ s.enums, e.Covered c.rust.flavor sources := by
  refine ⟨fun e u => run_error_iff, run_tagOverflow_iff, ?_⟩
  intro sources u hrender
  obtain ⟨-, hrendered⟩ := render_ok_iff.mp hrender
  exact ⟨fun d hd => hrendered.category_covered hd, fun e he => hrendered.enum_covered he⟩

/-- A message without fields and one with two. -/
def stoveCategory : Category where
  name := "Stove"
  messages :=
    [{ name := "Off" },
     { name := "Heat"
       fields := [⟨"mode", .enumRef "Mode"⟩, ⟨"level", .primitive .u8⟩] }]

def stoveSchema : Schema where
  enums := [⟨"Mode", ["Boil", "Simmer"]⟩]
  categories := [stoveCategory]

theorem wordNames_stoveSchema : stoveSchema.WordNames := by
  refine ⟨List.forall_mem_singleton.mpr ⟨by decide, by decide⟩,
    List.forall_mem_singleton.mpr ⟨by decide, ?_⟩⟩
  exact List.forall_mem_cons.mpr ⟨⟨by decide, by decide⟩,
    List.forall_mem_singleton.mpr ⟨by decide, by decide⟩⟩

theorem clean_stoveSchema : stoveSchema.Clean := stoveSchema.lint_eq_nil_iff.mp (by decide)

theorem render_stoveSchema :
    ∃ sources, Step.on (({} : Config).render stoveSchema) {} = (.ok sources, {}) := by
  obtain ⟨tables, -, hextracts⟩ :=
    extractTables_categories clean_stoveSchema wordNames_stoveSchema .async fun _ hc => hc
  have hfits := clean_stoveSchema.numbered.firstOverflow?
  exact ⟨_, Config.render_on {} hfits rfl rfl hextracts⟩

/-- The arms of both messages in the texts of a rendering, and a run that
    stops at a header that is not there. -/
theorem run_failing_in_rendering_stove :
    (∃ sources, Step.on (({} : Config).render stoveSchema) {} = (.ok sources, {}) ∧
      HasLines sources.rust (Rust.categoryLines .async stoveCategory)) ∧
    HasArm (Rust.categoryLines .async stoveCategory) "match self"
      (block "Self::Heat \x7b mode, level \x7d =>"
        [.plain "out.push(1);", .plain "mode.serialize(out);",
         .plain "type_u8_serialize(out, level);"]) ∧
    HasArm (Rust.categoryLines .async stoveCategory) "match tag" [.plain "0 => Ok(Self::Off),"] ∧
    HasArm (TypeScript.categoryLines stoveCategory) "switch (tag)"
      (block "case 0:" [.plain "return new Off();"]) ∧
    Step.on (({ rust := { header := some "head.rs" } } : Config).run stoveSchema) {} =
      (.error (.file .read "head.rs" .notFound), {}) := by
  obtain ⟨sources, hrender⟩ := render_stoveSchema
  obtain ⟨-, -, hcovered⟩ := run_failing_in_rendering {} stoveSchema {}
  have hstove := (hcovered sources {} hrender).1 stoveCategory List.mem_cons_self
  obtain ⟨off, hoff, -, hoffArms⟩ := hstove.arms 0 _ rfl
  obtain ⟨heat, hheat, -, hheatArms⟩ := hstove.arms 1 _ rfl
  obtain rfl : off = 0 := UInt8.toNat_inj.mp hoff
  obtain rfl : heat = 1 := UInt8.toNat_inj.mp hheat
  have hnumbered : stoveSchema.Numbered := clean_stoveSchema.numbered
  obtain ⟨hstops, -, -⟩ :=
    run_failing_in_rendering { rust := { header := some "head.rs" } } stoveSchema {}
  refine ⟨⟨sources, hrender, hstove.rust⟩, hheatArms.serialize, hoffArms.deserialize,
    hoffArms.deserializeCase, ?_⟩
  exact ((hstops _ _).mpr ⟨rfl, .rustHeader hnumbered rfl rfl⟩).1

end TaggedWire
