import TaggedWire.Config.Reader
import TaggedWire.Proofs.JsonRecords

/-! # The texts of a configuration

    A configuration may be written in many ways: keys in any order, blanks
    and escapes anywhere, fields that have their default left out, and any
    other keys mixed in. `ConfigText` relates a configuration to all of them,
    and each of them is read as that configuration.

    For each record there are two lists, the fields as they are written and
    the draft that a reader has after some of their keys. A field that was
    not seen has its default in the draft.
-/

namespace TaggedWire.Config

open JsonText

/-! ## Drafts -/

/-- What a draft has for a field: its value, once the key was seen. -/
def pick {β : Type} (seen : List String) (key : String) (value default : β) : β :=
  if key ∈ seen then value else default

theorem pick_eq {β : Type} {seen : List String} {key : String} {value default : β}
    (h : key ∈ seen ∨ value = default) : pick seen key value default = value := by
  unfold pick
  split
  · rfl
  · exact (h.resolve_left ‹_›).symm

/-- A field reader that reads a value and puts it into the draft. -/
theorem fieldReads_of_map {α β : Type} {reader : Reader β} {text : List Char → Prop} {b : β}
    {draft : List String → α} {put : α → β → α} {key : String} {optional : Prop}
    (hreader : ReadsAs reader text b) (hput : ∀ seen, put (draft seen) b = draft (key :: seen)) :
    FieldReads draft ⟨key, fun a => reader >>= fun b => pure (put a b)⟩
      ⟨key, optional, text⟩ where
  key := rfl
  reads seen := by
    have := hreader.map (put (draft seen))
    rwa [hput] at this

/-! ## Flavors -/

/-- The name of a flavor. -/
def flavorName : Flavor → String
  | .cursor => "cursor"
  | .async => "async"

/-- A flavor is its name, or an object with the name as its only key and
    `null` as the value. -/
def FlavorText (flavor : Flavor) (s : List Char) : Prop :=
  StringText (flavorName flavor) s ∨
    ∃ name value, s = '{' :: (name ++ ':' :: (value ++ ['}'])) ∧
      Padded (StringText (flavorName flavor)) name ∧ Padded (· = "null".toList) value

theorem flavorNamed_flavorName (flavor : Flavor) (s : List Char) :
    flavorNamed (flavorName flavor) s = .ok (flavor, s) := by
  cases flavor <;> rfl

theorem readsAs_readFlavor (flavor : Flavor) :
    ReadsAs readFlavor (FlavorText flavor) flavor := by
  intro before s rest hbefore hs
  obtain hs | ⟨name, value, rfl, hname, hvalue⟩ := hs
  · have hread := readsAs_readString (flavorName flavor) [] s rest .nil hs
    obtain ⟨body, -, rfl⟩ := hs
    rw [readFlavor, List.cons_append, bind_of_ok (peek_before hbefore rfl)]
    exact (bind_of_ok hread).trans (flavorNamed_flavorName flavor rest)
  · obtain ⟨lead, quoted, after, rfl, hlead, hquoted, hafter⟩ := hname
    obtain ⟨lead', word, after', rfl, hlead', hword, hafter'⟩ := hvalue
    have htake : take ('{' :: (lead ++ (quoted ++ (after ++ ':' ::
        (lead' ++ (word ++ (after' ++ '}' :: rest))))))) = .ok ((), lead ++ (quoted ++ (after ++
        ':' :: (lead' ++ (word ++ (after' ++ '}' :: rest)))))) := rfl
    simp only [List.cons_append, List.append_assoc, List.nil_append]
    rw [readFlavor, bind_of_ok (peek_before hbefore rfl)]
    simp only
    rw [bind_of_ok htake, bind_of_ok (readsAs_readKey _ _ _ _ hlead hquoted),
      bind_of_ok (flavorNamed_flavorName flavor _), bind_of_ok (expect_before hafter rfl),
      bind_of_ok (readsAs_readNull _ _ _ hlead' hword), bind_of_ok (expect_before hafter' rfl)]
    rfl

/-! ## Mapping targets -/

/-- The fields of a mapping target. Neither has a default. -/
def targetTexts (t : MappingTarget) : List FieldText :=
  [⟨"anchor", False, StringText t.anchor⟩, ⟨"export_name", False, StringText t.exportName⟩]

/-- The texts of a mapping target. -/
def TargetText (t : MappingTarget) : List Char → Prop := RecordText (targetTexts t)

/-- The draft of a mapping target. -/
def targetDraft (t : MappingTarget) (seen : List String) : TargetDraft where
  anchor := pick seen "anchor" (some t.anchor) none
  exportName := pick seen "export_name" (some t.exportName) none

theorem readsAs_readTarget (t : MappingTarget) : ReadsAs readTarget (TargetText t) t := by
  have heach : List.Forall₂ (FieldReads (targetDraft t)) targetFields (targetTexts t) :=
    .cons (fieldReads_of_map (readsAs_readString t.anchor)
        fun seen => by simp [targetDraft, pick]) <|
      .cons (fieldReads_of_map (readsAs_readString t.exportName)
        fun seen => by simp [targetDraft, pick]) .nil
  have hrecord : ReadsAs (readRecord targetFields {}) (TargetText t)
      ⟨some t.anchor, some t.exportName⟩ := by
    apply readsAs_readRecord ⟨heach, by simp [targetTexts]⟩
    intro seen hseen
    simp only [targetTexts, List.forall_mem_cons, or_false] at hseen
    rw [targetDraft, pick_eq (.inl hseen.1), pick_eq (.inl hseen.2.1)]
  intro before s rest hbefore hs
  rw [readTarget, bind_of_ok (hrecord before s rest hbefore hs)]
  rfl

theorem elementReads_readTarget : ElementReads readTarget TargetText where
  reads := readsAs_readTarget
  starts t s h := by
    obtain ⟨keys, henclosed, -⟩ := h
    cases henclosed with
    | empty _ => exact ⟨'{', _, rfl, rfl, by decide⟩
    | full _ => exact ⟨'{', _, rfl, rfl, by decide⟩

/-! ## Outputs -/

/-- The fields of the Rust settings. -/
def rustTexts (r : RustOutput) : List FieldText :=
  let standard : RustOutput := {}
  [⟨"path", r.path = standard.path, StringText r.path⟩,
   ⟨"header", r.header = standard.header, OptionalText r.header⟩,
   ⟨"flavor", r.flavor = standard.flavor, FlavorText r.flavor⟩]

/-- The draft of the Rust settings. -/
def rustDraft (r : RustOutput) (seen : List String) : RustOutput :=
  let standard : RustOutput := {}
  { path := pick seen "path" r.path standard.path
    header := pick seen "header" r.header standard.header
    flavor := pick seen "flavor" r.flavor standard.flavor }

theorem readsAs_rust (r : RustOutput) :
    ReadsAs (readRecord rustFields {}) (RecordText (rustTexts r)) r := by
  have heach : List.Forall₂ (FieldReads (rustDraft r)) rustFields (rustTexts r) :=
    .cons (fieldReads_of_map (readsAs_readString r.path)
        fun seen => by simp [rustDraft, pick]) <|
      .cons (fieldReads_of_map (readsAs_readOptionalString r.header)
        fun seen => by simp [rustDraft, pick]) <|
      .cons (fieldReads_of_map (readsAs_readFlavor r.flavor)
        fun seen => by simp [rustDraft, pick]) .nil
  apply readsAs_readRecord ⟨heach, by simp [rustTexts]⟩
  intro seen hseen
  simp only [rustTexts, List.forall_mem_cons] at hseen
  rw [rustDraft, pick_eq hseen.1, pick_eq hseen.2.1, pick_eq hseen.2.2.1]

/-- The fields of the TypeScript settings. -/
def typescriptTexts (t : TypeScriptOutput) : List FieldText :=
  let standard : TypeScriptOutput := {}
  [⟨"path", t.path = standard.path, StringText t.path⟩,
   ⟨"header", t.header = standard.header, OptionalText t.header⟩,
   ⟨"mapping_path", t.mappingPath = standard.mappingPath, StringText t.mappingPath⟩]

/-- The draft of the TypeScript settings. -/
def typescriptDraft (t : TypeScriptOutput) (seen : List String) : TypeScriptOutput :=
  let standard : TypeScriptOutput := {}
  { path := pick seen "path" t.path standard.path
    header := pick seen "header" t.header standard.header
    mappingPath := pick seen "mapping_path" t.mappingPath standard.mappingPath }

theorem readsAs_typescript (t : TypeScriptOutput) :
    ReadsAs (readRecord typescriptFields {}) (RecordText (typescriptTexts t)) t := by
  have heach :
      List.Forall₂ (FieldReads (typescriptDraft t)) typescriptFields (typescriptTexts t) :=
    .cons (fieldReads_of_map (readsAs_readString t.path)
        fun seen => by simp [typescriptDraft, pick]) <|
      .cons (fieldReads_of_map (readsAs_readOptionalString t.header)
        fun seen => by simp [typescriptDraft, pick]) <|
      .cons (fieldReads_of_map (readsAs_readString t.mappingPath)
        fun seen => by simp [typescriptDraft, pick]) .nil
  apply readsAs_readRecord ⟨heach, by simp [typescriptTexts]⟩
  intro seen hseen
  simp only [typescriptTexts, List.forall_mem_cons] at hseen
  rw [typescriptDraft, pick_eq hseen.1, pick_eq hseen.2.1, pick_eq hseen.2.2.1]

/-! ## The whole configuration -/

/-- The fields of a configuration. -/
def configTexts (c : Config) : List FieldText :=
  let standard : Config := {}
  [⟨"rust", c.rust = standard.rust, RecordText (rustTexts c.rust)⟩,
   ⟨"typescript", c.typescript = standard.typescript,
    RecordText (typescriptTexts c.typescript)⟩,
   ⟨"mappings", c.mappings = standard.mappings,
    Enclosed .array (fun t => Padded (TargetText t)) c.mappings⟩]

/-- The texts of a configuration. -/
def ConfigText (c : Config) : List Char → Prop := RecordText (configTexts c)

/-- The draft of a configuration. -/
def configDraft (c : Config) (seen : List String) : Config :=
  let standard : Config := {}
  { rust := pick seen "rust" c.rust standard.rust
    typescript := pick seen "typescript" c.typescript standard.typescript
    mappings := pick seen "mappings" c.mappings standard.mappings }

theorem readsAs_config (c : Config) :
    ReadsAs (readRecord configFields {}) (ConfigText c) c := by
  have hmappings := readsAs_readArray elementReads_readTarget c.mappings
  have heach : List.Forall₂ (FieldReads (configDraft c)) configFields (configTexts c) :=
    .cons (fieldReads_of_map (readsAs_rust c.rust)
        fun seen => by simp [configDraft, pick]) <|
      .cons (fieldReads_of_map (readsAs_typescript c.typescript)
        fun seen => by simp [configDraft, pick]) <|
      .cons (fieldReads_of_map hmappings fun seen => by simp [configDraft, pick]) .nil
  apply readsAs_readRecord ⟨heach, by simp [configTexts]⟩
  intro seen hseen
  simp only [configTexts, List.forall_mem_cons] at hseen
  rw [configDraft, pick_eq hseen.1, pick_eq hseen.2.1, pick_eq hseen.2.2.1]

/-- **Every text of a configuration is read as that configuration.** -/
theorem ofText_of_configText {c : Config} {text : String}
    (h : Padded (ConfigText c) text.toList) : ofText text = .ok c := by
  obtain ⟨before, s, after, htext, hbefore, hs, hafter⟩ := h
  have hread := readsAs_config c before s after hbefore hs
  rw [ofText, readAll, htext, List.append_assoc, hread]
  simp only [skipBlanks_of_blanks hafter, if_true]

/-- A configuration with a flavor and a path of its own. -/
def sample : Config where
  rust := { path := "😀", flavor := .cursor }

/-- A text of it: keys in another order, a pair of surrogates, and under an
    unknown key a nested value with half a pair in it. -/
def sampleText : String :=
  "\n\x7b\"x\":[-1e+3,\x7b\"\\ud800\":[]\x7d],\"rust\" :\x7b\"flavor\":\"cursor\",\"path\":\"\\uD83D\\ude00\"\x7d\x7d"

theorem ofText_of_configText_sample :
    Padded (ConfigText sample) sampleText.toList ∧ ofText sampleText = .ok sample := by
  have hquoted : ∀ {s : List Char}, s.all (fun c => decide (IsPlain c)) = true →
      StringText (String.ofList s) ('"' :: (s ++ ['"'])) := by
    intro s hs
    refine ⟨s, ?_, rfl⟩
    rw [String.toList_ofList]
    exact charsText_plain fun c hc => by simpa using List.all_eq_true.mp hs c hc
  -- The value of the unknown key.
  have hnumber : IsNumber ['-', '1', 'e', '+', '3'] :=
    ⟨['-'], ['1'], [], ['e', '+', '3'], rfl, by simp, by simp [IsWhole, IsDigits], .inl rfl,
      .inr ⟨'e', ['+'], ['3'], by simp, by simp, by simp [IsDigits], rfl⟩⟩
  have hhalf : IsString ['"', '\\', 'u', 'd', '8', '0', '0', '"'] :=
    ⟨_, .unit (.mk (w := 13) (x := 8) (y := 0) (z := 0) (by decide) (by decide) (by decide)
      (by decide)) .nil, rfl⟩
  have hobject := IsJson.full .object (@IsJson.last .object _ _ []
    ⟨[], _, [], [], rfl, .nil, hhalf, .nil, .nil⟩ (.empty .array .nil) .nil)
  have harray := IsJson.full .array (@IsJson.more .array [] _ [] _ .nil (.number hnumber) .nil
    (@IsJson.last .array [] _ [] .nil hobject .nil))
  -- The path, as the two halves of its only character.
  have hhigh : UnitEscape 0xd83d ['\\', 'u', 'D', '8', '3', 'D'] :=
    .mk (w := 13) (x := 8) (y := 3) (z := 13) (by decide) (by decide) (by decide) (by decide)
  have hlow : UnitEscape 0xde00 ['\\', 'u', 'd', 'e', '0', '0'] :=
    .mk (w := 13) (x := 14) (y := 0) (z := 0) (by decide) (by decide) (by decide) (by decide)
  have hface : CharText '😀' _ := .units (.cons hhigh (.cons hlow .nil))
  have hpath : StringText (String.ofList ['😀']) _ :=
    ⟨_, by rw [String.toList_ofList]; exact .cons hface .nil, rfl⟩
  have hpathMember : MemberText (rustTexts sample.rust) "path" _ :=
    ⟨_, _, rfl, .self (hquoted rfl), .inl ⟨_, .head _, rfl, .self hpath⟩⟩
  have hflavorMember : MemberText (rustTexts sample.rust) "flavor" _ :=
    ⟨_, _, rfl, .self (hquoted rfl),
      .inl ⟨_, .tail _ (.tail _ (.head _)), rfl, .self (.inl (hquoted rfl))⟩⟩
  -- The two members of the configuration.
  have hunknown : MemberText (configTexts sample) "x" _ :=
    ⟨_, _, rfl, .self (hquoted rfl), .inr ⟨by simp [configTexts], .self harray⟩⟩
  have hrust : MemberText (configTexts sample) "rust" _ :=
    ⟨_, _, rfl, ⟨[], _, [' '], rfl, .nil, hquoted rfl, by simp [Blanks]⟩,
      .inl ⟨_, .head _, rfl, .self ⟨["flavor", "path"],
        .full (.more hflavorMember (.last hpathMember)), by simp [rustTexts, sample]⟩⟩⟩
  have hconfig : ConfigText sample _ :=
    ⟨["x", "rust"], .full (.more hunknown (.last hrust)), by simp [configTexts, sample]⟩
  have htext : Padded (ConfigText sample) sampleText.toList := by
    refine ⟨['\n'], _, [], ?_, by simp [Blanks], hconfig, .nil⟩
    exact String.toList_ofList
  exact ⟨htext, ofText_of_configText htext⟩

end TaggedWire.Config
