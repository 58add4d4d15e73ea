import TaggedWire.Config.Basic
import TaggedWire.JsonText.Record

/-! # Reading a configuration

    A config file is a JSON record of records. Every key is optional and
    unknown keys are passed over; a mapping target alone needs both of its
    fields.

    A flavor is its name, or an object with its name as the only key and
    `null` as the value.

    These are the rules of the `serde` derivations for the settings:

      * the three records of settings have `#[serde(default)]`, so a field
        that is left out, of the object or from the end of the array, has the
        value of the default record, and not that of its own type;
      * a mapping target has no defaults, so a missing field is an error, as
        is an array of one element;
      * an optional field takes `null` for "none", and no other field does;
      * a flavor is an enum of unit variants in snake case. Where neither a
        string nor an object stands, `serde_json` finds the text malformed,
        and not the value of the wrong shape.
-/

namespace TaggedWire

open JsonText

/-! ## Flavors -/

/-- The flavor called `name`. -/
def Flavor.ofName? : String → Option Flavor
  | "cursor" => some .cursor
  | "async" => some .async
  | _ => none

namespace Config

/-- The flavor that a name in the text stands for. -/
def flavorNamed (name : String) : Reader Flavor :=
  match Flavor.ofName? name with
  | some flavor => return flavor
  | none => throw .wrongShape

/-- A flavor. -/
def readFlavor : Reader Flavor := do
  match ← peek with
  | none => throw .truncated
  | some '"' => do flavorNamed (← readString)
  | some '{' =>
      take
      let flavor ← flavorNamed (← readKey)
      expect ':'
      readNull
      expect '}'
      return flavor
  | some _ => throw .malformed

/-! ## Mapping targets -/

/-- A mapping target of which parts may still be missing. -/
structure TargetDraft where
  anchor : Option String := none
  exportName : Option String := none

/-- The target, once both parts are there. -/
def TargetDraft.finish (draft : TargetDraft) : Reader MappingTarget :=
  match draft.anchor, draft.exportName with
  | some anchor, some exportName => return ⟨anchor, exportName⟩
  | _, _ => throw .wrongShape

/-- The fields of a mapping target. -/
def targetFields : List (FieldReader TargetDraft) :=
  [⟨"anchor", fun draft => return { draft with anchor := some (← readString) }⟩,
   ⟨"export_name", fun draft => return { draft with exportName := some (← readString) }⟩]

/-- A mapping target. -/
def readTarget : Reader MappingTarget := do
  TargetDraft.finish (← readRecord targetFields {})

/-! ## Outputs -/

/-- The fields of the Rust settings. -/
def rustFields : List (FieldReader RustOutput) :=
  [⟨"path", fun draft => return { draft with path := ← readString }⟩,
   ⟨"header", fun draft => return { draft with header := ← readOptionalString }⟩,
   ⟨"flavor", fun draft => return { draft with flavor := ← readFlavor }⟩]

/-- The fields of the TypeScript settings. -/
def typescriptFields : List (FieldReader TypeScriptOutput) :=
  [⟨"path", fun draft => return { draft with path := ← readString }⟩,
   ⟨"header", fun draft => return { draft with header := ← readOptionalString }⟩,
   ⟨"mapping_path", fun draft => return { draft with mappingPath := ← readString }⟩]

/-! ## The whole configuration -/

/-- The fields of a configuration. -/
def configFields : List (FieldReader Config) :=
  [⟨"rust", fun draft => return { draft with rust := ← readRecord rustFields {} }⟩,
   ⟨"typescript",
    fun draft => return { draft with typescript := ← readRecord typescriptFields {} }⟩,
   ⟨"mappings", fun draft => return { draft with mappings := ← readArray readTarget }⟩]

/-- The configuration that a text describes. -/
def ofText (text : String) : Except ReadError Config :=
  readAll (readRecord configFields {}) text

end Config

end TaggedWire
