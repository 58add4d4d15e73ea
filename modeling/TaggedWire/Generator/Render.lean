import TaggedWire.Config.Reader
import TaggedWire.Emit.TypeScript
import TaggedWire.Files.Access
import TaggedWire.Generator.Error
import TaggedWire.Schema.Lint

/-! # Rendering

    The first half of a generator run: everything that happens before a
    file is written. The schema is checked, the headers are read, both
    codecs are emitted behind their headers, and the lookup tables are
    extracted from the finished Rust text, so that they describe exactly
    what will be on disk.

    Of the warnings about a schema only one stops the run: a list with more
    entries than a byte can number.
-/

namespace TaggedWire

/-- The first line of every generated file. -/
def banner : String := "// @generated by wireforge. Do not edit by hand.\n"

/-- The texts of a generator run, and the warnings about its schema. -/
structure GeneratedSources where
  rust : String
  typescript : String
  mappings : String
  warnings : List Warning := []
  deriving DecidableEq, Repr

/-- A header ends its last line before the code starts. -/
def endLine (header : String) : String :=
  if header.isEmpty || header.toList.getLast? == some '\n' then header else header ++ "\n"

/-- A generated file: the banner, a header and the code. -/
def splice (header body : String) : String := banner ++ endLine header ++ body

/-- The first list that is too long to number, with its length. -/
def firstOverflow? : List Warning → Option (String × Nat)
  | [] => none
  | .tagOverflow name count :: _ => some (name, count)
  | _ :: rest => firstOverflow? rest

/-- The lookup tables to make: those that are configured, or else one for
    each category. -/
def Config.mappingTargets (c : Config) (s : Schema) : List MappingTarget :=
  if c.mappings.isEmpty then
    s.categories.map fun category => .forDeclaration category.name category.name
  else c.mappings

section

variable {m : Type → Type} [Monad m] [MonadFiles m]

/-- A step of a generator run. -/
abbrev Step (m : Type → Type) := ExceptT GeneratorError m

/-- Do something to a file, and name it if that fails. -/
def Step.file {α : Type} (action : FileAction) (path : String) (run : m (Except FileError α)) :
    Step m α :=
  ExceptT.mk do
    match ← run with
    | .ok a => return .ok a
    | .error cause => return .error (.file action path cause)

/-- The text of a file. -/
def readSource (path : String) : Step m String :=
  Step.file .read path (MonadFiles.readText path)

/-- The text of a header; no header is an empty one. -/
def readHeader : Option String → Step m String
  | none => return ""
  | some path => readSource path

/-- The module of lookup tables for a source text. -/
def mappingModule (source : String) (targets : List MappingTarget) : Step m String :=
  match renderMappings source targets with
  | .ok text => return banner ++ text
  | .error cause => throw (.scan cause)

/-- Render the codecs and lookup tables of a schema. -/
def Config.render (c : Config) (s : Schema) : Step m GeneratedSources := do
  let warnings := s.lint
  match firstOverflow? warnings with
  | some (name, count) => throw (.tagOverflow name count)
  | none =>
      let rustHeader ← readHeader c.rust.header
      let typescriptHeader ← readHeader c.typescript.header
      let rust := splice rustHeader (Rust.emit c.rust.flavor s)
      let typescript := splice typescriptHeader (TypeScript.emit s)
      let mappings ← mappingModule rust (c.mappingTargets s)
      return { rust, typescript, mappings, warnings }

/-- Render the configured lookup tables for a file that is already there. -/
def Config.mappingsFromFile (c : Config) (path : String) : Step m String := do
  if c.mappings.isEmpty then throw .noMappingTargets
  let source ← readSource path
  mappingModule source c.mappings

/-- Read a configuration file. Its paths are left as they are. -/
def Config.ofFile (path : String) : Step m Config := do
  match Config.ofText (← readSource path) with
  | .ok c => return c
  | .error cause => throw (.config cause)

end

end TaggedWire
