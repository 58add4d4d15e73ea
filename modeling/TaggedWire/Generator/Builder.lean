import TaggedWire.Config.Basic

/-! # Building a configuration

    A configuration made setting by setting. A later setting replaces an
    earlier one; mapping targets add up. The output directory is kept aside
    and applied at the end, to every relative path, whichever setting it
    came from.
-/

namespace TaggedWire

/-- One setting. -/
inductive Setting where
  /-- Replace everything but the output directory. -/
  | config (c : Config)
  | outputDir (dir : String)
  | rustPath (path : String)
  | rustHeader (path : String)
  | flavor (flavor : Flavor)
  | typescriptPath (path : String)
  | typescriptHeader (path : String)
  | mappingPath (path : String)
  /-- Add a lookup table. -/
  | mapping (target : MappingTarget)
  deriving DecidableEq, Repr

/-- A configuration in the making. -/
structure ConfigBuilder where
  config : Config := {}
  outputDir : Option String := none
  deriving DecidableEq, Repr

namespace ConfigBuilder

/-- Change the Rust settings. -/
def onRust (b : ConfigBuilder) (f : RustOutput → RustOutput) : ConfigBuilder :=
  { b with config := { b.config with rust := f b.config.rust } }

/-- Change the TypeScript settings. -/
def onTypescript (b : ConfigBuilder) (f : TypeScriptOutput → TypeScriptOutput) :
    ConfigBuilder :=
  { b with config := { b.config with typescript := f b.config.typescript } }

/-- Apply one setting. -/
def apply (b : ConfigBuilder) : Setting → ConfigBuilder
  | .config config => { b with config }
  | .outputDir dir => { b with outputDir := some dir }
  | .rustPath path => b.onRust ({ · with path })
  | .rustHeader path => b.onRust ({ · with header := some path })
  | .flavor flavor => b.onRust ({ · with flavor })
  | .typescriptPath path => b.onTypescript ({ · with path })
  | .typescriptHeader path => b.onTypescript ({ · with header := some path })
  | .mappingPath mappingPath => b.onTypescript ({ · with mappingPath })
  | .mapping target =>
      { b with config := { b.config with mappings := b.config.mappings ++ [target] } }

/-- The finished configuration. -/
def build (b : ConfigBuilder) : Config :=
  match b.outputDir with
  | some dir => b.config.relativeTo dir
  | none => b.config

end ConfigBuilder

/-- The configuration that a list of settings makes. -/
def Config.ofSettings (settings : List Setting) : Config :=
  (settings.foldl ConfigBuilder.apply {}).build

end TaggedWire
