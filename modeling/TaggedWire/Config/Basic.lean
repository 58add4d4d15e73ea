import TaggedWire.Emit.Rust
import TaggedWire.Files.Path
import TaggedWire.Scan.Mapping

/-! # Generator configuration

    Where the outputs of the generator go, which headers stand in front of
    them, and which lookup tables to make. Every setting has a default.
    Paths are kept as they are written; `relativeTo` moves all relative
    ones into a directory.
-/

namespace TaggedWire

/-- Settings for the Rust output. -/
structure RustOutput where
  path : String := "codec.rs"
  /-- A file whose text stands in front of the generated code. -/
  header : Option String := none
  flavor : Flavor := .async
  deriving DecidableEq, Repr

/-- Settings for the TypeScript output and the lookup tables beside it. -/
structure TypeScriptOutput where
  path : String := "codec.ts"
  /-- A file whose text stands in front of the generated code. -/
  header : Option String := none
  mappingPath : String := "codec_mappings.js"
  deriving DecidableEq, Repr

/-- Settings of a generator. Without mapping targets there is one table for
    each category. -/
structure Config where
  rust : RustOutput := {}
  typescript : TypeScriptOutput := {}
  mappings : List MappingTarget := []
  deriving DecidableEq, Repr

namespace Config

/-- The same settings seen from inside a directory. -/
def relativeTo (dir : String) (c : Config) : Config where
  rust :=
    { c.rust with
      path := Path.join dir c.rust.path
      header := c.rust.header.map (Path.join dir) }
  typescript :=
    { path := Path.join dir c.typescript.path
      header := c.typescript.header.map (Path.join dir)
      mappingPath := Path.join dir c.typescript.mappingPath }
  mappings := c.mappings

/-- The paths that a generator writes, in the order in which it does. -/
def outputPaths (c : Config) : List String :=
  [c.rust.path, c.typescript.path, c.typescript.mappingPath]

end Config

end TaggedWire
