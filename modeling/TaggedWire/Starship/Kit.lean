import TaggedWire.Generator.Write
import TaggedWire.Starship.Protocol
import TaggedWire.Starship.Support

/-! # The starship kit

    The generator's inputs for the starship protocol, as they are installed
    in one directory: the support code and the settings that go with it.
    Outputs go to a directory of their own beside them.
-/

namespace TaggedWire.Starship

/-- The names and texts of the installed files. -/
def kitFiles : List (String × String) :=
  [("support_stream.rs", streamSupport), ("support_cursor.rs", cursorSupport),
   ("support.ts", browserSupport)]

/-- The settings of the kit, with paths inside its directory. -/
def kitConfig : Config where
  rust := { path := "generated/codec.rs", header := some "support_stream.rs", flavor := .async }
  typescript :=
    { path := "generated/codec.ts"
      header := some "support.ts"
      mappingPath := "generated/codec_mappings.js" }
  mappings := mappingTargets

/-- A file tree with the kit in a directory. -/
def installKit (dir : String) (t : FileTree) : FileTree :=
  kitFiles.foldl
    (fun t (name, text) => (t.putFile (Path.join dir name) text.toUTF8).toOption.getD t) t

/-- The lookup tables of the protocol, as the kit makes them. -/
def kitMappings : Except GeneratorError String :=
  let tree := installKit "" {}
  let (result, _) := (kitConfig.render protocol : Step (StateM FileTree) _).run.run tree
  result.map (·.mappings)

end TaggedWire.Starship
