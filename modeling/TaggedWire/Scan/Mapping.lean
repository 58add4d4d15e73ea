import TaggedWire.Scan.Extract

/-! # Lookup tables

    A table numbers names by their position. It is written as a JavaScript
    object with one placeholder per name and two maps, from names to
    numbers and back. The names come out of generated source text, so a
    table agrees with the wire exactly as long as that text lists its
    variants in tag order.
-/

namespace TaggedWire

/-! ## Targets -/

/-- Where to find the names of a table, and what to call it. -/
structure MappingTarget where
  anchor : String
  exportName : String
  deriving DecidableEq, Repr

/-- The target anchored on the declaration of a type. The leading keywords
    keep a longer name with the same ending from matching. -/
def MappingTarget.forDeclaration (declared exportName : String) : MappingTarget :=
  ⟨s!"pub enum {declared} \x7b", exportName⟩

/-! ## Tables -/

/-- Names in order, under one exported name. -/
structure MappingTable where
  exportName : String
  names : List String
  deriving DecidableEq, Repr

namespace MappingTable

/-- The first position of a name. -/
def idOf? (t : MappingTable) (name : String) : Option Nat :=
  t.names.findIdx? (· == name)

/-- The name at a position. -/
def nameOf? (t : MappingTable) (id : Nat) : Option String := t.names[id]?

/-- The placeholder object of a table. -/
def renderNames (t : MappingTable) : String :=
  String.join (t.names.map fun name => s!"{name}:\x7b\x7d,")

/-- The entries of the map from names to numbers. -/
def renderToId (t : MappingTable) : String :=
  String.join (t.names.zipIdx.map fun (name, id) => s!"[{t.exportName}.{name},{id}],")

/-- The entries of the map from numbers to names. -/
def renderFromId (t : MappingTable) : String :=
  String.join (t.names.zipIdx.map fun (name, id) => s!"[{id},{t.exportName}.{name}],")

/-- A table as JavaScript. -/
def render (t : MappingTable) : String :=
  s!"export const {t.exportName} = \x7b {t.renderNames} \x7d;\n" ++
    s!"{t.exportName}.to_id = new Map([ {t.renderToId} ]);\n" ++
    s!"{t.exportName}.from_id = new Map([ {t.renderFromId} ]);\n\n"

end MappingTable

/-! ## From source text -/

/-- The table of one target. -/
def MappingTarget.extract (source : String) (target : MappingTarget) :
    Except ScanError MappingTable := do
  return ⟨target.exportName, ← orderedNames source target.anchor⟩

/-- The tables of a list of targets, or the first failure. -/
def extractTables (source : String) : List MappingTarget → Except ScanError (List MappingTable)
  | [] => return []
  | target :: targets => do
      let table ← target.extract source
      let tables ← extractTables source targets
      return table :: tables

/-- The text of the tables of a list of targets. -/
def renderMappings (source : String) (targets : List MappingTarget) :
    Except ScanError String := do
  return String.join ((← extractTables source targets).map MappingTable.render)

end TaggedWire
