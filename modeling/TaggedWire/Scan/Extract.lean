import TaggedWire.Scan.State

/-! # Extraction

    Three questions to a source text, each a run of the automaton:

      * `captureBlock`: the text in braces after an anchor;
      * `splitNames`: the names in a list, in order;
      * `orderedNames`: the names in the block after an anchor.
-/

namespace TaggedWire

/-- A cause for a failed extraction. -/
inductive ScanError where
  /-- The text ended before the anchor was matched. -/
  | anchorNotFound (anchor : String)
  /-- The text ended inside the block. -/
  | unclosedBlock (anchor : String)
  /-- The name list ended inside something else. -/
  | unterminatedNames (inside : ScanKind)
  deriving DecidableEq, Repr

/-- The text of an extraction error. -/
def ScanError.message : ScanError → String
  | .anchorNotFound anchor => s!"anchor `{anchor}` not found"
  | .unclosedBlock anchor => s!"block after anchor `{anchor}` is never closed"
  | .unterminatedNames inside => s!"names end inside an unterminated {inside.label}"

/-- Wait for an anchor, then capture a block in braces. -/
def blockAfter (anchor : String) : ScanState :=
  .awaiting anchor (.capturing '{' '}' .empty)

/-- The text of the block in braces that starts right after an anchor. The
    anchor includes the opening brace. -/
def captureBlock (source anchor : String) : Except ScanError String :=
  match (blockAfter anchor).run source with
  | .held (some captured) => .ok captured
  | .anchor .. => .error (.anchorNotFound anchor)
  | _ => .error (.unclosedBlock anchor)

/-- The names of a comma-separated list. The last name needs no comma after
    it; empty names between commas count. -/
def splitNames (text : String) : Except ScanError (List String) :=
  match ScanState.noNames.run text with
  | .names names current => .ok (if current.isEmpty then names else names ++ [current])
  | other => .error (.unterminatedNames other.kind)

/-- The names declared in the block after an anchor, in order. -/
def orderedNames (source anchor : String) : Except ScanError (List String) := do
  splitNames (← captureBlock source anchor)

end TaggedWire
