import TaggedWire.Files.Tree
import TaggedWire.JsonText.Basic
import TaggedWire.Scan.Extract

/-! # Why a generator run failed -/

namespace TaggedWire

/-- What was being done to a file. -/
inductive FileAction where
  | read
  | create
  | write
  | replace
  deriving DecidableEq, Repr

/-- The word for a file action in messages. -/
def FileAction.describe : FileAction → String
  | .read => "read"
  | .create => "create"
  | .write => "write"
  | .replace => "replace"

/-- A cause for a failed generator run. -/
inductive GeneratorError where
  /-- The names of a lookup table were not found. -/
  | scan (cause : ScanError)
  /-- The configuration cannot be read. -/
  | config (cause : ReadError)
  /-- A file operation failed. -/
  | file (action : FileAction) (path : String) (cause : FileError)
  /-- Something has more entries than a byte can number. -/
  | tagOverflow (name : String) (count : Nat)
  /-- Lookup tables were asked for without saying which. -/
  | noMappingTargets
  deriving DecidableEq, Repr

/-- The text for a configuration that cannot be read. -/
def configProblem : ReadError → String
  | .truncated => "the text ends too early"
  | .malformed => "the text is not JSON"
  | .wrongShape => "a value has the wrong shape"

/-- The text of a generator error. -/
def GeneratorError.message : GeneratorError → String
  | .scan cause => cause.message
  | .config cause => s!"invalid config: {configProblem cause}"
  | .file action path cause => s!"failed to {action.describe} {path}: {cause.reason}"
  | .tagOverflow name count =>
      s!"`{name}` declares {count} entries, more than fit in one byte"
  | .noMappingTargets => "no mapping targets configured"

end TaggedWire
