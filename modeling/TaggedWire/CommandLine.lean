import TaggedWire.Starship.Kit

/-! # The command line

    Generates the starship codecs.

      * without arguments: with the settings of the kit, into its directory;
      * with a path: with the configuration file at that path, relative to
        the directory that it lies in;
      * with `--mappings-from` and a path: print the kit's lookup tables for
        the Rust codec at that path.

    Further arguments are ignored.
-/

namespace TaggedWire

/-- What the command line asks for. -/
inductive Command where
  /-- Generate with the settings of the kit. -/
  | generateKit
  /-- Generate with a configuration file. -/
  | generate (config : String)
  /-- Print the lookup tables of an existing file. -/
  | mappingsFrom (source : String)
  /-- `--mappings-from` without a path. -/
  | missingPath
  deriving DecidableEq, Repr

/-- Read the arguments. -/
def Command.ofArgs : List String → Command
  | [] => .generateKit
  | ["--mappings-from"] => .missingPath
  | "--mappings-from" :: source :: _ => .mappingsFrom source
  | config :: _ => .generate config

/-- What a command leaves behind, apart from files. -/
structure Outcome where
  exitCode : UInt8 := 0
  /-- Written to the standard output. -/
  printed : String := ""
  /-- Written to the standard error output. -/
  complaint : String := ""
  deriving DecidableEq, Repr

/-- A command that failed. -/
def Outcome.failed (complaint : String) : Outcome := { exitCode := 1, complaint }

section

variable {m : Type → Type} [Monad m] [MonadFiles m]

/-- The configuration in a file, with its paths relative to the directory
    that the file lies in. -/
def Config.load (path : String) : Step m Config := do
  let c ← Config.ofFile path
  match Path.parent? path with
  | some dir => return c.relativeTo dir
  | none => return c

/-- Generate the starship codecs. Nothing is printed. -/
def generateStarship (c : Config) : Step m String := do
  let _ ← c.run Starship.protocol
  return ""

/-- The steps of a command that can be carried out. `kit` is the directory
    of the kit. -/
def Command.steps (kit : String) : Command → Option (Step m String)
  | .generateKit => some (generateStarship (Starship.kitConfig.relativeTo kit))
  | .generate config => some do generateStarship (← Config.load config)
  | .mappingsFrom source => some (Starship.kitConfig.mappingsFromFile source)
  | .missingPath => none

/-- Carry out a command. -/
def Command.run (kit : String) (command : Command) : m Outcome := do
  match command.steps (m := m) kit with
  | none => return .failed "--mappings-from needs a path"
  | some steps =>
      match ← steps.run with
      | .ok printed => return { printed }
      | .error e => return .failed e.message

end

end TaggedWire
