import TaggedWire.CommandLine

/-! # The program

    The command line on the files of this computer. The kit is expected in
    the directory of the program.
-/

namespace TaggedWire

/-- The number that the operating system gives to a failure. -/
def systemCode? : IO.Error → Option UInt32
  | .noFileOrDirectory _ code _ => some code
  | .alreadyExists _ code _ => some code
  | .inappropriateType _ code _ => some code
  | .invalidArgument _ code _ => some code
  | .resourceBusy code _ => some code
  | _ => none

/-- The cause of a failure of the operating system. -/
def FileError.ofIO (e : IO.Error) : FileError :=
  match systemCode? e with
  | some 2 => .notFound
  | some 16 => .busy
  | some 17 => .alreadyExists
  | some 20 => .notDirectory
  | some 21 => .isDirectory
  | some 36 => .nameTooLong
  | _ => .other (toString e)

/-- Do something with the file at a path and say how it went. -/
def tryFile {α : Type} (path : String) (act : IO α) : IO (Except FileError α) := do
  if Path.hasNul path then return .error .nulInPath
  match ← act.toBaseIO with
  | .ok a => return .ok a
  | .error e => return .error (.ofIO e)

/-- A text file; its bytes may be no text. -/
def readTextFile (path : String) : IO (Except FileError String) := do
  match ← tryFile path (IO.FS.readBinFile path) with
  | .error e => return .error e
  | .ok bytes =>
      match String.fromUTF8? bytes with
      | some text => return .ok text
      | none => return .error .notText

/-- The operations on the files of this computer. -/
instance : MonadFiles IO where
  readText := readTextFile
  writeText path text := tryFile path (IO.FS.writeFile path text)
  makeDirectories path := tryFile path (IO.FS.createDirAll path)
  renameFile source target := tryFile target (IO.FS.rename source target)
  removeFile path := tryFile path (IO.FS.removeFile path)

end TaggedWire

/-- Carry out the command that the arguments ask for. -/
def main (args : List String) : IO UInt32 := do
  let kit := (← IO.appDir).toString
  let outcome ← (TaggedWire.Command.ofArgs args).run (m := IO) kit
  IO.print outcome.printed
  if outcome.exitCode ≠ 0 then IO.eprintln s!"error: {outcome.complaint}"
  return outcome.exitCode.toUInt32
