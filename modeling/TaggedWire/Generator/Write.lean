import TaggedWire.Generator.Render

/-! # Writing

    The second half of a generator run. Outputs that already have the right
    content are left alone. The others are first written in full to
    temporary files beside them, and only when all of these are there do
    the renames begin, in order. When staging fails, the temporaries are
    removed again; when a rename fails, so are those that were still to
    come. Directories that were made on the way stay.
-/

namespace TaggedWire

/-- What is appended to the path of an output to name its temporary. -/
def temporarySuffix : String := ".wireforge-tmp"

/-- A temporary file and the output that it is to become. -/
structure Staged where
  temporary : String
  path : String
  deriving DecidableEq, Repr

/-- The outputs of a run with their texts, in the order of writing. -/
def Config.outputs (c : Config) (sources : GeneratedSources) : List (String × String) :=
  [(c.rust.path, sources.rust), (c.typescript.path, sources.typescript),
   (c.typescript.mappingPath, sources.mappings)]

section

variable {m : Type → Type} [Monad m] [MonadFiles m]

/-- Whether a file already has a text. -/
def isUnchanged (path text : String) : m Bool := do
  match ← MonadFiles.readText path with
  | .ok found => return found == text
  | .error _ => return false

/-- Make the directory that a path lies in. -/
def makeParent (path : String) : Step m Unit :=
  match Path.parent? path with
  | none => return ()
  | some dir =>
      if dir.isEmpty then return ()
      else Step.file .create dir (MonadFiles.makeDirectories dir)

/-- Write a text to the temporary file of a path. -/
def stage (path text : String) : Step m Staged := do
  makeParent path
  let temporary := path ++ temporarySuffix
  Step.file .write temporary (MonadFiles.writeText temporary text)
  return ⟨temporary, path⟩

/-- Remove temporary files, as far as that is possible. -/
def discard : List Staged → m Unit
  | [] => return ()
  | one :: rest => do
      let _ ← MonadFiles.removeFile (m := m) one.temporary
      discard rest

/-- Stage every output that is to change, after those in `staged`. -/
def stageAll (staged : List Staged) :
    List (String × String) → m (Except GeneratorError (List Staged))
  | [] => return .ok staged
  | (path, text) :: rest => do
      if ← isUnchanged path text then stageAll staged rest
      else
        match ← (stage path text).run with
        | .ok one => stageAll (staged ++ [one]) rest
        | .error e =>
            discard staged
            return .error e

/-- Move every temporary file to its output, in order. -/
def replaceAll : List Staged → m (Except GeneratorError Unit)
  | [] => return .ok ()
  | one :: rest => do
      match ← MonadFiles.renameFile one.temporary one.path with
      | .ok _ => replaceAll rest
      | .error cause =>
          discard (one :: rest)
          return .error (.file .replace one.path cause)

/-- Write the outputs of a run. -/
def Config.write (c : Config) (sources : GeneratedSources) : Step m Unit := do
  let staged ← ExceptT.mk (stageAll [] (c.outputs sources))
  ExceptT.mk (replaceAll staged)

/-- Render a schema and write the outputs. -/
def Config.run (c : Config) (s : Schema) : Step m GeneratedSources := do
  let sources ← c.render s
  c.write sources
  return sources

end

end TaggedWire
