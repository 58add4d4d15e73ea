import TaggedWire.Files.Path

/-! # A file tree

    Files and directories by their location, with a working directory that
    relative paths start from. The operations are those that a generator
    needs: read, write, make directories, rename, remove. Each of them
    walks its path name by name, so a missing directory and a file in the
    place of a directory are told apart, and each names its failure by its
    cause.

    A path that is unusable as a whole fails before the walk begins. A name
    that is too long fails where the walk looks for it, so what is wrong
    further up the path is found first.

    There are no links and no permissions.
-/

namespace TaggedWire

/-! ## Failures -/

/-- A cause for a failed file operation. -/
inductive FileError where
  | notFound
  | busy
  | alreadyExists
  | notDirectory
  | isDirectory
  /-- A path or a name in it has too many bytes. -/
  | nameTooLong
  /-- A path has a NUL in it. -/
  | nulInPath
  /-- The content of a file is not text. -/
  | notText
  /-- Anything that cannot happen in a `FileTree`. -/
  | other (reason : String)
  deriving DecidableEq, Repr

/-- The text of a cause. -/
def FileError.reason : FileError → String
  | .notFound => "No such file or directory (os error 2)"
  | .busy => "Device or resource busy (os error 16)"
  | .alreadyExists => "File exists (os error 17)"
  | .notDirectory => "Not a directory (os error 20)"
  | .isDirectory => "Is a directory (os error 21)"
  | .nameTooLong => "File name too long (os error 36)"
  | .nulInPath => "file name contained an unexpected NUL byte"
  | .notText => "stream did not contain valid UTF-8"
  | .other reason => reason

/-! ## Trees -/

/-- A location: the names on the way from the root. -/
abbrev Location := List String

/-- What is at a location. -/
inductive Entry where
  | file (bytes : ByteArray)
  | directory

/-- The files and directories below the root, and the working directory. -/
structure FileTree where
  entries : List (Location × Entry) := []
  cwd : Location := []

namespace FileTree

/-- What is at a location. The root is always a directory. -/
def get? (t : FileTree) (place : Location) : Option Entry :=
  if place = [] then some .directory else t.entries.lookup place

/-- The tree with nothing at a location. -/
def erase (t : FileTree) (place : Location) : FileTree :=
  { t with entries := t.entries.filter fun found => found.1 != place }

/-- The tree with something else at a location. -/
def insert (t : FileTree) (place : Location) (entry : Entry) : FileTree :=
  { t with entries := (place, entry) :: (t.erase place).entries }

@[simp] theorem cwd_erase (t : FileTree) (place : Location) : (t.erase place).cwd = t.cwd := rfl

@[simp] theorem cwd_insert (t : FileTree) (place : Location) (entry : Entry) :
    (t.insert place entry).cwd = t.cwd := rfl

theorem lookup_filter_ne (entries : List (Location × Entry)) (place other : Location) :
    (entries.filter fun found => found.1 != place).lookup other =
      if other = place then none else entries.lookup other := by
  induction entries with
  | nil => simp
  | cons found entries ih =>
      obtain ⟨here, entry⟩ := found
      by_cases asked : other = here
      · subst asked
        by_cases same : other = place
        · simp only [same, bne_self_eq_false, Bool.false_eq_true, not_false_eq_true,
            List.filter_cons_of_neg, if_true] at ih ⊢
          exact ih
        · simp [same]
      · have differ : (other == here) = false := beq_eq_false_iff_ne.mpr asked
        by_cases same : here = place
        · subst same
          simp [List.lookup_cons, differ, ih]
        · simp [same, List.lookup_cons, differ, ih]

theorem get?_erase (t : FileTree) (place other : Location) (h : place ≠ []) :
    (t.erase place).get? other = if other = place then none else t.get? other := by
  by_cases root : other = []
  · subst root
    simp [get?, Ne.symm h]
  · simp [get?, root, erase, lookup_filter_ne]

theorem get?_insert (t : FileTree) (place other : Location) (entry : Entry) (h : place ≠ []) :
    (t.insert place entry).get? other = if other = place then some entry else t.get? other := by
  by_cases root : other = []
  · subst root
    simp [get?, Ne.symm h]
  · by_cases asked : other = place
    · subst asked
      simp [get?, root, insert]
    · have differ : (other == place) = false := beq_eq_false_iff_ne.mpr asked
      simp [get?, root, insert, asked, List.lookup_cons, differ, erase, lookup_filter_ne]

/-! ## Walking -/

/-- Look for a name in a directory. -/
def lookUp (t : FileTree) (dir : Location) (name : String) :
    Except FileError (Option Entry) :=
  if Path.isLongName name then .error .nameTooLong else .ok (t.get? (dir ++ [name]))

/-- Go from a directory through one name to another directory. -/
def enter (t : FileTree) (dir : Location) (name : String) : Except FileError Location :=
  if name = "." then .ok dir
  else if name = ".." then .ok dir.dropLast
  else
    match t.lookUp dir name with
    | .error e => .error e
    | .ok none => .error .notFound
    | .ok (some (.file _)) => .error .notDirectory
    | .ok (some .directory) => .ok (dir ++ [name])

/-- Go from a directory through a list of names to another directory. -/
def walk (t : FileTree) (dir : Location) : List String → Except FileError Location
  | [] => .ok dir
  | name :: names =>
      match t.enter dir name with
      | .error e => .error e
      | .ok next => t.walk next names

/-- Where a path leads, up to its last name. -/
inductive Target where
  /-- A directory that exists, reached by `.`, `..` or the root. -/
  | directory (dir : Location)
  /-- A name in a directory that exists. `slash` if the path ends in a
      slash, and so means a directory. -/
  | named (dir : Location) (name : String) (slash : Bool)
  deriving DecidableEq, Repr

/-- Where a path starts. -/
def start (t : FileTree) (path : String) : Location :=
  if Path.isAbsolute path then [] else t.cwd

/-- Walk a path up to its last name. The empty path leads nowhere. -/
def locate (t : FileTree) (path : String) : Except FileError Target :=
  if Path.hasNul path then .error .nulInPath
  else if path.isEmpty then .error .notFound
  else if Path.isTooLong path then .error .nameTooLong
  else
    match (Path.names path).getLast? with
    | none => .ok (.directory [])
    | some last =>
        match t.walk (t.start path) (Path.names path).dropLast with
        | .error e => .error e
        | .ok dir =>
            if last = "." then .ok (.directory dir)
            else if last = ".." then .ok (.directory dir.dropLast)
            else .ok (.named dir last (Path.endsInSlash path))

/-! ## Reading -/

/-- What is at the end of a path. -/
def find (t : FileTree) (path : String) : Except FileError Entry :=
  match t.locate path with
  | .error e => .error e
  | .ok (.directory _) => .ok .directory
  | .ok (.named dir name slash) =>
      match t.lookUp dir name with
      | .error e => .error e
      | .ok none => .error .notFound
      | .ok (some .directory) => .ok .directory
      | .ok (some (.file bytes)) =>
          if slash then .error .notDirectory else .ok (.file bytes)

/-- Whether a path leads to a directory. -/
def isDirectory (t : FileTree) (path : String) : Bool :=
  match t.find path with
  | .ok .directory => true
  | _ => false

/-- The content of a file. -/
def readBytes (t : FileTree) (path : String) : Except FileError ByteArray :=
  match t.find path with
  | .error e => .error e
  | .ok .directory => .error .isDirectory
  | .ok (.file bytes) => .ok bytes

/-- The content of a text file. -/
def readText (t : FileTree) (path : String) : Except FileError String :=
  match t.readBytes path with
  | .error e => .error e
  | .ok bytes =>
      match String.fromUTF8? bytes with
      | some text => .ok text
      | none => .error .notText

/-! ## Writing -/

/-- Make a file or replace its content. -/
def writeBytes (t : FileTree) (path : String) (bytes : ByteArray) : Except FileError FileTree :=
  match t.locate path with
  | .error e => .error e
  | .ok (.directory _) => .error .isDirectory
  | .ok (.named dir name slash) =>
      if slash then .error .isDirectory
      else
        match t.lookUp dir name with
        | .error e => .error e
        | .ok (some .directory) => .error .isDirectory
        | .ok _ => .ok (t.insert (dir ++ [name]) (.file bytes))

/-- Make a directory in one that exists. -/
def makeDirectory (t : FileTree) (path : String) : Except FileError FileTree :=
  match t.locate path with
  | .error e => .error e
  | .ok (.directory _) => .error .alreadyExists
  | .ok (.named dir name _) =>
      match t.lookUp dir name with
      | .error e => .error e
      | .ok (some _) => .error .alreadyExists
      | .ok none => .ok (t.insert (dir ++ [name]) .directory)

/-- Make the directory at a path, where a directory in its place will do. -/
def ensureDirectory (t : FileTree) (path : String) : Except FileError Unit × FileTree :=
  match t.makeDirectory path with
  | .ok made => (.ok (), made)
  | .error e => if t.isDirectory path then (.ok (), t) else (.error e, t)

/-- Make the first directory of a list, after the later ones if need be.
    What was made stays when a later step fails. -/
def makeChain (t : FileTree) : List String → Except FileError Unit × FileTree
  | [] => (.error .notFound, t)
  | path :: above =>
      if path.isEmpty then (.ok (), t)
      else
        match t.makeDirectory path with
        | .ok made => (.ok (), made)
        | .error .notFound =>
            match t.makeChain above with
            | (.error e, t) => (.error e, t)
            | (.ok _, t) => t.ensureDirectory path
        | .error e => if t.isDirectory path then (.ok (), t) else (.error e, t)

/-- Make a directory and all directories above it. -/
def makeDirectories (t : FileTree) (path : String) : Except FileError Unit × FileTree :=
  t.makeChain (path :: Path.parents path)

/-! ## Renaming and removing -/

/-- Move a file to another path, in the place of a file that may be there.
    Both paths are walked before either of the last names is looked for. -/
def renameFile (t : FileTree) (source target : String) : Except FileError FileTree :=
  match t.locate source, t.locate target with
  | .error e, _ => .error e
  | _, .error e => .error e
  | .ok (.directory _), _ => .error .busy
  | _, .ok (.directory _) => .error .busy
  | .ok (.named dir name slash), .ok (.named dir' name' slash') =>
      match t.lookUp dir name, t.lookUp dir' name' with
      | .error e, _ => .error e
      | .ok none, _ => .error .notFound
      | _, .error e => .error e
      | .ok (some .directory), _ => .error .isDirectory
      | .ok (some (.file bytes)), .ok found =>
          if slash ∨ slash' then .error .notDirectory
          else
            match found with
            | some .directory => .error .isDirectory
            | _ => .ok ((t.erase (dir ++ [name])).insert (dir' ++ [name']) (.file bytes))

/-- Remove a file. -/
def removeFile (t : FileTree) (path : String) : Except FileError FileTree :=
  match t.locate path with
  | .error e => .error e
  | .ok (.directory _) => .error .isDirectory
  | .ok (.named dir name slash) =>
      match t.lookUp dir name with
      | .error e => .error e
      | .ok none => .error .notFound
      | .ok (some .directory) => .error .isDirectory
      | .ok (some (.file _)) =>
          if slash then .error .notDirectory else .ok (t.erase (dir ++ [name]))

/-- Remove a file, or a directory with everything in it. -/
def removeTree (t : FileTree) (path : String) : Except FileError FileTree :=
  match t.locate path with
  | .error e => .error e
  | .ok (.directory _) => .error .busy
  | .ok (.named dir name slash) =>
      match t.lookUp dir name with
      | .error e => .error e
      | .ok none => .error .notFound
      | .ok (some (.file _)) =>
          if slash then .error .notDirectory else .ok (t.erase (dir ++ [name]))
      | .ok (some .directory) =>
          .ok { t with
            entries := t.entries.filter fun found => !(dir ++ [name]).isPrefixOf found.1 }

/-! ## Setting up and listing -/

/-- Put a file at a path, with the directories above it. -/
def putFile (t : FileTree) (path : String) (bytes : ByteArray) : Except FileError FileTree :=
  match Path.parent? path with
  | none => t.writeBytes path bytes
  | some dir =>
      match t.makeDirectories dir with
      | (.error e, _) => .error e
      | (.ok _, t) => t.writeBytes path bytes

/-- The names and entries below the working directory. -/
def listing (t : FileTree) : List (Location × Entry) :=
  t.entries.filterMap fun (place, entry) =>
    if t.cwd.isPrefixOf place ∧ place ≠ t.cwd then some (place.drop t.cwd.length, entry)
    else none

end FileTree

end TaggedWire
