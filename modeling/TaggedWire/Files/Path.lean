/-! # Paths

    A path is a text with slashes in it, kept as it was written. A path
    that starts with a slash is absolute; any other is relative to some
    directory, and `join` puts the two together.

    The *steps* of a path are the parts between its slashes that lead
    anywhere: empty parts do not, and neither does a single dot except as
    the very first part. `parents` cuts the path off after each of its
    steps.

    Not every text can be the path of a file: `isTooLong`, `isLongName` and
    `hasNul` are the limits.
-/

namespace TaggedWire.Path

/-! ## Limits -/

/-- The longest path, in bytes. -/
def maxPathBytes : Nat := 4095

/-- The longest name in a directory, in bytes. -/
def maxNameBytes : Nat := 255

/-- Whether a path is too long as a whole. -/
def isTooLong (path : String) : Bool := path.utf8ByteSize > maxPathBytes

/-- Whether a name is too long to stand in a directory. -/
def isLongName (name : String) : Bool := name.utf8ByteSize > maxNameBytes

/-- Whether a path has a NUL in it, which no file name can hold. -/
def hasNul (path : String) : Bool := path.toList.contains '\x00'

/-! ## Joining -/

/-- Whether a path starts at the root. -/
def isAbsolute (path : String) : Bool := path.toList.head? == some '/'

/-- Whether a path ends in a slash. -/
def endsInSlash (path : String) : Bool := path.toList.getLast? == some '/'

/-- A path seen from inside a directory. -/
def join (dir path : String) : String :=
  if isAbsolute path then path
  else if dir.isEmpty || endsInSlash dir then dir ++ path
  else dir ++ "/" ++ path

/-! ## Parts -/

/-- The parts between the slashes of a text. -/
def splitChars : List Char → List (List Char)
  | [] => [[]]
  | c :: rest =>
      if c = '/' then [] :: splitChars rest
      else
        match splitChars rest with
        | [] => [[c]]
        | part :: parts => (c :: part) :: parts

/-- The parts between the slashes of a path. -/
def parts (path : String) : List String := (splitChars path.toList).map String.ofList

/-- The parts that are not empty: the names that a path goes through. -/
def names (path : String) : List String := (parts path).filter (!·.isEmpty)

/-- Whether the part at a position leads anywhere. -/
def isStep (part : String) (position : Nat) : Bool :=
  !part.isEmpty && (part != "." || position == 0)

/-- The path cut off after each of its steps, longest first. -/
def cuts (path : String) : List String :=
  let parts := parts path
  let steps := parts.zipIdx.filter fun (part, position) => isStep part position
  steps.reverse.map fun (_, position) => "/".intercalate (parts.take (position + 1))

/-- The directories above a path, nearest first. The last of them is the
    root, or the directory that a relative path starts from, which is the
    empty path. A path without steps has none. -/
def parents (path : String) : List String :=
  match cuts path with
  | [] => []
  | _ :: above => above ++ [if isAbsolute path then "/" else ""]

/-- The directory that a path lies in. -/
def parent? (path : String) : Option String := (parents path).head?

end TaggedWire.Path
