import TaggedWire.Files.Tree

/-! # Access to files

    What a generator asks of the place where its files are. The generator
    is written against `MonadFiles`, so the same steps run on a `FileTree`
    and on the files of a computer.

    On a `FileTree` a write, a rename or a removal happens as a whole or not
    at all (`FileTree.attempt`). A write that fails half-way and leaves the
    beginning of its text behind, on a full disk for one, is outside this
    model, and nothing is said about what it leaves. Making directories is
    the one operation that can stop in the middle: the directories it made
    before it failed stay.
-/

namespace TaggedWire

/-- File operations, each of which says how it went. -/
class MonadFiles (m : Type → Type) where
  /-- The content of a text file. -/
  readText : String → m (Except FileError String)
  /-- Make a file with a text, or replace its content. -/
  writeText : String → String → m (Except FileError Unit)
  /-- Make a directory and all directories above it. -/
  makeDirectories : String → m (Except FileError Unit)
  /-- Move a file to another path, replacing a file there. -/
  renameFile : String → String → m (Except FileError Unit)
  /-- Remove a file. -/
  removeFile : String → m (Except FileError Unit)

namespace FileTree

/-- A change that either happens or leaves the tree as it is. It never
    happens in part. -/
def attempt (change : FileTree → Except FileError FileTree) :
    StateM FileTree (Except FileError Unit) := fun t =>
  match change t with
  | .ok changed => (.ok (), changed)
  | .error e => (.error e, t)

/-- The operations on a file tree. -/
instance : MonadFiles (StateM FileTree) where
  readText path := fun t => (t.readText path, t)
  writeText path text := attempt (·.writeBytes path text.toUTF8)
  makeDirectories path := fun t => t.makeDirectories path
  renameFile source target := attempt (·.renameFile source target)
  removeFile path := attempt (·.removeFile path)

end FileTree

end TaggedWire
