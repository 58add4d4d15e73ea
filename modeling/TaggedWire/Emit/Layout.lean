/-! # Source text as lines

    An emitter gives a list of `Line`s. A line may open a block in braces or
    close one; the layout indents every line by the number of blocks that
    are open around it and joins the lines into a text.

    `block` is the way to make opening and closing lines: what it gives
    closes every block that it opens (`openBlocks_block`).
-/

namespace TaggedWire

/-! ## Lines -/

/-- One line of source text. -/
inductive Line where
  /-- A line of its own. -/
  | plain (text : String)
  /-- A line that opens a block in braces. -/
  | opening (head : String)
  /-- The line that closes the innermost block. -/
  | closing
  /-- An empty line. -/
  | blank
  deriving DecidableEq, Repr

/-- A block in braces: its head, its lines, its end. -/
def block (head : String) (body : List Line) : List Line :=
  .opening head :: (body ++ [.closing])

/-! ## Layout -/

/-- The blank space in front of a line inside `depth` blocks. -/
def indentation (depth : Nat) : String := "".pushn ' ' (4 * depth)

/-- The lines as text, the first of them inside `depth` blocks. -/
def renderLines : Nat → List Line → List String
  | _, [] => []
  | depth, .plain text :: rest =>
      s!"{indentation depth}{text}\n" :: renderLines depth rest
  | depth, .opening head :: rest =>
      s!"{indentation depth}{head} \x7b\n" :: renderLines (depth + 1) rest
  | depth, .closing :: rest =>
      s!"{indentation (depth - 1)}\x7d\n" :: renderLines (depth - 1) rest
  | depth, .blank :: rest => "\n" :: renderLines depth rest

/-- The text of a list of lines. -/
def layout (lines : List Line) : String := String.join (renderLines 0 lines)

/-! ## Depth -/

/-- How many blocks are open after a list of lines that starts inside
    `depth` blocks. -/
def openBlocks : Nat → List Line → Nat
  | depth, [] => depth
  | depth, .opening _ :: rest => openBlocks (depth + 1) rest
  | depth, .closing :: rest => openBlocks (depth - 1) rest
  | depth, .plain _ :: rest => openBlocks depth rest
  | depth, .blank :: rest => openBlocks depth rest

theorem openBlocks_append (depth : Nat) (a b : List Line) :
    openBlocks depth (a ++ b) = openBlocks (openBlocks depth a) b := by
  induction a generalizing depth with
  | nil => rfl
  | cons line a ih => cases line <;> simp [openBlocks, ih]

/-- A block around lines that close what they open does the same. -/
theorem openBlocks_block {head : String} {body : List Line} {depth : Nat}
    (h : openBlocks (depth + 1) body = depth + 1) :
    openBlocks depth (block head body) = depth := by
  simp [block, openBlocks, openBlocks_append, h]

theorem renderLines_append (depth : Nat) (a b : List Line) :
    renderLines depth (a ++ b) = renderLines depth a ++ renderLines (openBlocks depth a) b := by
  induction a generalizing depth with
  | nil => rfl
  | cons line a ih => cases line <;> simp [renderLines, openBlocks, ih]

end TaggedWire
