/-! # Reading JSON text

    JSON is read strictly and in one pass, from the front of a list of
    characters. A reader gives its answer and the characters after it. The
    first problem decides, and there are three sorts of them:

      * the text ends too early;
      * the text is not JSON;
      * the text is JSON so far, but not what was asked for.

    Which texts are taken, and which of the three a refused text is, follows
    `serde_json::from_str`; the three are its categories of errors, and the
    wording and the position of an error are left out. As there:

      * only the four blanks of JSON are passed over, and nothing but blanks
        may stand behind the value: no comment, no comma before a closing
        bracket, no byte order mark;
      * a string that is read must pair its surrogates (`JsonText.Quoted`),
        and a number that is read must be within double precision
        (`JsonText.Number`), while a string or a number that is passed over
        need only be well formed;
      * a value that is passed over may be nested to any depth
        (`JsonText.Skip`), and no value that is read nests deeper than the
        limit of 128 on recursion, so the limit never shows.

    This module holds the pieces without structure: blanks, words and
    expected characters.
-/

namespace TaggedWire

/-- Why a text could not be read. -/
inductive ReadError where
  /-- The text ends where more is needed. -/
  | truncated
  /-- The text is not JSON. -/
  | malformed
  /-- The value has the wrong shape. -/
  | wrongShape
  deriving DecidableEq, Repr

namespace JsonText

/-- What a reader makes of a text: an answer and the rest of the text. -/
abbrev Reader := StateT (List Char) (Except ReadError)

/-! ## Blanks -/

/-- The four blanks of JSON. -/
def isJsonBlank (c : Char) : Bool := c == ' ' || c == '\t' || c == '\n' || c == '\r'

/-- A text without the blanks in front of it. -/
def skipBlanks (s : List Char) : List Char := s.dropWhile isJsonBlank

/-- Pass over blanks and look at the next character without taking it. -/
def peek : Reader (Option Char) := fun s => .ok ((skipBlanks s).head?, skipBlanks s)

/-- Take the next character, which is there. -/
def take : Reader Unit := fun s => .ok ((), s.tail)

/-- Pass over blanks and take the one character that may stand here. -/
def expect (c : Char) : Reader Unit := do
  match ← peek with
  | none => throw .truncated
  | some d => if d = c then take else throw .malformed

/-! ## Words -/

/-- The text after a given word. -/
def afterWord : List Char → List Char → Except ReadError (List Char)
  | [], s => .ok s
  | _ :: _, [] => .error .truncated
  | w :: word, c :: s => if c = w then afterWord word s else .error .malformed

/-- Take a given word. -/
def word (text : String) : Reader Unit := fun s => do
  return ((), ← afterWord text.toList s)

end JsonText

end TaggedWire
