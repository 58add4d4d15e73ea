import TaggedWire.Text.Blank

/-! # The extraction automaton

    Source text is scanned one character at a time by a small automaton
    whose states carry the state that follows them:

      * `anchor` waits for a literal and then hands over;
      * `block` captures text up to the delimiter that closes it, minding
        nested delimiters and quoted text, and hands the capture over;
      * `comment` skips to the end of a block comment and hands over;
      * `held` keeps a captured text and reads no further;
      * `names` splits at commas, leaving out blanks, comments and the
        payloads in parentheses or braces.

    The anchor does not look back: a character that breaks a partial match
    is not tried again as the start of a new one. A literal that overlaps
    itself can therefore be missed.
-/

namespace TaggedWire

/-! ## Blocks -/

/-- The kinds of quoted text inside a block. -/
inductive Quote where
  | single
  | double
  deriving DecidableEq, Repr

namespace Quote

/-- The character on both sides of quoted text. -/
def mark : Quote → Char
  | .single => '\''
  | .double => '"'

/-- The kind of quoted text that a character opens. -/
def openedBy? (c : Char) : Option Quote :=
  if c = '\'' then some .single
  else if c = '"' then some .double
  else none

end Quote

/-- A block being captured: its delimiters, how deep nested delimiters go,
    the quoted text it is in and whether a backslash precedes, and the text
    so far. -/
structure Block where
  opening : Char
  closing : Char
  depth : Nat := 0
  quote : Option Quote := none
  escaped : Bool := false
  captured : String := ""
  deriving DecidableEq, Repr

namespace Block

/-- Whether a character ends the block: the closing delimiter, outside of
    quoted text and not matching a delimiter opened inside. -/
def endsAt (b : Block) (c : Char) : Bool :=
  b.quote.isNone && c != b.opening && c == b.closing && b.depth == 0

/-- The nesting depth after a character. Delimiters in quoted text do not
    count. -/
def depthAfter (b : Block) (c : Char) : Nat :=
  if b.quote.isSome then b.depth
  else if c = b.opening then b.depth + 1
  else if c = b.closing then b.depth - 1
  else b.depth

/-- The quoted text after a character, and whether the next character is
    escaped. A backslash escapes exactly one character, and only inside
    quoted text. -/
def quoteAfter (b : Block) (c : Char) : Option Quote × Bool :=
  match b.quote with
  | none => (Quote.openedBy? c, b.escaped)
  | some q =>
      if b.escaped then (some q, false)
      else if c = '\\' then (some q, true)
      else if c = q.mark then (none, false)
      else (some q, false)

/-- The block after a character that does not end it. -/
def push (b : Block) (c : Char) : Block :=
  { b with
    depth := b.depthAfter c
    quote := (b.quoteAfter c).1
    escaped := (b.quoteAfter c).2
    captured := b.captured.push c }

end Block

/-! ## States -/

/-- A state of the automaton, with the states that follow it. -/
inductive ScanState where
  /-- Waiting for a literal of which `progress` characters are matched. -/
  | anchor (literal : List Char) (progress : Nat) (next : ScanState)
  /-- Capturing a block. -/
  | block (inside : Block) (next : ScanState)
  /-- Skipping a comment; `armed` right after a star. -/
  | comment (armed : Bool) (next : ScanState)
  /-- Done, with the captured text if there was one. -/
  | held (text : Option String)
  /-- Collecting names. -/
  | names (found : List String) (current : String)
  deriving DecidableEq, Repr

/-- The kinds of states. -/
inductive ScanKind where
  | anchor
  | block
  | comment
  | held
  | names
  deriving DecidableEq, Repr

/-- The word for a kind of state in messages. -/
def ScanKind.label : ScanKind → String
  | .anchor => "anchor"
  | .block => "block"
  | .comment => "comment"
  | .held => "held value"
  | .names => "name list"

namespace ScanState

/-- The kind of a state. -/
def kind : ScanState → ScanKind
  | .anchor .. => .anchor
  | .block .. => .block
  | .comment .. => .comment
  | .held .. => .held
  | .names .. => .names

/-- Whether a state reads no further. -/
def isTerminal (s : ScanState) : Bool := s.kind == .held

/-! ### Starting states -/

/-- Wait for a literal. The empty literal is already there. -/
def awaiting (literal : String) (next : ScanState) : ScanState :=
  if literal.toList = [] then next else .anchor literal.toList 0 next

/-- Capture a block from just after its opening delimiter. -/
def capturing (opening closing : Char) (next : ScanState) : ScanState :=
  .block { opening, closing } next

/-- Skip a comment from just after its first slash. -/
def skipping (next : ScanState) : ScanState := .comment false next

/-- Nothing captured yet. -/
def empty : ScanState := .held none

/-- No names yet. -/
def noNames : ScanState := .names [] ""

/-! ### Transitions -/

/-- What a state does with captured text: a held value takes it, any other
    state drops it. -/
def receive (s : ScanState) (captured : String) : ScanState :=
  match s with
  | .held _ => .held (some captured)
  | other => other

/-- One character of a name list. -/
def advanceNames (found : List String) (current : String) (c : Char) : ScanState :=
  if isBlank c then .names found current
  else if c = ',' then .names (found ++ [current]) ""
  else if c = '/' then skipping (.names found current)
  else if c = '(' then capturing '(' ')' (.names found current)
  else if c = '{' then capturing '{' '}' (.names found current)
  else .names found (current.push c)

/-- The state after one character. -/
def advance (s : ScanState) (c : Char) : ScanState :=
  match s with
  | .anchor literal progress next =>
      if literal[progress]? = some c then
        if progress + 1 = literal.length then next
        else .anchor literal (progress + 1) next
      else .anchor literal 0 next
  | .block b next =>
      if b.endsAt c then next.receive b.captured else .block (b.push c) next
  | .comment armed next =>
      if c = '*' then .comment true next
      else if c = '/' && armed then next
      else .comment false next
  | .held text => .held text
  | .names found current => advanceNames found current c

/-- The state after a list of characters. A held value absorbs the rest. -/
def runChars (s : ScanState) (text : List Char) : ScanState := text.foldl advance s

/-- The state after a text. -/
def run (s : ScanState) (text : String) : ScanState := s.runChars text.toList

/-! ### Running -/

@[simp] theorem runChars_nil (s : ScanState) : s.runChars [] = s := rfl

@[simp] theorem runChars_cons (s : ScanState) (c : Char) (text : List Char) :
    s.runChars (c :: text) = (s.advance c).runChars text := rfl

theorem runChars_append (s : ScanState) (t u : List Char) :
    s.runChars (t ++ u) = (s.runChars t).runChars u := List.foldl_append

@[simp] theorem runChars_held (text : Option String) (rest : List Char) :
    (held text).runChars rest = held text := by
  induction rest with
  | nil => rfl
  | cons c rest ih => exact ih

end ScanState

end TaggedWire
