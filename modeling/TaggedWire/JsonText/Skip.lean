import TaggedWire.JsonText.Number
import TaggedWire.JsonText.Quoted

/-! # Passing over a value

    The value of an unknown key may be any JSON value, nested to any depth.
    The containers that are open around the place in the text are kept in a
    list, so that depth costs no recursion.

    Every step takes at least one character, so the length of the text
    bounds the number of steps.
-/

namespace TaggedWire.JsonText

/-- The containers of JSON. -/
inductive Container where
  | array
  | object
  deriving DecidableEq, Repr

/-- The character that closes a container. -/
def Container.closing : Container → Char
  | .array => ']'
  | .object => '}'

/-- The text after a value that is no container. -/
def skipScalar (s : List Char) : Except ReadError (List Char) :=
  match s with
  | [] => .error .truncated
  | c :: rest =>
      if c = 'n' then afterWord "ull".toList rest
      else if c = 't' then afterWord "rue".toList rest
      else if c = 'f' then afterWord "alse".toList rest
      else if c = '"' then skipQuoted rest
      else if c = '-' then skipNumber rest
      else if c.isDigit then skipNumber s
      else .error .malformed

/-- The text after a key and its colon. -/
def skipKey (s : List Char) : Except ReadError (List Char) :=
  match skipBlanks s with
  | [] => .error .truncated
  | c :: rest =>
      if c ≠ '"' then .error .malformed
      else
        match skipQuoted rest with
        | .error e => .error e
        | .ok after =>
            match skipBlanks after with
            | [] => .error .truncated
            | d :: rest => if d = ':' then .ok rest else .error .malformed

/-- The text at the value of the next item of a container. -/
def skipToItem (container : Container) (s : List Char) : Except ReadError (List Char) :=
  match container with
  | .array => .ok s
  | .object => skipKey s

/-- A place inside nested containers. -/
inductive Place where
  /-- A value comes next. -/
  | atValue
  /-- A container was just opened. -/
  | opened
  /-- A value just ended. -/
  | ended
  deriving DecidableEq, Repr

/-- One step: the place, the open containers and the text after it. -/
def skipStep (place : Place) (around : List Container) (s : List Char) :
    Except ReadError (Place × List Container × List Char) :=
  match place, around with
  | .atValue, _ =>
      match skipBlanks s with
      | '[' :: rest => .ok (.opened, .array :: around, rest)
      | '{' :: rest => .ok (.opened, .object :: around, rest)
      | here =>
          match skipScalar here with
          | .error e => .error e
          | .ok rest => .ok (.ended, around, rest)
  | .opened, container :: outer =>
      match skipBlanks s with
      | [] => .error .truncated
      | c :: rest =>
          if c = container.closing then .ok (.ended, outer, rest)
          else
            match skipToItem container (c :: rest) with
            | .error e => .error e
            | .ok rest => .ok (.atValue, around, rest)
  | .ended, container :: outer =>
      match skipBlanks s with
      | [] => .error .truncated
      | c :: rest =>
          if c = container.closing then .ok (.ended, outer, rest)
          else if c = ',' then
            match skipToItem container rest with
            | .error e => .error e
            | .ok rest => .ok (.atValue, around, rest)
          else .error .malformed
  | .opened, [] => .ok (.ended, [], s)
  | .ended, [] => .ok (.ended, [], s)

/-- Steps until the outermost value has ended. -/
def skipSteps : Nat → Place → List Container → List Char → Except ReadError (List Char)
  | _, .ended, [], s => .ok s
  | 0, _, _, _ => .error .malformed
  | fuel + 1, place, around, s =>
      match skipStep place around s with
      | .error e => .error e
      | .ok (place, around, rest) => skipSteps fuel place around rest

/-- Pass over a value. Two steps for each character, and one more, are
    enough. -/
def skipValue : Reader Unit := fun s =>
  match skipSteps (2 * s.length + 1) .atValue [] s with
  | .error e => .error e
  | .ok rest => .ok ((), rest)

end TaggedWire.JsonText
