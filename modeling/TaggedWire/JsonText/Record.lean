import TaggedWire.JsonText.Skip

/-! # Records

    A record is written as an object, its fields in any order, or as an
    array of its fields in declaration order. Fields that are left out keep
    what the draft of the record has for them. In an object, unknown keys
    are passed over and a known key may stand only once.

    A reader that meets a value of another kind reads as much of that value
    as it takes to see that it is one, and then reports the wrong shape.

    This is how a struct with derived `Deserialize` is read by `serde_json`:
    as a map or as a sequence, and with a second occurrence of a key refused
    if the struct has a field of that name.
-/

namespace TaggedWire.JsonText

/-! ## Values of another kind -/

/-- Read a value far enough to know its kind: a container by its first
    character, any other value to its end. -/
def readKind (s : List Char) : Except ReadError Unit :=
  match s with
  | [] => .error .truncated
  | c :: rest => do
      if c = 'n' then let _ ← afterWord "ull".toList rest
      else if c = 't' then let _ ← afterWord "rue".toList rest
      else if c = 'f' then let _ ← afterWord "alse".toList rest
      else if c = '"' then let _ ← readQuotedAfter "" rest
      else if c = '-' then let _ ← readNumber rest
      else if c.isDigit then let _ ← readNumber s
      else if c = '[' ∨ c = '{' then pure ()
      else .error .malformed

/-- The failure on meeting a value of another kind than asked for. -/
def unexpected {α : Type} : Reader α := fun s =>
  match readKind (skipBlanks s) with
  | .error e => .error e
  | .ok _ => .error .wrongShape

/-! ## Simple values -/

/-- A string. -/
def readString : Reader String := do
  match ← peek with
  | some '"' =>
      take
      readQuoted
  | _ => unexpected

/-- The word `null`. -/
def readNull : Reader Unit := do
  match ← peek with
  | some 'n' => word "null"
  | _ => unexpected

/-- A string or the word `null`. -/
def readOptionalString : Reader (Option String) := do
  match ← peek with
  | some 'n' =>
      word "null"
      return none
  | _ => return some (← readString)

/-! ## Arrays -/

/-- Whether another element follows in an array. It is then the next thing
    in the text; otherwise the closing bracket is. -/
def hasElement (first : Bool) : Reader Bool := do
  match ← peek with
  | none => throw .truncated
  | some c =>
      if c = ']' then return false
      else if first then return true
      else if c = ',' then
        take
        match ← peek with
        | none => throw .truncated
        | some d => if d = ']' then throw .malformed else return true
      else throw .malformed

/-- The elements of an array and its closing bracket, after those that were
    read already. -/
def readElements {α : Type} (element : Reader α) :
    Nat → Bool → List α → Reader (List α)
  | 0, _, _ => throw .malformed
  | fuel + 1, first, sofar => do
      if ← hasElement first then
        readElements element fuel false ((← element) :: sofar)
      else
        take
        return sofar.reverse

/-- An array of any number of elements. -/
def readArray {α : Type} (element : Reader α) : Reader (List α) := do
  match ← peek with
  | some '[' =>
      take
      readElements element ((← get).length + 1) true []
  | _ => unexpected

/-! ## Records -/

/-- A field of a record: its key, and a reader that enters its value into a
    draft of the record. -/
structure FieldReader (α : Type) where
  key : String
  enter : α → Reader α

/-- The fields of a record that is written as an array, and the closing
    bracket. -/
def readPositional {α : Type} : List (FieldReader α) → Bool → α → Reader α
  | [], _, draft => do
      expect ']'
      return draft
  | field :: fields, first, draft => do
      if ← hasElement first then
        readPositional fields false (← field.enter draft)
      else
        take
        return draft

/-- The key of a member. Only a string may stand in its place: anything else
    is not JSON, rather than a value of the wrong shape. -/
def readKey : Reader String := do
  expect '"'
  readQuoted

/-- Whether another member follows in an object. Its key is then the next
    thing in the text; otherwise the closing brace is. -/
def hasMember (first : Bool) : Reader Bool := do
  match ← peek with
  | none => throw .truncated
  | some c =>
      if c = '}' then return false
      else if first then
        if c = '"' then return true else throw .malformed
      else if c = ',' then
        take
        match ← peek with
        | none => throw .truncated
        | some d => if d = '"' then return true else throw .malformed
      else throw .malformed

/-- The members of an object and its closing brace. `seen` are the known
    keys that were there already. -/
def readMembers {α : Type} (fields : List (FieldReader α)) :
    Nat → Bool → List String → α → Reader α
  | 0, _, _, _ => throw .malformed
  | fuel + 1, first, seen, draft => do
      if ← hasMember first then
        let key ← readKey
        match fields.find? (·.key == key) with
        | some field =>
            if key ∈ seen then throw .wrongShape
            expect ':'
            readMembers fields fuel false (key :: seen) (← field.enter draft)
        | none =>
            expect ':'
            skipValue
            readMembers fields fuel false seen draft
      else
        take
        return draft

/-- A record, starting from a draft of it. -/
def readRecord {α : Type} (fields : List (FieldReader α)) (draft : α) : Reader α := do
  match ← peek with
  | some '[' =>
      take
      readPositional fields true draft
  | some '{' =>
      take
      readMembers fields ((← get).length + 1) true [] draft
  | _ => unexpected

/-! ## Whole texts -/

/-- What a reader makes of a whole text. Only blanks may follow. -/
def readAll {α : Type} (reader : Reader α) (text : String) : Except ReadError α :=
  match reader text.toList with
  | .error e => .error e
  | .ok (a, rest) => if skipBlanks rest = [] then .ok a else .error .malformed

end TaggedWire.JsonText
