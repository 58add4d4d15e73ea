import TaggedWire.JsonText.Basic

/-! # JSON strings

    A string is read from just after its opening quote. Control characters
    have to be escaped; any other character may stand for itself. A code
    point above the basic plane is written as two `\u` escapes, a high
    surrogate and a low one.

    A string that is read for its content refuses a surrogate that stands
    alone. A string that is only passed over does not look at that, since
    every four hex digits are well formed.
-/

namespace TaggedWire.JsonText

/-! ## Escapes -/

/-- The value of a hex digit. -/
def hexDigit? (c : Char) : Option Nat :=
  if '0' ≤ c ∧ c ≤ '9' then some (c.toNat - '0'.toNat)
  else if 'a' ≤ c ∧ c ≤ 'f' then some (c.toNat - 'a'.toNat + 10)
  else if 'A' ≤ c ∧ c ≤ 'F' then some (c.toNat - 'A'.toNat + 10)
  else none

/-- The number that four hex digits spell. -/
def hexUnit? (a b c d : Char) : Option Nat := do
  let a ← hexDigit? a
  let b ← hexDigit? b
  let c ← hexDigit? c
  let d ← hexDigit? d
  return ((a * 16 + b) * 16 + c) * 16 + d

/-- Whether fewer than four bytes are left of a text. -/
def isShort (s : List Char) : Bool :=
  (s.take 4).foldl (fun bytes c => bytes + c.utf8Size) 0 < 4

/-- The four hex digits of a `\u` escape. A text of fewer than four more
    bytes ends too early, whatever those bytes are. -/
def readUnit (s : List Char) : Except ReadError (Nat × List Char) :=
  if isShort s then .error .truncated
  else
    match s with
    | a :: b :: c :: d :: rest =>
        match hexUnit? a b c d with
        | some unit => .ok (unit, rest)
        | none => .error .malformed
    | _ => .error .malformed

/-- The character of a one-letter escape. -/
def shortEscape? (c : Char) : Option Char :=
  match c with
  | '"' => some '"'
  | '\\' => some '\\'
  | '/' => some '/'
  | 'b' => some '\x08'
  | 'f' => some '\x0c'
  | 'n' => some '\n'
  | 'r' => some '\r'
  | 't' => some '\t'
  | _ => none

/-- The first half of a pair. -/
def isHighSurrogate (unit : Nat) : Bool := 0xd800 ≤ unit && unit ≤ 0xdbff

/-- The second half of a pair. -/
def isLowSurrogate (unit : Nat) : Bool := 0xdc00 ≤ unit && unit ≤ 0xdfff

/-- The code point of a pair of surrogates. -/
def pairValue (high low : Nat) : Nat := (high - 0xd800) * 0x400 + (low - 0xdc00) + 0x10000

/-- The second half of a pair, with the `\u` in front of it. -/
def readLowSurrogate (s : List Char) : Except ReadError (Nat × List Char) :=
  match s with
  | [] => .error .truncated
  | '\\' :: [] => .error .truncated
  | '\\' :: 'u' :: rest =>
      match readUnit rest with
      | .error e => .error e
      | .ok (unit, rest) => if isLowSurrogate unit then .ok (unit, rest) else .error .malformed
  | _ => .error .malformed

/-- A `\u` escape, from just after the `u`. -/
def readUnicodeEscape (s : List Char) : Except ReadError (Char × List Char) :=
  match readUnit s with
  | .error e => .error e
  | .ok (unit, rest) =>
      if isLowSurrogate unit then .error .malformed
      else if isHighSurrogate unit then
        match readLowSurrogate rest with
        | .error e => .error e
        | .ok (low, rest) => .ok (Char.ofNat (pairValue unit low), rest)
      else .ok (Char.ofNat unit, rest)

/-- An escape, from just after the backslash. -/
def readEscape (s : List Char) : Except ReadError (Char × List Char) :=
  match s with
  | [] => .error .truncated
  | c :: rest =>
      if c = 'u' then readUnicodeEscape rest
      else
        match shortEscape? c with
        | some d => .ok (d, rest)
        | none => .error .malformed

/-- An escape that is only passed over. -/
def skipEscape (s : List Char) : Except ReadError (List Char) :=
  match s with
  | [] => .error .truncated
  | c :: rest =>
      if c = 'u' then
        match readUnit rest with
        | .error e => .error e
        | .ok (_, rest) => .ok rest
      else if (shortEscape? c).isSome then .ok rest
      else .error .malformed

/-! ## Escapes take characters -/

theorem length_readUnit {s rest : List Char} {unit : Nat} (h : readUnit s = .ok (unit, rest)) :
    rest.length < s.length := by
  simp only [readUnit] at h
  split at h
  · cases h
  · split at h
    · split at h
      · cases h; simp only [List.length_cons]; omega
      · cases h
    · cases h

theorem length_readLowSurrogate {s rest : List Char} {unit : Nat}
    (h : readLowSurrogate s = .ok (unit, rest)) : rest.length < s.length := by
  simp only [readLowSurrogate] at h
  split at h
  · cases h
  · cases h
  · rename_i after
    cases eq : readUnit after with
    | error e => simp [eq] at h
    | ok found =>
        obtain ⟨low, rest'⟩ := found
        have := length_readUnit eq
        simp only [eq] at h
        split at h
        · cases h; simp only [List.length_cons]; omega
        · cases h
  · cases h

theorem length_readUnicodeEscape {s rest : List Char} {c : Char}
    (h : readUnicodeEscape s = .ok (c, rest)) : rest.length < s.length := by
  simp only [readUnicodeEscape] at h
  cases eq : readUnit s with
  | error e => simp [eq] at h
  | ok found =>
      obtain ⟨unit, after⟩ := found
      have first := length_readUnit eq
      simp only [eq] at h
      split at h
      · cases h
      · split at h
        · cases eq' : readLowSurrogate after with
          | error e => simp [eq'] at h
          | ok found' =>
              obtain ⟨low, last⟩ := found'
              have second := length_readLowSurrogate eq'
              simp only [eq', Except.ok.injEq, Prod.mk.injEq] at h
              obtain ⟨-, rfl⟩ := h
              omega
        · cases h; exact first

theorem length_readEscape {s rest : List Char} {c : Char} (h : readEscape s = .ok (c, rest)) :
    rest.length < s.length := by
  cases s with
  | nil => cases h
  | cons d s =>
      simp only [readEscape] at h
      split at h
      · have := length_readUnicodeEscape h
        simp only [List.length_cons]; omega
      · split at h
        · cases h; simp
        · cases h

theorem length_skipEscape {s rest : List Char} (h : skipEscape s = .ok rest) :
    rest.length < s.length := by
  cases s with
  | nil => cases h
  | cons d s =>
      simp only [skipEscape] at h
      split at h
      · cases eq : readUnit s with
        | error e => simp [eq] at h
        | ok found =>
            obtain ⟨unit, after⟩ := found
            have := length_readUnit eq
            simp only [eq, Except.ok.injEq] at h
            subst h
            simp only [List.length_cons]; omega
      · split at h
        · cases h; simp
        · cases h

/-! ## Strings -/

/-- Whether a character has to be escaped in a string. -/
def isControl (c : Char) : Bool := c.toNat < 0x20

/-- The content of a string up to its closing quote, after what was read of
    it already. -/
def readQuotedAfter (sofar : String) (s : List Char) : Except ReadError (String × List Char) :=
  match s with
  | [] => .error .truncated
  | c :: rest =>
      if c = '"' then .ok (sofar, rest)
      else if c = '\\' then
        match _h : readEscape rest with
        | .error e => .error e
        | .ok (d, after) => readQuotedAfter (sofar.push d) after
      else if isControl c then .error .malformed
      else readQuotedAfter (sofar.push c) rest
termination_by s.length
decreasing_by
  · have := length_readEscape _h
    simp only [List.length_cons]; omega
  · simp

/-- The content of a string, from just after its opening quote. -/
def readQuoted : Reader String := fun s => readQuotedAfter "" s

/-- The text after a string, from just after its opening quote. -/
def skipQuoted (s : List Char) : Except ReadError (List Char) :=
  match s with
  | [] => .error .truncated
  | c :: rest =>
      if c = '"' then .ok rest
      else if c = '\\' then
        match _h : skipEscape rest with
        | .error e => .error e
        | .ok after => skipQuoted after
      else if isControl c then .error .malformed
      else skipQuoted rest
termination_by s.length
decreasing_by
  · have := length_skipEscape _h
    simp only [List.length_cons]; omega
  · simp

end TaggedWire.JsonText
