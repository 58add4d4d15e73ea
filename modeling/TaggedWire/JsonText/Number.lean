import TaggedWire.JsonText.Basic

/-! # JSON numbers

    Nothing in a config is a number, but a number may stand where something
    else is asked for, and it may be the value of a key that is passed
    over. In both cases it has to be well formed.

    A number that is read, and not merely passed over, also has to be
    within the range of double precision. Its digits are collected into a
    significand as long as 64 bits hold it, the rest only moves the decimal
    exponent, and the product of significand and power of ten is formed in
    double precision. `Numeral.isTooLarge` says when that product is
    infinite, in exact arithmetic.
-/

namespace TaggedWire.JsonText

/-! ## Numerals -/

/-- A number as it is written: the digits before and after the point, and
    the exponent. The sign of the number plays no role. -/
structure Numeral where
  whole : List Char
  fraction : List Char := []
  exponent : Int := 0
  deriving DecidableEq, Repr

/-- What a text has to say as a number. -/
inductive Written where
  /-- A number, and the text after it. -/
  | numeral (n : Numeral) (rest : List Char)
  /-- No number: the next character does not fit. -/
  | broken
  /-- No number: the text ends inside it. -/
  | cut
  deriving Repr

/-- The digits in front of a text, and the rest. -/
def spanDigits (s : List Char) : List Char × List Char := s.span Char.isDigit

/-- No number, with or without a character in the way. -/
def Written.stuck : List Char → Written
  | [] => .cut
  | _ :: _ => .broken

/-- The number that a list of digits spells. -/
def digitsValue (digits : List Char) : Nat :=
  digits.foldl (fun n c => n * 10 + (c.toNat - '0'.toNat)) 0

/-- The digits of an exponent, after its sign. -/
def writtenExponentDigits (n : Numeral) (negative : Bool) (s : List Char) : Written :=
  match spanDigits s with
  | ([], rest) => .stuck rest
  | (digits, rest) =>
      let size : Int := digitsValue digits
      .numeral { n with exponent := if negative then -size else size } rest

/-- An exponent, if there is one. -/
def writtenExponent (n : Numeral) (s : List Char) : Written :=
  match s with
  | c :: rest =>
      if c = 'e' ∨ c = 'E' then
        match rest with
        | '+' :: rest => writtenExponentDigits n false rest
        | '-' :: rest => writtenExponentDigits n true rest
        | rest => writtenExponentDigits n false rest
      else .numeral n s
  | [] => .numeral n s

/-- A fraction and an exponent, if they are there. -/
def writtenFraction (n : Numeral) (s : List Char) : Written :=
  match s with
  | '.' :: rest =>
      match spanDigits rest with
      | ([], rest) => .stuck rest
      | (digits, rest) => writtenExponent { n with fraction := digits } rest
  | _ => writtenExponent n s

/-- A number after its sign. The digits before the point are one zero, or
    do not start with one. -/
def writtenNumber (s : List Char) : Written :=
  match spanDigits s with
  | ([], rest) => .stuck rest
  | (['0'], rest) => writtenFraction { whole := ['0'] } rest
  | ('0' :: _ :: _, _) => .broken
  | (digits, rest) => writtenFraction { whole := digits } rest

/-! ## Range -/

/-- The largest significand that is collected. -/
def maxSignificand : Nat := 0xffffffffffffffff

/-- Collect the digits before the point. Once one does not fit any more,
    it and all that follow only raise the exponent. -/
def collectWhole : Nat → List Char → Nat × Nat
  | significand, [] => (significand, 0)
  | significand, c :: rest =>
      let next := significand * 10 + (c.toNat - '0'.toNat)
      if next ≤ maxSignificand then collectWhole next rest
      else (significand, rest.length + 1)

/-- Collect the digits after the point. The first that does not fit, and
    all that follow, are dropped. -/
def collectFraction : Nat → List Char → Nat × Nat
  | significand, [] => (significand, 0)
  | significand, c :: rest =>
      let next := significand * 10 + (c.toNat - '0'.toNat)
      if next ≤ maxSignificand then
        let (result, places) := collectFraction next rest
        (result, places + 1)
      else (significand, 0)

/-- A number to the nearest one with 53 binary digits, a half going to the
    even neighbour. -/
def roundTo53Bits (n : Nat) : Nat :=
  if n.log2 < 53 then n
  else
    let unit := 1 <<< (n.log2 - 52)
    let (whole, part) := (n / unit, n % unit)
    if 2 * part > unit ∨ (2 * part = unit ∧ whole % 2 = 1) then (whole + 1) * unit
    else whole * unit

/-- The least number that is rounded to infinity in double precision. -/
def doubleOverflow : Nat := 1 <<< 1024 - 1 <<< 970

/-- The largest power of ten in double precision. -/
def maxDecimalExponent : Nat := 308

/-- Whether a number is beyond double precision. -/
def Numeral.isTooLarge (n : Numeral) : Bool :=
  let (significand, raised) := collectWhole 0 n.whole
  let (significand, places) := collectFraction significand n.fraction
  let exponent : Int := raised - places + n.exponent
  if significand = 0 ∨ exponent < 0 then false
  else if exponent.toNat > maxDecimalExponent then true
  else roundTo53Bits significand * roundTo53Bits (Nat.pow 10 exponent.toNat) ≥ doubleOverflow

/-! ## Reading and skipping -/

/-- The text after a number that is read, from after its sign. -/
def readNumber (s : List Char) : Except ReadError (List Char) :=
  match writtenNumber s with
  | .numeral n rest => if n.isTooLarge then .error .malformed else .ok rest
  | .broken => .error .malformed
  | .cut => .error .truncated

/-- The text after a number that is passed over, from after its sign. A
    number that stops short is malformed, also at the end of the text. -/
def skipNumber (s : List Char) : Except ReadError (List Char) :=
  match writtenNumber s with
  | .numeral _ rest => .ok rest
  | .broken => .error .malformed
  | .cut => .error .malformed

end TaggedWire.JsonText
