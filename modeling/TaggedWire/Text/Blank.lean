/-! # Blank characters

    The characters with the Unicode property `White_Space`. It is a wider
    class than the blanks of ASCII, and it leaves out the zero-width space
    and the byte order mark.
-/

namespace TaggedWire

/-- The ranges of code points, both ends included, that are blank. -/
def blankRanges : List (Nat × Nat) :=
  [(0x9, 0xd), (0x20, 0x20), (0x85, 0x85), (0xa0, 0xa0), (0x1680, 0x1680),
   (0x2000, 0x200a), (0x2028, 0x2029), (0x202f, 0x202f), (0x205f, 0x205f),
   (0x3000, 0x3000)]

/-- Whether a character is blank. -/
def isBlank (c : Char) : Bool :=
  blankRanges.any fun (low, high) => low ≤ c.toNat && c.toNat ≤ high

end TaggedWire
