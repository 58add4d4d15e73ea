/-! # Text as UTF-8 bytes

    A string travels as its UTF-8 bytes. Decoding refuses everything that
    is not the encoding of some string, so `decode?` and `encode` are
    inverse to one another: `decode?_eq_some_iff`.
-/

namespace TaggedWire.Utf8

/-- The UTF-8 bytes of a string. -/
def encode (text : String) : List UInt8 := text.toUTF8.data.toList

/-- The string with the given UTF-8 bytes, if there is one. -/
def decode? (bytes : List UInt8) : Option String := String.fromUTF8? ⟨bytes.toArray⟩

@[simp] theorem decode?_encode (text : String) : decode? (encode text) = some text := by
  have valid : text.toByteArray.IsValidUTF8 := text.isValidUTF8
  simp [decode?, encode, String.fromUTF8?, String.fromUTF8, valid]

/-- There are as many bytes as the size of the string says. -/
theorem length_encode (text : String) : (encode text).length = text.utf8ByteSize := rfl

/-- Only the encoding of a string decodes to it. -/
theorem encode_of_decode? {bytes : List UInt8} {text : String}
    (h : decode? bytes = some text) : encode text = bytes := by
  simp only [decode?, String.fromUTF8?] at h
  split at h
  · cases h
    simp [encode, String.fromUTF8]
  · cases h

theorem decode?_eq_some_iff {bytes : List UInt8} {text : String} :
    decode? bytes = some text ↔ bytes = encode text :=
  ⟨fun h => (encode_of_decode? h).symm, fun h => h ▸ decode?_encode text⟩

end TaggedWire.Utf8
