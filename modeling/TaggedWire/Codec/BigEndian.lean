/-! # Big-endian numbers

    Multi-byte numbers travel with their most significant byte first.
    `encode width n` is the low `width` bytes of `n`; `decode` reads any
    list of bytes as a number. On lists of one width the two are inverse.
-/

namespace TaggedWire.BigEndian

/-- The low `width` bytes of a number, most significant first. -/
def encode : Nat → Nat → List UInt8
  | 0, _ => []
  | width + 1, n => encode width (n / 256) ++ [UInt8.ofNat n]

/-- The number that a list of bytes spells. -/
def decode (bytes : List UInt8) : Nat :=
  bytes.foldl (fun n byte => n * 256 + byte.toNat) 0

@[simp] theorem length_encode (width n : Nat) : (encode width n).length = width := by
  induction width generalizing n with
  | zero => rfl
  | succ width ih => simp [encode, ih]

@[simp] theorem decode_append_singleton (bytes : List UInt8) (byte : UInt8) :
    decode (bytes ++ [byte]) = decode bytes * 256 + byte.toNat := by
  simp [decode]

/-- Reading back a number gives what fits its width. -/
theorem decode_encode (width n : Nat) : decode (encode width n) = n % Nat.pow 256 width := by
  induction width generalizing n with
  | zero => exact (Nat.mod_one n).symm
  | succ width ih =>
      have digit : (UInt8.ofNat n).toNat = n % 256 := UInt8.toNat_ofNat'
      have split : n % Nat.pow 256 (width + 1) =
          n % 256 + 256 * (n / 256 % Nat.pow 256 width) := by
        show n % (Nat.pow 256 width * 256) = _
        rw [Nat.mul_comm, Nat.mod_mul]
      rw [encode, decode_append_singleton, ih, digit, split]
      omega

/-- A list of bytes spells no number beyond its width. -/
theorem decode_lt (bytes : List UInt8) : decode bytes < Nat.pow 256 bytes.length := by
  rw [← List.reverse_reverse bytes]
  induction bytes.reverse with
  | nil => decide
  | cons byte bytes ih =>
      have small : byte.toNat < 256 := byte.toNat_lt
      rw [List.reverse_cons, decode_append_singleton, List.length_append]
      show _ < Nat.pow 256 bytes.reverse.length * 256
      omega

/-- Writing a number in the width it was read from gives the bytes back. -/
theorem encode_decode (bytes : List UInt8) : encode bytes.length (decode bytes) = bytes := by
  -- The last byte is the low digit, so the induction takes bytes off the end.
  rw [← List.reverse_reverse bytes]
  induction bytes.reverse with
  | nil => rfl
  | cons byte bytes ih =>
      have small : byte.toNat < 256 := byte.toNat_lt
      have high : (decode bytes.reverse * 256 + byte.toNat) / 256 = decode bytes.reverse := by
        omega
      have low : UInt8.ofNat (decode bytes.reverse * 256 + byte.toNat) = byte := by
        apply UInt8.toNat_inj.mp
        rw [UInt8.toNat_ofNat']
        omega
      rw [List.reverse_cons, decode_append_singleton, List.length_append]
      show encode (bytes.reverse.length + 1) _ = _
      rw [encode, high, low, ih]

end TaggedWire.BigEndian
