import Mathlib.Algebra.Group.Nat.Defs
import TaggedWire.Proofs.Lockstep

/-! # Positions of 64 bits

    The buffer decoder counts positions with natural numbers. A machine
    has words of 64 bits for them, and a sum of two words need not be a
    word. Here the decoder is given such words. Where it adds to a
    position, it does so in one of two ways:

      * a *checked* addition takes a sum that is no word for the end of
        the input, as in front of a number of several bytes;
      * a *plain* addition has no such check. That is how one byte is
        passed, and how the end of a text is found after its length.

    A plain addition whose sum is no word is an `overflow`, a way to halt
    of its own. In a buffer of less than `2 ^ 63` bytes there is none,
    wherever the decoder starts and whatever the bytes are: it goes on from
    its start, never back and never beyond the end of the buffer, and its
    words stand for the positions of the decoder with numbers (`Tracks`). -/

namespace TaggedWire

/-! ## Decoding with words -/

/-- Why a decoder with words halts without an answer. -/
inductive Halt where
  /-- The input is refused. -/
  | refusal (e : CodecError)
  /-- The sum of a plain addition is no word. -/
  | overflow
  deriving DecidableEq, Repr

/-- Reads at a position that is a word; the position survives a failure. -/
abbrev WordReader := EStateM Halt UInt64

namespace Word

/-- The sum of two words, if it is a word. -/
def sum? (index count : UInt64) : Option UInt64 :=
  if index.toNat + count.toNat < 2 ^ 64 then some (index + count) else none

/-- The position `count` bytes further on, by a plain addition. -/
def plainEnd (count : UInt64) : WordReader UInt64 := fun index =>
  match sum? index count with
  | some stop => .ok stop index
  | none => .error .overflow index

/-- The position `count` bytes further on, by a checked addition. -/
def checkedEnd (count : UInt64) : WordReader UInt64 := fun index =>
  match sum? index count with
  | some stop => .ok stop index
  | none => .error (.refusal .unexpectedEnd) index

/-- Take the bytes up to a position, or none at all. -/
def takeTo (buf : List UInt8) (stop : UInt64) : WordReader (List UInt8) := fun index =>
  if index ≤ stop ∧ stop.toNat ≤ buf.length then
    .ok ((buf.drop index.toNat).take (stop.toNat - index.toNat)) stop
  else .error (.refusal .unexpectedEnd) index

/-- Take the byte at the position. -/
def readByte (buf : List UInt8) : WordReader UInt8 := fun index =>
  match buf[index.toNat]? with
  | none => .error (.refusal .unexpectedEnd) index
  | some byte =>
      match plainEnd 1 index with
      | .ok stop _ => .ok byte stop
      | .error halt _ => .error halt index

/-- Take the bytes of a number. -/
def readDigits (buf : List UInt8) (count : UInt64) : WordReader (List UInt8) := do
  takeTo buf (← checkedEnd count)

/-- Take the bytes of a text. -/
def readText (buf : List UInt8) (count : UInt64) : WordReader (List UInt8) := do
  takeTo buf (← plainEnd count)

/-- Check that `count` bytes are left, taking nothing. -/
def requireRoom (buf : List UInt8) (count : Nat) : WordReader Unit := fun index =>
  if buf.length - index.toNat < count then .error (.refusal .unexpectedEnd) index
  else .ok () index

/-- Take a float. -/
def readSingle (buf : List UInt8) : WordReader Single := do
  let bytes ← readDigits buf 4
  return ⟨UInt32.ofNat (BigEndian.decode bytes)⟩

/-- Take a length byte and that many bytes of text. -/
def readString (buf : List UInt8) : WordReader String := do
  let length ← readByte buf
  let bytes ← readText buf length.toUInt64
  match Utf8.decode? bytes with
  | some text => return text
  | none => throw (.refusal .invalidUtf8)

/-- Take a primitive value. -/
def readPrimitive (buf : List UInt8) (kind : Primitive) : WordReader Value := do
  match kind.fixedSize? with
  | some size => requireRoom buf size
  | none => pure ()
  match kind with
  | .string => return .string (← readString buf)
  | .float => return .float (← readSingle buf)
  | .u8 => return .u8 (← readByte buf)
  | .u16 => return .u16 (UInt16.ofNat (BigEndian.decode (← readDigits buf 2)))
  | .u32 => return .u32 (UInt32.ofNat (BigEndian.decode (← readDigits buf 4)))
  | .bool => return .bool ((← readByte buf) > 0)
  | .floatPair => do
      let x ← readSingle buf
      let y ← readSingle buf
      return .floatPair x y

end Word

namespace Schema

/-- Take a value of a given type from a buffer. -/
def wordValue (s : Schema) (buf : List UInt8) : FieldType → WordReader Value
  | .primitive kind => Word.readPrimitive buf kind
  | .optional inner => do
      if (← Word.readByte buf) = 0 then return .absent
      if inner.isOptional then throw (.refusal .nestedOptional)
      return .present (← s.wordValue buf inner)
  | .enumRef name => do
      match s.decodeEnum name (← Word.readByte buf) with
      | .ok v => return v
      | .error e => throw (.refusal e)

/-- Take the values of a list of fields, in order. -/
def wordFields (s : Schema) (buf : List UInt8) : List Field → WordReader (List Value)
  | [] => return []
  | field :: fields => do
      let v ← s.wordValue buf field.type
      let values ← s.wordFields buf fields
      return v :: values

/-- Take a message of a category from a buffer. -/
def wordMessage (s : Schema) (category : String) (buf : List UInt8) :
    WordReader MessageValue := do
  match s.findCategory category with
  | .error e => throw (.refusal e)
  | .ok c =>
      match findMessage c (← Word.readByte buf) with
      | .error e => throw (.refusal e)
      | .ok declared => return ⟨declared.name, ← s.wordFields buf declared.fields⟩

end Schema

/-! ## Words for numbers -/

section

variable {α β : Type} {buf : List UInt8} {start : Nat}

/-- The word stands for the position, and the position has moved on from
    `start`, but not beyond the end of the buffer. -/
structure Tracks (buf : List UInt8) (start index : Nat) (word : UInt64) : Prop where
  same : word.toNat = index
  moved : start ≤ index
  bounded : index ≤ max start buf.length

/-- Both decoders refuse the input for the same reason, at the same
    position. There is no overflow. -/
def SameRefusal (buf : List UInt8) (start : Nat) (e : CodecError) (halt : Halt) (index : Nat)
    (word : UInt64) : Prop :=
  halt = .refusal e ∧ Tracks buf start index word

/-- A decoder with numbers and one with words that cannot be told apart. -/
def Wordwise (buf : List UInt8) (start : Nat) (x : CursorReader α) (y : WordReader α) : Prop :=
  Lockstep (Tracks buf start) (Tracks buf start) (SameRefusal buf start) Eq x y

theorem wordwise_pure (a : α) :
    Wordwise buf start (pure a : CursorReader α) (pure a : WordReader α) :=
  lockstep_pure rfl

theorem wordwise_throw (e : CodecError) :
    Wordwise buf start (throw e : CursorReader α) (throw (.refusal e) : WordReader α) :=
  lockstep_throw fun _ _ htracks => ⟨rfl, htracks⟩

theorem wordwise_bind {x : CursorReader α} {y : WordReader α} {f : α → CursorReader β}
    {g : α → WordReader β} (h : Wordwise buf start x y)
    (hfg : ∀ a, Wordwise buf start (f a) (g a)) :
    Wordwise buf start (x >>= f) (y >>= g) := by
  refine lockstep_bind h ?_
  rintro a _ rfl
  exact hfg a

/-- A sum below `2 ^ 64` is a word. -/
theorem Word.exists_sum? (index count : UInt64) (h : index.toNat + count.toNat < 2 ^ 64) :
    ∃ stop, sum? index count = some stop ∧ stop.toNat = index.toNat + count.toNat := by
  refine ⟨index + count, if_pos h, ?_⟩
  rw [UInt64.toNat_add]
  exact Nat.mod_eq_of_lt h

/-! ### Bytes -/

/-- Up to a position that is a word, both take the same bytes. -/
theorem Tracks.takeTo {index count : Nat} {word stop : UInt64} (h : Tracks buf start index word)
    (hstop : stop.toNat = index + count) :
    Outcomes (Tracks buf start) (SameRefusal buf start) Eq (Cursor.readBytes buf count index)
      (Word.takeTo buf stop word) := by
  obtain ⟨hsame, hmoved, hbounded⟩ := h
  have hle : word ≤ stop := by
    rw [UInt64.le_iff_toNat_le]
    omega
  unfold Cursor.readBytes Word.takeTo
  by_cases hfits : index + count ≤ buf.length
  · rw [if_pos hfits, if_pos ⟨hle, by omega⟩, hsame]
    have hcount : stop.toNat - index = count := by omega
    rw [hcount]
    exact ⟨rfl, hstop, by omega, by omega⟩
  · rw [if_neg hfits, if_neg (fun hboth => hfits (by omega))]
    exact ⟨rfl, hsame, hmoved, hbounded⟩

/-- The word stands for a position inside the buffer. -/
def TracksInside (buf : List UInt8) (start index : Nat) (word : UInt64) : Prop :=
  Tracks buf start index word ∧ index ≤ buf.length

variable (hbuf : buf.length < 2 ^ 63)

include hbuf

/-- Passing a byte cannot overflow, since there is a byte to pass. -/
theorem lockstep_wordByte (start : Nat) :
    Lockstep (Tracks buf start) (TracksInside buf start) (SameRefusal buf start) Eq
      (Cursor.readByte buf) (Word.readByte buf) := by
  intro index word htracks
  obtain ⟨hsame, hmoved, hbounded⟩ := htracks
  unfold Cursor.readByte Word.readByte
  rw [hsame]
  cases hbyte : buf[index]? with
  | none => exact ⟨rfl, hsame, hmoved, hbounded⟩
  | some byte =>
    have hinside : index < buf.length := (List.getElem?_eq_some_iff.mp hbyte).1
    have hone : (1 : UInt64).toNat = 1 := rfl
    obtain ⟨stop, hsum, hstop⟩ := Word.exists_sum? word 1 (by omega)
    have hplain : Word.plainEnd 1 word = .ok stop word := by
      unfold Word.plainEnd
      rw [hsum]
    rw [hplain]
    have htracks : Tracks buf start (index + 1) stop := ⟨by omega, by omega, by omega⟩
    exact ⟨rfl, htracks, hinside⟩

theorem wordwise_byte (start : Nat) :
    Wordwise buf start (Cursor.readByte buf) (Word.readByte buf) :=
  (lockstep_wordByte hbuf start).weaken fun _ _ h => h.1

/-- A sum that is no word lies beyond the end of the buffer. -/
theorem wordwise_digits (start : Nat) (count : UInt64) :
    Wordwise buf start (Cursor.readBytes buf count.toNat) (Word.readDigits buf count) := by
  intro index word htracks
  have hsame := htracks.same
  show Outcomes _ _ _ _ (EStateM.bind (Word.checkedEnd count) (Word.takeTo buf) word)
  unfold EStateM.bind Word.checkedEnd
  by_cases hword : word.toNat + count.toNat < 2 ^ 64
  · obtain ⟨stop, hsum, hstop⟩ := Word.exists_sum? word count hword
    rw [hsum]
    exact htracks.takeTo (by omega)
  · have hnone : Word.sum? word count = none := if_neg hword
    have hbeyond : ¬ index + count.toNat ≤ buf.length := by omega
    rw [hnone]
    unfold Cursor.readBytes
    rw [if_neg hbeyond]
    exact ⟨rfl, htracks⟩

/-- From inside the buffer the length of a text cannot overflow. -/
theorem lockstep_wordText (start : Nat) (length : UInt8) :
    Lockstep (TracksInside buf start) (Tracks buf start) (SameRefusal buf start) Eq
      (Cursor.readBytes buf length.toNat) (Word.readText buf length.toUInt64) := by
  intro index word hinside
  obtain ⟨htracks, hle⟩ := hinside
  have hsame := htracks.same
  have hcount : length.toUInt64.toNat = length.toNat := UInt8.toNat_toUInt64 length
  have hlength : length.toNat < 256 := length.toNat_lt
  show Outcomes _ _ _ _ (EStateM.bind (Word.plainEnd length.toUInt64) (Word.takeTo buf) word)
  unfold EStateM.bind Word.plainEnd
  obtain ⟨stop, hsum, hstop⟩ := Word.exists_sum? word length.toUInt64 (by omega)
  rw [hsum]
  exact htracks.takeTo (by omega)

/-! ### Primitives -/

theorem wordwise_single (start : Nat) :
    Wordwise buf start (Cursor.readSingle buf) (Word.readSingle buf) :=
  wordwise_bind (wordwise_digits hbuf start 4) fun _ => wordwise_pure _

theorem wordwise_string (start : Nat) :
    Wordwise buf start (Cursor.readString buf) (Word.readString buf) := by
  refine lockstep_bind (lockstep_wordByte hbuf start) ?_
  rintro length _ rfl
  -- It is the length byte that keeps the position inside.
  refine lockstep_bind (lockstep_wordText hbuf start length) ?_
  rintro bytes _ rfl
  cases Utf8.decode? bytes with
  | none => exact wordwise_throw .invalidUtf8
  | some text => exact wordwise_pure text

omit hbuf in
theorem wordwise_requireRoom (start count : Nat) :
    Wordwise buf start (Cursor.requireRoom buf count) (Word.requireRoom buf count) := by
  intro index word htracks
  unfold Cursor.requireRoom Word.requireRoom
  rw [htracks.same]
  by_cases hshort : buf.length - index < count
  · rw [if_pos hshort, if_pos hshort]
    exact ⟨rfl, htracks⟩
  · rw [if_neg hshort, if_neg hshort]
    exact ⟨rfl, htracks⟩

theorem wordwise_primitive (start : Nat) (kind : Primitive) :
    Wordwise buf start (Cursor.readPrimitive buf kind) (Word.readPrimitive buf kind) := by
  unfold Cursor.readPrimitive Word.readPrimitive
  cases kind with
  | string => exact wordwise_bind (wordwise_string hbuf start) fun _ => wordwise_pure _
  | float =>
    refine wordwise_bind (wordwise_requireRoom start 4) fun _ => ?_
    exact wordwise_bind (wordwise_single hbuf start) fun _ => wordwise_pure _
  | u8 =>
    refine wordwise_bind (wordwise_requireRoom start 1) fun _ => ?_
    exact wordwise_bind (wordwise_byte hbuf start) fun _ => wordwise_pure _
  | u16 =>
    refine wordwise_bind (wordwise_requireRoom start 2) fun _ => ?_
    exact wordwise_bind (wordwise_digits hbuf start 2) fun _ => wordwise_pure _
  | u32 =>
    refine wordwise_bind (wordwise_requireRoom start 4) fun _ => ?_
    exact wordwise_bind (wordwise_digits hbuf start 4) fun _ => wordwise_pure _
  | bool =>
    refine wordwise_bind (wordwise_requireRoom start 1) fun _ => ?_
    exact wordwise_bind (wordwise_byte hbuf start) fun _ => wordwise_pure _
  | floatPair =>
    refine wordwise_bind (wordwise_requireRoom start 8) fun _ => ?_
    refine wordwise_bind (wordwise_single hbuf start) fun _ => ?_
    exact wordwise_bind (wordwise_single hbuf start) fun _ => wordwise_pure _

/-! ### Values and messages -/

namespace Schema

variable (s : Schema)

theorem wordwise_value (start : Nat) (type : FieldType) :
    Wordwise buf start (s.decodeValue buf type) (s.wordValue buf type) := by
  induction type with
  | primitive kind => exact wordwise_primitive hbuf start kind
  | enumRef name =>
    unfold decodeValue wordValue
    refine wordwise_bind (wordwise_byte hbuf start) fun byte => ?_
    cases s.decodeEnum name byte with
    | ok v => exact wordwise_pure v
    | error e => exact wordwise_throw e
  | optional inner ih =>
    unfold decodeValue wordValue
    refine wordwise_bind (wordwise_byte hbuf start) fun presence => ?_
    refine lockstep_ite Iff.rfl (fun _ => wordwise_pure _) fun _ => ?_
    refine lockstep_ite Iff.rfl (fun _ => ?_) fun _ => ?_
    · exact wordwise_throw .nestedOptional
    · exact wordwise_bind ih fun _ => wordwise_pure _

theorem wordwise_fields (start : Nat) (fields : List Field) :
    Wordwise buf start (s.decodeFields buf fields) (s.wordFields buf fields) := by
  induction fields with
  | nil => exact wordwise_pure []
  | cons field fields ih =>
    refine wordwise_bind (s.wordwise_value hbuf start field.type) fun v => ?_
    exact wordwise_bind ih fun values => wordwise_pure (v :: values)

theorem wordwise_message (start : Nat) (category : String) :
    Wordwise buf start (s.decodeMessage category buf) (s.wordMessage category buf) := by
  unfold decodeMessage wordMessage
  cases s.findCategory category with
  | error e => exact wordwise_throw e
  | ok c =>
    refine wordwise_bind (wordwise_byte hbuf start) fun tag => ?_
    cases findMessage c tag with
    | error e => exact wordwise_throw e
    | ok declared =>
      exact wordwise_bind (s.wordwise_fields hbuf start declared.fields) fun _ => wordwise_pure _

end Schema

end

end TaggedWire
