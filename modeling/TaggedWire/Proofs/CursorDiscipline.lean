import TaggedWire.Proofs.Truncation
import TaggedWire.Proofs.WordPositions

/-! # What a decoder does with its position

    A decoder is handed a position that need not be inside the buffer and
    bytes that need not be a message. Whatever it makes of them, its
    position moves forward and stays inside the buffer, or it does not
    move at all, and no addition to it leaves the 64 bits of a word. What
    it answers depends on nothing but the bytes it has passed. -/

namespace TaggedWire

open EStateM (Result)

variable {α : Type} {buf : List UInt8} {start : Nat}

/-! ## Positions left behind -/

/-- The position that a reader leaves, with an answer or without. -/
def leftAt : Result CodecError Nat α → Nat
  | .ok _ index => index
  | .error _ index => index

/-- Started at the same position, a decoder with words leaves the word for
    the position that the decoder with numbers leaves. -/
theorem Wordwise.outcomes {x : CursorReader α} {y : WordReader α}
    (h : Wordwise buf start x y) (hstart : start < 2 ^ 64) :
    Outcomes (Tracks buf start) (SameRefusal buf start) Eq (x start)
      (y (UInt64.ofNat start)) := by
  have hword : (UInt64.ofNat start).toNat = start := UInt64.toNat_ofNat_of_lt' hstart
  exact h start (UInt64.ofNat start) ⟨hword, by omega, by omega⟩

/-- The position that is left is tracked by a word. -/
theorem tracks_of_outcomes {x : Result CodecError Nat α} {y : Result Halt UInt64 α}
    (h : Outcomes (Tracks buf start) (SameRefusal buf start) Eq x y) :
    ∃ word, Tracks buf start (leftAt x) word := by
  cases x with
  | ok a index =>
    cases y with
    | ok b word => exact ⟨word, h.2⟩
    | error halt word => exact h.elim
  | error e index =>
    cases y with
    | ok b word => exact h.elim
    | error halt word => exact ⟨word, h.2⟩

theorem ne_overflow_of_outcomes {x : Result CodecError Nat α} {y : Result Halt UInt64 α}
    (h : Outcomes (Tracks buf start) (SameRefusal buf start) Eq x y) (word : UInt64) :
    y ≠ .error .overflow word := by
  rintro rfl
  cases x with
  | ok a index => exact h
  | error e index => cases h.1

/-! ## Bytes passed -/

/-- Two buffers have the same bytes from two positions on, `count` of
    them. -/
def SameBytes (buf : List UInt8) (start : Nat) (buf' : List UInt8) (start' count : Nat) : Prop :=
  ∀ k, k < count → buf'[start' + k]? = buf[start + k]?

instance (buf : List UInt8) (start : Nat) (buf' : List UInt8) (start' count : Nat) :
    Decidable (SameBytes buf start buf' start' count) :=
  inferInstanceAs (Decidable (∀ k, k < count → _))

/-- A buffer with the same bytes as others have before their rest starts
    with them. -/
theorem SameBytes.drop_eq {buf' taken rest : List UInt8} {start' : Nat}
    (h : SameBytes buf start buf' start' taken.length) (hdrop : buf.drop start = taken ++ rest) :
    buf'.drop start' = taken ++ buf'.drop (start' + taken.length) := by
  have htake : (buf'.drop start').take taken.length = taken := by
    apply List.ext_getElem?
    intro k
    by_cases hk : k < taken.length
    · rw [List.getElem?_take_of_lt hk, List.getElem?_drop, h k hk, ← List.getElem?_drop, hdrop,
        List.getElem?_append_left hk]
    · have hlen : ((buf'.drop start').take taken.length).length ≤ k := by
        rw [List.length_take]
        omega
      rw [List.getElem?_eq_none hlen, List.getElem?_eq_none (Nat.not_lt.mp hk)]
  calc buf'.drop start'
      = (buf'.drop start').take taken.length ++ (buf'.drop start').drop taken.length :=
        (List.take_append_drop _ _).symm
    _ = taken ++ buf'.drop (start' + taken.length) := by rw [htake, List.drop_drop]

/-- **Locality**: a buffer reader that reads like an incremental stream reader
    answers from the bytes it passes. Where these stand, and in which
    buffer, does not matter. -/
theorem ok_of_sameBytes {x : List UInt8 → CursorReader α} {y : StreamReader α}
    (halike : ∀ buf start, ReadAlike buf start (x buf) y) (hy : Incremental y) {a : α}
    {stop : Nat} (h : x buf start = .ok a stop) {buf' : List UInt8} {start' : Nat}
    (hsame : SameBytes buf start buf' start' (stop - start)) :
    x buf' start' = .ok a (start' + (stop - start)) := by
  obtain ⟨taken, rest, hdrop, rfl, hread⟩ := (halike buf start).ok_iff.mp h
  rw [Nat.add_sub_cancel_left] at hsame ⊢
  -- What was taken from the stream is what would be taken again.
  obtain ⟨taken', htaken', hback⟩ := hy.answer hread
  rw [hdrop] at htaken'
  have htaken := List.append_cancel_right htaken'
  rw [← htaken] at hback
  have hdrop' := hsame.drop_eq hdrop
  refine (halike buf' start').ok_iff.mpr ⟨taken, _, hdrop', rfl, ?_⟩
  rw [hdrop']
  exact hback _

/-! ## Room for a primitive -/

/-- A primitive of fixed size that does not fit in the rest of the buffer
    leaves the position alone. -/
theorem Cursor.readPrimitive_short {kind : Primitive} {size : Nat}
    (hsize : kind.fixedSize? = some size) (hshort : buf.length - start < size) :
    readPrimitive buf kind start = .error .unexpectedEnd start := by
  have hroom : requireRoom buf size start = .error .unexpectedEnd start := if_pos hshort
  unfold readPrimitive
  rw [hsize]
  exact run_bind_of_error hroom

/-! ## Discipline -/

/-- How a decoder, given as a function of the buffer, treats its position
    from a given start. `w` is the same decoder with words for positions. -/
structure Disciplined (x : List UInt8 → CursorReader α) (w : WordReader α) (buf : List UInt8)
    (start : Nat) : Prop where
  /-- The position does not go back. -/
  forward : start ≤ leftAt (x buf start)
  /-- From inside the buffer it does not leave the buffer. -/
  inside : start ≤ buf.length → leftAt (x buf start) ≤ buf.length
  /-- From the end of the buffer, or beyond, it does not move. -/
  outside : buf.length ≤ start → leftAt (x buf start) = start
  /-- The decoder with words does the same, at the same positions. -/
  words : Outcomes (Tracks buf start) (SameRefusal buf start) Eq (x buf start)
    (w (UInt64.ofNat start))
  /-- No addition to the position overflows. -/
  noOverflow : ∀ word, w (UInt64.ofNat start) ≠ .error .overflow word
  /-- An answer, and how far it takes the position, depend only on the bytes
      passed. -/
  bytes : ∀ a stop, x buf start = .ok a stop → ∀ buf' start',
    SameBytes buf start buf' start' (stop - start) →
      x buf' start' = .ok a (start' + (stop - start))

/-- A decoder that has its two companions, one with words and one for
    streams, is disciplined. -/
theorem disciplined_of_companions {x : List UInt8 → CursorReader α} {y : StreamReader α}
    {w : WordReader α} (hstart : start < 2 ^ 64) (hwords : Wordwise buf start (x buf) w)
    (halike : ∀ buf start, ReadAlike buf start (x buf) y) (hy : Incremental y) :
    Disciplined x w buf start := by
  have houtcomes := hwords.outcomes hstart
  obtain ⟨word, htracks⟩ := tracks_of_outcomes houtcomes
  have hmoved := htracks.moved
  have hbounded := htracks.bounded
  refine ⟨hmoved, ?_, ?_, houtcomes, ne_overflow_of_outcomes houtcomes, ?_⟩
  · intro hinside
    omega
  · intro houtside
    omega
  · intro a stop hread buf' start' hsame
    exact ok_of_sameBytes halike hy hread hsame

/-- **Discipline**: from every position that is a word, in every buffer of
    less than `2 ^ 63` bytes and for every schema, decoding a message or a
    value treats its position as it should; and a primitive of fixed size
    that does not fit leaves it where it is. -/
theorem cursor_discipline (s : Schema) (hbuf : buf.length < 2 ^ 63) (hstart : start < 2 ^ 64) :
    (∀ category, Disciplined (s.decodeMessage category) (s.wordMessage category buf) buf start) ∧
    (∀ type, Disciplined (s.decodeValue · type) (s.wordValue buf type) buf start) ∧
    (∀ kind size, kind.fixedSize? = some size → buf.length - start < size →
      s.decodeValue buf (.primitive kind) start = .error .unexpectedEnd start) := by
  refine ⟨fun category => ?_, fun type => ?_, fun kind size hsize hshort => ?_⟩
  · exact disciplined_of_companions hstart (s.wordwise_message hbuf start category)
      (s.readAlike_message category) (s.incremental_message category)
  · exact disciplined_of_companions hstart (s.wordwise_value hbuf start type)
      (fun buf start => s.readAlike_value buf start type) (s.incremental_value type)
  · exact Cursor.readPrimitive_short hsize hshort

/-- At the last word there is nothing to decode and nothing to add. One byte
    is no room for a number of two. A text in the middle of one buffer is
    decoded alike in another that has only the text in common with it. -/
theorem cursor_discipline_text :
    let s : Schema := {}
    let text : FieldType := .primitive .string
    leftAt (s.decodeValue [7] text (2 ^ 64 - 1)) = 2 ^ 64 - 1 ∧
      s.decodeValue [7] (.primitive .u16) 0 = .error .unexpectedEnd 0 ∧
      s.decodeValue [9, 2, 0x68, 0x69, 9] text 1 = .ok (.string "hi") 4 ∧
      s.decodeValue [0, 0, 2, 0x68, 0x69] text 2 = .ok (.string "hi") 5 := by
  intro s text
  have hlast : 2 ^ 64 - 1 < 2 ^ 64 := by decide
  have hshort : ([7] : List UInt8).length < 2 ^ 63 := by decide
  have hbuf : ([9, 2, 0x68, 0x69, 9] : List UInt8).length < 2 ^ 63 := by decide
  have hread : s.decodeValue [9, 2, 0x68, 0x69, 9] text 1 = .ok (.string "hi") 4 := rfl
  refine ⟨((cursor_discipline s hshort hlast).2.1 text).outside (by decide), ?_, hread, ?_⟩
  · exact (cursor_discipline s hshort (by decide)).2.2 .u16 2 rfl (by decide)
  · exact ((cursor_discipline s hbuf (by decide)).2.1 text).bytes _ 4 hread _ 2 (by decide)

end TaggedWire
