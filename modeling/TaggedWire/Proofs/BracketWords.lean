import TaggedWire.Proofs.Words

/-! # Nested brackets

    Source text has three pairs of brackets. `BracketWord` is the language
    of texts in which they are nested correctly, and `outsideQuotes` is the
    text that counts: what stands between double quotes does not.

    The grammar does not say how to go through a text from left to right, as
    a text made of fragments asks for, since a fragment may open a bracket
    that a later one closes. `nestAll` does: it keeps the brackets that are
    open in a list. A text that it goes through from no open bracket to none
    is a bracket word (`bracketWord_of_nestAll`). -/

namespace TaggedWire

/-! ## Brackets -/

/-- The pairs of brackets. -/
inductive Bracket where
  | brace
  | parenthesis
  | square
  deriving DecidableEq, Repr

namespace Bracket

/-- The character that opens a pair. -/
def opening : Bracket → Char
  | .brace => '{'
  | .parenthesis => '('
  | .square => '['

/-- The character that closes a pair. -/
def closing : Bracket → Char
  | .brace => '}'
  | .parenthesis => ')'
  | .square => ']'

/-- All pairs. -/
def all : List Bracket := [.brace, .parenthesis, .square]

theorem mem_all (b : Bracket) : b ∈ all := by
  cases b <;> decide

/-- The pair that a character opens. -/
def openedBy? (c : Char) : Option Bracket := all.find? (·.opening == c)

/-- The pair that a character closes. -/
def closedBy? (c : Char) : Option Bracket := all.find? (·.closing == c)

theorem opening_of_openedBy? {c : Char} {b : Bracket} (h : openedBy? c = some b) :
    b.opening = c := by
  have hfound := List.find?_some h
  simpa using hfound

theorem closing_of_closedBy? {c : Char} {b : Bracket} (h : closedBy? c = some b) :
    b.closing = c := by
  have hfound := List.find?_some h
  simpa using hfound

/-- A character that opens nothing and closes nothing is no bracket. -/
theorem ne_of_plain {c : Char} (hopen : openedBy? c = none) (hclose : closedBy? c = none)
    (b : Bracket) : c ≠ b.opening ∧ c ≠ b.closing := by
  constructor
  · intro h
    exact List.find?_eq_none.mp hopen b b.mem_all (by simp [h])
  · intro h
    exact List.find?_eq_none.mp hclose b b.mem_all (by simp [h])

end Bracket

/-! ## Bracket words -/

/-- Texts in which every bracket is closed by its partner and the pairs are
    nested in each other. -/
inductive BracketWord : List Char → Prop
  | nil : BracketWord []
  /-- A character that is no bracket. -/
  | other {c : Char} {text : List Char} :
      (∀ b : Bracket, c ≠ b.opening ∧ c ≠ b.closing) → BracketWord text → BracketWord (c :: text)
  /-- A pair, with a bracket word inside it and one behind it. -/
  | pair (b : Bracket) {inner rest : List Char} :
      BracketWord inner → BracketWord rest →
      BracketWord (b.opening :: (inner ++ b.closing :: rest))

theorem BracketWord.append {t u : List Char} (ht : BracketWord t) (hu : BracketWord u) :
    BracketWord (t ++ u) := by
  induction ht with
  | nil => exact hu
  | other hc _ ih => exact .other hc ih
  | pair b hinner _ _ ih =>
    rw [List.cons_append, List.append_assoc, List.cons_append]
    exact .pair b hinner ih

/-! ## From left to right -/

/-- The open brackets after a character, innermost first. A bracket that
    closes has to be the partner of the innermost one. -/
def nest (around : List Bracket) (c : Char) : Option (List Bracket) :=
  match Bracket.openedBy? c with
  | some b => some (b :: around)
  | none =>
      match Bracket.closedBy? c with
      | some b => if around.head? = some b then some around.tail else none
      | none => some around

/-- The open brackets after a text. -/
def nestAll : List Bracket → List Char → Option (List Bracket)
  | around, [] => some around
  | around, c :: text =>
      match nest around c with
      | some around => nestAll around text
      | none => none

theorem nestAll_append {around after : List Bracket} {t u : List Char}
    (h : nestAll around t = some after) : nestAll around (t ++ u) = nestAll after u := by
  induction t generalizing around with
  | nil => cases h; rfl
  | cons c t ih =>
    simp only [List.cons_append, nestAll] at h ⊢
    split at h
    · exact ih h
    · cases h

/-- What a character can do: open a pair, close the innermost one, or
    nothing. -/
theorem nest_cases {around after : List Bracket} {c : Char} (h : nest around c = some after) :
    (∃ b, c = Bracket.opening b ∧ after = b :: around) ∨
    (∃ b, c = Bracket.closing b ∧ around = b :: after) ∨
    ((∀ b : Bracket, c ≠ b.opening ∧ c ≠ b.closing) ∧ after = around) := by
  unfold nest at h
  cases hopen : Bracket.openedBy? c with
  | some b =>
    rw [hopen] at h
    left
    cases h
    exact ⟨b, (Bracket.opening_of_openedBy? hopen).symm, rfl⟩
  | none =>
    cases hclose : Bracket.closedBy? c with
    | some b =>
      simp only [hopen, hclose] at h
      right; left
      split at h
      · rename_i hinnermost
        obtain ⟨outer, rfl⟩ := List.head?_eq_some_iff.mp hinnermost
        cases h
        exact ⟨b, (Bracket.closing_of_closedBy? hclose).symm, rfl⟩
      · cases h
    | none =>
      simp only [hopen, hclose] at h
      right; right
      cases h
      exact ⟨Bracket.ne_of_plain hopen hclose, rfl⟩

/-- Text that closes the given brackets, innermost first, with bracket words
    in between. -/
inductive Closes : List Bracket → List Char → Prop
  | done {text : List Char} : BracketWord text → Closes [] text
  | close (b : Bracket) {outer : List Bracket} {text rest : List Char} :
      BracketWord text → Closes outer rest → Closes (b :: outer) (text ++ b.closing :: rest)

theorem Closes.prepend {around : List Bracket} {t u : List Char} (ht : BracketWord t)
    (hu : Closes around u) : Closes around (t ++ u) := by
  cases hu with
  | done hu => exact .done (ht.append hu)
  | close b hu hrest =>
    rw [← List.append_assoc]
    exact .close b (ht.append hu) hrest

theorem closes_of_nestAll {around : List Bracket} {text : List Char}
    (h : nestAll around text = some []) : Closes around text := by
  induction text generalizing around with
  | nil =>
    cases h
    exact .done .nil
  | cons c text ih =>
    simp only [nestAll] at h
    split at h
    · rename_i after hnest
      have hrest := ih h
      rcases nest_cases hnest with ⟨b, rfl, rfl⟩ | ⟨b, rfl, rfl⟩ | ⟨hplain, rfl⟩
      · -- The pair that opens here is closed by the first bracket left over.
        cases hrest with
        | @close _ _ inner rest hinner hrest =>
          have hpair : BracketWord (b.opening :: (inner ++ [b.closing])) := .pair b hinner .nil
          have hwhole := hrest.prepend hpair
          simpa using hwhole
      · exact .close b .nil hrest
      · exact hrest.prepend (.other hplain .nil)
    · cases h

/-- **A text from no open bracket to none** is a bracket word. -/
theorem bracketWord_of_nestAll {text : List Char} (h : nestAll [] text = some []) :
    BracketWord text := by
  cases closes_of_nestAll h with
  | done hword => exact hword

/-! ## Quoted text -/

/-- The part of a text that is not between double quotes. -/
def outsideQuotes : Bool → List Char → List Char
  | _, [] => []
  | quoted, c :: text =>
      if c = '"' then outsideQuotes (!quoted) text
      else if quoted then outsideQuotes quoted text
      else c :: outsideQuotes quoted text

/-- Whether the end of a text is between double quotes. -/
def endsQuoted : Bool → List Char → Bool
  | quoted, [] => quoted
  | quoted, c :: text => endsQuoted (if c = '"' then !quoted else quoted) text

theorem outsideQuotes_append (quoted : Bool) (t u : List Char) :
    outsideQuotes quoted (t ++ u) =
      outsideQuotes quoted t ++ outsideQuotes (endsQuoted quoted t) u := by
  induction t generalizing quoted with
  | nil => rfl
  | cons c t ih =>
    by_cases hmark : c = '"'
    · simp [outsideQuotes, endsQuoted, hmark, ih]
    · by_cases hquoted : quoted = true
      · simp [outsideQuotes, endsQuoted, hmark, hquoted, ih]
      · simp [outsideQuotes, endsQuoted, hmark, hquoted, ih]

theorem endsQuoted_append (quoted : Bool) (t u : List Char) :
    endsQuoted quoted (t ++ u) = endsQuoted (endsQuoted quoted t) u := by
  induction t generalizing quoted with
  | nil => rfl
  | cons c t ih => exact ih _

end TaggedWire
