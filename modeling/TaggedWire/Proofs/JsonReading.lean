import TaggedWire.JsonText.Record
import TaggedWire.Proofs.Blocks
import TaggedWire.Proofs.JsonGrammar

/-! # Reading the tokens of JSON

    What the readers make of blanks, single characters, strings and words
    that are spelled as the grammar has them. Each lemma is about a spelling
    with any text after it, so that they chain along a text.
-/

namespace TaggedWire.JsonText

/-- Reading any of these texts, behind any blanks, gives `a` and stops right
    behind the text. -/
def ReadsAs {α : Type} (reader : Reader α) (text : List Char → Prop) (a : α) : Prop :=
  ∀ before s rest, Blanks before → text s → reader (before ++ (s ++ rest)) = .ok (a, rest)

theorem bind_of_ok {α β : Type} {reader : Reader α} {next : α → Reader β} {s rest : List Char}
    {a : α} (h : reader s = .ok (a, rest)) : (reader >>= next) s = next a rest := by
  show Except.bind (reader s) _ = _
  rw [h]
  rfl

theorem ReadsAs.map {α β : Type} {reader : Reader α} {text : List Char → Prop} {a : α}
    (h : ReadsAs reader text a) (f : α → β) :
    ReadsAs (reader >>= fun a => pure (f a)) text (f a) := by
  intro before s rest hbefore hs
  rw [bind_of_ok (h before s rest hbefore hs)]
  rfl

/-! ## Blanks -/

theorem isJsonBlank_iff {c : Char} : isJsonBlank c = true ↔ c ∈ [' ', '\t', '\n', '\r'] := by
  simp [isJsonBlank, or_assoc]

theorem skipBlanks_append {before s : List Char} (h : Blanks before) :
    skipBlanks (before ++ s) = skipBlanks s :=
  List.dropWhile_append_of_pos fun c hc => isJsonBlank_iff.mpr (h c hc)

theorem skipBlanks_cons {c : Char} {s : List Char} (h : isJsonBlank c = false) :
    skipBlanks (c :: s) = c :: s :=
  List.dropWhile_cons_of_neg (by simp [h])

theorem skipBlanks_of_blanks {s : List Char} (h : Blanks s) : skipBlanks s = [] := by
  have := skipBlanks_append (s := []) h
  rwa [List.append_nil] at this

theorem skipBlanks_before {before s : List Char} {c : Char} (h : Blanks before)
    (hc : isJsonBlank c = false) : skipBlanks (before ++ c :: s) = c :: s := by
  rw [skipBlanks_append h, skipBlanks_cons hc]

theorem peek_before {before s : List Char} {c : Char} (h : Blanks before)
    (hc : isJsonBlank c = false) : peek (before ++ c :: s) = .ok (some c, c :: s) := by
  simp only [peek, skipBlanks_before h hc, List.head?_cons]

theorem expect_before {before s : List Char} {c : Char} (h : Blanks before)
    (hc : isJsonBlank c = false) : expect c (before ++ c :: s) = .ok ((), s) := by
  rw [expect, bind_of_ok (peek_before h hc)]
  simp [take]

/-! ## Escapes -/

theorem hexDigit?_of_mem {c : Char} {n : Nat} (h : (c, n) ∈ hexDigits) :
    hexDigit? c = some n := by
  have all : hexDigits.all (fun digit => hexDigit? digit.1 == some digit.2) = true := rfl
  simpa using List.all_eq_true.mp all (c, n) h

theorem shortEscape?_of_mem {letter c : Char} (h : (letter, c) ∈ letterEscapes) :
    letter ≠ 'u' ∧ shortEscape? letter = some c := by
  have all : letterEscapes.all
      (fun escape => escape.1 != 'u' && shortEscape? escape.1 == some escape.2) = true := rfl
  simpa using List.all_eq_true.mp all (letter, c) h

/-- Four characters are never short of four bytes. -/
theorem isShort_four (a b c d : Char) (rest : List Char) :
    isShort (a :: b :: c :: d :: rest) = false := by
  have := a.utf8Size_pos
  have := b.utf8Size_pos
  have := c.utf8Size_pos
  have := d.utf8Size_pos
  apply decide_eq_false
  show ¬0 + a.utf8Size + b.utf8Size + c.utf8Size + d.utf8Size < 4
  omega

/-- The digits of an escape give its number. -/
theorem UnitEscape.exists_digits {n : Nat} {escape : List Char} (h : UnitEscape n escape) :
    ∃ digits, escape = '\\' :: 'u' :: digits ∧
      ∀ rest, readUnit (digits ++ rest) = .ok (n, rest) := by
  cases h with
  | @mk a b c d w x y z ha hb hc hd =>
    refine ⟨[a, b, c, d], rfl, fun rest => ?_⟩
    have hunit : hexUnit? a b c d = some (((w * 16 + x) * 16 + y) * 16 + z) := by
      simp [hexUnit?, hexDigit?_of_mem ha, hexDigit?_of_mem hb, hexDigit?_of_mem hc,
        hexDigit?_of_mem hd]
    simp [readUnit, isShort_four, hunit]

theorem toNat_notSurrogate (c : Char) :
    c.toNat < 0xd800 ∨ 0xdfff < c.toNat ∧ c.toNat < 0x110000 :=
  c.valid

/-- The escapes of the units of a character are read as the character. -/
theorem readEscape_units {c : Char} {escapes : List (List Char)}
    (h : List.Forall₂ UnitEscape (utf16Units c) escapes) (rest : List Char) :
    ∃ s, escapes.flatten ++ rest = '\\' :: s ∧ readEscape s = .ok (c, rest) := by
  have hvalid := toNat_notSurrogate c
  rw [utf16Units] at h
  split at h
  case isTrue hsmall =>
    obtain ⟨escape, _, hunit, hnil, rfl⟩ := List.forall₂_cons_left_iff.mp h
    cases List.forall₂_nil_left_iff.mp hnil
    obtain ⟨digits, rfl, hread⟩ := hunit.exists_digits
    refine ⟨'u' :: (digits ++ rest), by simp, ?_⟩
    have hlow : isLowSurrogate c.toNat = false := by
      simp only [isLowSurrogate, Bool.and_eq_false_iff, decide_eq_false_iff_not]; omega
    have hhigh : isHighSurrogate c.toNat = false := by
      simp only [isHighSurrogate, Bool.and_eq_false_iff, decide_eq_false_iff_not]; omega
    simp [readEscape, readUnicodeEscape, hread, hlow, hhigh, Char.ofNat_toNat]
  case isFalse hlarge =>
    obtain ⟨first, _, hfirst, h', rfl⟩ := List.forall₂_cons_left_iff.mp h
    obtain ⟨second, _, hsecond, hnil, rfl⟩ := List.forall₂_cons_left_iff.mp h'
    cases List.forall₂_nil_left_iff.mp hnil
    obtain ⟨digits, rfl, hread⟩ := hfirst.exists_digits
    obtain ⟨digits', rfl, hread'⟩ := hsecond.exists_digits
    refine ⟨'u' :: (digits ++ '\\' :: 'u' :: (digits' ++ rest)), by simp, ?_⟩
    -- The two halves are in the ranges of a pair, and the pair is `c` again.
    generalize hhighUnit : 0xd800 + (c.toNat - 0x10000) / 0x400 = high at hread
    generalize hlowUnit : 0xdc00 + (c.toNat - 0x10000) % 0x400 = low at hread'
    have hnotLow : isLowSurrogate high = false := by
      simp only [isLowSurrogate, Bool.and_eq_false_iff, decide_eq_false_iff_not]; omega
    have hhigh : isHighSurrogate high = true := by
      simp only [isHighSurrogate, Bool.and_eq_true, decide_eq_true_eq]; omega
    have hlow : isLowSurrogate low = true := by
      simp only [isLowSurrogate, Bool.and_eq_true, decide_eq_true_eq]; omega
    have hpair : pairValue high low = c.toNat := by
      simp only [pairValue]; omega
    simp [readEscape, readUnicodeEscape, readLowSurrogate, hread, hread', hnotLow, hhigh, hlow,
      hpair, Char.ofNat_toNat]

theorem readEscape_letter {letter c : Char} (h : (letter, c) ∈ letterEscapes)
    (rest : List Char) : readEscape (letter :: rest) = .ok (c, rest) := by
  obtain ⟨hu, hshort⟩ := shortEscape?_of_mem h
  simp [readEscape, hu, hshort]

/-! ## Strings -/

theorem isControl_of_isPlain {c : Char} (h : IsPlain c) : isControl c = false := by
  simpa [isControl] using h.1

theorem readQuotedAfter_escape {sofar : String} {c : Char} {s rest : List Char}
    (h : readEscape s = .ok (c, rest)) :
    readQuotedAfter sofar ('\\' :: s) = readQuotedAfter (sofar.push c) rest := by
  rw [readQuotedAfter, if_neg (by decide), if_pos rfl]
  split
  case h_1 heq => rw [h] at heq; cases heq
  case h_2 heq => rw [h] at heq; cases heq; rfl

/-- Each spelling of a character adds that character. -/
theorem readQuotedAfter_char {c : Char} {s : List Char} (h : CharText c s) (sofar : String)
    (rest : List Char) :
    readQuotedAfter sofar (s ++ rest) = readQuotedAfter (sofar.push c) rest := by
  cases h with
  | plain hc =>
    show readQuotedAfter sofar (c :: rest) = _
    rw [readQuotedAfter, if_neg hc.2.1, if_neg hc.2.2, isControl_of_isPlain hc]
    simp
  | letter hletter => exact readQuotedAfter_escape (readEscape_letter hletter rest)
  | units hunits =>
    obtain ⟨t, heq, hread⟩ := readEscape_units hunits rest
    rw [heq]
    exact readQuotedAfter_escape hread

theorem readQuotedAfter_chars {cs s : List Char} (h : CharsText cs s) (sofar : String)
    (rest : List Char) :
    readQuotedAfter sofar (s ++ '"' :: rest) = .ok (cs.foldl String.push sofar, rest) := by
  induction h generalizing sofar with
  | nil => rw [List.nil_append, readQuotedAfter, if_pos rfl]; rfl
  | cons hc _ ih => rw [List.append_assoc, readQuotedAfter_char hc, ih, List.foldl_cons]

theorem readQuoted_body {text : String} {body : List Char} (h : CharsText text.toList body)
    (rest : List Char) : readQuoted (body ++ '"' :: rest) = .ok (text, rest) := by
  rw [readQuoted, readQuotedAfter_chars h, foldl_push_empty, String.ofList_toList]

theorem readsAs_readKey (key : String) : ReadsAs readKey (StringText key) key := by
  intro before s rest hbefore hs
  obtain ⟨body, hbody, rfl⟩ := hs
  rw [readKey, List.cons_append, bind_of_ok (expect_before hbefore rfl), List.append_assoc]
  exact readQuoted_body hbody rest

theorem readsAs_readString (text : String) : ReadsAs readString (StringText text) text := by
  intro before s rest hbefore hs
  obtain ⟨body, hbody, rfl⟩ := hs
  rw [readString, List.cons_append, bind_of_ok (peek_before hbefore rfl), List.append_assoc]
  exact readQuoted_body hbody rest

/-! ## The word `null` -/

/-- A string, or `null` for none. -/
def OptionalText : Option String → List Char → Prop
  | none, s => s = "null".toList
  | some text, s => StringText text s

theorem readsAs_readNull : ReadsAs readNull (· = "null".toList) () := by
  intro before s rest hbefore hs
  subst hs
  exact bind_of_ok (peek_before hbefore rfl)

theorem readsAs_readOptionalString (text : Option String) :
    ReadsAs readOptionalString (OptionalText text) text := by
  intro before s rest hbefore hs
  cases text with
  | none =>
    subst hs
    exact bind_of_ok (peek_before hbefore rfl)
  | some text =>
    have hread := readsAs_readString text [] s rest .nil hs
    obtain ⟨body, hbody, rfl⟩ := hs
    rw [readOptionalString, List.cons_append, bind_of_ok (peek_before hbefore rfl)]
    exact bind_of_ok hread

end TaggedWire.JsonText
