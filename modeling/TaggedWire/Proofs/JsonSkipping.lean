import Mathlib.Data.List.TakeDrop
import TaggedWire.Proofs.JsonReading

/-! # Passing over any value

    `skipValue` gets past every JSON value, however deep it nests, and stops
    right behind it.

    A run is described by its steps: `Skips n p q` says that `n` steps lead
    from `p` to `q`, whatever fuel is left then. The number of steps is
    bounded by the length of the text that they pass, which is why the fuel
    always suffices.

    Nothing marks the end of a number, so a value has to be followed by a
    character that cannot continue it.
-/

namespace TaggedWire.JsonText

/-! ## What follows a value -/

/-- The first character, if there is one, is among those given. -/
def StartsIn (allowed : List Char) (s : List Char) : Prop := ∀ c, s.head? = some c → c ∈ allowed

/-- The characters that may follow a value. -/
def delimiters : List Char := [' ', '\t', '\n', '\r', ',', ']', '}']

theorem StartsIn.cons {allowed : List Char} {c : Char} (h : c ∈ allowed) (s : List Char) :
    StartsIn allowed (c :: s) := by
  intro d hd
  cases hd
  exact h

/-- Behind blanks a delimiter is as good as at once. -/
theorem StartsIn.after_blanks {blanks s : List Char} (h : Blanks blanks)
    (hs : StartsIn delimiters s) : StartsIn delimiters (blanks ++ s) := by
  cases blanks with
  | nil => exact hs
  | cons c blanks =>
    have hc : c ∈ [' ', '\t', '\n', '\r'] := h c List.mem_cons_self
    exact StartsIn.cons (List.mem_append_left [',', ']', '}'] hc) _

/-! ## Strings -/

theorem skipQuoted_escape {s rest : List Char} (h : skipEscape s = .ok rest) :
    skipQuoted ('\\' :: s) = skipQuoted rest := by
  rw [skipQuoted, if_neg (by decide), if_pos rfl]
  split
  case h_1 heq => rw [h] at heq; cases heq
  case h_2 heq => rw [h] at heq; cases heq; rfl

theorem skipQuoted_content {s : List Char} (h : IsContent s) (rest : List Char) :
    skipQuoted (s ++ '"' :: rest) = .ok rest := by
  induction h with
  | nil => rw [List.nil_append, skipQuoted, if_pos rfl]
  | plain hc _ ih =>
    rw [List.cons_append, skipQuoted, if_neg hc.2.1, if_neg hc.2.2, isControl_of_isPlain hc]
    simpa using ih
  | letter hletter _ ih =>
    obtain ⟨hu, hshort⟩ := shortEscape?_of_mem hletter
    rw [List.cons_append, List.cons_append, skipQuoted_escape, ih]
    simp [skipEscape, hu, hshort]
  | unit hunit _ ih =>
    obtain ⟨digits, rfl, hread⟩ := hunit.exists_digits
    rw [List.append_assoc, List.cons_append, List.cons_append, skipQuoted_escape, ih]
    simp [skipEscape, hread]

/-! ## Numbers -/

theorem spanDigits_append {digits rest : List Char} (h : IsDigits digits)
    (hrest : StartsIn ('.' :: 'e' :: 'E' :: delimiters) rest) :
    spanDigits (digits ++ rest) = (digits, rest) := by
  have hall : ('.' :: 'e' :: 'E' :: delimiters).all (fun c => !c.isDigit) = true := rfl
  have hstop : rest.takeWhile Char.isDigit = [] ∧ rest.dropWhile Char.isDigit = rest := by
    cases rest with
    | nil => exact ⟨rfl, rfl⟩
    | cons c rest =>
      have hc : c.isDigit = false := by
        simpa using List.all_eq_true.mp hall c (hrest c rfl)
      simp [hc]
  rw [spanDigits, List.span_eq_takeWhile_dropWhile, List.takeWhile_append_of_pos h.2,
    List.dropWhile_append_of_pos h.2, hstop.1, hstop.2, List.append_nil]

theorem writtenExponentDigits_append {digits rest : List Char} (h : IsDigits digits)
    (hrest : StartsIn delimiters rest) (n : Numeral) (negative : Bool) :
    ∃ m, writtenExponentDigits n negative (digits ++ rest) = .numeral m rest := by
  have hspan : spanDigits (digits ++ rest) = (digits, rest) :=
    spanDigits_append h fun c hc => by simp [hrest c hc]
  cases digits with
  | nil => exact absurd rfl h.1
  | cons d digits => exact ⟨_, by rw [writtenExponentDigits, hspan]⟩

theorem writtenExponent_append {s rest : List Char} (h : IsExponent s)
    (hrest : StartsIn delimiters rest) (n : Numeral) :
    ∃ m, writtenExponent n (s ++ rest) = .numeral m rest := by
  obtain rfl | ⟨letter, sign, digits, hletter, hsign, hdigits, rfl⟩ := h
  · cases rest with
    | nil => exact ⟨n, rfl⟩
    | cons c rest =>
      have hall : delimiters.all (fun c => c != 'e' && c != 'E') = true := rfl
      have hc : c ≠ 'e' ∧ c ≠ 'E' := by simpa using List.all_eq_true.mp hall c (hrest c rfl)
      exact ⟨n, by simp [writtenExponent, hc]⟩
  · have hletter' : letter = 'e' ∨ letter = 'E' := by simpa using hletter
    simp only [List.cons_append, List.append_assoc, writtenExponent, if_pos hletter']
    simp only [List.mem_cons, List.not_mem_nil, or_false] at hsign
    obtain rfl | rfl | rfl := hsign
    · -- Without a sign, the first digit must not be taken for one.
      cases digits with
      | nil => exact absurd rfl hdigits.1
      | cons d digits =>
        have hd : d.isDigit = true := hdigits.2 d List.mem_cons_self
        have hplus : d ≠ '+' := by rintro rfl; cases hd
        have hminus : d ≠ '-' := by rintro rfl; cases hd
        have := writtenExponentDigits_append hdigits hrest n false
        simpa [hplus, hminus] using this
    · exact writtenExponentDigits_append hdigits hrest n false
    · exact writtenExponentDigits_append hdigits hrest n true

theorem startsIn_exponent {s rest : List Char} (h : IsExponent s)
    (hrest : StartsIn delimiters rest) : StartsIn ('e' :: 'E' :: delimiters) (s ++ rest) := by
  obtain rfl | ⟨letter, sign, digits, hletter, -, -, rfl⟩ := h
  · intro c hc
    simp [hrest c hc]
  · exact StartsIn.cons (List.mem_append_left delimiters hletter) _

theorem writtenFraction_append {s exponent rest : List Char} (h : IsFraction s)
    (hexponent : IsExponent exponent) (hrest : StartsIn delimiters rest) (n : Numeral) :
    ∃ m, writtenFraction n (s ++ (exponent ++ rest)) = .numeral m rest := by
  have hstart := startsIn_exponent hexponent hrest
  obtain rfl | ⟨digits, hdigits, rfl⟩ := h
  · have hpoint : ∀ t, exponent ++ rest ≠ '.' :: t := by
      intro t heq
      have hmem : '.' ∈ 'e' :: 'E' :: delimiters := hstart '.' (by rw [heq]; rfl)
      revert hmem
      decide
    obtain ⟨m, hm⟩ := writtenExponent_append hexponent hrest n
    refine ⟨m, ?_⟩
    rw [List.nil_append, writtenFraction, hm]
    exact hpoint
  · have hspan : spanDigits (digits ++ (exponent ++ rest)) = (digits, exponent ++ rest) :=
      spanDigits_append hdigits fun c hc => List.mem_cons_of_mem _ (hstart c hc)
    cases digits with
    | nil => exact absurd rfl hdigits.1
    | cons d digits =>
      obtain ⟨m, hm⟩ := writtenExponent_append hexponent hrest { n with fraction := d :: digits }
      refine ⟨m, ?_⟩
      rw [List.cons_append, writtenFraction, hspan]
      exact hm

theorem skipNumber_append {whole fraction exponent rest : List Char} (hwhole : IsWhole whole)
    (hfraction : IsFraction fraction) (hexponent : IsExponent exponent)
    (hrest : StartsIn delimiters rest) :
    skipNumber (whole ++ (fraction ++ (exponent ++ rest))) = .ok rest := by
  have hstart : StartsIn ('.' :: 'e' :: 'E' :: delimiters) (fraction ++ (exponent ++ rest)) := by
    obtain rfl | ⟨digits, -, rfl⟩ := hfraction
    · intro c hc
      exact List.mem_cons_of_mem _ (startsIn_exponent hexponent hrest c hc)
    · exact StartsIn.cons List.mem_cons_self _
  have hspan := spanDigits_append hwhole.1 hstart
  obtain ⟨m, hm⟩ := writtenFraction_append hfraction hexponent hrest ⟨whole, [], 0⟩
  have hwritten : writtenNumber (whole ++ (fraction ++ (exponent ++ rest))) = .numeral m rest := by
    rw [writtenNumber, hspan]
    split
    case h_1 heq => cases heq; exact absurd rfl hwhole.1.1
    case h_2 heq => cases heq; exact hm
    case h_3 heq => cases heq; cases hwhole.2 rfl
    case h_4 heq => cases heq; exact hm
  rw [skipNumber, hwritten]

/-! ## Values that are no containers -/

/-- The first characters of values that do not start with a digit. -/
def valueMarks : List Char := ['n', 't', 'f', '"', '-', '[', '{']

/-- The first characters of values. -/
def StartsValue (c : Char) : Prop := c ∈ valueMarks ∨ c.isDigit = true

theorem StartsValue.not_delimiter {c : Char} (h : StartsValue c) : c ∉ delimiters := by
  intro hc
  have hall : delimiters.all (fun c => !valueMarks.contains c && !c.isDigit) = true := rfl
  have := List.all_eq_true.mp hall c hc
  simp only [Bool.and_eq_true, Bool.not_eq_true', List.contains_eq_mem,
    decide_eq_false_iff_not] at this
  obtain h | h := h
  · exact this.1 h
  · rw [this.2] at h
    cases h

theorem StartsValue.not_blank {c : Char} (h : StartsValue c) : isJsonBlank c = false := by
  have hnot := h.not_delimiter
  rw [Bool.eq_false_iff]
  intro hblank
  exact hnot (List.mem_append_left [',', ']', '}'] (isJsonBlank_iff.mp hblank))

theorem StartsValue.ne_closing {c : Char} (h : StartsValue c) (container : Container) :
    c ≠ container.closing := by
  rintro rfl
  apply h.not_delimiter
  cases container with
  | array => decide
  | object => decide

/-- A value that is passed over as a whole. -/
structure Scalar (s : List Char) : Prop where
  starts : ∃ c t, s = c :: t ∧ StartsValue c ∧ c ≠ '[' ∧ c ≠ '{'
  skips : ∀ rest, StartsIn delimiters rest → skipScalar (s ++ rest) = .ok rest

theorem scalar_word {text : String} (h : text ∈ ["null", "true", "false"]) :
    Scalar text.toList := by
  simp only [List.mem_cons, List.not_mem_nil, or_false] at h
  obtain rfl | rfl | rfl := h
  · exact ⟨⟨'n', "ull".toList, rfl, .inl (by decide), by decide, by decide⟩, fun _ _ => rfl⟩
  · exact ⟨⟨'t', "rue".toList, rfl, .inl (by decide), by decide, by decide⟩, fun _ _ => rfl⟩
  · exact ⟨⟨'f', "alse".toList, rfl, .inl (by decide), by decide, by decide⟩, fun _ _ => rfl⟩

theorem scalar_string {s : List Char} (h : IsString s) : Scalar s := by
  obtain ⟨body, hbody, rfl⟩ := h
  refine ⟨⟨'"', _, rfl, .inl (by decide), by decide, by decide⟩, fun rest _ => ?_⟩
  show skipQuoted (body ++ ['"'] ++ rest) = .ok rest
  rw [List.append_assoc]
  exact skipQuoted_content hbody rest

theorem scalar_number {s : List Char} (h : IsNumber s) : Scalar s := by
  obtain ⟨sign, whole, fraction, exponent, rfl, hsign, hwhole, hfraction, hexponent⟩ := h
  have hskip : ∀ rest, StartsIn delimiters rest →
      skipNumber (whole ++ (fraction ++ exponent) ++ rest) = .ok rest := by
    intro rest hrest
    rw [List.append_assoc, List.append_assoc]
    exact skipNumber_append hwhole hfraction hexponent hrest
  obtain rfl | rfl : sign = [] ∨ sign = ['-'] := by simpa using hsign
  · cases whole with
    | nil => exact absurd rfl hwhole.1.1
    | cons d digits =>
      have hd : d.isDigit = true := hwhole.1.2 d List.mem_cons_self
      have hne : ∀ c : Char, c.isDigit = false → d ≠ c := by
        intro c hc heq
        rw [← heq, hd] at hc
        cases hc
      refine ⟨⟨d, _, rfl, .inr hd, hne '[' rfl, hne '{' rfl⟩, fun rest hrest => ?_⟩
      have := hskip rest hrest
      simp only [List.nil_append, List.cons_append] at this ⊢
      simp only [skipScalar, hne 'n' rfl, hne 't' rfl, hne 'f' rfl, hne '"' rfl, hne '-' rfl, hd,
        if_true, if_false, this]
  · exact ⟨⟨'-', _, rfl, .inl (by decide), by decide, by decide⟩, fun rest hrest =>
      hskip rest hrest⟩

/-- Every value starts with a character of its own. -/
theorem IsJson.starts {s : List Char} (h : IsJson .value s) :
    ∃ c t, s = c :: t ∧ StartsValue c := by
  have of_scalar : Scalar s → ∃ c t, s = c :: t ∧ StartsValue c := by
    intro hs
    obtain ⟨c, t, heq, hc, -⟩ := hs.starts
    exact ⟨c, t, heq, hc⟩
  have opening (container : Container) : StartsValue container.opening := by
    cases container with
    | array => exact .inl (by decide)
    | object => exact .inl (by decide)
  cases h with
  | word hword => exact of_scalar (scalar_word hword)
  | number hnumber => exact of_scalar (scalar_number hnumber)
  | string hstring => exact of_scalar (scalar_string hstring)
  | empty container _ => exact ⟨_, _, rfl, opening container⟩
  | full container _ => exact ⟨_, _, rfl, opening container⟩

/-! ## Single steps -/

section Steps

variable {container : Container} {around : List Container} {before lead s rest : List Char}

theorem skipStep_scalar (h : Scalar s) (hbefore : Blanks before)
    (hrest : StartsIn delimiters rest) :
    skipStep .atValue around (before ++ (s ++ rest)) = .ok (.ended, around, rest) := by
  have hskips := h.skips rest hrest
  obtain ⟨c, t, rfl, hc, harray, hobject⟩ := h.starts
  rw [List.cons_append] at hskips ⊢
  rw [skipStep, skipBlanks_before hbefore hc.not_blank]
  split
  case h_1 heq => cases heq; exact absurd rfl harray
  case h_2 heq => cases heq; exact absurd rfl hobject
  case h_3 => rw [hskips]

theorem skipStep_open (hbefore : Blanks before) :
    skipStep .atValue around (before ++ container.opening :: s) =
      .ok (.opened, container :: around, s) := by
  cases container with
  | array => rw [skipStep, skipBlanks_before hbefore rfl]; rfl
  | object => rw [skipStep, skipBlanks_before hbefore rfl]; rfl

theorem closing_not_blank (container : Container) : isJsonBlank container.closing = false := by
  cases container <;> rfl

theorem skipStep_closeOpened (hbefore : Blanks before) :
    skipStep .opened (container :: around) (before ++ container.closing :: s) =
      .ok (.ended, around, s) := by
  simp [skipStep, skipBlanks_before hbefore (closing_not_blank container)]

theorem skipStep_closeEnded (hbefore : Blanks before) :
    skipStep .ended (container :: around) (before ++ container.closing :: s) =
      .ok (.ended, around, s) := by
  simp [skipStep, skipBlanks_before hbefore (closing_not_blank container)]

/-- What leads to a value is passed over, up to blanks. -/
theorem Leads.skipToItem (h : Leads container lead) (s : List Char) :
    ∃ blanks, Blanks blanks ∧ skipToItem container (lead ++ s) = .ok (blanks ++ s) := by
  cases container with
  | array => exact ⟨lead, h, rfl⟩
  | object =>
    obtain ⟨first, key, between, after, rfl, hfirst, hkey, hbetween, hafter⟩ := h
    obtain ⟨body, hbody, rfl⟩ := hkey
    refine ⟨after, hafter, ?_⟩
    simp only [JsonText.skipToItem, skipKey, List.append_assoc, List.cons_append,
      List.nil_append]
    simp [skipBlanks_before hfirst, skipQuoted_content hbody, skipBlanks_before hbetween,
      isJsonBlank]

/-- Behind an opening character, an item is seen not to close the container. -/
theorem skipStep_enterOpened (h : Leads container lead) {c : Char} (hc : StartsValue c)
    (around : List Container) (s : List Char) :
    ∃ blanks, Blanks blanks ∧ skipStep .opened (container :: around) (lead ++ c :: s) =
      .ok (.atValue, container :: around, blanks ++ c :: s) := by
  cases container with
  | array =>
    refine ⟨[], .nil, ?_⟩
    simp [skipStep, skipBlanks_before h hc.not_blank, hc.ne_closing, JsonText.skipToItem]
  | object =>
    obtain ⟨first, key, between, after, rfl, hfirst, hkey, hbetween, hafter⟩ := h
    -- The key is all that the item starts with once the blanks are gone.
    have hlead : Leads .object (key ++ (between ++ ':' :: after)) :=
      ⟨[], key, between, after, rfl, .nil, hkey, hbetween, hafter⟩
    obtain ⟨blanks, hblanks, hskip⟩ := hlead.skipToItem (c :: s)
    obtain ⟨body, hbody, rfl⟩ := hkey
    refine ⟨blanks, hblanks, ?_⟩
    simp only [List.append_assoc, List.cons_append] at hskip ⊢
    rw [skipStep, skipBlanks_before hfirst rfl]
    simp only [hskip]
    rfl

theorem skipStep_enterComma (h : Leads container lead) (hbefore : Blanks before)
    (around : List Container) (s : List Char) :
    ∃ blanks, Blanks blanks ∧
      skipStep .ended (container :: around) (before ++ ',' :: (lead ++ s)) =
        .ok (.atValue, container :: around, blanks ++ s) := by
  obtain ⟨blanks, hblanks, hskip⟩ := h.skipToItem s
  refine ⟨blanks, hblanks, ?_⟩
  have hclosing : ',' ≠ container.closing := by cases container <;> decide
  rw [skipStep, skipBlanks_before hbefore rfl]
  simp only [hclosing, if_false, if_true, hskip]

end Steps

/-! ## Runs -/

/-- A place, the containers around it and the text behind it. -/
abbrev Spot := Place × List Container × List Char

/-- `n` steps lead from one spot to another. -/
def Skips (n : Nat) (p q : Spot) : Prop :=
  ∀ fuel, skipSteps (fuel + n) p.1 p.2.1 p.2.2 = skipSteps fuel q.1 q.2.1 q.2.2

theorem Skips.trans {m n : Nat} {p q r : Spot} (h : Skips m p q) (h' : Skips n q r) :
    Skips (m + n) p r := by
  intro fuel
  rw [show fuel + (m + n) = fuel + n + m by omega, h, h']

theorem Skips.one {place : Place} {around : List Container} {s : List Char} {q : Spot}
    (h : skipStep place around s = .ok q) (hplace : place = .ended → around ≠ []) :
    Skips 1 (place, around, s) q := by
  intro fuel
  rw [skipSteps]
  · rw [h]
  · rintro rfl rfl
    exact hplace rfl rfl

/-- A value is passed in any surroundings, in fewer than two steps for each
    of its characters. -/
def PassesValue (s : List Char) : Prop :=
  ∀ around before rest, Blanks before → StartsIn delimiters rest →
    ∃ n < 2 * s.length, Skips n (.atValue, around, before ++ (s ++ rest)) (.ended, around, rest)

/-- From the first value among these items on, their container is passed. How
    that value is reached differs behind an opening character and behind a
    comma, so it is left to the place of use. -/
def PassesItems (container : Container) (s : List Char) : Prop :=
  ∃ lead c t, s = lead ++ c :: t ∧ Leads container lead ∧ StartsValue c ∧
    ∀ around before rest, Blanks before →
      ∃ n ≤ 2 * s.length, Skips n
        (.atValue, container :: around, before ++ c :: (t ++ container.closing :: rest))
        (.ended, around, rest)

/-- What there is to say of each part of a text. -/
def PassesPart : Part → List Char → Prop
  | .value, s => PassesValue s
  | .items container, s => PassesItems container s

theorem Scalar.passes {s : List Char} (h : Scalar s) : PassesValue s := by
  intro around before rest hbefore hrest
  obtain ⟨c, t, hs, -⟩ := h.starts
  refine ⟨1, ?_, .one (skipStep_scalar h hbefore hrest) (by simp)⟩
  rw [hs, List.length_cons]
  omega

theorem passes_empty (container : Container) {blanks : List Char} (h : Blanks blanks) :
    PassesValue (container.opening :: (blanks ++ [container.closing])) := by
  intro around before rest hbefore _
  refine ⟨1 + 1, ?_, ?_⟩
  · simp only [List.length_cons, List.length_append, List.length_nil]
    omega
  · rw [List.cons_append, List.append_assoc]
    exact (Skips.one (skipStep_open hbefore) (by simp)).trans
      (.one (skipStep_closeOpened h) (by simp))

theorem PassesItems.full {container : Container} {s : List Char} (h : PassesItems container s) :
    PassesValue (container.opening :: (s ++ [container.closing])) := by
  intro around before rest hbefore _
  obtain ⟨lead, c, t, hs, hlead, hc, hpass⟩ := h
  obtain ⟨blanks, hblanks, henter⟩ :=
    skipStep_enterOpened hlead hc around (t ++ container.closing :: rest)
  obtain ⟨n, hn, hskips⟩ := hpass around blanks rest hblanks
  refine ⟨1 + 1 + n, ?_, ?_⟩
  · simp only [List.length_cons, List.length_append, List.length_nil]
    omega
  · have hopen : Skips 1 (.atValue, around, before ++ container.opening ::
        (lead ++ c :: (t ++ container.closing :: rest)))
        (.opened, container :: around, lead ++ c :: (t ++ container.closing :: rest)) :=
      .one (skipStep_open hbefore) (by simp)
    simpa [hs] using (hopen.trans (.one henter (by simp))).trans hskips

theorem closing_mem_delimiters (container : Container) : container.closing ∈ delimiters := by
  cases container <;> decide

theorem PassesValue.last {container : Container} {lead s blanks : List Char}
    (hlead : Leads container lead) (hstarts : ∃ c t, s = c :: t ∧ StartsValue c)
    (h : PassesValue s) (hblanks : Blanks blanks) :
    PassesItems container (lead ++ (s ++ blanks)) := by
  obtain ⟨c, t, rfl, hc⟩ := hstarts
  refine ⟨lead, c, t ++ blanks, rfl, hlead, hc, ?_⟩
  intro around before rest hbefore
  obtain ⟨n, hn, hskips⟩ := h (container :: around) before (blanks ++ container.closing :: rest)
    hbefore (.after_blanks hblanks (.cons (closing_mem_delimiters container) rest))
  refine ⟨n + 1, ?_, ?_⟩
  · simp only [List.length_append]
    omega
  · rw [List.append_assoc]
    exact hskips.trans (.one (skipStep_closeEnded hblanks) (by simp))

theorem PassesValue.more {container : Container} {lead s blanks more : List Char}
    (hlead : Leads container lead) (hstarts : ∃ c t, s = c :: t ∧ StartsValue c)
    (h : PassesValue s) (hblanks : Blanks blanks) (hmore : PassesItems container more) :
    PassesItems container (lead ++ (s ++ (blanks ++ ',' :: more))) := by
  obtain ⟨c, t, rfl, hc⟩ := hstarts
  refine ⟨lead, c, t ++ (blanks ++ ',' :: more), rfl, hlead, hc, ?_⟩
  intro around before rest hbefore
  obtain ⟨lead', c', t', hmoreEq, hlead', -, hpass⟩ := hmore
  obtain ⟨n, hn, hskips⟩ := h (container :: around) before
    (blanks ++ ',' :: (more ++ container.closing :: rest)) hbefore
    (.after_blanks hblanks (.cons (by decide) _))
  obtain ⟨blanks', hblanks', henter⟩ :=
    skipStep_enterComma hlead' hblanks around (c' :: (t' ++ container.closing :: rest))
  obtain ⟨m, hm, hskips'⟩ := hpass around blanks' rest hblanks'
  refine ⟨n + 1 + m, ?_, ?_⟩
  · simp only [List.length_append, List.length_cons] at hn ⊢
    omega
  · simp only [hmoreEq, List.append_assoc, List.cons_append] at hskips ⊢
    exact (hskips.trans (.one henter (by simp))).trans hskips'

/-- **Every JSON value is passed**, at any depth of nesting. -/
theorem IsJson.passes {part : Part} {s : List Char} (h : IsJson part s) : PassesPart part s := by
  induction h with
  | word hword => exact (scalar_word hword).passes
  | number hnumber => exact (scalar_number hnumber).passes
  | string hstring => exact (scalar_string hstring).passes
  | empty container hblanks => exact passes_empty container hblanks
  | full _ _ ih => exact PassesItems.full ih
  | last hlead hs hblanks ih => exact PassesValue.last hlead hs.starts ih hblanks
  | more hlead hs hblanks _ ih ihmore =>
    exact PassesValue.more hlead hs.starts ih hblanks ihmore

theorem skipValue_append {before s rest : List Char} (hbefore : Blanks before)
    (h : IsJson .value s) (hrest : StartsIn delimiters rest) :
    skipValue (before ++ (s ++ rest)) = .ok ((), rest) := by
  obtain ⟨n, hn, hskips⟩ := h.passes [] before rest hbefore hrest
  obtain ⟨fuel, hfuel⟩ : ∃ fuel, 2 * (before ++ (s ++ rest)).length + 1 = fuel + n := by
    refine ⟨2 * (before ++ (s ++ rest)).length + 1 - n, ?_⟩
    simp only [List.length_append]
    omega
  have hend : skipSteps fuel .ended [] rest = .ok rest := by rw [skipSteps]
  rw [skipValue, hfuel, hskips fuel, hend]

end TaggedWire.JsonText
