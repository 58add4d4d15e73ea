import TaggedWire.Proofs.Anchor
import TaggedWire.Proofs.BlockGrammar

/-! # Which occurrence of an anchor is taken

    The automaton leaves an anchor exactly after false starts and the
    literal (`enters_iff`). So it never takes anything for the literal that
    is not the literal, and the first occurrence is taken if and only if
    the text in front of it is made of false starts. An occurrence at the
    start of the text, or behind a character that is not in the literal, is
    such a case.

    No condition on the literal alone would do. A literal with two different
    characters is passed over where its own first character stands in
    front of it (`anchorNotFound_behind_head`). -/

namespace TaggedWire

/-! ## First occurrences -/

/-- The literal stands in the text behind `before` and nowhere further to
    the left. -/
structure FirstOccurrence (literal text before after : List Char) : Prop where
  here : text = before ++ literal ++ after
  first : ∀ b a, text = b ++ literal ++ a → before.length ≤ b.length

/-- A literal that occurs has a first occurrence. -/
theorem exists_firstOccurrence {literal text : List Char} (h : literal <:+: text) :
    ∃ before after, FirstOccurrence literal text before after := by
  obtain ⟨b, a, hba⟩ := h
  -- As long as there is one further to the left, take that.
  induction hlength : b.length using Nat.strongRecOn generalizing b a with
  | ind length ih =>
    by_cases hearlier : ∃ b' a', text = b' ++ literal ++ a' ∧ b'.length < length
    · obtain ⟨b', a', htext, hlt⟩ := hearlier
      exact ih b'.length hlt b' a' htext.symm rfl
    · refine ⟨b, a, hba.symm, ?_⟩
      intro b' a' htext
      refine Nat.le_of_not_lt fun hlt => hearlier ⟨b', a', htext, ?_⟩
      omega

/-- Nothing that starts before it may begin with the literal. -/
theorem FirstOccurrence.of_drop {literal text before after : List Char}
    (hhere : text = before ++ literal ++ after)
    (hnone : ∀ k, k < before.length → ¬ literal <+: text.drop k) :
    FirstOccurrence literal text before after where
  here := hhere
  first := by
    intro b a htext
    refine Nat.le_of_not_lt fun hlt => hnone b.length hlt ?_
    rw [htext, List.append_assoc, List.drop_left]
    exact List.prefix_append literal a

/-- There is only one. -/
theorem FirstOccurrence.unique {literal text before after before' after' : List Char}
    (h : FirstOccurrence literal text before after)
    (h' : FirstOccurrence literal text before' after') : before = before' ∧ after = after' := by
  have hlength : before.length = before'.length :=
    Nat.le_antisymm (h.first before' after' h'.here) (h'.first before after h.here)
  have hsame : before ++ (literal ++ after) = before' ++ (literal ++ after') := by
    rw [← List.append_assoc, ← List.append_assoc, ← h.here, ← h'.here]
  obtain ⟨hbefore, hrest⟩ := List.append_inj hsame hlength
  exact ⟨hbefore, List.append_cancel_left hrest⟩

/-- In front of its first occurrence the literal is not found. -/
theorem FirstOccurrence.not_found_before {literal text before after : List Char}
    (h : FirstOccurrence literal text before after) (hne : literal ≠ []) :
    ¬ Found literal before := by
  rintro ⟨tried, rest, _, hbefore⟩
  have hle := h.first tried (rest ++ literal ++ after) (by rw [h.here, hbefore]; simp)
  have hpos : 0 < literal.length := List.length_pos_iff.mpr hne
  have hlength := congrArg List.length hbefore
  simp only [List.length_append] at hlength
  omega

/-- Up to its end the literal is found at the first occurrence or not at
    all. -/
theorem FirstOccurrence.falseStarts_of_found {literal text before after : List Char}
    (h : FirstOccurrence literal text before after) (hfound : Found literal (before ++ literal)) :
    FalseStarts literal before := by
  obtain ⟨tried, rest, htried, hsplit⟩ := hfound
  have hle := h.first tried (rest ++ after) (by rw [h.here, hsplit]; simp)
  have hlength := congrArg List.length hsplit
  simp only [List.length_append] at hlength
  have hrest : rest = [] := List.length_eq_zero_iff.mp (by omega)
  rw [hrest, List.append_nil] at hsplit
  rw [List.append_cancel_right hsplit]
  exact htried

/-! ## Entering the next state -/

namespace ScanState

/-- No state comes after itself. -/
theorem anchor_ne_next (literal : List Char) (progress : Nat) (next : ScanState) :
    anchor literal progress next ≠ next := by
  intro h
  have hsize := congrArg sizeOf h
  rw [anchor.sizeOf_spec] at hsize
  omega

theorem awaiting_eq {literal : String} (hne : literal ≠ "") (next : ScanState) :
    awaiting literal next = anchor literal.toList 0 next :=
  if_neg (mt String.toList_eq_nil_iff.mp hne)

/-- The run that waits for a literal goes over to the next state right after
    `seen`, and it has been waiting until then. -/
structure Enters (literal : String) (next : ScanState) (seen : List Char) : Prop where
  arrived : (awaiting literal next).runChars seen = next
  waiting : ∀ part, part <+: seen → part ≠ seen → ∃ progress,
    progress < literal.toList.length ∧
      (awaiting literal next).runChars part = anchor literal.toList progress next

/-- What is still being tried has not been found. -/
theorem not_found_of_trying {literal text : List Char} (hne : literal ≠ [])
    (h : Trying literal text) : ¬ Found literal text := by
  rintro ⟨tried, rest, htried, htext⟩
  -- A run that holds its state once the literal is found tells the two apart.
  obtain ⟨progress, _, hrun⟩ := runChars_trying empty h
  rw [htext, runChars_found empty hne htried] at hrun
  have hheld : empty.runChars rest = empty := runChars_held none rest
  rw [hheld] at hrun
  cases hrun

/-- Short of the end of the literal it is still being tried. -/
theorem trying_of_shorter {literal tried part : List Char} (hne : literal ≠ [])
    (htried : FalseStarts literal tried) (hpart : part <+: tried ++ literal)
    (hshorter : part ≠ tried ++ literal) : Trying literal part := by
  refine (trying_or_found hne part).resolve_right ?_
  rintro ⟨tried', rest, htried', hfound⟩
  -- It would also be found one character short of the end.
  have hpos : 0 < literal.length := List.length_pos_iff.mpr hne
  have hbegun : Trying literal (tried ++ literal.dropLast) :=
    ⟨tried, literal.length - 1, htried, by omega, by rw [List.dropLast_eq_take]⟩
  have hlast := List.dropLast_concat_getLast hne
  rw [← hlast, ← List.append_assoc, List.prefix_concat_iff, List.append_assoc, hlast] at hpart
  rcases hpart with hwhole | ⟨more, hmore⟩
  · exact hshorter hwhole
  · rw [← hmore, hfound] at hbegun
    exact not_found_of_trying hne hbegun ⟨tried', rest ++ more, htried', by simp⟩

/-- **Entering**: the next state is entered after false starts and the
    literal, and only then. -/
theorem enters_iff {literal : String} (hne : literal ≠ "") (next : ScanState)
    (seen : List Char) :
    Enters literal next seen ↔
      ∃ tried, FalseStarts literal.toList tried ∧ seen = tried ++ literal.toList := by
  have hchars : literal.toList ≠ [] := mt String.toList_eq_nil_iff.mp hne
  constructor
  · intro h
    rcases trying_or_found hchars seen with htrying | ⟨tried, rest, htried, hseen⟩
    · obtain ⟨progress, _, hrun⟩ := runChars_trying next htrying
      rw [← awaiting_eq hne, h.arrived] at hrun
      exact absurd hrun.symm (anchor_ne_next literal.toList progress next)
    · refine ⟨tried, htried, ?_⟩
      -- With a rest behind the literal, it would have been entered before.
      refine Classical.byContradiction fun hlonger => ?_
      obtain ⟨progress, _, hrun⟩ := h.waiting _ ⟨rest, hseen.symm⟩ (Ne.symm hlonger)
      rw [awaiting_eq hne, runChars_arriving next hchars htried] at hrun
      exact absurd hrun.symm (anchor_ne_next literal.toList progress next)
  · rintro ⟨tried, htried, rfl⟩
    constructor
    · rw [awaiting_eq hne, runChars_arriving next hchars htried]
    · intro part hpart hshorter
      rw [awaiting_eq hne]
      exact runChars_trying next (trying_of_shorter hchars htried hpart hshorter)

/-- A run waits for the literal all the way, or it has entered the next state
    and gone on from there. -/
theorem waiting_or_entered {literal : String} (hne : literal ≠ "") (next : ScanState)
    (text : List Char) :
    (∃ progress, progress < literal.toList.length ∧
      (awaiting literal next).runChars text = anchor literal.toList progress next) ∨
    (∃ seen rest, text = seen ++ rest ∧ Enters literal next seen ∧
      (awaiting literal next).runChars text = next.runChars rest) := by
  have hchars : literal.toList ≠ [] := mt String.toList_eq_nil_iff.mp hne
  rw [awaiting_eq hne]
  rcases trying_or_found hchars text with htrying | ⟨tried, rest, htried, htext⟩
  · left
    exact runChars_trying next htrying
  · right
    have henters := (enters_iff hne next _).mpr ⟨tried, htried, rfl⟩
    refine ⟨tried ++ literal.toList, rest, htext, henters, ?_⟩
    rw [htext, runChars_found next hchars htried]

end ScanState

/-! ## Capturing the block behind -/

open ScanState

/-- The answer of a capture from just behind an anchor: the text of the
    block there, or that the block is never closed. -/
def AnswersFrom (literal : String) (after : List Char) (answer : Except ScanError String) : Prop :=
  (∃ inside, Encloses '{' '}' after inside ∧ answer = .ok (String.ofList inside)) ∨
    ((∀ inside, ¬ Encloses '{' '}' after inside) ∧ answer = .error (.unclosedBlock literal))

theorem AnswersFrom.ne_anchorNotFound {literal : String} {after : List Char}
    {answer : Except ScanError String} (h : AnswersFrom literal after answer) :
    answer ≠ .error (.anchorNotFound literal) := by
  rcases h with ⟨inside, _, rfl⟩ | ⟨_, rfl⟩
  · simp
  · simp

section

variable {source literal : String} {tried after : List Char}

/-- Behind false starts and the literal the block is captured. -/
theorem captureBlock_found (hne : literal ≠ "") (htried : FalseStarts literal.toList tried)
    (hsource : source.toList = tried ++ literal.toList ++ after) :
    AnswersFrom literal after (captureBlock source literal) := by
  have hchars : literal.toList ≠ [] := mt String.toList_eq_nil_iff.mp hne
  have hrun : (blockAfter literal).run source = (capturing '{' '}' empty).runChars after := by
    unfold blockAfter ScanState.run
    rw [awaiting_eq hne, hsource, runChars_found _ hchars htried]
  unfold captureBlock
  rw [hrun]
  by_cases hclosed : ∃ inside, Encloses '{' '}' after inside
  · obtain ⟨inside, hinside⟩ := hclosed
    rw [runChars_enclosed braces hinside]
    exact .inl ⟨inside, hinside, rfl⟩
  · have hopen := not_exists.mp hclosed
    obtain ⟨b, hblock, _⟩ := runChars_unenclosed braces empty hopen
    rw [hblock]
    exact .inr ⟨hopen, rfl⟩

theorem captureBlock_trying (hne : literal ≠ "") (h : Trying literal.toList source.toList) :
    captureBlock source literal = .error (.anchorNotFound literal) := by
  obtain ⟨progress, _, hrun⟩ := runChars_trying (capturing '{' '}' empty) h
  unfold captureBlock blockAfter ScanState.run
  rw [awaiting_eq hne, hrun]

end

/-! ## Soundness and completeness -/

/-- At the start of the text, or behind a character that is not in the
    literal. -/
def AtFreshStart (literal before : List Char) : Prop :=
  ∀ c, before.getLast? = some c → c ∉ literal

/-- **An anchor is sound, and complete at fresh starts.** A run waits or has
    entered the next state. It enters it only right behind the literal, and
    it enters it behind the first occurrence if that is at a fresh start.
    Hence a capture reports that the anchor was not found whenever it does
    not occur, and never if it occurs at the start of a line and holds no
    line end. -/
theorem anchor_sound_and_complete {literal : String} (hne : literal ≠ "") (next : ScanState) :
    (∀ text,
      (∃ progress, progress < literal.toList.length ∧
        (awaiting literal next).runChars text = .anchor literal.toList progress next) ∨
      (∃ seen rest, text = seen ++ rest ∧ Enters literal next seen ∧
        (awaiting literal next).runChars text = next.runChars rest)) ∧
    (∀ seen, Enters literal next seen → literal.toList <:+ seen) ∧
    (∀ text before after, FirstOccurrence literal.toList text before after →
      AtFreshStart literal.toList before →
      Enters literal next (before ++ literal.toList) ∧
        (awaiting literal next).runChars text = next.runChars after) ∧
    (∀ source : String, ¬ literal.toList <:+: source.toList →
      captureBlock source literal = .error (.anchorNotFound literal)) ∧
    (∀ (source : String) before after, source.toList = before ++ literal.toList ++ after →
      '\n' ∉ literal.toList → (before = [] ∨ before.getLast? = some '\n') →
      captureBlock source literal ≠ .error (.anchorNotFound literal)) := by
  have hchars : literal.toList ≠ [] := mt String.toList_eq_nil_iff.mp hne
  refine ⟨waiting_or_entered hne next, ?_, ?_, ?_, ?_⟩
  · intro seen hseen
    obtain ⟨tried, _, rfl⟩ := (enters_iff hne next seen).mp hseen
    exact List.suffix_append tried literal.toList
  · intro text before after hfirst hfresh
    have htried : FalseStarts literal.toList before := by
      rcases trying_or_found hchars before with htrying | hfound
      · exact htrying.falseStarts hfresh
      · exact absurd hfound (hfirst.not_found_before hchars)
    refine ⟨(enters_iff hne next _).mpr ⟨before, htried, rfl⟩, ?_⟩
    rw [awaiting_eq hne, hfirst.here, runChars_found next hchars htried]
  · intro source hnot
    rcases trying_or_found hchars source.toList with htrying | ⟨tried, rest, _, hsource⟩
    · exact captureBlock_trying hne htrying
    · exact absurd ⟨tried, rest, hsource.symm⟩ hnot
  · intro source before after hsource hline hstart
    have hfresh : AtFreshStart literal.toList before := by
      intro c hc
      rcases hstart with hnil | hlast
      · rw [hnil] at hc
        cases hc
      · rw [hlast] at hc
        cases hc
        exact hline
    -- The line end before the literal breaks every match, unless one was complete.
    rcases trying_or_found hchars before with htrying | ⟨tried, rest, htried, hbefore⟩
    · have htried := htrying.falseStarts hfresh
      exact (captureBlock_found hne htried hsource).ne_anchorNotFound
    · have hearlier : source.toList =
          tried ++ literal.toList ++ (rest ++ literal.toList ++ after) := by
        rw [hsource, hbefore]
        simp
      exact (captureBlock_found hne htried hearlier).ne_anchorNotFound

/-- The anchor overlaps itself and starts a line, behind an occurrence of
    its beginning that a line end breaks. -/
theorem anchor_sound_and_complete_line :
    "aab\x7b" ≠ "" ∧
      FirstOccurrence "aab\x7b".toList "aa\naab\x7bA\x7d".toList "aa\n".toList "A\x7d".toList ∧
      AtFreshStart "aab\x7b".toList "aa\n".toList ∧
      Enters "aab\x7b" empty ("aa\n".toList ++ "aab\x7b".toList) ∧
      captureBlock "aa\naab\x7bA\x7d" "aab\x7b" ≠ .error (.anchorNotFound "aab\x7b") ∧
      captureBlock "aaab" "aab\x7b" = .error (.anchorNotFound "aab\x7b") := by
  have hne : "aab\x7b" ≠ "" := by decide
  have hfirst : FirstOccurrence "aab\x7b".toList "aa\naab\x7bA\x7d".toList "aa\n".toList
      "A\x7d".toList := .of_drop (by decide) (by decide)
  have hfresh : AtFreshStart "aab\x7b".toList "aa\n".toList := by
    rintro c ⟨⟩
    decide
  obtain ⟨_, _, hcomplete, habsent, hline⟩ := anchor_sound_and_complete hne empty
  refine ⟨hne, hfirst, hfresh, (hcomplete _ _ _ hfirst hfresh).1, ?_, habsent _ (by decide)⟩
  exact hline _ "aa\n".toList "A\x7d".toList (by decide) (by decide) (.inr (by decide))

/-! ## Occurrences passed over -/

/-- **The first occurrence** of an anchor is taken if the text in front of it
    is made of false starts: the next state is entered right behind it, and
    the block there is the one captured or reported as not closed.
    Otherwise a false start runs into the occurrence and it is passed over:
    the automaton is still waiting behind it. -/
theorem first_occurrence_taken_or_passed {literal source : String} (hne : literal ≠ "")
    (hoccurs : literal.toList <:+: source.toList) :
    ∃ before after, FirstOccurrence literal.toList source.toList before after ∧
      (FalseStarts literal.toList before →
        Enters literal (capturing '{' '}' empty) (before ++ literal.toList) ∧
          AnswersFrom literal after (captureBlock source literal)) ∧
      (¬ FalseStarts literal.toList before → ∃ progress, progress < literal.toList.length ∧
        (blockAfter literal).runChars (before ++ literal.toList) =
          .anchor literal.toList progress (capturing '{' '}' empty)) := by
  have hchars : literal.toList ≠ [] := mt String.toList_eq_nil_iff.mp hne
  obtain ⟨before, after, hfirst⟩ := exists_firstOccurrence hoccurs
  refine ⟨before, after, hfirst, fun htried => ⟨?_, ?_⟩, fun hpassed => ?_⟩
  · exact (enters_iff hne _ _).mpr ⟨before, htried, rfl⟩
  · exact captureBlock_found hne htried hfirst.here
  · unfold blockAfter
    rw [awaiting_eq hne]
    rcases trying_or_found hchars (before ++ literal.toList) with htrying | hfound
    · exact runChars_trying _ htrying
    · exact absurd (hfirst.falseStarts_of_found hfound) hpassed

/-- A character in front of the anchor that starts nothing, and a block that
    is never closed. -/
theorem first_occurrence_taken_or_passed_open :
    "E \x7b" ≠ "" ∧ "E \x7b".toList <:+: "xE \x7b".toList ∧
      FirstOccurrence "E \x7b".toList "xE \x7b".toList ['x'] [] ∧
      FalseStarts "E \x7b".toList ['x'] ∧
      Enters "E \x7b" (capturing '{' '}' empty) "xE \x7b".toList ∧
      AnswersFrom "E \x7b" [] (captureBlock "xE \x7b" "E \x7b") := by
  have hne : "E \x7b" ≠ "" := by decide
  have hoccurs : "E \x7b".toList <:+: "xE \x7b".toList := ⟨['x'], [], by decide⟩
  have htried : FalseStarts "E \x7b".toList ['x'] :=
    @FalseStarts.broken _ [] 0 'x' .none (by decide) (by decide)
  have hplace : FirstOccurrence "E \x7b".toList "xE \x7b".toList ['x'] [] :=
    .of_drop (by decide) (by decide)
  obtain ⟨before, after, hfirst, htaken, _⟩ := first_occurrence_taken_or_passed hne hoccurs
  obtain ⟨rfl, rfl⟩ := hfirst.unique hplace
  exact ⟨hne, hoccurs, hfirst, htried, htaken htried⟩

/-- The first character of a literal is no false start. -/
theorem not_falseStarts_head (c : Char) (rest : List Char) : ¬ FalseStarts (c :: rest) [c] := by
  intro h
  generalize htext : [c] = text at h
  cases h with
  | none => cases htext
  | @broken tried progress d htried hprogress hbroken =>
    have hlength := congrArg List.length htext
    simp only [List.length_append, List.length_take, List.length_singleton] at hlength
    have hzero : progress = 0 := by omega
    have htried : tried = [] := List.length_eq_zero_iff.mp (by omega)
    subst hzero htried
    cases htext
    exact hbroken rfl

/-- Only a single repeated character can stand one place further to the
    left. -/
theorem eq_of_prefix_cons_self {c : Char} {literal : List Char} (h : literal <+: c :: literal) :
    ∀ d ∈ literal, d = c := by
  induction literal generalizing c with
  | nil => simp
  | cons x literal ih =>
    obtain ⟨rfl, hrest⟩ := List.cons_prefix_cons.mp h
    intro d hd
    rcases List.mem_cons.mp hd with hhead | htail
    · exact hhead
    · exact ih hrest d htail

/-- **Every anchor with two different characters can be missed**: it is passed
    over where its own first character stands in front of it. -/
theorem anchorNotFound_behind_head {literal : String} {c : Char} {rest : List Char}
    (hliteral : literal.toList = c :: rest) (hother : ∃ d ∈ rest, d ≠ c) :
    captureBlock (String.ofList (c :: literal.toList)) literal =
      .error (.anchorNotFound literal) := by
  have hchars : literal.toList ≠ [] := by simp [hliteral]
  have hne : literal ≠ "" := fun hempty => hchars (by rw [hempty]; rfl)
  apply captureBlock_trying hne
  rw [String.toList_ofList]
  refine (trying_or_found hchars _).resolve_right ?_
  rintro ⟨tried, behind, htried, htext⟩
  have hlength := congrArg List.length htext
  simp only [List.length_append, List.length_cons] at hlength
  -- There is room for one character besides the literal: before it or behind it.
  cases tried with
  | nil =>
    obtain ⟨d, hd, hdc⟩ := hother
    have hsame := eq_of_prefix_cons_self ⟨behind, htext.symm⟩ d
    rw [hliteral] at hsame
    exact hdc (hsame (List.mem_cons_of_mem c hd))
  | cons x tried =>
    rw [List.length_cons] at hlength
    have hnil : tried = [] := List.length_eq_zero_iff.mp (by omega)
    rw [hnil, List.append_assoc, List.cons_append] at htext
    rw [hnil, hliteral, ← (List.cons.inj htext).1] at htried
    exact not_falseStarts_head c rest htried

/-- A beginning of the literal, not empty and not all of it, is also its
    end. -/
def Bordered (literal : List Char) : Prop :=
  ∃ k, k < literal.length ∧ 0 < k ∧ literal.take k <:+ literal

instance (literal : List Char) : Decidable (Bordered literal) :=
  inferInstanceAs (Decidable (∃ k, k < literal.length ∧ _))

/-- **An anchor without a border may be missed.** -/
theorem unbordered_anchor_passed_over :
    ¬ ∀ literal source : String, literal.toList.getLast? = some '{' →
      ¬ Bordered literal.toList → literal.toList <:+: source.toList →
      captureBlock source literal ≠ .error (.anchorNotFound literal) := by
  intro hfound
  have hchars : "aab\x7b".toList = 'a' :: ['a', 'b', '{'] := by decide
  have hmissed := anchorNotFound_behind_head hchars ⟨'b', by decide, by decide⟩
  have hoccurs : "aab\x7b".toList <:+: (String.ofList ('a' :: "aab\x7b".toList)).toList := by
    rw [String.toList_ofList]
    exact (List.suffix_cons 'a' _).isInfix
  exact hfound "aab\x7b" _ (by decide) (by decide) hoccurs hmissed

end TaggedWire
