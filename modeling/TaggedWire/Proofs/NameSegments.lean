import TaggedWire.Proofs.BlockGrammar

/-! # What a name list means

    A list of names is read from the left in segments (`Segments`): a slash
    starts a comment, a parenthesis or a brace starts a payload, and any
    other character stands at the top level. Comments and payloads drop out,
    so a name goes on behind them where it was. What is left are the
    characters at the top level; without the blanks, and cut at the commas,
    they are the names (`namesOf`).

    `NameListing` puts this together with the two ways to be cut off, inside
    a comment and inside a payload, and `splitNames_eq_iff` says that this is
    what the automaton computes, on every text. -/

namespace TaggedWire

open ScanState

/-! ## Comments -/

/-- The characters that end a comment. -/
def commentEnd : List Char := ['*', '/']

/-- Text that has the end of a comment in it can be cut at the first one. -/
theorem exists_first_commentEnd {text : List Char} (h : commentEnd <:+: text) :
    ∃ body rest, text = body ++ commentEnd ++ rest ∧ ¬ commentEnd <:+: body ++ ['*'] := by
  induction text with
  | nil => exact absurd (List.infix_nil.mp h) (by decide)
  | cons x text ih =>
    by_cases hhere : commentEnd <+: x :: text
    · -- One character alone is too short to end a comment.
      obtain ⟨rest, hrest⟩ := hhere
      exact ⟨[], rest, hrest.symm, by decide⟩
    · have hlater : commentEnd <:+: text := (List.infix_cons_iff.mp h).resolve_left hhere
      obtain ⟨body, rest, htext, hbody⟩ := ih hlater
      refine ⟨x :: body, rest, by rw [htext]; rfl, ?_⟩
      intro hearlier
      rcases List.infix_cons_iff.mp hearlier with hfirst | hinside
      · -- It would stand at the beginning of the whole text.
        apply hhere
        apply hfirst.trans
        exact ⟨'/' :: rest, by simp [htext, commentEnd]⟩
      · exact hbody hinside

namespace ScanState

variable {next : ScanState}

/-- **Inside a comment** the automaton remembers whether the last character
    was a star, and it stays there as long as the comment has not ended. -/
theorem runChars_comment (next : ScanState) (seen text : List Char)
    (h : ¬ commentEnd <:+: seen ++ text) :
    (comment (seen.getLast? == some '*') next).runChars text =
      comment ((seen ++ text).getLast? == some '*') next := by
  induction text generalizing seen with
  | nil => rw [List.append_nil, runChars_nil]
  | cons x text ih =>
    have hsplit : seen ++ x :: text = (seen ++ [x]) ++ text := by simp
    have hstep : (comment (seen.getLast? == some '*') next).advance x =
        comment ((seen ++ [x]).getLast? == some '*') next := by
      rw [advance, List.getLast?_concat]
      by_cases hstar : x = '*'
      · simp [hstar]
      · by_cases hends : x = '/' ∧ seen.getLast? = some '*'
        · -- A slash after a star is the end of the comment.
          obtain ⟨hslash, hlast⟩ := hends
          obtain ⟨before, hbefore⟩ := List.getLast?_eq_some_iff.mp hlast
          apply absurd _ h
          exact ⟨before, text, by simp [hbefore, hslash, commentEnd]⟩
        · simp [hstar, hends]
    rw [hsplit] at h ⊢
    rw [runChars_cons, hstep]
    exact ih (seen ++ [x]) h

/-- A comment is skipped up to its first end. -/
theorem runChars_comment_ended {body : List Char} (h : ¬ commentEnd <:+: body ++ ['*'])
    (rest : List Char) :
    (skipping next).runChars (body ++ commentEnd ++ rest) = next.runChars rest := by
  have hstar : (skipping next).runChars (body ++ ['*']) = comment true next := by
    have hrun := runChars_comment next [] (body ++ ['*']) h
    rw [List.nil_append, List.getLast?_concat] at hrun
    exact hrun
  have hsplit : body ++ commentEnd ++ rest = (body ++ ['*']) ++ '/' :: rest := by
    simp [commentEnd]
  rw [hsplit, runChars_append, hstar]
  rfl

/-- A comment without an end is never left. -/
theorem runChars_comment_open {text : List Char} (h : ¬ commentEnd <:+: text) :
    ((skipping next).runChars text).kind = .comment := by
  have hrun := runChars_comment next [] text h
  have hstart : (comment (([] : List Char).getLast? == some '*') next) = skipping next := rfl
  rw [hstart] at hrun
  rw [hrun]
  rfl

end ScanState

/-! ## Segments -/

/-- The delimiters around a payload. -/
inductive PayloadDelimiters : Char → Char → Prop
  | parentheses : PayloadDelimiters '(' ')'
  | braces : PayloadDelimiters '{' '}'

namespace PayloadDelimiters

variable {opening closing : Char}

theorem delimiters (h : PayloadDelimiters opening closing) : Delimiters opening closing := by
  cases h with
  | parentheses => exact TaggedWire.parentheses
  | braces => exact TaggedWire.braces

theorem advance (h : PayloadDelimiters opening closing) (found : List String) (current : String) :
    (names found current).advance opening = capturing opening closing (names found current) := by
  cases h with
  | parentheses => rfl
  | braces => rfl

end PayloadDelimiters

/-- A character that is part of a name list itself. -/
def IsTopLevel (x : Char) : Prop := x ≠ '/' ∧ x ≠ '(' ∧ x ≠ '{'

/-- A name list read up to some rest, with the characters of it that stand at
    the top level. -/
inductive Segments (rest : List Char) : List Char → List Char → Prop
  | done : Segments rest rest []
  /-- A character at the top level. -/
  | plain {x : Char} {text top : List Char} :
      IsTopLevel x → Segments rest text top → Segments rest (x :: text) (x :: top)
  /-- A comment, up to the first star with a slash behind it. -/
  | comment {body text top : List Char} :
      ¬ commentEnd <:+: body ++ ['*'] → Segments rest text top →
      Segments rest ('/' :: (body ++ commentEnd ++ text)) top
  /-- A payload, up to the delimiter that closes it. -/
  | payload {opening closing : Char} {inside text top : List Char} :
      PayloadDelimiters opening closing → Balanced opening closing inside →
      Segments rest text top → Segments rest (opening :: (inside ++ closing :: text)) top

/-- A comment that is not ended. -/
def IsOpenComment (text : List Char) : Prop :=
  ∃ body, text = '/' :: body ∧ ¬ commentEnd <:+: body

/-- A payload that is not closed. -/
def IsOpenPayload (text : List Char) : Prop :=
  ∃ opening closing body, PayloadDelimiters opening closing ∧ text = opening :: body ∧
    ∀ inside, ¬ Encloses opening closing body inside

/-- **Every text** has segments, up to a comment or a payload that does not
    end. -/
theorem exists_segments (text : List Char) :
    ∃ top rest, Segments rest text top ∧
      (rest = [] ∨ IsOpenComment rest ∨ IsOpenPayload rest) := by
  -- Each segment takes at least one character.
  induction hlength : text.length using Nat.strongRecOn generalizing text with
  | _ length ih =>
    have hshorter (shorter : List Char) (h : shorter.length < text.length) :=
      ih shorter.length (hlength ▸ h) shorter rfl
    cases text with
    | nil => exact ⟨[], [], .done, .inl rfl⟩
    | cons x text =>
      by_cases hslash : x = '/'
      · subst hslash
        by_cases hended : commentEnd <:+: text
        · obtain ⟨body, after, htext, hbody⟩ := exists_first_commentEnd hended
          subst htext
          obtain ⟨top, rest, hsegments, hrest⟩ := hshorter after (by simp; omega)
          exact ⟨top, rest, .comment hbody hsegments, hrest⟩
        · exact ⟨[], '/' :: text, .done, .inr (.inl ⟨text, rfl, hended⟩)⟩
      · by_cases hopens : ∃ closing, PayloadDelimiters x closing
        · obtain ⟨closing, hpair⟩ := hopens
          by_cases hclosed : ∃ inside, Encloses x closing text inside
          · obtain ⟨inside, hbalanced, after, htext⟩ := hclosed
            subst htext
            obtain ⟨top, rest, hsegments, hrest⟩ := hshorter after (by simp; omega)
            exact ⟨top, rest, .payload hpair hbalanced hsegments, hrest⟩
          · have hopen : IsOpenPayload (x :: text) :=
              ⟨x, closing, text, hpair, rfl, not_exists.mp hclosed⟩
            exact ⟨[], x :: text, .done, .inr (.inr hopen)⟩
        · have htop : IsTopLevel x := by
            refine ⟨hslash, ?_, ?_⟩
            · intro hx
              exact hopens ⟨')', hx ▸ .parentheses⟩
            · intro hx
              exact hopens ⟨'}', hx ▸ .braces⟩
          obtain ⟨top, rest, hsegments, hrest⟩ := hshorter text (by simp)
          exact ⟨x :: top, rest, .plain htop hsegments, hrest⟩

theorem Segments.topLevel {rest text top : List Char} (h : Segments rest text top) :
    ∀ x ∈ top, IsTopLevel x := by
  induction h with
  | done => nofun
  | plain htop _ ih => exact List.forall_mem_cons.mpr ⟨htop, ih⟩
  | comment _ _ ih => exact ih
  | payload _ _ _ ih => exact ih

/-! ## Names -/

/-- The characters at the top level without the blanks, cut at the commas. -/
def pieces (top : List Char) : List (List Char) :=
  (top.filter fun x => !isBlank x).splitOn ','

/-- The names in the characters at the top level. Behind the last comma there
    is a name only if it has characters. -/
def namesOf (top : List Char) : List String :=
  (if (pieces top).getLast? = some [] then (pieces top).dropLast else pieces top).map String.ofList

theorem pieces_ne_nil (top : List Char) : pieces top ≠ [] := List.splitOn_ne_nil _ _

/-- The pieces if a name has been begun already. -/
def piecesAfter (current : String) (top : List Char) : List (List Char) :=
  (pieces top).modifyHead (current.toList ++ ·)

section

variable {current : String} {x : Char} {top : List Char}

theorem piecesAfter_empty (top : List Char) : piecesAfter "" top = pieces top := by
  unfold piecesAfter
  cases pieces top with
  | nil => rfl
  | cons first others => rfl

theorem piecesAfter_nil (current : String) : piecesAfter current [] = [current.toList] := by
  simp [piecesAfter, pieces]

theorem piecesAfter_blank (h : isBlank x = true) :
    piecesAfter current (x :: top) = piecesAfter current top := by
  simp [piecesAfter, pieces, h]

theorem piecesAfter_comma : piecesAfter current (',' :: top) = current.toList :: pieces top := by
  have hkept : isBlank ',' = false := by decide
  simp [piecesAfter, pieces, hkept, List.splitOn, List.splitOnP_cons_eq_if_modifyHead]

theorem piecesAfter_cons (hblank : isBlank x = false) (hcomma : x ≠ ',') :
    piecesAfter current (x :: top) = piecesAfter (current.push x) top := by
  have hcons : pieces (x :: top) = (pieces top).modifyHead (x :: ·) := by
    simp [pieces, hblank, List.splitOn, List.splitOnP_cons_eq_if_modifyHead, hcomma]
  have hpush : (fun piece => current.toList ++ piece) ∘ (x :: ·) =
      fun piece => (current.push x).toList ++ piece := by
    funext piece
    simp
  rw [piecesAfter, hcons, List.modifyHead_modifyHead, hpush]
  rfl

end

namespace ScanState

variable {found : List String} {current : String} {x : Char}

theorem advance_blank (h : isBlank x = true) :
    (names found current).advance x = names found current := by
  rw [advance, advanceNames, if_pos h]

theorem advance_comma :
    (names found current).advance ',' = names (found ++ [current]) "" := rfl

/-- A character of a name. -/
theorem advance_topLevel (h : IsTopLevel x) (hblank : isBlank x = false) (hcomma : x ≠ ',') :
    (names found current).advance x = names found (current.push x) := by
  obtain ⟨hslash, hparenthesis, hbrace⟩ := h
  simp [advance, advanceNames, hblank, hcomma, hslash, hparenthesis, hbrace]

/-- At the top level a name list stays a name list. -/
theorem exists_advance_topLevel (h : IsTopLevel x) (found : List String) (current : String) :
    ∃ found' current', (names found current).advance x = names found' current' := by
  by_cases hblank : isBlank x = true
  · exact ⟨_, _, advance_blank hblank⟩
  · by_cases hcomma : x = ','
    · rw [hcomma]
      exact ⟨_, _, advance_comma⟩
    · exact ⟨_, _, advance_topLevel h (Bool.eq_false_iff.mpr hblank) hcomma⟩

/-- **Characters at the top level** give the pieces between the commas, the
    first of which goes on with the current name. The last piece is the
    current name then. -/
theorem runChars_topLevel {top : List Char} (h : ∀ x ∈ top, IsTopLevel x)
    (found : List String) (current : String) {before : List (List Char)} {last : List Char}
    (hpieces : piecesAfter current top = before ++ [last]) :
    (names found current).runChars top =
      names (found ++ before.map String.ofList) (String.ofList last) := by
  induction top generalizing found current before with
  | nil =>
    rw [piecesAfter_nil, ← List.nil_append [current.toList], List.append_singleton_inj] at hpieces
    obtain ⟨hbefore, hlast⟩ := hpieces
    simp [← hbefore, ← hlast]
  | cons x top ih =>
    obtain ⟨htop, hrest⟩ := List.forall_mem_cons.mp h
    rw [runChars_cons]
    by_cases hblank : isBlank x = true
    · rw [piecesAfter_blank hblank] at hpieces
      rw [advance_blank hblank]
      exact ih hrest found current hpieces
    · by_cases hcomma : x = ','
      · -- The current name is complete, and the next piece starts empty.
        rw [hcomma, piecesAfter_comma] at hpieces
        cases before with
        | nil =>
          have hnone : pieces top = [] := (List.cons.inj hpieces).2
          exact absurd hnone (pieces_ne_nil top)
        | cons first before =>
          obtain ⟨hfirst, hothers⟩ := List.cons.inj hpieces
          rw [← piecesAfter_empty] at hothers
          rw [hcomma, advance_comma, ih hrest (found ++ [current]) "" hothers]
          simp [← hfirst]
      · have hkept : isBlank x = false := Bool.eq_false_iff.mpr hblank
        rw [piecesAfter_cons hkept hcomma] at hpieces
        rw [advance_topLevel htop hkept hcomma]
        exact ih hrest found (current.push x) hpieces

end ScanState

/-- **Segments** do to a name list what their characters at the top level do,
    and then the rest follows. -/
theorem Segments.runChars {rest text top : List Char} (h : Segments rest text top)
    (found : List String) (current : String) :
    (names found current).runChars text = ((names found current).runChars top).runChars rest := by
  induction h generalizing found current with
  | done => rfl
  | plain htop _ ih =>
    obtain ⟨found', current', hstep⟩ := exists_advance_topLevel htop found current
    rw [runChars_cons, runChars_cons, hstep]
    exact ih found' current'
  | comment hbody _ ih =>
    have hstart : (names found current).advance '/' = skipping (names found current) := rfl
    rw [runChars_cons, hstart, runChars_comment_ended hbody]
    exact ih found current
  | payload hpair hbalanced _ ih =>
    -- A name list drops the captured text.
    rw [runChars_cons, hpair.advance, runChars_block hpair.delimiters hbalanced]
    exact ih found current

/-! ## The meaning of a name list -/

/-- What a list of names means: its names, or where it was cut off. -/
inductive NameListing (text : List Char) : Except ScanError (List String) → Prop
  | complete {top : List Char} : Segments [] text top → NameListing text (.ok (namesOf top))
  | inComment {top rest : List Char} {inside : ScanKind} :
      Segments rest text top → IsOpenComment rest → inside.label = "comment" →
      NameListing text (.error (.unterminatedNames inside))
  | inPayload {top rest : List Char} {inside : ScanKind} :
      Segments rest text top → IsOpenPayload rest → inside.label = "block" →
      NameListing text (.error (.unterminatedNames inside))

theorem splitNames_of_kind {text : String} {inside : ScanKind}
    (h : (noNames.run text).kind = inside) (hnot : inside ≠ .names) :
    splitNames text = .error (.unterminatedNames inside) := by
  unfold splitNames
  cases hrun : noNames.run text with
  | names found current =>
    rw [hrun] at h
    exact absurd h.symm hnot
  | _ =>
    rw [hrun] at h
    rw [← h]

theorem ScanKind.label_inj {a b : ScanKind} (h : a.label = b.label) : a = b := by
  cases a <;> cases b <;> first | rfl | exact absurd h (by decide)

/-- Where the segments stop, the automaton has the pieces up to there, the
    last of them as the current name. -/
theorem Segments.run_eq {rest : List Char} {text : String} {top : List Char}
    (h : Segments rest text.toList top) :
    ∃ before last, pieces top = before ++ [last] ∧
      noNames.run text =
        (names (before.map String.ofList) (String.ofList last)).runChars rest := by
  obtain ⟨before, last, hpieces⟩ : ∃ before last, pieces top = before ++ [last] :=
    ⟨_, _, (List.dropLast_concat_getLast (pieces_ne_nil top)).symm⟩
  have htop := runChars_topLevel h.topLevel [] "" ((piecesAfter_empty top).trans hpieces)
  refine ⟨before, last, hpieces, ?_⟩
  show (names [] "").runChars text.toList = _
  rw [h.runChars [] "", htop, List.nil_append]

theorem splitNames_segments {text : String} {top : List Char}
    (h : Segments [] text.toList top) : splitNames text = .ok (namesOf top) := by
  obtain ⟨before, last, hpieces, hrun⟩ := h.run_eq
  rw [runChars_nil] at hrun
  unfold splitNames namesOf
  rw [hrun, hpieces, List.getLast?_concat, List.dropLast_concat]
  by_cases hempty : last = []
  · simp [hempty]
  · simp [hempty]

/-- The automaton computes a meaning of the list. -/
theorem NameListing.splitNames_eq {text : String} {result : Except ScanError (List String)}
    (h : NameListing text.toList result) : splitNames text = result := by
  cases h with
  | complete hsegments => exact splitNames_segments hsegments
  | @inComment top rest inside hsegments hopen hword =>
    obtain rfl : inside = .comment := ScanKind.label_inj hword
    obtain ⟨body, rfl, hbody⟩ := hopen
    obtain ⟨before, last, -, hrun⟩ := hsegments.run_eq
    apply splitNames_of_kind _ (by decide)
    rw [hrun]
    exact runChars_comment_open hbody
  | @inPayload top rest inside hsegments hopen hword =>
    obtain rfl : inside = .block := ScanKind.label_inj hword
    obtain ⟨opening, closing, body, hpair, rfl, hbody⟩ := hopen
    obtain ⟨before, last, -, hrun⟩ := hsegments.run_eq
    obtain ⟨b, hblock, -⟩ := runChars_unenclosed hpair.delimiters
      (names (before.map String.ofList) (String.ofList last)) hbody
    apply splitNames_of_kind _ (by decide)
    rw [hrun, runChars_cons, hpair.advance, hblock]
    rfl

/-- Every text has a meaning. -/
theorem exists_nameListing (text : List Char) : ∃ result, NameListing text result := by
  obtain ⟨top, rest, hsegments, hend | hcomment | hpayload⟩ := exists_segments text
  · exact ⟨_, .complete (hend ▸ hsegments)⟩
  · exact ⟨.error (.unterminatedNames .comment), .inComment hsegments hcomment rfl⟩
  · exact ⟨.error (.unterminatedNames .block), .inPayload hsegments hpayload rfl⟩

/-- **Splitting names** gives what the list means, on every text. -/
theorem splitNames_eq_iff (text : String) (result : Except ScanError (List String)) :
    splitNames text = result ↔ NameListing text.toList result := by
  constructor
  · intro h
    obtain ⟨meaning, hmeaning⟩ := exists_nameListing text.toList
    rw [← h, hmeaning.splitNames_eq]
    exact hmeaning
  · intro h
    exact h.splitNames_eq

/-- A name goes on behind a comment and a payload, and the slash that ends a
    comment can follow right after its star. -/
example :
    (splitNames "Ab/*,*/c ,, D(',)')e/*/f,").toOption = some ["Abc", "", "Def"] := by decide

end TaggedWire
