import TaggedWire.Proofs.DeclarationText
import TaggedWire.Proofs.FirstOccurrence
import TaggedWire.Proofs.HandWrittenLists

/-! # Comments in a declaration

    A comment in front of an entry of a declaration should not change what
    is extracted. Extraction reads the declaration twice. The name list
    knows comments and passes over them. The capture of the block does not
    know them: to it a comment is text like any other, in which braces and
    quotation marks count. So a comment leaves the names alone exactly if
    its text is balanced (`comment_neutral_iff_balanced`).

    One kind of comment is special also to the name list. There a slash
    alone begins a comment, so the slash in `/*/` already ends it. -/

namespace TaggedWire

open ScanState

/-! ## Text that is passed over -/

/-- Text that a block can hold and that a name list passes over. -/
structure Skipped (text : List Char) : Prop where
  balanced : Balanced '{' '}' text
  passes : ∀ found current, (names found current).runChars text = names found current

/-- A comment with the given text. -/
def blockComment (text : List Char) : List Char := '/' :: '*' :: (text ++ commentEnd)

section

variable {u : List Char}

/-- A text without the end of a comment makes none with the stars around it,
    unless it starts with a slash. -/
theorem not_commentEnd_starred (hu : ¬ commentEnd <:+: u) (hslash : u.head? ≠ some '/') :
    ¬ commentEnd <:+: '*' :: u ++ ['*'] := by
  intro h
  rw [List.cons_append, List.infix_cons_iff] at h
  rcases h with hfirst | hlater
  · -- The first star would have a slash behind it.
    obtain ⟨rest, hrest⟩ := hfirst
    have hnext : (u ++ ['*']).head? = some '/' := by
      rw [← (List.cons.inj hrest).2]
      rfl
    cases u with
    | nil => exact absurd hnext (by decide)
    | cons x u => exact hslash hnext
  · rcases List.infix_concat_iff.mp hlater with hlast | hinside
    · obtain ⟨before, hbefore⟩ := hlast
      have hends := congrArg List.getLast? hbefore
      simp [commentEnd] at hends
    · exact hu hinside

theorem runChars_blockComment (hu : ¬ commentEnd <:+: u) (hslash : u.head? ≠ some '/')
    (found : List String) (current : String) :
    (names found current).runChars (blockComment u) = names found current := by
  have hbody := not_commentEnd_starred hu hslash
  have hrun : (skipping (names found current)).runChars ('*' :: u ++ commentEnd ++ []) = _ :=
    runChars_comment_ended hbody []
  rw [List.append_nil, runChars_nil] at hrun
  exact hrun

theorem skipped_blockComment (hu : ¬ commentEnd <:+: u) (hslash : u.head? ≠ some '/')
    (hbalanced : Balanced '{' '}' u) : Skipped (blockComment u) where
  balanced := by
    have hstart : Balanced '{' '}' ['/', '*'] := .of_plain (by decide)
    exact hstart.append (hbalanced.append (.of_plain (by decide)))
  passes := runChars_blockComment hu hslash

/-- The shortest comment shares its star. -/
theorem skipped_slashes : Skipped ['/', '*', '/'] where
  balanced := .of_plain (by decide)
  passes _ _ := rfl

end

/-! ## Places -/

/-- A place in a source, in front of an entry of a declaration: the
    declared name, the text above, the entries before the place and behind
    it, and what follows the brace that closes the list. The declaration
    starts a line. -/
structure Place where
  name : String
  above : List Char
  front : List ListEntry
  back : List ListEntry
  below : List Char
  word : ∀ c ∈ name.toList, isWordChar c = true
  lineStart : above = [] ∨ above.getLast? = some '\n'

namespace Place

variable (place : Place)

/-- The text that the declaration is found by. -/
def anchor : String := Rust.anchorOf place.name

/-- What follows a text that is inserted at the place. -/
def remainder : List Char := listText place.back ++ '}' :: place.below

/-- The source with a text inserted at the place. -/
def source (inserted : List Char) : String :=
  String.ofList (place.above ++ place.anchor.toList ++
    (frontText place.front ++ (inserted ++ place.remainder)))

/-- The names extracted from the source with a text inserted. -/
def extracted (inserted : List Char) : Except ScanError (List String) :=
  orderedNames (place.source inserted) place.anchor

/-- The names that the declaration lists. -/
def listed : List String := place.front.map ListEntry.name ++ listedNames place.back

/-- The block behind every earlier occurrence of the anchor is closed above
    the declaration. -/
def ClearAbove : Prop :=
  ∀ before behind, place.above = before ++ place.anchor.toList ++ behind →
    ∃ inside, Encloses '{' '}' behind inside

/-- There may be no earlier occurrence. -/
theorem clearAbove_of_first (h : ¬ place.anchor.toList <:+: place.above) : place.ClearAbove := by
  intro before behind habove
  exact absurd ⟨before, behind, habove.symm⟩ h

theorem anchor_ne_empty : place.anchor ≠ "" := by
  intro hempty
  exact Rust.anchorOf_ne_nil place.name (String.toList_eq_nil_iff.mpr hempty)

theorem anchor_toList_ne_nil : place.anchor.toList ≠ [] := Rust.anchorOf_ne_nil place.name

/-- Nothing of the anchor has been matched at the start of a line. -/
theorem falseStarts_of_trying (h : Trying place.anchor.toList place.above) :
    FalseStarts place.anchor.toList place.above := by
  apply h.falseStarts
  intro c hc
  rcases place.lineStart with hnil | hline
  · rw [hnil] at hc
    cases hc
  · rw [hline] at hc
    cases hc
    show '\n' ∉ (Rust.anchorOf place.name).toList
    rw [Rust.toList_anchorOf]
    exact newline_notMem_headText (by decide) place.word

theorem falseStarts_of_first (h : ¬ place.anchor.toList <:+: place.above) :
    FalseStarts place.anchor.toList place.above := by
  apply place.falseStarts_of_trying
  apply (trying_or_found place.anchor_toList_ne_nil place.above).resolve_right
  intro ⟨tried, rest, _, habove⟩
  exact h ⟨tried, rest, habove.symm⟩

variable {place} {inserted : List Char}

/-! ### Reading the declaration -/

section

variable (hreached : FalseStarts place.anchor.toList place.above)
include hreached

theorem answersFrom (inserted : List Char) :
    AnswersFrom place.anchor (frontText place.front ++ (inserted ++ place.remainder))
      (captureBlock (place.source inserted) place.anchor) := by
  apply captureBlock_found place.anchor_ne_empty hreached
  rw [source, String.toList_ofList]

/-- If the block ends behind the place, its names are split. -/
theorem extracted_of_encloses {rest : List Char}
    (h : Encloses '{' '}' (inserted ++ place.remainder) rest) :
    place.extracted inserted = splitNames (String.ofList (frontText place.front ++ rest)) := by
  have hblock := h.behind (balanced_frontText place.front)
  rcases answersFrom hreached inserted with ⟨inside, hinside, hanswer⟩ | ⟨hopen, _⟩
  · unfold extracted orderedNames
    rw [hanswer, hinside.unique braces hblock]
    rfl
  · exact absurd hblock (hopen _)

/-- Otherwise it is never closed. -/
theorem extracted_of_open
    (h : ∀ rest, ¬ Encloses '{' '}' (inserted ++ place.remainder) rest) :
    place.extracted inserted = .error (.unclosedBlock place.anchor) := by
  rcases answersFrom hreached inserted with ⟨inside, hinside, _⟩ | ⟨_, hanswer⟩
  · obtain ⟨rest, _, hrest⟩ :=
      (encloses_append_iff braces (balanced_frontText place.front)).mp hinside
    exact absurd hrest (h rest)
  · unfold extracted orderedNames
    rw [hanswer]
    rfl

/-- **Without an insertion** the names are those that the declaration
    lists. -/
theorem extracted_nil : place.extracted [] = .ok place.listed := by
  have hblock : Encloses '{' '}' ([] ++ place.remainder) (listText place.back) :=
    ⟨balanced_listText place.back, place.below, rfl⟩
  obtain ⟨earlier, last, hrun, hlisted⟩ := runChars_listText place.back
  rw [extracted_of_encloses hreached hblock]
  unfold splitNames ScanState.run noNames listed
  rw [String.toList_ofList, runChars_append, runChars_frontText, hrun, hlisted, List.nil_append]
  by_cases hempty : last.isEmpty = true
  · simp [hempty]
  · simp [hempty]

end

/-! ### Insertions that are passed over -/

/-- The declaration is reached, or everything was settled above it. -/
theorem reached_or_settled (hclear : place.ClearAbove) :
    FalseStarts place.anchor.toList place.above ∨
      ∃ answer, ∀ inserted, place.extracted inserted = answer := by
  rcases trying_or_found place.anchor_toList_ne_nil place.above with htrying | hfound
  · exact .inl (place.falseStarts_of_trying htrying)
  · -- An earlier occurrence was taken, and its block has been closed.
    right
    obtain ⟨tried, behind, htried, habove⟩ := hfound
    obtain ⟨inside, hinside⟩ := hclear tried behind habove
    refine ⟨splitNames (String.ofList inside), fun inserted => ?_⟩
    have hsource : (place.source inserted).toList = tried ++ place.anchor.toList ++
        (behind ++ (place.anchor.toList ++
          (frontText place.front ++ (inserted ++ place.remainder)))) := by
      rw [source, String.toList_ofList, habove]
      simp
    unfold extracted orderedNames
    rcases captureBlock_found place.anchor_ne_empty htried hsource with
      ⟨other, hother, hanswer⟩ | ⟨hopen, _⟩
    · rw [hanswer, hother.unique braces (hinside.append _)]
      rfl
    · exact absurd (hinside.append _) (hopen inside)

/-- **What is skipped** may stand in front of anything. -/
theorem extracted_skipped (hclear : place.ClearAbove) {w : List Char} (hw : Skipped w)
    (inserted : List Char) : place.extracted (w ++ inserted) = place.extracted inserted := by
  rcases reached_or_settled hclear with hreached | ⟨answer, hanswer⟩
  · by_cases hclosed : ∃ rest, Encloses '{' '}' (inserted ++ place.remainder) rest
    · obtain ⟨rest, hrest⟩ := hclosed
      have hbehind := hrest.behind hw.balanced
      rw [← List.append_assoc] at hbehind
      rw [extracted_of_encloses hreached hbehind, extracted_of_encloses hreached hrest]
      -- The name list passes over what is skipped and then reads the same text.
      unfold splitNames ScanState.run noNames
      rw [String.toList_ofList, String.toList_ofList, runChars_append, runChars_append,
        runChars_append, runChars_frontText, hw.passes]
    · have hopen := not_exists.mp hclosed
      rw [extracted_of_open hreached hopen]
      apply extracted_of_open hreached
      intro rest hrest
      rw [List.append_assoc] at hrest
      obtain ⟨behind, _, hbehind⟩ := (encloses_append_iff braces hw.balanced).mp hrest
      exact hopen behind hbehind
  · rw [hanswer, hanswer]

/-! ### Comments that are not balanced -/

section

variable {u : List Char} (hreached : FalseStarts place.anchor.toList place.above)
  (hu : ¬ commentEnd <:+: u) (hslash : u.head? ≠ some '/')
include hreached hu hslash

/-- A comment that closes the block is cut off there, and the name list ends
    inside it. -/
theorem extracted_of_closing {inside : List Char} (h : Encloses '{' '}' u inside) :
    place.extracted (blockComment u) = .error (.unterminatedNames .comment) := by
  have hstart : Balanced '{' '}' ['/', '*'] := .of_plain (by decide)
  have hblock : Encloses '{' '}' (blockComment u ++ place.remainder) (['/', '*'] ++ inside) := by
    have happend := (h.append (commentEnd ++ place.remainder)).behind hstart
    rwa [← List.append_assoc u] at happend
  rw [extracted_of_encloses hreached hblock]
  have hcut : ¬ commentEnd <:+: '*' :: inside := by
    intro hinfix
    apply not_commentEnd_starred hu hslash
    obtain ⟨_, rest, htext⟩ := h
    apply hinfix.trans
    exact ⟨[], '}' :: rest ++ ['*'], by simp [htext]⟩
  apply splitNames_of_kind _ (by decide)
  unfold ScanState.run noNames
  rw [String.toList_ofList, runChars_append, runChars_frontText]
  exact runChars_comment_open hcut

/-- If a comment leaves something open, the brace that closes the list
    becomes part of a name. -/
theorem exists_brace_of_partway {depth : Nat} {quote : Option Quote} {escaped : Bool}
    (hpart : Partway '{' '}' depth quote escaped u) (hopen : ¬ Balanced '{' '}' u)
    {names : List String} (h : place.extracted (blockComment u) = .ok names) :
    ∃ name ∈ names, '}' ∈ name.toList := by
  have hstart : Balanced '{' '}' ['/', '*'] := .of_plain (by decide)
  have hrest : Balanced '{' '}' (commentEnd ++ listText place.back) :=
    .append (.of_plain (by decide)) (balanced_listText place.back)
  have hplain : Unquoted (commentEnd ++ listText place.back) :=
    .append (.of_all (by decide)) (unquoted_listText place.back)
  obtain ⟨_, _, _, hpast⟩ := exists_partway_closing braces hpart hopen hrest hplain
  by_cases hclosed : ∃ rest, Encloses '{' '}' (blockComment u ++ place.remainder) rest
  · obtain ⟨rest, hblock⟩ := hclosed
    rw [extracted_of_encloses hreached hblock] at h
    -- The block reaches over the brace.
    have hsplit : blockComment u ++ place.remainder =
        ['/', '*'] ++ (u ++ (commentEnd ++ listText place.back) ++ ['}'] ++ place.below) := by
      simp [blockComment, remainder]
    rw [hsplit] at hblock
    obtain ⟨more, hrest, hmore⟩ := (encloses_append_iff braces hstart).mp hblock
    obtain ⟨tail, htail⟩ := hpast.prefix_of_encloses braces hmore
    have htext : frontText place.front ++ rest = frontText place.front ++
        (blockComment u ++ (listText place.back ++ ('}' :: tail))) := by
      rw [hrest, ← htail]
      simp [blockComment]
    rw [htext] at h
    apply exists_mem_of_splitNames h
    obtain ⟨earlier, last, hrun, _⟩ := runChars_listText place.back
    have hbrace : (ScanState.names (place.front.map ListEntry.name ++ earlier) last).advance '}' =
        .names (place.front.map ListEntry.name ++ earlier) (last.push '}') :=
      advance_topLevel ⟨by decide, by decide, by decide⟩ (by decide) (by decide)
    unfold ScanState.run noNames
    rw [String.toList_ofList, runChars_append, runChars_frontText, List.nil_append,
      runChars_append, runChars_blockComment hu hslash, runChars_append, hrun, runChars_cons,
      hbrace]
    apply mentions_runChars
    refine ⟨last.push '}', List.mem_append_right _ List.mem_cons_self, ?_⟩
    rw [String.toList_push]
    exact List.mem_append_right _ List.mem_cons_self
  · rw [extracted_of_open hreached (not_exists.mp hclosed)] at h
    cases h

/-- **A comment that changes nothing** is balanced. -/
theorem balanced_of_extracted (h : place.extracted (blockComment u) = .ok place.listed) :
    Balanced '{' '}' u := by
  refine Classical.byContradiction fun hopen => ?_
  rcases encloses_or_partway braces u with ⟨inside, hinside⟩ | ⟨depth, quote, escaped, hpart⟩
  · rw [extracted_of_closing hreached hu hslash hinside] at h
    cases h
  · obtain ⟨name, hname, hbrace⟩ :=
      exists_brace_of_partway hreached hu hslash hpart hopen h
    rcases List.mem_append.mp hname with hfront | hback
    · obtain ⟨e, _, rfl⟩ := List.mem_map.mp hfront
      exact e.brace_notMem_name hbrace
    · exact brace_notMem_listedNames place.back name hback hbrace

end

end Place

/-! ## Comments -/

/-- **Which comments change nothing.** Take a declaration at the start of a
    line, with the blocks behind earlier occurrences of its anchor closed
    above it, and insert a comment in front of one of its entries. If the
    text of the comment is balanced and does not start with a slash, the
    extracted names stay what they are. If it starts with a slash, the
    comment ends there, and the rest of it is read as part of the list. And
    where the declaration is the first occurrence of its anchor, its names
    are extracted, and a comment that does not start with a slash leaves
    them alone only if its text is balanced. -/
theorem comment_neutral_iff_balanced (place : Place) {u : List Char}
    (hu : ¬ commentEnd <:+: u) :
    (place.ClearAbove → u.head? ≠ some '/' → Balanced '{' '}' u →
      place.extracted (blockComment u) = place.extracted []) ∧
    (place.ClearAbove → ∀ v, u = '/' :: v →
      place.extracted (blockComment u) = place.extracted (v ++ commentEnd)) ∧
    (¬ place.anchor.toList <:+: place.above →
      place.extracted [] = .ok place.listed ∧
        (u.head? ≠ some '/' → place.extracted (blockComment u) = place.extracted [] →
          Balanced '{' '}' u)) := by
  refine ⟨?_, ?_, ?_⟩
  · intro hclear hslash hbalanced
    have hskipped := Place.extracted_skipped hclear (skipped_blockComment hu hslash hbalanced) []
    rwa [List.append_nil] at hskipped
  · intro hclear v hv
    rw [hv]
    exact Place.extracted_skipped hclear skipped_slashes (v ++ commentEnd)
  · intro hfirst
    have hreached := place.falseStarts_of_first hfirst
    have hlisted := Place.extracted_nil hreached
    refine ⟨hlisted, fun hslash hsame => ?_⟩
    rw [hlisted] at hsame
    exact Place.balanced_of_extracted hreached hu hslash hsame

/-- A declaration of two entries, one of them with a payload. -/
def shapePlace : Place where
  name := "Shape"
  above := ['m', '\n']
  front := [{ name := "Dot", payload := ['(', 'x', ')'],
              isPayload := @IsPayload.some _ _ ['x'] .parentheses (.of_plain (by decide))
                (.of_plain (by decide)) (.of_all (by decide)) }]
  back := [{ before := ['\n', ' '], name := "Box" }]
  below := []
  word := List.all_eq_true.mp rfl
  lineStart := .inr rfl

/-- A comment with a quoted brace in braces, and one that a slash ends. -/
theorem comment_neutral_iff_balanced_quoted :
    ¬ shapePlace.anchor.toList <:+: shapePlace.above ∧ shapePlace.ClearAbove ∧
      ¬ commentEnd <:+: "\x7b'\x7d'\x7d".toList ∧ Balanced '{' '}' "\x7b'\x7d'\x7d".toList ∧
      shapePlace.extracted (blockComment "\x7b'\x7d'\x7d".toList) = .ok ["Dot", "Box"] ∧
      ¬ commentEnd <:+: "/x".toList ∧
      shapePlace.extracted (blockComment "/x".toList) = shapePlace.extracted "x*/".toList := by
  have hfirst : ¬ shapePlace.anchor.toList <:+: shapePlace.above := by decide
  have hclear := shapePlace.clearAbove_of_first hfirst
  have hquoted : Balanced '{' '}' ['\'', '}', '\''] :=
    @Balanced.quoted _ _ .single ['}'] [] (.plain (by decide) (by decide) .nil) .nil
  have hbalanced : Balanced '{' '}' "\x7b'\x7d'\x7d".toList := .nested hquoted .nil
  have hbraces : ¬ commentEnd <:+: "\x7b'\x7d'\x7d".toList := by decide
  have hslash : ¬ commentEnd <:+: "/x".toList := by decide
  obtain ⟨hneutral, _, hlisted⟩ := comment_neutral_iff_balanced shapePlace hbraces
  obtain ⟨_, hcut, _⟩ := comment_neutral_iff_balanced shapePlace hslash
  refine ⟨hfirst, hclear, hbraces, hbalanced, ?_, hslash, hcut hclear ['x'] rfl⟩
  rw [hneutral hclear (by decide) hbalanced, (hlisted hfirst).1]
  rfl

/-- **A comment may change the names**: an apostrophe in it opens quoted text
    that swallows the brace at the end of the list. -/
theorem comment_may_change_names :
    ¬ ∀ (place : Place) (u : List Char), ¬ place.anchor.toList <:+: place.above →
      ¬ commentEnd <:+: u → place.extracted (blockComment u) = place.extracted [] := by
  intro hneutral
  have hfirst : ¬ shapePlace.anchor.toList <:+: shapePlace.above := by decide
  have hreached := shapePlace.falseStarts_of_first hfirst
  have hsame := hneutral shapePlace ['\''] hfirst (by decide)
  rw [Place.extracted_nil hreached] at hsame
  have hbalanced := Place.balanced_of_extracted hreached (by decide) (by decide) hsame
  generalize htext : ['\''] = text at hbalanced
  cases hbalanced with
  | nil => cases htext
  | plain _ _ hmark _ =>
    cases htext
    cases hmark
  | quoted _ _ =>
    -- There is no second mark.
    have hlength := congrArg List.length htext
    simp at hlength
  | nested _ _ => cases htext

end TaggedWire
