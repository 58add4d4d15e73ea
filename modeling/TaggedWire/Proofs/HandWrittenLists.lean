import TaggedWire.Proofs.BlockParts
import TaggedWire.Proofs.NameLists

/-! # Lists written by hand

    Generated declarations have one entry per line. By hand one may write
    entries behind one another with commas between them, each with blanks
    wherever one likes and with a payload in parentheses or braces. This is
    the grammar of such lists, what a block and a name list make of them,
    and one fact about all name lists: nothing is ever taken out of a
    name. -/

namespace TaggedWire

open ScanState

/-! ## What a name list keeps

    A character that has got into a name stays in the names, however the
    list goes on. -/

/-- The character is in one of the names that the automaton has or comes
    back to. -/
def ScanState.Mentions (x : Char) : ScanState → Prop
  | .anchor _ _ next => next.Mentions x
  | .block _ next => next.Mentions x
  | .comment _ next => next.Mentions x
  | .held _ => False
  | .names found current => ∃ name ∈ found ++ [current], x ∈ name.toList

namespace ScanState

variable {s : ScanState} {x : Char}

theorem mentions_receive (h : s.Mentions x) (captured : String) :
    (s.receive captured).Mentions x := by
  cases s with
  | held text => exact h.elim
  | anchor literal progress next => exact h
  | block inside next => exact h
  | comment armed next => exact h
  | names found current => exact h

/-- One character of a name list ends the current name, adds to it or leaves
    it alone. -/
theorem mentions_advanceNames {found : List String} {current : String}
    (h : (names found current).Mentions x) (c : Char) :
    (advanceNames found current c).Mentions x := by
  obtain ⟨name, hname, hx⟩ := h
  unfold advanceNames
  split
  · exact ⟨name, hname, hx⟩
  split
  · exact ⟨name, List.mem_append_left _ hname, hx⟩
  split
  · exact ⟨name, hname, hx⟩
  split
  · exact ⟨name, hname, hx⟩
  split
  · exact ⟨name, hname, hx⟩
  · rcases List.mem_append.mp hname with hfound | hcurrent
    · exact ⟨name, List.mem_append_left _ hfound, hx⟩
    · rw [List.mem_singleton.mp hcurrent] at hx
      refine ⟨current.push c, List.mem_append_right _ List.mem_cons_self, ?_⟩
      rw [String.toList_push]
      exact List.mem_append_left _ hx

/-- **One character** takes nothing out of the names. -/
theorem mentions_advance (h : s.Mentions x) (c : Char) : (s.advance c).Mentions x := by
  cases s with
  | anchor literal progress next =>
    rw [advance]
    split
    · split
      · exact h
      · exact h
    · exact h
  | block inside next =>
    have hnext : next.Mentions x := h
    rw [advance]
    split
    · exact mentions_receive hnext inside.captured
    · exact h
  | comment armed next =>
    rw [advance]
    split
    · exact h
    · split
      · exact h
      · exact h
  | held text => exact h.elim
  | names found current => exact mentions_advanceNames h c

/-- Nor does a text. -/
theorem mentions_runChars (h : s.Mentions x) (text : List Char) :
    (s.runChars text).Mentions x := by
  induction text generalizing s with
  | nil => exact h
  | cons c text ih => exact ih (mentions_advance h c)

end ScanState

theorem exists_mem_of_splitNames {text : String} {names : List String} {x : Char}
    (h : splitNames text = .ok names) (hx : (noNames.run text).Mentions x) :
    ∃ name ∈ names, x ∈ name.toList := by
  unfold splitNames at h
  cases hrun : noNames.run text with
  | names found current =>
    rw [hrun] at h hx
    obtain ⟨name, hname, hx⟩ := hx
    injection h with h
    rw [← h]
    by_cases hempty : current.isEmpty = true
    · -- The empty name is left out, and nothing is in it.
      rw [if_pos hempty]
      rcases List.mem_append.mp hname with hfound | hcurrent
      · exact ⟨name, hfound, hx⟩
      · rw [List.mem_singleton.mp hcurrent, String.isEmpty_iff.mp hempty] at hx
        cases hx
    · rw [if_neg hempty]
      exact ⟨name, hname, hx⟩
  | anchor literal progress next => rw [hrun] at h; cases h
  | block inside next => rw [hrun] at h; cases h
  | comment armed next => rw [hrun] at h; cases h
  | held captured => rw [hrun] at h; cases h

/-! ## Entries -/

/-- Nothing, or balanced text in parentheses or braces, in which nothing is
    quoted. -/
inductive IsPayload : List Char → Prop
  | none : IsPayload []
  | some {opening closing : Char} {inside : List Char} :
      PayloadDelimiters opening closing → Balanced opening closing inside →
      Balanced '{' '}' inside → Unquoted inside → IsPayload (opening :: (inside ++ [closing]))

/-- An entry of a list as one may write it: a name of word characters and a
    payload, with blanks before, between and behind. -/
structure ListEntry where
  before : List Char := []
  name : String
  between : List Char := []
  payload : List Char := []
  behind : List Char := []
  blank_before : ∀ c ∈ before, isBlank c = true := by exact List.all_eq_true.mp rfl
  word : ∀ c ∈ name.toList, isWordChar c = true := by exact List.all_eq_true.mp rfl
  blank_between : ∀ c ∈ between, isBlank c = true := by exact List.all_eq_true.mp rfl
  isPayload : IsPayload payload := by exact .none
  blank_behind : ∀ c ∈ behind, isBlank c = true := by exact List.all_eq_true.mp rfl

theorem IsPayload.balanced {payload : List Char} (h : IsPayload payload) :
    Balanced '{' '}' payload := by
  cases h with
  | none => exact .nil
  | some hpair _ hinside _ =>
    cases hpair with
    | parentheses =>
      exact .plain (by decide) (by decide) rfl (hinside.append (.of_plain (by decide)))
    | braces => exact .nested hinside .nil

theorem unquoted_blanks {text : List Char} (h : ∀ c ∈ text, isBlank c = true) :
    Unquoted text := by
  intro c hc
  have hne {d : Char} (hd : isBlank d = false) : c ≠ d := by
    intro hsame
    rw [← hsame, h c hc] at hd
    cases hd
  exact Quote.openedBy?_eq_none_iff.mpr ⟨hne (by decide), hne (by decide)⟩

/-- A fixed text is looked through. -/
theorem Unquoted.of_all {text : List Char}
    (h : text.all (fun c => (Quote.openedBy? c).isNone) = true) : Unquoted text := by
  intro c hc
  exact Option.isNone_iff_eq_none.mp (List.all_eq_true.mp h c hc)

theorem Unquoted.append {t u : List Char} (ht : Unquoted t) (hu : Unquoted u) :
    Unquoted (t ++ u) := List.forall_mem_append.mpr ⟨ht, hu⟩

theorem IsPayload.unquoted {payload : List Char} (h : IsPayload payload) : Unquoted payload := by
  cases h with
  | none => exact .of_all rfl
  | some hpair _ _ hplain =>
    have hd := hpair.delimiters
    refine List.forall_mem_cons.mpr ⟨hd.opening_plain, List.forall_mem_append.mpr ⟨hplain, ?_⟩⟩
    exact List.forall_mem_singleton.mpr hd.closing_plain

theorem IsPayload.runChars {payload : List Char} (h : IsPayload payload) (found : List String)
    (current : String) : (names found current).runChars payload = names found current := by
  cases h with
  | none => rfl
  | some hpair hinside _ _ =>
    rw [runChars_cons, hpair.advance, runChars_block hpair.delimiters hinside]
    rfl

namespace ListEntry

/-- The text of an entry. -/
def text (e : ListEntry) : List Char :=
  e.before ++ e.name.toList ++ e.between ++ e.payload ++ e.behind

variable (e : ListEntry)

theorem balanced : Balanced '{' '}' e.text :=
  ((((balanced_blanks e.blank_before).append (balanced_wordChars e.word)).append
    (balanced_blanks e.blank_between)).append e.isPayload.balanced).append
    (balanced_blanks e.blank_behind)

theorem unquoted : Unquoted e.text := by
  have hname : Unquoted e.name.toList := fun c hc => Quote.openedBy?_wordChar (e.word c hc)
  exact ((((unquoted_blanks e.blank_before).append hname).append
    (unquoted_blanks e.blank_between)).append e.isPayload.unquoted).append
    (unquoted_blanks e.blank_behind)

/-- An entry makes its name the current one. -/
theorem runChars_text (found : List String) :
    (names found "").runChars e.text = names found e.name := by
  unfold text
  rw [runChars_append, runChars_append, runChars_append, runChars_append,
    runChars_blanks e.blank_before, runChars_wordChars e.word, foldl_push_empty,
    String.ofList_toList, runChars_blanks e.blank_between, e.isPayload.runChars,
    runChars_blanks e.blank_behind]

/-- No name has a brace in it. -/
theorem brace_notMem_name : '}' ∉ e.name.toList :=
  fun h => isWordChar_ne (e.word _ h) (by decide) rfl

end ListEntry

/-! ## Lists -/

/-- Entries, each with the comma behind it. -/
def frontText (entries : List ListEntry) : List Char :=
  entries.flatMap fun e => e.text ++ [',']

/-- Entries with commas between them. -/
def listText (entries : List ListEntry) : List Char :=
  [','].intercalate (entries.map ListEntry.text)

/-- The names of a list of entries. An empty name at the end is what follows
    the last comma and does not count. -/
def listedNames : List ListEntry → List String
  | [] => []
  | [last] => if last.name.isEmpty then [] else [last.name]
  | e :: next :: rest => e.name :: listedNames (next :: rest)

theorem balanced_frontText (entries : List ListEntry) : Balanced '{' '}' (frontText entries) := by
  unfold frontText
  induction entries with
  | nil => exact .nil
  | cons e entries ih =>
    rw [List.flatMap_cons]
    exact (e.balanced.append (.of_plain (by decide))).append ih

theorem runChars_frontText (entries : List ListEntry) (found : List String) :
    (names found "").runChars (frontText entries) =
      names (found ++ entries.map ListEntry.name) "" := by
  unfold frontText
  induction entries generalizing found with
  | nil => rw [List.map_nil, List.append_nil]; rfl
  | cons e entries ih =>
    rw [List.flatMap_cons, runChars_append, runChars_append, e.runChars_text, runChars_cons,
      runChars_nil, advance_comma, ih, List.append_assoc]
    rfl

/-- A property of texts that entries and commas have and concatenation keeps
    is one of lists. -/
theorem listText_induction {P : List Char → Prop} (hnil : P []) (hcomma : P [','])
    (happend : ∀ {t u : List Char}, P t → P u → P (t ++ u))
    (hentry : ∀ e : ListEntry, P e.text) (entries : List ListEntry) : P (listText entries) := by
  unfold listText
  induction entries with
  | nil => exact hnil
  | cons e entries ih =>
    cases entries with
    | nil =>
      rw [List.map_singleton, List.intercalate_singleton]
      exact hentry e
    | cons next rest =>
      rw [List.map_cons, List.map_cons, List.intercalate_cons_cons]
      exact happend (happend (hentry e) hcomma) ih

theorem balanced_listText (entries : List ListEntry) : Balanced '{' '}' (listText entries) :=
  listText_induction .nil (.of_plain (by decide)) .append ListEntry.balanced entries

theorem unquoted_listText (entries : List ListEntry) : Unquoted (listText entries) :=
  listText_induction (.of_all rfl) (.of_all (by decide)) .append ListEntry.unquoted entries

/-- The last entry of a list is the current name then, and the others have
    been found. -/
theorem runChars_listText (entries : List ListEntry) :
    ∃ earlier last, (∀ found, (names found "").runChars (listText entries) =
        names (found ++ earlier) last) ∧
      listedNames entries = if last.isEmpty then earlier else earlier ++ [last] := by
  induction entries with
  | nil =>
    refine ⟨[], "", fun found => ?_, rfl⟩
    rw [List.append_nil]
    rfl
  | cons e entries ih =>
    unfold listText at ih ⊢
    cases entries with
    | nil =>
      refine ⟨[], e.name, fun found => ?_, rfl⟩
      rw [List.map_singleton, List.intercalate_singleton, e.runChars_text, List.append_nil]
    | cons next rest =>
      obtain ⟨earlier, last, hrun, hlisted⟩ := ih
      refine ⟨e.name :: earlier, last, fun found => ?_, ?_⟩
      · rw [List.map_cons, List.map_cons, List.intercalate_cons_cons, runChars_append,
          runChars_append, e.runChars_text, runChars_cons, runChars_nil, advance_comma,
          ← List.map_cons, hrun, List.append_assoc]
        rfl
      · rw [listedNames, hlisted]
        split
        · rfl
        · rfl

theorem brace_notMem_listedNames (entries : List ListEntry) :
    ∀ name ∈ listedNames entries, '}' ∉ name.toList := by
  induction entries with
  | nil => exact fun _ h => (List.not_mem_nil h).elim
  | cons e entries ih =>
    cases entries with
    | nil =>
      intro name hname
      unfold listedNames at hname
      split at hname
      · cases hname
      · rw [List.mem_singleton.mp hname]
        exact e.brace_notMem_name
    | cons next rest => exact List.forall_mem_cons.mpr ⟨e.brace_notMem_name, ih⟩

end TaggedWire
