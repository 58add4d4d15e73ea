import TaggedWire.Scan.Extract

/-! # Finding an anchor

    The anchor of the automaton does not look back. A character that breaks
    a partial match is not tried as the start of the next one, so what is
    read while waiting falls into *false starts*: a beginning of the
    literal, and then a character that does not go on with it.

    False starts describe a run exactly. Every text is a sequence of them
    and then either the literal, after which the automaton has moved on, or
    a beginning of it (`trying_or_found`, `runChars_trying`,
    `runChars_found`). In particular an occurrence that follows a character
    foreign to the literal cannot be missed, because such a character breaks
    every match. A declaration at the start of a line is the case of
    interest (`runChars_anchor`). -/

namespace TaggedWire

/-! ## False starts -/

section

variable {literal text tried : List Char} {progress : Nat}

/-- Text that is one false start after another: `progress` characters of the
    literal, but not all of it, and then a character that is not the next
    one. -/
inductive FalseStarts (literal : List Char) : List Char → Prop
  | none : FalseStarts literal []
  | broken {tried : List Char} {progress : Nat} {c : Char} :
      FalseStarts literal tried → progress < literal.length → literal[progress]? ≠ some c →
      FalseStarts literal (tried ++ literal.take progress ++ [c])

/-- False starts, and then a beginning of the literal that is neither broken
    nor complete. -/
def Trying (literal text : List Char) : Prop :=
  ∃ tried progress, FalseStarts literal tried ∧ progress < literal.length ∧
    text = tried ++ literal.take progress

/-- False starts, and then the literal. -/
def Found (literal text : List Char) : Prop :=
  ∃ tried rest, FalseStarts literal tried ∧ text = tried ++ literal ++ rest

/-- Whatever follows an unbroken beginning, the literal is found or still
    being tried. -/
theorem trying_or_found_from (htried : FalseStarts literal tried)
    (hprogress : progress < literal.length) (text : List Char) :
    Trying literal (tried ++ literal.take progress ++ text) ∨
      Found literal (tried ++ literal.take progress ++ text) := by
  induction text generalizing tried progress with
  | nil =>
    left
    exact ⟨tried, progress, htried, hprogress, List.append_nil _⟩
  | cons c text ih =>
    by_cases hc : literal[progress]? = some c
    · have htake : literal.take (progress + 1) = literal.take progress ++ [c] := by
        rw [List.take_add_one, hc]
        rfl
      have hsplit : tried ++ literal.take progress ++ c :: text =
          tried ++ literal.take (progress + 1) ++ text := by
        rw [htake]
        simp
      rw [hsplit]
      by_cases hlast : progress + 1 = literal.length
      · right
        rw [hlast, List.take_length]
        exact ⟨tried, text, htried, rfl⟩
      · exact ih htried (by omega)
    · -- The start is broken, and with `c` behind it another false one.
      have hsplit : tried ++ literal.take progress ++ c :: text =
          tried ++ literal.take progress ++ [c] ++ literal.take 0 ++ text := by simp
      rw [hsplit]
      exact ih (.broken htried hprogress hc) (by omega)

theorem trying_or_found (hne : literal ≠ []) (text : List Char) :
    Trying literal text ∨ Found literal text := by
  have hpos : 0 < literal.length := List.length_pos_iff.mpr hne
  exact trying_or_found_from .none hpos text

/-- Nothing is being tried after a character that is not in the literal. -/
theorem Trying.falseStarts (h : Trying literal text)
    (hforeign : ∀ c, text.getLast? = some c → c ∉ literal) : FalseStarts literal text := by
  obtain ⟨tried, progress, htried, hprogress, htext⟩ := h
  cases progress with
  | zero =>
    rw [htext, List.take_zero, List.append_nil]
    exact htried
  | succ progress =>
    -- The last character tried would be one of the literal.
    have hget : literal[progress]? = some literal[progress] :=
      List.getElem?_eq_getElem (Nat.lt_of_succ_lt hprogress)
    rw [List.take_add_one, hget, Option.toList_some, ← List.append_assoc] at htext
    have hlast : text.getLast? = some literal[progress] := by
      rw [htext]
      exact List.getLast?_concat
    exact absurd (List.getElem_mem _) (hforeign _ hlast)

end

/-! ## Running over them -/

namespace ScanState

variable {literal text tried : List Char} {progress : Nat} {next : ScanState}

/-- A beginning of the literal brings the automaton to its next
    character. -/
theorem runChars_take (next : ScanState) (hprogress : progress < literal.length) :
    (anchor literal 0 next).runChars (literal.take progress) = anchor literal progress next := by
  induction progress with
  | zero => rw [List.take_zero, runChars_nil]
  | succ progress ih =>
    have hlt : progress < literal.length := Nat.lt_of_succ_lt hprogress
    have hget : literal[progress]? = some literal[progress] := List.getElem?_eq_getElem hlt
    rw [List.take_add_one, hget, Option.toList_some, runChars_append, ih hlt, runChars_cons,
      runChars_nil, advance, if_pos hget, if_neg (Nat.ne_of_lt hprogress)]

/-- The whole literal brings it to the next state. -/
theorem runChars_literal (next : ScanState) (hne : literal ≠ []) :
    (anchor literal 0 next).runChars literal = next := by
  have hpos : 0 < literal.length := List.length_pos_iff.mpr hne
  have hlt : literal.length - 1 < literal.length := by omega
  have hlast : literal.length - 1 + 1 = literal.length := by omega
  have hget : literal[literal.length - 1]? = some literal[literal.length - 1] :=
    List.getElem?_eq_getElem hlt
  have hsplit : literal.take (literal.length - 1) ++ [literal[literal.length - 1]] = literal := by
    have htake := List.take_add_one (l := literal) (i := literal.length - 1)
    rw [hget, Option.toList_some, hlast, List.take_length] at htake
    exact htake.symm
  have hrun : (anchor literal 0 next).runChars
      (literal.take (literal.length - 1) ++ [literal[literal.length - 1]]) = next := by
    rw [runChars_append, runChars_take next hlt, runChars_cons, runChars_nil, advance,
      if_pos hget, if_pos hlast]
  rwa [hsplit] at hrun

/-- False starts leave nothing matched. -/
theorem runChars_falseStarts (next : ScanState) (h : FalseStarts literal tried) :
    (anchor literal 0 next).runChars tried = anchor literal 0 next := by
  induction h with
  | none => rfl
  | broken _ hprogress hc ih =>
    rw [runChars_append, runChars_append, ih, runChars_take next hprogress, runChars_cons,
      runChars_nil, advance, if_neg hc]

/-- **Waiting**: a literal that is being tried is not reached. -/
theorem runChars_trying (next : ScanState) (h : Trying literal text) :
    ∃ progress, progress < literal.length ∧
      (anchor literal 0 next).runChars text = anchor literal progress next := by
  obtain ⟨tried, progress, htried, hprogress, rfl⟩ := h
  refine ⟨progress, hprogress, ?_⟩
  rw [runChars_append, runChars_falseStarts next htried, runChars_take next hprogress]

/-- **Arriving**: false starts and the literal bring it to the next state. -/
theorem runChars_arriving (next : ScanState) (hne : literal ≠ [])
    (h : FalseStarts literal tried) :
    (anchor literal 0 next).runChars (tried ++ literal) = next := by
  rw [runChars_append, runChars_falseStarts next h, runChars_literal next hne]

/-- From there on the next state reads. -/
theorem runChars_found (next : ScanState) (hne : literal ≠ []) (h : FalseStarts literal tried)
    (rest : List Char) :
    (anchor literal 0 next).runChars (tried ++ literal ++ rest) = next.runChars rest := by
  rw [runChars_append, runChars_arriving next hne h]

/-- **Completeness at a line start**: the first occurrence of the literal is
    found if it follows a character that is not in the literal. -/
theorem runChars_anchor {before literal : List Char} {c : Char} (next : ScanState)
    (after : List Char) (hnot : ¬ literal <:+: before ++ [c]) (hc : c ∉ literal) :
    (anchor literal 0 next).runChars (before ++ [c] ++ literal ++ after) =
      next.runChars after := by
  have hne : literal ≠ [] := by
    rintro rfl
    exact hnot List.nil_infix
  have hforeign : ∀ d, (before ++ [c]).getLast? = some d → d ∉ literal := by
    intro d hd
    rw [List.getLast?_concat] at hd
    cases hd
    exact hc
  rcases trying_or_found hne (before ++ [c]) with htrying | ⟨tried, rest, _, hfound⟩
  · exact runChars_found next hne (htrying.falseStarts hforeign) after
  · exact absurd ⟨tried, rest, hfound.symm⟩ hnot

end ScanState

end TaggedWire
