import Mathlib.Data.List.Forall2
import TaggedWire.Proofs.Anchor
import TaggedWire.Proofs.NameSegments
import TaggedWire.Proofs.Words

/-! # Reading a declaration

    A declaration is an anchor at the start of a line, a block in braces
    and, in the block, one entry per line. An entry `Declares` a name if
    the name list gains exactly that name over it, whatever names it has
    already. What the extraction makes of a whole declaration follows: the
    names of its entries, in order (`orderedNames_declaration`). -/

namespace TaggedWire

namespace ScanState

/-! ## Name lists -/

variable {found : List String} {current : String}

theorem runChars_blanks {text : List Char} (h : ∀ c ∈ text, isBlank c = true) :
    (names found current).runChars text = names found current := by
  induction text with
  | nil => rfl
  | cons c text ih =>
    rw [runChars_cons, advance_blank (h c List.mem_cons_self),
      ih fun d hd => h d (List.mem_cons_of_mem c hd)]

theorem advance_wordChar {c : Char} (h : isWordChar c = true) :
    (names found current).advance c = names found (current.push c) := by
  have hne {d : Char} (hd : d ∈ separators) : c ≠ d := isWordChar_ne h hd
  have htop : IsTopLevel c := ⟨hne (by decide), hne (by decide), hne (by decide)⟩
  exact advance_topLevel htop (isBlank_wordChar h) (hne (by decide))

theorem runChars_wordChars {text : List Char} (h : ∀ c ∈ text, isWordChar c = true) :
    (names found current).runChars text = names found (text.foldl String.push current) := by
  induction text generalizing current with
  | nil => rfl
  | cons c text ih =>
    rw [runChars_cons, advance_wordChar (h c List.mem_cons_self),
      ih fun d hd => h d (List.mem_cons_of_mem c hd), List.foldl_cons]

/-- A word after nothing is the current name. -/
theorem runChars_word {name : String} (h : IsWord name) :
    (names found "").runChars name.toList = names found name := by
  rw [runChars_wordChars h.2, foldl_push_empty, String.ofList_toList]

/-- A payload in braces is dropped. -/
theorem runChars_payload {inner : List Char} (h : Balanced '{' '}' inner) :
    (names found current).runChars ('{' :: (inner ++ ['}'])) = names found current := by
  rw [runChars_cons, PayloadDelimiters.braces.advance, runChars_block braces h]
  rfl

end ScanState

open ScanState

/-! ## Entries -/

/-- Text that adds one name to a name list, and that a block can hold. -/
structure Declares (text : List Char) (name : String) : Prop where
  balanced : Balanced '{' '}' text
  gains : ∀ found, (names found "").runChars text = names (found ++ [name]) ""

theorem balanced_wordChars {text : List Char} (h : ∀ c ∈ text, isWordChar c = true) :
    Balanced '{' '}' text := by
  refine .of_plain (List.all_eq_true.mpr fun c hc => isPlain_iff.mpr ?_)
  have hword := h c hc
  exact ⟨isWordChar_ne hword (by decide), isWordChar_ne hword (by decide),
    Quote.openedBy?_wordChar hword⟩

theorem balanced_blanks {text : List Char} (h : ∀ c ∈ text, isBlank c = true) :
    Balanced '{' '}' text := by
  have hne {c d : Char} (hc : c ∈ text) (hd : isBlank d = false) : c ≠ d := by
    rintro rfl
    rw [h c hc] at hd
    cases hd
  refine .of_plain (List.all_eq_true.mpr fun c hc => isPlain_iff.mpr ?_)
  refine ⟨hne hc (by decide), hne hc (by decide), ?_⟩
  exact Quote.openedBy?_eq_none_iff.mpr ⟨hne hc (by decide), hne hc (by decide)⟩

/-- A word and a comma. -/
theorem declares_bare {name : String} (h : IsWord name) : Declares (name.toList ++ [',']) name where
  balanced := (balanced_wordChars h.2).append (.of_plain (by decide))
  gains found := by
    rw [runChars_append, runChars_word h]
    rfl

/-- A word, a payload in braces and a comma. -/
theorem declares_payload {name : String} {inner : List Char} (h : IsWord name)
    (hinner : Balanced '{' '}' inner) :
    Declares (name.toList ++ (' ' :: '{' :: (inner ++ ['}'])) ++ [',']) name where
  balanced := by
    refine .append (.append (balanced_wordChars h.2) ?_) (.of_plain (by decide))
    exact .plain (by decide) (by decide) rfl (.nested hinner .nil)
  gains found := by
    have hspace : (names found name).advance ' ' = names found name := rfl
    rw [runChars_append, runChars_append, runChars_word h, runChars_cons (names found name),
      hspace, runChars_payload hinner]
    rfl

/-- A word with a number: the blanks around the sign between them are
    dropped. -/
theorem declares_numbered {name : String} (h : IsWord name) (number : Nat) :
    Declares (name.toList ++ " = ".toList ++ (toString number).toList ++ [','])
      s!"{name}={number}" := by
  have hdigits : ∀ c ∈ (toString number).toList, isWordChar c = true :=
    fun _ hc => isWordChar_of_mem_toString hc
  constructor
  · exact .append (.append (.append (balanced_wordChars h.2) (.of_plain (by decide)))
      (balanced_wordChars hdigits)) (.of_plain (by decide))
  · intro found
    have hsign : (names found name).runChars " = ".toList = names found (name.push '=') := rfl
    have hname : (toString number).toList.foldl String.push (name.push '=') =
        s!"{name}={number}" := by
      rw [← String.toList_inj, toList_foldl_push]
      simp [toString]
    rw [runChars_append, runChars_append, runChars_append, runChars_word h, hsign,
      runChars_wordChars hdigits, hname]
    rfl

/-- Blanks around an entry do not matter. -/
theorem Declares.blanks {text before after : List Char} {name : String} (h : Declares text name)
    (hbefore : ∀ c ∈ before, isBlank c = true) (hafter : ∀ c ∈ after, isBlank c = true) :
    Declares (before ++ text ++ after) name where
  balanced := ((balanced_blanks hbefore).append h.balanced).append (balanced_blanks hafter)
  gains found := by
    rw [runChars_append, runChars_append, runChars_blanks hbefore, h.gains, runChars_blanks hafter]

/-! ## The entries of a block -/

section

variable {texts : List (List Char)} {declared : List String}

theorem balanced_entries (h : List.Forall₂ Declares texts declared) :
    Balanced '{' '}' texts.flatten := by
  induction h with
  | nil => exact .nil
  | cons hentry _ ih => exact hentry.balanced.append ih

/-- The names of the entries are added in order. -/
theorem runChars_entries (h : List.Forall₂ Declares texts declared) (found : List String) :
    (names found "").runChars texts.flatten = names (found ++ declared) "" := by
  induction h generalizing found with
  | nil => rw [List.append_nil]; rfl
  | cons hentry _ ih =>
    rw [List.flatten_cons, runChars_append, hentry.gains, ih, List.append_assoc,
      List.singleton_append]

theorem splitNames_entries {before : List Char} (hbefore : ∀ c ∈ before, isBlank c = true)
    (h : List.Forall₂ Declares texts declared) :
    splitNames (String.ofList (before ++ texts.flatten)) = .ok declared := by
  unfold splitNames ScanState.run noNames
  rw [String.toList_ofList, runChars_append, runChars_blanks hbefore, runChars_entries h]
  rfl

end

/-! ## Declarations -/

/-- The block after the first occurrence of an anchor, if that occurrence
    follows a character foreign to the anchor. -/
theorem captureBlock_of_anchor {source anchor : String} {before body rest : List Char} {c : Char}
    (hsource : source.toList = before ++ [c] ++ anchor.toList ++ (body ++ '}' :: rest))
    (hnot : ¬ anchor.toList <:+: before ++ [c]) (hc : c ∉ anchor.toList)
    (hbody : Balanced '{' '}' body) : captureBlock source anchor = .ok (String.ofList body) := by
  -- The empty literal occurs everywhere.
  have hne : anchor.toList ≠ [] := by
    intro hnil
    rw [hnil] at hnot
    exact hnot List.nil_infix
  have hrun : (blockAfter anchor).run source = .held (some (String.ofList body)) := by
    unfold blockAfter awaiting ScanState.run
    rw [if_neg hne, hsource, runChars_anchor _ _ hnot hc, runChars_block braces hbody]
    exact runChars_held _ _
  unfold captureBlock
  rw [hrun]

/-- **A declaration** at the start of a line gives the names of its entries
    in order. -/
theorem orderedNames_declaration {source anchor : String} {before rest : List Char}
    {texts : List (List Char)} {declared : List String}
    (hsource : source.toList = before ++ anchor.toList ++ (['\n'] ++ texts.flatten ++ '}' :: rest))
    (hend : before.getLast? = some '\n') (hnot : ¬ anchor.toList <:+: before)
    (hline : '\n' ∉ anchor.toList) (h : List.Forall₂ Declares texts declared) :
    orderedNames source anchor = .ok declared := by
  have hblank : ∀ c ∈ ['\n'], isBlank c = true := List.forall_mem_singleton.mpr (by decide)
  have hbody : Balanced '{' '}' (['\n'] ++ texts.flatten) :=
    (balanced_blanks hblank).append (balanced_entries h)
  obtain ⟨above, rfl⟩ := List.getLast?_eq_some_iff.mp hend
  unfold orderedNames
  rw [captureBlock_of_anchor hsource hnot hline hbody]
  exact splitNames_entries hblank h

end TaggedWire
