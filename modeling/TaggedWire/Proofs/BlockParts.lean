import Mathlib.Data.List.Induction
import TaggedWire.Proofs.BlockGrammar

/-! # Parts of a block

    What a part of a text says about the block that starts with it. Every
    text has the whole of its block in it, or it is `Partway` in the grammar
    (`encloses_or_partway`), and it cannot be both. So balanced text in front
    of a block may be cut off (`encloses_append_iff`), and a block goes on
    behind every part of it that is only partway
    (`Partway.prefix_of_encloses`).

    The last section is about text that is not balanced but has no end of a
    block in it. Balanced text without quotation marks does not make up for
    what is open there, and neither does the closing delimiter behind it
    (`exists_partway_closing`). -/

namespace TaggedWire

variable {opening closing : Char} {depth : Nat} {quote : Option Quote} {escaped : Bool}
  {t u text inside : List Char}

/-! ## Running over parts -/

namespace ScanState

variable {next : ScanState}

/-- Open delimiters go down as many levels. -/
theorem runChars_opened (hd : Delimiters opening closing) (h : Opened opening closing depth t)
    (level : Nat) (captured : String) :
    (block ⟨opening, closing, level, none, false, captured⟩ next).runChars t =
      block ⟨opening, closing, level + depth, none, false, t.foldl String.push captured⟩ next := by
  induction h with
  | level hbalanced => exact runChars_balanced hd hbalanced
  | deeper _ hinner ih =>
    rw [runChars_append, ih, runChars_cons, advance_opening hd, runChars_balanced hd hinner,
      List.foldl_append, List.foldl_cons]
    rfl

/-- Text that is partway leaves the automaton in the block. -/
theorem runChars_partway (hd : Delimiters opening closing)
    (h : Partway opening closing depth quote escaped t) (captured : String) (next : ScanState) :
    ∃ b : Block, (block ⟨opening, closing, 0, none, false, captured⟩ next).runChars t =
      block b next := by
  cases h with
  | outside hopened => exact ⟨_, runChars_opened hd hopened 0 captured⟩
  | @quoted t body q hopened hbody =>
    rw [runChars_append, runChars_opened hd hopened, runChars_cons, advance_mark q hd,
      runChars_quoted hbody]
    exact ⟨_, rfl⟩
  | @escaping t body q hopened hbody =>
    rw [runChars_append, runChars_opened hd hopened, runChars_cons, advance_mark q hd,
      runChars_append, runChars_quoted hbody, runChars_cons, runChars_nil, advance]
    -- Nothing inside quoted text ends a block.
    rw [if_neg (by simp [Block.endsAt])]
    exact ⟨_, rfl⟩

end ScanState

open ScanState

/-! ## Where a block ends -/

/-- A block has one text. -/
theorem Encloses.unique (hd : Delimiters opening closing)
    (h : Encloses opening closing text inside) {other : List Char}
    (hother : Encloses opening closing text other) : inside = other := by
  have hheld := (runChars_enclosed hd h).symm.trans (runChars_enclosed hd hother)
  injection hheld with hheld
  injection hheld with hheld
  exact String.ofList_injective hheld

/-- What follows a block does not matter. -/
theorem Encloses.append (h : Encloses opening closing text inside) (more : List Char) :
    Encloses opening closing (text ++ more) inside := by
  obtain ⟨hbalanced, rest, htext⟩ := h
  exact ⟨hbalanced, rest ++ more, by simp [htext]⟩

/-- Balanced text in front of a block belongs to it. -/
theorem Encloses.behind (h : Encloses opening closing text inside)
    (ht : Balanced opening closing t) : Encloses opening closing (t ++ text) (t ++ inside) := by
  obtain ⟨hbalanced, rest, htext⟩ := h
  exact ⟨ht.append hbalanced, rest, by simp [htext]⟩

/-- **Every text** has the whole of its block in it, or is partway. -/
theorem encloses_or_partway (hd : Delimiters opening closing) (text : List Char) :
    (∃ inside, Encloses opening closing text inside) ∨
      ∃ depth quote escaped, Partway opening closing depth quote escaped text := by
  induction text using List.reverseRecOn with
  | nil =>
    right
    exact ⟨0, none, false, .outside (.level .nil)⟩
  | append_singleton text x ih =>
    rcases ih with ⟨inside, hinside⟩ | ⟨depth, quote, escaped, hpart⟩
    · left
      exact ⟨inside, hinside.append [x]⟩
    · -- One more character ends the block or keeps the text partway.
      have hcaptures :
          Block.Captures ⟨opening, closing, depth, quote, escaped, String.ofList text⟩ := by
        unfold Block.Captures
        rwa [String.toList_ofList]
      cases hend : Block.endsAt ⟨opening, closing, depth, quote, escaped, String.ofList text⟩ x with
      | true =>
        left
        have hbalanced := hcaptures.balanced hend
        rw [String.toList_ofList] at hbalanced
        obtain ⟨-, -, hclosing, -⟩ := Block.endsAt_iff.mp hend
        exact ⟨text, hbalanced, [], by rw [hclosing]⟩
      | false =>
        right
        have hpushed := hcaptures.push hd hend
        unfold Block.Captures Block.push at hpushed
        rw [String.toList_push, String.toList_ofList] at hpushed
        exact ⟨_, _, _, hpushed⟩

/-- Text that is partway has no end of the block in it, also behind balanced
    text. -/
theorem Partway.not_encloses (hd : Delimiters opening closing)
    (h : Partway opening closing depth quote escaped u) (ht : Balanced opening closing t) :
    ¬ Encloses opening closing (t ++ u) inside := by
  intro hencloses
  have hheld := runChars_enclosed hd hencloses
  unfold capturing at hheld
  rw [runChars_append, runChars_balanced hd ht] at hheld
  obtain ⟨b, hblock⟩ := runChars_partway hd h (t.foldl String.push "") empty
  rw [hblock] at hheld
  cases hheld

/-- **Cutting off balanced text** in front of a block. -/
theorem encloses_append_iff (hd : Delimiters opening closing) (ht : Balanced opening closing t) :
    Encloses opening closing (t ++ text) inside ↔
      ∃ rest, inside = t ++ rest ∧ Encloses opening closing text rest := by
  constructor
  · intro h
    rcases encloses_or_partway hd text with ⟨rest, hrest⟩ | ⟨depth, quote, escaped, hpart⟩
    · exact ⟨rest, h.unique hd (hrest.behind ht), hrest⟩
    · exact absurd h (hpart.not_encloses hd ht)
  · intro ⟨rest, hinside, hrest⟩
    rw [hinside]
    exact hrest.behind ht

/-- **A block goes on** behind a part that is partway. -/
theorem Partway.prefix_of_encloses (hd : Delimiters opening closing)
    (h : Partway opening closing depth quote escaped u)
    (hencloses : Encloses opening closing (u ++ text) inside) : u <+: inside := by
  obtain ⟨hbalanced, rest, hsplit⟩ := hencloses
  rcases List.append_eq_append_iff.mp hsplit with ⟨more, hinside, -⟩ | ⟨more, hpart, htail⟩
  · exact ⟨more, hinside.symm⟩
  · cases more with
    | nil => exact ⟨[], by simpa using hpart⟩
    | cons x more =>
      -- The block would end inside the part.
      obtain ⟨hclosing, -⟩ := List.cons.inj htail
      rw [← hclosing] at hpart
      exact absurd ⟨hbalanced, more, hpart⟩ (h.not_encloses hd .nil)

/-! ## What is left open -/

/-- Text without quotation marks. -/
def Unquoted (text : List Char) : Prop := ∀ c ∈ text, Quote.openedBy? c = none

/-- Quoted text goes on as long as its mark does not come. -/
theorem Partway.append_quoted {q : Quote} (h : Partway opening closing depth (some q) escaped t)
    (hu : q.mark ∉ u) : ∃ later, Partway opening closing depth (some q) later (t ++ u) := by
  induction u generalizing t escaped with
  | nil => exact ⟨escaped, by rwa [List.append_nil]⟩
  | cons x u ih =>
    have hx : x ≠ q.mark := by
      intro hsame
      exact hu (hsame ▸ List.mem_cons_self)
    have hrest : q.mark ∉ u := fun hmem => hu (List.mem_cons_of_mem x hmem)
    have hstep : ∃ later, Partway opening closing depth (some q) later (t ++ [x]) := by
      cases h with
      | quoted hopened hbody =>
        rw [List.append_assoc, List.cons_append]
        by_cases hslash : x = '\\'
        · exact ⟨true, hslash ▸ .escaping hopened hbody⟩
        · exact ⟨false, .quoted hopened (hbody.push hx hslash)⟩
      | escaping hopened hbody =>
        rw [List.append_assoc, List.cons_append, List.append_assoc]
        exact ⟨false, .quoted hopened (hbody.push_escaped x)⟩
    obtain ⟨later, hlater⟩ := hstep
    have happend : t ++ x :: u = t ++ [x] ++ u := by simp
    rw [happend]
    exact ih hlater hrest

/-- **What is open stays open**: if text is partway and not balanced, then
    neither balanced text without quotation marks nor a closing delimiter
    behind it ends the block. -/
theorem exists_partway_closing (hd : Delimiters opening closing)
    (h : Partway opening closing depth quote escaped t) (hopen : ¬ Balanced opening closing t)
    (hu : Balanced opening closing u) (hplain : Unquoted u) :
    ∃ depth quote escaped, Partway opening closing depth quote escaped (t ++ u ++ [closing]) := by
  cases quote with
  | none =>
    have hopened := h.opened.append hu
    cases depth with
    | zero => exact absurd h.opened.balanced hopen
    | succ depth => exact ⟨depth, none, false, .outside hopened.ascend⟩
  | some q =>
    have hmark : q.mark ∉ u ++ [closing] := by
      intro hmem
      rcases List.mem_append.mp hmem with hmem | hmem
      · exact Quote.mark_ne (hplain _ hmem) rfl
      · exact Quote.mark_ne hd.closing_plain (List.mem_singleton.mp hmem)
    obtain ⟨later, hlater⟩ := h.append_quoted hmark
    rw [← List.append_assoc] at hlater
    exact ⟨depth, some q, later, hlater⟩

end TaggedWire
