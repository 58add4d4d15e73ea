import TaggedWire.Proofs.Blocks

/-! # Which blocks are captured

    `Blocks` says that balanced text is captured up to the delimiter that
    closes it. Here is the other direction: nothing else is. The automaton
    knows a depth, a kind of quoted text and an escape, and in a block that
    is being captured these three describe the text captured so far
    (`Block.Captures`): balanced text with `depth` delimiters in it that are
    still open, then the quoted text it is in, if any. One character keeps
    it so (`Block.Captures.push`), and where a character ends the block, the
    text before it is balanced (`Block.Captures.balanced`).

    So a block ends exactly where the grammar says, and otherwise the
    automaton stays inside with all of the text captured. -/

namespace TaggedWire

/-! ## Text that is still open -/

section

variable {opening closing : Char} {depth : Nat} {t u : List Char}

/-- Balanced text, but for `depth` opening delimiters that are not closed. -/
inductive Opened (opening closing : Char) : Nat → List Char → Prop
  | level {t : List Char} : Balanced opening closing t → Opened opening closing 0 t
  | deeper {depth : Nat} {t u : List Char} :
      Opened opening closing depth t → Balanced opening closing u →
      Opened opening closing (depth + 1) (t ++ opening :: u)

namespace Opened

/-- Balanced text behind it goes to the innermost level. -/
theorem append (ht : Opened opening closing depth t) (hu : Balanced opening closing u) :
    Opened opening closing depth (t ++ u) := by
  cases ht with
  | level hlevel => exact .level (hlevel.append hu)
  | deeper houter hinner =>
    rw [List.append_assoc, List.cons_append]
    exact .deeper houter (hinner.append hu)

/-- An opening delimiter starts a level. -/
theorem descend (h : Opened opening closing depth t) :
    Opened opening closing (depth + 1) (t ++ [opening]) :=
  .deeper h .nil

/-- A closing delimiter turns the innermost level into balanced text of the
    level around it. -/
theorem ascend (h : Opened opening closing (depth + 1) t) :
    Opened opening closing depth (t ++ [closing]) := by
  cases h with
  | deeper houter hinner =>
    rw [List.append_assoc, List.cons_append]
    exact houter.append (.nested hinner .nil)

/-- Without open delimiters the text is balanced. -/
theorem balanced (h : Opened opening closing 0 t) : Balanced opening closing t := by
  cases h with
  | level hlevel => exact hlevel

end Opened

/-- The body of quoted text goes on with a character that means nothing. -/
theorem QuotedBody.push {q : Quote} {body : List Char} {x : Char} (h : QuotedBody q body)
    (hmark : x ≠ q.mark) (hslash : x ≠ '\\') : QuotedBody q (body ++ [x]) := by
  induction h with
  | nil => exact .plain hmark hslash .nil
  | plain hmark' hslash' _ ih => exact .plain hmark' hslash' ih
  | escaped _ ih => exact .escaped ih

/-- After a backslash any character belongs to the body. -/
theorem QuotedBody.push_escaped {q : Quote} {body : List Char} (h : QuotedBody q body)
    (x : Char) : QuotedBody q (body ++ ['\\', x]) := by
  induction h with
  | nil => exact .escaped .nil
  | plain hmark hslash _ ih => exact .plain hmark hslash ih
  | escaped _ ih => exact .escaped ih

/-- How far text has got in the grammar: the delimiters that are open, the
    quoted text it is in, and whether it ends in a backslash there. -/
inductive Partway (opening closing : Char) : Nat → Option Quote → Bool → List Char → Prop
  | outside {depth : Nat} {t : List Char} :
      Opened opening closing depth t → Partway opening closing depth none false t
  | quoted {depth : Nat} {t body : List Char} {q : Quote} :
      Opened opening closing depth t → QuotedBody q body →
      Partway opening closing depth (some q) false (t ++ q.mark :: body)
  | escaping {depth : Nat} {t body : List Char} {q : Quote} :
      Opened opening closing depth t → QuotedBody q body →
      Partway opening closing depth (some q) true (t ++ q.mark :: (body ++ ['\\']))

/-- Outside of quoted text there is nothing but the open delimiters. -/
theorem Partway.opened {escaped : Bool} (h : Partway opening closing depth none escaped t) :
    Opened opening closing depth t := by
  cases h with
  | outside hopened => exact hopened

end

/-! ## One character -/

namespace Block

variable {b : Block} {x : Char}

/-- The captured text has got as far as the block says. -/
def Captures (b : Block) : Prop :=
  Partway b.opening b.closing b.depth b.quote b.escaped b.captured.toList

theorem endsAt_iff :
    b.endsAt x = true ↔ b.quote = none ∧ x ≠ b.opening ∧ x = b.closing ∧ b.depth = 0 := by
  simp [endsAt, and_assoc]

/-- Where a block ends, its text is balanced. -/
theorem Captures.balanced (h : b.Captures) (hend : b.endsAt x = true) :
    Balanced b.opening b.closing b.captured.toList := by
  obtain ⟨hquote, -, -, hdepth⟩ := endsAt_iff.mp hend
  unfold Captures at h
  rw [hquote, hdepth] at h
  exact h.opened.balanced

/-- A character outside of quoted text that does not end the block. -/
theorem partway_outside {opening closing : Char} {depth : Nat} {text : String}
    (hd : Delimiters opening closing) (h : Opened opening closing depth text.toList)
    (hgoes : endsAt ⟨opening, closing, depth, none, false, text⟩ x = false) :
    Captures (push ⟨opening, closing, depth, none, false, text⟩ x) := by
  unfold Captures push depthAfter quoteAfter
  simp only [Option.isSome_none, Bool.false_eq_true, if_false, String.toList_push]
  by_cases hopening : x = opening
  · -- One more delimiter is open.
    rw [hopening, if_pos rfl, hd.opening_plain]
    exact .outside h.descend
  · rw [if_neg hopening]
    by_cases hclosing : x = closing
    · -- At depth zero it would have ended the block.
      rw [hclosing, if_pos rfl, hd.closing_plain]
      cases depth with
      | zero => simp [endsAt, hclosing, hd.differ.symm] at hgoes
      | succ depth => exact .outside h.ascend
    · rw [if_neg hclosing]
      cases hmark : Quote.openedBy? x with
      | none => exact .outside (h.append (.plain hopening hclosing hmark .nil))
      | some q =>
        rw [Quote.openedBy?_eq_some_iff.mp hmark]
        exact .quoted h .nil

/-- A character inside quoted text, with no backslash before it. -/
theorem partway_quoted {opening closing : Char} {depth : Nat} {q : Quote} {text : String}
    {t body : List Char} (hopened : Opened opening closing depth t) (hbody : QuotedBody q body)
    (htext : text.toList = t ++ q.mark :: body) :
    Captures (push ⟨opening, closing, depth, some q, false, text⟩ x) := by
  unfold Captures push depthAfter quoteAfter
  simp only [Option.isSome_some, if_true, Bool.false_eq_true, if_false, String.toList_push, htext,
    List.append_assoc, List.cons_append]
  by_cases hslash : x = '\\'
  · rw [hslash, if_pos rfl]
    exact .escaping hopened hbody
  · rw [if_neg hslash]
    by_cases hmark : x = q.mark
    · -- The quoted text is over, and all of it is balanced.
      rw [hmark, if_pos rfl]
      exact .outside (hopened.append (.quoted hbody .nil))
    · rw [if_neg hmark]
      exact .quoted hopened (hbody.push hmark hslash)

/-- The character after a backslash in quoted text. -/
theorem partway_escaping {opening closing : Char} {depth : Nat} {q : Quote} {text : String}
    {t body : List Char} (hopened : Opened opening closing depth t) (hbody : QuotedBody q body)
    (htext : text.toList = t ++ q.mark :: (body ++ ['\\'])) :
    Captures (push ⟨opening, closing, depth, some q, true, text⟩ x) := by
  unfold Captures push depthAfter quoteAfter
  simp only [Option.isSome_some, if_true, String.toList_push, htext, List.append_assoc,
    List.cons_append, List.nil_append]
  exact .quoted hopened (hbody.push_escaped x)

/-- **One character** that does not end the block keeps its mode in step
    with its text. -/
theorem Captures.push (h : b.Captures) (hd : Delimiters b.opening b.closing)
    (hgoes : b.endsAt x = false) : (b.push x).Captures := by
  obtain ⟨opening, closing, depth, quote, escaped, text⟩ := b
  unfold Captures at h
  generalize htext : text.toList = chars at h
  cases h with
  | outside hopened => exact partway_outside hd (htext ▸ hopened) hgoes
  | quoted hopened hbody => exact partway_quoted hopened hbody htext
  | escaping hopened hbody => exact partway_escaping hopened hbody htext

end Block

/-! ## A whole text -/

/-- The block of a pair of delimiters, from just after the opening one, has
    the text `inside`: it is balanced, and the closing delimiter follows. -/
def Encloses (opening closing : Char) (text inside : List Char) : Prop :=
  Balanced opening closing inside ∧ ∃ rest, text = inside ++ closing :: rest

namespace ScanState

variable {opening closing : Char} {next : ScanState}

/-- **A run** stays in the block and captures everything, or it comes to the
    closing delimiter after balanced text. -/
theorem runChars_captures {b : Block} (h : b.Captures) (hd : Delimiters b.opening b.closing)
    (next : ScanState) (text : List Char) :
    (∃ inside, Encloses b.opening b.closing (b.captured.toList ++ text) inside) ∨
      ∃ b' : Block, (block b next).runChars text = block b' next ∧
        b'.opening = b.opening ∧ b'.closing = b.closing ∧
        b'.captured.toList = b.captured.toList ++ text := by
  induction text generalizing b with
  | nil =>
    right
    exact ⟨b, rfl, rfl, rfl, (List.append_nil _).symm⟩
  | cons x text ih =>
    cases hend : b.endsAt x with
    | true =>
      left
      obtain ⟨-, -, hclosing, -⟩ := Block.endsAt_iff.mp hend
      exact ⟨b.captured.toList, h.balanced hend, text, by rw [hclosing]⟩
    | false =>
      -- The character is captured, and the rest of the text follows it.
      have hstep : (block b next).advance x = block (b.push x) next := by
        rw [advance, hend, if_neg Bool.false_ne_true]
      have hcaptured : (b.push x).captured.toList ++ text = b.captured.toList ++ x :: text := by
        show (b.captured.push x).toList ++ text = _
        rw [String.toList_push, List.append_assoc, List.singleton_append]
      have hrest := ih (h.push hd hend) hd
      rw [hcaptured] at hrest
      rw [runChars_cons, hstep]
      exact hrest

/-- A block that is only begun has captured nothing. -/
theorem captures_start (opening closing : Char) :
    Block.Captures ⟨opening, closing, 0, none, false, ""⟩ :=
  .outside (.level .nil)

/-- The automaton is still in the block if the grammar gives it no end. -/
theorem runChars_unenclosed (hd : Delimiters opening closing) (next : ScanState)
    {text : List Char} (hopen : ∀ inside, ¬ Encloses opening closing text inside) :
    ∃ b : Block, (capturing opening closing next).runChars text = block b next ∧
      b.opening = opening ∧ b.closing = closing ∧ b.captured.toList = text := by
  rcases runChars_captures (captures_start opening closing) hd next text with hclosed | hrun
  · obtain ⟨inside, hinside⟩ := hclosed
    exact absurd hinside (hopen inside)
  · exact hrun

/-- The text of a block that ends is handed to the next state. -/
theorem runChars_enclosed (hd : Delimiters opening closing) {text inside : List Char}
    (h : Encloses opening closing text inside) :
    (capturing opening closing empty).runChars text = held (some (String.ofList inside)) := by
  obtain ⟨hbalanced, rest, htext⟩ := h
  rw [htext, runChars_block hd hbalanced]
  exact runChars_held _ _

/-- **Capturing a block** recognizes balanced text. The automaton holds a
    text exactly if the text is balanced and the closing delimiter comes
    right after it; there is only one such text, and where there is none the
    automaton is still in the block with everything captured. -/
theorem captures_exactly_balanced (hd : Delimiters opening closing) (text : String) :
    (∀ p : String, (capturing opening closing empty).run text = held (some p) ↔
      Encloses opening closing text.toList p.toList) ∧
    (∀ p q, Encloses opening closing text.toList p → Encloses opening closing text.toList q →
      p = q) ∧
    ((∀ p, ¬ Encloses opening closing text.toList p) →
      ∃ b : Block, (capturing opening closing empty).run text = block b empty ∧
        b.opening = opening ∧ b.closing = closing ∧ b.captured = text) := by
  have hopen (h : ∀ p, ¬ Encloses opening closing text.toList p) :
      ∃ b : Block, (capturing opening closing empty).run text = block b empty ∧
        b.opening = opening ∧ b.closing = closing ∧ b.captured = text := by
    obtain ⟨b, hrun, hopening, hclosing, hcaptured⟩ := runChars_unenclosed hd empty h
    exact ⟨b, hrun, hopening, hclosing, String.toList_inj.mp hcaptured⟩
  refine ⟨fun p => ⟨fun hheld => ?_, fun hp => ?_⟩, fun p q hp hq => ?_, hopen⟩
  · -- A run that holds something has left the block, so the grammar has an end for it.
    by_cases hclosed : ∃ inside, Encloses opening closing text.toList inside
    · obtain ⟨inside, hinside⟩ := hclosed
      have hrun := runChars_enclosed hd hinside
      rw [← run, hheld] at hrun
      cases hrun
      rwa [String.toList_ofList]
    · obtain ⟨b, hrun, -⟩ := hopen (not_exists.mp hclosed)
      rw [hheld] at hrun
      cases hrun
  · have hrun := runChars_enclosed hd hp
    rwa [String.ofList_toList] at hrun
  · -- Both are what the one run holds.
    have hheld := (runChars_enclosed hd hp).symm.trans (runChars_enclosed hd hq)
    injection hheld with hheld
    injection hheld with hheld
    exact String.ofList_injective hheld

/-- An escaped mark and a delimiter in quoted text do not end a block, and
    quoted text that is never closed swallows the delimiter. -/
theorem captures_exactly_balanced_marks :
    (Delimiters '(' ')' ∧ Balanced '(' ')' "('\\')')".toList ∧
      (capturing '(' ')' empty).run "('\\')')) b" = held (some "('\\')')")) ∧
    (Delimiters '{' '}' ∧ (∀ p, ¬ Encloses '{' '}' "\x7b'\x7d".toList p) ∧
      ∃ b : Block, (capturing '{' '}' empty).run "\x7b'\x7d" = block b empty ∧
        b.opening = '{' ∧ b.closing = '}' ∧ b.captured = "\x7b'\x7d") := by
  have hbody : QuotedBody .single ['\\', '\'', ')'] :=
    .escaped (.plain (by decide) (by decide) .nil)
  have hinner : Balanced '(' ')' ['\'', '\\', '\'', ')', '\''] := .quoted hbody .nil
  have hbalanced : Balanced '(' ')' "('\\')')".toList := .nested hinner .nil
  have hopen : ∀ p, ¬ Encloses '{' '}' "\x7b'\x7d".toList p := by
    intro p hp
    have hheld : (capturing '{' '}' empty).run "\x7b'\x7d" = held (some (String.ofList p)) :=
      runChars_enclosed braces hp
    have hinside : ((capturing '{' '}' empty).run "\x7b'\x7d").kind = .block := by decide
    rw [hheld] at hinside
    cases hinside
  have hfirst := (captures_exactly_balanced parentheses "('\\')')) b").1 "('\\')')"
  exact ⟨⟨parentheses, hbalanced, hfirst.mpr ⟨hbalanced, [' ', 'b'], by decide⟩⟩,
    braces, hopen, (captures_exactly_balanced braces "\x7b'\x7d").2.2 hopen⟩

end ScanState

end TaggedWire
