import TaggedWire.Scan.Extract

/-! # Capturing a block

    `Balanced` is the grammar of text that a block can hold: plain
    characters, quoted text, and delimiters around balanced text. Balanced
    text leaves a block as deep as it was and outside of quoted text, with
    the text added to the capture (`runChars_balanced`). So the first
    closing delimiter after balanced text ends the block, and what was
    captured is the text in between (`runChars_block`). -/

namespace TaggedWire

/-! ## The grammar -/

/-- What may stand between two quotation marks: a backslash stands before
    any one character. -/
inductive QuotedBody (q : Quote) : List Char → Prop
  | nil : QuotedBody q []
  | plain {x : Char} {t : List Char} :
      x ≠ q.mark → x ≠ '\\' → QuotedBody q t → QuotedBody q (x :: t)
  | escaped {x : Char} {t : List Char} : QuotedBody q t → QuotedBody q ('\\' :: x :: t)

/-- Text that closes what it opens, for one pair of delimiters. -/
inductive Balanced (opening closing : Char) : List Char → Prop
  | nil : Balanced opening closing []
  | plain {x : Char} {t : List Char} :
      x ≠ opening → x ≠ closing → Quote.openedBy? x = none → Balanced opening closing t →
      Balanced opening closing (x :: t)
  | quoted {q : Quote} {body t : List Char} :
      QuotedBody q body → Balanced opening closing t →
      Balanced opening closing (q.mark :: (body ++ q.mark :: t))
  | nested {inner t : List Char} :
      Balanced opening closing inner → Balanced opening closing t →
      Balanced opening closing (opening :: (inner ++ closing :: t))

/-- Two different characters, neither of them a quotation mark. -/
structure Delimiters (opening closing : Char) : Prop where
  differ : opening ≠ closing
  opening_plain : Quote.openedBy? opening = none
  closing_plain : Quote.openedBy? closing = none

theorem Quote.openedBy?_mark (q : Quote) : openedBy? q.mark = some q := by cases q <;> rfl

/-- What opens no quoted text is a character other than the two marks. -/
theorem Quote.openedBy?_eq_none_iff {x : Char} :
    openedBy? x = none ↔ x ≠ '\'' ∧ x ≠ '"' := by
  unfold openedBy?
  by_cases hsingle : x = '\''
  · simp [hsingle]
  · by_cases hdouble : x = '"'
    · simp [hdouble]
    · simp [hsingle, hdouble]

theorem Quote.openedBy?_eq_some_iff {x : Char} {q : Quote} :
    openedBy? x = some q ↔ x = q.mark := by
  constructor
  · intro h
    by_cases hmarks : x = '\'' ∨ x = '"'
    · rcases hmarks with hsingle | hdouble
      · rw [hsingle] at h ⊢
        cases h
        rfl
      · rw [hdouble] at h ⊢
        cases h
        rfl
    · rw [openedBy?_eq_none_iff.mpr (not_or.mp hmarks)] at h
      cases h
  · intro h
    rw [h]
    exact q.openedBy?_mark

/-- A quotation mark is no delimiter. -/
theorem Quote.mark_ne {q : Quote} {x : Char} (h : openedBy? x = none) : q.mark ≠ x := by
  rintro rfl
  rw [q.openedBy?_mark] at h
  cases h

/-- Whether a character is neither a delimiter nor a quotation mark. -/
def isPlain (opening closing x : Char) : Bool :=
  x != opening && x != closing && (Quote.openedBy? x).isNone

theorem isPlain_iff {opening closing x : Char} :
    isPlain opening closing x = true ↔
      x ≠ opening ∧ x ≠ closing ∧ Quote.openedBy? x = none := by
  simp [isPlain, and_assoc]

theorem braces : Delimiters '{' '}' := ⟨by decide, rfl, rfl⟩

theorem parentheses : Delimiters '(' ')' := ⟨by decide, rfl, rfl⟩

namespace Balanced

variable {opening closing : Char} {t u : List Char}

theorem append (ht : Balanced opening closing t) (hu : Balanced opening closing u) :
    Balanced opening closing (t ++ u) := by
  induction ht with
  | nil => exact hu
  | plain ho hc hq _ ih => exact .plain ho hc hq ih
  | quoted hbody _ ih =>
    rw [List.cons_append, List.append_assoc, List.cons_append]
    exact .quoted hbody ih
  | nested hinner _ _ ih =>
    rw [List.cons_append, List.append_assoc, List.cons_append]
    exact .nested hinner ih

/-- Text without delimiters and quotation marks. -/
theorem of_plain (h : t.all (isPlain opening closing) = true) : Balanced opening closing t := by
  induction t with
  | nil => exact .nil
  | cons x t ih =>
    rw [List.all_cons, Bool.and_eq_true] at h
    obtain ⟨ho, hc, hq⟩ := isPlain_iff.mp h.1
    exact .plain ho hc hq (ih h.2)

end Balanced

/-! ## Running a block

    Outside of quoted text nothing is escaped, so a block is its depth and
    its capture; inside, it is also the kind of quoted text. -/

theorem toList_foldl_push (text : String) (t : List Char) :
    (t.foldl String.push text).toList = text.toList ++ t := by
  induction t generalizing text with
  | nil => rw [List.foldl_nil, List.append_nil]
  | cons x t ih => rw [List.foldl_cons, ih, String.toList_push, List.append_assoc]; rfl

theorem foldl_push_empty (t : List Char) : t.foldl String.push "" = String.ofList t := by
  rw [← String.toList_inj, toList_foldl_push, String.toList_empty, List.nil_append,
    String.toList_ofList]

namespace ScanState

variable {opening closing : Char} {depth : Nat} {text : String} {next : ScanState}

/-- A plain character is captured and changes nothing else. -/
theorem advance_plain {x : Char} (ho : x ≠ opening) (hc : x ≠ closing)
    (hx : Quote.openedBy? x = none) :
    (block ⟨opening, closing, depth, none, false, text⟩ next).advance x =
      block ⟨opening, closing, depth, none, false, text.push x⟩ next := by
  simp [advance, Block.endsAt, Block.push, Block.depthAfter, Block.quoteAfter, ho, hc, hx]

/-- An opening delimiter goes one level down. -/
theorem advance_opening (hd : Delimiters opening closing) :
    (block ⟨opening, closing, depth, none, false, text⟩ next).advance opening =
      block ⟨opening, closing, depth + 1, none, false, text.push opening⟩ next := by
  simp [advance, Block.endsAt, Block.push, Block.depthAfter, Block.quoteAfter, hd.opening_plain]

/-- A closing delimiter comes back from a level below. -/
theorem advance_closing (hd : Delimiters opening closing) :
    (block ⟨opening, closing, depth + 1, none, false, text⟩ next).advance closing =
      block ⟨opening, closing, depth, none, false, text.push closing⟩ next := by
  simp [advance, Block.endsAt, Block.push, Block.depthAfter, Block.quoteAfter,
    hd.closing_plain, hd.differ.symm]

/-- At the top level the closing delimiter ends the block. -/
theorem advance_end (hd : Delimiters opening closing) :
    (block ⟨opening, closing, 0, none, false, text⟩ next).advance closing =
      next.receive text := by
  simp [advance, Block.endsAt, hd.differ.symm]

/-! ### Quoted text -/

/-- A quotation mark outside of quoted text opens it. -/
theorem advance_mark (q : Quote) (hd : Delimiters opening closing) :
    (block ⟨opening, closing, depth, none, false, text⟩ next).advance q.mark =
      block ⟨opening, closing, depth, some q, false, text.push q.mark⟩ next := by
  have ho : q.mark ≠ opening := Quote.mark_ne hd.opening_plain
  have hc : q.mark ≠ closing := Quote.mark_ne hd.closing_plain
  simp [advance, Block.endsAt, Block.push, Block.depthAfter, Block.quoteAfter, ho, hc,
    q.openedBy?_mark]

/-- Its own mark closes quoted text. -/
theorem advance_unmark (q : Quote) :
    (block ⟨opening, closing, depth, some q, false, text⟩ next).advance q.mark =
      block ⟨opening, closing, depth, none, false, text.push q.mark⟩ next := by
  have hslash : q.mark ≠ '\\' := by cases q <;> decide
  simp [advance, Block.endsAt, Block.push, Block.depthAfter, Block.quoteAfter, hslash]

/-- Nothing inside quoted text counts but its own mark. -/
theorem runChars_quoted {q : Quote} {body : List Char} (hbody : QuotedBody q body) :
    (block ⟨opening, closing, depth, some q, false, text⟩ next).runChars body =
      block ⟨opening, closing, depth, some q, false, body.foldl String.push text⟩ next := by
  induction hbody generalizing text with
  | nil => rfl
  | @plain x t hmark hslash _ ih =>
    have hstep : (block ⟨opening, closing, depth, some q, false, text⟩ next).advance x =
        block ⟨opening, closing, depth, some q, false, text.push x⟩ next := by
      simp [advance, Block.endsAt, Block.push, Block.depthAfter, Block.quoteAfter, hmark, hslash]
    rw [runChars_cons, hstep, ih, List.foldl_cons]
  | @escaped x t _ ih =>
    -- The backslash arms the block, and the next character disarms it.
    have hstep : ((block ⟨opening, closing, depth, some q, false, text⟩ next).advance
        '\\').advance x =
        block ⟨opening, closing, depth, some q, false, (text.push '\\').push x⟩ next := by
      simp [advance, Block.endsAt, Block.push, Block.depthAfter, Block.quoteAfter]
    rw [runChars_cons, runChars_cons, hstep, ih, List.foldl_cons, List.foldl_cons]

/-! ### Balanced text -/

/-- **Balanced text** is captured and leaves the depth as it was. -/
theorem runChars_balanced {t : List Char} (hd : Delimiters opening closing)
    (h : Balanced opening closing t) :
    (block ⟨opening, closing, depth, none, false, text⟩ next).runChars t =
      block ⟨opening, closing, depth, none, false, t.foldl String.push text⟩ next := by
  -- Over the grammar: nested text is read one level further down, which is why
  -- the depth is general.
  induction h generalizing depth text with
  | nil => rfl
  | plain ho hc hx _ ih => rw [runChars_cons, advance_plain ho hc hx, ih, List.foldl_cons]
  | @quoted q body t hbody _ ih =>
    rw [runChars_cons, advance_mark q hd, runChars_append, runChars_quoted hbody, runChars_cons,
      advance_unmark q, ih, List.foldl_cons, List.foldl_append, List.foldl_cons]
  | nested _ _ ihinner ih =>
    rw [runChars_cons, advance_opening hd, runChars_append, ihinner, runChars_cons,
      advance_closing hd, ih, List.foldl_cons, List.foldl_append, List.foldl_cons]

/-- **A block** of balanced text is captured up to the delimiter that closes
    it, and the capture is handed on. -/
theorem runChars_block {t rest : List Char} (hd : Delimiters opening closing)
    (h : Balanced opening closing t) :
    (capturing opening closing next).runChars (t ++ closing :: rest) =
      (next.receive (String.ofList t)).runChars rest := by
  unfold capturing
  rw [runChars_append, runChars_balanced hd h, runChars_cons, advance_end hd, foldl_push_empty]

end ScanState

end TaggedWire
