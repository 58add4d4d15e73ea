import TaggedWire.Proofs.BracketWords
import TaggedWire.Proofs.Lines

/-! # Layout and nesting agree

    A layout indents by counting blocks and never looks at the text of a
    line, while a reader of the text counts braces and knows nothing of
    blocks. The two agree where every line closes what it opens, blocks
    apart, and no block is closed that was not opened:

      * `Phrase` is text of the first kind, read from left to right so that
        it can be put together from fragments;
      * `depthAfter?` counts blocks like the layout does, but refuses to
        close one where none is open;
      * `Tidy` lines have both, and `wellLaid_layout` says what that means
        for their text. -/

namespace TaggedWire

/-! ## Well laid text -/

/-- How many braces are open after a text. -/
def openBraces (text : List Char) : Int :=
  (outsideQuotes false text).count '{' - (outsideQuotes false text).count '}'

/-- How far a line is indented. -/
def leadingSpaces (line : List Char) : Nat := (line.takeWhile (· == ' ')).length

/-- The first character after the spaces closes a brace. -/
def StartsClosing (line : List Char) : Prop := (line.dropWhile (· == ' ')).head? = some '}'

instance : DecidablePred StartsClosing := fun line =>
  inferInstanceAs (Decidable ((line.dropWhile (· == ' ')).head? = some '}'))

/-- One line of a text, behind the lines above it. -/
def IsLineOf (text above line : List Char) : Prop :=
  ∃ below, text = above ++ line ++ below ∧ Terminated above ∧
    (below = [] ∨ below.head? = some '\n') ∧ '\n' ∉ line

/-- Text with nested brackets, of which every line that is not empty is
    indented by the braces that are open around it. -/
structure WellLaid (text : List Char) : Prop where
  nested : BracketWord (outsideQuotes false text)
  indented : ∀ above line, IsLineOf text above line → line ≠ [] →
    (leadingSpaces line : Int) = 4 * (openBraces above - if StartsClosing line then 1 else 0)

/-! ## Reading a line -/

/-- What has been read of a line: whether anything has, whether a double
    quote is open, and the brackets that are. -/
structure Reading where
  begun : Bool
  quoted : Bool
  around : List Bracket
  deriving DecidableEq, Repr

/-- The next character of a line. No line begins with a space or a closing
    brace, and none holds a line end. -/
def Reading.step (r : Reading) (c : Char) : Option Reading :=
  if c = '\n' then none
  else if (c == ' ' || c == '}') && !r.begun then none
  else if c = '"' then some ⟨true, !r.quoted, r.around⟩
  else if r.quoted then some ⟨true, true, r.around⟩
  else (nest r.around c).map fun around => ⟨true, false, around⟩

/-- The characters of a line. -/
def Reading.run : Reading → List Char → Option Reading
  | r, [] => some r
  | r, c :: text =>
      match r.step c with
      | some r => r.run text
      | none => none

/-- What one character does to the quotes and the brackets. -/
theorem Reading.step_spec {r r' : Reading} {c : Char} (h : r.step c = some r') :
    c ≠ '\n' ∧ r'.begun = true ∧ (r.begun = false → c ≠ ' ' ∧ c ≠ '}') ∧
      endsQuoted r.quoted [c] = r'.quoted ∧
      nestAll r.around (outsideQuotes r.quoted [c]) = some r'.around := by
  unfold step at h
  split at h
  · cases h
  rename_i hline
  split at h
  · cases h
  rename_i hbegin
  have hfirst : r.begun = false → c ≠ ' ' ∧ c ≠ '}' := by
    intro hfresh
    simpa [hfresh] using hbegin
  split at h
  · rename_i hmark
    cases h
    exact ⟨hline, rfl, hfirst, by simp [endsQuoted, hmark],
      by simp [outsideQuotes, hmark, nestAll]⟩
  rename_i hmark
  split at h
  · rename_i hquoted
    cases h
    exact ⟨hline, rfl, hfirst, by simp [endsQuoted, hmark, hquoted],
      by simp [outsideQuotes, hmark, hquoted, nestAll]⟩
  · rename_i hquoted
    obtain ⟨around, haround, rfl⟩ := Option.map_eq_some_iff.mp h
    exact ⟨hline, rfl, hfirst, by simp [endsQuoted, hmark, hquoted],
      by simp [outsideQuotes, hmark, hquoted, nestAll, haround]⟩

theorem Reading.run_append {a b : Reading} {t u : List Char} (h : a.run t = some b) :
    a.run (t ++ u) = b.run u := by
  induction t generalizing a with
  | nil => cases h; rfl
  | cons c t ih =>
    simp only [List.cons_append, run] at h ⊢
    split at h
    · exact ih h
    · cases h

/-- What a line does to the quotes and the brackets. -/
theorem Reading.run_spec {a b : Reading} {text : List Char} (h : a.run text = some b) :
    '\n' ∉ text ∧ endsQuoted a.quoted text = b.quoted ∧
      nestAll a.around (outsideQuotes a.quoted text) = some b.around := by
  induction text generalizing a with
  | nil =>
    cases h
    exact ⟨List.not_mem_nil, rfl, rfl⟩
  | cons c text ih =>
    simp only [run] at h
    split at h
    · rename_i r hstep
      obtain ⟨hline, _, _, hquoted, haround⟩ := step_spec hstep
      obtain ⟨hlines, hends, hnest⟩ := ih h
      have hsplit : c :: text = [c] ++ text := rfl
      rw [hsplit, endsQuoted_append, outsideQuotes_append, nestAll_append haround, hquoted]
      refine ⟨?_, hends, hnest⟩
      intro hmem
      rcases List.mem_cons.mp hmem with heq | hmem
      · exact hline heq.symm
      · exact hlines hmem
    · cases h

/-- A line that begins does not begin with a space or a closing brace. -/
theorem Reading.exists_first {a b : Reading} {text : List Char} (h : a.run text = some b)
    (ha : a.begun = false) (hb : b.begun = true) :
    ∃ c rest, text = c :: rest ∧ c ≠ ' ' ∧ c ≠ '}' := by
  cases text with
  | nil =>
    cases h
    rw [ha] at hb
    cases hb
  | cons c rest =>
    simp only [run] at h
    split at h
    · rename_i r hstep
      obtain ⟨_, _, hfirst, _⟩ := step_spec hstep
      exact ⟨c, rest, rfl, hfirst ha⟩
    · cases h

/-! ## Fragments -/

/-- A fragment takes the reading of a line from one state to another. -/
def Reads (a : Reading) (text : String) (b : Reading) : Prop := a.run text.toList = some b

/-- Text that begins a line or goes on with it, and closes what it opens. -/
def Phrase (text : String) : Prop :=
  ∀ begun around, Reads ⟨begun, false, around⟩ text ⟨true, false, around⟩

/-- Text that goes on with a line, and closes what it opens. It may be
    empty. -/
def Filling (text : String) : Prop :=
  ∀ around, Reads ⟨true, false, around⟩ text ⟨true, false, around⟩

/-- Text that begins a line or goes on with it, and leaves a bracket open. -/
def Opening (bracket : Bracket) (text : String) : Prop :=
  ∀ begun around, Reads ⟨begun, false, around⟩ text ⟨true, false, bracket :: around⟩

/-- Text that goes on with a line, and leaves a bracket open. -/
def Entering (bracket : Bracket) (text : String) : Prop :=
  ∀ around, Reads ⟨true, false, around⟩ text ⟨true, false, bracket :: around⟩

/-- Text that goes on with a line, and closes the bracket around it. -/
def Leaving (bracket : Bracket) (text : String) : Prop :=
  ∀ around, Reads ⟨true, false, bracket :: around⟩ text ⟨true, false, around⟩

/-- Text that means nothing to brackets and quotes, also between quotes. -/
def Atom (text : String) : Prop :=
  ∀ begun quoted around, Reads ⟨begun, quoted, around⟩ text ⟨true, quoted, around⟩

section

variable {a b c : Reading} {bracket : Bracket} {t u v : String}

theorem Reads.append (ht : Reads a t b) (hu : Reads b u c) : Reads a (t ++ u) c := by
  unfold Reads at ht hu ⊢
  rw [String.toList_append, Reading.run_append ht]
  exact hu

theorem Reads.ofList {text : List Char} (h : a.run text = some b) :
    Reads a (String.ofList text) b := by
  unfold Reads
  rw [String.toList_ofList]
  exact h

theorem Phrase.filling (h : Phrase t) : Filling t := h true

theorem Phrase.append (ht : Phrase t) (hu : Filling u) : Phrase (t ++ u) :=
  fun begun around => (ht begun around).append (hu around)

theorem Filling.append (ht : Filling t) (hu : Filling u) : Filling (t ++ u) :=
  fun around => (ht around).append (hu around)

theorem Phrase.entering (ht : Phrase t) (hu : Entering bracket u) : Opening bracket (t ++ u) :=
  fun begun around => (ht begun around).append (hu around)

/-- A bracket with everything in it, at the beginning of a phrase or in the
    middle of one. -/
theorem Opening.around (ht : Opening bracket t) (hu : Filling u) (hv : Leaving bracket v) :
    Phrase (t ++ u ++ v) :=
  fun begun around => ((ht begun around).append (hu (bracket :: around))).append (hv around)

theorem Entering.around (ht : Entering bracket t) (hu : Filling u) (hv : Leaving bracket v) :
    Filling (t ++ u ++ v) :=
  fun around => ((ht around).append (hu (bracket :: around))).append (hv around)

theorem Filling.intercalate {texts : List String} (hu : Filling u) (h : ∀ t ∈ texts, Filling t) :
    Filling (u.intercalate texts) :=
  intercalate_induction (P := Filling) (fun _ => Reads.ofList rfl) Filling.append hu h

theorem Atom.phrase (h : Atom t) : Phrase t := fun begun around => h begun false around

theorem Atom.filling (h : Atom t) : Filling t := h.phrase.filling

/-- A word character is none of the characters that count. -/
theorem Reading.step_wordChar {x : Char} (h : isWordChar x = true) (r : Reading) :
    r.step x = some ⟨true, r.quoted, r.around⟩ := by
  have hbracket : ∀ d ∈ separators, x ≠ d := fun d hd => isWordChar_ne h hd
  have hopen : Bracket.openedBy? x = none := by
    apply List.find?_eq_none.mpr
    intro b _ hb
    rw [beq_iff_eq] at hb
    rw [← hb] at h
    cases b <;> cases h
  have hclose : Bracket.closedBy? x = none := by
    apply List.find?_eq_none.mpr
    intro b _ hb
    rw [beq_iff_eq] at hb
    rw [← hb] at h
    cases b <;> cases h
  have hnest : nest r.around x = some r.around := by simp [nest, hopen, hclose]
  unfold step
  simp only [hbracket '\n' (by decide), hbracket ' ' (by decide), hbracket '}' (by decide),
    hbracket '"' (by decide), beq_eq_false_iff_ne.mpr, ne_eq, not_false_eq_true, if_false,
    Bool.or_self, Bool.false_and, hnest, Option.map_some]
  cases r.quoted <;> rfl

theorem Atom.of_wordChars (hne : t ≠ "") (h : ∀ x ∈ t.toList, isWordChar x = true) : Atom t := by
  -- The first character begins the line, and nothing changes after it.
  have hgo : ∀ (text : List Char) (quoted : Bool) (around : List Bracket),
      (∀ x ∈ text, isWordChar x = true) →
      Reading.run ⟨true, quoted, around⟩ text = some ⟨true, quoted, around⟩ := by
    intro text quoted around hwords
    induction text with
    | nil => rfl
    | cons x text ih =>
      obtain ⟨hx, htext⟩ := List.forall_mem_cons.mp hwords
      simp only [Reading.run, Reading.step_wordChar hx]
      exact ih htext
  intro begun quoted around
  unfold Reads
  cases htext : t.toList with
  | nil => exact absurd (String.toList_eq_nil_iff.mp htext) hne
  | cons x text =>
    rw [htext] at h
    obtain ⟨hx, hrest⟩ := List.forall_mem_cons.mp h
    simp only [Reading.run, Reading.step_wordChar hx]
    exact hgo text quoted around hrest

theorem Atom.word (h : IsWord t) : Atom t := .of_wordChars h.1 h.2

theorem Atom.number (n : Nat) : Atom (toString n) := by
  apply Atom.of_wordChars
  · intro hempty
    have hlength := congrArg String.length hempty
    rw [Nat.toString_eq_repr] at hlength
    exact absurd hlength (Nat.ne_of_gt Nat.length_repr_pos)
  · exact fun x hx => isWordChar_of_mem_toString hx

end

/-! ## Depth -/

/-- The depth after some lines, if no line closes a block where none is
    open. -/
def depthAfter? : Nat → List Line → Option Nat
  | depth, [] => some depth
  | depth, .opening _ :: rest => depthAfter? (depth + 1) rest
  | depth, .closing :: rest => if depth = 0 then none else depthAfter? (depth - 1) rest
  | depth, .plain _ :: rest => depthAfter? depth rest
  | depth, .blank :: rest => depthAfter? depth rest

theorem depthAfter?_append (depth : Nat) (a b : List Line) :
    depthAfter? depth (a ++ b) = (depthAfter? depth a).bind fun depth => depthAfter? depth b := by
  induction a generalizing depth with
  | nil => rfl
  | cons line a ih =>
    cases line with
    | closing =>
      simp only [List.cons_append, depthAfter?]
      split
      · rfl
      · exact ih _
    | _ => simp only [List.cons_append, depthAfter?, ih]

/-- Where the count is defined, the layout counts the same. -/
theorem openBlocks_of_depthAfter? {depth after : Nat} {lines : List Line}
    (h : depthAfter? depth lines = some after) : openBlocks depth lines = after := by
  induction lines generalizing depth with
  | nil => cases h; rfl
  | cons line lines ih =>
    cases line with
    | closing =>
      simp only [depthAfter?] at h
      split at h
      · cases h
      · exact ih h
    | _ => exact ih h

/-- The lines above a line that closes a block leave one open. -/
theorem depthAfter?_above {depth after : Nat} {above below : List Line} {line : Line}
    (h : depthAfter? depth (above ++ line :: below) = some after) :
    depthAfter? depth above = some (openBlocks depth above) ∧
      (line = .closing → 0 < openBlocks depth above) := by
  rw [depthAfter?_append] at h
  obtain ⟨here, habove, hrest⟩ := Option.bind_eq_some_iff.mp h
  rw [openBlocks_of_depthAfter? habove]
  refine ⟨habove, ?_⟩
  rintro rfl
  simp only [depthAfter?] at hrest
  split at hrest
  · cases hrest
  · omega

/-! ## Tidy lines -/

/-- The text of the line is a phrase, its own brace apart. -/
def Line.Tidy : Line → Prop
  | .plain text => Phrase text
  | .opening head => Phrase head
  | .closing => True
  | .blank => True

/-- Tidy lines that close what they open and nothing else. -/
structure Tidy (lines : List Line) : Prop where
  phrases : ∀ line ∈ lines, line.Tidy
  closed : ∀ depth, depthAfter? depth lines = some depth

namespace Tidy

theorem nil : Tidy [] := ⟨fun _ h => (List.not_mem_nil h).elim, fun _ => rfl⟩

theorem plain {text : String} (h : Phrase text) : Tidy [.plain text] :=
  ⟨List.forall_mem_singleton.mpr h, fun _ => rfl⟩

theorem blank : Tidy [.blank] := ⟨List.forall_mem_singleton.mpr trivial, fun _ => rfl⟩

theorem append {a b : List Line} (ha : Tidy a) (hb : Tidy b) : Tidy (a ++ b) where
  phrases := List.forall_mem_append.mpr ⟨ha.phrases, hb.phrases⟩
  closed depth := by rw [depthAfter?_append, ha.closed, Option.bind_some, hb.closed]

theorem cons {line : Line} {lines : List Line} (hline : Tidy [line]) (hlines : Tidy lines) :
    Tidy (line :: lines) := hline.append hlines

theorem block {head : String} {body : List Line} (hhead : Phrase head) (hbody : Tidy body) :
    Tidy (block head body) where
  phrases := List.forall_mem_cons.mpr ⟨hhead,
    List.forall_mem_append.mpr ⟨hbody.phrases, List.forall_mem_singleton.mpr trivial⟩⟩
  closed depth := by
    show depthAfter? (depth + 1) (body ++ [.closing]) = some depth
    rw [depthAfter?_append, hbody.closed]
    rfl

theorem flatMap {α : Type} {entries : List α} {lines : α → List Line}
    (h : ∀ entry ∈ entries, Tidy (lines entry)) : Tidy (entries.flatMap lines) := by
  induction entries with
  | nil => exact nil
  | cons entry entries ih =>
    obtain ⟨hentry, hentries⟩ := List.forall_mem_cons.mp h
    rw [List.flatMap_cons]
    exact hentry.append (ih hentries)

theorem map {α : Type} {entries : List α} {line : α → Line}
    (h : ∀ entry ∈ entries, Tidy [line entry]) : Tidy (entries.map line) := by
  rw [List.map_eq_flatMap]
  exact flatMap h

end Tidy

/-! ## The text of tidy lines -/

/-- The text of some lines, the first of them inside `depth` blocks. -/
def renderedText (depth : Nat) (lines : List Line) : List Char :=
  (String.join (renderLines depth lines)).toList

theorem renderedText_cons (depth : Nat) (line : Line) (rest : List Line) :
    renderedText depth (line :: rest) =
      List.replicate (4 * line.level depth) ' ' ++ line.text.toList ++ ['\n'] ++
        renderedText (openBlocks depth [line]) rest :=
  toList_join_renderLines_cons depth line rest

/-- Text that can be gone through outside of quotes. -/
structure Passes (around : List Bracket) (text : List Char) (after : List Bracket) : Prop where
  quotes : endsQuoted false text = false
  brackets : nestAll around (outsideQuotes false text) = some after

namespace Passes

variable {around inner after : List Bracket} {t u : List Char}

theorem append (ht : Passes around t inner) (hu : Passes inner u after) :
    Passes around (t ++ u) after where
  quotes := by rw [endsQuoted_append, ht.quotes, hu.quotes]
  brackets := by rw [outsideQuotes_append, ht.quotes, nestAll_append ht.brackets, hu.brackets]

theorem spaces (around : List Bracket) (count : Nat) :
    Passes around (List.replicate count ' ') around := by
  induction count with
  | zero => exact ⟨rfl, rfl⟩
  | succ count ih => exact append (t := [' ']) ⟨rfl, rfl⟩ ih

theorem phrase {text : String} (h : Phrase text) (around : List Bracket) :
    Passes around text.toList around := by
  obtain ⟨_, hquotes, hbrackets⟩ := Reading.run_spec (h true around)
  exact ⟨hquotes, hbrackets⟩

end Passes

/-- The braces of the blocks around a line. -/
def blockBraces (depth : Nat) : List Bracket := List.replicate depth .brace

/-- **One line**: the braces of its text are the blocks it opens and
    closes. -/
theorem passes_line {line : Line} {depth after : Nat} (hline : line.Tidy)
    (h : depthAfter? depth [line] = some after) :
    Passes (blockBraces depth)
      (List.replicate (4 * line.level depth) ' ' ++ line.text.toList ++ ['\n'])
      (blockBraces after) := by
  have hend : ∀ around, Passes around ['\n'] around := fun _ => ⟨rfl, rfl⟩
  refine .append (.append (.spaces _ _) ?_) (hend _)
  cases line with
  | plain text =>
    cases h
    exact .phrase hline _
  | opening head =>
    cases h
    show Passes (blockBraces depth) (head ++ " \x7b").toList (.brace :: blockBraces depth)
    rw [String.toList_append]
    exact .append (.phrase hline _) ⟨rfl, rfl⟩
  | closing =>
    simp only [depthAfter?] at h
    split at h
    · cases h
    · rename_i hdepth
      cases h
      obtain ⟨outer, rfl⟩ := Nat.exists_eq_succ_of_ne_zero hdepth
      exact ⟨rfl, rfl⟩
  | blank =>
    cases h
    exact ⟨rfl, rfl⟩

/-- **All lines**: the braces that are open after the text are the blocks
    that are. -/
theorem passes_lines {lines : List Line} {depth after : Nat}
    (hlines : ∀ line ∈ lines, line.Tidy) (h : depthAfter? depth lines = some after) :
    Passes (blockBraces depth) (renderedText depth lines) (blockBraces after) := by
  induction lines generalizing depth with
  | nil =>
    cases h
    exact ⟨rfl, rfl⟩
  | cons line lines ih =>
    obtain ⟨hline, hrest⟩ := List.forall_mem_cons.mp hlines
    have hsplit : line :: lines = [line] ++ lines := rfl
    rw [hsplit, depthAfter?_append] at h
    obtain ⟨inner, hinner, hafter⟩ := Option.bind_eq_some_iff.mp h
    rw [renderedText_cons, openBlocks_of_depthAfter? hinner]
    exact .append (passes_line hline hinner) (ih hrest hafter)

/-! ## Counting braces -/

/-- Braces in the text are braces that were opened or closed. -/
theorem count_nestAll {around after : List Bracket} {text : List Char}
    (h : nestAll around text = some after) :
    around.count .brace + text.count '{' = after.count .brace + text.count '}' := by
  induction text generalizing around with
  | nil => cases h; rfl
  | cons c text ih =>
    simp only [nestAll] at h
    split at h
    · rename_i inner hnest
      have hrest := ih h
      rcases nest_cases hnest with ⟨b, rfl, rfl⟩ | ⟨b, rfl, rfl⟩ | ⟨hplain, rfl⟩
      · cases b <;> simp [Bracket.opening] at hrest ⊢ <;> omega
      · cases b <;> simp [Bracket.closing] at hrest ⊢ <;> omega
      · have hopen : c ≠ '{' := (hplain .brace).1
        have hclose : c ≠ '}' := (hplain .brace).2
        rw [List.count_cons_of_ne hopen, List.count_cons_of_ne hclose]
        exact hrest
    · cases h

theorem Passes.openBraces_eq {text : List Char} {depth : Nat}
    (h : Passes [] text (blockBraces depth)) : openBraces text = depth := by
  have hcount := count_nestAll h.brackets
  simp only [blockBraces, List.count_nil, List.count_replicate_self] at hcount
  unfold openBraces
  omega

/-! ## Lines of the text -/

/-- What stands in front of the first line end. -/
theorem takeWhile_line {first rest : List Char} (hfirst : '\n' ∉ first)
    (hrest : rest = [] ∨ rest.head? = some '\n') :
    (first ++ rest).takeWhile (· != '\n') = first := by
  have hall : ∀ c ∈ first, (c != '\n') = true := by
    intro c hc
    rw [bne_iff_ne]
    rintro rfl
    exact hfirst hc
  rw [List.takeWhile_append_of_pos hall]
  rcases hrest with rfl | hhead
  · simp
  · obtain ⟨after, rfl⟩ := List.head?_eq_some_iff.mp hhead
    simp

/-- The lines of a text are its first line and those of the rest. -/
theorem isLineOf_cons {first rest above line : List Char} (hfirst : '\n' ∉ first)
    (h : IsLineOf (first ++ '\n' :: rest) above line) :
    (above = [] ∧ line = first) ∨
      ∃ start, above = first ++ '\n' :: start ∧ IsLineOf rest start line := by
  obtain ⟨below, htext, habove, hbelow, hline⟩ := h
  rcases habove with rfl | hlast
  · left
    refine ⟨rfl, ?_⟩
    have hcut := congrArg (List.takeWhile (· != '\n')) htext
    rw [takeWhile_line hfirst (.inr rfl), List.nil_append, takeWhile_line hline hbelow] at hcut
    exact hcut.symm
  · right
    -- The lines above start with a line too, and it is the first one.
    obtain ⟨top, start, rfl, htop⟩ :=
      List.eq_append_cons_of_mem (List.mem_of_getLast? hlast)
    have hsplit : top ++ '\n' :: start ++ line ++ below =
        top ++ '\n' :: (start ++ line ++ below) := by simp
    rw [hsplit] at htext
    have hcut := congrArg (List.takeWhile (· != '\n')) htext
    rw [takeWhile_line hfirst (.inr rfl), takeWhile_line htop (.inr rfl)] at hcut
    subst hcut
    have hrest : rest = start ++ line ++ below := (List.cons.inj (List.append_cancel_left htext)).2
    refine ⟨start, rfl, below, hrest, ?_, hbelow, hline⟩
    by_cases hnil : start = []
    · exact .inl hnil
    · right
      rwa [List.getLast?_append, List.getLast?_cons_of_ne_nil hnil,
        List.getLast?_eq_some_getLast hnil, Option.some_or,
        ← List.getLast?_eq_some_getLast hnil] at hlast

/-- A line of the text that is not empty is the text of one of the lines,
    behind that of the lines above it. -/
theorem exists_line_of_isLineOf {lines : List Line} {depth : Nat} {above line : List Char}
    (hlines : ∀ other ∈ lines, '\n' ∉ other.text.toList)
    (h : IsLineOf (renderedText depth lines) above line) (hne : line ≠ []) :
    ∃ before here after, lines = before ++ here :: after ∧ above = renderedText depth before ∧
      line = List.replicate (4 * here.level (openBlocks depth before)) ' ' ++
        here.text.toList := by
  induction lines generalizing depth above with
  | nil =>
    obtain ⟨below, htext, _⟩ := h
    have hempty : line = [] := by
      have hall := (List.append_eq_nil_iff.mp htext.symm).1
      exact (List.append_eq_nil_iff.mp hall).2
    exact absurd hempty hne
  | cons first lines ih =>
    obtain ⟨hfirst, hrest⟩ := List.forall_mem_cons.mp hlines
    have hspaces : '\n' ∉ List.replicate (4 * first.level depth) ' ' ++ first.text.toList := by
      intro hmem
      rcases List.mem_append.mp hmem with hmem | hmem
      · cases List.eq_of_mem_replicate hmem
      · exact hfirst hmem
    rw [renderedText_cons, List.append_assoc _ ['\n'], List.singleton_append] at h
    rcases isLineOf_cons hspaces h with ⟨rfl, rfl⟩ | ⟨start, rfl, hstart⟩
    · exact ⟨[], first, lines, rfl, rfl, rfl⟩
    · obtain ⟨before, here, after, rfl, rfl, hhere⟩ := ih hrest hstart
      refine ⟨first :: before, here, after, rfl, ?_, ?_⟩
      · rw [renderedText_cons, List.append_assoc _ ['\n'], List.singleton_append]
      · have hdepth : openBlocks depth (first :: before) =
            openBlocks (openBlocks depth [first]) before := openBlocks_append depth [first] before
        rw [hdepth]
        exact hhere

/-! ## Indentation -/

theorem leadingSpaces_replicate (count : Nat) {c : Char} (hc : c ≠ ' ') (text : List Char) :
    leadingSpaces (List.replicate count ' ' ++ c :: text) = count ∧
      (StartsClosing (List.replicate count ' ' ++ c :: text) ↔ c = '}') := by
  have hspaces : ∀ d ∈ List.replicate count ' ', (d == ' ') = true := by
    intro d hd
    rw [List.eq_of_mem_replicate hd]
    rfl
  unfold leadingSpaces StartsClosing
  rw [List.takeWhile_append_of_pos hspaces, List.dropWhile_append_of_pos hspaces]
  simp [hc]

theorem Phrase.newline_notMem {text : String} (h : Phrase text) : '\n' ∉ text.toList :=
  (Reading.run_spec (h false [])).1

/-- A phrase shows how far it is indented. -/
theorem Phrase.indented {text : String} (h : Phrase text) (depth : Nat) (behind : List Char) :
    leadingSpaces (List.replicate (4 * depth) ' ' ++ (text.toList ++ behind)) = 4 * depth ∧
      ¬ StartsClosing (List.replicate (4 * depth) ' ' ++ (text.toList ++ behind)) := by
  obtain ⟨c, rest, htext, hspace, hbrace⟩ := Reading.exists_first (h false []) rfl rfl
  obtain ⟨hcount, hcloses⟩ := leadingSpaces_replicate (4 * depth) hspace (rest ++ behind)
  rw [htext, List.cons_append]
  exact ⟨hcount, fun hstarts => hbrace (hcloses.mp hstarts)⟩

theorem Line.Tidy.newline_notMem {line : Line} (h : line.Tidy) : '\n' ∉ line.text.toList := by
  cases line with
  | plain text => exact Phrase.newline_notMem h
  | opening head =>
    show '\n' ∉ (head ++ " \x7b").toList
    simpa using Phrase.newline_notMem h
  | closing => decide
  | blank => decide

/-- **One line** is indented by the blocks around it, of which it may close
    the innermost. -/
theorem Line.Tidy.indented {line : Line} {depth : Nat} (h : line.Tidy)
    (hclosing : line = .closing → 0 < depth)
    (hne : List.replicate (4 * line.level depth) ' ' ++ line.text.toList ≠ []) :
    (leadingSpaces (List.replicate (4 * line.level depth) ' ' ++ line.text.toList) : Int) =
      4 * (depth - if StartsClosing (List.replicate (4 * line.level depth) ' ' ++
        line.text.toList) then 1 else 0) := by
  have hopen : ∀ (text : String) (behind : List Char), Phrase text →
      (leadingSpaces (List.replicate (4 * depth) ' ' ++ (text.toList ++ behind)) : Int) =
        4 * (depth - if StartsClosing (List.replicate (4 * depth) ' ' ++
          (text.toList ++ behind)) then 1 else 0) := by
    intro text behind htext
    obtain ⟨hcount, hcloses⟩ := htext.indented depth behind
    rw [hcount, if_neg hcloses]
    omega
  cases line with
  | plain text =>
    have hplain := hopen text [] h
    rwa [List.append_nil] at hplain
  | opening head =>
    have htext : (Line.opening head).text.toList = head.toList ++ [' ', '{'] := by
      simp [Line.text]
    rw [htext]
    exact hopen head [' ', '{'] h
  | closing =>
    have hpositive := hclosing rfl
    have hbrace : ('}' : Char) ≠ ' ' := by decide
    have htext : Line.closing.text.toList = ['}'] := rfl
    have hlevel : Line.closing.level depth = depth - 1 := rfl
    obtain ⟨hcount, hcloses⟩ := leadingSpaces_replicate (4 * (depth - 1)) hbrace []
    rw [htext, hlevel, hcount, if_pos (hcloses.mpr rfl)]
    omega
  | blank => exact absurd rfl hne

/-- **The text of tidy lines is well laid.** -/
theorem wellLaid_layout {lines : List Line} (h : Tidy lines) :
    WellLaid (layout lines).toList where
  nested := bracketWord_of_nestAll (passes_lines h.phrases (h.closed 0)).brackets
  indented := by
    intro above line hline hne
    have hends : ∀ other ∈ lines, '\n' ∉ other.text.toList :=
      fun other hother => (h.phrases other hother).newline_notMem
    obtain ⟨before, here, after, rfl, rfl, rfl⟩ := exists_line_of_isLineOf hends hline hne
    obtain ⟨hbefore, hrest⟩ := List.forall_mem_append.mp h.phrases
    obtain ⟨hdepth, hclosing⟩ := depthAfter?_above (h.closed 0)
    -- The blocks around the line are the braces that are open above it.
    rw [(passes_lines hbefore hdepth).openBraces_eq]
    exact (hrest here List.mem_cons_self).indented hclosing hne

end TaggedWire
