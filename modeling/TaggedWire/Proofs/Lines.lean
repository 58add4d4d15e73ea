import TaggedWire.Emit.Layout
import TaggedWire.Proofs.NameLists
import TaggedWire.Proofs.Occurrence

/-! # Lines and their text

    What a list of lines says about the text it is laid out to: every
    rendered line is its own text behind some spaces, and lines that are
    the `Interior` of a source leave the depth of the lines after them
    alone and hold no seam. A block is found by its head if no line above
    holds that head (`orderedNames_block`). -/

namespace TaggedWire

/-! ## Text -/

/-- The text of a line without its indentation. -/
def Line.text : Line → String
  | .plain text => text
  | .opening head => head ++ " \x7b"
  | .closing => "\x7d"
  | .blank => ""

theorem toList_pushn (text : String) (c : Char) (count : Nat) :
    (text.pushn c count).toList = text.toList ++ List.replicate count c := by
  rw [String.pushn_eq_repeat_push]
  induction count with
  | zero => rw [List.replicate_zero, List.append_nil]; rfl
  | succ count ih => rw [Nat.repeat, String.toList_push, ih, List.append_assoc,
      List.replicate_succ']

theorem toList_indentation (depth : Nat) :
    (indentation depth).toList = List.replicate (4 * depth) ' ' := by
  unfold indentation
  rw [toList_pushn, String.toList_empty, List.nil_append]

/-- How deep a line stands when `depth` blocks are open before it. An empty
    line is not indented. -/
def Line.level (depth : Nat) : Line → Nat
  | .plain _ | .opening _ => depth
  | .closing => depth - 1
  | .blank => 0

/-- One line of a layout: its text at its level. -/
theorem renderLines_cons (depth : Nat) (line : Line) (rest : List Line) :
    renderLines depth (line :: rest) =
      (indentation (line.level depth) ++ line.text ++ "\n") ::
        renderLines (openBlocks depth [line]) rest := by
  cases line with
  | plain text => rfl
  | opening head =>
    have hassoc : indentation depth ++ head ++ " \x7b\n" =
        indentation depth ++ (head ++ " \x7b") ++ "\n" := by
      simp only [String.append_assoc]
      rfl
    exact congrArg (· :: renderLines (depth + 1) rest) hassoc
  | closing =>
    have hassoc : indentation (depth - 1) ++ "\x7d\n" =
        indentation (depth - 1) ++ "\x7d" ++ "\n" := by
      rw [String.append_assoc]
      rfl
    exact congrArg (· :: renderLines (depth - 1) rest) hassoc
  | blank => rfl

/-- Every rendered line is the text of a line behind some spaces. -/
theorem mem_renderLines {depth : Nat} {lines : List Line} {rendered : String}
    (h : rendered ∈ renderLines depth lines) :
    ∃ line ∈ lines, ∃ level, rendered = indentation level ++ line.text ++ "\n" := by
  induction lines generalizing depth with
  | nil => cases h
  | cons line lines ih =>
    rw [renderLines_cons] at h
    rcases List.mem_cons.mp h with rfl | h
    · exact ⟨line, List.mem_cons_self, line.level depth, rfl⟩
    · obtain ⟨found, hfound, hrendered⟩ := ih h
      exact ⟨found, List.mem_cons_of_mem line hfound, hrendered⟩

/-- The text around the body of a block that stands inside no other. -/
theorem layout_block {head : String} {above body below : List Line}
    (habove : openBlocks 0 above = 0) (hbody : openBlocks 1 body = 1) :
    layout (above ++ (block head body ++ below)) =
      String.join (renderLines 0 above) ++ (head ++ " \x7b") ++ "\n" ++
        String.join (renderLines 1 body) ++ "\x7d" ++
          ("\n" ++ String.join (renderLines 0 below)) := by
  have hblock : block head body ++ below = .opening head :: (body ++ .closing :: below) := by
    simp [block]
  -- The body is one level down, and what follows is at the outer level again.
  have hstart : openBlocks 0 [Line.opening head] = 1 := rfl
  have hend : openBlocks 1 [Line.closing] = 0 := rfl
  have hnone : indentation 0 = "" := rfl
  rw [layout, hblock, renderLines_append, habove, renderLines_cons, hstart, renderLines_append,
    hbody, renderLines_cons, hend]
  simp only [Line.text, Line.level, hnone, String.join_append, String.join_cons,
    String.append_assoc, String.empty_append]

/-- Lines that close what they open, one after the other. -/
theorem openBlocks_flatMap {α : Type} {entries : List α} {lines : α → List Line}
    (h : ∀ entry ∈ entries, ∀ depth, openBlocks depth (lines entry) = depth) (depth : Nat) :
    openBlocks depth (entries.flatMap lines) = depth := by
  induction entries with
  | nil => rfl
  | cons entry entries ih =>
    obtain ⟨hentry, hentries⟩ := List.forall_mem_cons.mp h
    rw [List.flatMap_cons, openBlocks_append, hentry, ih hentries]

/-! ## Lines without a seam -/

/-- Lines that hold no seam and close exactly what they open. -/
structure Interior (seam : Seam) (lines : List Line) : Prop where
  seamless : ∀ line ∈ lines, Seamless seam line.text
  closed : ∀ depth, openBlocks depth lines = depth

namespace Interior

variable {seam : Seam}

theorem nil : Interior seam [] := ⟨fun _ h => (List.not_mem_nil h).elim, fun _ => rfl⟩

theorem plain {text : String} (h : Seamless seam text) : Interior seam [.plain text] :=
  ⟨List.forall_mem_singleton.mpr h, fun _ => rfl⟩

theorem blank : Interior seam [.blank] :=
  ⟨List.forall_mem_singleton.mpr (.ofList rfl), fun _ => rfl⟩

theorem append {a b : List Line} (ha : Interior seam a) (hb : Interior seam b) :
    Interior seam (a ++ b) where
  seamless := List.forall_mem_append.mpr ⟨ha.seamless, hb.seamless⟩
  closed depth := by rw [openBlocks_append, ha.closed, hb.closed]

theorem cons {line : Line} {lines : List Line} (hline : Interior seam [line])
    (hlines : Interior seam lines) : Interior seam (line :: lines) := hline.append hlines

theorem block {head : String} {body : List Line} (hhead : Seamless seam head)
    (hbody : Interior seam body) : Interior seam (block head body) where
  seamless := List.forall_mem_cons.mpr ⟨hhead.append .opening,
    List.forall_mem_append.mpr ⟨hbody.seamless, List.forall_mem_singleton.mpr .closing⟩⟩
  closed depth := openBlocks_block (hbody.closed (depth + 1))

theorem flatMap {α : Type} {entries : List α} {lines : α → List Line}
    (h : ∀ entry ∈ entries, Interior seam (lines entry)) :
    Interior seam (entries.flatMap lines) where
  seamless := by
    intro line hline
    obtain ⟨entry, hentry, hline⟩ := List.mem_flatMap.mp hline
    exact (h entry hentry).seamless line hline
  closed := openBlocks_flatMap fun entry hentry => (h entry hentry).closed

theorem map {α : Type} {entries : List α} {line : α → Line}
    (h : ∀ entry ∈ entries, Interior seam [line entry]) : Interior seam (entries.map line) := by
  rw [List.map_eq_flatMap]
  exact flatMap h

end Interior

/-! ## Lines without a literal -/

/-- The line does not hold the literal, however far it is indented. -/
def Line.Lacks (literal : List Char) (line : Line) : Prop :=
  ∀ count, ¬ literal <:+: List.replicate count ' ' ++ line.text.toList

section

variable {literal : List Char} {seam : Seam}

theorem Line.lacks_of_notMem {c : Char} {line : Line} (hc : c ∈ literal) (hspace : c ≠ ' ')
    (h : c ∉ line.text.toList) : line.Lacks literal := by
  intro count hoccurs
  rcases List.mem_append.mp (hoccurs.subset hc) with hmem | hmem
  · exact hspace (List.eq_of_mem_replicate hmem)
  · exact h hmem

theorem Interior.lacks {lines : List Line} (h : Interior seam lines)
    (hseam : seam.chars <:+: literal) : ∀ line ∈ lines, line.Lacks literal :=
  fun line hline => (h.seamless line hline).absent hseam

theorem lacks_block {head : String} {body : List Line} (hseam : seam.chars <:+: literal)
    (hhead : (Line.opening head).Lacks literal) (hbody : ∀ line ∈ body, line.Lacks literal) :
    ∀ line ∈ block head body, line.Lacks literal :=
  List.forall_mem_cons.mpr ⟨hhead, List.forall_mem_append.mpr
    ⟨hbody, List.forall_mem_singleton.mpr (Seamless.closing.absent hseam)⟩⟩

end

/-! ## Rendered text -/

theorem toList_join_renderLines (depth : Nat) (lines : List Line) :
    (String.join (renderLines depth lines)).toList =
      ((renderLines depth lines).map String.toList).flatten := by
  rw [String.toList_join, List.flatMap_def]

theorem toList_join_renderLines_cons (depth : Nat) (line : Line) (rest : List Line) :
    (String.join (renderLines depth (line :: rest))).toList =
      List.replicate (4 * line.level depth) ' ' ++ line.text.toList ++ ['\n'] ++
        (String.join (renderLines (openBlocks depth [line]) rest)).toList := by
  rw [renderLines_cons, String.join_cons, String.toList_append, String.toList_append,
    String.toList_append, toList_indentation]
  rfl

/-- A literal that occurs in none of the lines, wherever they stand, does
    not occur in the text. -/
theorem without_renderLines {literal : List Char} {lines : List Line} (hline : '\n' ∉ literal)
    (hne : literal ≠ [])
    (h : ∀ line ∈ lines, line.Lacks literal)
    (depth : Nat) : Without literal (String.join (renderLines depth lines)).toList := by
  rw [toList_join_renderLines]
  refine .flatten hline hne (List.forall_mem_map.mpr fun rendered hrendered => ?_)
  obtain ⟨line, hmem, level, rfl⟩ := mem_renderLines hrendered
  rw [String.toList_append, String.toList_append, toList_indentation]
  exact .line hline (h line hmem (4 * level))

/-- The text of a line occurs once if no other line holds it. -/
theorem soleOccurrence_layout {literal : List Char} {above below : List Line} (line : Line)
    {c : Char} (htext : line.text.toList = literal) (hfirst : literal.head? = some c)
    (hc : c ≠ ' ') (hline : '\n' ∉ literal) (habove : ∀ other ∈ above, other.Lacks literal)
    (hbelow : ∀ other ∈ below, other.Lacks literal) :
    SoleOccurrence literal (layout (above ++ line :: below)).toList
      ((String.join (renderLines 0 above)).toList ++
        List.replicate (4 * line.level (openBlocks 0 above)) ' ')
      ('\n' ::
        (String.join (renderLines (openBlocks (openBlocks 0 above) [line]) below)).toList) := by
  have hne : literal ≠ [] := by
    intro hnil
    rw [hnil] at hfirst
    cases hfirst
  have hlayout : (layout (above ++ line :: below)).toList =
      (String.join (renderLines 0 above)).toList ++
        (String.join (renderLines (openBlocks 0 above) (line :: below))).toList := by
    rw [layout, renderLines_append, String.join_append, String.toList_append]
  rw [hlayout, toList_join_renderLines_cons, htext]
  exact soleOccurrence_line hfirst hc hline (without_renderLines hline hne habove 0)
    (without_renderLines hline hne hbelow _).absent _

/-! ## Lines that declare -/

/-- A line that declares one name. -/
def Line.Declares (line : Line) (name : String) : Prop :=
  ∃ text, line = .plain text ∧ TaggedWire.Declares text.toList name

/-- Lines declare the same wherever they stand. -/
theorem declares_rendered {entries : List Line} {listed : List String}
    (h : List.Forall₂ Line.Declares entries listed) (depth : Nat) :
    List.Forall₂ Declares ((renderLines depth entries).map String.toList) listed := by
  induction h with
  | nil => exact .nil
  | cons hentry _ ih =>
    obtain ⟨text, rfl, hdeclares⟩ := hentry
    rw [renderLines_cons, List.map_cons, String.toList_append, String.toList_append,
      toList_indentation]
    have hspaces {count : Nat} : ∀ c ∈ List.replicate count ' ', isBlank c = true := by
      intro c hc
      rw [List.eq_of_mem_replicate hc]
      decide
    exact .cons (hdeclares.blanks hspaces (List.forall_mem_singleton.mpr (by decide))) ih

/-- Such lines open no block. -/
theorem closed_of_declares {entries : List Line} {listed : List String}
    (h : List.Forall₂ Line.Declares entries listed) (depth : Nat) :
    openBlocks depth entries = depth := by
  induction h with
  | nil => rfl
  | cons hentry _ ih =>
    obtain ⟨text, rfl, _⟩ := hentry
    exact ih

/-- **Extraction from lines**: behind whole lines without its head, a block
    whose lines declare gives what they declare. -/
theorem orderedNames_block {source head : String} {top : List Char}
    {above entries below : List Line} {listed : List String}
    (hsource : source.toList = top ++ (layout (above ++ (block head entries ++ below))).toList)
    (hline : '\n' ∉ (head ++ " \x7b").toList) (htop : Without (head ++ " \x7b").toList top)
    (habove : ∀ line ∈ above, line.Lacks (head ++ " \x7b").toList) (hne : above ≠ [])
    (hclosed : openBlocks 0 above = 0) (hentries : List.Forall₂ Line.Declares entries listed) :
    orderedNames source (head ++ " \x7b") = .ok listed := by
  have hanchor : (head ++ " \x7b").toList ≠ [] := by simp
  have htext : Without (head ++ " \x7b").toList
      (top ++ (String.join (renderLines 0 above)).toList) :=
    htop.append hline (without_renderLines hline hanchor habove 0)
  have hend : (top ++ (String.join (renderLines 0 above)).toList).getLast? = some '\n' := by
    apply htext.terminated.resolve_left
    obtain ⟨first, lines, rfl⟩ := List.exists_cons_of_ne_nil hne
    simp [renderLines_cons]
  apply orderedNames_declaration _ hend htext.absent hline (declares_rendered hentries 1)
  · exact ('\n' :: (String.join (renderLines 0 below)).toList)
  rw [hsource, layout_block hclosed (closed_of_declares hentries 1), ← toList_join_renderLines]
  simp

end TaggedWire
