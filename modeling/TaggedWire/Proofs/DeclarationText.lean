import TaggedWire.Generator.Render
import TaggedWire.Proofs.RustText

/-! # Declarations in the generated text

    The generated codec is a list of declarations with distinct names. The
    anchor of a name occurs in the head of its own declaration and in no
    line before it, so the extraction finds that declaration and lists what
    it declares (`orderedNames_splice`). -/

namespace TaggedWire

namespace Rust

/-! ## Anchors -/

/-- The text that a table of the type `name` is anchored on. -/
def anchorOf (name : String) : String := s!"pub enum {name} \x7b"

theorem anchor_forDeclaration (name exportName : String) :
    (MappingTarget.forDeclaration name exportName).anchor = anchorOf name := rfl

theorem toList_anchorOf (name : String) :
    (anchorOf name).toList = headText "pub enum".toList name := by
  simp [anchorOf, headText, toString]

theorem anchorOf_ne_nil (name : String) : (anchorOf name).toList ≠ [] := by
  rw [toList_anchorOf]
  exact headText_ne_nil

theorem newline_notMem_anchorOf {name : String} (h : IsWord name) :
    '\n' ∉ (anchorOf name).toList := by
  rw [toList_anchorOf]
  exact newline_notMem_headText (by decide) h.2

theorem seam_infix_anchorOf (name : String) : enumSeam.chars <:+: (anchorOf name).toList :=
  ⟨['p', 'u'], "num ".toList ++ name.toList ++ [' ', '{'], by simp [toList_anchorOf, headText]; rfl⟩

/-- The anchor of one name does not occur in the head of another. -/
theorem anchorOf_infix_inj {name other : String} (hname : IsWord name) (hother : IsWord other)
    {count : Nat}
    (h : (anchorOf name).toList <:+: List.replicate count ' ' ++ (anchorOf other).toList) :
    name = other := by
  rw [toList_anchorOf, toList_anchorOf] at h
  exact headText_infix_inj (by decide) hname hother h

/-! ## Declarations -/

/-- One declaration of the generated text: the type, the names it lists,
    and its lines. -/
structure Declaration where
  name : String
  listed : List String
  lines : List Line

/-- The declarations of a schema in the order of its codec. -/
def declarations (flavor : Flavor) (s : Schema) : List Declaration :=
  s.enums.map (fun e => ⟨e.name, e.variants, enumLines flavor e⟩) ++
    s.categories.map fun c => ⟨c.name, c.messages.map (·.name), categoryLines flavor c⟩

theorem schemaLines_eq (flavor : Flavor) (s : Schema) :
    schemaLines flavor s = (declarations flavor s).flatMap fun d => .blank :: d.lines := by
  rw [declarations, List.flatMap_append, List.flatMap_map, List.flatMap_map]
  rfl

theorem map_name_declarations (flavor : Flavor) (s : Schema) :
    (declarations flavor s).map (·.name) = s.enums.map (·.name) ++ s.categories.map (·.name) := by
  rw [declarations, List.map_append, List.map_map, List.map_map]
  rfl

/-- A declaration of a word in the shape of all declarations. -/
structure Declaration.Sound (d : Declaration) : Prop where
  name : IsWord d.name
  lines : DeclarationLines d.name d.listed d.lines

theorem sound_of_mem_declarations {flavor : Flavor} {s : Schema} (h : s.WordNames)
    {d : Declaration} (hd : d ∈ declarations flavor s) : d.Sound := by
  rcases List.mem_append.mp hd with hd | hd
  · obtain ⟨e, he, rfl⟩ := List.mem_map.mp hd
    exact ⟨(h.enums e he).name, declarationLines_enum flavor (h.enums e he)⟩
  · obtain ⟨c, hc, rfl⟩ := List.mem_map.mp hd
    exact ⟨(h.categories c hc).name, declarationLines_category flavor (h.categories c hc)⟩

/-! ### Entries -/

section

variable {entries : List Line} {listed : List String}

theorem interior_entries (h : List.Forall₂ EntryLine entries listed) :
    Interior enumSeam entries := by
  induction h with
  | nil => exact .nil
  | cons hentry _ ih =>
    obtain ⟨text, rfl, hseamless, _⟩ := hentry
    exact .cons (.plain hseamless) ih

theorem declares_entries (h : List.Forall₂ EntryLine entries listed) :
    List.Forall₂ Line.Declares entries listed :=
  h.imp fun _ _ ⟨text, htext, _, hdeclares⟩ => ⟨text, htext, hdeclares⟩

end

/-! ### Lines around an anchor -/

section

variable {name : String} {listed : List String} {lines : List Line}

theorem DeclarationLines.closed (h : DeclarationLines name listed lines) (depth : Nat) :
    openBlocks depth lines = depth := by
  obtain ⟨attributes, entries, routines, rfl, _, hentries, hroutines⟩ := h
  have hbody := (interior_entries hentries).closed (depth + 1)
  rw [openBlocks, openBlocks_append, openBlocks_block hbody, hroutines.closed]

/-- Only the head of a declaration holds the seam. -/
theorem DeclarationLines.seamless_or_head (h : DeclarationLines name listed lines) {line : Line}
    (hline : line ∈ lines) :
    Seamless enumSeam line.text ∨ line = .opening s!"pub enum {name}" := by
  obtain ⟨attributes, entries, routines, rfl, hattributes, hentries, hroutines⟩ := h
  rcases List.mem_cons.mp hline with rfl | hline
  · exact .inl hattributes
  rcases List.mem_append.mp hline with hline | hline
  · rcases List.mem_cons.mp hline with rfl | hline
    · exact .inr rfl
    rcases List.mem_append.mp hline with hline | hline
    · exact .inl ((interior_entries hentries).seamless line hline)
    · rw [List.mem_singleton.mp hline]
      exact .inl .closing
  · exact .inl (hroutines.seamless line hline)

end

/-- A line that does not hold the anchor of a name, however far it is
    indented. -/
def AnchorFree (name : String) (line : Line) : Prop :=
  ∀ count, ¬ (anchorOf name).toList <:+: List.replicate count ' ' ++ line.text.toList

theorem anchorFree_of_seamless (name : String) {line : Line} (h : Seamless enumSeam line.text) :
    AnchorFree name line := h.absent (seam_infix_anchorOf name)

/-- No line of a declaration holds the anchor of another one. -/
theorem Declaration.Sound.anchorFree {d : Declaration} (h : d.Sound) {name : String}
    (hname : IsWord name) (hne : name ≠ d.name) {line : Line} (hline : line ∈ d.lines) :
    AnchorFree name line := by
  rcases h.lines.seamless_or_head hline with hseamless | rfl
  · exact anchorFree_of_seamless name hseamless
  · exact fun count hinfix => hne (anchorOf_infix_inj hname h.name hinfix)

/-! ## Around a declaration -/

theorem closed_declarations {ds : List Declaration} (h : ∀ d ∈ ds, d.Sound) (depth : Nat) :
    openBlocks depth (ds.flatMap fun d => .blank :: d.lines) = depth := by
  apply openBlocks_flatMap
  intro d hd depth
  exact (h d hd).lines.closed depth

/-- **The lines of a codec** around one of its declarations: lines without
    its anchor, the block of the declaration, and the rest. -/
theorem lines_around_declaration {before : List Declaration} {d : Declaration}
    (after : List Declaration) (hbefore : ∀ other ∈ before, other.Sound ∧ d.name ≠ other.name)
    (hd : d.Sound) :
    ∃ above entries below,
      ((before ++ d :: after).flatMap fun d => .blank :: d.lines) =
        above ++ (block s!"pub enum {d.name}" entries ++ below) ∧
      (∀ line ∈ above, AnchorFree d.name line) ∧ above ≠ [] ∧ openBlocks 0 above = 0 ∧
      List.Forall₂ EntryLine entries d.listed := by
  obtain ⟨attributes, entries, routines, hlines, hattributes, hentries, _⟩ := hd.lines
  refine ⟨(before.flatMap fun d => .blank :: d.lines) ++ [.blank, .plain attributes], entries,
    routines ++ after.flatMap fun d => .blank :: d.lines, by simp [hlines], ?_, by simp, ?_,
    hentries⟩
  · -- Above the head are other declarations, empty lines and attributes.
    have hblank : AnchorFree d.name .blank := anchorFree_of_seamless d.name (.ofList rfl)
    refine List.forall_mem_append.mpr ⟨?_, ?_⟩
    · intro line hline
      obtain ⟨other, hother, hline⟩ := List.mem_flatMap.mp hline
      obtain ⟨hsound, hne⟩ := hbefore other hother
      rcases List.mem_cons.mp hline with rfl | hline
      · exact hblank
      · exact hsound.anchorFree hd.name hne hline
    · exact List.forall_mem_cons.mpr ⟨hblank,
        List.forall_mem_singleton.mpr (anchorFree_of_seamless d.name hattributes)⟩
  · rw [openBlocks_append, closed_declarations fun other hother => (hbefore other hother).1]
    rfl

/-! ## Extraction -/

/-- A header with its last line ended. -/
theorem without_endLine {literal : List Char} {header : String} (hline : '\n' ∉ literal)
    (h : ¬ literal <:+: header.toList) : Without literal (endLine header).toList := by
  unfold endLine
  split
  · rename_i hend
    refine ⟨?_, h⟩
    rcases Bool.or_eq_true_iff.mp hend with hempty | hlast
    · exact .inl (String.toList_eq_nil_iff.mpr (String.isEmpty_iff.mp hempty))
    · exact .inr (eq_of_beq hlast)
  · rw [String.toList_append]
    exact .line hline h

/-- The banner holds no anchor. -/
theorem without_banner {name : String} (hname : IsWord name) :
    Without (anchorOf name).toList banner.toList := by
  have hline : banner.toList = banner.toList.dropLast ++ ['\n'] := by decide +kernel
  have hrun : enumSeam.run .apart banner.toList.dropLast ≠ .broken := by decide +kernel
  rw [hline]
  refine .line (newline_notMem_anchorOf hname) fun hinfix => ?_
  exact enumSeam.not_infix_of_run hrun ((seam_infix_anchorOf name).trans hinfix)

/-- **Extraction from a finished codec**: behind a header without the anchor
    of a declaration, the extraction lists what that declaration lists, if
    no declaration before it has the same name. -/
theorem orderedNames_first {flavor : Flavor} {s : Schema} {header : String} {d : Declaration}
    {before after : List Declaration} (hwords : s.WordNames)
    (hsplit : declarations flavor s = before ++ d :: after)
    (hnew : ∀ other ∈ before, d.name ≠ other.name)
    (hheader : ¬ (anchorOf d.name).toList <:+: header.toList) :
    orderedNames (splice header (emit flavor s)) (anchorOf d.name) = .ok d.listed := by
  have hdeclared {other : Declaration} (hother : other ∈ before ++ d :: after) : other.Sound :=
    sound_of_mem_declarations hwords (hsplit ▸ hother)
  have hsound : d.Sound := hdeclared (by simp)
  have hbefore : ∀ other ∈ before, other.Sound ∧ d.name ≠ other.name :=
    fun other hother => ⟨hdeclared (List.mem_append_left _ hother), hnew other hother⟩
  -- The text above the lines is made of whole lines, and none has the anchor.
  have hline := newline_notMem_anchorOf hsound.name
  have htop : Without (anchorOf d.name).toList (banner ++ endLine header).toList := by
    rw [String.toList_append]
    exact .append hline (without_banner hsound.name) (without_endLine hline hheader)
  obtain ⟨above, entries, below, hlines, habove, hne, hclosed, hentries⟩ :=
    lines_around_declaration after hbefore hsound
  have hsource : (splice header (emit flavor s)).toList = (banner ++ endLine header).toList ++
      (layout (above ++ (block s!"pub enum {d.name}" entries ++ below))).toList := by
    rw [splice, emit, schemaLines_eq, hsplit, hlines, ← String.toList_append]
  exact orderedNames_block hsource hline htop habove hne hclosed (declares_entries hentries)

/-- Where all names differ, every declaration is found. -/
theorem orderedNames_splice {flavor : Flavor} {s : Schema} {header : String} {d : Declaration}
    (hwords : s.WordNames)
    (hdistinct : (s.enums.map (·.name) ++ s.categories.map (·.name)).Nodup)
    (hd : d ∈ declarations flavor s) (hheader : ¬ (anchorOf d.name).toList <:+: header.toList) :
    orderedNames (splice header (emit flavor s)) (anchorOf d.name) = .ok d.listed := by
  obtain ⟨before, after, hsplit⟩ := List.append_of_mem hd
  refine orderedNames_first hwords hsplit (fun other hother => ?_) hheader
  rw [← map_name_declarations flavor, hsplit, List.map_append, List.nodup_append] at hdistinct
  exact (hdistinct.2.2 _ (List.mem_map_of_mem hother) _ List.mem_cons_self).symm

end Rust

end TaggedWire
