import Mathlib.Data.List.DropRight
import Mathlib.Data.List.Nodup
import TaggedWire.Proofs.TypeScriptText

/-! # The numbers in the TypeScript codec

    A reader of the generated text finds the numbers of the wire format in
    it. The declaration of an enumeration is the first text that looks like
    one, so the extraction lists its variants with their positions. The
    class of a message has a head that occurs once, and the line below it
    gives the tag (`ClassAmong`, which is carried from the lines of a
    message to those of its category and of the schema). -/

namespace TaggedWire

/-! ## Names that differ -/

/-- Where keys differ, the other entries have other keys. -/
theorem exists_split_of_nodup {α β : Type} {entries : List α} {key : α → β}
    (h : (entries.map key).Nodup) {entry : α} (hmem : entry ∈ entries) :
    ∃ before after, entries = before ++ entry :: after ∧
      ∀ other ∈ before ++ after, other ∈ entries ∧ key entry ≠ key other := by
  obtain ⟨before, after, rfl⟩ := List.append_of_mem hmem
  rw [List.map_append, List.map_cons, List.nodup_middle, List.nodup_cons, ← List.map_append] at h
  refine ⟨before, after, rfl, ?_⟩
  intro other hother
  constructor
  · exact ((List.sublist_cons_self entry after).append_left before).subset hother
  · intro hsame
    apply h.1
    rw [hsame]
    exact List.mem_map_of_mem hother

/-- Where the names of all messages differ, those of one category are apart
    from those of the others. -/
theorem exists_split_of_nodup_messages {s : Schema}
    (h : ((s.categories.flatMap (·.messages)).map (·.name)).Nodup) {c : Category}
    (hc : c ∈ s.categories) :
    ∃ before after, s.categories = before ++ c :: after ∧ (c.messages.map (·.name)).Nodup ∧
      ∀ other ∈ before ++ after, other ∈ s.categories ∧
        ∀ m ∈ c.messages, ∀ m' ∈ other.messages, m.name ≠ m'.name := by
  obtain ⟨before, after, hsplit⟩ := List.append_of_mem hc
  have hperm : ((s.categories.flatMap (·.messages)).map (·.name)).Perm
      (c.messages.map (·.name) ++ ((before ++ after).flatMap (·.messages)).map (·.name)) := by
    rw [hsplit]
    simp only [List.flatMap_append, List.flatMap_cons, List.map_append]
    exact List.perm_append_comm_assoc _ _ _
  obtain ⟨hinside, _, hapart⟩ := List.nodup_append.mp (hperm.nodup_iff.mp h)
  refine ⟨before, after, hsplit, hinside, ?_⟩
  intro other hother
  constructor
  · rw [hsplit]
    exact ((List.sublist_cons_self c after).append_left before).subset hother
  · intro m hm m' hm'
    apply hapart _ (List.mem_map_of_mem hm)
    exact List.mem_map_of_mem (List.mem_flatMap.mpr ⟨other, hother, hm'⟩)

/-- Where names differ, a message is numbered with the tag of its name. -/
theorem Category.mem_tagged_of_tagOf? {c : Category} (hdistinct : (c.messages.map (·.name)).Nodup)
    {m : Message} (hm : m ∈ c.messages) {tag : UInt8} (h : c.tagOf? m.name = some tag) :
    (tag, m) ∈ c.tagged := by
  obtain ⟨⟨number, found⟩, hfound, rfl⟩ := Option.map_eq_some_iff.mp h
  have hmem := List.mem_of_find?_eq_some hfound
  have hbeq : (found.name == m.name) = true := by simpa using List.find?_some hfound
  rwa [← List.inj_on_of_nodup_map hdistinct (mem_of_mem_tagged hmem) hm (eq_of_beq hbeq)]

/-! ## Lines -/

/-- A line without the blanks at its ends. -/
def trimmed (line : List Char) : String :=
  String.ofList ((line.dropWhile isBlank).rdropWhile isBlank)

theorem trimmed_indented {c d : Char} {w : List Char} (hc : isBlank c = false)
    (hd : isBlank d = false) (count : Nat) :
    trimmed (List.replicate count ' ' ++ (c :: w ++ [d])) = String.ofList (c :: w ++ [d]) := by
  have hspaces : ∀ x ∈ List.replicate count ' ', isBlank x = true := by
    intro x hx
    rw [List.eq_of_mem_replicate hx]
    decide
  unfold trimmed
  rw [List.dropWhile_append_of_pos hspaces, List.cons_append,
    List.dropWhile_cons_of_neg (by simp [hc]), ← List.cons_append,
    List.rdropWhile_concat_neg _ _ _ (by simp [hd])]

namespace TypeScript

/-! ## Enumerations -/

section

variable {s : Schema} (hwords : s.WordNames) (hdistinct : (s.enums.map (·.name)).Nodup)
  {e : Enumeration} (he : e ∈ s.enums)
include hwords hdistinct he

/-- The lines around the declaration of an enumeration: above are other
    ones and empty lines. -/
theorem lines_around_enumeration :
    ∃ above below,
      schemaLines s =
        above ++ (block (Heading.enumeration.head e.name) (variantLines e) ++ below) ∧
      (∀ line ∈ above, line.Lacks (Heading.enumeration.anchor e.name).toList) ∧
      above ≠ [] ∧ openBlocks 0 above = 0 := by
  obtain ⟨before, after, hsplit, hnew⟩ := exists_split_of_nodup hdistinct he
  have hword : e.WordNames := hwords.enums e he
  have hother {other : Enumeration} (hmem : other ∈ before) :
      other.WordNames ∧ e.name ≠ other.name := by
    obtain ⟨hdeclared, hne⟩ := hnew other (List.mem_append_left _ hmem)
    exact ⟨hwords.enums other hdeclared, hne⟩
  obtain ⟨routines, hlines, _⟩ := enumLines_eq hword
  refine ⟨(before.flatMap fun e => .blank :: enumLines e) ++ [.blank],
    routines ++ ((after.flatMap fun e => .blank :: enumLines e) ++
      s.categories.flatMap fun c => .blank :: categoryLines c),
    by simp [schemaLines, hsplit, hlines], ?_, by simp, ?_⟩
  · have hblank : Line.blank.Lacks (Heading.enumeration.anchor e.name).toList :=
      (Seamless.ofList rfl).absent (Heading.enumeration.seam_infix_anchor e.name)
    rw [List.forall_mem_append, List.forall_mem_singleton]
    refine ⟨?_, hblank⟩
    intro line hmem
    obtain ⟨other, hbefore, hmem⟩ := List.mem_flatMap.mp hmem
    rcases List.mem_cons.mp hmem with rfl | hmem
    · exact hblank
    · obtain ⟨hwords, hne⟩ := hother hbefore
      exact lacks_enumLines hwords hword.name hne line hmem
  · have hclosed : openBlocks 0 (before.flatMap fun e => .blank :: enumLines e) = 0 := by
      apply openBlocks_flatMap
      intro other hbefore depth
      exact closed_enumLines (hother hbefore).1 depth
    rw [openBlocks_append, hclosed]
    rfl

/-- **Extraction from the codec**: the variants of an enumeration with their
    positions. -/
theorem orderedNames_enumeration :
    orderedNames (emit s) (Heading.enumeration.anchor e.name) =
      .ok (e.variants.zipIdx.map fun (variant, index) => s!"{variant}={index}") := by
  have hword : e.WordNames := hwords.enums e he
  obtain ⟨above, below, hlines, habove, hne, hclosed⟩ :=
    lines_around_enumeration hwords hdistinct he
  have htop : Without (Heading.enumeration.anchor e.name).toList [] :=
    ⟨.inl rfl, fun h => Heading.enumeration.anchor_ne_nil e.name (List.infix_nil.mp h)⟩
  have hsource : (emit s).toList = [] ++ (layout (above ++
      (block (Heading.enumeration.head e.name) (variantLines e) ++ below))).toList := by
    rw [emit, hlines, List.nil_append]
  exact orderedNames_block hsource (Heading.enumeration.newline_notMem_anchor hword.name) htop
    habove hne hclosed (declares_variantLines hword)

end

/-! ## Classes -/

theorem toList_idLine (tag : UInt8) :
    (idLine tag).text.toList =
      's' :: ("tatic readonly id = ".toList ++ (toString tag.toNat).toList) ++ [';'] := by
  change (s!"static readonly id = {tag};").toList = _
  rw [String.toList_append, String.toList_append]
  rfl

theorem newline_notMem_idLine (tag : UInt8) : '\n' ∉ (idLine tag).text.toList := by
  have hdigits : '\n' ∉ (toString tag.toNat).toList := fun hmem =>
    isWordChar_ne (isWordChar_of_mem_toString hmem) (by decide) rfl
  rw [toList_idLine, List.mem_append, List.mem_cons, List.mem_append]
  simp only [hdigits]
  decide

theorem trimmed_idLine (tag : UInt8) (count : Nat) :
    trimmed (List.replicate count ' ' ++ (idLine tag).text.toList) =
      s!"static readonly id = {tag};" := by
  rw [toList_idLine, trimmed_indented (by decide) (by decide), ← toList_idLine,
    String.ofList_toList]
  rfl

/-- Lines with the class of a name among them: its head stands above its
    number and in no other line. -/
def ClassAmong (name : String) (tag : UInt8) (lines : List Line) : Prop :=
  ∃ above below,
    lines = above ++ .opening (Heading.message.head name) :: idLine tag :: below ∧
    (∀ line ∈ above, line.Lacks (Heading.message.anchor name).toList) ∧
    ∀ line ∈ idLine tag :: below, line.Lacks (Heading.message.anchor name).toList

namespace ClassAmong

variable {name : String} {tag : UInt8} {lines : List Line}

theorem between {before after : List Line} (h : ClassAmong name tag lines)
    (hbefore : ∀ line ∈ before, line.Lacks (Heading.message.anchor name).toList)
    (hafter : ∀ line ∈ after, line.Lacks (Heading.message.anchor name).toList) :
    ClassAmong name tag (before ++ lines ++ after) := by
  obtain ⟨above, below, rfl, habove, hbelow⟩ := h
  refine ⟨before ++ above, below ++ after, by simp, ?_, ?_⟩
  · exact List.forall_mem_append.mpr ⟨hbefore, habove⟩
  · exact List.forall_mem_append.mpr ⟨hbelow, hafter⟩

theorem flatMap {α : Type} {before after : List α} {entry : α} {lines : α → List Line}
    (h : ClassAmong name tag (lines entry))
    (hothers : ∀ other ∈ before ++ after, ∀ line ∈ lines other,
      line.Lacks (Heading.message.anchor name).toList) :
    ClassAmong name tag ((before ++ entry :: after).flatMap lines) := by
  have hlines : (before ++ entry :: after).flatMap lines =
      before.flatMap lines ++ lines entry ++ after.flatMap lines := by simp
  have hlack {others : List α} (hmem : ∀ other ∈ others, other ∈ before ++ after) :
      ∀ line ∈ others.flatMap lines, line.Lacks (Heading.message.anchor name).toList := by
    intro line hline
    obtain ⟨other, hother, hline⟩ := List.mem_flatMap.mp hline
    exact hothers other (hmem other hother) line hline
  rw [hlines]
  exact h.between (hlack fun _ => List.mem_append_left _) (hlack fun _ => List.mem_append_right _)

/-- **The text around a class**: its head occurs once, and the line below
    gives its number. -/
theorem soleOccurrence (h : ClassAmong name tag lines) (hname : IsWord name) :
    ∃ before line after,
      SoleOccurrence (Heading.message.anchor name).toList (layout lines).toList before
        ('\n' :: (line ++ '\n' :: after)) ∧
      '\n' ∉ line ∧ trimmed line = s!"static readonly id = {tag};" := by
  obtain ⟨above, below, rfl, habove, hbelow⟩ := h
  have hfirst : (Heading.message.anchor name).toList.head? = some 'e' := by
    rw [Heading.toList_anchor]
    rfl
  have hsole := soleOccurrence_layout (.opening (Heading.message.head name)) rfl hfirst
    (by decide) (Heading.message.newline_notMem_anchor hname) habove hbelow
  -- The lines below the head start with the number.
  rw [toList_join_renderLines_cons, List.append_assoc _ ['\n']] at hsole
  refine ⟨_, _, _, hsole, ?_, trimmed_idLine tag _⟩
  apply List.not_mem_append
  · intro hmem
    exact absurd (List.eq_of_mem_replicate hmem) (by decide)
  · exact newline_notMem_idLine tag

end ClassAmong

theorem classAmong_messageLines {m : Message} (h : m.WordNames) (tag : UInt8) :
    ClassAmong m.name tag (messageLines tag m) := by
  obtain ⟨members, hlines, hmembers⟩ := messageLines_eq h tag
  have hseam := Heading.message.seam_infix_anchor m.name
  have hclosing : Line.closing.Lacks (Heading.message.anchor m.name).toList :=
    Seamless.closing.absent hseam
  refine ⟨[], members ++ [.closing], by simp [hlines, block], List.forall_mem_nil _, ?_⟩
  exact List.forall_mem_append.mpr
    ⟨hmembers.lacks hseam, List.forall_mem_singleton.mpr hclosing⟩

theorem classAmong_categoryLines {c : Category} (h : c.WordNames)
    (hdistinct : (c.messages.map (·.name)).Nodup) {tag : UInt8} {m : Message}
    (hmem : (tag, m) ∈ c.tagged) : ClassAmong m.name tag (categoryLines c) := by
  have hword {entry : UInt8 × Message} (hentry : entry ∈ c.tagged) : entry.2.WordNames :=
    h.messages entry.2 (mem_of_mem_tagged hentry)
  have hnames : (c.tagged.map fun entry => entry.2.name).Nodup := by
    have htagged : c.tagged.map Prod.snd = c.messages.take maxTags := map_snd_tagged c.messages
    have hmap : (c.tagged.map fun entry => entry.2.name) =
        (c.tagged.map Prod.snd).map (·.name) := by rw [List.map_map]; rfl
    rw [hmap, htagged]
    exact hdistinct.sublist ((List.take_sublist maxTags c.messages).map _)
  obtain ⟨before, after, hsplit, hothers⟩ := exists_split_of_nodup hnames hmem
  have hclasses : ClassAmong m.name tag
      (c.tagged.flatMap fun entry => messageLines entry.1 entry.2) := by
    rw [hsplit]
    apply ClassAmong.flatMap
    · exact classAmong_messageLines (hword hmem) tag
    · intro entry hentry
      obtain ⟨hdeclared, hne⟩ := hothers entry hentry
      exact lacks_messageLines (hword hmem).name entry.1 (hword hdeclared) hne
  have hclosing : Line.closing.Lacks (Heading.message.anchor m.name).toList :=
    Seamless.closing.absent (Heading.message.seam_infix_anchor m.name)
  have hlines := hclasses.between (List.forall_mem_singleton.mpr (lacks_namespace h))
    (List.forall_mem_append.mpr ⟨lacks_dispatcher h, List.forall_mem_singleton.mpr hclosing⟩)
  unfold categoryLines
  rw [block, ← List.singleton_append, List.append_assoc, ← List.append_assoc]
  exact hlines

theorem classAmong_schemaLines {s : Schema} (hwords : s.WordNames)
    (hdistinct : ((s.categories.flatMap (·.messages)).map (·.name)).Nodup) {c : Category}
    (hc : c ∈ s.categories) {m : Message} (hm : m ∈ c.messages) {tag : UInt8}
    (htag : c.tagOf? m.name = some tag) : ClassAmong m.name tag (schemaLines s) := by
  have hname : IsWord m.name := ((hwords.categories c hc).messages m hm).name
  have hseam := Heading.message.seam_infix_anchor m.name
  have hblank : Line.blank.Lacks (Heading.message.anchor m.name).toList :=
    (Seamless.ofList rfl).absent hseam
  obtain ⟨before, after, hsplit, hinside, hapart⟩ := exists_split_of_nodup_messages hdistinct hc
  have hcategory := classAmong_categoryLines (hwords.categories c hc) hinside
    (Category.mem_tagged_of_tagOf? hinside hm htag)
  have hcategories : ClassAmong m.name tag
      (s.categories.flatMap fun c => .blank :: categoryLines c) := by
    rw [hsplit]
    apply ClassAmong.flatMap
    · simpa using hcategory.between (List.forall_mem_singleton.mpr hblank) (List.forall_mem_nil _)
    · intro other hother
      obtain ⟨hdeclared, hnames⟩ := hapart other hother
      exact List.forall_mem_cons.mpr ⟨hblank,
        lacks_categoryLines hname (hwords.categories other hdeclared) (hnames m hm)⟩
  have henums : ∀ line ∈ s.enums.flatMap fun e => .blank :: enumLines e,
      line.Lacks (Heading.message.anchor m.name).toList := by
    intro line hline
    obtain ⟨e, he, hline⟩ := List.mem_flatMap.mp hline
    rcases List.mem_cons.mp hline with rfl | hline
    · exact hblank
    · exact (interior_enumLines (hwords.enums e he)).lacks hseam line hline
  simpa [schemaLines] using hcategories.between henums (List.forall_mem_nil _)

end TypeScript

/-! ## Numbers of the wire -/

/-- **The codec carries the numbers of the wire.** Let the names of a schema
    be words and those of its enumerations differ. Then the extraction from
    the text of its TypeScript codec lists the variants of every enumeration
    with their positions. If no name of a message occurs twice either, the
    head of the class of every message with a tag occurs exactly once, and
    the line below it gives that tag. -/
theorem typescript_carries_numbers (s : Schema) (hwords : s.WordNames)
    (hdistinct : (s.enums.map (·.name)).Nodup) :
    (∀ e ∈ s.enums,
      orderedNames (TypeScript.emit s) s!"export enum {e.name} \x7b" =
        .ok (e.variants.zipIdx.map fun (variant, index) => s!"{variant}={index}")) ∧
    (((s.categories.flatMap (·.messages)).map (·.name)).Nodup →
      ∀ c ∈ s.categories, ∀ m ∈ c.messages, ∀ tag, c.tagOf? m.name = some tag →
        ∃ before line after,
          SoleOccurrence (s!"export class {m.name} \x7b").toList (TypeScript.emit s).toList before
            ('\n' :: (line ++ '\n' :: after)) ∧
          '\n' ∉ line ∧ trimmed line = s!"static readonly id = {tag};") := by
  constructor
  · intro e he
    exact TypeScript.orderedNames_enumeration hwords hdistinct he
  · intro hmessages c hc m hm tag htag
    have hclass := TypeScript.classAmong_schemaLines hwords hmessages hc hm htag
    exact hclass.soleOccurrence ((hwords.categories c hc).messages m hm).name

/-- A schema with the words of the heads among its names. -/
def shopSchema : Schema where
  enums := [⟨"export", ["enum", "class"]⟩, ⟨"Size", ["S", "M", "export"]⟩]
  categories :=
    [{ name := "Orders"
       messages :=
        [{ name := "enum" },
         { name := "class", fields := [⟨"export", .optional (.enumRef "Size")⟩] }] }]

theorem typescript_carries_numbers_shop :
    orderedNames (TypeScript.emit shopSchema) "export enum Size \x7b" =
        .ok ["S=0", "M=1", "export=2"] ∧
      ∃ before line after,
        SoleOccurrence "export class class \x7b".toList (TypeScript.emit shopSchema).toList before
          ('\n' :: (line ++ '\n' :: after)) ∧
        '\n' ∉ line ∧ trimmed line = "static readonly id = 1;" := by
  have hwords : shopSchema.WordNames := by
    refine ⟨List.forall_mem_cons.mpr ⟨⟨by decide, by decide⟩,
      List.forall_mem_singleton.mpr ⟨by decide, by decide⟩⟩,
      List.forall_mem_singleton.mpr ⟨by decide, ?_⟩⟩
    exact List.forall_mem_cons.mpr ⟨⟨by decide, by decide⟩,
      List.forall_mem_singleton.mpr ⟨by decide, by decide⟩⟩
  obtain ⟨hvariants, hclasses⟩ := typescript_carries_numbers shopSchema hwords (by decide)
  refine ⟨hvariants ⟨"Size", ["S", "M", "export"]⟩ (by simp [shopSchema]), ?_⟩
  exact hclasses (by decide) _ List.mem_cons_self _
    (List.mem_cons_of_mem _ List.mem_cons_self) 1 rfl

end TaggedWire
