import TaggedWire.Emit.TypeScript
import TaggedWire.Proofs.Lines
import TaggedWire.Proofs.Numbering

/-! # The shape of the TypeScript codec

    Two kinds of blocks carry numbers, the declaration of an enumeration
    and the class of a message. If all names of a schema are words, the head
    of such a block occurs in no other line: either the line is free of the
    seam in the first two words of the head, or, where a `let` ends in the
    same letter as `export`, it has no brace. -/

namespace TaggedWire

namespace TypeScript

/-! ## Heads -/

/-- The blocks that carry numbers. -/
inductive Heading where
  /-- The declaration of an enumeration. -/
  | enumeration
  /-- The class of a message. -/
  | message

namespace Heading

/-- The words in front of the name. -/
def words : Heading → String
  | .enumeration => "export enum"
  | .message => "export class"

/-- The first letter of the second word. -/
def initial : Heading → Char
  | .enumeration => 'e'
  | .message => 'c'

/-- The seam between the words. -/
def seam (heading : Heading) : Seam where
  left := 't'
  right := heading.initial
  left_word := by decide
  right_word := by cases heading <;> decide

/-- The head up to the name. -/
def start : Heading → String
  | .enumeration => "export enum "
  | .message => "export class "

/-- The head of the block of a name. -/
def head (heading : Heading) (name : String) : String := heading.start ++ name

/-- The line of the head, without its indentation. -/
def anchor (heading : Heading) (name : String) : String := heading.head name ++ " \x7b"

theorem toList_anchor (heading : Heading) (name : String) :
    (heading.anchor name).toList = headText heading.words.toList name := by
  have hstart : heading.start.toList = heading.words.toList ++ [' '] := by
    cases heading <;> rfl
  rw [anchor, head, String.toList_append, String.toList_append, hstart]
  simp [headText]

theorem newline_notMem_anchor (heading : Heading) {name : String} (h : IsWord name) :
    '\n' ∉ (heading.anchor name).toList := by
  rw [toList_anchor]
  exact newline_notMem_headText (by cases heading <;> decide) h.2

theorem anchor_ne_nil (heading : Heading) (name : String) : (heading.anchor name).toList ≠ [] := by
  rw [toList_anchor]
  exact headText_ne_nil

theorem seam_infix_anchor (heading : Heading) (name : String) :
    heading.seam.chars <:+: (heading.anchor name).toList := by
  have hwords : heading.seam.chars <:+: heading.words.toList := by
    cases heading with
    | enumeration => exact ⟨"expor".toList, "num".toList, rfl⟩
    | message => exact ⟨"expor".toList, "lass".toList, rfl⟩
  rw [toList_anchor, headText, List.append_assoc, List.append_assoc]
  exact hwords.trans (List.prefix_append _ _).isInfix

/-- The head of one name does not hold the head of another. -/
theorem lacks_head (heading : Heading) {name other : String} (hname : IsWord name)
    (hother : IsWord other) (hne : name ≠ other) :
    (Line.opening (heading.head other)).Lacks (heading.anchor name).toList := by
  intro count hinfix
  change _ <:+: _ ++ (heading.anchor other).toList at hinfix
  rw [toList_anchor, toList_anchor] at hinfix
  exact hne (headText_infix_inj (by cases heading <;> decide) hname hother hinfix)

end Heading

/-- The seam in the head of a class. -/
def classSeam : Seam := Heading.message.seam

theorem seamless_deserializeHead (heading : Heading) {result : String}
    (h : Seamless heading.seam result) : Seamless heading.seam (deserializeHead result) :=
  .append (.ofList (by cases heading <;> decide)) h

/-! ## Enumerations -/

/-- The entries in the declaration of an enumeration. -/
def variantLines (e : Enumeration) : List Line :=
  e.variants.zipIdx.map fun (variant, index) => .plain s!"{variant} = {index},"

section

variable {e : Enumeration} (h : e.WordNames)
include h

theorem interior_variantLines (heading : Heading) : Interior heading.seam (variantLines e) := by
  refine .map fun ⟨variant, index⟩ hmem => .plain ?_
  have hvariant : Seamless heading.seam variant :=
    .word (h.variants variant (List.fst_mem_of_mem_zipIdx hmem))
  have hequals : Seamless heading.seam " = " := .ofList (by cases heading <;> decide)
  have hcomma : Seamless heading.seam "," := .ofList (by cases heading <;> decide)
  exact (hvariant.between hequals (.number index)).append hcomma

/-- Every entry declares its variant with its position. -/
theorem declares_variantLines :
    List.Forall₂ Line.Declares (variantLines e)
      (e.variants.zipIdx.map fun (variant, index) => s!"{variant}={index}") := by
  unfold variantLines
  rw [List.forall₂_map_left_iff, List.forall₂_map_right_iff, List.forall₂_same]
  intro ⟨variant, index⟩ hmem
  have hvariant := h.variants variant (List.fst_mem_of_mem_zipIdx hmem)
  refine ⟨_, rfl, ?_⟩
  simpa [toString] using declares_numbered hvariant index

/-- The lines of an enumeration: its declaration, and routines in which no
    head occurs. -/
theorem enumLines_eq :
    ∃ routines, enumLines e =
        block (Heading.enumeration.head e.name) (variantLines e) ++ routines ∧
      ∀ heading : Heading, Interior heading.seam routines := by
  refine ⟨_, rfl, fun heading => ?_⟩
  have hname : Seamless heading.seam e.name := .word h.name
  have hspace : Seamless heading.seam s!"export namespace {e.name}" :=
    .append (.ofList (by cases heading <;> decide)) hname
  -- The routine that writes.
  have hserialize :
      Seamless heading.seam s!"export function serialize(out: number[], value: {e.name})" :=
    .between (.ofList (by cases heading <;> decide)) hname
      (.ofList (by cases heading <;> decide))
  have hpush : Seamless heading.seam "out.push(value);" :=
    .ofList (by cases heading <;> decide)
  have hwriting := Interior.block hserialize (.plain hpush)
  -- The routine that reads, with its three statements.
  have hread : Seamless heading.seam "const value = buf[index.v++];" :=
    .ofList (by cases heading <;> decide)
  have htest : Seamless heading.seam s!"if (value === undefined || value >= {e.size}) " :=
    .between (.ofList (by cases heading <;> decide)) (.number e.size)
      (.ofList (by cases heading <;> decide))
  have hthrow :
      Seamless heading.seam s!"throw new Error(\"Invalid {e.name} index \" + value);" :=
    .between (.ofList (by cases heading <;> decide)) hname
      (.ofList (by cases heading <;> decide))
  have hreturn : Seamless heading.seam s!"return value as {e.name};" :=
    .between (.ofList (by cases heading <;> decide)) hname
      (.ofList (by cases heading <;> decide))
  have hreading := Interior.block (seamless_deserializeHead heading hname)
    (.cons (.plain hread) (.cons (.plain (htest.append hthrow)) (.plain hreturn)))
  exact .block hspace (hwriting.append hreading)

theorem closed_enumLines (depth : Nat) : openBlocks depth (enumLines e) = depth := by
  obtain ⟨routines, hlines, hroutines⟩ := enumLines_eq h
  have hbody := (interior_variantLines h .enumeration).closed (depth + 1)
  rw [hlines, openBlocks_append, openBlocks_block hbody, (hroutines .enumeration).closed]

/-- No line of an enumeration holds the head of another one. -/
theorem lacks_enumLines {name : String} (hname : IsWord name) (hne : name ≠ e.name) :
    ∀ line ∈ enumLines e, line.Lacks (Heading.enumeration.anchor name).toList := by
  obtain ⟨routines, hlines, hroutines⟩ := enumLines_eq h
  have hseam := Heading.enumeration.seam_infix_anchor name
  rw [hlines]
  exact List.forall_mem_append.mpr
    ⟨lacks_block hseam (Heading.enumeration.lacks_head hname h.name hne)
      ((interior_variantLines h .enumeration).lacks hseam),
    (hroutines .enumeration).lacks hseam⟩

/-- No line of an enumeration holds the head of a class. -/
theorem interior_enumLines : Interior classSeam (enumLines e) := by
  obtain ⟨routines, hlines, hroutines⟩ := enumLines_eq h
  rw [hlines]
  refine .append (.block ?_ (interior_variantLines h .message)) (hroutines .message)
  exact .append (.ofList (by decide)) (.word h.name)

end

/-! ## Messages -/

theorem seamless_routine (kind : Primitive) : Seamless classSeam (routine kind) := by
  cases kind <;> exact .ofList (by decide)

theorem seamless_signature {type : FieldType} (h : type.WordNames) :
    Seamless classSeam (signature type) := by
  induction type with
  | primitive kind => cases kind <;> exact .ofList (by decide)
  | optional inner ih => exact .append (ih h) (.ofList (by decide))
  | enumRef name => exact .word h

theorem seamless_serialize {type : FieldType} (h : type.WordNames) {expr : String}
    (hexpr : Seamless classSeam expr) : Seamless classSeam (serialize type expr) := by
  induction type with
  | primitive kind =>
    have hroutine : Seamless classSeam s!"type_{routine kind}_serialize(out, " :=
      .between (.ofList (by decide)) (seamless_routine kind) (.ofList (by decide))
    exact hroutine.between hexpr (.ofList (by decide))
  | optional inner ih =>
    have htest :
        Seamless classSeam s!"if ({expr} === null) out.push(0); else \x7b out.push(1); " :=
      .between (.ofList (by decide)) hexpr (.ofList (by decide))
    exact htest.between (ih h) (.ofList (by decide))
  | enumRef name =>
    have hroutine : Seamless classSeam s!"{name}.serialize(out, " :=
      .append (.word h) (.ofList (by decide))
    exact hroutine.between hexpr (.ofList (by decide))

theorem seamless_deserialize {type : FieldType} (h : type.WordNames) {target : String}
    (htarget : Seamless classSeam target) : Seamless classSeam (deserialize type target) := by
  induction type with
  | primitive kind =>
    have hassigned : Seamless classSeam s!"{target} = type_" :=
      htarget.append (.ofList (by decide))
    exact hassigned.between (seamless_routine kind) (.ofList (by decide))
  | optional inner ih =>
    have hthen :
        Seamless classSeam s!"if (buf[index.v++] > 0) \x7b {deserialize inner target} \x7d" :=
      .between (.ofList (by decide)) (ih h) (.ofList (by decide))
    have helse : Seamless classSeam s!" else \x7b {target} = null; \x7d" :=
      .between (.ofList (by decide)) htarget (.ofList (by decide))
    exact hthen.append helse
  | enumRef name =>
    have hassigned : Seamless classSeam s!"{target} = " := htarget.append (.ofList (by decide))
    exact hassigned.between (.word h) (.ofList (by decide))

theorem seamless_typedName {f : Field} (hname : IsWord f.name) (htype : f.type.WordNames) :
    Seamless classSeam (typedName f) :=
  .between (.word hname) (.ofList (by decide)) (seamless_signature htype)

/-- The line with the number of a class. -/
def idLine (tag : UInt8) : Line := .plain s!"static readonly id = {tag};"

section

variable {m : Message} (h : m.WordNames)
include h

/-- The class of a message: its head, its number, and lines in which no head
    of a class occurs. -/
theorem messageLines_eq (tag : UInt8) :
    ∃ members, messageLines tag m =
        block (Heading.message.head m.name) (idLine tag :: members) ∧
      Interior classSeam (idLine tag :: members) := by
  have htyped : ∀ f ∈ m.fields, Seamless classSeam (typedName f) :=
    fun f hf => seamless_typedName (h.fields f hf).1 (h.fields f hf).2
  have hthis : ∀ f ∈ m.fields, Seamless classSeam s!"this.{f.name}" :=
    fun f hf => .append (.ofList (by decide)) (.word (h.fields f hf).1)
  -- The number and the fields.
  have hid : Seamless classSeam s!"static readonly id = {tag};" :=
    .between (.ofList (by decide)) (.number tag.toNat) (.ofList (by decide))
  have hfields : Interior classSeam (m.fields.map fun f => .plain s!"{typedName f};") :=
    .map fun f hf => .plain ((htyped f hf).append (.ofList (by decide)))
  -- The constructor.
  have hparameters : Seamless classSeam (", ".intercalate (m.fields.map typedName)) :=
    .intercalate (.ofList (by decide)) (List.forall_mem_map.mpr htyped)
  have hconstructor :
      Seamless classSeam ("constructor(" ++ ", ".intercalate (m.fields.map typedName) ++ ")") :=
    .between (.ofList (by decide)) hparameters (.ofList (by decide))
  have hassigned :
      Interior classSeam (m.fields.map fun f => .plain s!"this.{f.name} = {f.name};") := by
    refine .map fun f hf => .plain ?_
    have hequals : Seamless classSeam s!"this.{f.name} = " :=
      (hthis f hf).append (.ofList (by decide))
    exact hequals.between (.word (h.fields f hf).1) (.ofList (by decide))
  -- The routine that writes.
  have hserialize : Seamless classSeam "serialize(): Uint8Array" := .ofList (by decide)
  have hout : Seamless classSeam s!"const out: number[] = [{m.name}.id];" :=
    .between (.ofList (by decide)) (.word h.name) (.ofList (by decide))
  have hwritten :
      Interior classSeam (m.fields.map fun f => .plain (serialize f.type s!"this.{f.name}")) :=
    .map fun f hf => .plain (seamless_serialize (h.fields f hf).2 (hthis f hf))
  have hreturn : Seamless classSeam "return new Uint8Array(out);" := .ofList (by decide)
  have hnumbered := Interior.cons (.plain hid) hfields
  have hbuilding := Interior.block hconstructor hassigned
  have hwriting := Interior.block hserialize
    (.append (.cons (.plain hout) hwritten) (.plain hreturn))
  exact ⟨_, rfl, (hnumbered.append hbuilding).append hwriting⟩

end

/-! ## Categories -/

theorem brace_notMem_word {name : String} (h : IsWord name) : '{' ∉ name.toList :=
  fun hmem => isWordChar_ne (h.2 _ hmem) (by decide) rfl

theorem brace_notMem_signature {type : FieldType} (h : type.WordNames) :
    '{' ∉ (signature type).toList := by
  induction type with
  | primitive kind => cases kind <;> decide
  | optional inner ih =>
    rw [signature, String.toList_append]
    exact List.not_mem_append (ih h) (by decide)
  | enumRef name => exact brace_notMem_word h

section

variable {name : String}

/-- A variable is declared without a brace. -/
theorem lacks_let {f : Field} (hname : IsWord f.name) (htype : f.type.WordNames) :
    (Line.plain s!"let {typedName f};").Lacks (Heading.message.anchor name).toList := by
  have hbrace : '{' ∈ (Heading.message.anchor name).toList := by
    rw [Heading.toList_anchor, headText]
    exact List.mem_append_right _ List.mem_cons_self
  -- The seam does not help here: a name may follow `let` as `class` follows `export`.
  apply Line.lacks_of_notMem hbrace (by decide)
  have hfield := brace_notMem_word hname
  have hsignature := brace_notMem_signature htype
  simp [Line.text, typedName, toString, hfield, hsignature]

theorem lacks_deserializeCase (tag : UInt8) {m : Message} (h : m.WordNames) :
    ∀ line ∈ deserializeCase tag m, line.Lacks (Heading.message.anchor name).toList := by
  have hseam := Heading.message.seam_infix_anchor name
  have hlacks {text : String} (htext : Seamless classSeam text) :
      (Line.plain text).Lacks (Heading.message.anchor name).toList := htext.absent hseam
  apply lacks_block hseam
  · have hhead : Seamless classSeam s!"case {tag}:" :=
      .between (.ofList (by decide)) (.number tag.toNat) (.ofList (by decide))
    exact (hhead.append .opening).absent hseam
  · rw [List.forall_mem_append]
    constructor
    · intro line hline
      obtain ⟨f, hf, hline⟩ := List.mem_flatMap.mp hline
      obtain ⟨hname, htype⟩ := h.fields f hf
      rcases List.mem_pair.mp hline with rfl | rfl
      · exact lacks_let hname htype
      · exact hlacks (seamless_deserialize htype (.word hname))
    · rw [List.forall_mem_singleton]
      have hreturn : Seamless classSeam s!"return new {m.name}(" :=
        .between (.ofList (by decide)) (.word h.name) (.ofList (by decide))
      have harguments : Seamless classSeam (", ".intercalate (m.fields.map (·.name))) :=
        .intercalate (.ofList (by decide))
          (List.forall_mem_map.mpr fun f hf => .word (h.fields f hf).1)
      exact hlacks (hreturn.between harguments (.ofList (by decide)))

/-- The routine that reads the messages of a category. -/
theorem lacks_dispatcher {c : Category} (h : c.WordNames) :
    ∀ line ∈ block (deserializeHead (" | ".intercalate (c.messages.map (·.name))))
        (.plain "const tag = buf[index.v++];" ::
          block "switch (tag)"
            ((c.tagged.flatMap fun (tag, m) => deserializeCase tag m) ++
              [.plain s!"default: throw new Error(\"Unrecognized {c.name} tag \" + tag);"])),
      line.Lacks (Heading.message.anchor name).toList := by
  have hseam := Heading.message.seam_infix_anchor name
  have hunion : Seamless classSeam (" | ".intercalate (c.messages.map (·.name))) :=
    .intercalate (.ofList (by decide))
      (List.forall_mem_map.mpr fun m hm => .word (h.messages m hm).name)
  have hread : Seamless classSeam "const tag = buf[index.v++];" := .ofList (by decide)
  have hswitch : Seamless classSeam "switch (tag)" := .ofList (by decide)
  have hdefault :
      Seamless classSeam s!"default: throw new Error(\"Unrecognized {c.name} tag \" + tag);" :=
    .between (.ofList (by decide)) (.word h.name) (.ofList (by decide))
  apply lacks_block hseam
  · exact ((seamless_deserializeHead .message hunion).append .opening).absent hseam
  rw [List.forall_mem_cons]
  constructor
  · exact hread.absent hseam
  apply lacks_block hseam
  · exact (hswitch.append .opening).absent hseam
  rw [List.forall_mem_append, List.forall_mem_singleton]
  constructor
  · intro line hline
    obtain ⟨⟨tag, m⟩, hmem, hline⟩ := List.mem_flatMap.mp hline
    exact lacks_deserializeCase tag (h.messages m (mem_of_mem_tagged hmem)) line hline
  · exact hdefault.absent hseam

theorem lacks_namespace {c : Category} (h : c.WordNames) :
    (Line.opening s!"export namespace {c.name}").Lacks (Heading.message.anchor name).toList := by
  have hhead : Seamless classSeam s!"export namespace {c.name}" :=
    .append (.ofList (by decide)) (.word h.name)
  exact (hhead.append .opening).absent (Heading.message.seam_infix_anchor name)

/-- No line of a class holds the head of another one. -/
theorem lacks_messageLines (hname : IsWord name) (tag : UInt8) {m : Message} (h : m.WordNames)
    (hne : name ≠ m.name) :
    ∀ line ∈ messageLines tag m, line.Lacks (Heading.message.anchor name).toList := by
  obtain ⟨members, hlines, hmembers⟩ := messageLines_eq h tag
  have hseam := Heading.message.seam_infix_anchor name
  rw [hlines]
  exact lacks_block hseam (Heading.message.lacks_head hname h.name hne) (hmembers.lacks hseam)

/-- A category holds the heads of its own classes only. -/
theorem lacks_categoryLines (hname : IsWord name) {c : Category} (h : c.WordNames)
    (hne : ∀ m ∈ c.messages, name ≠ m.name) :
    ∀ line ∈ categoryLines c, line.Lacks (Heading.message.anchor name).toList := by
  apply lacks_block (Heading.message.seam_infix_anchor name) (lacks_namespace h)
  rw [List.forall_mem_append]
  constructor
  · intro line hline
    obtain ⟨⟨tag, m⟩, hmem, hline⟩ := List.mem_flatMap.mp hline
    have hm := mem_of_mem_tagged hmem
    exact lacks_messageLines hname tag (h.messages m hm) (hne m hm) line hline
  · exact lacks_dispatcher h

end

end TypeScript

end TaggedWire
