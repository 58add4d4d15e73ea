import TaggedWire.Emit.Rust
import TaggedWire.Emit.TypeScript
import TaggedWire.Proofs.Numbering
import TaggedWire.Proofs.TidyLines

/-! # Generated text is nested and indented

    If all names of a schema are words, every line of its codec is a phrase,
    in either language and however deep the optionals of a field go: an
    optional nests braces inside one line, which the layout never sees. The
    lines of a declaration are tidy, so the text of a codec is well laid, no
    block is closed where none is open, and none is open between two
    declarations (`generated_text_well_laid`). -/

namespace TaggedWire

/-! ## Declaration by declaration -/

/-- The lines of each enumeration, and then those of each category. -/
def sections (enumLines : Enumeration → List Line) (categoryLines : Category → List Line)
    (s : Schema) : List (List Line) :=
  (s.enums.map fun e => .blank :: enumLines e) ++
    s.categories.map fun c => .blank :: categoryLines c

/-- A text that was written section by section: it is well laid, no block is
    closed where none is open, and none is open between two sections. -/
structure WrittenIn (sections : List (List Line)) (text : String) : Prop where
  text_eq : text = layout sections.flatten
  wellLaid : WellLaid text.toList
  closing : ∀ above below, sections.flatten = above ++ .closing :: below →
    0 < openBlocks 0 above
  between : ∀ done rest, sections = done ++ rest → openBlocks 0 done.flatten = 0

theorem writtenIn_of_tidy {sections : List (List Line)} (h : ∀ lines ∈ sections, Tidy lines) :
    WrittenIn sections (layout sections.flatten) := by
  have htidy : ∀ chosen ⊆ sections, Tidy chosen.flatten := by
    intro chosen hchosen
    rw [← List.flatMap_id]
    exact .flatMap fun lines hlines => h lines (hchosen hlines)
  have hall := htidy sections (List.Subset.refl _)
  refine ⟨rfl, wellLaid_layout hall, ?_, ?_⟩
  · intro above below hsplit
    have hclosed := hall.closed 0
    rw [hsplit] at hclosed
    exact (depthAfter?_above hclosed).2 rfl
  · intro done rest hsplit
    have hdone : done ⊆ sections := by
      rw [hsplit]
      exact List.subset_append_left done rest
    exact openBlocks_of_depthAfter? ((htidy done hdone).closed 0)

/-- Every section is tidy if every declaration is. -/
theorem writtenIn_sections {enumLines : Enumeration → List Line}
    {categoryLines : Category → List Line} {s : Schema}
    (henums : ∀ e ∈ s.enums, Tidy (enumLines e))
    (hcategories : ∀ c ∈ s.categories, Tidy (categoryLines c)) :
    WrittenIn (sections enumLines categoryLines s)
      (layout (sections enumLines categoryLines s).flatten) := by
  apply writtenIn_of_tidy
  intro lines hlines
  rcases List.mem_append.mp hlines with hlines | hlines
  · obtain ⟨e, he, rfl⟩ := List.mem_map.mp hlines
    exact .cons .blank (henums e he)
  · obtain ⟨c, hc, rfl⟩ := List.mem_map.mp hlines
    exact .cons .blank (hcategories c hc)

/-! ## Rust -/

namespace Rust

/-! ### Fragments -/

theorem atom_routine (kind : Primitive) : Atom (routine kind) := by
  cases kind <;> exact .word (by decide)

theorem phrase_signature {type : FieldType} (h : type.WordNames) : Phrase (signature type) := by
  induction type with
  | primitive kind =>
    intro begun around
    cases kind <;> exact .ofList rfl
  | optional inner ih =>
    have hhead : Phrase "Option<" := fun _ _ => .ofList rfl
    have hend : Filling ">" := fun _ => .ofList rfl
    exact (hhead.append (ih h).filling).append hend
  | enumRef name => exact (Atom.word h).phrase

theorem phrase_serialize (type : FieldType) {expr : String} (h : Atom expr) :
    Phrase (serialize type expr) := by
  induction type generalizing expr with
  | primitive kind =>
    have htype : Phrase "type_" := fun _ _ => .ofList rfl
    have hcall : Entering .parenthesis "_serialize(out, " := fun _ => .ofList rfl
    have hend : Leaving .parenthesis ");" := fun _ => .ofList rfl
    have hroutine := htype.append (atom_routine kind).filling
    exact (hroutine.entering hcall).around h.filling hend
  | optional inner ih =>
    -- The value inside stands in braces of its own.
    have htmp : Atom "tmp" := .word (by decide)
    have hlet : Phrase "if let Some(tmp) = " := fun _ _ => .ofList rfl
    have hthen : Entering .brace " \x7b out.push(1); " := fun _ => .ofList rfl
    have helse : Leaving .brace " \x7d else \x7b out.push(0); \x7d" := fun _ => .ofList rfl
    have htest := hlet.append h.filling
    exact (htest.entering hthen).around (ih htmp).filling helse
  | enumRef name =>
    have hcall : Filling ".serialize(out);" := fun _ => .ofList rfl
    exact h.phrase.append hcall

theorem phrase_deserializeExpr (flavor : Flavor) {type : FieldType} (h : type.WordNames) :
    Phrase (deserializeExpr flavor type) := by
  induction type with
  | primitive kind =>
    have htype : Phrase "type_" := fun _ _ => .ofList rfl
    cases flavor <;>
      exact (htype.append (atom_routine kind).filling).append fun _ => .ofList rfl
  | enumRef name =>
    cases flavor <;> exact (Atom.word h).phrase.append fun _ => .ofList rfl
  | optional inner ih =>
    intro begun around
    cases flavor with
    | cursor =>
      have hbyte : Opening .brace
          "\x7b let present = *buf.get(*index).ok_or(())? > 0; *index += 1; " :=
        fun _ _ => .ofList rfl
      have hthen : Reads ⟨true, false, .brace :: around⟩ "if present \x7b Some("
          ⟨true, false, .parenthesis :: .brace :: .brace :: around⟩ := .ofList rfl
      have helse : Reads ⟨true, false, .parenthesis :: .brace :: .brace :: around⟩
          ") \x7d else \x7b None \x7d \x7d" ⟨true, false, around⟩ := .ofList rfl
      have hsome := hthen.append ((ih h).filling _)
      exact (hbyte begun around).append (hsome.append helse)
    | async =>
      have hthen : Reads ⟨begun, false, around⟩ "if buf.next().await.ok_or(())? > 0 \x7b Some("
          ⟨true, false, .parenthesis :: .brace :: around⟩ := .ofList rfl
      have hend : Reads ⟨true, false, .parenthesis :: .brace :: around⟩ ") \x7d"
          ⟨true, false, around⟩ := .ofList rfl
      have helse : Filling " else \x7b None \x7d" := fun _ => .ofList rfl
      have hsome := hthen.append ((ih h).filling _)
      exact (hsome.append hend).append (helse around)

theorem phrase_deserialize (flavor : Flavor) {f : Field} (hname : IsWord f.name)
    (htype : f.type.WordNames) : Phrase (deserialize flavor f.type f.name) := by
  have hlet : Phrase "let " := fun _ _ => .ofList rfl
  have hequals : Filling " = " := fun _ => .ofList rfl
  have hend : Filling ";" := fun _ => .ofList rfl
  have hassigned := (hlet.append (Atom.word hname).filling).append hequals
  exact (hassigned.append (phrase_deserializeExpr flavor htype).filling).append hend

theorem tidy_readTag (flavor : Flavor) : Tidy (readTag flavor) := by
  cases flavor with
  | cursor => exact .cons (.plain fun _ _ => .ofList rfl) (.plain fun _ _ => .ofList rfl)
  | async => exact .plain fun _ _ => .ofList rfl

theorem phrase_deserializeHead (flavor : Flavor) : Phrase (deserializeHead flavor) := by
  intro begun around
  cases flavor <;> exact .ofList rfl

/-- A routine that reads a byte and chooses among arms by it. -/
theorem tidy_chooser (flavor : Flavor) {arms : List Line} (h : Tidy arms) :
    Tidy (block (deserializeHead flavor)
      (readTag flavor ++ block "match tag" (arms ++ [otherwiseFails]))) := by
  have hmatch : Phrase "match tag" := fun _ _ => .ofList rfl
  have hfails : Tidy [otherwiseFails] := .plain fun _ _ => .ofList rfl
  exact .block (phrase_deserializeHead flavor)
    ((tidy_readTag flavor).append (.block hmatch (h.append hfails)))

/-! ### Declarations -/

theorem tidy_enumLines (flavor : Flavor) {e : Enumeration} (h : e.WordNames) :
    Tidy (enumLines flavor e) := by
  have hvariant : ∀ {entry : String × Nat}, entry ∈ e.variants.zipIdx → Atom entry.1 :=
    fun hmem => .word (h.variants _ (List.fst_mem_of_mem_zipIdx hmem))
  have hself : Phrase "Self::" := fun _ _ => .ofList rfl
  have harrow : Filling " => " := fun _ => .ofList rfl
  have hcomma : Filling "," := fun _ => .ofList rfl
  have hdeclared : Tidy (e.variants.map fun variant => Line.plain s!"{variant},") :=
    .map fun variant hmem => .plain ((Atom.word (h.variants variant hmem)).phrase.append hcomma)
  have hnumbers : Tidy (e.variants.zipIdx.map fun entry =>
      Line.plain s!"Self::{entry.1} => {entry.2},") := by
    refine .map fun entry hmem => .plain ?_
    have hpattern := (hself.append (hvariant hmem).filling).append harrow
    exact (hpattern.append (Atom.number entry.2).filling).append hcomma
  have harms : Tidy (e.variants.zipIdx.map fun entry =>
      Line.plain s!"{entry.2} => Ok(Self::{entry.1}),") := by
    refine .map fun entry hmem => .plain ?_
    have hok : Entering .parenthesis " => Ok(Self::" := fun _ => .ofList rfl
    have hend : Leaving .parenthesis ")," := fun _ => .ofList rfl
    exact ((Atom.number entry.2).phrase.entering hok).around (hvariant hmem).filling hend
  have hname : Atom e.name := .word h.name
  have hattributes : Phrase "#[derive(Debug, Clone, Copy, PartialEq, Eq, Hash)]" :=
    fun _ _ => .ofList rfl
  have hpub : Phrase "pub enum " := fun _ _ => .ofList rfl
  have himpl : Phrase "impl " := fun _ _ => .ofList rfl
  have hmatch : Phrase "match self" := fun _ _ => .ofList rfl
  have hvalOf : Phrase "pub fn val_of(&self) -> u8" := fun _ _ => .ofList rfl
  have hserialize : Phrase "pub fn serialize(&self, out: &mut Vec<u8>)" := fun _ _ => .ofList rfl
  have hpush : Phrase "out.push(self.val_of());" := fun _ _ => .ofList rfl
  -- The declaration, and behind it the number of a variant, writing it, and
  -- reading it back.
  have hdeclaration :=
    (Tidy.plain hattributes).append (.block (hpub.append hname.filling) hdeclared)
  have hnumbering := Tidy.block hvalOf (.block hmatch hnumbers)
  have hwriting := Tidy.block hserialize (.plain hpush)
  have hroutines := ((hnumbering.append .blank).append hwriting).append .blank
  exact (hdeclaration.append .blank).append
    (.block (himpl.append hname.filling) (hroutines.append (tidy_chooser flavor harms)))

section

variable {m : Message}

/-- A message without fields is a bare name; with fields, a name and a list in braces. -/
theorem phrase_variantDeclaration (h : m.WordNames) : Phrase (variantDeclaration m) := by
  have hname : Atom m.name := .word h.name
  unfold variantDeclaration
  split
  · have hcomma : Filling "," := fun _ => .ofList rfl
    exact hname.phrase.append hcomma
  · have hfields : Filling
        (", ".intercalate (m.fields.map fun f => s!"{f.name}: {signature f.type}")) := by
      refine .intercalate (fun _ => .ofList rfl) (List.forall_mem_map.mpr fun f hf => ?_)
      obtain ⟨hfield, htype⟩ := h.fields f hf
      have hcolon : Filling ": " := fun _ => .ofList rfl
      exact ((Atom.word hfield).filling.append hcolon).append (phrase_signature htype).filling
    have hopen : Entering .brace " \x7b " := fun _ => .ofList rfl
    have hclose : Leaving .brace " \x7d," := fun _ => .ofList rfl
    exact (hname.phrase.entering hopen).around hfields hclose

theorem phrase_variantPattern (h : m.WordNames) : Phrase (variantPattern m) := by
  have hself : Phrase "Self::" := fun _ _ => .ofList rfl
  have hname : Atom m.name := .word h.name
  unfold variantPattern
  split
  · exact hself.append hname.filling
  · have hfields : Filling (", ".intercalate (m.fields.map (·.name))) :=
      .intercalate (fun _ => .ofList rfl)
        (List.forall_mem_map.mpr fun f hf => (Atom.word (h.fields f hf).1).filling)
    have hopen : Entering .brace " \x7b " := fun _ => .ofList rfl
    have hclose : Leaving .brace " \x7d" := fun _ => .ofList rfl
    exact ((hself.append hname.filling).entering hopen).around hfields hclose

theorem tidy_serializeArm (tag : UInt8) (h : m.WordNames) : Tidy (serializeArm tag m) := by
  have hpush : Phrase s!"out.push({tag});" := by
    have hcall : Opening .parenthesis "out.push(" := fun _ _ => .ofList rfl
    have hend : Leaving .parenthesis ");" := fun _ => .ofList rfl
    exact hcall.around (Atom.number tag.toNat).filling hend
  have hfields : Tidy (m.fields.map fun f => Line.plain (serialize f.type f.name)) :=
    .map fun f hf => .plain (phrase_serialize f.type (.word (h.fields f hf).1))
  have harrow : Filling " =>" := fun _ => .ofList rfl
  exact .block ((phrase_variantPattern h).append harrow) (.cons (.plain hpush) hfields)

theorem tidy_deserializeArm (flavor : Flavor) (tag : UInt8) (h : m.WordNames) :
    Tidy (deserializeArm flavor tag m) := by
  have htag : Atom (toString tag.toNat) := .number tag.toNat
  unfold deserializeArm
  split
  · have hok : Entering .parenthesis " => Ok(Self::" := fun _ => .ofList rfl
    have hend : Leaving .parenthesis ")," := fun _ => .ofList rfl
    exact .plain ((htag.phrase.entering hok).around (Atom.word h.name).filling hend)
  · have hfields : Tidy (m.fields.map fun f => Line.plain (deserialize flavor f.type f.name)) :=
      .map fun f hf => .plain (phrase_deserialize flavor (h.fields f hf).1 (h.fields f hf).2)
    have hresult : Phrase s!"Ok({variantPattern m})" := by
      have hok : Opening .parenthesis "Ok(" := fun _ _ => .ofList rfl
      have hend : Leaving .parenthesis ")" := fun _ => .ofList rfl
      exact hok.around (phrase_variantPattern h).filling hend
    have harrow : Filling " =>" := fun _ => .ofList rfl
    exact .block (htag.phrase.append harrow) (hfields.append (.plain hresult))

end

theorem tidy_categoryLines (flavor : Flavor) {c : Category} (h : c.WordNames) :
    Tidy (categoryLines flavor c) := by
  -- Only messages with a tag have arms, and all of them are declared.
  have hmessage : ∀ {entry : UInt8 × Message}, entry ∈ c.tagged → entry.2.WordNames :=
    fun hmem => h.messages _ (mem_of_mem_tagged hmem)
  have hdeclared : Tidy (c.messages.map fun m => Line.plain (variantDeclaration m)) :=
    .map fun m hm => .plain (phrase_variantDeclaration (h.messages m hm))
  have hwriting : Tidy (c.tagged.flatMap fun entry => serializeArm entry.1 entry.2) :=
    .flatMap fun entry hmem => tidy_serializeArm entry.1 (hmessage hmem)
  have hreading : Tidy (c.tagged.flatMap fun entry => deserializeArm flavor entry.1 entry.2) :=
    .flatMap fun entry hmem => tidy_deserializeArm flavor entry.1 (hmessage hmem)
  have hname : Atom c.name := .word h.name
  have hattributes : Phrase "#[derive(Debug, Clone, PartialEq)]" := fun _ _ => .ofList rfl
  have hpub : Phrase "pub enum " := fun _ _ => .ofList rfl
  have himpl : Phrase "impl " := fun _ _ => .ofList rfl
  have hserialize : Phrase "pub fn serialize(&self, out: &mut Vec<u8>)" := fun _ _ => .ofList rfl
  have hmatch : Phrase "match self" := fun _ _ => .ofList rfl
  have hdeclaration :=
    (Tidy.plain hattributes).append (.block (hpub.append hname.filling) hdeclared)
  have hroutine := Tidy.block hserialize (.block hmatch hwriting)
  exact (hdeclaration.append .blank).append (.block (himpl.append hname.filling)
    ((hroutine.append .blank).append (tidy_chooser flavor hreading)))

end Rust

/-! ## TypeScript -/

namespace TypeScript

/-! ### Fragments -/

theorem atom_routine (kind : Primitive) : Atom (routine kind) := by
  cases kind <;> exact .word (by decide)

theorem phrase_signature {type : FieldType} (h : type.WordNames) : Phrase (signature type) := by
  induction type with
  | primitive kind =>
    intro begun around
    cases kind <;> exact .ofList rfl
  | optional inner ih =>
    have hnull : Filling " | null" := fun _ => .ofList rfl
    exact (ih h).append hnull
  | enumRef name => exact (Atom.word h).phrase

/-- The value may be a name or a member of the object. -/
theorem phrase_serialize {type : FieldType} (htype : type.WordNames) {expr : String}
    (h : Phrase expr) : Phrase (serialize type expr) := by
  induction type with
  | primitive kind =>
    have htype : Phrase "type_" := fun _ _ => .ofList rfl
    have hcall : Entering .parenthesis "_serialize(out, " := fun _ => .ofList rfl
    have hend : Leaving .parenthesis ");" := fun _ => .ofList rfl
    have hroutine := htype.append (atom_routine kind).filling
    exact (hroutine.entering hcall).around h.filling hend
  | optional inner ih =>
    -- The test closes its parenthesis where the other branch opens a brace.
    have htest : Opening .brace
        (s!"if ({expr} === null) out.push(0); else \x7b out.push(1); ") := by
      intro begun around
      have hif : Opening .parenthesis "if (" := fun _ _ => .ofList rfl
      have helse : Reads ⟨true, false, .parenthesis :: around⟩
          " === null) out.push(0); else \x7b out.push(1); " ⟨true, false, .brace :: around⟩ :=
        .ofList rfl
      exact ((hif begun around).append (h.filling _)).append helse
    have hend : Leaving .brace " \x7d" := fun _ => .ofList rfl
    exact htest.around (ih htype).filling hend
  | enumRef name =>
    have hcall : Entering .parenthesis ".serialize(out, " := fun _ => .ofList rfl
    have hend : Leaving .parenthesis ");" := fun _ => .ofList rfl
    exact ((Atom.word htype).phrase.entering hcall).around h.filling hend

theorem phrase_deserialize {type : FieldType} (htype : type.WordNames) {target : String}
    (h : Atom target) : Phrase (deserialize type target) := by
  induction type with
  | primitive kind =>
    have hread : Filling " = type_" := fun _ => .ofList rfl
    have hcall : Filling "_deserialize(buf, index);" := fun _ => .ofList rfl
    have hroutine := (h.phrase.append hread).append (atom_routine kind).filling
    exact hroutine.append hcall
  | optional inner ih =>
    -- Either branch assigns, each in its own braces.
    have hif : Opening .brace "if (buf[index.v++] > 0) \x7b " := fun _ _ => .ofList rfl
    have hend : Leaving .brace " \x7d" := fun _ => .ofList rfl
    have helse : Entering .brace " else \x7b " := fun _ => .ofList rfl
    have hnull : Leaving .brace " = null; \x7d" := fun _ => .ofList rfl
    have hthere := hif.around (ih htype).filling hend
    exact hthere.append (helse.around h.filling hnull)
  | enumRef name =>
    have hequals : Filling " = " := fun _ => .ofList rfl
    have hcall : Filling ".deserialize(buf, index);" := fun _ => .ofList rfl
    have hassigned := (h.phrase.append hequals).append (Atom.word htype).filling
    exact hassigned.append hcall

theorem phrase_deserializeHead {result : String} (h : Filling result) :
    Phrase (deserializeHead result) := by
  have hhead : Phrase "export function deserialize(buf: Uint8Array, index: Box<number>): " :=
    fun _ _ => .ofList rfl
  exact hhead.append h

theorem phrase_typedName {f : Field} (hname : IsWord f.name) (htype : f.type.WordNames) :
    Phrase (typedName f) := by
  have hcolon : Filling ": " := fun _ => .ofList rfl
  exact ((Atom.word hname).phrase.append hcolon).append (phrase_signature htype).filling

/-! ### Declarations -/

theorem tidy_enumLines {e : Enumeration} (h : e.WordNames) : Tidy (enumLines e) := by
  have hname : Atom e.name := .word h.name
  have henum : Phrase "export enum " := fun _ _ => .ofList rfl
  have hspace : Phrase "export namespace " := fun _ _ => .ofList rfl
  have hnumbers : Tidy (e.variants.zipIdx.map fun entry =>
      Line.plain s!"{entry.1} = {entry.2},") := by
    refine .map fun entry hmem => .plain ?_
    have hvariant : Atom entry.1 := .word (h.variants _ (List.fst_mem_of_mem_zipIdx hmem))
    have hequals : Filling " = " := fun _ => .ofList rfl
    have hcomma : Filling "," := fun _ => .ofList rfl
    have hassigned := (hvariant.phrase.append hequals).append (Atom.number entry.2).filling
    exact hassigned.append hcomma
  have hwriting : Phrase s!"export function serialize(out: number[], value: {e.name})" := by
    have hhead : Opening .parenthesis "export function serialize(out: number[], value: " :=
      fun _ _ => .ofList rfl
    have hend : Leaving .parenthesis ")" := fun _ => .ofList rfl
    exact hhead.around hname.filling hend
  have hread : Phrase "const value = buf[index.v++];" := fun _ _ => .ofList rfl
  have htest : Phrase s!"if (value === undefined || value >= {e.size}) " := by
    have hif : Opening .parenthesis "if (value === undefined || value >= " :=
      fun _ _ => .ofList rfl
    have hend : Leaving .parenthesis ") " := fun _ => .ofList rfl
    exact hif.around (Atom.number e.size).filling hend
  -- The message of the error is quoted, with the name inside the quotes.
  have hthrow : Filling s!"throw new Error(\"Invalid {e.name} index \" + value);" := by
    intro around
    have hquote : Reads ⟨true, false, around⟩ "throw new Error(\"Invalid "
        ⟨true, true, .parenthesis :: around⟩ := .ofList rfl
    have hend : Reads ⟨true, true, .parenthesis :: around⟩ " index \" + value);"
        ⟨true, false, around⟩ := .ofList rfl
    exact (hquote.append (hname true true _)).append hend
  have hreturn : Phrase s!"return value as {e.name};" := by
    have hvalue : Phrase "return value as " := fun _ _ => .ofList rfl
    have hend : Filling ";" := fun _ => .ofList rfl
    exact (hvalue.append hname.filling).append hend
  have hpush : Phrase "out.push(value);" := fun _ _ => .ofList rfl
  have hdeclaration := Tidy.block (henum.append hname.filling) hnumbers
  have hserialize := Tidy.block hwriting (.plain hpush)
  have hdeserialize := Tidy.block (phrase_deserializeHead hname.filling)
    (.cons (.plain hread) (.cons (.plain (htest.append hthrow)) (.plain hreturn)))
  exact hdeclaration.append
    (.block (hspace.append hname.filling) (hserialize.append hdeserialize))

section

variable {m : Message}

theorem tidy_messageLines (tag : UInt8) (h : m.WordNames) : Tidy (messageLines tag m) := by
  have hname : Atom m.name := .word h.name
  have hclass : Phrase "export class " := fun _ _ => .ofList rfl
  have hend : Filling ";" := fun _ => .ofList rfl
  have hid : Phrase s!"static readonly id = {tag};" := by
    have hstatic : Phrase "static readonly id = " := fun _ _ => .ofList rfl
    exact (hstatic.append (Atom.number tag.toNat).filling).append hend
  have hthis : ∀ {f : Field}, f ∈ m.fields → Phrase s!"this.{f.name}" := by
    intro f hf
    have hdot : Phrase "this." := fun _ _ => .ofList rfl
    exact hdot.append (Atom.word (h.fields f hf).1).filling
  have htyped : ∀ {f : Field}, f ∈ m.fields → Phrase (typedName f) :=
    fun hf => phrase_typedName (h.fields _ hf).1 (h.fields _ hf).2
  have hmembers : Tidy (m.fields.map fun f => Line.plain s!"{typedName f};") :=
    .map fun f hf => .plain ((htyped hf).append hend)
  have hparameters : Filling (", ".intercalate (m.fields.map typedName)) :=
    .intercalate (fun _ => .ofList rfl) (List.forall_mem_map.mpr fun f hf => (htyped hf).filling)
  have hconstructor :
      Phrase ("constructor(" ++ ", ".intercalate (m.fields.map typedName) ++ ")") := by
    have hopen : Opening .parenthesis "constructor(" := fun _ _ => .ofList rfl
    have hclose : Leaving .parenthesis ")" := fun _ => .ofList rfl
    exact hopen.around hparameters hclose
  have hassigned : Tidy (m.fields.map fun f => Line.plain s!"this.{f.name} = {f.name};") := by
    refine .map fun f hf => .plain ?_
    have hequals : Filling " = " := fun _ => .ofList rfl
    have htarget := (hthis hf).append hequals
    exact (htarget.append (Atom.word (h.fields f hf).1).filling).append hend
  have hserialize : Phrase "serialize(): Uint8Array" := fun _ _ => .ofList rfl
  have hout : Phrase s!"const out: number[] = [{m.name}.id];" := by
    have hopen : Opening .square "const out: number[] = [" := fun _ _ => .ofList rfl
    have hclose : Leaving .square ".id];" := fun _ => .ofList rfl
    exact hopen.around hname.filling hclose
  have hwriting : Tidy (m.fields.map fun f =>
      Line.plain (serialize f.type s!"this.{f.name}")) :=
    .map fun f hf => .plain (phrase_serialize (h.fields f hf).2 (hthis hf))
  have hreturn : Phrase "return new Uint8Array(out);" := fun _ _ => .ofList rfl
  have hnumbered := Tidy.cons (.plain hid) hmembers
  have hbuilding := Tidy.block hconstructor hassigned
  have hroutine := Tidy.block hserialize
    ((Tidy.cons (.plain hout) hwriting).append (.plain hreturn))
  exact .block (hclass.append hname.filling) ((hnumbered.append hbuilding).append hroutine)

theorem tidy_deserializeCase (tag : UInt8) (h : m.WordNames) : Tidy (deserializeCase tag m) := by
  have hcase : Phrase s!"case {tag}:" := by
    have hword : Phrase "case " := fun _ _ => .ofList rfl
    have hcolon : Filling ":" := fun _ => .ofList rfl
    exact (hword.append (Atom.number tag.toNat).filling).append hcolon
  have hfields : Tidy (m.fields.flatMap fun f =>
      [Line.plain s!"let {typedName f};", Line.plain (deserialize f.type f.name)]) := by
    refine .flatMap fun f hf => ?_
    obtain ⟨hfield, htype⟩ := h.fields f hf
    have hlet : Phrase "let " := fun _ _ => .ofList rfl
    have hend : Filling ";" := fun _ => .ofList rfl
    have hvariable := (hlet.append (phrase_typedName hfield htype).filling).append hend
    exact .cons (.plain hvariable) (.plain (phrase_deserialize htype (.word hfield)))
  have harguments : Filling (", ".intercalate (m.fields.map (·.name))) :=
    .intercalate (fun _ => .ofList rfl)
      (List.forall_mem_map.mpr fun f hf => (Atom.word (h.fields f hf).1).filling)
  have hreturn :
      Phrase (s!"return new {m.name}(" ++ ", ".intercalate (m.fields.map (·.name)) ++ ");") := by
    have hnew : Phrase "return new " := fun _ _ => .ofList rfl
    have hopen : Entering .parenthesis "(" := fun _ => .ofList rfl
    have hclose : Leaving .parenthesis ");" := fun _ => .ofList rfl
    have hclass := hnew.append (Atom.word h.name).filling
    exact (hclass.entering hopen).around harguments hclose
  exact .block hcase (hfields.append (.plain hreturn))

end

theorem tidy_categoryLines {c : Category} (h : c.WordNames) : Tidy (categoryLines c) := by
  have hmessage : ∀ {entry : UInt8 × Message}, entry ∈ c.tagged → entry.2.WordNames :=
    fun hmem => h.messages _ (mem_of_mem_tagged hmem)
  have hclasses : Tidy (c.tagged.flatMap fun entry => messageLines entry.1 entry.2) :=
    .flatMap fun entry hmem => tidy_messageLines entry.1 (hmessage hmem)
  have hcases : Tidy (c.tagged.flatMap fun entry => deserializeCase entry.1 entry.2) :=
    .flatMap fun entry hmem => tidy_deserializeCase entry.1 (hmessage hmem)
  have hname : Atom c.name := .word h.name
  have hspace : Phrase "export namespace " := fun _ _ => .ofList rfl
  have hunion : Filling (" | ".intercalate (c.messages.map (·.name))) :=
    .intercalate (fun _ => .ofList rfl)
      (List.forall_mem_map.mpr fun m hm => (Atom.word (h.messages m hm).name).filling)
  have hdefault : Phrase s!"default: throw new Error(\"Unrecognized {c.name} tag \" + tag);" := by
    intro begun around
    have hquote : Reads ⟨begun, false, around⟩ "default: throw new Error(\"Unrecognized "
        ⟨true, true, .parenthesis :: around⟩ := .ofList rfl
    have hend : Reads ⟨true, true, .parenthesis :: around⟩ " tag \" + tag);"
        ⟨true, false, around⟩ := .ofList rfl
    exact (hquote.append (hname true true _)).append hend
  have hread : Phrase "const tag = buf[index.v++];" := fun _ _ => .ofList rfl
  have hswitch : Phrase "switch (tag)" := fun _ _ => .ofList rfl
  have hchoice := Tidy.block hswitch (hcases.append (.plain hdefault))
  have hroutine := Tidy.block (phrase_deserializeHead hunion) (.cons (.plain hread) hchoice)
  exact .block (hspace.append hname.filling) (hclasses.append hroutine)

end TypeScript

/-! ## Both languages -/

/-- **Generated text is nested and indented by its nesting**: in both
    languages, and for both ways of reading bytes, the text is well laid and
    is written declaration by declaration without ever closing a block that
    is not open. -/
theorem generated_text_well_laid {s : Schema} (h : s.WordNames) :
    (∀ flavor, WrittenIn (sections (Rust.enumLines flavor) (Rust.categoryLines flavor) s)
      (Rust.emit flavor s)) ∧
    WrittenIn (sections TypeScript.enumLines TypeScript.categoryLines s) (TypeScript.emit s) := by
  constructor
  · intro flavor
    have hlines : Rust.schemaLines flavor s =
        (sections (Rust.enumLines flavor) (Rust.categoryLines flavor) s).flatten := by
      simp [Rust.schemaLines, sections, List.flatMap_def]
    rw [Rust.emit, hlines]
    exact writtenIn_sections (fun e he => Rust.tidy_enumLines flavor (h.enums e he))
      fun c hc => Rust.tidy_categoryLines flavor (h.categories c hc)
  · have hlines : TypeScript.schemaLines s =
        (sections TypeScript.enumLines TypeScript.categoryLines s).flatten := by
      simp [TypeScript.schemaLines, sections, List.flatMap_def]
    rw [TypeScript.emit, hlines]
    exact writtenIn_sections (fun e he => TypeScript.tidy_enumLines (h.enums e he))
      fun c hc => TypeScript.tidy_categoryLines (h.categories c hc)

/-- A schema with an optional directly inside an optional, a message without
    fields and a category without messages. -/
def parcelSchema : Schema where
  enums := [⟨"Size", ["Small", "Large"]⟩]
  categories :=
    [⟨"Parcel",
      [⟨"Send", [⟨"at", .primitive .floatPair⟩, ⟨"gift", .optional (.optional (.enumRef "Size"))⟩]⟩,
       ⟨"Lost", []⟩]⟩,
     ⟨"Letter", []⟩]

theorem generated_text_well_laid_parcel :
    parcelSchema.WordNames ∧
    WrittenIn (sections (Rust.enumLines .cursor) (Rust.categoryLines .cursor) parcelSchema)
      (Rust.emit .cursor parcelSchema) ∧
    WrittenIn (sections TypeScript.enumLines TypeScript.categoryLines parcelSchema)
      (TypeScript.emit parcelSchema) := by
  have hwords : parcelSchema.WordNames := by
    refine ⟨List.forall_mem_singleton.mpr ⟨by decide, by decide⟩,
      List.forall_mem_cons.mpr ⟨⟨by decide, ?_⟩,
        List.forall_mem_singleton.mpr ⟨by decide, List.forall_mem_nil _⟩⟩⟩
    exact List.forall_mem_cons.mpr ⟨⟨by decide, by decide⟩,
      List.forall_mem_singleton.mpr ⟨by decide, by decide⟩⟩
  obtain ⟨hrust, htypescript⟩ := generated_text_well_laid hwords
  exact ⟨hwords, hrust .cursor, htypescript⟩

end TaggedWire
