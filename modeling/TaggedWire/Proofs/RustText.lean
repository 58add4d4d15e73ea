import TaggedWire.Emit.Rust
import TaggedWire.Proofs.Lines
import TaggedWire.Proofs.NameLists
import TaggedWire.Proofs.Numbering

/-! # The shape of the generated codec

    If all names of a schema are words, the codec is a list of declarations
    and nothing else looks like one: every line but the heads `pub enum N`
    is free of the seam between `pub` and `enum`. One declaration has one
    shape, whether it is that of an enumeration or of a category: a line of
    attributes, the block of the declaration with one entry per line, and
    lines of routines (`DeclarationLines`). -/

namespace TaggedWire

namespace Rust

/-- The seam in the head of a declaration. -/
def enumSeam : Seam := ⟨'b', 'e', by decide, by decide⟩

/-! ## Fragments -/

theorem seamless_primitiveSignature (kind : Primitive) :
    Seamless enumSeam (primitiveSignature kind) := by
  cases kind <;> exact .ofList (by decide)

theorem seamless_routine (kind : Primitive) : Seamless enumSeam (routine kind) := by
  cases kind <;> exact .ofList (by decide)

theorem seamless_signature {type : FieldType} (h : type.WordNames) :
    Seamless enumSeam (signature type) := by
  induction type with
  | primitive kind => exact seamless_primitiveSignature kind
  | optional inner ih => exact .between (.ofList (by decide)) (ih h) (.ofList (by decide))
  | enumRef name => exact .word h

theorem seamless_serialize (type : FieldType) {expr : String} (h : Seamless enumSeam expr) :
    Seamless enumSeam (serialize type expr) := by
  induction type generalizing expr with
  | primitive kind =>
    have hroutine : Seamless enumSeam s!"type_{routine kind}_serialize(out, " :=
      .between (.ofList (by decide)) (seamless_routine kind) (.ofList (by decide))
    exact hroutine.between h (.ofList (by decide))
  | optional inner ih =>
    have htmp : Seamless enumSeam "tmp" := .ofList (by decide)
    have htest : Seamless enumSeam s!"if let Some(tmp) = {expr} \x7b out.push(1); " :=
      .between (.ofList (by decide)) h (.ofList (by decide))
    exact htest.between (ih htmp) (.ofList (by decide))
  | enumRef name => exact h.append (.ofList (by decide))

theorem seamless_deserializeExpr (flavor : Flavor) {type : FieldType} (h : type.WordNames) :
    Seamless enumSeam (deserializeExpr flavor type) := by
  induction type with
  | primitive kind =>
    cases flavor <;>
      exact .between (.ofList (by decide)) (seamless_routine kind) (.ofList (by decide))
  | enumRef name => cases flavor <;> exact (Seamless.word h).append (.ofList (by decide))
  | optional inner ih =>
    cases flavor with
    | cursor =>
      refine .append ?_ (.append (.append ?_ (ih h)) ?_)
      all_goals exact .ofList (by decide)
    | async =>
      -- The last fragment starts like the right half of a seam, so it counts
      -- as one with the brace before it.
      exact .append_ofList (.append (.ofList (by decide)) (ih h))
        (.ofList (by decide))

theorem seamless_deserialize (flavor : Flavor) {f : Field} (hname : IsWord f.name)
    (htype : f.type.WordNames) : Seamless enumSeam (deserialize flavor f.type f.name) := by
  have hassigned : Seamless enumSeam s!"let {f.name} = " :=
    .between (.ofList (by decide)) (.word hname) (.ofList (by decide))
  exact hassigned.between (seamless_deserializeExpr flavor htype) (.ofList (by decide))

theorem seamless_deserializeHead (flavor : Flavor) :
    Seamless enumSeam (deserializeHead flavor) := by
  cases flavor <;> exact .ofList (by decide)

theorem interior_readTag (flavor : Flavor) : Interior enumSeam (readTag flavor) := by
  cases flavor with
  | cursor => exact .append (.plain (.ofList (by decide))) (.plain (.ofList (by decide)))
  | async => exact .plain (.ofList (by decide))

theorem interior_otherwiseFails : Interior enumSeam [otherwiseFails] :=
  .plain (.ofList (by decide))

/-- A routine that reads a byte and chooses among arms by it. -/
theorem interior_chooser (flavor : Flavor) {arms : List Line} (h : Interior enumSeam arms) :
    Interior enumSeam (block (deserializeHead flavor)
      (readTag flavor ++ block "match tag" (arms ++ [otherwiseFails]))) := by
  refine .block (seamless_deserializeHead flavor) (.append (interior_readTag flavor) ?_)
  exact .block (.ofList (by decide)) (.append h interior_otherwiseFails)

/-! ## Declarations -/

/-- A line that declares one name. -/
def EntryLine (line : Line) (name : String) : Prop :=
  ∃ text, line = .plain text ∧ Seamless enumSeam text ∧ Declares text.toList name

/-- The lines of one declaration: attributes, the block of the declaration
    with an entry for each listed name, and routines. -/
def DeclarationLines (name : String) (listed : List String) (lines : List Line) : Prop :=
  ∃ attributes entries routines,
    lines = .plain attributes :: (block s!"pub enum {name}" entries ++ routines) ∧
    Seamless enumSeam attributes ∧ List.Forall₂ EntryLine entries listed ∧
    Interior enumSeam routines

/-! ### Enumerations -/

theorem entryLine_variant {variant : String} (h : IsWord variant) :
    EntryLine (.plain s!"{variant},") variant := by
  refine ⟨_, rfl, .append (.word h) (.ofList (by decide)), ?_⟩
  exact String.toList_append ▸ declares_bare h

section

variable {variants : List String}

theorem interior_numbers (h : ∀ variant ∈ variants, IsWord variant) :
    Interior enumSeam (variants.zipIdx.map fun (variant, index) =>
      .plain s!"Self::{variant} => {index},") := by
  refine .map fun ⟨variant, index⟩ hmem => .plain ?_
  have hvariant := h variant (List.fst_mem_of_mem_zipIdx hmem)
  have hpattern : Seamless enumSeam s!"Self::{variant} => " :=
    .between (.ofList (by decide)) (.word hvariant) (.ofList (by decide))
  exact hpattern.between (.number index) (.ofList (by decide))

theorem interior_arms (h : ∀ variant ∈ variants, IsWord variant) :
    Interior enumSeam (variants.zipIdx.map fun (variant, index) =>
      .plain s!"{index} => Ok(Self::{variant}),") := by
  refine .map fun ⟨variant, index⟩ hmem => .plain ?_
  have hvariant := h variant (List.fst_mem_of_mem_zipIdx hmem)
  have hpattern : Seamless enumSeam s!"{index} => Ok(Self::" :=
    .append (.number index) (.ofList (by decide))
  exact hpattern.between (.word hvariant) (.ofList (by decide))

end

theorem declarationLines_enum (flavor : Flavor) {e : Enumeration} (h : e.WordNames) :
    DeclarationLines e.name e.variants (enumLines flavor e) := by
  unfold enumLines
  rw [List.append_assoc, List.append_assoc, List.singleton_append]
  refine ⟨_, _, _, rfl, .ofList (by decide), ?_, .append .blank (.block ?_ ?_)⟩
  · rw [List.forall₂_map_left_iff, List.forall₂_same]
    exact fun variant hvariant => entryLine_variant (h.variants variant hvariant)
  · exact .append (.ofList (by decide)) (.word h.name)
  · -- The number of a variant, writing it, and reading it back.
    have hvalOf : Seamless enumSeam "pub fn val_of(&self) -> u8" := .ofList (by decide)
    have hmatch : Seamless enumSeam "match self" := .ofList (by decide)
    have hserialize : Seamless enumSeam "pub fn serialize(&self, out: &mut Vec<u8>)" :=
      .ofList (by decide)
    have hpush : Seamless enumSeam "out.push(self.val_of());" := .ofList (by decide)
    have hnumbering := Interior.block hvalOf (.block hmatch (interior_numbers h.variants))
    have hwriting := Interior.block hserialize (.plain hpush)
    have hreading := interior_chooser flavor (interior_arms h.variants)
    exact (((hnumbering.append .blank).append hwriting).append .blank).append hreading

/-! ### Categories -/

theorem balanced_signature {type : FieldType} (h : type.WordNames) :
    Balanced '{' '}' (signature type).toList := by
  induction type with
  | primitive kind => cases kind <;> exact .of_plain (by decide)
  | optional inner ih =>
    rw [signature, String.toList_append, String.toList_append]
    exact .append (.append (.of_plain (by decide)) (ih h)) (.of_plain (by decide))
  | enumRef name => exact balanced_wordChars h.2

section

variable {m : Message}

/-- The fields in the entry of a message. -/
theorem balanced_fields (h : m.WordNames) :
    Balanced '{' '}'
      (", ".intercalate (m.fields.map fun f => s!"{f.name}: {signature f.type}")).toList := by
  refine intercalate_induction (P := fun t => Balanced '{' '}' t.toList) .nil ?_
    (.of_plain (by decide)) (List.forall_mem_map.mpr fun f hf => ?_)
  · intro t u ht hu
    rw [String.toList_append]
    exact ht.append hu
  · obtain ⟨hname, htype⟩ := h.fields f hf
    rw [String.toList_append, String.toList_append]
    exact .append (.append (balanced_wordChars hname.2) (.of_plain (by decide)))
      (balanced_signature htype)

theorem entryLine_message (h : m.WordNames) :
    EntryLine (.plain (variantDeclaration m)) m.name := by
  unfold variantDeclaration
  split
  · exact entryLine_variant h.name
  · refine ⟨_, rfl, ?_, ?_⟩
    · have hopen : Seamless enumSeam s!"{m.name} \x7b " :=
        .append (.word h.name) (.ofList (by decide))
      have hfields : Seamless enumSeam
          (", ".intercalate (m.fields.map fun f => s!"{f.name}: {signature f.type}")) := by
        refine .intercalate (.ofList (by decide)) (List.forall_mem_map.mpr fun f hf => ?_)
        obtain ⟨hname, htype⟩ := h.fields f hf
        exact .between (.word hname) (.ofList (by decide)) (seamless_signature htype)
      exact hopen.between hfields (.ofList (by decide))
    · have hinner : Balanced '{' '}' (' ' :: (_ ++ [' '])) :=
        .plain (by decide) (by decide) rfl ((balanced_fields h).append (.of_plain (by decide)))
      have hentry := declares_payload h.name hinner
      simpa [toString] using hentry

theorem seamless_variantPattern (h : m.WordNames) : Seamless enumSeam (variantPattern m) := by
  unfold variantPattern
  split
  · exact .append (.ofList (by decide)) (.word h.name)
  · have hopen : Seamless enumSeam s!"Self::{m.name} \x7b " :=
      .between (.ofList (by decide)) (.word h.name) (.ofList (by decide))
    have hfields : Seamless enumSeam (", ".intercalate (m.fields.map (·.name))) :=
      .intercalate (.ofList (by decide))
        (List.forall_mem_map.mpr fun f hf => .word (h.fields f hf).1)
    exact hopen.between hfields (.ofList (by decide))

theorem interior_serializeArm (tag : UInt8) (h : m.WordNames) :
    Interior enumSeam (serializeArm tag m) := by
  have hhead : Seamless enumSeam s!"{variantPattern m} =>" :=
    (seamless_variantPattern h).append (.ofList (by decide))
  have hpush : Seamless enumSeam s!"out.push({tag});" :=
    .between (.ofList (by decide)) (.number tag.toNat) (.ofList (by decide))
  have hfields : Interior enumSeam (m.fields.map fun f => .plain (serialize f.type f.name)) :=
    .map fun f hf => .plain (seamless_serialize f.type (.word (h.fields f hf).1))
  exact .block hhead (.cons (.plain hpush) hfields)

theorem interior_deserializeArm (flavor : Flavor) (tag : UInt8) (h : m.WordNames) :
    Interior enumSeam (deserializeArm flavor tag m) := by
  unfold deserializeArm
  split
  · have hhead : Seamless enumSeam s!"{tag} => Ok(Self::" :=
      .append (.number tag.toNat) (.ofList (by decide))
    exact .plain (hhead.between (.word h.name) (.ofList (by decide)))
  · have hhead : Seamless enumSeam s!"{tag} =>" :=
      .append (.number tag.toNat) (.ofList (by decide))
    have hfields :
        Interior enumSeam (m.fields.map fun f => .plain (deserialize flavor f.type f.name)) :=
      .map fun f hf => .plain (seamless_deserialize flavor (h.fields f hf).1 (h.fields f hf).2)
    have hresult : Seamless enumSeam s!"Ok({variantPattern m})" :=
      .between (.ofList (by decide)) (seamless_variantPattern h) (.ofList (by decide))
    exact .block hhead (hfields.append (.plain hresult))

end

theorem declarationLines_category (flavor : Flavor) {c : Category} (h : c.WordNames) :
    DeclarationLines c.name (c.messages.map (·.name)) (categoryLines flavor c) := by
  unfold categoryLines
  rw [List.append_assoc, List.append_assoc, List.singleton_append]
  refine ⟨_, _, _, rfl, .ofList (by decide), ?_, .append .blank (.block ?_ ?_)⟩
  · rw [List.forall₂_map_left_iff, List.forall₂_map_right_iff, List.forall₂_same]
    exact fun m hm => entryLine_message (h.messages m hm)
  · exact .append (.ofList (by decide)) (.word h.name)
  · -- Only messages with a tag have arms, and all of them are declared.
    have hmessage {tag : UInt8} {m : Message} (hmem : (tag, m) ∈ c.tagged) : m.WordNames :=
      h.messages m (mem_of_mem_tagged hmem)
    have hserialize : Seamless enumSeam "pub fn serialize(&self, out: &mut Vec<u8>)" :=
      .ofList (by decide)
    have hmatch : Seamless enumSeam "match self" := .ofList (by decide)
    have hwriting : Interior enumSeam
        (c.tagged.flatMap fun entry => serializeArm entry.1 entry.2) :=
      .flatMap fun entry hmem => interior_serializeArm entry.1 (hmessage hmem)
    have hreading : Interior enumSeam
        (c.tagged.flatMap fun entry => deserializeArm flavor entry.1 entry.2) :=
      .flatMap fun entry hmem => interior_deserializeArm flavor entry.1 (hmessage hmem)
    have hroutine := Interior.block hserialize (.block hmatch hwriting)
    exact (hroutine.append .blank).append (interior_chooser flavor hreading)

end Rust

end TaggedWire
