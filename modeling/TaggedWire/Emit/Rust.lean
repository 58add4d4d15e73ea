import TaggedWire.Emit.Layout
import TaggedWire.Schema.Basic

/-! # Codecs as Rust source

    Each enumeration and each category becomes an `enum` with a pair of
    routines `serialize` and `deserialize`. Primitives are left to routines
    `type_<kind>_serialize` and `type_<kind>_deserialize` that a header
    supplies.

    The generated `deserialize` comes in two flavors: over a buffer with a
    cursor, and over an asynchronous stream of bytes. Everything else is
    the same in both.

    The body of every `enum` lists one variant per line in tag order and
    holds no comments: the lookup tables are extracted from it.
-/

namespace TaggedWire

/-- How a generated `deserialize` gets its bytes. -/
inductive Flavor where
  /-- From a buffer, at a position that it advances. -/
  | cursor
  /-- From an asynchronous stream. -/
  | async
  deriving DecidableEq, Repr

/-- Streams are the default. -/
instance : Inhabited Flavor := ⟨.async⟩

namespace Rust

/-! ## Fragments -/

/-- The Rust type of a primitive. -/
def primitiveSignature : Primitive → String
  | .string => "String"
  | .float => "f32"
  | .u8 => "u8"
  | .u16 => "u16"
  | .u32 => "u32"
  | .bool => "bool"
  | .floatPair => "(f32, f32)"

/-- The part of a routine's name that stands for a primitive. -/
def routine : Primitive → String
  | .string => "string"
  | .float => "float"
  | .u8 => "u8"
  | .u16 => "u16"
  | .u32 => "u32"
  | .bool => "bool"
  | .floatPair => "float_pair"

/-- The Rust type of a field. -/
def signature : FieldType → String
  | .primitive kind => primitiveSignature kind
  | .optional inner => s!"Option<{signature inner}>"
  | .enumRef name => name

/-- A statement that appends the value of `expr`, a reference, to `out`. -/
def serialize : FieldType → String → String
  | .primitive kind, expr => s!"type_{routine kind}_serialize(out, {expr});"
  | .optional inner, expr =>
      s!"if let Some(tmp) = {expr} \x7b out.push(1); " ++ serialize inner "tmp" ++
        " \x7d else \x7b out.push(0); \x7d"
  | .enumRef _, expr => s!"{expr}.serialize(out);"

/-- An expression that reads one value and passes a failure on. -/
def deserializeExpr (flavor : Flavor) : FieldType → String
  | .primitive kind =>
      match flavor with
      | .cursor => s!"type_{routine kind}_deserialize(buf, index)?"
      | .async => s!"type_{routine kind}_deserialize(buf).await?"
  | .enumRef name =>
      match flavor with
      | .cursor => s!"{name}::deserialize(buf, index)?"
      | .async => s!"{name}::deserialize(buf).await?"
  | .optional inner =>
      match flavor with
      | .cursor =>
          "\x7b let present = *buf.get(*index).ok_or(())? > 0; *index += 1; " ++
            s!"if present \x7b Some({deserializeExpr flavor inner}) \x7d else \x7b None \x7d \x7d"
      | .async =>
          s!"if buf.next().await.ok_or(())? > 0 \x7b Some({deserializeExpr flavor inner}) \x7d" ++
            " else \x7b None \x7d"

/-- A statement that reads one value into `target`. -/
def deserialize (flavor : Flavor) (type : FieldType) (target : String) : String :=
  s!"let {target} = {deserializeExpr flavor type};"

/-- The head of a `deserialize` routine. -/
def deserializeHead : Flavor → String
  | .cursor => "pub fn deserialize(buf: &[u8], index: &mut usize) -> Result<Self, ()>"
  | .async =>
      "pub async fn deserialize<S: Stream<Item = u8> + Unpin>(buf: &mut S) -> Result<Self, ()>"

/-- Statements that leave the next byte in `tag`. -/
def readTag : Flavor → List Line
  | .cursor => [.plain "let tag = *buf.get(*index).ok_or(())?;", .plain "*index += 1;"]
  | .async => [.plain "let tag = buf.next().await.ok_or(())?;"]

/-- The arm for a byte that numbers nothing. -/
def otherwiseFails : Line := .plain "_ => Err(()),"

/-! ## Enumerations -/

/-- The declaration and routines of an enumeration. -/
def enumLines (flavor : Flavor) (e : Enumeration) : List Line :=
  [.plain "#[derive(Debug, Clone, Copy, PartialEq, Eq, Hash)]"] ++
    block s!"pub enum {e.name}" (e.variants.map fun variant => .plain s!"{variant},") ++
    [.blank] ++
    block s!"impl {e.name}"
      (block "pub fn val_of(&self) -> u8"
          (block "match self" (e.variants.zipIdx.map fun (variant, index) =>
            .plain s!"Self::{variant} => {index},")) ++
        [.blank] ++
        block "pub fn serialize(&self, out: &mut Vec<u8>)"
          [.plain "out.push(self.val_of());"] ++
        [.blank] ++
        block (deserializeHead flavor)
          (readTag flavor ++
            block "match tag"
              ((e.variants.zipIdx.map fun (variant, index) =>
                  .plain s!"{index} => Ok(Self::{variant}),") ++
                [otherwiseFails])))

/-! ## Categories -/

/-- A message as a variant of its category. -/
def variantDeclaration (m : Message) : String :=
  if m.isUnit then s!"{m.name},"
  else
    let fields := m.fields.map fun f => s!"{f.name}: {signature f.type}"
    s!"{m.name} \x7b " ++ ", ".intercalate fields ++ " \x7d,"

/-- A message as a pattern, which is also the expression that builds it. -/
def variantPattern (m : Message) : String :=
  if m.isUnit then s!"Self::{m.name}"
  else s!"Self::{m.name} \x7b " ++ ", ".intercalate (m.fields.map (·.name)) ++ " \x7d"

/-- The arm of `serialize` for a message. -/
def serializeArm (tag : UInt8) (m : Message) : List Line :=
  block s!"{variantPattern m} =>"
    (.plain s!"out.push({tag});" ::
      m.fields.map fun f => .plain (serialize f.type f.name))

/-- The arm of `deserialize` for a message. Fields are read one statement
    at a time, in order. -/
def deserializeArm (flavor : Flavor) (tag : UInt8) (m : Message) : List Line :=
  if m.isUnit then [.plain s!"{tag} => Ok(Self::{m.name}),"]
  else
    block s!"{tag} =>"
      ((m.fields.map fun f => .plain (deserialize flavor f.type f.name)) ++
        [.plain s!"Ok({variantPattern m})"])

/-- The declaration and routines of a category. -/
def categoryLines (flavor : Flavor) (c : Category) : List Line :=
  [.plain "#[derive(Debug, Clone, PartialEq)]"] ++
    block s!"pub enum {c.name}" (c.messages.map fun m => .plain (variantDeclaration m)) ++
    [.blank] ++
    block s!"impl {c.name}"
      (block "pub fn serialize(&self, out: &mut Vec<u8>)"
          (block "match self" (c.tagged.flatMap fun (tag, m) => serializeArm tag m)) ++
        [.blank] ++
        block (deserializeHead flavor)
          (readTag flavor ++
            block "match tag"
              ((c.tagged.flatMap fun (tag, m) => deserializeArm flavor tag m) ++
                [otherwiseFails])))

/-! ## Schemas -/

/-- The lines of the codec of a schema. -/
def schemaLines (flavor : Flavor) (s : Schema) : List Line :=
  (s.enums.flatMap fun e => .blank :: enumLines flavor e) ++
    (s.categories.flatMap fun c => .blank :: categoryLines flavor c)

/-- The codec of a schema as Rust source, without a header. -/
def emit (flavor : Flavor) (s : Schema) : String := layout (schemaLines flavor s)

end Rust

end TaggedWire
