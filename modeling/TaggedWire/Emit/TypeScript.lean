import TaggedWire.Emit.Layout
import TaggedWire.Schema.Basic

/-! # Codecs as TypeScript source

    Each enumeration becomes an `enum` and a namespace with its routines;
    each category becomes a namespace with one class per message and a
    `deserialize` that returns their union. Reading is over a `Uint8Array`
    with a shared cursor. The bytes are those of the Rust codec.
-/

namespace TaggedWire.TypeScript

/-! ## Fragments -/

/-- The TypeScript type of a primitive. -/
def primitiveSignature : Primitive → String
  | .string => "string"
  | .float | .u8 | .u16 | .u32 => "number"
  | .bool => "boolean"
  | .floatPair => "[number, number]"

/-- The part of a routine's name that stands for a primitive. -/
def routine : Primitive → String
  | .string => "string"
  | .float => "float"
  | .u8 => "ubyte"
  | .u16 => "ushort"
  | .u32 => "uint"
  | .bool => "boolean"
  | .floatPair => "float_pair"

/-- The TypeScript type of a field. -/
def signature : FieldType → String
  | .primitive kind => primitiveSignature kind
  | .optional inner => s!"{signature inner} | null"
  | .enumRef name => name

/-- A statement that appends the value of `expr` to `out`. -/
def serialize : FieldType → String → String
  | .primitive kind, expr => s!"type_{routine kind}_serialize(out, {expr});"
  | .optional inner, expr =>
      s!"if ({expr} === null) out.push(0); else \x7b out.push(1); {serialize inner expr} \x7d"
  | .enumRef name, expr => s!"{name}.serialize(out, {expr});"

/-- Statements that assign the next value to `target`. -/
def deserialize : FieldType → String → String
  | .primitive kind, target => s!"{target} = type_{routine kind}_deserialize(buf, index);"
  | .optional inner, target =>
      s!"if (buf[index.v++] > 0) \x7b {deserialize inner target} \x7d" ++
        s!" else \x7b {target} = null; \x7d"
  | .enumRef name, target => s!"{target} = {name}.deserialize(buf, index);"

/-- The head of a `deserialize` routine that returns `result`. -/
def deserializeHead (result : String) : String :=
  s!"export function deserialize(buf: Uint8Array, index: Box<number>): {result}"

/-- A field as a member, a parameter or a variable. -/
def typedName (f : Field) : String := s!"{f.name}: {signature f.type}"

/-! ## Enumerations -/

/-- The declaration and routines of an enumeration. -/
def enumLines (e : Enumeration) : List Line :=
  block s!"export enum {e.name}"
      (e.variants.zipIdx.map fun (variant, index) => .plain s!"{variant} = {index},") ++
    block s!"export namespace {e.name}"
      (block s!"export function serialize(out: number[], value: {e.name})"
          [.plain "out.push(value);"] ++
        block (deserializeHead e.name)
          [.plain "const value = buf[index.v++];",
           .plain (s!"if (value === undefined || value >= {e.size}) " ++
            s!"throw new Error(\"Invalid {e.name} index \" + value);"),
           .plain s!"return value as {e.name};"])

/-! ## Categories -/

/-- The class of a message. -/
def messageLines (tag : UInt8) (m : Message) : List Line :=
  block s!"export class {m.name}"
    (.plain s!"static readonly id = {tag};" ::
      (m.fields.map fun f => .plain s!"{typedName f};") ++
      block ("constructor(" ++ ", ".intercalate (m.fields.map typedName) ++ ")")
        (m.fields.map fun f => .plain s!"this.{f.name} = {f.name};") ++
      block "serialize(): Uint8Array"
        (.plain s!"const out: number[] = [{m.name}.id];" ::
          (m.fields.map fun f => .plain (serialize f.type s!"this.{f.name}")) ++
          [.plain "return new Uint8Array(out);"]))

/-- The case of a category's `deserialize` for a message. -/
def deserializeCase (tag : UInt8) (m : Message) : List Line :=
  block s!"case {tag}:"
    ((m.fields.flatMap fun f =>
        [.plain s!"let {typedName f};", .plain (deserialize f.type f.name)]) ++
      [.plain (s!"return new {m.name}(" ++ ", ".intercalate (m.fields.map (·.name)) ++ ");")])

/-- The classes and routines of a category. -/
def categoryLines (c : Category) : List Line :=
  block s!"export namespace {c.name}"
    ((c.tagged.flatMap fun (tag, m) => messageLines tag m) ++
      block (deserializeHead (" | ".intercalate (c.messages.map (·.name))))
        (.plain "const tag = buf[index.v++];" ::
          block "switch (tag)"
            ((c.tagged.flatMap fun (tag, m) => deserializeCase tag m) ++
              [.plain s!"default: throw new Error(\"Unrecognized {c.name} tag \" + tag);"])))

/-! ## Schemas -/

/-- The lines of the codec of a schema. -/
def schemaLines (s : Schema) : List Line :=
  (s.enums.flatMap fun e => .blank :: enumLines e) ++
    (s.categories.flatMap fun c => .blank :: categoryLines c)

/-- The codec of a schema as TypeScript source, without a header. -/
def emit (s : Schema) : String := layout (schemaLines s)

end TaggedWire.TypeScript
