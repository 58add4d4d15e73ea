import TaggedWire.Proofs.FailedRendering
import TaggedWire.Proofs.StarshipWriting

/-! # The starship codec and the generated arms

    The starship codec is written out message by message, with every tag as
    a number in its place. The code that is generated for the protocol is a
    text. What the two have to do with each other is said here through the
    statements of the text, which are given as data: a statement has a text,
    and it has something that it does once the primitives are left to a set
    of routines. What it does is laid down here for these few forms; there is
    no model of the language beyond them.

    For every schema, the generated code has a `match` in either routine
    whose arms are the texts of these statements, one arm for each message
    with a tag (`matchSelf_infix`, `matchTag_infix`). For the starship
    protocol, choosing an arm and running its statements does what the codec
    does, with any routines (`serialize_runs_arms`, `deserialize_runs_arms`).
    So the tags of the codec and the order of its fields are those of the
    generated code. -/

namespace TaggedWire.Starship

variable {σ : Type} {s : Schema} {w : Writers}

/-- What the variables of an arm hold. -/
abbrev Variables := List (String × Value)

/-! ## Statements that write -/

/-- A statement in an arm of `serialize`. -/
inductive WriteStatement where
  /-- Append a byte. -/
  | push (byte : UInt8)
  /-- Append the primitive in a variable. -/
  | call (kind : Primitive) (x : String)
  /-- Append the variant in a variable whose type is an enumeration. -/
  | callEnum (enum x : String)
  /-- Append whether there is anything in a variable, and if so what it is, under
      the name `tmp`. -/
  | ifSome (x : String) (inner : WriteStatement)

/-- The text of a statement. -/
def WriteStatement.text : WriteStatement → String
  | .push byte => s!"out.push({byte});"
  | .call kind x => s!"type_{Rust.routine kind}_serialize(out, {x});"
  | .callEnum _ x => s!"{x}.serialize(out);"
  | .ifSome x inner =>
      s!"if let Some(tmp) = {x} \x7b out.push(1); " ++ inner.text ++
        " \x7d else \x7b out.push(0); \x7d"

/-- The routine for a kind of primitive, on a value of that kind. -/
def Writers.write? (w : Writers) : Primitive → Value → Option (List UInt8 → List UInt8)
  | .string, .string text => some (w.string text)
  | .float, .float x => some (w.float x)
  | .u8, .u8 n => some (w.u8 n)
  | .u16, .u16 n => some (w.u16 n)
  | .u32, .u32 n => some (w.u32 n)
  | .bool, .bool b => some (w.bool b)
  | .floatPair, .floatPair x y => some (w.floatPair (x, y))
  | _, _ => none

/-- What a statement does to the output, if its variable holds a value that
    the statement is about. -/
def WriteStatement.run (s : Schema) (w : Writers) :
    WriteStatement → Variables → Option (List UInt8 → List UInt8)
  | .push byte, _ => some fun out => out ++ [byte]
  | .call kind x, vars => (vars.lookup x).bind (w.write? kind)
  | .callEnum enum x, vars =>
      match s.enumNamed? enum, vars.lookup x with
      | some e, some (.enum variant) => (e.indexOf? variant).map fun byte out => out ++ [byte]
      | _, _ => none
  | .ifSome x inner, vars =>
      match vars.lookup x with
      | some .absent => some fun out => out ++ [0]
      | some (.present v) =>
          (inner.run s w (("tmp", v) :: vars)).map fun write out => write (out ++ [1])
      | _ => none

/-- What statements do one after another. -/
def runWrites (s : Schema) (w : Writers) (vars : Variables) :
    List WriteStatement → Option (List UInt8 → List UInt8)
  | [] => some id
  | statement :: statements => do
      let write ← statement.run s w vars
      let more ← runWrites s w vars statements
      return fun out => more (write out)

/-- The statement for a field of a given type, in a variable. -/
def writing : FieldType → String → WriteStatement
  | .primitive kind, x => .call kind x
  | .optional inner, x => .ifSome x (writing inner "tmp")
  | .enumRef name, x => .callEnum name x

/-- The statements for a message: its tag, then its fields in order. -/
def writes (tag : UInt8) (m : Message) : List WriteStatement :=
  .push tag :: m.fields.map fun f => writing f.type f.name

/-- The variables that the pattern of a message binds. -/
def bound (m : Message) (values : List Value) : Variables := (m.fields.map (·.name)).zip values

theorem text_writing (type : FieldType) (x : String) :
    (writing type x).text = Rust.serialize type x := by
  induction type generalizing x with
  | primitive kind => exact Eq.refl s!"type_{Rust.routine kind}_serialize(out, {x});"
  | enumRef name => exact Eq.refl s!"{x}.serialize(out);"
  | optional inner ih =>
    exact congrArg (fun text => s!"if let Some(tmp) = {x} \x7b out.push(1); " ++ text ++
      " \x7d else \x7b out.push(0); \x7d") (ih "tmp")

/-- The arm of `serialize` for a message. -/
def writeArm (tag : UInt8) (m : Message) : List Line :=
  block s!"Self::{m.name}{m.binding} =>"
    ((writes tag m).map fun statement => .plain statement.text)

theorem serializeArm_eq (tag : UInt8) (m : Message) : Rust.serializeArm tag m = writeArm tag m := by
  simp only [Rust.serializeArm, variantPattern_eq, ← text_writing]
  rw [writeArm, writes, List.map_cons, List.map_map]
  rfl

/-- Choose the arm that matches a message and run it on the fields. -/
def runSerialize (s : Schema) (w : Writers) (c : Category) (m : MessageValue) :
    Option (List UInt8 → List UInt8) := do
  let arm ← c.tagged.find? fun arm => arm.2.name == m.name
  runWrites s w (bound arm.2 m.fields) (writes arm.1 arm.2)

/-! ## Expressions that read -/

/-- An expression in an arm of `deserialize`. -/
inductive ReadExpression where
  /-- Take a primitive. -/
  | call (kind : Primitive)
  /-- Take a variant of an enumeration. -/
  | callEnum (enum : String)
  /-- Take a presence byte, and then a value if it says that there is one. -/
  | ifPresent (inner : ReadExpression)

/-- The text of an expression. -/
def ReadExpression.text (flavor : Flavor) : ReadExpression → String
  | .call kind =>
      match flavor with
      | .cursor => s!"type_{Rust.routine kind}_deserialize(buf, index)?"
      | .async => s!"type_{Rust.routine kind}_deserialize(buf).await?"
  | .callEnum enum =>
      match flavor with
      | .cursor => s!"{enum}::deserialize(buf, index)?"
      | .async => s!"{enum}::deserialize(buf).await?"
  | .ifPresent inner =>
      match flavor with
      | .cursor =>
          "\x7b let present = *buf.get(*index).ok_or(())? > 0; *index += 1; " ++
            s!"if present \x7b Some({inner.text flavor}) \x7d else \x7b None \x7d \x7d"
      | .async =>
          s!"if buf.next().await.ok_or(())? > 0 \x7b Some({inner.text flavor}) \x7d" ++
            " else \x7b None \x7d"

/-- Take a primitive with the routine for its kind. -/
def Routines.read (r : Routines (EStateM Malformed σ)) : Primitive → EStateM Malformed σ Value
  | .string => return .string (← r.readString)
  | .float => return .float (← r.readFloat)
  | .u8 => return .u8 (← r.readU8)
  | .u16 => return .u16 (← r.readU16)
  | .u32 => return .u32 (← r.readU32)
  | .bool => return .bool (← r.readBool)
  | .floatPair => do
      let pair ← r.readFloatPair
      return .floatPair pair.1 pair.2

/-- What an expression takes from the input. -/
def ReadExpression.run (s : Schema) (r : Routines (EStateM Malformed σ)) :
    ReadExpression → EStateM Malformed σ Value
  | .call kind => r.read kind
  | .callEnum enum => do
      let byte ← r.readByte
      match (s.enumNamed? enum).bind (·.variant? byte) with
      | some variant => return .enum variant
      | none => throw .malformed
  | .ifPresent inner => do
      if (← r.readByte) > 0 then return .present (← inner.run s r) else return .absent

/-- The expression for a field of a given type. -/
def reading : FieldType → ReadExpression
  | .primitive kind => .call kind
  | .optional inner => .ifPresent (reading inner)
  | .enumRef name => .callEnum name

theorem text_reading (flavor : Flavor) (type : FieldType) :
    (reading type).text flavor = Rust.deserializeExpr flavor type := by
  induction type with
  | primitive kind =>
    cases flavor with
    | cursor => exact Eq.refl s!"type_{Rust.routine kind}_deserialize(buf, index)?"
    | async => exact Eq.refl s!"type_{Rust.routine kind}_deserialize(buf).await?"
  | enumRef name =>
    cases flavor with
    | cursor => exact Eq.refl s!"{name}::deserialize(buf, index)?"
    | async => exact Eq.refl s!"{name}::deserialize(buf).await?"
  | optional inner ih =>
    cases flavor with
    | cursor =>
      exact congrArg (fun text =>
        "\x7b let present = *buf.get(*index).ok_or(())? > 0; *index += 1; " ++
          s!"if present \x7b Some({text}) \x7d else \x7b None \x7d \x7d") ih
    | async =>
      exact congrArg (fun text =>
        s!"if buf.next().await.ok_or(())? > 0 \x7b Some({text}) \x7d" ++
          " else \x7b None \x7d") ih

/-- The expressions for the fields of a message, each with the variable that
    it is read into. -/
def reads (m : Message) : List (String × ReadExpression) :=
  m.fields.map fun f => (f.name, reading f.type)

/-- What the variables hold after they were read one after another. -/
def runReads (s : Schema) (r : Routines (EStateM Malformed σ)) :
    List (String × ReadExpression) → EStateM Malformed σ Variables
  | [] => return []
  | step :: steps => do
      let v ← step.2.run s r
      let vars ← runReads s r steps
      return (step.1, v) :: vars

/-- The arm of `deserialize` for a message. -/
def readArm (flavor : Flavor) (tag : UInt8) (m : Message) : List Line :=
  if m.fields = [] then [.plain s!"{tag} => Ok(Self::{m.name}),"]
  else
    block s!"{tag} =>"
      (((reads m).map fun step => .plain s!"let {step.1} = {step.2.text flavor};") ++
        [.plain s!"Ok(Self::{m.name}{m.binding})"])

theorem deserializeArm_eq (flavor : Flavor) (tag : UInt8) (m : Message) :
    Rust.deserializeArm flavor tag m = readArm flavor tag m := by
  simp only [Rust.deserializeArm, Rust.deserialize, variantPattern_eq, Message.isUnit,
    List.isEmpty_iff, ← text_reading]
  rw [readArm, reads, List.map_map]
  rfl

/-- Read a tag, choose the arm that it selects, run it and build the message
    from the variables. -/
def runDeserialize (s : Schema) (r : Routines (EStateM Malformed σ)) (c : Category) :
    EStateM Malformed σ MessageValue := do
  match c.tagged.lookup (← r.readByte) with
  | some m => return ⟨m.name, (← runReads s r (reads m)).map Prod.snd⟩
  | none => throw .malformed

/-! ## The generated code

    In both routines the arms stand one after another in tag order, and in
    `deserialize` a last one fails. -/

/-- **The arms that write**: one for each message, with nothing between
    them. -/
theorem matchSelf_infix (flavor : Flavor) (c : Category) :
    block "match self" (c.tagged.flatMap fun arm => writeArm arm.1 arm.2) <:+:
      Rust.categoryLines flavor c := by
  simp only [← serializeArm_eq]
  have hroutine := infix_block "pub fn serialize(&self, out: &mut Vec<u8>)"
    (block "match self" (c.tagged.flatMap fun arm => Rust.serializeArm arm.1 arm.2))
  have hfirst (more : List Line) := hroutine.trans (List.prefix_append _ more).isInfix
  have himpl (more : List Line) := (hfirst more).trans (infix_block s!"impl {c.name}" _)
  unfold Rust.categoryLines
  rw [List.append_assoc (block "pub fn serialize(&self, out: &mut Vec<u8>)" _)]
  exact (himpl _).trans (List.suffix_append _ _).isInfix

/-- **The arms that read**: one for each message, and one that fails. -/
theorem matchTag_infix (flavor : Flavor) (c : Category) :
    block "match tag" ((c.tagged.flatMap fun arm => readArm flavor arm.1 arm.2) ++
        [.plain "_ => Err(()),"]) <:+:
      Rust.categoryLines flavor c := by
  simp only [← deserializeArm_eq]
  have hroutine := (List.suffix_append (Rust.readTag flavor) (block "match tag"
    ((c.tagged.flatMap fun arm => Rust.deserializeArm flavor arm.1 arm.2) ++
      [Rust.otherwiseFails]))).isInfix.trans (infix_block (Rust.deserializeHead flavor) _)
  have hlast (more : List Line) := hroutine.trans (List.suffix_append more _).isInfix
  have himpl (more : List Line) := (hlast more).trans (infix_block s!"impl {c.name}" _)
  exact (himpl _).trans (List.suffix_append _ _).isInfix

/-! ## Writing the starship messages -/

/-- The statement for a field of this type does what the writer does, in any
    variable that holds this value. -/
def Does (s : Schema) (w : Writers) (type : FieldType) (v : Value)
    (write : List UInt8 → List UInt8) : Prop :=
  ∀ vars x, vars.lookup x = some v → (writing type x).run s w vars = some write

theorem does_primitive {kind : Primitive} {v : Value} {write : List UInt8 → List UInt8}
    (h : w.write? kind v = some write) : Does s w (.primitive kind) v write := by
  intro vars x hx
  rw [writing, WriteStatement.run, hx, Option.bind_some, h]

theorem does_optional {α : Type} {kind : Primitive} {view : α → Value}
    {write : α → List UInt8 → List UInt8} (h : ∀ a, Does s w (.primitive kind) (view a) (write a))
    (o : Option α) :
    Does s w (.optional (.primitive kind)) (optionalValue view o) (writeOptional write o) := by
  intro vars x hx
  cases o with
  | none =>
    simp only [writing, WriteStatement.run, hx, optionalValue]
    rfl
  | some a =>
    -- The inner statement is about `tmp`, which hides an outer one of that name.
    have hinner := h a (("tmp", view a) :: vars) "tmp" List.lookup_cons_self
    simp only [writing, WriteStatement.run, hx, optionalValue] at hinner ⊢
    rw [hinner]
    rfl

theorem does_partKind (w : Writers) (kind : PartKind) :
    Does protocol w (.enumRef "PartKind") (.enum kind.name) kind.serialize := by
  intro vars x hx
  have hfound : protocol.enumNamed? "PartKind" = some partKind := rfl
  have hbyte : partKind.indexOf? kind.name = some kind.toByte := by cases kind <;> rfl
  simp only [writing, WriteStatement.run, hx, hfound, hbyte]
  rfl

/-- Every routine is called by the statement for its kind. -/
theorem writing_statements (w : Writers) : Writing w (Does protocol w) where
  string _ := does_primitive rfl
  float _ := does_primitive rfl
  u8 _ := does_primitive rfl
  u16 _ := does_primitive rfl
  u32 _ := does_primitive rfl
  bool _ := does_primitive rfl
  floatPair _ := does_primitive rfl
  optional := does_optional
  partKind := does_partKind w

/-- Fields with different names are found by their names. -/
theorem lookup_bound {fields : List Field} (hnames : (fields.map (·.name)).Nodup)
    {values : List Value} {f : Field} {v : Value} (h : (f, v) ∈ fields.zip values) :
    ((fields.map (·.name)).zip values).lookup f.name = some v := by
  induction fields generalizing values with
  | nil => cases h
  | cons first fields ih =>
    obtain ⟨hfirst, hrest⟩ := List.nodup_cons.mp hnames
    cases values with
    | nil => cases h
    | cons v' values =>
      rw [List.map_cons, List.zip_cons_cons]
      rcases List.mem_cons.mp h with hhere | hlater
      · obtain ⟨rfl, rfl⟩ := Prod.mk.inj hhere
        exact List.lookup_cons_self
      · have hmem : f.name ∈ fields.map (·.name) :=
          List.mem_map_of_mem (List.of_mem_zip hlater).1
        have hne : f.name ≠ first.name := by
          intro heq
          rw [heq] at hmem
          exact hfirst hmem
        rw [List.lookup_cons, beq_false_of_ne hne]
        exact ih hrest hlater

/-- The statements for the fields write what the writers of the fields
    write. -/
theorem runWrites_of_writesAll {fields : List Field} {values : List Value}
    {write : List UInt8 → List UInt8} {vars : Variables}
    (h : WritesAll (Does s w) fields values write)
    (hvars : ∀ f v, (f, v) ∈ fields.zip values → vars.lookup f.name = some v) :
    runWrites s w vars (fields.map fun f => writing f.type f.name) = some write := by
  induction h with
  | nil => rfl
  | @cons field _ v _ write more hfirst _ ih =>
    have hwrite := hfirst vars field.name (hvars field v List.mem_cons_self)
    have hmore := ih fun f v hmem => hvars f v (List.mem_cons_of_mem _ hmem)
    rw [List.map_cons, runWrites, hwrite, hmore]
    rfl

/-- An encoder that writes the fields in order runs the arm of its message. -/
theorem runSerialize_of_inOrder {c : Category} {m : MessageValue}
    {write : List UInt8 → List UInt8} (hnames : ∀ d ∈ c.messages, (d.fields.map (·.name)).Nodup)
    (h : InOrder (Does s w) c m write) : runSerialize s w c m = some write := by
  obtain ⟨tag, declared, fields, htag, hdeclared, hfields, hwrite⟩ := h
  -- The arm is found by the name of the message, and the fields by the tag:
  -- both are those of one message.
  obtain ⟨⟨number, named⟩, harm, rfl⟩ := Option.map_eq_some_iff.mp htag
  have hnamed : c.messageByTag? number = some named :=
    getElem?_of_mem_tagged (List.mem_of_find?_eq_some harm)
  obtain rfl : named = declared := Option.some.inj (hnamed.symm.trans hdeclared)
  have hnodup := hnames named (List.mem_of_getElem? hdeclared)
  have hrest := runWrites_of_writesAll hfields fun f v => lookup_bound hnodup
  have hall : write = fun out => fields (out ++ [number]) := funext hwrite
  unfold runSerialize
  rw [harm, hall]
  simp only [Option.bind_eq_bind, Option.bind_some, writes, runWrites, bound, hrest]
  rfl

/-- **Writing a message** is running its arm of the generated code, whatever
    the routines do. -/
theorem serialize_runs_arms (w : Writers) :
    (∀ m : ToServer, runSerialize protocol w toServer m.toValue = some (m.serialize w)) ∧
      ∀ m : ToClient, runSerialize protocol w toClient m.toValue = some (m.serialize w) := by
  have hwriting := writing_statements w
  refine ⟨fun m => ?_, fun m => ?_⟩
  · exact runSerialize_of_inOrder (by decide) (inOrder_toServer hwriting m)
  · exact runSerialize_of_inOrder (by decide) (inOrder_toClient hwriting m)

example : (toServer.tagged[3]?.map fun arm => (writes arm.1 arm.2).map WriteStatement.text) =
    some ["out.push(3);", "type_float_serialize(out, x);", "type_float_serialize(out, y);"] := by
  decide +kernel

/-! ## Reading the starship messages -/

section

variable {α : Type}

theorem mirrors_refl (x : EStateM Malformed σ α) : Mirrors id x x := by
  rintro t _ rfl
  cases x t with
  | ok a u => exact ⟨rfl, rfl⟩
  | error e u => rfl

/-- Two readers that fail alike are told apart by nothing. -/
theorem Mirrors.map_eq {β : Type} {view : α → β} {x : EStateM Malformed σ α}
    {y : EStateM Malformed σ β} (h : Mirrors view x y) : view <$> x = y := by
  funext t
  have ht := h t t rfl
  show EStateM.map view x t = y t
  unfold EStateM.map
  cases hx : x t with
  | ok a u =>
    rw [hx] at ht
    cases hy : y t with
    | ok b v =>
      rw [hy] at ht
      obtain ⟨rfl, rfl⟩ := ht
      rfl
    | error e v =>
      rw [hy] at ht
      exact ht.elim
  | error e u =>
    rw [hx] at ht
    cases hy : y t with
    | ok b v =>
      rw [hy] at ht
      exact ht.elim
    | error e' v =>
      rw [hy] at ht
      cases e
      cases e'
      obtain rfl : u = v := ht
      rfl

theorem mirrors_ifPresent {r : Routines (EStateM Malformed σ)} {read : EStateM Malformed σ α}
    {view : α → Value} {inner : ReadExpression} (h : Mirrors view read (inner.run s r)) :
    Mirrors (optionalValue view) (readOptional r read)
      ((ReadExpression.ifPresent inner).run s r) := by
  unfold readOptional ReadExpression.run
  refine mirrors_bind (mirrors_refl r.readByte) fun presence => ?_
  by_cases hpresent : presence > 0
  · simp only [id, hpresent, if_true]
    exact mirrors_bind h fun a => mirrors_pure rfl
  · simp only [id, hpresent, if_false]
    exact mirrors_pure rfl

theorem mirrors_callEnum (r : Routines (EStateM Malformed σ)) :
    Mirrors (fun kind => Value.enum kind.name) (PartKind.deserialize r)
      ((ReadExpression.callEnum "PartKind").run protocol r) := by
  have hfound : protocol.enumNamed? "PartKind" = some partKind := rfl
  unfold PartKind.deserialize ReadExpression.run
  refine mirrors_bind (mirrors_refl r.readByte) fun number => ?_
  simp only [id, hfound, Option.bind_some, variant?_partKind]
  cases PartKind.ofByte? number with
  | none => exact mirrors_throw
  | some kind => exact mirrors_pure rfl

/-- Every routine is called by the expression for its kind. -/
theorem mirroring_expressions (r : Routines (EStateM Malformed σ)) :
    Mirroring r r.readByte fun type => (reading type).run protocol r where
  tag := mirrors_refl r.readByte
  string := (mirrors_refl r.readString).wrap Value.string
  float := (mirrors_refl r.readFloat).wrap Value.float
  u8 := (mirrors_refl r.readU8).wrap Value.u8
  u16 := (mirrors_refl r.readU16).wrap Value.u16
  u32 := (mirrors_refl r.readU32).wrap Value.u32
  bool := (mirrors_refl r.readBool).wrap Value.bool
  floatPair := (mirrors_refl r.readFloatPair).wrap fun pair => Value.floatPair pair.1 pair.2
  optional h := mirrors_ifPresent h
  partKind := mirrors_callEnum r

end

theorem map_snd_runReads (r : Routines (EStateM Malformed σ)) (fields : List Field) :
    (List.map Prod.snd <$> runReads s r (fields.map fun f => (f.name, reading f.type))) =
      readFields (fun type => (reading type).run s r) fields := by
  induction fields with
  | nil => rfl
  | cons field fields ih =>
    rw [List.map_cons, runReads, readFields, ← ih]
    simp only [map_eq_pure_bind, bind_assoc, pure_bind, List.map_cons]

/-- The arm with a tag is that of the message with this tag. -/
theorem lookup_tagged {c : Category} (hsize : c.messages.length ≤ maxTags) (tag : UInt8) :
    c.tagged.lookup tag = c.messageByTag? tag := by
  cases hfound : c.tagged.lookup tag with
  | some m =>
    obtain ⟨before, after, hsplit, -⟩ := List.lookup_eq_some_iff.mp hfound
    have hmem : (tag, m) ∈ c.tagged := by
      rw [hsplit]
      exact List.mem_append_right before List.mem_cons_self
    exact (getElem?_of_mem_tagged hmem).symm
  | none =>
    -- A message with this tag would have an arm.
    symm
    by_contra hsome
    obtain ⟨m, hm⟩ := Option.ne_none_iff_exists'.mp hsome
    obtain ⟨number, hnumber, htagged⟩ := tagged_getElem? hsize hm
    obtain rfl : number = tag := UInt8.toNat_inj.mp hnumber
    have hne := List.lookup_eq_none_iff.mp hfound _ (List.mem_of_getElem? htagged)
    simp at hne

theorem runDeserialize_eq {c : Category} (hsize : c.messages.length ≤ maxTags)
    (r : Routines (EStateM Malformed σ)) :
    runDeserialize s r c =
      readMessage (fun _ => .malformed) r.readByte (fun type => (reading type).run s r) c := by
  unfold runDeserialize readMessage
  refine bind_congr fun tag => ?_
  rw [lookup_tagged hsize, readTagged]
  cases c.messageByTag? tag with
  | none => rfl
  | some m =>
    simp only [← map_snd_runReads, map_eq_pure_bind, bind_assoc, pure_bind]
    rfl

/-- **Reading a message** is running the arm of the generated code that has
    the tag, whatever the routines do; and without such an arm there is a
    failure. -/
theorem deserialize_runs_arms (r : Routines (EStateM Malformed σ)) :
    ToServer.toValue <$> ToServer.deserialize r = runDeserialize protocol r toServer ∧
      ToClient.toValue <$> ToClient.deserialize r = runDeserialize protocol r toClient := by
  have hmirroring := mirroring_expressions r
  constructor
  · rw [runDeserialize_eq (by decide)]
    exact (mirrors_toServer hmirroring).map_eq
  · rw [runDeserialize_eq (by decide)]
    exact (mirrors_toClient hmirroring).map_eq

/-- **The bytes of part kinds** are those of the generated code. -/
theorem partKind_variantArms (flavor : Flavor) (kind : PartKind) :
    partKind.VariantArms flavor kind.toByte kind.name := by
  apply variantArms_of_getElem?
  cases kind <;> rfl

end TaggedWire.Starship
