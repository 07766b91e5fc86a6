import ElmCodec.Conversion

/-!
# Running generated codecs

What the decoders and encoders of a program do with values. An expression
refers to definitions by type name, so it runs under a meaning of those names;
a meaning of a program obeys each of its definitions. Numbers are carried as
they are. An alias is also a constructor, which takes the fields of a record in
their order.
-/

namespace ElmCodec

inductive Value
  | bool (value : Bool)
  | float (value : Number)
  | string (text : String)
  | unit
  | list (items : List Value)
  | record (fields : List (String × Value))
  | variant (constructor : String) (payload : Value)
  deriving Repr

def Json.member? (key : String) : Json → Option Json
  | object members => members.lookup key
  | _ => none

-- ---------------------------------------------------------------------------
-- Decoders
-- ---------------------------------------------------------------------------

/-- `named` runs the decoders of declared types. -/
def Decoder.run (named : String → Json → Option Value) : Decoder → Json → Option Value
  | bool, .boolean value => some (.bool value)
  | float, .number value => some (.float value)
  | string, .string text => some (.string text)
  | null, .null => some .unit
  | anything, _ => some .unit
  | list item, .list values => (values.mapM fun value => item.run named value).map .list
  | .named type, json => named type json
  | _, _ => none

def TypeDecl.construct (types : List TypeDecl) (constructor : String) (arguments : List Value) :
    Option Value :=
  match types.find? (·.name = constructor) with
  | some (record _ fields) =>
    if fields.length = arguments.length then
      some (.record ((fields.map (·.1)).zip arguments))
    else none
  | _ => none

namespace DecoderBody

def runField (named : String → Json → Option Value) (json : Json) (field : String × Decoder) :
    Option Value := do
  field.2.run named (← json.member? field.1)

def runStep (named : String → Json → Option Value) (json : Json) (done : Option (List Value))
    (field : String × Decoder) : Option (List Value) := do
  let argument ← runField named json field
  return (← done) ++ [argument]

def run (types : List TypeDecl) (named : String → Json → Option Value) (json : Json) :
    DecoderBody → Option Value
  | empty => some (.record [])
  | apply constructor fields => do
    TypeDecl.construct types constructor (← fields.mapM (runField named json))
  | pipe constructor fields => do
    TypeDecl.construct types constructor (← fields.foldl (runStep named json) (some []))
  | oneOf alternatives =>
    alternatives.findSome? fun (constructor, decoder) =>
      (decoder.run named json).map (.variant constructor)
  | expression decoder => decoder.run named json

end DecoderBody

-- ---------------------------------------------------------------------------
-- Encoders
-- ---------------------------------------------------------------------------

def Encoder.run (named : String → Value → Option Json) : Encoder → Value → Option Json
  | bool, .bool value => some (.boolean value)
  | float, .float value => some (.number value)
  | string, .string text => some (.string text)
  | null, _ => some .null
  | emptyList, _ => some (.list [])
  | list item, .list values => (values.mapM fun value => item.run named value).map .list
  | .named type, value => named type value
  | _, _ => none

namespace EncoderBody

def runField (named : String → Value → Option Json) (record : List (String × Value))
    (field : FieldEncoder) : Option (String × Json) := do
  let value ← record.lookup field.identifier
  return (field.key, ← field.encoder.run named value)

def run (named : String → Value → Option Json) : EncoderBody → Value → Option Json
  | empty, _ => some (.object [])
  | object fields, .record record => (fields.mapM (runField named record)).map .object
  | cases branches, .variant constructor payload => do
    (← branches.lookup constructor).run named payload
  | expression encoder, value => encoder.run named value
  | _, _ => none

end EncoderBody

-- ---------------------------------------------------------------------------
-- Lists of results
-- ---------------------------------------------------------------------------

theorem mapM_congr {f g : α → Option β} {l : List α} (h : ∀ a ∈ l, f a = g a) :
    l.mapM f = l.mapM g := by
  induction l with
  | nil => rfl
  | cons a rest ih =>
    obtain ⟨ha, hr⟩ := List.forall_mem_cons.mp h
    simp only [List.mapM_cons, ha, ih hr]

theorem mapM_eq_some_map {f : α → Option β} {g : α → β} {l : List α}
    (h : ∀ a ∈ l, f a = some (g a)) : l.mapM f = some (l.map g) := by
  induction l with
  | nil => rfl
  | cons a rest ih =>
    obtain ⟨ha, hr⟩ := List.forall_mem_cons.mp h
    rw [List.mapM_cons, ha, ih hr]
    rfl

theorem mapM_eq_none {f : α → Option β} {l : List α} (ha : a ∈ l) (h : f a = none) :
    l.mapM f = none := by
  induction l with
  | nil => simp at ha
  | cons b rest ih =>
    rw [List.mapM_cons]
    rcases List.mem_cons.mp ha with rfl | ha
    · simp [h]
    · cases f b <;> simp [ih ha]

theorem mapM_isSome {f : α → Option β} {l : List α} (h : ∀ a ∈ l, (f a).isSome) :
    (l.mapM f).isSome := by
  induction l with
  | nil => rfl
  | cons a rest ih =>
    obtain ⟨ha, hr⟩ := List.forall_mem_cons.mp h
    obtain ⟨b, hb⟩ := Option.isSome_iff_exists.mp ha
    obtain ⟨bs, hbs⟩ := Option.isSome_iff_exists.mp (ih hr)
    simp [List.mapM_cons, hb, hbs]

theorem findSome_congr {f g : α → Option β} {l : List α} (h : ∀ a ∈ l, f a = g a) :
    l.findSome? f = l.findSome? g := by
  induction l with
  | nil => rfl
  | cons a rest ih =>
    obtain ⟨ha, hr⟩ := List.forall_mem_cons.mp h
    rw [List.findSome?_cons, List.findSome?_cons, ha, ih hr]

-- ---------------------------------------------------------------------------
-- Programs
-- ---------------------------------------------------------------------------

/-- What the decoder and the encoder of each declared type do. -/
structure Meaning where
  decode : String → Json → Option Value
  encode : String → Value → Option Json

namespace Program

/-- The program of a JSON value, checked or not. -/
def ofJson (options : Options) (value : Json) : Program :=
  ofNode (.annotate (.ofRoot options.root) value)

/-- All decoder definitions. The document's comes first, as it refers to the others. -/
def decoderDefinitions (program : Program) : List DecoderDecl :=
  program.document.toList.map (·.decoder) ++ program.decoders

def encoderDefinitions (program : Program) : List EncoderDecl :=
  program.document.toList.map (·.encoder) ++ program.encoders

/-- Every definition holds, with its references resolved among all definitions. -/
structure Means (program : Program) (meaning : Meaning) : Prop where
  decode : ∀ decl ∈ program.decoderDefinitions, ∀ json,
    meaning.decode decl.name json = decl.body.run program.types meaning.decode json
  encode : ∀ decl ∈ program.encoderDefinitions, ∀ value,
    meaning.encode decl.name value = decl.body.run meaning.encode value

/-- The name whose decoder and encoder are for the whole document. -/
def entry (program : Program) : String :=
  match program.document with
  | some codec => codec.decoder.name
  | none => program.label.text

end Program

end ElmCodec
