import ElmCodec.Proofs.Declarations

/-!
# Two forms of a record decoder

A record of up to eight fields is decoded by one `map` over its constructor, a
wider one by a pipe that gives the constructor one field after another. Both are
taken here as the Elm expressions that they are written as, with functions of one
argument at a time. A pipe gives its left side to the function on its right, so
each step maps `|>` over a field and the constructor with the fields before it.
-/

namespace ElmCodec

-- ---------------------------------------------------------------------------
-- Types
-- ---------------------------------------------------------------------------

inductive Ty
  /-- What fields hold, and the records made of them. -/
  | value
  | decoder (result : Ty)
  | function (argument result : Ty)

namespace Ty

/-- A decoder reads JSON, or fails. -/
@[reducible] def Meaning : Ty → Type
  | value => Value
  | decoder result => Json → Option result.Meaning
  | function argument result => argument.Meaning → result.Meaning

@[reducible] def curried (result : Ty) : List Ty → Ty
  | [] => result
  | argument :: rest => function argument (curried result rest)

@[reducible] def decoders : List Ty → List Ty
  | [] => []
  | result :: rest => decoder result :: decoders rest

@[reducible] def values : List Field → List Ty
  | [] => []
  | _ :: rest => value :: values rest

theorem length_values (fields : List Field) : (values fields).length = fields.length := by
  induction fields with
  | nil => rfl
  | cons field rest ih => simp [values, ih]

end Ty

open Ty

-- ---------------------------------------------------------------------------
-- Expressions
-- ---------------------------------------------------------------------------

/-- Expressions, with the lines that they are laid out in. -/
inductive Expression : Ty → Type
  /-- The constructor of the record alias called `name`, of these fields. -/
  | constructor (name : String) (fields : List Field) : Expression (curried value (values fields))
  | succeed {a : Ty} : Expression (function a (decoder a))
  /-- `map`, `map2` and so on, up to the most decoders that the library has one for. -/
  | map {r : Ty} (arguments : List Ty) (positive : 0 < arguments.length)
      (bounded : arguments.length ≤ DecoderBody.maxArity) :
      Expression (function (curried r arguments) (curried (decoder r) (decoders arguments)))
  /-- The operator `|>` as a function. -/
  | reverseApply {a r : Ty} : Expression (function a (function (function a r) r))
  | field (member : String × Decoder) : Expression (decoder value)
  | call {a r : Ty} (f : Expression (function a r)) (argument : Expression a) : Expression r
  /-- A call with its argument on a line of its own. -/
  | callBelow {a r : Ty} (f : Expression (function a r)) (argument : Expression a) : Expression r
  | pipe {a r : Ty} (argument : Expression a) (f : Expression (function a r)) : Expression r

namespace Expression

def text {t : Ty} : Expression t → String
  | constructor name _ => name
  | succeed => "Json.Decode.succeed"
  | map arguments _ _ => DecoderBody.mapText arguments.length
  | reverseApply => "(|>)"
  | field member => DecoderBody.fieldText member
  | call f argument => f.text ++ " " ++ argument.text
  | callBelow f argument => f.text ++ Layout.lines ["        " ++ argument.text]
  | pipe argument f => argument.text ++ Layout.lines ["        |> " ++ f.text]

/-- The record of the fields that are done and of those that are still to come. -/
def construct (done : List (String × Value)) :
    (fields : List Field) → (curried value (values fields)).Meaning
  | [] => Value.record done
  | first :: rest => fun argument => construct (done ++ [(first.identifier, argument)]) rest

/-- Runs a decoder for each argument of a function that is read, all on the same JSON. -/
def applyAll {r : Ty} : (arguments : List Ty) → (Json → Option (curried r arguments).Meaning) →
    (curried (decoder r) (decoders arguments)).Meaning
  | [], read => read
  | _ :: rest, read => fun next => applyAll rest fun json =>
    (read json).bind fun f => (next json).map f

def meaning (named : String → Json → Option Value) {t : Ty} : Expression t → t.Meaning
  | constructor _ fields => construct [] fields
  | succeed => fun result _ => some result
  | map arguments _ _ => fun f => applyAll arguments fun _ => some f
  | reverseApply => fun argument f => f argument
  | field member => fun json => DecoderBody.runField named json member
  | call f argument => f.meaning named (argument.meaning named)
  | callBelow f argument => f.meaning named (argument.meaning named)
  | pipe argument f => f.meaning named (argument.meaning named)

-- ---------------------------------------------------------------------------
-- The decoder of a record
-- ---------------------------------------------------------------------------

def ofField (f : Field) : Expression (decoder value) := field (f.key, .ofNode f.node)

def applied : (fields : List Field) →
    Expression (curried (decoder value) (decoders (values fields))) → Expression (decoder value)
  | [], f => f
  | first :: rest, f => applied rest (callBelow f (ofField first))

/-- `map2` of the operator `|>` over the decoder of a field. -/
def step (r : Ty) (f : Field) : Expression (function (decoder (function value r)) (decoder r)) :=
  call (call (map [value, function value r] Nat.two_pos (Nat.le_add_left 2 6)) reverseApply)
    (ofField f)

def piped : (fields : List Field) → Expression (decoder (curried value (values fields))) →
    Expression (decoder value)
  | [], d => d
  | first :: rest, d => piped rest (pipe d (step _ first))

def narrow (name : String) (fields : List Field) (positive : 0 < fields.length)
    (bounded : fields.length ≤ DecoderBody.maxArity) : Expression (decoder value) :=
  applied fields (call (map (values fields) (length_values fields ▸ positive)
    (length_values fields ▸ bounded)) (constructor name fields))

def wide (name : String) (fields : List Field) : Expression (decoder value) :=
  piped fields (call succeed (constructor name fields))

def ofFields (name : String) (fields : List Field) (positive : 0 < fields.length) :
    Expression (decoder value) :=
  if bounded : fields.length ≤ DecoderBody.maxArity then narrow name fields positive bounded
  else wide name fields

-- ---------------------------------------------------------------------------
-- Text
-- ---------------------------------------------------------------------------

def argumentLine (f : Field) : String :=
  "        " ++ DecoderBody.fieldText (f.key, .ofNode f.node)

def pipeLine (f : Field) : String :=
  "        |> Json.Decode.map2 (|>) " ++ DecoderBody.fieldText (f.key, .ofNode f.node)

theorem text_applied (fields : List Field)
    (f : Expression (curried (decoder value) (decoders (values fields)))) :
    (applied fields f).text = f.text ++ Layout.lines (fields.map argumentLine) := by
  induction fields with
  | nil => exact String.append_empty.symm
  | cons first rest ih =>
    have hcall : (callBelow f (ofField first)).text = f.text ++ Layout.lines [argumentLine first] :=
      rfl
    have hlines := Layout.lines_append [argumentLine first] (rest.map argumentLine)
    rw [applied, ih, hcall, String.append_assoc, ← hlines]
    rfl

theorem text_step (r : Ty) (f : Field) : "        |> " ++ (step r f).text = pipeLine f := by
  have hstep : (step r f).text = DecoderBody.mapText 2 ++ " " ++ "(|>)" ++ " " ++
      DecoderBody.fieldText (f.key, .ofNode f.node) := by
    simp only [step, ofField, text, List.length_cons, List.length_nil]
  have h : "        |> " ++ (DecoderBody.mapText 2 ++ " " ++ "(|>)" ++ " ") =
      "        |> Json.Decode.map2 (|>) " := by decide
  unfold pipeLine
  rw [hstep, ← String.append_assoc, h]

theorem text_piped (fields : List Field)
    (d : Expression (decoder (curried value (values fields)))) :
    (piped fields d).text = d.text ++ Layout.lines (fields.map pipeLine) := by
  induction fields with
  | nil => exact String.append_empty.symm
  | cons first rest ih =>
    have hpipe : (pipe d (step _ first)).text = d.text ++ Layout.lines [pipeLine first] := by
      rw [text, text_step]
    have hlines := Layout.lines_append [pipeLine first] (rest.map pipeLine)
    rw [piped, ih, hpipe, String.append_assoc, ← hlines]
    rfl

theorem text_narrow (name : String) (positive : 0 < fields.length)
    (bounded : fields.length ≤ DecoderBody.maxArity) : (narrow name fields positive bounded).text =
      DecoderBody.mapText fields.length ++ " " ++ name ++
        Layout.lines (fields.map argumentLine) := by
  simp only [narrow, text_applied, text, length_values]

theorem text_wide (name : String) (fields : List Field) : (wide name fields).text =
    "Json.Decode.succeed " ++ name ++ Layout.lines (fields.map pipeLine) := by
  have h : "Json.Decode.succeed" ++ " " = "Json.Decode.succeed " := by decide
  simp only [wide, text_piped, text, h]

theorem text_ofFields (name : String) (positive : 0 < fields.length) :
    (ofFields name fields positive).text = (DecoderBody.ofFields name
      (fields.map fun field => (field.key, .ofNode field.node))).text := by
  have hne : (fields.map fun field => (field.key, Decoder.ofNode field.node)).isEmpty = false := by
    simpa [List.isEmpty_eq_false_iff] using List.ne_nil_of_length_pos positive
  have hlength : (fields.map fun field => (field.key, Decoder.ofNode field.node)).length =
      fields.length := List.length_map _
  have happly : fields.map argumentLine = (fields.map fun field =>
      (field.key, Decoder.ofNode field.node)).map ("        " ++ DecoderBody.fieldText ·) := by
    rw [List.map_map]
    rfl
  have hpipe : fields.map pipeLine = (fields.map fun field =>
      (field.key, Decoder.ofNode field.node)).map
        ("        |> Json.Decode.map2 (|>) " ++ DecoderBody.fieldText ·) := by
    rw [List.map_map]
    rfl
  unfold ofFields DecoderBody.ofFields
  rw [hne, if_neg Bool.false_ne_true, hlength]
  split
  · rw [text_narrow, happly, ← hlength]
    rfl
  · rw [text_wide, hpipe]
    rfl

-- ---------------------------------------------------------------------------
-- Meaning
-- ---------------------------------------------------------------------------

section
variable (named : String → Json → Option Value)

def readField (json : Json) (field : Field) : Option Value :=
  (ofField field).meaning named json

def readRecord (fields : List Field) (json : Json) (done : List (String × Value)) : Option Value :=
  (fields.mapM (readField named json)).map fun read =>
    .record (done ++ (fields.map (·.identifier)).zip read)

def readNext (first : Field) (done : Json → Option (List (String × Value))) (json : Json) :
    Option (List (String × Value)) := do
  return (← done json) ++ [(first.identifier, ← readField named json first)]

variable {named}

theorem readRecord_nil (json : Json) (done : List (String × Value)) :
    readRecord named [] json done = some (.record done) := by
  simp [readRecord]

theorem readRecord_cons (first : Field) (rest : List Field)
    (done : Json → Option (List (String × Value))) (json : Json) :
    (done json).bind (readRecord named (first :: rest) json) =
      (readNext named first done json).bind (readRecord named rest json) := by
  unfold readRecord readNext
  rw [List.mapM_cons]
  cases done json <;> cases readField named json first <;>
    cases rest.mapM (readField named json) <;> simp

theorem construct_next (first : Field) (rest : List Field)
    (done : Json → Option (List (String × Value))) (json : Json) :
    (((done json).map (construct · (first :: rest))).bind fun f =>
      (readField named json first).map f) =
        (readNext named first done json).map (construct · rest) := by
  unfold readNext
  cases done json <;> cases readField named json first <;> rfl

theorem meaning_applied (fields : List Field)
    (f : Expression (curried (decoder value) (decoders (values fields))))
    (done : Json → Option (List (String × Value)))
    (h : f.meaning named = applyAll (values fields)
      fun json => (done json).map (construct · fields)) (json : Json) :
    (applied fields f).meaning named json = (done json).bind (readRecord named fields json) := by
  induction fields generalizing done with
  | nil =>
    rw [applied, h]
    cases hd : done json <;> simp [applyAll, hd, readRecord_nil, construct]
  | cons first rest ih =>
    rw [applied, readRecord_cons]
    refine ih _ _ ?_
    have hstep : (callBelow f (ofField first)).meaning named = applyAll (values rest) fun json =>
        ((done json).map (construct · (first :: rest))).bind fun f =>
          (readField named json first).map f := by
      rw [meaning, h]
      rfl
    rw [hstep]
    exact congrArg (applyAll (values rest)) (funext (construct_next first rest done))

theorem meaning_step {r : Ty} (d : Expression (decoder (function value r))) (first : Field)
    (json : Json) : (pipe d (step r first)).meaning named json =
      (d.meaning named json).bind fun f => (readField named json first).map f := by
  have hmap : (pipe d (step r first)).meaning named json =
      ((readField named json first).map fun argument f => f argument).bind fun f =>
        (d.meaning named json).map f := rfl
  rw [hmap]
  cases readField named json first <;> cases d.meaning named json <;> rfl

theorem meaning_piped (fields : List Field)
    (d : Expression (decoder (curried value (values fields))))
    (done : Json → Option (List (String × Value)))
    (h : ∀ json, d.meaning named json = (done json).map (construct · fields)) (json : Json) :
    (piped fields d).meaning named json = (done json).bind (readRecord named fields json) := by
  induction fields generalizing done with
  | nil =>
    rw [piped, h]
    cases hd : done json <;> simp [readRecord_nil, construct]
  | cons first rest ih =>
    rw [piped, readRecord_cons]
    refine ih _ _ fun json => ?_
    rw [← construct_next, ← h, meaning_step]

theorem meaning_narrow (name : String) (positive : 0 < fields.length)
    (bounded : fields.length ≤ DecoderBody.maxArity) (json : Json) :
    (narrow name fields positive bounded).meaning named json = readRecord named fields json [] :=
  meaning_applied fields _ (fun _ => some []) rfl json

theorem meaning_wide (name : String) (fields : List Field) (json : Json) :
    (wide name fields).meaning named json = readRecord named fields json [] :=
  meaning_piped fields _ (fun _ => some []) (fun _ => rfl) json

theorem meaning_ofFields (name : String) (positive : 0 < fields.length) (json : Json) :
    (ofFields name fields positive).meaning named json = readRecord named fields json [] := by
  unfold ofFields
  split
  · exact meaning_narrow ..
  · exact meaning_wide ..

end

end Expression

-- ---------------------------------------------------------------------------
-- Records
-- ---------------------------------------------------------------------------

theorem mapM_eq_some_iff {f : α → Option β} {l : List α} :
    l.mapM f = some results ↔ List.Forall₂ (fun a b => f a = some b) l results := by
  induction l generalizing results with
  | nil => simp [eq_comm]
  | cons a rest ih =>
    rw [List.mapM_cons, List.forall₂_cons_left_iff]
    cases f a with
    | none => simp
    | some b => cases hr : rest.mapM f <;> simp [← ih, hr, eq_comm]

namespace Expression

variable {named : String → Json → Option Value}

theorem isSome_readRecord (fields : List Field) (json : Json) :
    (readRecord named fields json []).isSome ↔
      ∀ field ∈ fields, (readField named json field).isSome := by
  rw [readRecord, Option.isSome_map]
  refine ⟨fun h field hf => ?_, mapM_isSome⟩
  by_contra hn
  rw [mapM_eq_none hf (by simpa using hn)] at h
  cases h

/-- The decoder of a record runs as the expression that it is written as. -/
theorem run_record {types : List TypeDecl} {path : Path}
    (ht : types.find? (·.name = name) = some (.ofShape (.record name path fields)))
    (positive : 0 < fields.length) (json : Json) :
    (DecoderDecl.ofShape (.record name path fields)).body.run types named json =
      (ofFields name fields positive).meaning named json := by
  have hempty : (fields.map fun field => (field.key, Decoder.ofNode field.node)) = [] →
      TypeDecl.construct types name [] = some (.record []) := by
    intro he
    obtain rfl := List.map_eq_nil_iff.mp he
    exact TypeDecl.construct_of_find ht rfl
  rw [DecoderDecl.ofShape, DecoderBody.run_ofFields hempty, List.mapM_map, meaning_ofFields]
  change (fields.mapM (readField named json)).bind _ = _
  cases hr : fields.mapM (readField named json) with
  | none => simp [readRecord, hr]
  | some read =>
    have hl := (mapM_eq_some_iff.mp hr).length_eq
    simp [readRecord, hr, TypeDecl.construct_of_find ht hl.symm]

/-- The decoder of a record with fields is written as an expression, a `map` or a pipe. On
either side of the boundary it reads JSON exactly if the decoders of all fields do, and it gives
the alias's constructor what they read, in the order in which the alias has the fields. A pipe
means the same as what is written for the record. -/
theorem meaning_record (name : String) (path : Path) (fields : List Field)
    (positive : 0 < fields.length) :
    (DecoderDecl.ofShape (.record name path fields)).body.text =
      (ofFields name fields positive).text ∧
    ∀ named json,
      (((ofFields name fields positive).meaning named json).isSome ↔
        ∀ field ∈ fields, (readField named json field).isSome) ∧
      (∀ read, List.Forall₂ (fun field value => readField named json field = some value)
          fields read →
        (ofFields name fields positive).meaning named json =
            some (.record ((fields.map (·.identifier)).zip read)) ∧
          TypeDecl.construct [.ofShape (.record name path fields)] name read =
            some (.record ((fields.map (·.identifier)).zip read))) ∧
      (wide name fields).meaning named json = (ofFields name fields positive).meaning named json := by
  refine ⟨(text_ofFields name positive).symm, fun named json => ⟨?_, fun read hr => ⟨?_, ?_⟩, ?_⟩⟩
  · rw [meaning_ofFields]
    exact isSome_readRecord fields json
  · rw [meaning_ofFields, readRecord, mapM_eq_some_iff.mpr hr]
    rfl
  · have hfind : [TypeDecl.ofShape (.record name path fields)].find? (·.name = name) =
        some (.ofShape (.record name path fields)) := by simp [TypeDecl.name_ofShape, Shape.name]
    exact TypeDecl.construct_of_find hfind hr.length_eq.symm
  · rw [meaning_wide, meaning_ofFields]

def flags : List Field :=
  ["a", "b", "c", "d", "e", "f", "g", "h", "if"].map fun key =>
    Shape.field key (.scalar (.ofRoot Path.defaultRoot) (.boolean true))

/-- The flags are read from an object with its members in another order. -/
theorem meaning_record_flags :
    0 < flags.length ∧ DecoderBody.maxArity < flags.length ∧
      (ofFields "Root" flags (Nat.zero_lt_succ _)).meaning (fun _ _ => none)
        (.object (["if", "h", "g", "f", "e", "d", "c", "b", "a"].map fun key =>
          (key, .boolean (key == "if")))) =
        some (.record [("a", .bool false), ("b", .bool false), ("c", .bool false),
          ("d", .bool false), ("e", .bool false), ("f", .bool false), ("g", .bool false),
          ("h", .bool false), ("if_", .bool true)]) := by
  have positive : 0 < flags.length := by decide
  obtain ⟨-, h⟩ := meaning_record "Root" (.ofRoot Path.defaultRoot) flags positive
  obtain ⟨-, hread, -⟩ := h (fun _ _ => none)
    (.object (["if", "h", "g", "f", "e", "d", "c", "b", "a"].map fun key =>
      (key, .boolean (key == "if"))))
  refine ⟨positive, by decide, ?_⟩
  exact (hread (List.replicate 8 (.bool false) ++ [.bool true]) (mapM_eq_some_iff.mp rfl)).1

end Expression

end ElmCodec
