import ElmCodec.Proofs.Closed

/-!
# Checked documents have a meaning

What an expression does depends on the definitions that it refers to and on no
others. As definitions refer to later ones only, they can be resolved from the
last to the first, and all of them hold of the result.
-/

namespace ElmCodec

-- ---------------------------------------------------------------------------
-- Expressions depend on their references
-- ---------------------------------------------------------------------------

section
variable {first second : String → Json → Option Value}

theorem Decoder.run_congr {decoder : Decoder}
    (h : ∀ type ∈ decoder.references, first type = second type) (json : Json) :
    decoder.run first json = decoder.run second json := by
  induction decoder generalizing json with
  | list item ih =>
    cases json with
    | list values => simp only [run, mapM_congr fun value _ => ih h value]
    | _ => rfl
  | named type => simp only [run, h type (List.mem_singleton.mpr rfl)]
  | _ => cases json <;> rfl

theorem DecoderBody.runField_congr {fields : List (String × Decoder)}
    (h : ∀ type ∈ fields.flatMap (·.2.references), first type = second type) (json : Json)
    (hf : field ∈ fields) : runField first json field = runField second json field := by
  unfold runField
  congr 1
  funext member
  exact Decoder.run_congr (fun type ht => h type (List.mem_flatMap.mpr ⟨field, hf, ht⟩)) member

theorem DecoderBody.foldl_runStep (named : String → Json → Option Value) (json : Json)
    (fields : List (String × Decoder)) (done : Option (List Value)) :
    fields.foldl (runStep named json) done =
      done.bind fun done => (fields.mapM (runField named json)).map (done ++ ·) := by
  induction fields generalizing done with
  | nil => cases done <;> simp
  | cons field rest ih =>
    rw [List.foldl_cons, ih, List.mapM_cons]
    cases ha : runField named json field with
    | none => cases done <;> simp [runStep, ha]
    | some argument =>
      cases done <;> cases rest.mapM (runField named json) <;> simp [runStep, ha]

theorem DecoderBody.run_pipe (types : List TypeDecl) (named : String → Json → Option Value)
    (json : Json) (constructor : String) (fields : List (String × Decoder)) :
    (pipe constructor fields).run types named json =
      (apply constructor fields).run types named json := by
  simp [run, foldl_runStep]

theorem DecoderBody.run_congr {body : DecoderBody}
    (h : ∀ type ∈ body.references, first type = second type) (types : List TypeDecl) (json : Json) :
    body.run types first json = body.run types second json := by
  have happly : ∀ constructor fields,
      (∀ type ∈ (apply constructor fields).references, first type = second type) →
        (apply constructor fields).run types first json =
          (apply constructor fields).run types second json := by
    intro constructor fields h
    simp only [run, mapM_congr fun field hf => runField_congr h json hf]
  cases body with
  | empty => rfl
  | apply constructor fields => exact happly constructor fields h
  | pipe constructor fields =>
    rw [run_pipe, run_pipe]
    exact happly constructor fields h
  | oneOf alternatives =>
    refine findSome_congr fun (constructor, decoder) ha => ?_
    have hd := Decoder.run_congr (fun type ht => h type (List.mem_flatMap.mpr ⟨_, ha, ht⟩)) json
    exact congrArg (Option.map (Value.variant constructor)) hd
  | expression decoder => exact Decoder.run_congr h json

end

section
variable {first second : String → Value → Option Json}

theorem Encoder.run_congr {encoder : Encoder}
    (h : ∀ type ∈ encoder.references, first type = second type) (value : Value) :
    encoder.run first value = encoder.run second value := by
  induction encoder generalizing value with
  | list item ih =>
    cases value with
    | list values => simp only [run, mapM_congr fun value _ => ih h value]
    | _ => rfl
  | named type => simp only [run, h type (List.mem_singleton.mpr rfl)]
  | _ => cases value <;> rfl

theorem EncoderBody.run_congr {body : EncoderBody}
    (h : ∀ type ∈ body.references, first type = second type) (value : Value) :
    body.run first value = body.run second value := by
  cases body with
  | empty => cases value <;> rfl
  | object fields =>
    cases value with
    | record record =>
      have hf : ∀ field ∈ fields, runField first record field = runField second record field := by
        intro field hf
        unfold runField
        congr 1
        funext value
        rw [Encoder.run_congr fun type ht => h type (List.mem_flatMap.mpr ⟨field, hf, ht⟩)]
      simp only [run, mapM_congr hf]
    | _ => rfl
  | cases branches =>
    cases value with
    | variant constructor payload =>
      simp only [run]
      cases hl : branches.lookup constructor with
      | none => rfl
      | some encoder =>
        refine Encoder.run_congr (fun type ht => h type ?_) payload
        exact List.mem_flatMap.mpr ⟨(constructor, encoder), Members.mem_of_lookup hl, ht⟩
    | _ => rfl
  | expression encoder =>
    simpa only [run] using Encoder.run_congr h value

end

-- ---------------------------------------------------------------------------
-- Resolving definitions
-- ---------------------------------------------------------------------------

/-- Resolves definitions from the last to the first. -/
def resolve (eval : (String → α) → β → α) (absent : α) : List (String × β) → String → α
  | [], _ => absent
  | (name, body) :: rest, other =>
    if other = name then eval (resolve eval absent rest) body else resolve eval absent rest other

section
variable {eval : (String → α) → β → α}

theorem resolve_rest (h : ((name, body) :: rest).map (·.1) |>.Nodup) (ht : type ∈ rest.map (·.1)) :
    resolve eval absent ((name, body) :: rest) type = resolve eval absent rest type := by
  rw [resolve, if_neg]
  rintro rfl
  exact (List.nodup_cons.mp h).1 ht

theorem resolve_eq (references : β → List String)
    (hc : ∀ first second body,
      (∀ type ∈ references body, first type = second type) → eval first body = eval second body)
    {definitions : List (String × β)} (hn : (definitions.map (·.1)).Nodup)
    (hf : Forward (·.1) (fun definition => references definition.2) definitions)
    (hd : (name, body) ∈ definitions) :
    resolve eval absent definitions name = eval (resolve eval absent definitions) body := by
  induction definitions with
  | nil => simp at hd
  | cons definition rest ih =>
    -- No body refers to the first definition, so the others are resolved without it.
    have hrest : eval (resolve eval absent (definition :: rest)) body =
        eval (resolve eval absent rest) body :=
      hc _ _ _ fun type ht => resolve_rest hn (hf.mem_tail hd ht)
    rw [hrest]
    rcases List.mem_cons.mp hd with rfl | hd
    · rw [resolve, if_pos rfl]
    · rw [← ih (List.nodup_cons.mp hn).2 hf.tail hd]
      exact resolve_rest hn (List.mem_map_of_mem hd)

end

-- ---------------------------------------------------------------------------
-- The meaning of a program
-- ---------------------------------------------------------------------------

namespace Program

def meaning (program : Program) : Meaning where
  decode := resolve (fun named body json => DecoderBody.run program.types named json body)
    (fun _ => none) (program.decoderDefinitions.map fun decl => (decl.name, decl.body))
  encode := resolve (fun named body value => body.run named value)
    (fun _ => none) (program.encoderDefinitions.map fun decl => (decl.name, decl.body))

variable {path : Path} {json : Json}

theorem forward_definitions {name : α → String} {references : α → List String}
    (document : String → α) (make : Shape → α)
    (hd : ∀ doc, references (document doc) = (Node.annotate path json).label.names)
    (hn : ∀ shape, name (make shape) = shape.name)
    (hr : ∀ shape ∈ (Node.annotate path json).shapes,
      references (make shape) = shape.references) :
    Forward name references ((Node.annotate path json).documentNames.map document ++
      (Node.annotate path json).shapes.map make) := by
  have hs : Forward name references ((Node.annotate path json).shapes.map make) :=
    (Node.forward_shapes path json).map make hn hr
  unfold Node.documentNames
  split
  · exact hs
  · have hnames : ((Node.annotate path json).shapes.map make).map name =
        (Node.annotate path json).shapes.map Shape.name := by
      rw [List.map_map, show name ∘ make = Shape.name from funext hn]
    refine .cons (fun type ht => ?_) hs
    exact hnames ▸ Node.mem_names_shapes (hd _ ▸ ht)

theorem forward_decoderDefinitions :
    Forward DecoderDecl.name (fun decl => decl.body.references)
      (ofNode (.annotate path json)).decoderDefinitions := by
  rw [decoderDefinitions_ofNode]
  exact forward_definitions _ _ (fun _ => Decoder.references_ofNode _) DecoderDecl.name_ofShape
    fun shape h => DecoderDecl.references_ofShape (Shape.labelled_of_mem h)

theorem forward_encoderDefinitions :
    Forward EncoderDecl.name (fun decl => decl.body.references)
      (ofNode (.annotate path json)).encoderDefinitions := by
  rw [encoderDefinitions_ofNode]
  exact forward_definitions _ _ (fun _ => Encoder.references_ofNode _) EncoderDecl.name_ofShape
    fun shape h => EncoderDecl.references_ofShape (Shape.labelled_of_mem h)

/-- The definitions of a checked document hold together. -/
theorem means_meaning {source : Json} (h : Checked (.annotate path source)) :
    (ofNode (.annotate path source)).Means (ofNode (.annotate path source)).meaning where
  decode decl hd json := by
    have hn := h.nodup_definitions
    rw [← names_decoderDefinitions] at hn
    have hd : (decl.name, decl.body) ∈ (ofNode (.annotate path source)).decoderDefinitions.map
        fun decl => (decl.name, decl.body) := List.mem_map_of_mem hd
    refine congrFun (resolve_eq DecoderBody.references ?_ ?_ ?_ hd) json
    · intro first second body hb
      funext json
      exact DecoderBody.run_congr hb _ json
    · simpa [Function.comp_def] using hn
    · exact forward_decoderDefinitions.map _ (fun _ => rfl) fun _ _ => rfl
  encode decl hd value := by
    have hn := h.nodup_definitions
    rw [← names_encoderDefinitions] at hn
    have hd : (decl.name, decl.body) ∈ (ofNode (.annotate path source)).encoderDefinitions.map
        fun decl => (decl.name, decl.body) := List.mem_map_of_mem hd
    refine congrFun (resolve_eq EncoderBody.references ?_ ?_ ?_ hd) value
    · intro first second body hb
      funext value
      exact EncoderBody.run_congr hb value
    · simpa [Function.comp_def] using hn
    · exact forward_encoderDefinitions.map _ (fun _ => rfl) fun _ _ => rfl

end Program

end ElmCodec
