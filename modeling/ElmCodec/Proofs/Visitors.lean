import ElmCodec.Proofs.Programs
import ElmCodec.Proofs.Titles

/-!
# One traversal for every visitor

A visitor carries a state and may fail at any visit; what it did before stays
done. Whatever it is, the walk makes it visit the same shapes in the same order
and stops at the first failure. So the lists that the three emitters fill line
up, also when they go on from one document to the next: what stands at one
index in all of them belongs to one type.
-/

namespace ElmCodec

-- ---------------------------------------------------------------------------
-- Visits in a row
-- ---------------------------------------------------------------------------

/-- Visits from left to right, up to the first that fails. The state is that of
the visits made. -/
def visitEach (visit : Shape → σ → Except ε Unit × σ) : List Shape → σ → Except ε Unit × σ
  | [], state => (.ok (), state)
  | shape :: rest, state =>
    match visit shape state with
    | (.ok _, state) => visitEach visit rest state
    | (.error fault, state) => (.error fault, state)

section
variable {σ ε : Type}

theorem run_forM_eq_visitEach (visit : Shape → ExceptT ε (StateM σ) Unit) (shapes : List Shape)
    (state : σ) :
    (shapes.forM visit).run.run state =
      visitEach (fun shape state => (visit shape).run.run state) shapes state := by
  induction shapes generalizing state with
  | nil => rfl
  | cons shape rest ih =>
    rw [show (shape :: rest).forM visit = visit shape >>= fun _ => rest.forM visit from rfl,
      run_bind, visitEach]
    cases (visit shape).run.run state with
    | mk result state =>
      cases result with
      | ok _ => exact ih state
      | error fault => rfl

end

-- ---------------------------------------------------------------------------
-- Emitters
-- ---------------------------------------------------------------------------

/-- What one emitter has after it walked these documents one after the other. -/
def emitted (make : Shape → α) (roots : List Node) : List α :=
  roots.foldl (Program.extend make) []

theorem emitted_eq_map (make : Shape → α) (roots : List Node) :
    emitted make roots = (roots.flatMap Node.visited).map make := by
  have after : ∀ done, roots.foldl (Program.extend make) done =
      done ++ (roots.flatMap Node.visited).map make := by
    induction roots with
    | nil => simp
    | cons root rest ih =>
      intro done
      rw [List.foldl_cons, ih, Program.extend, Node.walk_eq_forM, Program.run_forM_collect]
      simp
  exact (after []).trans (List.nil_append _)

/-- The name that a type declaration declares: what stands behind `type alias` or `type`
up to the next blank. -/
def declaredName (declaration : String) : String :=
  let text := declaration.toList
  let head := ("type alias ".toList.isPrefixOf? text).or ("type ".toList.isPrefixOf? text)
  String.ofList ((head.getD text).takeWhile fun c => !c.isWhitespace)

theorem isWhitespace_of_isAlphanum {c : Char} (h : c.isAlphanum = true) :
    c.isWhitespace = false :=
  of_isAlphanum (p := fun c => c.isWhitespace = false) h (by decide)

theorem takeWhile_name {name : List Char} (h : Alphanumeric name) (hb : blank.isWhitespace = true)
    (after : List Char) :
    (name ++ blank :: after).takeWhile (fun c => !c.isWhitespace) = name := by
  rw [List.takeWhile_append_of_pos]
  · simp [hb]
  · intro c hc
    simp [isWhitespace_of_isAlphanum (h c hc)]

theorem declaredName_alias {name : String} (h : Alphanumeric name.toList) (after : String) :
    declaredName ("type alias " ++ name ++ " " ++ after) = name := by
  have hb : ' '.isWhitespace = true := rfl
  have halias : "type alias ".toList.isPrefixOf? ("type alias " ++ name ++ " " ++ after).toList =
      some (name.toList ++ ' ' :: after.toList) := by
    rw [List.isPrefixOf?_eq_some_iff_append_eq]
    simp
  simp only [declaredName, halias, Option.some_or, Option.getD_some, takeWhile_name h hb,
    String.ofList_toList]

theorem declaredName_union {name : String} (h : Alphanumeric name.toList) (after : String) :
    declaredName ("type " ++ name ++ "\n" ++ after) = name := by
  have hb : '\n'.isWhitespace = true := rfl
  -- A name is no `alias`: a line break follows it, and no space.
  have hno : "type alias ".toList.isPrefixOf? ("type " ++ name ++ "\n" ++ after).toList = none := by
    rw [Option.eq_none_iff_forall_not_mem]
    intro rest hr
    rw [Option.mem_def, List.isPrefixOf?_eq_some_iff_append_eq] at hr
    have hr : "alias".toList ++ ' ' :: rest = name.toList ++ '\n' :: after.toList := by
      simpa using hr
    have halias : ("alias".toList ++ ' ' :: rest).takeWhile (fun c => !c.isWhitespace) =
        "alias".toList := takeWhile_name (by decide) rfl rest
    rw [hr, takeWhile_name h hb] at halias
    rw [halias] at hr
    exact absurd (List.append_cancel_left hr) (by simp)
  have htype : "type ".toList.isPrefixOf? ("type " ++ name ++ "\n" ++ after).toList =
      some (name.toList ++ '\n' :: after.toList) := by
    rw [List.isPrefixOf?_eq_some_iff_append_eq]
    simp
  simp only [declaredName, hno, htype, Option.none_or, Option.getD_some, takeWhile_name h hb,
    String.ofList_toList]

theorem variants_ne_nil {items : List Node} (h : Node.isMixed items = true) (name : String) :
    Shape.variants name 0 (Node.representatives items) ≠ [] := by
  cases items with
  | nil => simp at h
  | cons item rest =>
    have hitem : item ∈ item :: rest := List.mem_cons_self
    obtain ⟨first, hf⟩ := Node.exists_representative hitem
    cases hr : Node.representatives (item :: rest) with
    | nil => simp [hr] at hf
    | cons r others => simp [Shape.variants]

theorem TypeDecl.text_record (name : String) (fields : List (String × Label)) :
    ∃ after, (record name fields).text = "type alias " ++ name ++ " " ++ after := by
  have hspace : ∀ after, " =" ++ after = " " ++ ("=" ++ after) := fun after => by
    rw [← String.append_assoc]
    rfl
  cases fields with
  | nil => exact ⟨"=" ++ "\n    \x7b\x7d", by rw [String.append_assoc, ← hspace]; rfl⟩
  | cons field rest =>
    refine ⟨"=" ++ (Layout.lines (Layout.marked "    \x7b " "    , "
      ((field :: rest).map fieldText)) ++ "\n    \x7d"), ?_⟩
    rw [String.append_assoc, ← hspace]
    simp only [text, String.append_assoc]

theorem TypeDecl.text_union {variants : List (String × Label)} (name : String)
    (h : variants ≠ []) :
    ∃ after, (union name variants).text = "type " ++ name ++ "\n" ++ after := by
  cases variants with
  | nil => exact absurd rfl h
  | cons variant rest =>
    simp only [text, Layout.lines, Layout.marked, List.map_cons, String.join_cons]
    exact ⟨_, by simp only [String.append_assoc]; rfl⟩

theorem declaredName_ofShape {node : Node} (h : node.shape? = some shape) :
    declaredName (TypeDecl.ofShape shape).text = shape.name := by
  have hn : Alphanumeric shape.name.toList :=
    (Node.name_of_shape? h).1 ▸ alphanumeric_typeName node.path
  cases node with
  | scalar path value => simp [Node.shape?] at h
  | list path items =>
    obtain ⟨hm, rfl⟩ := Node.ofItems_of_shape? h
    obtain ⟨after, ht⟩ := TypeDecl.text_union (typeName path)
      (mt List.map_eq_nil_iff.mp (variants_ne_nil hm (typeName path)))
    exact (congrArg declaredName ht).trans (declaredName_union hn after)
  | object path members =>
    obtain rfl := Option.some.inj h
    obtain ⟨after, ht⟩ := TypeDecl.text_record (typeName path) _
    exact (congrArg declaredName ht).trans (declaredName_alias hn after)

theorem DecoderDecl.text_ofShape (shape : Shape) :
    ∃ after, (ofShape shape).text =
      "decode" ++ shape.name ++ " : Json.Decode.Decoder " ++ shape.name ++ "\n" ++ after := by
  cases shape <;> exact ⟨_, by simp only [text, String.append_assoc]; rfl⟩

theorem EncoderDecl.text_ofShape (shape : Shape) :
    ∃ after, (ofShape shape).text =
      "encode" ++ shape.name ++ " : " ++ shape.name ++ " -> Json.Encode.Value\n" ++ after := by
  cases shape <;> exact ⟨_, by simp only [text, String.append_assoc]; rfl⟩

def typeText (shape : Shape) : String := (TypeDecl.ofShape shape).text

def decoderText (shape : Shape) : String := (DecoderDecl.ofShape shape).text

def encoderText (shape : Shape) : String := (EncoderDecl.ofShape shape).text

/-- Texts of the type, the decoder and the encoder of one name. -/
structure LineUp (type decoder encoder : String) : Prop where
  decoder : ∃ after, decoder = "decode" ++ declaredName type ++ " : Json.Decode.Decoder " ++
    declaredName type ++ "\n" ++ after
  encoder : ∃ after, encoder = "encode" ++ declaredName type ++ " : " ++ declaredName type ++
    " -> Json.Encode.Value\n" ++ after

theorem LineUp.ofShape {node : Node} (h : node.shape? = some shape) :
    LineUp (typeText shape) (decoderText shape) (encoderText shape) := by
  have hname : declaredName (typeText shape) = shape.name := declaredName_ofShape h
  refine ⟨?_, ?_⟩
  · rw [hname]
    exact DecoderDecl.text_ofShape shape
  · rw [hname]
    exact EncoderDecl.text_ofShape shape

theorem artifacts_eq_emitted (root : Node) :
    (Program.ofNode root).artifacts.types = emitted typeText [root] ∧
      (Program.ofNode root).artifacts.decoders = emitted decoderText [root] ∧
      (Program.ofNode root).artifacts.encoders = emitted encoderText [root] := by
  have hmap : ∀ {α : Type} (make : Shape → α) (text : α → String),
      (Program.extend make [] root).map text = emitted (fun shape => text (make shape)) [root] := by
    intro α make text
    rw [Program.extend_eq_map, emitted_eq_map, List.map_map]
    simp
  exact ⟨hmap _ _, hmap _ _, hmap _ _⟩

-- ---------------------------------------------------------------------------
-- The walk and its readers
-- ---------------------------------------------------------------------------

/-- A node has one list of shapes that every visitor visits from left to right, up to its
first failure. Emitters that walk documents in a row give one text for each of their
shapes, and the texts at one index are those of one name. -/
theorem Node.walk_eq_visitEach (node : Node) (roots : List Node) :
    (∀ {σ ε : Type} (visit : Shape → ExceptT ε (StateM σ) Unit) (state : σ),
      (node.walk visit).run.run state =
        visitEach (fun shape state => (visit shape).run.run state) node.visited state) ∧
    ((Program.ofNode node).artifacts.types = emitted typeText [node] ∧
      (Program.ofNode node).artifacts.decoders = emitted decoderText [node] ∧
      (Program.ofNode node).artifacts.encoders = emitted encoderText [node]) ∧
    emitted typeText roots = (roots.flatMap visited).map typeText ∧
    emitted decoderText roots = (roots.flatMap visited).map decoderText ∧
    emitted encoderText roots = (roots.flatMap visited).map encoderText ∧
    (emitted typeText roots).length = (emitted decoderText roots).length ∧
    (emitted decoderText roots).length = (emitted encoderText roots).length ∧
    ∀ (i : Nat) (type decoder encoder : String), (emitted typeText roots)[i]? = some type →
      (emitted decoderText roots)[i]? = some decoder →
      (emitted encoderText roots)[i]? = some encoder → LineUp type decoder encoder := by
  refine ⟨fun visit state => ?_, artifacts_eq_emitted node, emitted_eq_map _ roots,
    emitted_eq_map _ roots, emitted_eq_map _ roots, by simp [emitted_eq_map],
    by simp [emitted_eq_map], fun i type decoder encoder ht hd he => ?_⟩
  · rw [walk_eq_forM]
    exact run_forM_eq_visitEach visit node.visited state
  · rw [emitted_eq_map, List.getElem?_map, Option.map_eq_some_iff] at ht hd he
    obtain ⟨shape, hs, rfl⟩ := ht
    obtain ⟨_, hsd, rfl⟩ := hd
    obtain ⟨_, hse, rfl⟩ := he
    obtain rfl := Option.some.inj (hs.symm.trans hsd)
    obtain rfl := Option.some.inj (hs.symm.trans hse)
    obtain ⟨root, -, hv⟩ := List.mem_flatMap.mp (List.mem_of_getElem? hs)
    obtain ⟨part, -, hp⟩ := List.mem_filterMap.mp (root.mem_shapes_of_visited hv)
    exact LineUp.ofShape hp

/-- `{"a": {}, "b": {}}` -/
def twoRecords : Node :=
  .annotate (.ofRoot "Root") (.object [("b", .object []), ("a", .object [])])

/-- `[1, ""]` -/
def oneUnion : Node := .annotate (.ofRoot "More") (.list [.number (.integer 1), .string ""])

def countTo (name : String) (shape : Shape) : ExceptT String (StateM Nat) Unit := do
  if shape.name = name then throw name
  modify (· + 1)

def unionType : String := "type More\n    = More0 Float\n    | More1 String"

def unionDecoder : String :=
  "decodeMore : Json.Decode.Decoder More\ndecodeMore =\n    Json.Decode.oneOf\n" ++
    "        [ Json.Decode.map More0 Json.Decode.float\n" ++
    "        , Json.Decode.map More1 Json.Decode.string\n        ]"

def unionEncoder : String :=
  "encodeMore : More -> Json.Encode.Value\nencodeMore value =\n    case value of\n" ++
    "        More0 payload ->\n            Json.Encode.float payload\n\n" ++
    "        More1 payload ->\n            Json.Encode.string payload"

/-- The walk ends at its second visit, and a second document's declaration is the fourth. -/
theorem Node.walk_eq_visitEach_twoRecords :
    (twoRecords.walk (countTo "A")).run.run 0 = (.error "A", 1) ∧
      (emitted typeText [twoRecords, oneUnion])[3]? = some unionType ∧
      (emitted decoderText [twoRecords, oneUnion])[3]? = some unionDecoder ∧
      (emitted encoderText [twoRecords, oneUnion])[3]? = some unionEncoder ∧
      LineUp unionType unionDecoder unionEncoder := by
  obtain ⟨hwalk, -, -, -, -, -, -, hline⟩ := walk_eq_visitEach twoRecords [twoRecords, oneUnion]
  have ht : (emitted typeText [twoRecords, oneUnion])[3]? = some unionType := by decide +kernel
  have hd : (emitted decoderText [twoRecords, oneUnion])[3]? = some unionDecoder := by
    decide +kernel
  have he : (emitted encoderText [twoRecords, oneUnion])[3]? = some unionEncoder := by
    decide +kernel
  exact ⟨(hwalk (countTo "A") 0).trans rfl, ht, hd, he, hline 3 _ _ _ ht hd he⟩

end ElmCodec
