import ElmCodec.Proofs.DeclaredNames
import ElmCodec.Proofs.Evaluation

/-!
# Programs of documents

The three lists of a program hold one declaration for each shape of its
document, in the order of the tree. A conversion succeeds on the documents that
pass the name check, and gives the text of their programs.
-/

namespace ElmCodec

def Node.documentNames (root : Node) : List String := if root.isRecord then [] else [documentName]

namespace Program

theorem run_forM_collect (make : Shape → α) (shapes : List Shape) (done : List α) :
    ((shapes.forM (collect make)).run done).2 = done ++ shapes.map make := by
  induction shapes generalizing done with
  | nil => exact (List.append_nil done).symm
  | cons shape rest ih =>
    have h := ih (done ++ [make shape])
    rw [List.map_cons, List.append_cons, ← h]
    rfl

theorem extend_eq_map (make : Shape → α) (root : Node) :
    extend make [] root = root.visited.map make := by
  rw [extend, Node.walk_eq_forM, run_forM_collect, List.nil_append]

theorem extend_annotate (make : Shape → α) (path : Path) (json : Json) :
    extend make [] (.annotate path json) = (Node.annotate path json).shapes.map make := by
  rw [extend_eq_map, Node.visited_annotate]

variable {path : Path} {json : Json}

@[simp] theorem types_ofNode :
    (ofNode (.annotate path json)).types = (Node.annotate path json).shapes.map .ofShape :=
  extend_annotate _ path json

@[simp] theorem decoders_ofNode :
    (ofNode (.annotate path json)).decoders = (Node.annotate path json).shapes.map .ofShape :=
  extend_annotate _ path json

@[simp] theorem encoders_ofNode :
    (ofNode (.annotate path json)).encoders = (Node.annotate path json).shapes.map .ofShape :=
  extend_annotate _ path json

theorem decoderDefinitions_ofNode :
    (ofNode (.annotate path json)).decoderDefinitions =
      (Node.annotate path json).documentNames.map
        (fun name => ⟨name, (Node.annotate path json).label,
          .expression (.ofNode (.annotate path json))⟩) ++
      (Node.annotate path json).shapes.map .ofShape := by
  rw [decoderDefinitions, decoders_ofNode]
  simp only [ofNode, assemble, Node.documentCodec, Node.documentNames]
  split <;> rfl

theorem encoderDefinitions_ofNode :
    (ofNode (.annotate path json)).encoderDefinitions =
      (Node.annotate path json).documentNames.map
        (fun name => ⟨name, (Node.annotate path json).label,
          .expression (.ofNode (.annotate path json))⟩) ++
      (Node.annotate path json).shapes.map .ofShape := by
  rw [encoderDefinitions, encoders_ofNode]
  simp only [ofNode, assemble, Node.documentCodec, Node.documentNames]
  split <;> rfl

end Program

@[simp] theorem TypeDecl.name_ofShape (shape : Shape) : (ofShape shape).name = shape.name := by
  cases shape <;> rfl

@[simp] theorem DecoderDecl.name_ofShape (shape : Shape) : (ofShape shape).name = shape.name := by
  cases shape <;> rfl

@[simp] theorem EncoderDecl.name_ofShape (shape : Shape) : (ofShape shape).name = shape.name := by
  cases shape <;> rfl

theorem Artifacts.ofJson_ok (h : ofJson options value = .ok artifacts) :
    Checked (.annotate (.ofRoot options.root) value) ∧
      artifacts = (Program.ofJson options value).artifacts := by
  simp only [ofJson, bind_ok] at h
  obtain ⟨_, hc, h⟩ := h
  refine ⟨NameCheck.run_ok_iff.mp hc, ?_⟩
  rw [Program.ofNodeParallel_eq, ite_self] at h
  cases h
  rfl

theorem Artifacts.ofJson_of_checked (h : Checked (.annotate (.ofRoot options.root) value)) :
    ofJson options value = .ok (Program.ofJson options value).artifacts := by
  simp only [ofJson, NameCheck.run_ok_iff.mpr h, Program.ofNodeParallel_eq, ite_self]
  rfl

theorem Artifacts.ofJson_ok_iff : ofJson options value = .ok artifacts ↔
    Checked (.annotate (.ofRoot options.root) value) ∧
      artifacts = (Program.ofJson options value).artifacts :=
  ⟨ofJson_ok, fun ⟨hc, ha⟩ => ha ▸ ofJson_of_checked hc⟩

theorem Artifacts.ofJson_error (h : ofJson options value = .error fault) :
    NameCheck.run (.annotate (.ofRoot options.root) value) = .error fault := by
  simp only [ofJson, bind_error] at h
  rcases h with h | ⟨_, -, h⟩
  · exact h
  · cases h

end ElmCodec
