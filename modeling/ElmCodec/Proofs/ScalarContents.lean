import ElmCodec.Proofs.Alike

/-!
# Scalar contents stay out of the output

A conversion reads the keys of a document, the lengths of its lists and the
kinds of its scalars, and nothing else. Two documents that agree in these are
converted to the same artifacts, or refused for the same fault, whatever their
strings, numbers and booleans are.
-/

namespace ElmCodec

open List (Forall₂)

namespace Json

/-- The same keys, lengths of lists and kinds of scalars in the same places. -/
inductive SameShape : Json → Json → Prop
  | null : SameShape .null .null
  | boolean : SameShape (.boolean a) (.boolean b)
  | number : SameShape (.number a) (.number b)
  | string : SameShape (.string a) (.string b)
  | list : Forall₂ SameShape first second → SameShape (.list first) (.list second)
  | object {first second : List (String × Json)} : first.map (·.1) = second.map (·.1) →
      Forall₂ SameShape (first.map (·.2)) (second.map (·.2)) →
      SameShape (.object first) (.object second)

theorem forall₂_members {R : Json → Json → Prop} {first second : List (String × Json)}
    (hk : first.map (·.1) = second.map (·.1))
    (hv : Forall₂ R (first.map (·.2)) (second.map (·.2))) :
    Forall₂ (fun m n => m.1 = n.1 ∧ R m.2 n.2) first second := by
  induction first generalizing second with
  | nil =>
    cases second with
    | nil => exact .nil
    | cons n rest => simp at hk
  | cons m rest ih =>
    cases second with
    | nil => simp at hk
    | cons n others =>
      obtain ⟨hmn, hk⟩ := List.cons.inj hk
      obtain ⟨hr, hv⟩ := List.forall₂_cons.mp hv
      exact .cons ⟨hmn, hr⟩ (ih hk hv)

theorem SameShape.alike {first second : Json} (h : first.SameShape second) :
    first.Alike second := by
  induction first using Json.induct generalizing second with
  | list items ih =>
    cases h with
    | list h => exact .list (forall₂_imp_of_mem (fun item hi other => ih item hi) h)
  | object members ih =>
    cases h with
    | object hk hv =>
      refine .members (forall₂_imp_of_mem (fun m hm n h => ?_) (forall₂_members hk hv))
      exact ⟨h.1, ih m hm h.2⟩
  | null => cases h; exact .refl _
  | boolean value => cases h; exact fun path => .scalar path rfl
  | number value => cases h; exact .number _ _
  | string text => cases h; exact fun path => .scalar path rfl

end Json

namespace Artifacts

/-- Documents of one shape have the same artifacts, or are refused for the same reason. -/
theorem ofJson_sameShape {first second : Json} (h : first.SameShape second) (options : Options) :
    ofJson options first = ofJson options second :=
  h.alike.ofJson options

/-- `{"key": ["secret", 1, null, {"a": true}]}` -/
def secret : Json :=
  .object [("key", .list [.string "secret", .number (.integer 1), .null,
    .object [("a", .boolean true)]])]

/-- `{"key": ["", 0.0, null, {"a": false}]}` -/
def cleared : Json :=
  .object [("key", .list [.string "", .number (.double .zero), .null,
    .object [("a", .boolean false)]])]

theorem ofJson_sameShape_secret :
    secret.SameShape cleared ∧ ofJson {} secret = ofJson {} cleared ∧
      ofJson ⟨"list", true⟩ secret = .error (.taken "List" .prelude ⟨"list", []⟩) ∧
      ofJson ⟨"list", true⟩ secret = ofJson ⟨"list", true⟩ cleared := by
  have hitem : (Json.object [("a", .boolean true)]).SameShape (.object [("a", .boolean false)]) :=
    .object rfl (.cons .boolean .nil)
  have h : secret.SameShape cleared :=
    .object rfl
      (.cons (.list (.cons .string (.cons .number (.cons .null (.cons hitem .nil))))) .nil)
  exact ⟨h, ofJson_sameShape h {}, by decide +kernel, ofJson_sameShape h ⟨"list", true⟩⟩

end Artifacts

end ElmCodec
