import ElmCodec.Proofs.Acceptance
import ElmCodec.Proofs.RoundTrip

/-!
# What becomes of a document

A conversion that succeeds gives a decoder that takes its document and an
encoder for the result. The document comes back whole if it reads itself
without loss. Labels do not tell an empty list from a list of nulls, so
documents where the first item with a label has another codec than a later one
are a case of their own.
-/

namespace ElmCodec

-- ---------------------------------------------------------------------------
-- Checked documents
-- ---------------------------------------------------------------------------

theorem Node.distinct_of_identifiers {path : Path} (json : Json)
    (h : ∀ shape ∈ (annotate path json).shapes, shape.identifiers.Nodup) : json.Distinct := by
  induction json using Json.induct generalizing path with
  | null => exact .null
  | boolean value => exact .boolean
  | number value => exact .number
  | string text => exact .string
  | list items ih =>
    refine .list fun item hi => ?_
    obtain ⟨i, hm⟩ := annotate_mem_annotateItems path 0 hi
    exact ih item hi fun shape hs => h shape (mem_shapes_list path hm hs)
  | object members ih =>
    rw [annotate] at h
    have hk := Shape.nodup_keys (h (.ofMembers path (annotateMembers path members))
      (by simp [shapes_object]))
    have hp := ((Members.sort_perm (annotateMembers path members)).map (·.1)).nodup_iff.mp hk
    refine .object (by simpa [annotateMembers_eq_map, Function.comp_def] using hp) fun m hm => ?_
    have hmem : (m.1, annotate (path.field m.1) m.2) ∈ annotateMembers path members := by
      rw [annotateMembers_eq_map]
      exact List.mem_map.mpr ⟨m, hm, rfl⟩
    exact ih m hm fun shape hs => h shape (mem_shapes_object path hmem hs)

namespace Program

variable {path : Path} {json : Json} {meaning : Meaning}

theorem trip_ofNode (hc : Checked (.annotate path json))
    (hm : (ofNode (.annotate path json)).Means meaning) :
    ∃ x w kept, (Node.annotate path json).reads json = some kept ∧
      meaning.decode (ofNode (.annotate path json)).entry json = some x ∧
      meaning.encode (ofNode (.annotate path json)).entry x = some w ∧
      (kept = true ↔ w.sorted = json.sorted) := by
  have hd := Node.distinct_of_identifiers json hc.identifiers
  obtain ⟨kept, hk⟩ := Option.isSome_iff_exists.mp (Node.reads_annotate path json hd)
  have ht := Node.roundTrip _ (means_shapes hc hm) json
  rw [hk] at ht
  obtain ⟨trip, rfl, ht⟩ := ht.of_some
  exact ⟨trip.value, trip.written, trip.kept, hk, (decode_entry hm json).trans ht.decoded,
    (encode_entry hm trip.value).trans ht.encoded, ht.kept hd⟩

end Program

-- ---------------------------------------------------------------------------
-- Conversions
-- ---------------------------------------------------------------------------

/-- In every list of the tree, items with one label have one codec. -/
def Node.CodecsByLabel (root : Node) : Prop :=
  ∀ path items, list path items ∈ root.preorder → ∀ a ∈ items, ∀ b ∈ items, a.label = b.label →
    Decoder.ofNode a = Decoder.ofNode b ∧ Encoder.ofNode a = Encoder.ofNode b

namespace Artifacts

/-- What a converted document decodes to encodes again, and gives the document
if it reads itself without loss. -/
theorem ofJson_roundTrip (h : ofJson options value = .ok artifacts) :
    artifacts = (Program.ofJson options value).artifacts ∧
      (∃ meaning, (Program.ofJson options value).Means meaning) ∧
      ∀ meaning, (Program.ofJson options value).Means meaning →
        ∃ x w, meaning.decode (Program.ofJson options value).entry value = some x ∧
          meaning.encode (Program.ofJson options value).entry x = some w ∧
          ((Node.annotate (.ofRoot options.root) value).reads value = some true →
            w.sorted = value.sorted) ∧
          ((Node.annotate (.ofRoot options.root) value).CodecsByLabel →
            w.sorted = value.sorted →
            (Node.annotate (.ofRoot options.root) value).reads value = some true) := by
  obtain ⟨hc, ha⟩ := ofJson_ok h
  refine ⟨ha, ⟨_, Program.means_meaning hc⟩, fun meaning hm => ?_⟩
  obtain ⟨x, w, kept, hr, hd, he, hk⟩ := Program.trip_ofNode hc hm
  refine ⟨x, w, hd, he, fun ht => hk.mp ?_, fun _ hw => ?_⟩
  · exact Option.some.inj (hr.symm.trans ht)
  · rw [hr, hk.mpr hw]

/-- A record, a text and an empty list come back. -/
theorem ofJson_roundTrip_mixed :
    ∃ artifacts, ofJson {} (.list [.object [("a", .null)], .string "x", .list []]) = .ok artifacts ∧
      ∀ meaning, (Program.ofJson {} (.list [.object [("a", .null)], .string "x", .list []])).Means
          meaning →
        ∃ x w, meaning.decode documentName (.list [.object [("a", .null)], .string "x", .list []]) =
            some x ∧
          meaning.encode documentName x = some w ∧
          w.sorted = .list [.object [("a", .null)], .string "x", .list []] := by
  obtain ⟨artifacts, h⟩ : ∃ artifacts,
      ofJson {} (.list [.object [("a", .null)], .string "x", .list []]) = .ok artifacts := ⟨_, rfl⟩
  refine ⟨artifacts, h, fun meaning hm => ?_⟩
  obtain ⟨x, w, hd, he, hw, -⟩ := (ofJson_roundTrip h).2.2 meaning hm
  exact ⟨x, w, hd, he, hw rfl⟩

/-- Two lists of lists, one of which has no items to tell what it is a list of. -/
def shadowed : Json := .list [.list [.list []], .list [.list [.number (.integer 1)]]]

/-- The alternative for `List (List ())` comes before that for `List (List Float)`
and takes its items, of which it keeps nothing. -/
theorem ofJson_loses :
    ∃ artifacts, ofJson {} shadowed = .ok artifacts ∧
      artifacts = (Program.ofJson {} shadowed).artifacts ∧
      (∃ meaning, (Program.ofJson {} shadowed).Means meaning) ∧
      ∀ meaning, (Program.ofJson {} shadowed).Means meaning →
        ∃ x w, meaning.decode documentName shadowed = some x ∧
          meaning.encode documentName x = some w ∧ w.sorted ≠ shadowed.sorted := by
  obtain ⟨artifacts, h⟩ : ∃ artifacts, ofJson {} shadowed = .ok artifacts := ⟨_, rfl⟩
  obtain ⟨hc, ha⟩ := ofJson_ok h
  refine ⟨artifacts, h, ha, ⟨_, Program.means_meaning hc⟩, fun meaning hm => ?_⟩
  obtain ⟨x, w, kept, hr, hd, he, hk⟩ := Program.trip_ofNode hc hm
  obtain rfl : kept = false := Option.some.inj (hr.symm.trans rfl)
  exact ⟨x, w, hd, he, fun hw => Bool.false_ne_true (hk.mpr hw)⟩

end Artifacts

end ElmCodec
