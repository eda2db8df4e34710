import ContentSchema.Proofs.Assembly.Modes
import ContentSchema.Proofs.Assembly.Restated
import ContentSchema.Proofs.Line.Edit
/-!
Parsing ignores the layout of a document. Entries, their components and the types that they make up
do not depend on the numbers of lines, which are all that edits of the layout change, so a document
is parsed to the same schema, or refused for the same reason (`Schema.parse_of_edits`).
-/
namespace ContentSchema

/-- The error wherever the line stands. -/
def ParseError.unplaced : ParseError → ParseError
  | propertyOutsideType kind typeStart _ => propertyOutsideType kind typeStart 1
  | e => e

theorem Line.toEntry_unplaced (g : Grammar) (l : Line) :
    l.unplaced.toEntry g = (l.toEntry g).map (·.unplaced) := by
  have same : l.unplaced.describe g = l.describe g := rfl
  rw [toEntry, toEntry, same]
  cases l.describe g <;> rfl

theorem mapM_unplaced (g : Grammar) (lines : List Line) :
    (lines.map (·.unplaced)).mapM (Line.toEntry g) =
      (lines.mapM (Line.toEntry g)).map (·.map (·.unplaced)) := by
  induction lines with
  | nil => rfl
  | cons l lines ih =>
    rw [List.map_cons, List.mapM_cons, List.mapM_cons, ih, Line.toEntry_unplaced]
    cases l.toEntry g with
    | error e => rfl
    | ok entry => cases lines.mapM (Line.toEntry g) <;> rfl

theorem entries_unplaced {g : Grammar} {a b : String} {lines again : List Line}
    (read : scan g a = .ok lines) (readAgain : scan g b = .ok again)
    (same : again.map (·.unplaced) = lines.map (·.unplaced)) :
    (entries g b).map (·.map (·.unplaced)) = (entries g a).map (·.map (·.unplaced)) := by
  have described {source : String} {ls : List Line} (read : scan g source = .ok ls) :
      entries g source = ls.mapM (Line.toEntry g) := by
    rw [entries, read]
    rfl
  rw [described read, described readAgain, ← mapM_unplaced, ← mapM_unplaced, same]

namespace Assembly

theorem references_unplaced (es : List Entry) : references (es.map (·.unplaced)) = references es := by
  rw [references, references, Components.attach_unplaced, References.ofEntries, References.ofEntries]
  simp only [List.map_map, List.flatMap_map, List.filterMap_map]
  rfl

theorem blocks_unplaced (es : List Entry) : blocks (es.map (·.unplaced)) = blocks es := by
  rw [blocks, blocks, properties_unplaced]

/-- Assembly does not depend on the numbers of lines, but for the one that an error gives. -/
theorem ofEntries_unplaced (fresh : Nat → String) (mode : Mode) (typeStart : String)
    (es : List Entry) :
    (ofEntries fresh mode typeStart (es.map (·.unplaced))).mapError (·.unplaced) =
      (ofEntries fresh mode typeStart es).mapError (·.unplaced) := by
  cases es with
  | nil => rfl
  | cons e rest =>
    by_cases outside : e.property.kind ≠ .type
    · rw [List.map_cons, ofEntries_of_outside mode outside,
        ofEntries_of_outside (e := e.unplaced) mode outside]
      rfl
    · have front : (Blocks.split (properties (e :: rest))).1 = [] := by
        rw [front_eq_nil_iff]
        rintro _ ⟨⟩
        exact not_not.mp outside
      have front' : (Blocks.split (properties ((e :: rest).map (·.unplaced)))).1 = [] := by
        rw [properties_unplaced, front]
      rw [ofEntries_eq fresh mode typeStart front, ofEntries_eq fresh mode typeStart front',
        references_unplaced, blocks_unplaced]

end Assembly

namespace Schema

open Layout

variable {a b : String} {lines : List Line}

theorem parse_eq_of_entries {g : Grammar} {source : String} {es : List Entry} (fresh : Nat → String)
    (mode : Mode) (described : entries g source = .ok es) :
    (parse fresh mode g source).mapError (·.unplaced) =
      ((Assembly.ofEntries fresh mode g.typeStart (es.map (·.unplaced))).mapError
        (·.unplaced)).map ofAssembly := by
  rw [Assembly.ofEntries_unplaced, parse, described]
  show Except.mapError _ (do return ofAssembly (← Assembly.ofEntries fresh mode g.typeStart es)) = _
  cases Assembly.ofEntries fresh mode g.typeStart es <;> rfl

/-- Documents whose entries differ in nothing but the numbers of lines are parsed alike. -/
theorem parse_unplaced {g : Grammar} (fresh : Nat → String) (mode : Mode)
    (same : (entries g b).map (·.map (·.unplaced)) = (entries g a).map (·.map (·.unplaced))) :
    (parse fresh mode g b).mapError (·.unplaced) = (parse fresh mode g a).mapError (·.unplaced) := by
  cases described : entries g a with
  | error e =>
    have failed : entries g b = .error e := by
      cases failed : entries g b with
      | error e' => simpa [described, failed, Except.map] using same
      | ok _ => simp [described, failed, Except.map] at same
    rw [parse, parse, described, failed]
  | ok es =>
    cases again : entries g b with
    | error _ => simp [described, again, Except.map] at same
    | ok es' =>
      simp only [described, again, Except.map, Except.ok.injEq] at same
      rw [parse_eq_of_entries fresh mode described, parse_eq_of_entries fresh mode again, same]

/-- However the layout of a document that can be read is edited, its lines are the same but for their
numbers, each rich text has the same components, and parsing gives the same schema, or the same error
but for the number of a line. -/
theorem parse_of_edits (fresh : Nat → String) (mode : Mode)
    (edited : Relation.ReflTransGen (Edit .standard) a b) (read : scan .standard a = .ok lines) :
    (∃ again, scan .standard b = .ok again ∧ again.map (·.unplaced) = lines.map (·.unplaced)) ∧
    ((entries .standard b).map fun es =>
      (Components.attach .closed es).map fun (e, isComponent) => (e.unplaced, isComponent)) =
      ((entries .standard a).map fun es =>
        (Components.attach .closed es).map fun (e, isComponent) => (e.unplaced, isComponent)) ∧
    (parse fresh mode .standard b).mapError (·.unplaced) =
      (parse fresh mode .standard a).mapError (·.unplaced) := by
  obtain ⟨again, readAgain, same⟩ :=
    scan_of_edits Grammar.standard_plainComments Grammar.standard_endsLines edited read
  have described := entries_unplaced read readAgain same
  refine ⟨⟨again, readAgain, same⟩, ?_, parse_unplaced fresh mode described⟩
  have attached (source : String) : ((entries .standard source).map fun es =>
      (Components.attach .closed es).map fun (e, isComponent) => (e.unplaced, isComponent)) =
      ((entries .standard source).map (·.map (·.unplaced))).map (Components.attach .closed) := by
    cases entries .standard source with
    | error e => rfl
    | ok es => exact congrArg Except.ok (Components.attach_unplaced .closed es).symm
  rw [attached, attached, described]

/-- A label that ends with half a comment mark, and a rich text with a component. -/
def compact : String := "a Home/\nRichText[p] Body\nb\n\nb Card\n"

theorem parse_of_edits_compact : ∃ s, parse numbered .strict .standard compact = .ok s ∧
    s.types.map (fun t => (t.label, t.properties.flatMap (·.components))) =
      [("Home/", ["b"]), ("Card", [])] ∧
    (parse numbered .strict .standard
      "a Home/ /\r/ note\nRichText[p] Body\n // b\nb\n\nb Card\n").mapError (·.unplaced) = .ok s := by
  let s := (parse numbered .strict .standard compact).toOption.getD {}
  let lines := (scan .standard compact).toOption.getD []
  have parsed : parse numbered .strict .standard compact = .ok s := by decide +kernel
  have read : scan .standard compact = .ok lines := by decide +kernel
  let rest := "\nRichText[p] Body\nb\n\nb Card\n"
  have noted : Edit .standard compact ("a Home/ /" ++ ("/ note" ++ rest)) := by
    have cut : compact = "" ++ "a Home/" ++ rest := by decide +kernel
    have behind : "a Home/ /" ++ ("/ note" ++ rest) =
        "" ++ ("a Home/" ++ (spaces .standard 1 ++ "// note")) ++ rest := by decide +kernel
    have isLine : IsLine .standard "" "a Home/" rest :=
      ⟨.inl rfl, by decide, .inr ⟨"RichText[p] Body\nb\n\nb Card\n", by decide +kernel⟩⟩
    have first : { identifier := "a", label := some "Home/" } ∈ lines := by decide +kernel
    rw [behind]
    rw [cut] at read ⊢
    exact .trail 0 isLine read first rfl (.inr ⟨by decide, by decide⟩)
  have returned : Edit .standard ("a Home/ /" ++ ("/ note" ++ rest))
      ("a Home/ /\r/ note\nRichText[p] Body\n" ++ "b\n\nb Card\n") := by
    have inside : "a Home/ /\r/ note\nRichText[p] Body\n" ++ "b\n\nb Card\n" =
        "a Home/ /".push '\r' ++ ("/ note" ++ rest) := by decide +kernel
    rw [inside]
    exact .skipped (by decide)
  have remarked : Edit .standard ("a Home/ /\r/ note\nRichText[p] Body\n" ++ "b\n\nb Card\n")
      "a Home/ /\r/ note\nRichText[p] Body\n // b\nb\n\nb Card\n" := by
    have between : "a Home/ /\r/ note\nRichText[p] Body\n // b\nb\n\nb Card\n" =
        "a Home/ /\r/ note\nRichText[p] Body\n" ++
          ((spaces .standard 1 ++ "// b").push '\n' ++ "b\n\nb Card\n") := by decide +kernel
    rw [between]
    exact .remark 1 (.inr ⟨"a Home/ /\r/ note\nRichText[p] Body", by decide +kernel⟩)
      ⟨by decide, by decide⟩
  have edited := Relation.ReflTransGen.tail (.tail (.single noted) returned) remarked
  exact ⟨s, parsed, by decide +kernel,
    (parse_of_edits numbered .strict edited read).2.2.trans (by rw [parsed]; rfl)⟩

end Schema

end ContentSchema
