import ContentSchema.Grammar.Basic
/-!
Grammar documents: what a document says of each field, and the checks that make a grammar of it. A
document is checked field by field, then mark against mark (`validate`); a grammar is written back
as the document it comes from (`validate_ofGrammar`).
-/
namespace ContentSchema

inductive GrammarError where
  | missingField (field : GrammarField)
  | emptyMarker (field : GrammarField)
  | ambiguousMarkers (first second : GrammarField) (c : Char)
  | skippedMarker (field : GrammarField) (c : Char)
  | missingKind (field : GrammarField) (kind : String)
deriving DecidableEq

namespace GrammarError

def message : GrammarError → String
  | missingField field => s!"'{field.name}' does not have a value"
  | emptyMarker field => s!"'{field.name}' must not be empty"
  | ambiguousMarkers first second c =>
    s!"'{first.name}' and '{second.name}' share the character '{c}'"
  | skippedMarker field c => s!"skip character '{c}' is also used by '{field.name}'"
  | missingKind field kind =>
    s!"'{field.name}' names kind '{kind}', which is not in the property table"

end GrammarError

namespace Markup

/-- The first field whose character a later one has too, with the first such. -/
def firstClash : List (GrammarField × Char) → Option (GrammarField × GrammarField × Char)
  | [] => none
  | (field, c) :: rest =>
    match rest.find? (·.2 == c) with
    | some (other, _) => some (field, other, c)
    | none => firstClash rest

theorem firstClash_eq_none_iff {marks : List (GrammarField × Char)} :
    firstClash marks = none ↔ (marks.map (·.2)).Nodup := by
  induction marks with
  | nil => simp [firstClash]
  | cons mark marks ih =>
    rw [firstClash, List.map_cons, List.nodup_cons, ← ih]
    split
    · next found =>
      have same := List.find?_some found
      have member := List.mem_of_find?_eq_some found
      simp only [beq_iff_eq] at same
      grind
    · next missing => grind

/-- The first skip character that is reserved, with the field it is reserved for. -/
def firstSkipped (m : Markup) : Option (GrammarField × Char) :=
  m.skip.findSome? fun c => m.reserved.find? (·.2 == c)

theorem firstSkipped_eq_none_iff {m : Markup} :
    m.firstSkipped = none ↔ ∀ c ∈ m.skip, c ∉ m.reservedChars := by
  simp only [firstSkipped, reservedChars, List.findSome?_eq_none_iff, List.find?_eq_none]
  grind

/-- The first kind that the grammar refers to without declaring it. -/
def firstUndeclared (m : Markup) : Option (GrammarField × String) :=
  m.roles.find? (!m.declares ·.2)

theorem firstUndeclared_eq_none_iff {m : Markup} :
    m.firstUndeclared = none ↔ ∀ role ∈ m.roles, m.declares role.2 := by
  simp [firstUndeclared]

/-- The parts as a grammar, or the first thing that is wrong between them. -/
def validate (m : Markup) : Except GrammarError Grammar :=
  match clash : firstClash m.reserved with
  | some (first, second, c) => .error (.ambiguousMarkers first second c)
  | none =>
    if same : m.moreOrLess = m.range then .error (.ambiguousMarkers .moreOrLess .range m.range)
    else
      match skipped : m.firstSkipped with
      | some (field, c) => .error (.skippedMarker field c)
      | none =>
        match undeclared : m.firstUndeclared with
        | some (field, kind) => .error (.missingKind field kind)
        | none => .ok
          { toMarkup := m
            reserved_nodup := firstClash_eq_none_iff.mp clash
            moreOrLess_ne_range := same
            not_reserved_of_skip := firstSkipped_eq_none_iff.mp skipped
            roles_declared := firstUndeclared_eq_none_iff.mp undeclared }

theorem validate_toMarkup (g : Grammar) : g.toMarkup.validate = .ok g := by
  have clash := firstClash_eq_none_iff.mpr g.reserved_nodup
  have skipped := firstSkipped_eq_none_iff.mpr g.not_reserved_of_skip
  have undeclared := firstUndeclared_eq_none_iff.mpr g.roles_declared
  unfold validate
  split
  · next eq => simp [clash] at eq
  · rw [dif_neg g.moreOrLess_ne_range]
    split
    · next eq => simp [skipped] at eq
    · split
      · next eq => simp [undeclared] at eq
      · rfl

end Markup

/-- What a document says of the fields of a grammar. -/
structure GrammarDocument where
  comments : Option String := none
  space : Option Char := none
  arrayDelimiter : Option Char := none
  optionsStart : Option Char := none
  optionsEnd : Option Char := none
  detailStart : Option Char := none
  detailEnd : Option Char := none
  moreOrLess : Option Char := none
  range : Option Char := none
  required : Option Char := none
  delimiter : Option String := none
  snippetMark : Option String := none
  table : Option (List TableRow) := none
  bracketedFallback : Option String := none
  bareFallback : Option String := none
  snippetKind : Option String := none
  typeStart : Option String := none
  skip : Option String := none
deriving DecidableEq

namespace GrammarDocument

def require {α : Type} (field : GrammarField) : Option α → Except GrammarError α
  | some a => .ok a
  | none => .error (.missingField field)

def marker (field : GrammarField) (text : String) : Except GrammarError Marker :=
  match Marker.ofString? text with
  | some m => .ok m
  | none => .error (.emptyMarker field)

/-- All fields have to be there before the first mark is looked at. -/
def markup (d : GrammarDocument) : Except GrammarError Markup := do
  let comments ← require .comments d.comments
  let space ← require .space d.space
  let arrayDelimiter ← require .arrayDelimiter d.arrayDelimiter
  let optionsStart ← require .optionsStart d.optionsStart
  let optionsEnd ← require .optionsEnd d.optionsEnd
  let detailStart ← require .detailStart d.detailStart
  let detailEnd ← require .detailEnd d.detailEnd
  let moreOrLess ← require .moreOrLess d.moreOrLess
  let range ← require .range d.range
  let required ← require .required d.required
  let delimiterText ← require .delimiter d.delimiter
  let snippetText ← require .snippetMark d.snippetMark
  let table ← require .table d.table
  let bracketedFallback ← require .bracketedFallback d.bracketedFallback
  let bareFallback ← require .bareFallback d.bareFallback
  let snippetKind ← require .snippetKind d.snippetKind
  let typeStart ← require .typeStart d.typeStart
  let skip ← require .skip d.skip
  let comment ← marker .comments comments
  let snippetMark ← marker .snippetMark snippetText
  let delimiter ← marker .delimiter delimiterText
  return {
    comment, space, arrayDelimiter, optionsStart, optionsEnd, detailStart, detailEnd
    moreOrLess, range, required, delimiter, snippetMark, table
    bracketedFallback, bareFallback, snippetKind, typeStart
    skip := skip.toList }

def validate (d : GrammarDocument) : Except GrammarError Grammar :=
  d.markup.bind (·.validate)

/-- The document that says the parts. -/
def ofMarkup (m : Markup) : GrammarDocument where
  comments := m.comment.text
  space := m.space
  arrayDelimiter := m.arrayDelimiter
  optionsStart := m.optionsStart
  optionsEnd := m.optionsEnd
  detailStart := m.detailStart
  detailEnd := m.detailEnd
  moreOrLess := m.moreOrLess
  range := m.range
  required := m.required
  delimiter := m.delimiter.text
  snippetMark := m.snippetMark.text
  table := m.table
  bracketedFallback := m.bracketedFallback
  bareFallback := m.bareFallback
  snippetKind := m.snippetKind
  typeStart := m.typeStart
  skip := String.ofList m.skip

/-- The document that gives the grammar. -/
def ofGrammar (g : Grammar) : GrammarDocument := ofMarkup g.toMarkup

theorem markup_ofMarkup (m : Markup) : (ofMarkup m).markup = .ok m := by
  simp [markup, ofMarkup, require, marker, bind, Except.bind, pure, Except.pure]

theorem validate_ofGrammar (g : Grammar) : (ofGrammar g).validate = .ok g := by
  rw [validate, ofGrammar, markup_ofMarkup, Except.bind, Markup.validate_toMarkup]

end GrammarDocument

end ContentSchema
