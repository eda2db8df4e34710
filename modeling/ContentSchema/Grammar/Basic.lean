import ContentSchema.Kind
/-!
Grammars: the characters that give a schema its written form, and the table that gives identifiers
their kinds. A value of `Grammar` is consistent by construction, so that no character of a line can
be taken for two marks.
-/
namespace ContentSchema

/-- The fields of a grammar document. -/
inductive GrammarField where
  | comments | space | arrayDelimiter | optionsStart | optionsEnd | detailStart | detailEnd
  | moreOrLess | range | required | delimiter | snippetMark | table
  | bracketedFallback | bareFallback | snippetKind | typeStart | skip
deriving DecidableEq, Repr

/-- The name of the field in documents. -/
def GrammarField.name : GrammarField → String
  | comments => "comments"
  | space => "space"
  | arrayDelimiter => "array_delimiter"
  | optionsStart => "options_start"
  | optionsEnd => "options_end"
  | detailStart => "option_detail_start"
  | detailEnd => "option_detail_end"
  | moreOrLess => "more_or_less"
  | range => "range"
  | required => "required"
  | delimiter => "property_delimiter"
  | snippetMark => "snippet_start"
  | table => "properties"
  | bracketedFallback => "no_property_fallback"
  | bareFallback => "no_options_fallback"
  | snippetKind => "snippet_type"
  | typeStart => "type_start"
  | skip => "skip"

/-- A mark of one or more characters; the first one alone tells that it begins. -/
structure Marker where
  head : Char
  tail : List Char
deriving DecidableEq

namespace Marker

def toList (m : Marker) : List Char := m.head :: m.tail

def text (m : Marker) : String := .ofList m.toList

def size (m : Marker) : Nat := m.toList.length

/-- The empty text is no mark. -/
def ofString? (s : String) : Option Marker :=
  match s.toList with
  | [] => none
  | c :: cs => some ⟨c, cs⟩

@[simp] theorem ofString?_text (m : Marker) : ofString? m.text = some m := by
  simp [ofString?, text, toList]

theorem ofString?_eq_some_iff {s : String} {m : Marker} : ofString? s = some m ↔ s = m.text := by
  constructor
  · intro h
    apply String.toList_inj.mp
    simp only [ofString?] at h
    split at h
    · contradiction
    · next e => cases h; simp [text, toList, e]
  · rintro rfl
    exact ofString?_text m

theorem ofString?_eq_none_iff {s : String} : ofString? s = none ↔ s = "" := by
  rw [← String.toList_inj, ofString?]
  split <;> simp_all

theorem size_pos (m : Marker) : 0 < m.size := Nat.zero_lt_succ _

end Marker

/-- A row of the table of identifiers. A row without an identifier declares its kind only. -/
structure TableRow where
  identifier : Option String
  kind : String
deriving DecidableEq

/-- The parts of a grammar, not yet checked against each other. -/
structure Markup where
  /-- Opens a comment, which lasts to the end of its line. -/
  comment : Marker
  space : Char
  arrayDelimiter : Char
  optionsStart : Char
  optionsEnd : Char
  detailStart : Char
  detailEnd : Char
  moreOrLess : Char
  range : Char
  required : Char
  /-- Ends a line. -/
  delimiter : Marker
  snippetMark : Marker
  table : List TableRow
  /-- The kind of a line with options whose identifier the table lacks. -/
  bracketedFallback : String
  /-- The kind of a line without options whose identifier the table lacks. -/
  bareFallback : String
  snippetKind : String
  typeStart : String
  /-- Characters that are passed over wherever they stand. -/
  skip : List Char
deriving DecidableEq

namespace Markup

/-- The characters that end or begin a part of a line, each with its field. -/
def reserved (m : Markup) : List (GrammarField × Char) :=
  [(.space, m.space), (.arrayDelimiter, m.arrayDelimiter),
    (.optionsStart, m.optionsStart), (.optionsEnd, m.optionsEnd),
    (.detailStart, m.detailStart), (.detailEnd, m.detailEnd),
    (.comments, m.comment.head), (.snippetMark, m.snippetMark.head),
    (.delimiter, m.delimiter.head)]

def reservedChars (m : Markup) : List Char := m.reserved.map (·.2)

/-- The kinds that the grammar itself refers to, each with its field. -/
def roles (m : Markup) : List (GrammarField × String) :=
  [(.bracketedFallback, m.bracketedFallback), (.bareFallback, m.bareFallback),
    (.snippetKind, m.snippetKind), (.typeStart, m.typeStart)]

/-- Whether some row of the table is of the kind. -/
def declares (m : Markup) (kind : String) : Bool :=
  m.table.any (·.kind == kind)

end Markup

/-- A consistent grammar. -/
structure Grammar extends Markup where
  reserved_nodup : toMarkup.reservedChars.Nodup
  moreOrLess_ne_range : moreOrLess ≠ range
  not_reserved_of_skip : ∀ c ∈ skip, c ∉ toMarkup.reservedChars
  roles_declared : ∀ role ∈ toMarkup.roles, toMarkup.declares role.2
deriving DecidableEq

namespace Grammar

/-- The kind of the first row for the identifier. -/
def kindFor? (g : Grammar) (identifier : String) : Option String :=
  (g.table.find? (·.identifier == some identifier)).map (·.kind)

/-- The identifier under which the kind is written: that of the first row that has one. -/
def identifierFor? (g : Grammar) (k : Kind) : Option String :=
  (g.table.filter (·.kind == k.name)).findSome? (·.identifier)

def opensComment (g : Grammar) (c : Char) : Bool := c == g.comment.head

def opensDelimiter (g : Grammar) (c : Char) : Bool := c == g.delimiter.head

def opensSnippet (g : Grammar) (c : Char) : Bool := c == g.snippetMark.head

/-- The array delimiter and the brackets, which stand only in their own places. -/
def isStructural (g : Grammar) (c : Char) : Bool :=
  c == g.arrayDelimiter || c == g.optionsStart || c == g.optionsEnd ||
    c == g.detailStart || c == g.detailEnd

def isReserved (g : Grammar) (c : Char) : Bool :=
  c == g.space || g.isStructural c ||
    (g.opensComment c || g.opensSnippet c || g.opensDelimiter c)

theorem isReserved_iff {g : Grammar} {c : Char} : g.isReserved c ↔ c ∈ g.reservedChars := by
  simp [isReserved, isStructural, opensComment, opensSnippet, opensDelimiter,
    Markup.reservedChars, Markup.reserved, or_assoc]

/-- No two of the characters that a grammar reserves are the same. -/
theorem apart (g : Grammar) :
    (g.space ≠ g.arrayDelimiter ∧ g.space ≠ g.optionsStart ∧ g.space ≠ g.optionsEnd ∧
      g.space ≠ g.detailStart ∧ g.space ≠ g.detailEnd ∧ g.space ≠ g.comment.head ∧
      g.space ≠ g.snippetMark.head ∧ g.space ≠ g.delimiter.head) ∧
    (g.arrayDelimiter ≠ g.optionsStart ∧ g.arrayDelimiter ≠ g.optionsEnd ∧
      g.arrayDelimiter ≠ g.detailStart ∧ g.arrayDelimiter ≠ g.detailEnd ∧
      g.arrayDelimiter ≠ g.comment.head ∧ g.arrayDelimiter ≠ g.snippetMark.head ∧
      g.arrayDelimiter ≠ g.delimiter.head) ∧
    (g.optionsStart ≠ g.optionsEnd ∧ g.optionsStart ≠ g.detailStart ∧
      g.optionsStart ≠ g.detailEnd ∧ g.optionsStart ≠ g.comment.head ∧
      g.optionsStart ≠ g.snippetMark.head ∧ g.optionsStart ≠ g.delimiter.head) ∧
    (g.optionsEnd ≠ g.detailStart ∧ g.optionsEnd ≠ g.detailEnd ∧ g.optionsEnd ≠ g.comment.head ∧
      g.optionsEnd ≠ g.snippetMark.head ∧ g.optionsEnd ≠ g.delimiter.head) ∧
    (g.detailStart ≠ g.detailEnd ∧ g.detailStart ≠ g.comment.head ∧
      g.detailStart ≠ g.snippetMark.head ∧ g.detailStart ≠ g.delimiter.head) ∧
    (g.detailEnd ≠ g.comment.head ∧ g.detailEnd ≠ g.snippetMark.head ∧
      g.detailEnd ≠ g.delimiter.head) ∧
    (g.comment.head ≠ g.snippetMark.head ∧ g.comment.head ≠ g.delimiter.head) ∧
    g.snippetMark.head ≠ g.delimiter.head := by
  simpa [Markup.reservedChars, Markup.reserved] using g.reserved_nodup

end Grammar

end ContentSchema
