import ContentSchema.Grammar.Basic
/-!
The grammar that is used when none is given.
-/
namespace ContentSchema

namespace Markup

def standardTable : List TableRow :=
  [⟨none, Kind.type.name⟩, ⟨none, Kind.snippet.name⟩, ⟨none, Kind.linkedItems.name⟩,
    ⟨some "Asset", Kind.asset.name⟩, ⟨some "Text", Kind.text.name⟩,
    ⟨some "MultipleChoice", Kind.multipleChoice.name⟩,
    ⟨some "SingleChoice", Kind.singleChoice.name⟩, ⟨some "Date", Kind.date.name⟩,
    ⟨some "Number", Kind.number.name⟩, ⟨some "RichText", Kind.richText.name⟩,
    ⟨some "Custom", Kind.custom.name⟩]

def standard : Markup where
  comment := ⟨'/', ['/']⟩
  space := ' '
  arrayDelimiter := ','
  optionsStart := '['
  optionsEnd := ']'
  detailStart := '('
  detailEnd := ')'
  moreOrLess := '+'
  range := '-'
  required := '*'
  delimiter := ⟨'\n', []⟩
  snippetMark := ⟨'.', ['.', '.']⟩
  table := standardTable
  bracketedFallback := Kind.linkedItems.name
  bareFallback := Kind.type.name
  snippetKind := Kind.snippet.name
  typeStart := Kind.type.name
  skip := ['\r']

end Markup

namespace Grammar

/-- One type or property to a line, and options in square brackets. -/
def standard : Grammar where
  toMarkup := .standard
  reserved_nodup := by decide
  moreOrLess_ne_range := by decide
  not_reserved_of_skip := by simp [Markup.reservedChars, Markup.reserved, Markup.standard]
  roles_declared := by simp [Markup.roles, Markup.declares, Markup.standard, Markup.standardTable]

instance : Inhabited Grammar := ⟨standard⟩

end Grammar

end ContentSchema
