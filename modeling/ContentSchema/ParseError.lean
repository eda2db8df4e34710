/-!
The reasons why a document is refused, and their wording.
-/
namespace ContentSchema

/-- The part of a line that was being read. -/
inductive Stage where
  | indent | comment | snippetMark | identifier | options | afterHead | label | delimiter
deriving DecidableEq, Repr

/-- How a message calls the part. -/
def Stage.name : Stage → String
  | indent => "LeadingWhitespace"
  | comment => "Comment"
  | snippetMark => "SnippetStart"
  | identifier => "Identifier"
  | options => "Options"
  | afterHead => "TrailingWhitespace"
  | label => "Label"
  | delimiter => "PropertyDelimiter"

inductive ParseError where
  /-- The character at the index of the source fits nothing that may stand there. -/
  | unexpected (c : Char) (index : Nat) (stage : Stage)
  /-- The source ends, at the index, within something that has to be closed. -/
  | unterminated (stage : Stage) (index : Nat)
  /-- The index counts from the start of the option. -/
  | malformedOption (option : String) (c : Char) (index : Nat)
  | duplicateOption (option : String)
  /-- The grammar names a kind that no line can have. -/
  | unresolvableKind (kind : String)
  | duplicateType (id : String)
  | undescribedLink (id : String)
  | linkIsSnippet (id : String)
  | undescribedSnippet (id : String)
  | nestedSnippet (snippet typeId : String)
  | propertyOutsideType (kind typeStart : String) (line : Nat)
deriving DecidableEq, Repr

namespace ParseError

def message : ParseError → String
  | unexpected c index stage => s!"[{c}, {index}] found '{c}' during {stage.name}"
  | unterminated stage index => s!"reached end during {stage.name} (index {index})"
  | malformedOption option c index => s!"[{c}, {index}] malformed option '{option}'"
  | duplicateOption option => s!"option '{option}' already has a value"
  | unresolvableKind kind => s!"description '{kind}' has no parsing rule"
  | duplicateType id => s!"'{id}' is already described"
  | undescribedLink id => s!"link '{id}' is undescribed"
  | linkIsSnippet id => s!"link '{id}' is already described as a snippet"
  | undescribedSnippet id => s!"snippet '{id}' is undescribed"
  | nestedSnippet snippet typeId =>
    s!"snippet with id '{snippet}' cannot be in snippet type '{typeId}'"
  | propertyOutsideType kind typeStart line =>
    s!"[line {line}] '{kind}' property is not the type start '{typeStart}'"

/-- The offending character and its index, where the error has one. -/
def position? : ParseError → Option (Char × Nat)
  | unexpected c index _ => some (c, index)
  | malformedOption _ c index => some (c, index)
  | _ => none

end ParseError

end ContentSchema
