import ContentSchema.Schema
import ContentSchema.Token.Detail
import ContentSchema.Token.Range
/-!
The canonical text of a schema. Every type line has a label, since a bare one behind a rich text
would be read as a component. Options stand in a fixed order: flags, details, the range and last the
required mark.
-/
namespace ContentSchema

namespace Property

def flags (s : Formatting) : List String := s.enabled.map Format.token

/-- A limit as an option. -/
def limitToken (g : Grammar) (name : String) (n : UInt32) : String :=
  Detail.token g { name, values := [Decimal.ofCount n] }

def limitTokens (g : Grammar) (words characters : Option UInt32) : List String :=
  (words.map (limitToken g "words")).toList ++ (characters.map (limitToken g "characters")).toList

def tablesToken (g : Grammar) (s : Formatting) : String :=
  Detail.token g { name := "tables", values := flags s }

/-- The options that give the content of a property. -/
def contentTokens (g : Grammar) : Content → List String
  | .linkedItems _ range => (range.token? g).toList
  | .asset mode range => (if mode = .images then ["images"] else []) ++ (range.token? g).toList
  | .text words characters => limitTokens g words characters
  | .singleChoice options => options
  | .multipleChoice options => options
  | .richText r =>
    flags r.formatting ++ (if r.tables then [tablesToken g r.tableFormatting] else []) ++
      limitTokens g r.words r.characters
  | _ => []

def tokens (g : Grammar) (p : Property) : List String :=
  contentTokens g p.content ++ if p.required then [g.required.toString] else []

/-- The ids of linked items as one identifier. Where the table has it, a delimiter is added, since
the line would be read as of that kind. -/
def linkedIdentifier (g : Grammar) (ids : List String) : String :=
  let joined := Text.join g.arrayDelimiter ids
  if (g.kindFor? joined).isSome then joined.push g.arrayDelimiter else joined

/-- The identifier that a property is written under. -/
def identifier (g : Grammar) (p : Property) : String :=
  match p.content with
  | .type id => id
  | .linkedItems ids _ => linkedIdentifier g ids
  | _ => (g.identifierFor? p.kind).getD p.kind.name

/-- The options in brackets. Only those of linked items are written where there are none. -/
def brackets (g : Grammar) (p : Property) : String :=
  let tokens := p.tokens g
  if p.kind = .linkedItems ∨ tokens ≠ [] then
    (g.optionsStart.toString ++ Text.join g.arrayDelimiter tokens).push g.optionsEnd
  else ""

/-- The line of a property. A reference to a snippet is its mark and id alone. -/
def text (g : Grammar) (p : Property) : String :=
  match p.content with
  | .snippet id => g.snippetMark.text ++ id
  | _ =>
    p.identifier g ++ p.brackets g ++
      if p.label = "" then "" else g.space.toString ++ p.label

/-- The components that are written below a property, one to a line. -/
def components (p : Property) : List String :=
  match p.content with
  | .richText r => r.components
  | _ => []

end Property

namespace ContentType

/-- Two spaces before the lines within a type. -/
def indent (g : Grammar) : String := .ofList [g.space, g.space]

/-- The line that opens the type. -/
def header (g : Grammar) (t : ContentType) : String :=
  t.id.push g.space ++ if t.label = "" then t.id else t.label

/-- The lines of the type, without their delimiters. -/
def texts (g : Grammar) (t : ContentType) : List String :=
  t.header g :: t.properties.flatMap fun p =>
    (p.text g :: p.components).map (indent g ++ ·)

end ContentType

namespace Schema

def text (g : Grammar) (s : Schema) : String :=
  let lines := (s.types ++ s.snippetTypes).flatMap (·.texts g)
  String.join (lines.map (· ++ g.delimiter.text))

end Schema

end ContentSchema
