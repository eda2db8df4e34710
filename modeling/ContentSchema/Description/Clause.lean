import ContentSchema.Token.Detail
import ContentSchema.Token.Range
/-!
What one option says of a property. Which forms an option can have depends on the kind alone.
-/
namespace ContentSchema

inductive Clause where
  | required
  | images
  | range (r : CountRange)
  | format (f : Format)
  | words (values : List String)
  | characters (values : List String)
  | tables (values : List String)
  /-- The text of a choice. -/
  | choice (text : String)
deriving DecidableEq

namespace Clause

/-- Details of other names say nothing. -/
def ofDetail (d : Detail) : Option Clause :=
  if d.name = "words" then some (words d.values)
  else if d.name = "characters" then some (characters d.values)
  else none

/-- In rich text, tables come before the other details. -/
def ofRichDetail (d : Detail) : Option Clause :=
  if d.name = "tables" then some (tables d.values) else ofDetail d

def ofRange (g : Grammar) (token : String) : Except ParseError (Option Clause) :=
  (·.map range) <$> CountRange.ofToken g token

/-- What the option says of a property of the kind: nothing where the kind has no such option. The
required mark comes before everything else, and lines of types and snippets have no options. -/
def ofToken (g : Grammar) (kind : Kind) (token : String) : Except ParseError (Option Clause) :=
  match kind with
  | .type | .snippet => .ok none
  | kind =>
    if Text.isChar g.required token then .ok (some required)
    else match kind with
      | .linkedItems => ofRange g token
      | .asset => if token = "images" then .ok (some images) else ofRange g token
      | .text => (·.bind ofDetail) <$> Detail.ofToken g token
      | .richText =>
        match Format.ofToken? token with
        | some f => .ok (some (format f))
        | none => (·.bind ofRichDetail) <$> Detail.ofToken g token
      | .singleChoice | .multipleChoice => .ok (some (choice token))
      | _ => .ok none

end Clause

end ContentSchema
