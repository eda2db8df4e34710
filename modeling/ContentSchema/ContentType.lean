import ContentSchema.IdSet
import ContentSchema.Property
/-!
A content type: its properties in order, with the sets of ids they refer to.
-/
namespace ContentSchema

structure ContentType where
  id : String
  label : String
  /-- In source order, without the line that opens the type. -/
  properties : List Property := []
  links : IdSet := ∅
  snippets : IdSet := ∅
deriving DecidableEq

namespace ContentType

/-- A type without properties, for an id that is referred to but not described. -/
def placeholder (id : String) : ContentType := { id, label := id }

/-- The type that a line of this id and label opens; its label is its id unless it has one. -/
def headed (id label : String) (properties : List Property) : ContentType :=
  { id
    label := if label = "" then id else label
    properties
    snippets := .ofList (properties.filterMap (·.snippetId?)) }

/-- A copy under an id of its own. -/
def cloneAs (id : String) (t : ContentType) : ContentType := { t with id, links := ∅ }

/-- Sends every link through `f`; the set of links becomes that of the properties. -/
def relink (f : String → String) (t : ContentType) : ContentType :=
  let properties := t.properties.map (·.mapLinks f)
  { t with properties, links := .ofList (properties.flatMap (·.links)) }

end ContentType

end ContentSchema
