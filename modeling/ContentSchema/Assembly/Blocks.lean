import ContentSchema.Assembly.Components
import ContentSchema.ContentType
import ContentSchema.ParseError
/-!
Blocks of entries: a line of a type opens a block, and the entries up to the next such line are the
properties of the type.
-/
namespace ContentSchema.Blocks

/-- The properties before the first type, and the types that are opened among the properties. -/
def split : List Property → List Property × List ContentType
  | [] => ([], [])
  | p :: ps =>
    let (front, types) := split ps
    match p.typeId? with
    | some id => ([], .headed id p.label front :: types)
    | none => (p :: front, types)

/-- The described types. Nothing may stand before the first. -/
def types (typeStart : String) : List Entry → Except ParseError (List ContentType)
  | [] => .ok []
  | e :: es =>
    if e.property.typeId?.isSome then .ok (split ((e :: es).map (·.property))).2
    else .error (.propertyOutsideType e.property.kind.name typeStart e.line)

end ContentSchema.Blocks
