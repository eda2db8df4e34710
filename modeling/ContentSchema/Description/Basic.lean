import ContentSchema.Description.Supply
import ContentSchema.Line.Basic
/-!
What a line describes: its kind follows from its identifier, and its options supply the rest.
-/
namespace ContentSchema

namespace Line

/-- The name of the kind of a line: a snippet mark decides before the table, and the table before
the brackets. -/
def kindName (g : Grammar) (l : Line) : String :=
  if l.snippet then g.snippetKind
  else match g.kindFor? l.identifier with
    | some kind => kind
    | none => if l.options.isSome then g.bracketedFallback else g.bareFallback

/-- The property that a line describes. -/
def describe (g : Grammar) (l : Line) : Except ParseError Property :=
  match Kind.ofName? (l.kindName g) with
  | none => .error (.unresolvableKind (l.kindName g))
  | some kind => do
    let supply ← Supply.ofTokens g kind (l.options.getD [])
    return {
      label := l.label.getD ""
      required := supply.required
      content := supply.content g l.identifier kind }

end Line

end ContentSchema
