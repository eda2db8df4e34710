import ContentSchema.Assembly.Basic
import ContentSchema.Description.Basic
import ContentSchema.Line.Scan
import ContentSchema.Schema
/-!
The schema that a document describes: its lines, their properties, the types these make up, and the
chains between the types.
-/
namespace ContentSchema

/-- The property of a line, with the place of the line. -/
def Line.toEntry (g : Grammar) (l : Line) : Except ParseError Entry :=
  (l.describe g).map fun property =>
    { property, line := l.number, afterBlank := l.afterBlank }

/-- The described lines of a document. -/
def entries (g : Grammar) (source : String) : Except ParseError (List Entry) := do
  (← scan g source).mapM (Line.toEntry g)

namespace Schema

/-- Chains run between types that are no snippets. -/
def ofAssembly (a : Assembly) : Schema :=
  { types := a.types, snippetTypes := a.snippetTypes, stats := Chains.stats a.types }

/-- Parses a document; see `Assembly.ofEntries` for `fresh`. -/
def parse (fresh : Nat → String) (mode : Mode) (g : Grammar) (source : String) :
    Except ParseError Schema := do
  return ofAssembly (← Assembly.ofEntries fresh mode g.typeStart (← entries g source))

end Schema

end ContentSchema
