import ContentSchema.Assembly.Blocks
import ContentSchema.Assembly.Registry
import ContentSchema.Mode
/-!
Types assembled from entries. The strict rules refuse a document whose ids are described twice or
not at all; the loose ones repair it. Types that are used as snippets are kept apart.
-/
namespace ContentSchema

structure Assembly where
  types : List ContentType := []
  snippetTypes : List ContentType := []
deriving DecidableEq

namespace Assembly

/-- Separates the types that are used as snippets. These must not use snippets themselves. -/
def separate (snippets : IdSet) (types : List ContentType) : Except ParseError Assembly :=
  let nested := types.findSome? fun t =>
    if t.id ∈ snippets then t.snippets.least?.map (·, t.id) else none
  match nested with
  | some (snippet, typeId) => .error (.nestedSnippet snippet typeId)
  | none => .ok
    { types := types.filter (·.id ∉ snippets)
      snippetTypes := types.filter (·.id ∈ snippets) }

/-- Assembles the types of a document. `fresh` gives the endings of the ids that loose repairs make
up; it has to give others each time, and none that a document holds. -/
def ofEntries (fresh : Nat → String) (mode : Mode) (typeStart : String) (es : List Entry) :
    Except ParseError Assembly := do
  let marked := Components.attach .closed es
  let refs := References.ofEntries (marked.map (·.1))
  let described ← Blocks.types typeStart ((marked.filter (!·.2)).map (·.1))
  match mode with
  | .strict =>
    match refs.violation? (described.map (·.id)) with
    | some e => throw e
    | none => separate refs.snippets (described.map (·.relink id))
  | .loose =>
    let r := Registry.repair fresh refs described
    separate refs.snippets (r.types.map (·.relink r.rename))

end Assembly

end ContentSchema
