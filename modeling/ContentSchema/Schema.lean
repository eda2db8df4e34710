import ContentSchema.Chains
/-!
A content schema: the types of a document, those used as snippets apart from the others.
-/
namespace ContentSchema

structure Schema where
  types : List ContentType := []
  snippetTypes : List ContentType := []
  /-- The chains of `types`. -/
  stats : ChainStats := {}
deriving DecidableEq

namespace Schema

/-- The first type with the id, snippet types last. -/
def find? (s : Schema) (id : String) : Option ContentType :=
  (s.types ++ s.snippetTypes).find? (·.id == id)

end Schema

end ContentSchema
