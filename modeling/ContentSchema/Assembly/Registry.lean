import ContentSchema.Assembly.References
import ContentSchema.ContentType
/-!
Repair of a document in which ids are described twice or not at all. Nothing that is described is
lost: types are only added, and links are sent elsewhere only where their type serves as a snippet.
-/
namespace ContentSchema

/-- Types under repair, with the ids that links to some of them have been given. -/
structure Registry where
  types : List ContentType := []
  renames : List (String × String) := []
  /-- How many ids have been made up. -/
  made : Nat := 0

namespace Registry

def find? (r : Registry) (id : String) : Option ContentType :=
  r.types.find? (·.id == id)

/-- An id of its own for a copy of the type; `fresh` gives the endings. -/
def newId (fresh : Nat → String) (r : Registry) (id : String) : String :=
  id ++ "-" ++ fresh r.made

/-- Adds the type, under an id of its own if its id is taken. -/
def insert (fresh : Nat → String) (r : Registry) (t : ContentType) : Registry :=
  if (r.find? t.id).isSome then
    { r with types := r.types ++ [t.cloneAs (r.newId fresh t.id)], made := r.made + 1 }
  else { r with types := r.types ++ [t] }

/-- Adds a copy of the type that links go to in its place. -/
def redirect (fresh : Nat → String) (r : Registry) (t : ContentType) : Registry :=
  let id := r.newId fresh t.id
  insert fresh { r with renames := r.renames ++ [(t.id, id)], made := r.made + 1 } (t.cloneAs id)

/-- A link to a snippet goes to a copy of it, and one to nothing gets an empty type. -/
def repairLink (fresh : Nat → String) (snippets : IdSet) (r : Registry) (link : String) :
    Registry :=
  let described := r.find? link
  let target := described.getD (.placeholder link)
  let redirected := if link ∈ snippets then r.redirect fresh target else r
  if described.isSome then redirected else redirected.insert fresh target

def repairSnippet (fresh : Nat → String) (r : Registry) (snippet : String) : Registry :=
  if (r.find? snippet).isSome then r else r.insert fresh (.placeholder snippet)

/-- The described types, with what has to be added so that every reference leads somewhere. -/
def repair (fresh : Nat → String) (refs : References) (types : List ContentType) : Registry :=
  let described := types.foldl (insert fresh) {}
  let linked := refs.links.toList.foldl (repairLink fresh refs.snippets) described
  refs.snippets.toList.foldl (repairSnippet fresh) linked

/-- Where a link to the id goes. -/
def rename (r : Registry) (id : String) : String :=
  (r.renames.lookup id).getD id

end Registry

end ContentSchema
