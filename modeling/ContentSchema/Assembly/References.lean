import ContentSchema.Assembly.Components
import ContentSchema.IdSet
import ContentSchema.ParseError
/-!
The ids that a document refers to, and the strict rules for them.
-/
namespace ContentSchema

structure References where
  /-- The ids of linked items and of components. -/
  links : IdSet
  snippets : IdSet

namespace References

def ofEntries (es : List Entry) : References where
  links := .ofList (es.flatMap (·.property.links))
  snippets := .ofList (es.filterMap (·.property.snippetId?))

/-- The first id that has come before. -/
def firstRepeated? (seen : List String) : List String → Option String
  | [] => none
  | id :: ids => if id ∈ seen then some id else firstRepeated? (id :: seen) ids

/-- The first strict rule that the described ids break: repeated ids come before links, and links
before snippets. -/
def violation? (r : References) (ids : List String) : Option ParseError :=
  match firstRepeated? [] ids with
  | some id => some (.duplicateType id)
  | none =>
    match r.links.toList.find? fun link => link ∈ r.snippets ∨ link ∉ ids with
    | some link =>
      some (if link ∈ r.snippets then .linkIsSnippet link else .undescribedLink link)
    | none => (r.snippets.toList.find? (· ∉ ids)).map .undescribedSnippet

end References

end ContentSchema
