import ContentSchema.ContentType
/-!
Chains of links between types. From every type all paths without a repeated id are listed, shorter
ones first; a link back to an id of its path closes the chain. There can be exponentially many.
-/
namespace ContentSchema

/-- Counts and chains of a list of types. -/
structure ChainStats where
  total : Nat := 0
  chains : List String := []
  closedChains : List String := []
  maxDepth : Option Nat := none
deriving DecidableEq

namespace Chains

/-- The ids of a chain, in link order. -/
abbrev Path := List String

/-- A path that may go on, with the links that leave its last type. -/
structure Open where
  path : Path
  links : List String

/-- Of several types with one id, links lead to the last. -/
def target? (types : List ContentType) (id : String) : Option ContentType :=
  types.reverse.find? (·.id == id)

namespace Open

/-- A path of one type, which goes on by this type's own links. -/
def start (t : ContentType) : Open := ⟨[t.id], t.links.toList⟩

/-- The paths that are one link longer and visit no id twice. -/
def chains (o : Open) : List Path :=
  (o.links.filter (· ∉ o.path)).map fun id => o.path ++ [id]

/-- The paths that come back to an id they have visited. -/
def closed (o : Open) : List Path :=
  (o.links.filter (· ∈ o.path)).map fun id => o.path ++ [id]

/-- The longer paths that may go on: a link to an id without a type ends its chain. -/
def next (types : List ContentType) (o : Open) : List Open :=
  (o.links.filter (· ∉ o.path)).filterMap fun id =>
    (target? types id).map fun t => ⟨o.path ++ [id], t.links.toList⟩

end Open

/-- The chains and closed chains that extend the given paths by at most so many links. -/
def explore (types : List ContentType) : Nat → List Open → List Path × List Path
  | 0, _ => ([], [])
  | rounds + 1, level =>
    let (chains, closed) := explore types rounds (level.flatMap (·.next types))
    (level.flatMap (·.chains) ++ chains, level.flatMap (·.closed) ++ closed)

/-- All chains and all closed chains. An open path has no repeated id and types for all its ids, so
it has fewer links than there are types. -/
def paths (types : List ContentType) : List Path × List Path :=
  let (chains, closed) := explore types types.length (types.map .start)
  (types.map (fun t => [t.id]) ++ chains, closed)

def separator : Char := '>'

def stats (types : List ContentType) : ChainStats :=
  let (chains, closed) := paths types
  { total := types.length
    chains := chains.map (String.intercalate separator.toString)
    closedChains := closed.map (String.intercalate separator.toString)
    maxDepth := ((chains ++ closed).map List.length).max? }

end Chains

end ContentSchema
