import ContentSchema.Command.Style
import ContentSchema.Schema
/-!
What is printed about a schema.
-/
namespace ContentSchema.Command

def lines (ls : List String) : String := String.join (ls.map (·.push '\n'))

/-- Announces the document before it is read. -/
def checking (color : Bool) (path : String) : String :=
  lines [Style.heading.paint color "Checking" ++ " " ++ path]

def describeType (color : Bool) (t : ContentType) : String :=
  s!"    Type {Style.note.paint color t.id} ({t.label}): " ++
    s!"{t.properties.length} properties, {t.links.size} links"

def describeSnippet (color : Bool) (t : ContentType) : String :=
  s!"    Snippet {Style.mark.paint color t.id} ({t.label}): {t.properties.length} properties"

/-- A summary of the types and the cycles between them. -/
def summary (color : Bool) (s : Schema) : String :=
  lines <| [s!"  Types: {s.types.length}", s!"  Snippets: {s.snippetTypes.length}"] ++
    s.types.map (describeType color) ++ s.snippetTypes.map (describeSnippet color) ++
    s.stats.closedChains.map ("  " ++ Style.note.paint color "Cycle" ++ " " ++ ·) ++
    [Style.good.paint color "Valid."]

/-- The first chains up to the limit, with the number of those left out. -/
def listChains (color : Bool) (style : Style) (limit : Option Nat) (chains : List String) :
    List String :=
  let shown := limit.elim chains chains.take
  let left := chains.length - shown.length
  shown.map (fun chain => s!"    {style.paint color chain}") ++
    if left = 0 then [] else [s!"    ... {left} more"]

/-- The chains of a document, at most so many of each sort. -/
def statistics (color : Bool) (path : String) (limit : Option Nat) (s : ChainStats) : String :=
  let depth := s.maxDepth.elim "-" Nat.repr
  lines <| [Style.heading.paint color "Statistics" ++ " " ++ path, s!"  Types: {s.total}",
      s!"  Max chain depth: {depth}", s!"  Chains: {s.chains.length}"] ++
    listChains color .mark limit s.chains ++ [s!"  Closed chains: {s.closedChains.length}"] ++
    listChains color .note limit s.closedChains

end ContentSchema.Command
