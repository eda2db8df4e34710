import ContentSchema.Grammar.Basic
import ContentSchema.ParseError
import ContentSchema.Text
/-!
Details: options that give a name some values, in brackets behind it.
-/
namespace ContentSchema

structure Detail where
  name : String
  values : List String
deriving DecidableEq

namespace Detail

/-- Neither a name nor a value holds a bracket of details. -/
def isBracket (g : Grammar) (c : Char) : Bool := c == g.detailStart || c == g.detailEnd

/-- The values at the front of the text, with what follows them. A separator without a value behind
it is not taken: `back` is where the text goes on if `value`, which is what has been read of a
value, stays empty. -/
def readValues (g : Grammar) (back value : List Char) : List Char → List (List Char) × List Char
  | [] => if value = [] then ([], back) else ([value], [])
  | c :: cs =>
    if c = g.arrayDelimiter then
      if value = [] then ([], back)
      else
        let (more, rest) := readValues g (c :: cs) [] cs
        (value :: more, rest)
    else if isBracket g c then if value = [] then ([], back) else ([value], c :: cs)
    else readValues g back (value ++ [c]) cs

/-- The name and values of the whole text, or the rest of it that does not fit. -/
def read (g : Grammar) (cs : List Char) : Except (List Char) (List Char × List (List Char)) :=
  let name := cs.takeWhile (!isBracket g ·)
  let rest := cs.dropWhile (!isBracket g ·)
  if name = [] then .error cs
  else match rest with
    | [] => .error []
    | c :: body =>
      if c ≠ g.detailStart then .error rest
      else
        let (values, rest) := readValues g body [] body
        match rest with
        | [] => .error []
        | c :: tail =>
          if c ≠ g.detailEnd then .error rest
          else if tail = [] then .ok (name, values)
          else .error tail

/-- The error at the rest of an option. At its end the last character is to blame. -/
def malformed (token : String) (rest : List Char) : ParseError :=
  let cs := token.toList
  .malformedOption token ((rest.head?.or cs.getLast?).getD '\x00') (cs.length - rest.length)

/-- An option without a start of details is no detail; one with it has to be a whole detail. -/
def ofToken (g : Grammar) (token : String) : Except ParseError (Option Detail) :=
  if g.detailStart ∉ token.toList then .ok none
  else match read g token.toList with
    | .ok (name, values) => .ok <| some
      { name := Text.trim g.space (.ofList name)
        values := values.map fun v => Text.trim g.space (.ofList v) }
    | .error rest => .error (malformed token rest)

/-- The option that gives the detail. -/
def token (g : Grammar) (d : Detail) : String :=
  (d.name.push g.detailStart ++ Text.join g.arrayDelimiter d.values).push g.detailEnd

end Detail

end ContentSchema
