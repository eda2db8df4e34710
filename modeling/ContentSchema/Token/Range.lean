import ContentSchema.Decimal
import ContentSchema.Grammar.Basic
import ContentSchema.ParseError
import ContentSchema.Property
/-!
Count ranges as options: a count, a count and up, up to a count, or one count to another.
-/
namespace ContentSchema.CountRange

/-- The count at the front of the text, with what follows it. All digits are taken. -/
def count? (cs : List Char) : Option (UInt32 × List Char) := do
  let n ← (Decimal.read? (cs.takeWhile Char.isDigit)).bind Decimal.toCount?
  return (n, cs.dropWhile Char.isDigit)

/-- Drops the character from the front of the text. -/
def drop? (c : Char) : List Char → Option (List Char)
  | [] => none
  | d :: cs => if d = c then some cs else none

def atMost? (g : Grammar) (cs : List Char) : Option (CountRange × List Char) := do
  let (n, rest) ← count? (← drop? g.moreOrLess cs)
  return ({ max := n }, rest)

def atLeast? (g : Grammar) (cs : List Char) : Option (CountRange × List Char) := do
  let (n, rest) ← count? cs
  return ({ min := n }, ← drop? g.moreOrLess rest)

def between? (g : Grammar) (cs : List Char) : Option (CountRange × List Char) := do
  let (m, rest) ← count? cs
  let (n, rest) ← count? (← drop? g.range rest)
  return ({ min := m, max := n }, rest)

def exactCount? (cs : List Char) : Option (CountRange × List Char) := do
  let (n, rest) ← count? cs
  return (exact n, rest)

/-- The range that the whole text is. The first form that fits the front of the text is the one that
counts; what follows it makes the text no range. -/
def read? (g : Grammar) (cs : List Char) : Option CountRange := do
  let (range, rest) ← atMost? g cs <|> atLeast? g cs <|> between? g cs <|> exactCount? cs
  if rest = [] then some range else none

/-- An option that is no range is of another sort, but none may begin as the end of a range. -/
def ofToken (g : Grammar) (token : String) : Except ParseError (Option CountRange) :=
  if token.toList.head? = some g.range then .error (.malformedOption token g.range 0)
  else .ok (read? g token.toList)

/-- The option that gives the range; one without bounds needs none. -/
def token? (g : Grammar) (r : CountRange) : Option String :=
  match r.min, r.max with
  | none, none => none
  | some m, some n =>
    if m = n then some (Decimal.ofCount m)
    else some ((Decimal.ofCount m).push g.range ++ Decimal.ofCount n)
  | some m, none => some ((Decimal.ofCount m).push g.moreOrLess)
  | none, some n => some (g.moreOrLess.toString ++ Decimal.ofCount n)

end ContentSchema.CountRange
