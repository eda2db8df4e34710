import ContentSchema.Json.Numeral
import ContentSchema.Json.Quoted
/-!
JSON texts as tokens: marks, strings and the values that hold no other. Blanks only separate.
-/
namespace ContentSchema.Json

inductive Token where
  | arrayStart | arrayEnd | objectStart | objectEnd | comma | colon
  | string (s : String)
  | atom (value : Json)

namespace Token

def mark? : Char → Option Token
  | '[' => some arrayStart
  | ']' => some arrayEnd
  | '\x7b' => some objectStart
  | '\x7d' => some objectEnd
  | ',' => some comma
  | ':' => some colon
  | _ => none

end Token

/-- What is being read, its characters from the last to the first. -/
inductive Lexeme where
  | gap
  | atom (cs : List Char)
  | quoted (cs : List Char)
  /-- After a backslash, so that a quote does not end the string. -/
  | escaped (cs : List Char)

/-- A tokenizer between two characters; the last token is first. -/
structure Lexer where
  lexeme : Lexeme := .gap
  tokens : List Token := []

namespace Lexer

def isBlank (c : Char) : Bool := c == ' ' || c == '\t' || c == '\n' || c == '\r'

def isAtomChar (c : Char) : Bool := c.isAlphanum || c == '+' || c == '-' || c == '.'

/-- Begins with a character that belongs to nothing before it. -/
def start (c : Char) (tokens : List Token) : Option Lexer :=
  if isBlank c then some { tokens }
  else if c = '"' then some { lexeme := .quoted [], tokens }
  else if isAtomChar c then some { lexeme := .atom [c], tokens }
  else (Token.mark? c).map fun t => { tokens := t :: tokens }

def step (s : Lexer) (c : Char) : Option Lexer :=
  match s.lexeme with
  | .gap => start c s.tokens
  | .atom cs =>
    if isAtomChar c then some { s with lexeme := .atom (c :: cs) }
    else do
      let value ← atom? cs.reverse
      start c (.atom value :: s.tokens)
  | .quoted cs =>
    if c = '"' then do
      let text ← Quoted.decode? cs.reverse
      return { tokens := .string (.ofList text) :: s.tokens }
    else if c = '\\' then some { s with lexeme := .escaped (c :: cs) }
    else some { s with lexeme := .quoted (c :: cs) }
  | .escaped cs => some { s with lexeme := .quoted (c :: cs) }

def finish (s : Lexer) : Option (List Token) :=
  match s.lexeme with
  | .gap => some s.tokens.reverse
  | .atom cs => do
    let value ← atom? cs.reverse
    return (.atom value :: s.tokens).reverse
  | _ => none

end Lexer

/-- The tokens of a text. -/
def tokens? (s : String) : Option (List Token) :=
  (s.toList.foldlM Lexer.step {}).bind Lexer.finish

end ContentSchema.Json
