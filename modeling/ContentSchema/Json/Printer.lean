import ContentSchema.Json.Basic
import ContentSchema.Json.Quoted
/-!
JSON values as text, one item or field to a line.
-/
namespace ContentSchema.Json

def quote (s : String) : String :=
  "\"" ++ .ofList (Quoted.encode s.toList) ++ "\""

/-- Starts a line at the depth, two blanks for each container around it. -/
def newline (depth : Nat) : String :=
  "\n" ++ .ofList (.replicate (2 * depth) ' ')

mutual

/-- The text of a value inside `depth` containers. A container without items stays on its line. -/
def printAt (depth : Nat) : Json → String
  | null => "null"
  | bool b => if b then "true" else "false"
  | natural n => n.repr
  | numeral text => text
  | string s => quote s
  | array [] => "[]"
  | array (item :: items) =>
    "[" ++ newline (depth + 1) ++ printAt (depth + 1) item ++
      printItems (depth + 1) items ++ newline depth ++ "]"
  | object [] => "\x7b\x7d"
  | object ((name, value) :: fields) =>
    "\x7b" ++ newline (depth + 1) ++ quote name ++ ": " ++ printAt (depth + 1) value ++
      printFields (depth + 1) fields ++ newline depth ++ "\x7d"

def printItems (depth : Nat) : List Json → String
  | [] => ""
  | item :: items => "," ++ newline depth ++ printAt depth item ++ printItems depth items

def printFields (depth : Nat) : List (String × Json) → String
  | [] => ""
  | (name, value) :: fields =>
    "," ++ newline depth ++ quote name ++ ": " ++ printAt depth value ++
      printFields depth fields

end

def print (v : Json) : String := printAt 0 v

end ContentSchema.Json
