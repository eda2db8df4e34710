import ContentSchema.Json.Token
/-!
Reading JSON values from their tokens. The containers that are still open form a stack.
-/
namespace ContentSchema.Json

/-- An open container, its last item first. -/
inductive Frame where
  | array (items : List Json)
  | object (fields : List (String × Json)) (name : String)

/-- What a reader waits for, within the open containers. -/
inductive Reader where
  | value (stack : List Frame)
  /-- After the start of an array: a value or the end. -/
  | item (stack : List Frame)
  /-- The name of a further field; only an object without fields may end here. -/
  | name (stack : List Frame) (fields : List (String × Json))
  | colon (stack : List Frame) (fields : List (String × Json)) (name : String)
  /-- After a value: a comma or the end of the container. -/
  | rest (stack : List Frame) (value : Json)

namespace Reader

/-- The most containers that may be open at once. -/
def maxDepth : Nat := 127

/-- The start of a value. -/
def start (stack : List Frame) : Token → Option Reader
  | .atom v => some (rest stack v)
  | .string s => some (rest stack (.string s))
  | .arrayStart => if stack.length < maxDepth then some (item stack) else none
  | .objectStart => if stack.length < maxDepth then some (name stack []) else none
  | _ => none

def step : Reader → Token → Option Reader
  | value stack, t => start stack t
  | item stack, .arrayEnd => some (rest stack (.array []))
  | item stack, t => start (.array [] :: stack) t
  | name stack [], .objectEnd => some (rest stack (.object []))
  | name stack fields, .string s => some (colon stack fields s)
  | colon stack fields s, .colon => some (value (.object fields s :: stack))
  | rest (.array items :: stack) v, .comma => some (value (.array (v :: items) :: stack))
  | rest (.array items :: stack) v, .arrayEnd =>
    some (rest stack (.array (v :: items).reverse))
  | rest (.object fields s :: stack) v, .comma => some (name stack ((s, v) :: fields))
  | rest (.object fields s :: stack) v, .objectEnd =>
    some (rest stack (.object ((s, v) :: fields).reverse))
  | _, _ => none

/-- A value is complete when no container is open. -/
def finish : Reader → Option Json
  | rest [] v => some v
  | _ => none

end Reader

/-- The value of a text that is one JSON value. -/
def parse? (s : String) : Option Json := do
  let tokens ← tokens? s
  (← tokens.foldlM Reader.step (.value [])).finish

end ContentSchema.Json
