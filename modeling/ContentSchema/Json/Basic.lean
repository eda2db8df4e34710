/-!
JSON values. Of the numbers only naturals matter here; any other number is kept as it is written.
-/
namespace ContentSchema

inductive Json where
  | null
  | bool (b : Bool)
  | natural (n : Nat)
  /-- A number with a sign, a point or an exponent. -/
  | numeral (text : String)
  | string (s : String)
  | array (items : List Json)
  /-- Fields in order; a name may be there twice. -/
  | object (fields : List (String × Json))
deriving Inhabited

namespace Json

def strings (ss : List String) : Json := array (ss.map string)

/-- What is absent is null. -/
def option {α : Type} (encode : α → Json) : Option α → Json
  | none => null
  | some a => encode a

end Json

end ContentSchema
