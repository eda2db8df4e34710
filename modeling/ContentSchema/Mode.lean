/-!
What becomes of ids that are described twice or not at all.
-/
namespace ContentSchema

inductive Mode where
  /-- They are errors. -/
  | strict
  /-- The document is repaired: a second description is kept under an id of its own, and a missing
  one is left empty. -/
  | loose
deriving DecidableEq, Repr

namespace Mode

def name : Mode → String
  | strict => "strict"
  | loose => "loose"

def ofName? (name : String) : Option Mode :=
  [strict, loose].find? (·.name == name)

end Mode

end ContentSchema
