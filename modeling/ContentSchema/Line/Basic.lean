/-!
The lines of a schema, read but not yet given a meaning.
-/
namespace ContentSchema

/-- A line that names something; blank lines and comments leave none. -/
structure Line where
  /-- Whether a snippet mark stands before the identifier. -/
  snippet : Bool := false
  identifier : String
  /-- None without brackets; brackets may be empty. -/
  options : Option (List String) := none
  label : Option String := none
  /-- Counted from one. -/
  number : Nat := 1
  /-- Whether a blank line stands between the line before and this one. -/
  afterBlank : Bool := false
deriving DecidableEq

end ContentSchema
