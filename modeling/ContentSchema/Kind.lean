/-!
The kinds a line of a schema can have. A grammar refers to a kind by its name; a name of no kind is
allowed there, but lines of it cannot be described.
-/
namespace ContentSchema

inductive Kind where
  | type | snippet | linkedItems | asset | text | date | number
  | singleChoice | multipleChoice | richText | custom
deriving DecidableEq, Repr

namespace Kind

/-- Every kind, in the order of its number in documents. -/
def all : List Kind :=
  [type, snippet, linkedItems, asset, text, date, number,
    singleChoice, multipleChoice, richText, custom]

def name : Kind → String
  | type => "type"
  | snippet => "snippet"
  | linkedItems => "linked_items"
  | asset => "asset"
  | text => "text"
  | date => "date"
  | number => "number"
  | singleChoice => "single_choice"
  | multipleChoice => "multiple_choice"
  | richText => "rich_text"
  | custom => "custom"

def ofName? (name : String) : Option Kind :=
  all.find? (·.name == name)

theorem mem_all (k : Kind) : k ∈ all := by
  cases k <;> decide

@[simp] theorem ofName?_name (k : Kind) : ofName? k.name = some k := by
  cases k <;> decide

theorem name_inj {k k' : Kind} : k.name = k'.name ↔ k = k' := by
  refine ⟨fun same => ?_, congrArg name⟩
  have read := ofName?_name k
  rw [same, ofName?_name] at read
  exact (Option.some.inj read).symm

theorem name_of_ofName? {name : String} {k : Kind} (h : ofName? name = some k) : k.name = name := by
  simpa using List.find?_some h

end Kind

end ContentSchema
