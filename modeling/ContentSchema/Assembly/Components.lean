import ContentSchema.Property
/-!
Components of rich text. The lines right behind a rich text that only name a type are its
components; a blank line between two of them ends the run, one before the first does not.
-/
namespace ContentSchema

/-- A property with the place of its line. -/
structure Entry where
  property : Property
  line : Nat := 1
  afterBlank : Bool := false
deriving DecidableEq

namespace Entry

/-- The id of a line that only names a type. -/
def bareId? (e : Entry) : Option String :=
  if e.property.label = "" then e.property.typeId? else none

/-- The entry with components, if it is rich text. -/
def withComponents (ids : List String) (e : Entry) : Entry :=
  match e.property.content with
  | .richText r => { e with property.content := .richText (r.withComponents ids) }
  | _ => e

def isRichText (e : Entry) : Bool := e.property.kind == .richText

end Entry

namespace Components

/-- Whether the next entry can be a component. -/
inductive Run where
  | closed
  /-- Behind a rich text. -/
  | opened
  /-- Behind a component. -/
  | continued
deriving DecidableEq

/-- The id of an entry that the run takes as a component. -/
def Run.take? : Run → Entry → Option String
  | closed, _ => none
  | opened, e => e.bareId?
  | continued, e => if e.afterBlank then none else e.bareId?

/-- The components at the front of the entries. -/
def front (run : Run) : List Entry → List String
  | [] => []
  | e :: es =>
    match run.take? e with
    | some id => id :: front .continued es
    | none => []

/-- The entries with the components given to their rich texts, and whether each is a component. -/
def attach (run : Run) : List Entry → List (Entry × Bool)
  | [] => []
  | e :: es =>
    if (run.take? e).isSome then (e, true) :: attach .continued es
    else if e.isRichText then (e.withComponents (front .opened es), false) :: attach .opened es
    else (e, false) :: attach .closed es

@[simp] theorem length_attach (run : Run) (es : List Entry) :
    (attach run es).length = es.length := by
  induction es generalizing run with
  | nil => rfl
  | cons e es ih => grind [attach]

end Components

end ContentSchema
