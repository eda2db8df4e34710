import ContentSchema.Formatting
import ContentSchema.Kind
/-!
The properties of a content type: a label, whether a value is required, and what the kind adds.
-/
namespace ContentSchema

/-- How many items a property takes; a missing bound is no bound, and both bounds are included. -/
structure CountRange where
  min : Option UInt32 := none
  max : Option UInt32 := none
deriving DecidableEq

namespace CountRange

def exact (n : UInt32) : CountRange := ⟨n, n⟩

end CountRange

/-- What an asset may be. -/
inductive AssetMode where
  | none | images
deriving DecidableEq

/-- The limits, formats and components of a rich text. Components are the types whose content may
stand inside the text. -/
structure RichText where
  words : Option UInt32 := none
  characters : Option UInt32 := none
  formatting : Formatting := {}
  tables : Bool := false
  tableFormatting : Formatting := {}
  components : List String := []
  isComponentParent : Bool := false
deriving DecidableEq

namespace RichText

/-- A text without components stays as it is, so a parent has at least one. -/
def withComponents (ids : List String) (r : RichText) : RichText :=
  if ids = [] then r else { r with components := ids, isComponentParent := true }

end RichText

/-- What a property holds, by kind. -/
inductive Content where
  | type (id : String)
  | snippet (id : String)
  | linkedItems (ids : List String) (range : CountRange)
  | asset (mode : AssetMode) (range : CountRange)
  | text (words characters : Option UInt32)
  | date
  | number
  | singleChoice (options : List String)
  | multipleChoice (options : List String)
  | richText (text : RichText)
  | custom
deriving DecidableEq

namespace Content

def kind : Content → Kind
  | type _ => .type
  | snippet _ => .snippet
  | linkedItems _ _ => .linkedItems
  | asset _ _ => .asset
  | text _ _ => .text
  | date => .date
  | number => .number
  | singleChoice _ => .singleChoice
  | multipleChoice _ => .multipleChoice
  | richText _ => .richText
  | custom => .custom

/-- The types that are linked to: the targets of linked items and the components of rich text. A
snippet is no link. -/
def links : Content → List String
  | linkedItems ids _ => ids
  | richText r => r.components
  | _ => []

/-- Sends every link through `f`, in place. -/
def mapLinks (f : String → String) : Content → Content
  | linkedItems ids range => linkedItems (ids.map f) range
  | richText r => richText { r with components := r.components.map f }
  | content => content

theorem links_mapLinks (f : String → String) (c : Content) :
    (c.mapLinks f).links = c.links.map f := by
  cases c <;> rfl

end Content

structure Property where
  /-- Empty when the line has none. -/
  label : String
  required : Bool
  content : Content
deriving DecidableEq

namespace Property

def kind (p : Property) : Kind := p.content.kind

def links (p : Property) : List String := p.content.links

def mapLinks (f : String → String) (p : Property) : Property :=
  { p with content := p.content.mapLinks f }

/-- The id of a type line. -/
def typeId? (p : Property) : Option String :=
  match p.content with
  | .type id => some id
  | _ => none

/-- The id of a snippet reference. -/
def snippetId? (p : Property) : Option String :=
  match p.content with
  | .snippet id => some id
  | _ => none

end Property

end ContentSchema
