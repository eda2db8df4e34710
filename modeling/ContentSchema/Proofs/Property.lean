import ContentSchema.Schema.Text
/-!
What a property refers to, and how it is told in lines: its own line tells all but its components,
each of which has a line of its own.
-/
namespace ContentSchema

namespace Content

/-- The content as its own line tells it: components stand on lines of their own. -/
def bare : Content → Content
  | richText r => richText { r with components := [], isComponentParent := false }
  | content => content

theorem mapLinks_id (c : Content) : c.mapLinks id = c := by
  cases c <;> simp [mapLinks]

/-- The values that a choice is made from. -/
def choices : Content → List String
  | singleChoice options => options
  | multipleChoice options => options
  | _ => []

end Content

namespace Property

def ids (p : Property) : List String := p.typeId?.toList ++ p.links ++ p.snippetId?.toList

theorem typeId?_mapLinks (f : String → String) (p : Property) :
    (p.mapLinks f).typeId? = p.typeId? := by
  obtain ⟨label, required, content⟩ := p
  cases content <;> rfl

theorem snippetId?_mapLinks (f : String → String) (p : Property) :
    (p.mapLinks f).snippetId? = p.snippetId? := by
  obtain ⟨label, required, content⟩ := p
  cases content <;> rfl

theorem links_mapLinks (f : String → String) (p : Property) :
    (p.mapLinks f).links = p.links.map f :=
  Content.links_mapLinks f p.content

theorem typeId?_eq_none_iff {p : Property} : p.typeId? = none ↔ p.kind ≠ .type := by
  obtain ⟨label, required, content⟩ := p
  cases content <;> simp [typeId?, kind, Content.kind]

theorem snippetId?_eq_some_iff {p : Property} {id : String} :
    p.snippetId? = some id ↔ p.content = .snippet id := by
  obtain ⟨label, required, content⟩ := p
  cases content <;> simp [snippetId?]

/-- A property that opens a type refers to nothing. -/
theorem refers_to_nothing {p : Property} (opens : p.typeId?.isSome) :
    p.links = [] ∧ p.snippetId? = none := by
  obtain ⟨label, required, content⟩ := p
  cases content <;> simp_all [Property.typeId?, Property.links, Property.snippetId?, Content.links]

theorem typeless_of_link {p : Property} {link : String} (linked : link ∈ p.links) :
    p.typeId? = none := by
  cases opens : p.typeId? with
  | none => rfl
  | some id => simp [refers_to_nothing (Option.isSome_of_mem opens)] at linked

theorem typeless_of_snippet {p : Property} {snippet : String}
    (named : p.snippetId? = some snippet) : p.typeId? = none := by
  cases opens : p.typeId? with
  | none => rfl
  | some id => simp [refers_to_nothing (Option.isSome_of_mem opens)] at named

/-- The property as its own line tells it. -/
def bare (p : Property) : Property := { p with content := p.content.bare }

theorem typeId?_bare (p : Property) : p.bare.typeId? = p.typeId? := by
  obtain ⟨label, required, content⟩ := p
  cases content <;> rfl

/-- Components make a rich text whole again, if it is a parent exactly if it has some. -/
theorem withComponents_bare {r : RichText} (parent : r.isComponentParent ↔ r.components ≠ []) :
    RichText.withComponents r.components
      { r with components := [], isComponentParent := false } = r := by
  obtain ⟨words, characters, formatting, tables, tableFormatting, components, isComponentParent⟩ := r
  by_cases empty : components = []
  · simp_all [RichText.withComponents]
  · simp_all [RichText.withComponents]

theorem mem_links_of_components {p : Property} {id : String} (member : id ∈ p.components) :
    id ∈ p.links := by
  obtain ⟨label, required, content⟩ := p
  cases content with
  | richText r => exact member
  | _ => contradiction

def component (id : String) : Property := { label := "", required := false, content := .type id }

theorem mapLinks_id (p : Property) : p.mapLinks id = p := by
  rw [mapLinks, Content.mapLinks_id]

end Property

end ContentSchema
