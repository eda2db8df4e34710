import ContentSchema.Proofs.Assembly.Strict
import ContentSchema.Proofs.Schema.Settled
import Mathlib.Data.List.Forall2
/-!
Grouping loses nothing, adds nothing and keeps the order. The types of a document, told line by line,
are the entries that they were grouped from (`Assembly.grouping_retells`): components come to stand
behind their rich text again, and the properties of a type behind the line that opened it.
-/
namespace ContentSchema

namespace Property

/-- The property as a type tells it, for the one that an entry gave: an unlabelled type goes by its id
where it opens a block, and its line has no required mark. -/
structure Retold (told given : Property) : Prop where
  content : told.content = given.content
  label : told.label = given.label ∨ given.label = "" ∧ given.typeId? = some told.label
  required : told.required = given.required ∨ given.kind = .type ∧ told.required = false

namespace Retold

theorem refl (p : Property) : p.Retold p := ⟨rfl, .inl rfl, .inl rfl⟩

theorem typeId?_eq {p q : Property} (same : p.content = q.content) : p.typeId? = q.typeId? := by
  rw [Property.typeId?, Property.typeId?, same]

theorem trans {p q r : Property} (first : p.Retold q) (second : q.Retold r) : p.Retold r := by
  constructor
  case content => exact first.content.trans second.content
  case label =>
    obtain same | ⟨unlabelled, named⟩ := first.label
    · rw [same]
      exact second.label
    · rw [typeId?_eq second.content] at named
      obtain same | ⟨empty, again⟩ := second.label
      · exact .inr ⟨same.symm.trans unlabelled, named⟩
      · exact .inr ⟨empty, named⟩
  case required =>
    obtain same | ⟨isType, dropped⟩ := first.required
    · rw [same]
      exact second.required
    · rw [Property.kind, second.content] at isType
      exact .inr ⟨isType, dropped⟩

theorem forall₂_trans {ps qs rs : List Property} (first : List.Forall₂ Retold ps qs)
    (second : List.Forall₂ Retold qs rs) : List.Forall₂ Retold ps rs := by
  induction first generalizing rs with
  | nil => exact second
  | cons told _ ih =>
    cases second with
    | cons given rest => exact .cons (told.trans given) (ih rest)

theorem opening {p : Property} {id : String} (opened : p.typeId? = some id)
    (properties : List Property) : (ContentType.headed id p.label properties).opening.Retold p := by
  obtain ⟨label, required, content⟩ := p
  cases content with
  | type typeId =>
    cases opened
    refine ⟨rfl, ?_, .inr ⟨rfl, rfl⟩⟩
    by_cases unlabelled : label = "" <;>
      simp [ContentType.opening, ContentType.headed, unlabelled, Property.typeId?]
  | _ => contradiction

theorem component {e : Entry} {id : String} (bare : e.bareId? = some id) :
    (Property.component id).Retold e.property := by
  have named := Components.typeId?_of_bareId? bare
  obtain ⟨⟨label, required, content⟩, line, afterBlank⟩ := e
  cases content with
  | type typeId =>
    rw [Entry.bareId?] at bare
    split at bare
    · next unlabelled =>
      cases named
      exact ⟨rfl, .inl unlabelled.symm, .inr ⟨rfl, rfl⟩⟩
    · contradiction
  | _ => contradiction

end Retold

theorem components_of_bare {p : Property} (bare : p.bare = p) : p.components = [] := by
  rw [← bare]
  obtain ⟨label, required, content⟩ := p
  cases content <;> rfl

/-- The lines of a property, as properties: its own, and one for each of its components. -/
def lines (p : Property) : List Property := (p :: p.components.map component).map (·.bare)

theorem lines_of_bare {p : Property} (bare : p.bare = p) : p.lines = [p] := by
  rw [lines, components_of_bare bare, List.map_nil, List.map_singleton, bare]

end Property

/-- Rich text without components takes its components along, and nothing else changes. -/
theorem Entry.lines_withComponents {e : Entry} (bare : e.property.bare = e.property)
    (rich : e.isRichText) (ids : List String) :
    (e.withComponents ids).property.lines = e.property :: ids.map Property.component := by
  obtain ⟨⟨label, required, content⟩, line, afterBlank⟩ := e
  cases content with
  | richText r =>
    obtain ⟨words, characters, formatting, tables, tableFormatting, components, parent⟩ := r
    simp only [Property.bare, Content.bare, Property.mk.injEq, Content.richText.injEq,
      RichText.mk.injEq, true_and] at bare
    obtain ⟨rfl, rfl⟩ := bare
    by_cases none : ids = []
    · subst none
      rfl
    · simp [withComponents, RichText.withComponents, none, Property.lines, Property.components,
        Property.bare, Content.bare, Property.component, Function.comp_def]
  | _ => contradiction

namespace Components

variable {es : List Entry}

/-- What a run takes, and the lines of what it leaves, are the entries. -/
theorem retold_attach (bare : ∀ e ∈ es, e.property.bare = e.property) (run : Run) :
    List.Forall₂ Property.Retold
      ((front run es).map Property.component ++ (kept (attach run es)).flatMap (·.lines))
      (es.map (·.property)) := by
  induction es generalizing run with
  | nil => exact .nil
  | cons e es ih =>
    rw [List.forall_mem_cons] at bare
    have later := ih bare.2
    rw [front, attach]
    cases taken : run.take? e with
    | some id => exact .cons (.component (bareId?_of_take? taken)) (later .continued)
    | none =>
      rw [Option.isSome_none, if_neg Bool.false_ne_true]
      by_cases rich : e.isRichText
      · rw [if_pos rich]
        show List.Forall₂ _ ((e.withComponents _).property.lines ++ _) _
        rw [Entry.lines_withComponents bare.1 rich]
        exact .cons (.refl _) (later .opened)
      · have last := later .closed
        rw [show front .closed es = [] by cases es <;> rfl] at last
        rw [if_neg rich]
        show List.Forall₂ _ (e.property.lines ++ _) _
        rw [Property.lines_of_bare bare.1]
        exact .cons (.refl _) last

end Components

theorem ContentType.bare_stated (t : ContentType) :
    t.stated.map (·.bare) = t.opening :: t.properties.flatMap (·.lines) := by
  rw [stated, List.map_cons, List.map_flatMap]
  rfl

namespace Blocks

/-- Splitting keeps the lines of the properties. -/
theorem retold_split (ps : List Property) : List.Forall₂ Property.Retold
    ((split ps).1.flatMap (·.lines) ++ (split ps).2.flatMap fun t => t.stated.map (·.bare))
    (ps.flatMap (·.lines)) := by
  induction ps with
  | nil => exact .nil
  | cons p ps ih =>
    rw [split, List.flatMap_cons]
    cases opened : p.typeId? with
    | none =>
      rw [List.flatMap_cons, List.append_assoc]
      exact List.rel_append (List.forall₂_same.mpr fun q _ => .refl q) ih
    | some id =>
      have alone : p.lines = [p] := by
        apply Property.lines_of_bare
        obtain ⟨label, required, content⟩ := p
        cases content <;> first | rfl | contradiction
      rw [List.flatMap_cons, ContentType.bare_stated, alone]
      exact .cons (.opening opened _) ih

end Blocks

/-- The line of a type describes no required mark. -/
theorem Line.not_required_of_describe {g : Grammar} {l : Line} {p : Property}
    (described : l.describe g = .ok p) (isType : p.kind = .type) : p.required = false := by
  obtain ⟨kind, supply, _, supplied, rfl⟩ := describe_eq_ok_iff.mp described
  cases kind with
  | type =>
    rw [Supply.ofTokens_optionless g (.inl rfl), Except.ok.injEq] at supplied
    rw [← supplied]
  | _ => contradiction

/-- Nothing but required types could lose a mark, and no line describes one. -/
theorem Property.Retold.map_required {told given : List Property}
    (retold : List.Forall₂ Retold told given)
    (described : ∀ p ∈ given, ∃ g l, Line.describe g l = .ok p) :
    told.map (·.required) = given.map (·.required) := by
  induction retold with
  | nil => rfl
  | cons first _ ih =>
    rw [List.forall_mem_cons] at described
    obtain ⟨⟨g, l, line⟩, rest⟩ := described
    rw [List.map_cons, List.map_cons, ih rest]
    obtain same | ⟨isType, dropped⟩ := first.required
    · rw [same]
    · rw [dropped, Line.not_required_of_describe line isType]

namespace Assembly

variable {es : List Entry}

theorem property_restated (types : List ContentType) :
    (restated types).map (·.property) = types.flatMap fun t => t.stated.map (·.bare) := by
  rw [restated, List.map_map, List.map_flatMap]
  rfl

/-- The types that entries are grouped into tell the entries again, in order: first the line that
opened a type, then its properties, each rich text with its components behind it. A rich text is a
parent exactly if it has components, and the set of snippets of a type is that of its properties. -/
theorem grouping_retells (typeStart : String)
    (begins : ∀ e, es.head? = some e → e.property.kind = .type)
    (bare : ∀ e ∈ es, e.property.bare = e.property) :
    ∃ types, Blocks.types typeStart (((Components.attach .closed es).filter (!·.2)).map (·.1)) =
        .ok types ∧
      List.Forall₂ Property.Retold ((restated types).map (·.property)) (es.map (·.property)) ∧
      ((∀ e ∈ es, ∃ g l, Line.describe g l = .ok e.property) →
        (restated types).map (·.property.required) = es.map (·.property.required)) ∧
      ∀ t ∈ types,
        (∀ p ∈ t.properties, ∀ r, p.content = .richText r →
          (r.isComponentParent ↔ r.components ≠ [])) ∧
        ∀ id, id ∈ t.snippets ↔ ∃ p ∈ t.properties, p.content = .snippet id := by
  have front : (Blocks.split (properties es)).1 = [] := front_eq_nil_iff.mpr begins
  have retold : List.Forall₂ Property.Retold ((restated (blocks es)).map (·.property))
      (es.map (·.property)) := by
    -- Both lists retell the lines of the properties, which attaching and splitting keep.
    have attached := Components.retold_attach bare .closed
    have split := Blocks.retold_split (properties es)
    rw [front] at split
    rw [property_restated]
    have nothing : Components.front .closed es = [] := by cases es <;> rfl
    rw [nothing] at attached
    exact Property.Retold.forall₂_trans split attached
  refine ⟨blocks es, Blocks.types_eq_ok_iff.mpr ⟨front, rfl⟩, retold, ?_, ?_⟩
  · intro described
    have same := Property.Retold.map_required retold (List.forall_mem_map.mpr described)
    rwa [List.map_map, List.map_map] at same
  · intro t block
    constructor
    · intro p property
      exact parented_of_properties bare ((exists_block_iff front).mp ⟨t, block, property⟩).1
    · intro id
      simp only [(Blocks.tidy_of_mem_split block).mem_snippets, Property.snippetId?_eq_some_iff]

/-- A document with types that have no label, some of them components, before and behind blank
lines. -/
def unlabelled : String :=
  "a\nRichText[*] Body\n\nb\nc\n\nc\n...s\nb Card\nRichText\n...s\n...q\nRichText Notes\na\n"

theorem grouping_retells_unlabelled : ∃ es types, entries .standard unlabelled = .ok es ∧
    Blocks.types "type" (((Components.attach .closed es).filter (!·.2)).map (·.1)) = .ok types ∧
    types.map (fun t => (t.id, t.label, t.properties.map (·.components))) =
      [("a", "a", [["b", "c"]]), ("c", "c", [[]]), ("b", "Card", [[], [], [], ["a"]])] ∧
    List.Forall₂ Property.Retold ((restated types).map (·.property)) (es.map (·.property)) ∧
    (restated types).map (·.property.required) = es.map (·.property.required) := by
  let es := (entries .standard unlabelled).toOption.getD []
  have read : entries .standard unlabelled = .ok es := by decide +kernel
  have described : ∀ e ∈ es, ∃ g l, Line.describe g l = .ok e.property := by
    intro e member
    obtain ⟨lines, _, each⟩ := exists_line_of_entries read
    obtain ⟨l, _, property⟩ := each e member
    exact ⟨_, l, property⟩
  have begins : ∀ e, es.head? = some e → e.property.kind = .type := by decide +kernel
  obtain ⟨types, grouped, retold, required, _⟩ := grouping_retells "type" begins (by decide +kernel)
  have held : types = blocks es := (Blocks.types_eq_ok_iff.mp grouped).2
  refine ⟨es, types, read, grouped, ?_, retold, required described⟩
  rw [held]
  decide +kernel

end Assembly

end ContentSchema
