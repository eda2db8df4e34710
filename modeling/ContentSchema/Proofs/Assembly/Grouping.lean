import ContentSchema.Assembly.Basic
import ContentSchema.Proofs.Property
/-!
What grouping keeps. Components are given to rich texts and the other properties to types, so that
the types hold every property that names no type (`split_properties`), and a document refers to
exactly the ids that the properties of its types refer to (`mem_links_iff`, `mem_snippets_iff`).
-/
namespace ContentSchema

namespace Components

variable {run : Run} {es : List Entry} {e e' : Entry} {id : String} {component : Bool}

theorem bareId?_of_take? (taken : run.take? e = some id) : e.bareId? = some id := by
  cases run with
  | closed => contradiction
  | opened => exact taken
  | continued =>
    rw [Run.take?] at taken
    split at taken
    · contradiction
    · exact taken

theorem typeId?_of_bareId? (bare : e.bareId? = some id) : e.property.typeId? = some id := by
  rw [Entry.bareId?] at bare
  split at bare
  · exact bare
  · contradiction

theorem mem_front (member : id ∈ front run es) : ∃ e ∈ es, e.property.typeId? = some id := by
  induction es generalizing run with
  | nil => contradiction
  | cons e es ih =>
    rw [front] at member
    split at member
    · next taken =>
      obtain rfl | member := List.mem_cons.mp member
      · exact ⟨e, List.mem_cons_self, typeId?_of_bareId? (bareId?_of_take? taken)⟩
      · obtain ⟨other, inside, named⟩ := ih member
        exact ⟨other, List.mem_cons_of_mem e inside, named⟩
    · contradiction

theorem isSome_typeId?_of_component (member : (e, true) ∈ attach run es) :
    e.property.typeId?.isSome := by
  induction es generalizing run with
  | nil => contradiction
  | cons first es ih =>
    rw [attach] at member
    split at member
    · next taken =>
      obtain same | member := List.mem_cons.mp member
      · obtain ⟨id, taken⟩ := Option.isSome_iff_exists.mp taken
        cases same
        rw [typeId?_of_bareId? (bareId?_of_take? taken)]
        rfl
      · exact ih member
    · split at member
      · exact ih (by simpa using member)
      · exact ih (by simpa using member)

theorem mem_ids_of_withComponents {ids : List String}
    (held : id ∈ (e.withComponents ids).property.ids) : id ∈ ids ∨ id ∈ e.property.ids := by
  rw [Entry.withComponents] at held
  split at held
  · next r rich =>
    rw [RichText.withComponents] at held
    split at held
    · right
      simpa [Property.ids, Property.typeId?, Property.snippetId?, Property.links, rich] using held
    · left
      simpa [Property.ids, Property.typeId?, Property.snippetId?, Property.links,
        Content.links] using held
  · exact .inr held

/-- No id is held that was not held before. -/
theorem mem_ids_of_attach (member : (e, component) ∈ attach run es) (held : id ∈ e.property.ids) :
    ∃ e ∈ es, id ∈ e.property.ids := by
  induction es generalizing run with
  | nil => contradiction
  | cons first es ih =>
    have later {run : Run} (member : (e, component) ∈ attach run es) :
        ∃ e ∈ first :: es, id ∈ e.property.ids := by
      obtain ⟨other, inside, held⟩ := ih member
      exact ⟨other, List.mem_cons_of_mem first inside, held⟩
    rw [attach] at member
    split at member
    · obtain same | member := List.mem_cons.mp member
      · cases same
        exact ⟨e, List.mem_cons_self, held⟩
      · exact later member
    · split at member
      · obtain same | member := List.mem_cons.mp member
        · cases same
          obtain inFront | held := mem_ids_of_withComponents held
          · obtain ⟨other, inside, named⟩ := mem_front inFront
            refine ⟨other, List.mem_cons_of_mem first inside, ?_⟩
            simp [Property.ids, named]
          · exact ⟨first, List.mem_cons_self, held⟩
        · exact later member
      · obtain same | member := List.mem_cons.mp member
        · cases same
          exact ⟨e, List.mem_cons_self, held⟩
        · exact later member

end Components

namespace Blocks

/-- Properties that open nothing stay in front. -/
theorem split_append {ps rest : List Property} (typeless : ∀ p ∈ ps, p.typeId? = none) :
    split (ps ++ rest) = (ps ++ (split rest).1, (split rest).2) := by
  induction ps with
  | nil => rfl
  | cons p ps ih =>
    rw [List.forall_mem_cons] at typeless
    rw [List.cons_append, split, ih typeless.2, typeless.1]
    rfl

theorem split_ids (ps : List Property) :
    (split ps).2.map (·.id) = ps.filterMap (·.typeId?) := by
  induction ps with
  | nil => rfl
  | cons p ps ih =>
    rw [split]
    cases named : p.typeId? with
    | none => simpa [named] using ih
    | some id => simpa [named, ContentType.headed] using ih

/-- Every property that names no type is in front of the types or in one of them. -/
theorem split_properties (ps : List Property) :
    (split ps).1 ++ (split ps).2.flatMap (·.properties) = ps.filter (·.typeId?.isNone) := by
  induction ps with
  | nil => rfl
  | cons p ps ih =>
    rw [split]
    cases named : p.typeId? with
    | none => simpa [named] using ih
    | some id => simpa [named, ContentType.headed] using ih

/-- Every type is opened by one of the properties. -/
theorem of_mem_split {ps : List Property} {t : ContentType} (member : t ∈ (split ps).2) :
    ∃ p ∈ ps, ∃ id properties, p.typeId? = some id ∧ t = .headed id p.label properties := by
  induction ps with
  | nil => contradiction
  | cons p ps ih =>
    have later (member : t ∈ (split ps).2) : ∃ q ∈ p :: ps, ∃ id properties,
        q.typeId? = some id ∧ t = .headed id q.label properties := by
      obtain ⟨q, inside, opened⟩ := ih member
      exact ⟨q, List.mem_cons_of_mem p inside, opened⟩
    rw [split] at member
    cases named : p.typeId? with
    | none =>
      simp only [named] at member
      exact later member
    | some id =>
      simp only [named] at member
      obtain rfl | member := List.mem_cons.mp member
      · exact ⟨p, List.mem_cons_self, id, _, named, rfl⟩
      · exact later member

/-- Every property that can opens a type. -/
theorem exists_mem_split {ps : List Property} {p : Property} {id : String} (member : p ∈ ps)
    (opened : p.typeId? = some id) : ∃ properties, .headed id p.label properties ∈ (split ps).2 := by
  induction ps with
  | nil => contradiction
  | cons q ps ih =>
    rw [split]
    obtain rfl | later := List.mem_cons.mp member
    · exact ⟨(split ps).1, by simp [opened]⟩
    · obtain ⟨properties, inside⟩ := ih later
      refine ⟨properties, ?_⟩
      cases q.typeId? with
      | none => exact inside
      | some _ => exact List.mem_cons_of_mem _ inside

/-- The described types are those that the properties open, and no property stands before them. -/
theorem types_eq_ok_iff {typeStart : String} {es : List Entry} {described : List ContentType} :
    types typeStart es = .ok described ↔ (split (es.map (·.property))).1 = [] ∧
      described = (split (es.map (·.property))).2 := by
  cases es with
  | nil => simp [types, split, eq_comm]
  | cons e es =>
    rw [types, List.map_cons, split]
    cases named : e.property.typeId? with
    | none => simp
    | some id => simp [eq_comm]

end Blocks

namespace Assembly

variable {es : List Entry}

/-- The properties of a document, without the lines that are components. -/
def properties (es : List Entry) : List Property :=
  (((Components.attach .closed es).filter (!·.2)).map (·.1)).map (·.property)

def references (es : List Entry) : References :=
  .ofEntries ((Components.attach .closed es).map (·.1))

/-- The types that a document describes. -/
def blocks (es : List Entry) : List ContentType := (Blocks.split (properties es)).2

/-- The ids that a document holds. -/
def ids (es : List Entry) : List String := es.flatMap (·.property.ids)

theorem ofEntries_eq (fresh : Nat → String) (mode : Mode) (typeStart : String)
    (front : (Blocks.split (properties es)).1 = []) :
    ofEntries fresh mode typeStart es = match mode with
      | .strict => match (references es).violation? ((blocks es).map (·.id)) with
        | some e => .error e
        | none => separate (references es).snippets ((blocks es).map (·.relink id))
      | .loose =>
        let r := Registry.repair fresh (references es) (blocks es)
        separate (references es).snippets (r.types.map (·.relink r.rename)) := by
  have typed : Blocks.types typeStart
      (((Components.attach .closed es).filter (!·.2)).map (·.1)) = .ok (blocks es) :=
    Blocks.types_eq_ok_iff.mpr ⟨front, rfl⟩
  rw [ofEntries]
  simp only [typed]
  rfl

theorem front_of_ofEntries {fresh : Nat → String} {mode : Mode} {typeStart : String}
    {a : Assembly} (h : ofEntries fresh mode typeStart es = .ok a) :
    (Blocks.split (properties es)).1 = [] := by
  rw [ofEntries] at h
  cases typed : Blocks.types typeStart
      (((Components.attach .closed es).filter (!·.2)).map (·.1)) with
  | error e =>
    simp only [typed] at h
    contradiction
  | ok described => exact (Blocks.types_eq_ok_iff.mp typed).1

theorem mem_properties_iff {p : Property} :
    p ∈ properties es ↔ ∃ e, (e, false) ∈ Components.attach .closed es ∧ e.property = p := by
  simp [properties]

/-- What refers to something is a property of the document. -/
theorem mem_properties_of_typeless {e : Entry} {component : Bool}
    (member : (e, component) ∈ Components.attach .closed es)
    (typeless : e.property.typeId? = none) : e.property ∈ properties es := by
  cases component with
  | false => exact mem_properties_iff.mpr ⟨e, member, rfl⟩
  | true =>
    have opens := Components.isSome_typeId?_of_component member
    simp [typeless] at opens

theorem mem_ids_of_properties {p : Property} (member : p ∈ properties es) {id : String}
    (held : id ∈ p.ids) : id ∈ ids es := by
  obtain ⟨e, inside, rfl⟩ := mem_properties_iff.mp member
  exact List.mem_flatMap.mpr (Components.mem_ids_of_attach inside held)

theorem mem_ids_of_blocks {t : ContentType} (block : t ∈ blocks es) : t.id ∈ ids es := by
  have opened : t.id ∈ (properties es).filterMap (·.typeId?) := by
    rw [← Blocks.split_ids]
    exact List.mem_map_of_mem block
  obtain ⟨p, member, named⟩ := List.mem_filterMap.mp opened
  exact mem_ids_of_properties member (by simp [Property.ids, named])

section Front

variable (front : (Blocks.split (properties es)).1 = [])
include front

/-- The types of a document hold all its properties that open no type. -/
theorem exists_block_iff {p : Property} :
    (∃ t ∈ blocks es, p ∈ t.properties) ↔ p ∈ properties es ∧ p.typeId? = none := by
  have held := Blocks.split_properties (properties es)
  rw [front, List.nil_append] at held
  rw [← List.mem_flatMap, blocks, held, List.mem_filter, Option.isNone_iff_eq_none]

/-- What a property of the document refers to is referred to in one of its types. -/
theorem exists_marked_iff {q : Property → Prop} (typeless : ∀ p, q p → p.typeId? = none) :
    (∃ e ∈ (Components.attach .closed es).map (·.1), q e.property) ↔
      ∃ t ∈ blocks es, ∃ p ∈ t.properties, q p := by
  constructor
  · intro ⟨e, member, refers⟩
    obtain ⟨⟨e, component⟩, inside, rfl⟩ := List.mem_map.mp member
    have plain := typeless e.property refers
    obtain ⟨t, block, property⟩ :=
      (exists_block_iff front).mpr ⟨mem_properties_of_typeless inside plain, plain⟩
    exact ⟨t, block, _, property, refers⟩
  · intro ⟨t, block, p, property, refers⟩
    obtain ⟨member, _⟩ := (exists_block_iff front).mp ⟨t, block, property⟩
    obtain ⟨e, inside, rfl⟩ := mem_properties_iff.mp member
    exact ⟨e, List.mem_map_of_mem inside, refers⟩

theorem mem_links_iff {link : String} :
    link ∈ (references es).links ↔ ∃ t ∈ blocks es, ∃ p ∈ t.properties, link ∈ p.links := by
  rw [references, References.ofEntries, IdSet.mem_ofList, List.mem_flatMap]
  exact exists_marked_iff front fun _ => Property.typeless_of_link

theorem mem_snippets_iff {snippet : String} :
    snippet ∈ (references es).snippets ↔
      ∃ t ∈ blocks es, ∃ p ∈ t.properties, p.snippetId? = some snippet := by
  rw [references, References.ofEntries, IdSet.mem_ofList, List.mem_filterMap]
  exact exists_marked_iff front fun _ => Property.typeless_of_snippet

theorem mem_ids_of_links {link : String} (linked : link ∈ (references es).links) :
    link ∈ ids es := by
  obtain ⟨t, block, p, property, inside⟩ := (mem_links_iff front).mp linked
  have member := ((exists_block_iff front).mp ⟨t, block, property⟩).1
  exact mem_ids_of_properties member (by simp [Property.ids, inside])

theorem mem_ids_of_snippets {snippet : String} (referred : snippet ∈ (references es).snippets) :
    snippet ∈ ids es := by
  obtain ⟨t, block, p, property, named⟩ := (mem_snippets_iff front).mp referred
  have member := ((exists_block_iff front).mp ⟨t, block, property⟩).1
  exact mem_ids_of_properties member (by simp [Property.ids, named])

end Front

end Assembly

end ContentSchema
