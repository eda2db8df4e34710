import ContentSchema.Proofs.Assembly.Integrity
/-!
Types that are stated again: a line for the type, its properties in order, and behind a rich text its
components, one to a line. Strict assembly of these lines gives back the types of a schema of
integrity (`ofEntries_restated`).
-/
namespace ContentSchema

namespace ContentType

def opening (t : ContentType) : Property :=
  { label := t.label, required := false, content := .type t.id }

/-- The lines of a type, as properties. Components are told by their own lines. -/
def stated (t : ContentType) : List Property :=
  t.opening :: t.properties.flatMap fun p => p :: p.components.map Property.component

/-- A type that its lines tell all of: its first line is no component, no other line opens a type,
and a rich text is a parent exactly if it has components. -/
structure Statable (t : ContentType) : Prop where
  labelled : t.label ≠ ""
  typeless : ∀ p ∈ t.properties, p.typeId? = none
  parents : ∀ p ∈ t.properties, ∀ r, p.content = .richText r →
    (r.isComponentParent ↔ r.components ≠ [])

end ContentType

namespace Entry

def ofLine (p : Property) : Entry := { property := p.bare }

/-- The entry without the number of its line, which assembly does not depend on. -/
def unplaced (e : Entry) : Entry := { e with line := 1 }

end Entry

namespace Components

variable {run : Run} {es rest : List Entry} {p : Property}

theorem front_unplaced (run : Run) (es : List Entry) :
    front run (es.map (·.unplaced)) = front run es := by
  induction es generalizing run with
  | nil => rfl
  | cons e es ih =>
    have same : run.take? e.unplaced = run.take? e := by cases run <;> rfl
    rw [List.map_cons, front, front, same, ih]

theorem attach_unplaced (run : Run) (es : List Entry) :
    attach run (es.map (·.unplaced)) = (attach run es).map fun (e, c) => (e.unplaced, c) := by
  induction es generalizing run with
  | nil => rfl
  | cons e es ih =>
    have same : run.take? e.unplaced = run.take? e := by cases run <;> rfl
    have rich (ids : List String) : e.unplaced.withComponents ids = (e.withComponents ids).unplaced := by
      cases content : e.property.content <;>
        simp [Entry.withComponents, Entry.unplaced, content]
    rw [List.map_cons, attach, attach, same]
    by_cases taken : (run.take? e).isSome
    · rw [if_pos taken, if_pos taken, List.map_cons, ih]
    · rw [if_neg taken, if_neg taken]
      by_cases text : e.isRichText
      · rw [if_pos (show e.unplaced.isRichText from text), if_pos text, List.map_cons, ih,
          front_unplaced, rich]
      · rw [if_neg (show ¬ e.unplaced.isRichText from text), if_neg text, List.map_cons, ih]

/-- Entries that do not begin with a line that could be a component. -/
def Closed (es : List Entry) : Prop := ∀ e, es.head? = some e → e.bareId? = none

theorem take?_of_bareId? {e : Entry} (bare : e.bareId? = none) : run.take? e = none := by
  cases run <;> simp [Run.take?, bare]

theorem front_of_closed (closed : Closed es) : front run es = [] := by
  cases es with
  | nil => rfl
  | cons e es => rw [front, take?_of_bareId? (closed e rfl)]

theorem attach_of_closed (closed : Closed es) : attach run es = attach .closed es := by
  cases es with
  | nil => rfl
  | cons e es =>
    rw [attach, attach, take?_of_bareId? (closed e rfl), take?_of_bareId? (closed e rfl)]

theorem take?_component (open_ : run ≠ .closed) (id : String) :
    run.take? (.ofLine (.component id)) = some id := by
  cases run with
  | closed => contradiction
  | opened => rfl
  | continued => rfl

theorem front_components (open_ : run ≠ .closed) (ids : List String) (closed : Closed rest) :
    front run (ids.map (Entry.ofLine ∘ Property.component) ++ rest) = ids := by
  induction ids generalizing run with
  | nil => exact front_of_closed closed
  | cons id ids ih =>
    have later := ih (by simp : Run.continued ≠ .closed)
    rw [List.map_cons, List.cons_append, front, Function.comp_apply, take?_component open_]
    simp only [later]

theorem attach_components (open_ : run ≠ .closed) (ids : List String) (closed : Closed rest) :
    attach run (ids.map (Entry.ofLine ∘ Property.component) ++ rest) =
      (ids.map (Entry.ofLine ∘ Property.component)).map (·, true) ++ attach .closed rest := by
  induction ids generalizing run with
  | nil => exact attach_of_closed closed
  | cons id ids ih =>
    have later := ih (by simp : Run.continued ≠ .closed)
    rw [List.map_cons, List.cons_append, attach, Function.comp_apply, take?_component open_,
      Option.isSome_some, if_pos rfl, later]
    rfl

/-- A property with its components behind it is put together again. -/
theorem attach_property (typeless : p.typeId? = none)
    (parent : ∀ r, p.content = .richText r → (r.isComponentParent ↔ r.components ≠ []))
    (closed : Closed rest) :
    attach run (((p :: p.components.map Property.component).map .ofLine) ++ rest) =
      ({ property := p }, false) ::
        (p.components.map (Entry.ofLine ∘ Property.component)).map (·, true) ++
          attach .closed rest := by
  have bareless : run.take? (.ofLine p) = none := by
    apply take?_of_bareId?
    rw [Entry.bareId?, Entry.ofLine, Property.typeId?_bare, typeless, ite_self]
  rw [List.map_cons, List.map_map, List.cons_append, attach, bareless, Option.isSome_none,
    if_neg Bool.false_ne_true]
  obtain ⟨label, required, content⟩ := p
  cases content with
  | richText r =>
    have opened : Run.opened ≠ .closed := by simp
    have fronted := front_components opened r.components closed
    have whole := Property.withComponents_bare (parent r rfl)
    have rich : (Entry.ofLine { label, required, content := .richText r }).isRichText := rfl
    rw [if_pos rich]
    simp only [Property.components, fronted, attach_components opened r.components closed]
    simp [Entry.ofLine, Entry.withComponents, Property.bare, Content.bare, whole]
  | _ => exact congrArg (_ :: ·) (attach_of_closed closed)

/-- The properties of the entries that are no components. -/
def kept (marked : List (Entry × Bool)) : List Property :=
  ((marked.filter (!·.2)).map (·.1)).map (·.property)

theorem kept_property (p : Property) (marked : List (Entry × Bool)) :
    kept (({ property := p }, false) :: marked) = p :: kept marked := rfl

theorem kept_components (es : List Entry) (marked : List (Entry × Bool)) :
    kept (es.map (·, true) ++ marked) = kept marked := by
  induction es with
  | nil => rfl
  | cons e es ih => exact ih

theorem closed_lines {ps : List Property} (typeless : ∀ p ∈ ps, p.typeId? = none)
    (closed : Closed rest) :
    Closed ((ps.flatMap fun p => p :: p.components.map Property.component).map .ofLine ++ rest) := by
  cases ps with
  | nil => exact closed
  | cons p ps =>
    intro e first
    simp only [List.flatMap_cons, List.cons_append, List.map_cons, List.head?_cons,
      Option.some.injEq] at first
    rw [← first, Entry.bareId?, Entry.ofLine, Property.typeId?_bare,
      typeless p List.mem_cons_self, ite_self]

/-- Lines that tell properties give these back. -/
theorem kept_lines {ps : List Property} (typeless : ∀ p ∈ ps, p.typeId? = none)
    (parents : ∀ p ∈ ps, ∀ r, p.content = .richText r → (r.isComponentParent ↔ r.components ≠ []))
    (closed : Closed rest) :
    kept (attach run
      ((ps.flatMap fun p => p :: p.components.map Property.component).map .ofLine ++ rest)) =
      ps ++ kept (attach .closed rest) := by
  induction ps generalizing run with
  | nil => rw [List.flatMap_nil, List.map_nil, List.nil_append, attach_of_closed closed]; rfl
  | cons p ps ih =>
    rw [List.forall_mem_cons] at typeless parents
    rw [List.flatMap_cons, List.map_append, List.append_assoc,
      attach_property typeless.1 parents.1 (closed_lines typeless.2 closed), List.cons_append,
      kept_property, kept_components, ih typeless.2 parents.2, List.cons_append]

end Components

namespace Assembly

open Components

/-- The entries of types, as their lines tell them. -/
def restated (types : List ContentType) : List Entry :=
  (types.flatMap (·.stated)).map .ofLine

theorem closed_restated {types : List ContentType} (labelled : ∀ t ∈ types, t.label ≠ "") :
    Closed (restated types) := by
  cases types with
  | nil =>
    intro e first
    contradiction
  | cons t types =>
    intro e first
    rw [List.forall_mem_cons] at labelled
    simp only [restated, List.flatMap_cons, ContentType.stated, List.cons_append, List.map_cons,
      List.head?_cons, Option.some.injEq] at first
    rw [← first]
    exact if_neg labelled.1

/-- The lines of types give their properties, each behind the line of its type. -/
theorem properties_restated {types : List ContentType} (statable : ∀ t ∈ types, t.Statable) :
    properties (restated types) = types.flatMap fun t => t.opening :: t.properties := by
  induction types with
  | nil => rfl
  | cons t types ih =>
    rw [List.forall_mem_cons] at statable
    have closed := closed_restated fun u member => (statable.2 u member).labelled
    have opened : attach .closed (restated (t :: types)) = (.ofLine t.opening, false) ::
        attach .closed ((t.properties.flatMap fun p =>
          p :: p.components.map Property.component).map .ofLine ++ restated types) := by
      simp [restated, ContentType.stated, attach, Run.take?, Entry.isRichText, Entry.ofLine,
        Property.kind, ContentType.opening, Property.bare, Content.bare, Content.kind]
    have told : kept (attach .closed _) = _ :=
      kept_lines statable.1.typeless statable.1.parents closed
    rw [List.flatMap_cons, List.cons_append, ← ih statable.2]
    show kept (attach .closed (restated (t :: types))) = _
    rw [opened]
    exact congrArg (t.opening :: ·) told

theorem split_statable {types : List ContentType} (statable : ∀ t ∈ types, t.Statable) :
    Blocks.split (types.flatMap fun t => t.opening :: t.properties) =
      ([], types.map fun t => .headed t.id t.label t.properties) := by
  induction types with
  | nil => rfl
  | cons t types ih =>
    rw [List.forall_mem_cons] at statable
    rw [List.flatMap_cons, List.cons_append, Blocks.split,
      Blocks.split_append statable.1.typeless, ih statable.2]
    simp [ContentType.opening, Property.typeId?]

theorem properties_unplaced (es : List Entry) :
    properties (es.map (·.unplaced)) = properties es := by
  rw [properties, properties, attach_unplaced, List.filter_map, List.map_map, List.map_map,
    List.map_map]
  rfl

/-- Building a type from its properties changes nothing in a type of a schema of integrity. -/
theorem relink_headed {t : ContentType} (statable : t.Statable)
    (links : t.links = .ofList (t.properties.flatMap (·.links)))
    (snippets : t.snippets = .ofList (t.properties.filterMap (·.snippetId?))) :
    (ContentType.headed t.id t.label t.properties).relink id = t := by
  have same : t.properties.map (·.mapLinks id) = t.properties := by
    rw [List.map_congr_left, List.map_id]
    intro p _
    exact p.mapLinks_id
  rw [ContentType.headed, ContentType.relink, if_neg statable.labelled, ← snippets]
  simp only [same, ← links]

/-- The snippet types of a schema of integrity are told apart from its types by their use. -/
theorem separate_integral {s : Schema} (integral : s.Integral) {snippets : IdSet}
    (named : ∀ {id : String}, id ∈ snippets ↔ ∃ u ∈ s.snippetTypes, u.id = id) :
    separate snippets (s.types ++ s.snippetTypes) =
      .ok { types := s.types, snippetTypes := s.snippetTypes } := by
  have used : ∀ u ∈ s.snippetTypes, u.id ∈ snippets := fun u member => named.mpr ⟨u, member, rfl⟩
  have unused : ∀ t ∈ s.types, t.id ∉ snippets := by
    intro t member snippet
    obtain ⟨u, listed, same⟩ := named.mp snippet
    have distinct := integral.distinct
    rw [List.map_append, List.nodup_append] at distinct
    exact distinct.2.2 t.id (List.mem_map_of_mem member) u.id (List.mem_map_of_mem listed) same.symm
  rw [separate_eq_ok_iff]
  constructor
  · intro t member snippet
    obtain inTypes | inSnippets := List.mem_append.mp member
    · exact absurd snippet (unused t inTypes)
    · have none : t.properties.filterMap (·.snippetId?) = [] :=
        List.filterMap_eq_nil_iff.mpr (integral.flat t inSnippets)
      rw [integral.snippets_eq t member, none]
      rfl
  · have types : (s.types ++ s.snippetTypes).filter (·.id ∉ snippets) = s.types := by
      rw [List.filter_append, List.filter_eq_self.mpr, List.filter_eq_nil_iff.mpr, List.append_nil]
      · intro u member
        simpa using used u member
      · intro t member
        simpa using unused t member
    have snippetTypes : (s.types ++ s.snippetTypes).filter (·.id ∈ snippets) = s.snippetTypes := by
      rw [List.filter_append, List.filter_eq_nil_iff.mpr, List.filter_eq_self.mpr, List.nil_append]
      · intro u member
        simpa using used u member
      · intro t member
        simpa using unused t member
    rw [types, snippetTypes]

theorem blocks_restated {types : List ContentType} (statable : ∀ t ∈ types, t.Statable)
    {es : List Entry} (told : es.map (·.unplaced) = restated types) :
    (Blocks.split (properties es)).1 = [] ∧
      blocks es = types.map fun t => .headed t.id t.label t.properties := by
  have held : properties es = types.flatMap fun t => t.opening :: t.properties := by
    rw [← properties_unplaced, told, properties_restated statable]
  have splits := split_statable statable
  rw [← held] at splits
  rw [blocks, splits]
  exact ⟨rfl, rfl⟩

section

variable {s : Schema} (integral : s.Integral)
  (statable : ∀ t ∈ s.types ++ s.snippetTypes, t.Statable) {es : List Entry}
  (told : es.map (·.unplaced) = restated (s.types ++ s.snippetTypes))
include integral statable told

theorem of_mem_links_restated {link : String} (referred : link ∈ (references es).links) :
    (∃ target ∈ s.types, target.id = link) ∧ ∀ u ∈ s.snippetTypes, u.id ≠ link := by
  obtain ⟨front, described⟩ := blocks_restated statable told
  obtain ⟨_, block, p, property, linked⟩ := (mem_links_iff front).mp referred
  rw [described] at block
  obtain ⟨t, member, rfl⟩ := List.mem_map.mp block
  apply integral.linked t member
  rw [integral.links_eq t member, IdSet.mem_ofList]
  exact List.mem_flatMap.mpr ⟨p, property, linked⟩

theorem mem_snippets_restated {snippet : String} :
    snippet ∈ (references es).snippets ↔ ∃ u ∈ s.snippetTypes, u.id = snippet := by
  obtain ⟨front, described⟩ := blocks_restated statable told
  rw [mem_snippets_iff front, described]
  constructor
  · intro referred
    obtain ⟨_, block, p, property, named⟩ := referred
    obtain ⟨t, member, rfl⟩ := List.mem_map.mp block
    apply integral.described t member
    rw [integral.snippets_eq t member, IdSet.mem_ofList]
    exact List.mem_filterMap.mpr ⟨p, property, named⟩
  · intro described
    obtain ⟨u, member, same⟩ := described
    obtain ⟨t, inside, p, property, named⟩ := integral.used u member
    exact ⟨_, List.mem_map_of_mem inside, p, property, same ▸ named⟩

/-- The lines of a schema of integrity keep the strict rules. -/
theorem violation?_restated : (references es).violation? ((blocks es).map (·.id)) = none := by
  have ids : (blocks es).map (·.id) = (s.types ++ s.snippetTypes).map (·.id) := by
    rw [(blocks_restated statable told).2, List.map_map]
    rfl
  rw [References.violation?_eq_none_iff, ids]
  refine ⟨integral.distinct, ?_, ?_⟩
  · intro link referred
    obtain ⟨⟨target, listed, same⟩, other⟩ := of_mem_links_restated integral statable told referred
    constructor
    · intro snippet
      obtain ⟨u, listed, same⟩ := (mem_snippets_restated integral statable told).mp snippet
      exact other u listed same
    · rw [← same]
      exact List.mem_map_of_mem (List.mem_append_left _ listed)
  · intro snippet referred
    obtain ⟨u, listed, same⟩ := (mem_snippets_restated integral statable told).mp referred
    rw [← same]
    exact List.mem_map_of_mem (List.mem_append_right _ listed)

/-- Strict assembly of the lines of a schema of integrity gives back its types, whatever the numbers
of the lines. -/
theorem ofEntries_restated (fresh : Nat → String) (typeStart : String) :
    ofEntries fresh .strict typeStart es =
      .ok { types := s.types, snippetTypes := s.snippetTypes } := by
  obtain ⟨front, described⟩ := blocks_restated statable told
  have kept := violation?_restated integral statable told
  have rebuilt : (blocks es).map (·.relink id) = s.types ++ s.snippetTypes := by
    rw [described, List.map_map, List.map_congr_left, List.map_id]
    intro t member
    exact relink_headed (statable t member) (integral.links_eq t member)
      (integral.snippets_eq t member)
  rw [ofEntries_eq fresh .strict typeStart front]
  simp only [kept, rebuilt]
  exact separate_integral integral (mem_snippets_restated integral statable told)

end

end Assembly

end ContentSchema
