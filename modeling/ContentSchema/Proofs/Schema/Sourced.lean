import ContentSchema.Proofs.Assembly.Outcome
import ContentSchema.Proofs.Schema.Described
/-!
What the types of a parsed document are made of: labels and properties as its lines describe them,
ids of these lines, and ids made from such ids (`ContentType.Sourced`). A schema of such types falls
short of being canonical in two things only, a label with a comma and an id that names a kind
(`Schema.isCanonical_iff_of_sourced`).
-/
namespace ContentSchema

open Canonical

namespace Entry

variable {e : Entry}

theorem isCanonical_withComponents (canonical : e.property.IsCanonical) (ids : List String) :
    (e.withComponents ids).property.IsCanonical := by
  rw [withComponents]
  split
  · next r rich =>
    have content := canonical.content
    rw [rich] at content
    constructor
    case label => exact canonical.label
    case reference =>
      intro same
      contradiction
    case content =>
      rw [RichText.withComponents]
      split
      · exact content
      · next nonempty => exact ⟨content.1, by simpa using nonempty⟩
  · exact canonical

theorem typeId?_withComponents (e : Entry) (ids : List String) :
    (e.withComponents ids).property.typeId? = e.property.typeId? := by
  rw [withComponents]
  split
  · next rich => simp [Property.typeId?, rich]
  · rfl

end Entry

namespace Components

/-- An entry with its components is one of the entries, or one of them with components added. -/
theorem of_mem_attach {run : Run} {es : List Entry} {e : Entry} {component : Bool}
    (member : (e, component) ∈ attach run es) :
    ∃ e' ∈ es, e = e' ∨ ∃ ids, e = e'.withComponents ids := by
  induction es generalizing run with
  | nil => contradiction
  | cons first es ih =>
    have later {run : Run} (member : (e, component) ∈ attach run es) :
        ∃ e' ∈ first :: es, e = e' ∨ ∃ ids, e = e'.withComponents ids := by
      obtain ⟨e', inside, same⟩ := ih member
      exact ⟨e', List.mem_cons_of_mem first inside, same⟩
    rw [attach] at member
    split at member
    · obtain same | member := List.mem_cons.mp member
      · exact ⟨first, List.mem_cons_self, .inl (congrArg Prod.fst same)⟩
      · exact later member
    · split at member
      · obtain same | member := List.mem_cons.mp member
        · exact ⟨first, List.mem_cons_self, .inr ⟨_, congrArg Prod.fst same⟩⟩
        · exact later member
      · obtain same | member := List.mem_cons.mp member
        · exact ⟨first, List.mem_cons_self, .inl (congrArg Prod.fst same)⟩
        · exact later member

end Components

/-- A type that is made of what lines describe. Its label may be an id, and its id that of a kind. -/
structure ContentType.Sourced (t : ContentType) : Prop where
  name : IsName t.id
  label : IsLabel t.label ∨ IsName t.label
  properties : ∀ p ∈ t.properties, p.IsCanonical

theorem Property.isCanonical_mapLinks {p : Property} {f : String → String}
    (canonical : p.IsCanonical) (commaless : ∀ id, ',' ∉ id.toList → ',' ∉ (f id).toList) :
    (p.mapLinks f).IsCanonical := by
  obtain ⟨label, required, content⟩ := p
  have whole := canonical.content
  refine ⟨canonical.label, ?_, ?_⟩
  · cases content <;> exact canonical.reference
  · cases content with
    | linkedItems ids range =>
      refine ⟨by simpa using whole.1, ?_⟩
      intro _ member
      obtain ⟨id, listed, rfl⟩ := List.mem_map.mp member
      exact commaless id (whole.2 id listed)
    | richText r => exact ⟨whole.1, by simpa using whole.2⟩
    | _ => exact whole

namespace ContentType.Sourced

variable {t : ContentType}

theorem placeholder {id : String} (named : IsName id) : (ContentType.placeholder id).Sourced :=
  ⟨named, .inr named, List.forall_mem_nil _⟩

theorem cloneAs (sourced : t.Sourced) {id : String} (named : IsName id) : (t.cloneAs id).Sourced :=
  ⟨named, sourced.label, sourced.properties⟩

theorem relink (sourced : t.Sourced) {f : String → String}
    (commaless : ∀ id, ',' ∉ id.toList → ',' ∉ (f id).toList) : (t.relink f).Sourced := by
  refine ⟨sourced.name, sourced.label, ?_⟩
  intro _ member
  obtain ⟨p, property, rfl⟩ := List.mem_map.mp member
  exact Property.isCanonical_mapLinks (sourced.properties p property) commaless

/-- A label without a comma goes on to the end of its line, though it may be an id. -/
theorem isLabel (sourced : t.Sourced) (comma : ',' ∉ t.label.toList) : IsLabel t.label := by
  obtain labelled | named := sourced.label
  · exact labelled
  · exact named.isLabel comma

end ContentType.Sourced

/-- A schema of such types is canonical exactly if no label has a comma and no id names a kind. -/
theorem Schema.isCanonical_iff_of_sourced {s : Schema} (integral : s.Integral)
    (stats : s.stats = Chains.stats s.types)
    (sourced : ∀ t ∈ s.types ++ s.snippetTypes, t.Sourced) :
    s.IsCanonical ↔ ∀ t ∈ s.types ++ s.snippetTypes,
      ',' ∉ t.label.toList ∧ Grammar.standard.kindFor? t.id = none := by
  constructor
  · intro canonical t member
    refine ⟨?_, (canonical.ids t member).unknown⟩
    exact fun comma => (canonical.labels t member).plain ',' comma (by simp)
  · intro told
    constructor
    case ids => exact fun t member => isId_iff_isName.mpr ⟨(sourced t member).name, (told t member).2⟩
    case labels => exact fun t member => (sourced t member).isLabel (told t member).1
    case properties => exact fun t member => (sourced t member).properties
    case integral => exact integral
    case stats => exact stats

namespace Assembly

variable {es : List Entry} {p : Property} {id : String}

/-- What opens a type stands in an entry that opens it. -/
theorem exists_entry_of_typeId? (member : p ∈ properties es) (opened : p.typeId? = some id) :
    ∃ e ∈ es, e.property.typeId? = some id := by
  obtain ⟨e, attached, rfl⟩ := mem_properties_iff.mp member
  obtain ⟨e', inside, rfl | ⟨ids, rfl⟩⟩ := Components.of_mem_attach attached
  · exact ⟨e, inside, opened⟩
  · exact ⟨e', inside, by rwa [Entry.typeId?_withComponents] at opened⟩

section Blocks

variable (described : ∀ e ∈ es, e.property.Described)
include described

theorem isCanonical_of_properties (member : p ∈ properties es) : p.IsCanonical := by
  obtain ⟨e, attached, rfl⟩ := mem_properties_iff.mp member
  obtain ⟨e', inside, rfl | ⟨ids, rfl⟩⟩ := Components.of_mem_attach attached
  · exact (described e inside).canonical
  · exact Entry.isCanonical_withComponents (described e' inside).canonical ids

theorem isName_of_mem_ids (member : id ∈ ids es) : IsName id := by
  obtain ⟨e, inside, held⟩ := List.mem_flatMap.mp member
  exact (described e inside).names id held

/-- Linked items have no comma in their ids, so only the ids of types and snippets may have one. -/
theorem not_comma_of_mem_ids (commaless : ∀ e ∈ es, (∀ id ∈ e.property.typeId?, ',' ∉ id.toList) ∧
    ∀ id ∈ e.property.snippetId?, ',' ∉ id.toList) : ∀ id ∈ ids es, ',' ∉ id.toList := by
  intro id member
  obtain ⟨e, inside, held⟩ := List.mem_flatMap.mp member
  rw [Property.ids, List.mem_append, List.mem_append, Option.mem_toList, Option.mem_toList] at held
  obtain (opens | linked) | named := held
  · exact (commaless e inside).1 id opens
  · exact (described e inside).links id linked
  · exact (commaless e inside).2 id named

/-- A described type has the label of its line, or else its id for one, and its id names no kind. -/
theorem sourced_of_blocks (front : (Blocks.split (properties es)).1 = []) {t : ContentType}
    (block : t ∈ blocks es) : t.Sourced ∧ (IsLabel t.label ∨ t.label = t.id) ∧
      Grammar.standard.kindFor? t.id = none := by
  have canonical : ∀ p ∈ t.properties, p.IsCanonical := by
    intro p property
    exact isCanonical_of_properties described ((exists_block_iff front).mp ⟨t, block, property⟩).1
  have named : IsName t.id := isName_of_mem_ids described (mem_ids_of_blocks block)
  obtain ⟨p, member, id, properties, opened, rfl⟩ := Blocks.of_mem_split block
  obtain ⟨e, inside, opens⟩ := exists_entry_of_typeId? member opened
  have label : IsLabel (ContentType.headed id p.label properties).label ∨
      (ContentType.headed id p.label properties).label = id := by
    rw [ContentType.headed]
    split
    · exact .inr rfl
    · next labelled => exact .inl ((isCanonical_of_properties described member).label labelled)
  refine ⟨⟨named, ?_, canonical⟩, label, (described e inside).opens id opens⟩
  obtain labelled | same := label
  · exact .inl labelled
  · exact .inr (same.symm ▸ named)

/-- A label with a comma is the id of a type whose line has none. -/
theorem exists_comma_iff : (∃ t ∈ blocks es, ',' ∈ t.label.toList) ↔
    ∃ p ∈ properties es, p.label = "" ∧ ∃ id ∈ p.typeId?, ',' ∈ id.toList := by
  constructor
  · rintro ⟨t, block, comma⟩
    obtain ⟨p, member, id, properties, opened, rfl⟩ := Blocks.of_mem_split block
    rw [ContentType.headed] at comma
    split at comma
    · next bare => exact ⟨p, member, bare, id, opened, comma⟩
    · next labelled =>
      have isLabel := (isCanonical_of_properties described member).label labelled
      exact absurd (by simp) (isLabel.plain ',' comma)
  · rintro ⟨p, member, bare, id, opened, comma⟩
    obtain ⟨properties, block⟩ := Blocks.exists_mem_split member opened
    refine ⟨_, block, ?_⟩
    rwa [ContentType.headed, if_pos bare]

end Blocks

end Assembly

/-- What holds of types and of their copies holds of them once they are renumbered. -/
theorem Registry.forall_renumbered {fresh : Nat → String} {q : ContentType → Prop}
    (copy : ∀ t, q t → ∀ n, q (t.cloneAs (t.id ++ "-" ++ fresh n))) {types : List ContentType}
    (holds : ∀ t ∈ types, q t) (made : Nat) (seen : List String) :
    ∀ t ∈ renumbered fresh made seen types, q t := by
  induction types generalizing made seen with
  | nil => exact List.forall_mem_nil _
  | cons t types ih =>
    rw [List.forall_mem_cons] at holds
    rw [renumbered]
    split
    · exact List.forall_mem_cons.mpr ⟨copy t holds.1 made, ih holds.2 (made + 1) seen⟩
    · exact List.forall_mem_cons.mpr ⟨holds.1, ih holds.2 made (t.id :: seen)⟩

namespace Assembly

/-- The endings of made-up ids, as random ids in hexadecimal digits are. -/
def Endings (fresh : Nat → String) : Prop :=
  ∀ n, ∀ c ∈ (fresh n).toList, c.isAlphanum ∨ c = '-'

variable {fresh : Nat → String} {es : List Entry} {id : String}

/-- What holds of the described types and of the empty ones, and of each copy of a type of which it
holds, holds of all types after loose repair. -/
theorem forall_repaired {q : ContentType → Prop} (block : ∀ t ∈ blocks es, q t)
    (blank : ∀ id, id ∈ (references es).links ∨ id ∈ (references es).snippets → q (.placeholder id))
    (copy : ∀ t, q t → ∀ n, q (t.cloneAs (t.id ++ "-" ++ fresh n))) :
    ∀ t ∈ repaired fresh es, q t := by
  intro t member
  rw [repaired, linked, List.mem_append, List.mem_append] at member
  obtain (described | added) | missing := member
  · exact Registry.forall_renumbered copy block 0 [] t described
  · obtain ⟨link, isLink, added⟩ := List.mem_flatMap.mp added
    have empty := blank link (.inl isLink)
    -- Whatever has the id of the link, its copy goes by the id that the link is sent to.
    have copied {u : ContentType} (holds : q u) (named : u.id = link)
        (snippet : link ∈ (references es).snippets) : q (u.cloneAs (target fresh es link)) := by
      rw [target, if_pos (mem_shared.mpr ⟨isLink, snippet⟩), ← named]
      exact copy u holds _
    cases found : (blocks es).find? (·.id == link) with
    | some u =>
      have named : u.id = link := by simpa using List.find?_some found
      have holds := block u (List.mem_of_find?_eq_some found)
      by_cases snippet : link ∈ (references es).snippets
      · simp only [found, Registry.additions, snippet, decide_true, if_true, List.mem_singleton] at added
        exact added ▸ copied holds named snippet
      · simp [found, Registry.additions, snippet] at added
    | none =>
      by_cases snippet : link ∈ (references es).snippets
      · simp only [found, Registry.additions, snippet, decide_true, if_true, List.mem_pair] at added
        obtain rfl | rfl := added
        · exact copied empty rfl snippet
        · exact empty
      · simp only [found, Registry.additions, snippet, decide_false, Bool.false_eq_true, if_false,
          List.mem_singleton] at added
        exact added ▸ empty
  · obtain ⟨id, listed, rfl⟩ := List.mem_map.mp missing
    exact blank id (.inr (List.mem_filter.mp listed).1)

section Copies

variable (endings : Endings fresh)
include endings

theorem isName_copy (named : IsName id) (n : Nat) : IsName (id ++ "-" ++ fresh n) := by
  have marks : ∀ c ∈ [' ', '\n', '\r', '/', '.', '[', ']', '(', ')'],
      ¬ (c.isAlphanum ∨ c = '-') := by decide
  have nonempty : id.toList ≠ [] := by simpa using named.nonempty
  have whole : (id ++ "-" ++ fresh n).toList = id.toList ++ ("-".toList ++ (fresh n).toList) := by
    rw [String.toList_append, String.toList_append, List.append_assoc]
  constructor
  case nonempty =>
    intro empty
    rw [empty] at whole
    exact nonempty (List.append_eq_nil_iff.mp whole.symm).1
  case first =>
    rw [whole, List.head?_append_of_ne_nil _ nonempty]
    exact named.first
  case plain =>
    intro c member
    rw [whole, List.mem_append, List.mem_append] at member
    obtain inId | hyphen | inEnding := member
    · exact named.plain c inId
    · exact fun mark => marks c mark (.inr (List.mem_singleton.mp hyphen))
    · exact fun mark => marks c mark (endings n c inEnding)

theorem comma_target (id : String) (comma : ',' ∉ id.toList) :
    ',' ∉ (target fresh es id).toList := by
  rw [target]
  split
  · rw [String.toList_append, String.toList_append, List.mem_append, List.mem_append]
    rintro ((inId | hyphen) | inEnding)
    · exact comma inId
    · exact absurd hyphen (by decide)
    · exact absurd (endings _ ',' inEnding) (by decide)
  · exact comma

end Copies

theorem kindFor?_copy (id ending : String) :
    Grammar.standard.kindFor? (id ++ "-" ++ ending) = none :=
  kindFor?_of_mem (by simp : '-' ∈ (id ++ "-" ++ ending).toList) (by decide)

theorem met_repaired (front : (Blocks.split (properties es)).1 = []) (new : Fresh fresh es) :
    (references es).Met (target fresh es) (repaired fresh es) := by
  have met := met_of_loose front new
  rwa [rename_repair front new, repair_eq front new] at met

/-- In the end there is a type for every reference. -/
theorem mem_ids_repaired (front : (Blocks.split (properties es)).1 = []) (new : Fresh fresh es)
    (referred : id ∈ (references es).links ∨ id ∈ (references es).snippets) :
    id ∈ (repaired fresh es).map (·.id) := by
  have met := met_repaired front new
  by_cases snippet : id ∈ (references es).snippets
  · exact met.described id snippet
  · have link : id ∈ (references es).links := referred.resolve_right snippet
    have led := (met.linked id link).1
    rwa [target, if_neg (mt (fun shared => (mem_shared.mp shared).2) snippet)] at led

section Sourced

variable (described : ∀ e ∈ es, e.property.Described)
  (front : (Blocks.split (properties es)).1 = [])
include described front

theorem sourced_of_repaired (endings : Endings fresh) : ∀ t ∈ repaired fresh es, t.Sourced := by
  apply forall_repaired
  case block => exact fun t block => (sourced_of_blocks described front block).1
  case blank =>
    intro id referred
    have inside : id ∈ ids es := referred.elim (mem_ids_of_links front) (mem_ids_of_snippets front)
    exact .placeholder (isName_of_mem_ids described inside)
  case copy => exact fun t sourced n => sourced.cloneAs (isName_copy endings sourced.name n)

/-- Where no id has a comma, and no reference names a kind, none of the types does. -/
theorem told_of_repaired (commaless : ∀ id ∈ ids es, ',' ∉ id.toList)
    (unknown : ∀ id, id ∈ (references es).links ∨ id ∈ (references es).snippets →
      Grammar.standard.kindFor? id = none) :
    ∀ t ∈ repaired fresh es, ',' ∉ t.label.toList ∧ Grammar.standard.kindFor? t.id = none := by
  apply forall_repaired
  case block =>
    intro t block
    obtain ⟨_, label, unknown⟩ := sourced_of_blocks described front block
    refine ⟨?_, unknown⟩
    obtain isLabel | same := label
    · exact fun comma => isLabel.plain ',' comma (by simp)
    · rw [same]
      exact commaless t.id (mem_ids_of_blocks block)
  case blank =>
    intro id referred
    have inside : id ∈ ids es := referred.elim (mem_ids_of_links front) (mem_ids_of_snippets front)
    exact ⟨commaless id inside, unknown id referred⟩
  case copy => exact fun t told n => ⟨told.1, kindFor?_copy t.id (fresh n)⟩

end Sourced

end Assembly

end ContentSchema
