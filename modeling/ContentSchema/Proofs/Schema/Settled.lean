import ContentSchema.Proofs.Assembly.Modes
import ContentSchema.Proofs.Assembly.Restated
import ContentSchema.Proofs.Line.Invariant
import ContentSchema.Proofs.Schema.Sourced
/-!
One repair is enough. Whatever a document describes under any grammar, its types after loose repair
can be stated again by lines (`Assembly.statable_of_repaired`), and these lines keep the strict rules
and give back the types (`Assembly.restated_of_loose`).
-/
namespace ContentSchema

/-- A property as a line describes it under any grammar: no id is empty, and components are yet to
come. -/
structure Property.Raw (p : Property) : Prop where
  nonempty : ∀ id ∈ p.ids, id ≠ ""
  bare : p.bare = p

theorem Line.raw_of_describe {g : Grammar} {l : Line} {p : Property} (named : l.identifier ≠ "")
    (described : l.describe g = .ok p) : p.Raw := by
  refine ⟨?_, bare_of_describe described⟩
  obtain ⟨kind, supply, _, _, rfl⟩ := describe_eq_ok_iff.mp described
  intro id held
  obtain rfl | ⟨-, link⟩ := of_mem_ids held
  · exact named
  · exact of_decide_eq_true (List.mem_filter.mp link).2

theorem raw_of_entries {g : Grammar} {source : String} {es : List Entry}
    (described : entries g source = .ok es) : ∀ e ∈ es, e.property.Raw := by
  obtain ⟨lines, read, each⟩ := exists_line_of_entries described
  intro e member
  obtain ⟨l, listed, property⟩ := each e member
  exact Line.raw_of_describe (identifier_ne_of_scan read l listed) property

/-- A rich text is a parent exactly if it has components. -/
def Property.Parented (p : Property) : Prop :=
  ∀ r, p.content = .richText r → (r.isComponentParent ↔ r.components ≠ [])

theorem Property.parented_of_bare {p : Property} (bare : p.bare = p) : p.Parented := by
  obtain ⟨label, required, content⟩ := p
  rintro r rfl
  have bare := congrArg Property.content bare
  simp only [Property.bare, Content.bare, Content.richText.injEq] at bare
  rw [← bare]
  simp

theorem Property.Parented.mapLinks {p : Property} (parented : p.Parented) (f : String → String) :
    (p.mapLinks f).Parented := by
  obtain ⟨label, required, content⟩ := p
  intro r rich
  cases content with
  | richText r' =>
    cases rich
    simpa using parented r' rfl
  | _ => contradiction

theorem Entry.parented_withComponents {e : Entry} (bare : e.property.bare = e.property)
    (ids : List String) : (e.withComponents ids).property.Parented := by
  rw [withComponents]
  split
  · next r rich =>
    rintro _ ⟨⟩
    rw [RichText.withComponents]
    split
    · exact Property.parented_of_bare bare r rich
    · next nonempty => simpa using nonempty
  · exact Property.parented_of_bare bare

namespace ContentType.Statable

variable {t : ContentType}

theorem placeholder {id : String} (nonempty : id ≠ "") : (ContentType.placeholder id).Statable :=
  ⟨nonempty, List.forall_mem_nil _, List.forall_mem_nil _⟩

theorem cloneAs (statable : t.Statable) (id : String) : (t.cloneAs id).Statable :=
  ⟨statable.labelled, statable.typeless, statable.parents⟩

theorem relink (statable : t.Statable) (f : String → String) : (t.relink f).Statable := by
  constructor
  case labelled => exact statable.labelled
  case typeless =>
    intro _ member
    obtain ⟨p, property, rfl⟩ := List.mem_map.mp member
    rw [Property.typeId?_mapLinks, statable.typeless p property]
  case parents =>
    intro _ member
    obtain ⟨p, property, rfl⟩ := List.mem_map.mp member
    exact Property.Parented.mapLinks (statable.parents p property) f

end ContentType.Statable

namespace Assembly

theorem parented_of_properties {es : List Entry} (bare : ∀ e ∈ es, e.property.bare = e.property)
    {p : Property} (member : p ∈ properties es) : p.Parented := by
  obtain ⟨e, attached, rfl⟩ := mem_properties_iff.mp member
  obtain ⟨e', inside, rfl | ⟨ids, rfl⟩⟩ := Components.of_mem_attach attached
  · exact Property.parented_of_bare (bare e inside)
  · exact Entry.parented_withComponents (bare e' inside) ids

section Raw

variable {fresh : Nat → String} {es : List Entry} (raw : ∀ e ∈ es, e.property.Raw)
include raw

theorem ne_empty_of_mem_ids {id : String} (member : id ∈ ids es) : id ≠ "" := by
  obtain ⟨e, inside, held⟩ := List.mem_flatMap.mp member
  exact (raw e inside).nonempty id held

variable (front : (Blocks.split (properties es)).1 = [])
include front

theorem statable_of_blocks {t : ContentType} (block : t ∈ blocks es) : t.Statable := by
  constructor
  case labelled =>
    have named := ne_empty_of_mem_ids raw (mem_ids_of_blocks block)
    obtain ⟨p, _, id, properties, _, rfl⟩ := Blocks.of_mem_split block
    rw [ContentType.headed]
    split
    · exact named
    · next labelled => exact labelled
  case typeless => exact (within_of_blocks front block).tidy.typeless
  case parents =>
    intro p property
    exact parented_of_properties (fun e inside => (raw e inside).bare)
      ((exists_block_iff front).mp ⟨t, block, property⟩).1

theorem statable_of_repaired : ∀ t ∈ repaired fresh es, t.Statable := by
  apply forall_repaired
  case block => exact fun t block => statable_of_blocks raw front block
  case blank =>
    intro id referred
    have inside : id ∈ ids es := referred.elim (mem_ids_of_links front) (mem_ids_of_snippets front)
    exact .placeholder (ne_empty_of_mem_ids raw inside)
  case copy => exact fun t statable n => statable.cloneAs _

end Raw

/-- Loose repair leaves nothing to repair, under any grammar. Its types, told again line by line, keep
the strict rules, and either mode gives them back. -/
theorem restated_of_loose {g : Grammar} {fresh : Nat → String} {source : String} {es : List Entry}
    {a : Assembly} (described : entries g source = .ok es) (new : Fresh fresh es)
    (assembled : ofEntries fresh .loose g.typeStart es = .ok a) :
    (∀ t ∈ a.types ++ a.snippetTypes, t.label ≠ "") ∧
    ∀ again : List Entry, again.map (·.unplaced) = restated (a.types ++ a.snippetTypes) →
      ∀ other mode typeStart, ofEntries other mode typeStart again = .ok a := by
  have front := front_of_ofEntries assembled
  rw [ofEntries_loose front new] at assembled
  -- Repair leaves every reference met, and this is what the lines of the types need.
  have integral : (Schema.ofAssembly a).Integral :=
    integral_of_met (met_repaired front new) assembled
  have statable : ∀ t ∈ a.types ++ a.snippetTypes, t.Statable := by
    intro t member
    obtain ⟨u, inside, rfl⟩ := List.mem_map.mp ((mem_of_separate assembled).mp member)
    exact (statable_of_repaired (raw_of_entries described) front u inside).relink _
  refine ⟨fun t member => (statable t member).labelled, ?_⟩
  intro again told other mode typeStart
  have strict : ofEntries other .strict typeStart again = .ok a :=
    ofEntries_restated integral statable told other typeStart
  cases mode with
  | strict => exact strict
  | loose => exact (ofEntries_of_strict strict).1

/-- A document whose components are a type without a description, one that is described twice, and a
snippet. -/
def unsettled : String :=
  "a Home\nRichText[p] Body\ns\nb\nz\n\n...s\nb Card\nb Again\nb[] Link\ns Seo\n"

theorem restated_of_loose_unsettled : ∃ es a, entries .standard unsettled = .ok es ∧
    ofEntries numbered .loose "type" es = .ok a ∧
    a.types.map (·.id) = ["a", "b", "b-" ++ numbered 0, "s-" ++ numbered 1, "z"] ∧
    a.snippetTypes.map (·.id) = ["s"] ∧
    ofEntries numbered .strict "type" (restated (a.types ++ a.snippetTypes)) = .ok a := by
  let es := (entries .standard unsettled).toOption.getD []
  let a := (ofEntries numbered .loose "type" es).toOption.getD {}
  have described : entries .standard unsettled = .ok es := by decide +kernel
  have new : Fresh numbered es := ⟨by decide +kernel, by decide +kernel⟩
  have assembled : ofEntries numbered .loose "type" es = .ok a := by decide +kernel
  have placed : (restated (a.types ++ a.snippetTypes)).map (·.unplaced) =
      restated (a.types ++ a.snippetTypes) := by decide +kernel
  exact ⟨es, a, described, assembled, by decide +kernel, by decide +kernel,
    (restated_of_loose described new assembled).2 _ placed numbered .strict "type"⟩

end Assembly

end ContentSchema
