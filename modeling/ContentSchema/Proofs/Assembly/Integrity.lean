import ContentSchema.Proofs.Assembly.Grouping
import ContentSchema.Schema.Parse
/-!
Referential integrity. Types that meet every reference of a document (`References.Met`) make up a
schema in which each link leads to a type and each snippet to a snippet type, once they have been
separated (`integral_of_met`). The strict rules accept only such types (`met_of_strict`).
-/
namespace ContentSchema

namespace ContentType

/-- As types are when they are built from lines: none of the properties opens a type, and the set of
snippets is that of the properties. -/
structure Tidy (t : ContentType) : Prop where
  typeless : ∀ p ∈ t.properties, p.typeId? = none
  snippets : t.snippets = .ofList (t.properties.filterMap (·.snippetId?))

theorem tidy_headed {id label : String} {properties : List Property}
    (typeless : ∀ p ∈ properties, p.typeId? = none) : (headed id label properties).Tidy :=
  ⟨typeless, rfl⟩

theorem tidy_placeholder (id : String) : (placeholder id).Tidy :=
  ⟨by simp [placeholder], rfl⟩

theorem Tidy.cloneAs {t : ContentType} (tidy : t.Tidy) (id : String) : (t.cloneAs id).Tidy :=
  ⟨tidy.typeless, tidy.snippets⟩

theorem Tidy.relink {t : ContentType} (tidy : t.Tidy) (f : String → String) :
    (t.relink f).Tidy := by
  constructor
  · intro p member
    obtain ⟨p, inside, rfl⟩ := List.mem_map.mp member
    rw [Property.typeId?_mapLinks, tidy.typeless p inside]
  · have same : (t.properties.map (·.mapLinks f)).filterMap (·.snippetId?) =
        t.properties.filterMap (·.snippetId?) := by
      rw [List.filterMap_map]
      congr 1
      funext p
      exact Property.snippetId?_mapLinks f p
    exact tidy.snippets.trans (congrArg IdSet.ofList same.symm)

theorem Tidy.mem_snippets {t : ContentType} (tidy : t.Tidy) {id : String} :
    id ∈ t.snippets ↔ ∃ p ∈ t.properties, p.snippetId? = some id := by
  rw [tidy.snippets, IdSet.mem_ofList, List.mem_filterMap]

/-- A tidy type that refers only to what the document refers to. -/
structure Within (refs : References) (t : ContentType) : Prop where
  tidy : t.Tidy
  links : ∀ p ∈ t.properties, ∀ id ∈ p.links, id ∈ refs.links
  snippets : ∀ p ∈ t.properties, ∀ id, p.snippetId? = some id → id ∈ refs.snippets

theorem within_placeholder (refs : References) (id : String) : (placeholder id).Within refs :=
  ⟨tidy_placeholder id, by simp [placeholder], by simp [placeholder]⟩

theorem Within.cloneAs {refs : References} {t : ContentType} (within : t.Within refs)
    (id : String) : (t.cloneAs id).Within refs :=
  ⟨within.tidy.cloneAs id, within.links, within.snippets⟩

theorem mem_links_relink {t : ContentType} {f : String → String} {id : String} :
    id ∈ (t.relink f).links ↔ ∃ p ∈ t.properties, ∃ link ∈ p.links, f link = id := by
  simp only [relink, IdSet.mem_ofList, List.flatMap_map, List.mem_flatMap,
    Property.links_mapLinks, List.mem_map]

end ContentType

/-- Every reference of a schema leads where its kind says, and ids are unambiguous. -/
structure Schema.Integral (s : Schema) : Prop where
  distinct : ((s.types ++ s.snippetTypes).map (·.id)).Nodup
  links_eq : ∀ t ∈ s.types ++ s.snippetTypes, t.links = .ofList (t.properties.flatMap (·.links))
  linked : ∀ t ∈ s.types ++ s.snippetTypes, ∀ id ∈ t.links,
    (∃ target ∈ s.types, target.id = id) ∧ ∀ u ∈ s.snippetTypes, u.id ≠ id
  snippets_eq : ∀ t ∈ s.types ++ s.snippetTypes,
    t.snippets = .ofList (t.properties.filterMap (·.snippetId?))
  described : ∀ t ∈ s.types ++ s.snippetTypes, ∀ id ∈ t.snippets,
    ∃ target ∈ s.snippetTypes, target.id = id
  used : ∀ u ∈ s.snippetTypes, ∃ t ∈ s.types ++ s.snippetTypes, ∃ p ∈ t.properties,
    p.snippetId? = some u.id
  flat : ∀ u ∈ s.snippetTypes, ∀ p ∈ u.properties, p.snippetId? = none
  typeless : ∀ t ∈ s.types ++ s.snippetTypes, ∀ p ∈ t.properties, p.kind ≠ .type

/-- Types that meet every reference of a document: a link, once it has been sent through `f`, leads
to one of them that is no snippet, and a snippet to one of them. -/
structure References.Met (refs : References) (f : String → String) (types : List ContentType) :
    Prop where
  distinct : (types.map (·.id)).Nodup
  within : ∀ t ∈ types, t.Within refs
  linked : ∀ id ∈ refs.links, f id ∈ types.map (·.id) ∧ f id ∉ refs.snippets
  described : ∀ id ∈ refs.snippets, id ∈ types.map (·.id)
  used : ∀ id ∈ refs.snippets, ∃ t ∈ types, ∃ p ∈ t.properties, p.snippetId? = some id

theorem IdSet.least?_eq_none_iff {s : IdSet} : s.least? = none ↔ s = ∅ := by
  rw [least?, List.head?_eq_none_iff]
  constructor
  · intro empty
    ext id
    rw [← mem_toList, empty]
    simp
  · intro empty
    rw [empty]
    rfl

namespace Assembly

theorem separate_eq_ok_iff {snippets : IdSet} {types : List ContentType} {a : Assembly} :
    separate snippets types = .ok a ↔ (∀ t ∈ types, t.id ∈ snippets → t.snippets = ∅) ∧
      a = { types := types.filter (·.id ∉ snippets)
            snippetTypes := types.filter (·.id ∈ snippets) } := by
  have nested : (types.findSome? fun t =>
      if t.id ∈ snippets then t.snippets.least?.map (·, t.id) else none) = none ↔
      ∀ t ∈ types, t.id ∈ snippets → t.snippets = ∅ := by
    rw [List.findSome?_eq_none_iff]
    simp [IdSet.least?_eq_none_iff]
  rw [separate]
  split
  · next found =>
    rw [← nested, found]
    simp
  · next found =>
    rw [← nested, found]
    simp [eq_comm]

theorem perm_of_separate (snippets : IdSet) (types : List ContentType) :
    (types.filter (·.id ∉ snippets) ++ types.filter (·.id ∈ snippets)).Perm types := by
  have others : types.filter (·.id ∈ snippets) =
      types.filter fun t => !decide (t.id ∉ snippets) := by simp
  rw [others]
  exact List.filter_append_perm _ types

/-- Separating types leaves all of them. -/
theorem mem_of_separate {snippets : IdSet} {types : List ContentType} {a : Assembly}
    (separated : separate snippets types = .ok a) {t : ContentType} :
    t ∈ a.types ++ a.snippetTypes ↔ t ∈ types := by
  obtain ⟨_, rfl⟩ := separate_eq_ok_iff.mp separated
  exact (perm_of_separate snippets types).mem_iff

theorem integral_of_met {refs : References} {f : String → String} {types : List ContentType}
    {a : Assembly} (met : refs.Met f types)
    (separated : separate refs.snippets (types.map (·.relink f)) = .ok a) :
    (Schema.ofAssembly a).Integral := by
  obtain ⟨flat, rfl⟩ := separate_eq_ok_iff.mp separated
  have perm := perm_of_separate refs.snippets (types.map (·.relink f))
  have relinked {t : ContentType} (member : t ∈ (types.map (·.relink f)).filter
      (·.id ∉ refs.snippets) ++ (types.map (·.relink f)).filter (·.id ∈ refs.snippets)) :
      ∃ u ∈ types, u.relink f = t :=
    List.mem_map.mp (perm.mem_iff.mp member)
  -- Separating goes by the id alone, and relinking keeps it.
  have placed {id : String} (inside : id ∈ types.map (·.id)) :
      ∃ t ∈ types.map (·.relink f), t.id = id := by
    obtain ⟨t, member, same⟩ := List.mem_map.mp inside
    exact ⟨t.relink f, List.mem_map_of_mem member, same⟩
  constructor
  case distinct =>
    have ids : (types.map (·.relink f)).map (·.id) = types.map (·.id) := by
      rw [List.map_map]
      rfl
    have distinct := met.distinct
    rw [← ids] at distinct
    exact (perm.map _).nodup_iff.mpr distinct
  case links_eq =>
    intro t member
    obtain ⟨u, _, rfl⟩ := relinked member
    rfl
  case linked =>
    intro t member id linking
    obtain ⟨u, inside, rfl⟩ := relinked member
    obtain ⟨p, property, link, linked, rfl⟩ := ContentType.mem_links_relink.mp linking
    obtain ⟨led, other⟩ := met.linked link ((met.within u inside).links p property link linked)
    constructor
    · obtain ⟨target, listed, same⟩ := placed led
      exact ⟨target, List.mem_filter.mpr ⟨listed, by simpa [same] using other⟩, same⟩
    · intro snippet listed same
      have kept := (List.mem_filter.mp listed).2
      rw [same] at kept
      exact other (of_decide_eq_true kept)
  case snippets_eq =>
    intro t member
    obtain ⟨u, inside, rfl⟩ := relinked member
    exact ((met.within u inside).tidy.relink f).snippets
  case described =>
    intro t member id referred
    obtain ⟨u, inside, rfl⟩ := relinked member
    obtain ⟨p, property, named⟩ := (met.within u inside).tidy.mem_snippets.mp referred
    have snippet := (met.within u inside).snippets p property id named
    obtain ⟨target, listed, same⟩ := placed (met.described id snippet)
    exact ⟨target, List.mem_filter.mpr ⟨listed, by simpa [same] using snippet⟩, same⟩
  case used =>
    intro u listed
    have snippet := of_decide_eq_true (List.mem_filter.mp listed).2
    obtain ⟨t, inside, p, property, named⟩ := met.used u.id snippet
    refine ⟨t.relink f, perm.mem_iff.mpr (List.mem_map_of_mem inside), p.mapLinks f,
      List.mem_map_of_mem property, ?_⟩
    rw [Property.snippetId?_mapLinks, named]
  case flat =>
    intro u listed p property
    obtain ⟨member, snippet⟩ := List.mem_filter.mp listed
    have empty := flat u member (of_decide_eq_true snippet)
    obtain ⟨t, inside, rfl⟩ := List.mem_map.mp member
    cases named : p.snippetId? with
    | none => rfl
    | some id =>
      have referred := ((met.within t inside).tidy.relink f).mem_snippets.mpr ⟨p, property, named⟩
      rw [empty] at referred
      exact absurd referred (IdSet.not_mem_empty id)
  case typeless =>
    intro t member p property
    obtain ⟨u, inside, rfl⟩ := relinked member
    exact Property.typeId?_eq_none_iff.mp (((met.within u inside).tidy.relink f).typeless p property)

/-- The types of a document are as they were built. -/
theorem within_of_blocks {es : List Entry} (front : (Blocks.split (properties es)).1 = [])
    {t : ContentType} (block : t ∈ blocks es) : t.Within (references es) := by
  constructor
  case tidy =>
    have typeless : ∀ p ∈ t.properties, p.typeId? = none :=
      fun p property => ((exists_block_iff front).mp ⟨t, block, property⟩).2
    obtain ⟨p, _, id, properties, _, rfl⟩ := Blocks.of_mem_split block
    exact ContentType.tidy_headed typeless
  case links =>
    intro p property link linked
    exact (mem_links_iff front).mpr ⟨t, block, p, property, linked⟩
  case snippets =>
    intro p property snippet named
    exact (mem_snippets_iff front).mpr ⟨t, block, p, property, named⟩

end Assembly

namespace References

theorem firstRepeated?_eq_none_iff {seen ids : List String} :
    firstRepeated? seen ids = none ↔ ids.Nodup ∧ ∀ id ∈ ids, id ∉ seen := by
  induction ids generalizing seen with
  | nil => simp [firstRepeated?]
  | cons id ids ih =>
    rw [firstRepeated?]
    split
    · next before => simp [before]
    · next before =>
      rw [ih, List.nodup_cons, List.forall_mem_cons]
      simp only [List.mem_cons, not_or]
      constructor
      · intro ⟨distinct, others⟩
        exact ⟨⟨fun member => (others id member).1 rfl, distinct⟩, before,
          fun x member => (others x member).2⟩
      · intro ⟨⟨absent, distinct⟩, _, others⟩
        exact ⟨distinct, fun x member => ⟨fun same => absent (same ▸ member), others x member⟩⟩

/-- The strict rules hold if no id is described twice, links lead to types that are no snippets, and
snippets are described. -/
theorem violation?_eq_none_iff {r : References} {ids : List String} :
    r.violation? ids = none ↔ ids.Nodup ∧ (∀ link ∈ r.links, link ∉ r.snippets ∧ link ∈ ids) ∧
      ∀ snippet ∈ r.snippets, snippet ∈ ids := by
  have distinct : firstRepeated? [] ids = none ↔ ids.Nodup := by
    simp [firstRepeated?_eq_none_iff]
  have links : (r.links.toList.find? fun link => link ∈ r.snippets ∨ link ∉ ids) = none ↔
      ∀ link ∈ r.links, link ∉ r.snippets ∧ link ∈ ids := by
    simp [List.find?_eq_none]
  have snippets : (r.snippets.toList.find? (· ∉ ids)).map ParseError.undescribedSnippet = none ↔
      ∀ snippet ∈ r.snippets, snippet ∈ ids := by
    simp [List.find?_eq_none]
  rw [violation?, ← distinct, ← links, ← snippets]
  cases firstRepeated? [] ids with
  | some id => simp
  | none => cases r.links.toList.find? fun link => link ∈ r.snippets ∨ link ∉ ids <;> simp

end References

namespace Assembly

theorem met_of_strict {es : List Entry} (front : (Blocks.split (properties es)).1 = [])
    (kept : (references es).violation? ((blocks es).map (·.id)) = none) :
    (references es).Met id (blocks es) := by
  obtain ⟨distinct, links, snippets⟩ := References.violation?_eq_none_iff.mp kept
  constructor
  case distinct => exact distinct
  case within =>
    intro t block
    exact within_of_blocks front block
  case linked =>
    intro link linked
    exact (links link linked).symm
  case described => exact snippets
  case used =>
    intro snippet named
    exact (mem_snippets_iff front).mp named

end Assembly

end ContentSchema
