import ContentSchema.Proofs.Assembly.Outcome
/-!
The two modes. Where the strict rules hold there is nothing to repair, so both modes give the same
types (`Assembly.ofEntries_of_strict`); and loose assembly fails only where nothing is repaired at
all: a document that does not begin with a type, and a snippet type that refers to snippets
(`Assembly.modes_agree`).
-/
namespace ContentSchema

theorem IdSet.least?_eq_some_iff {s : IdSet} {id : String} :
    s.least? = some id ↔ id ∈ s ∧ ∀ other ∈ s, id ≤ other := by
  constructor
  · intro least
    obtain ⟨rest, listed⟩ := List.head?_eq_some_iff.mp least
    have rising := s.rising
    rw [listed, List.pairwise_cons] at rising
    refine ⟨List.mem_of_head? least, fun other member => ?_⟩
    rw [← mem_toList, listed, List.mem_cons] at member
    obtain rfl | later := member
    · exact String.le_refl _
    · exact String.not_lt.mp (String.lt_asymm (rising.1 other later))
  · intro ⟨member, below⟩
    cases listed : s.toList with
    | nil => simp [← mem_toList, listed] at member
    | cons first rest =>
      have inside : first ∈ s := by simp [← mem_toList, listed]
      have rising := s.rising
      rw [listed, List.pairwise_cons] at rising
      rw [← mem_toList, listed, List.mem_cons] at member
      rw [least?, listed, List.head?_cons]
      obtain rfl | later := member
      · rfl
      · exact absurd (rising.1 id later) (String.not_lt.mpr (below first inside))

namespace Registry

variable {fresh : Nat → String} {refs : References} {r : Registry} {types : List ContentType}
  {seen : List String}

theorem repeated_eq_nil {ids : List String} (distinct : ids.Nodup) (apart : ∀ id ∈ ids, id ∉ seen) :
    repeated seen ids = [] := by
  induction ids generalizing seen with
  | nil => rfl
  | cons id ids ih =>
    obtain ⟨absent, distinct⟩ := List.nodup_cons.mp distinct
    rw [List.forall_mem_cons] at apart
    rw [repeated, if_neg apart.1]
    apply ih distinct
    intro other member
    rw [List.mem_cons, not_or]
    refine ⟨?_, apart.2 other member⟩
    rintro rfl
    exact absent member

theorem renumbered_eq_self (fresh : Nat → String) (made : Nat)
    (once : repeated seen (types.map (·.id)) = []) : renumbered fresh made seen types = types := by
  induction types generalizing seen with
  | nil => rfl
  | cons t types ih =>
    rw [List.map_cons, repeated] at once
    split at once
    · contradiction
    · next new => rw [renumbered, if_neg new, ih once]

theorem describe_of_nodup (distinct : (types.map (·.id)).Nodup) :
    types.foldl (insert fresh) {} = { types } := by
  have once : repeated [] (types.map (·.id)) = [] := repeated_eq_nil distinct (by simp)
  have unused : ∀ id ∈ newIds fresh 0 (repeated [] (types.map (·.id))), id ∉ types.map (·.id) := by
    simp [once, newIds]
  have known : ∀ id ∈ types.map (·.id), id ∈ ids {} ↔ id ∈ [] := by simp [ids]
  rw [describe_eq (r := {}) unused known fun t => List.mem_map_of_mem, once,
    renumbered_eq_self _ _ once]
  rfl

theorem repairLink_of_described {link : String} (described : link ∈ r.ids)
    (other : link ∉ refs.snippets) : repairLink fresh refs.snippets r link = r := by
  rw [repairLink, if_pos (isSome_find?.mpr described), if_neg other]

theorem foldl_eq_self {α β : Type} {f : β → α → β} {b : β} {l : List α}
    (keeps : ∀ a ∈ l, f b a = b) : l.foldl f b = b := by
  induction l with
  | nil => rfl
  | cons a l ih =>
    rw [List.forall_mem_cons] at keeps
    rw [List.foldl_cons, keeps.1, ih keeps.2]

/-- A document that keeps the strict rules is not changed by loose repair. -/
theorem repair_of_strict (kept : refs.violation? (types.map (·.id)) = none) :
    repair fresh refs types = { types } := by
  obtain ⟨distinct, links, snippets⟩ := References.violation?_eq_none_iff.mp kept
  rw [repair, describe_of_nodup distinct, foldl_eq_self, foldl_eq_self]
  · intro link linked
    exact repairLink_of_described (links link linked).2 (links link linked).1
  · intro snippet referred
    rw [foldl_eq_self]
    · exact if_pos (isSome_find?.mpr (snippets snippet referred))
    · intro link linked
      exact repairLink_of_described (links link linked).2 (links link linked).1

end Registry

namespace Components

/-- What does not depend on components stays as it was. -/
theorem map_attach {α : Type} {f : Entry → α} (same : ∀ e ids, f (e.withComponents ids) = f e)
    (run : Run) (es : List Entry) : (attach run es).map (fun m => f m.1) = es.map f := by
  induction es generalizing run with
  | nil => rfl
  | cons e es ih =>
    rw [attach]
    split
    · rw [List.map_cons, List.map_cons, ih]
    · split
      · rw [List.map_cons, List.map_cons, same, ih]
      · rw [List.map_cons, List.map_cons, ih]

theorem snippetId?_withComponents (e : Entry) (ids : List String) :
    (e.withComponents ids).property.snippetId? = e.property.snippetId? := by
  rw [Entry.withComponents]
  split
  · next rich => simp [Property.snippetId?, rich]
  · rfl

theorem kind_withComponents (e : Entry) (ids : List String) :
    (e.withComponents ids).property.kind = e.property.kind := by
  rw [Entry.withComponents]
  split
  · next rich => simp [Property.kind, Content.kind, rich]
  · rfl

theorem line_withComponents (e : Entry) (ids : List String) :
    (e.withComponents ids).line = e.line := by
  rw [Entry.withComponents]
  split <;> rfl

/-- Nothing stands before the first entry that could take it as a component. -/
theorem attach_closed_cons (e : Entry) (es : List Entry) : ∃ first rest,
    attach .closed (e :: es) = (first, false) :: rest ∧
      first.property.kind = e.property.kind ∧ first.line = e.line := by
  have taken : (Run.closed.take? e).isSome = false := rfl
  rw [attach, taken, if_neg Bool.false_ne_true]
  split
  · exact ⟨_, _, rfl, kind_withComponents e _, line_withComponents e _⟩
  · exact ⟨_, _, rfl, rfl, rfl⟩

end Components

namespace Assembly

variable {fresh : Nat → String} {es : List Entry} {typeStart : String} {a : Assembly}

/-- Strict and loose assembly agree where the strict rules hold, and then no type is added. -/
theorem ofEntries_of_strict (accepted : ofEntries fresh .strict typeStart es = .ok a) :
    ofEntries fresh .loose typeStart es = .ok a ∧
      Registry.repair fresh (references es) (blocks es) = { types := blocks es } := by
  have front := front_of_ofEntries accepted
  rw [ofEntries_eq fresh .strict typeStart front] at accepted
  rw [ofEntries_eq fresh .loose typeStart front]
  cases kept : (references es).violation? ((blocks es).map (·.id)) with
  | some e => simp [kept] at accepted
  | none =>
    have same : Registry.repair fresh (references es) (blocks es) = { types := blocks es } :=
      Registry.repair_of_strict kept
    simp only [kept] at accepted
    refine ⟨?_, same⟩
    simp only [same]
    exact accepted

theorem mem_snippets_iff_entry {id : String} :
    id ∈ (references es).snippets ↔ ∃ e ∈ es, e.property.snippetId? = some id := by
  have kept := Components.map_attach (f := (·.property.snippetId?))
    Components.snippetId?_withComponents .closed es
  rw [← List.mem_map, ← kept, references, References.ofEntries, IdSet.mem_ofList,
    List.mem_filterMap, List.mem_map]
  simp

/-- Either a document begins with a type, or assembly fails at its first entry. -/
theorem front_eq_nil_iff : (Blocks.split (properties es)).1 = [] ↔
    ∀ e, es.head? = some e → e.property.kind = .type := by
  cases es with
  | nil => simp [properties, Components.attach, Blocks.split]
  | cons e es =>
    obtain ⟨first, rest, attached, kind, _⟩ := Components.attach_closed_cons e es
    have opened : (Blocks.split (properties (e :: es))).1 = [] ↔ first.property.typeId?.isSome := by
      rw [properties, attached]
      simp only [List.filter_cons, Bool.not_false, if_pos, List.map_cons, Blocks.split]
      cases first.property.typeId? <;> simp
    rw [opened, Option.isSome_iff_ne_none, Ne, Property.typeId?_eq_none_iff, not_not, kind]
    simp

theorem ofEntries_of_outside (mode : Mode) {e : Entry} {rest : List Entry}
    (outside : e.property.kind ≠ .type) :
    ofEntries fresh mode typeStart (e :: rest) =
      .error (.propertyOutsideType e.property.kind.name typeStart e.line) := by
  obtain ⟨first, others, attached, kind, line⟩ := Components.attach_closed_cons e rest
  have typeless : first.property.typeId? = none := by
    rw [Property.typeId?_eq_none_iff, kind]
    exact outside
  rw [ofEntries, attached]
  simp only [List.filter_cons, Bool.not_false, if_pos, List.map_cons, Blocks.types, typeless]
  rw [← kind, ← line]
  rfl

/-- The types that keep their ids: of several with one id, the first. -/
def firsts (types : List ContentType) : List ContentType := types.eraseDupsBy fun t u => t.id == u.id

theorem mem_of_mem_firsts {t : ContentType} (types : List ContentType) (member : t ∈ firsts types) :
    t ∈ types := by
  match types with
  | [] => exact member
  | first :: rest =>
    rw [firsts, List.eraseDupsBy_cons, List.mem_cons] at member
    obtain rfl | later := member
    · exact List.mem_cons_self
    · have inside := mem_of_mem_firsts (rest.filter fun u => (u.id == first.id) = false) later
      exact List.mem_cons_of_mem first (List.mem_filter.mp inside).1
termination_by types.length
decreasing_by exact Nat.lt_succ_of_le (List.length_filter_le _ _)

/-- What separating the types finds wrong with one of them: it serves as a snippet, and refers to
snippets. -/
def nested? (snippets : IdSet) (t : ContentType) : Option (String × String) :=
  if t.id ∈ snippets then t.snippets.least?.map (·, t.id) else none

theorem separate_eq_error_iff {snippets : IdSet} {types : List ContentType} {e : ParseError} :
    separate snippets types = .error e ↔ ∃ snippet id,
      types.findSome? (nested? snippets) = some (snippet, id) ∧ e = .nestedSnippet snippet id := by
  have nested : (types.findSome? fun t =>
      if t.id ∈ snippets then t.snippets.least?.map (·, t.id) else none) =
      types.findSome? (nested? snippets) := rfl
  rw [separate]
  split
  · next snippet id found =>
    rw [← nested, found]
    simp only [Except.error.injEq, Option.some.injEq, Prod.mk.injEq]
    constructor
    · rintro rfl
      exact ⟨snippet, id, ⟨rfl, rfl⟩, rfl⟩
    · rintro ⟨_, _, ⟨rfl, rfl⟩, rfl⟩
      rfl
  · next found =>
    rw [← nested, found]
    simp

theorem nested?_placeholder (snippets : IdSet) (id : String) :
    nested? snippets (.placeholder id) = none := by
  rw [nested?]
  split <;> rfl

theorem findSome?_renumbered {α : Type} {f : ContentType → Option α} {types : List ContentType}
    {seen : List String} {made : Nat}
    (copies : ∀ id ∈ Registry.newIds fresh made (Registry.repeated seen (types.map (·.id))),
      ∀ t : ContentType, f (t.cloneAs id) = none) :
    (Registry.renumbered fresh made seen types).findSome? f =
      (firsts (types.filter (·.id ∉ seen))).findSome? f := by
  induction types generalizing seen made with
  | nil => rfl
  | cons t types ih =>
    rw [List.map_cons, Registry.repeated] at copies
    rw [Registry.renumbered]
    by_cases again : t.id ∈ seen
    · rw [if_pos again, Registry.newIds, List.forall_mem_cons] at copies
      rw [if_pos again, List.findSome?_cons, copies.1 t, ih copies.2, List.filter_cons_of_neg]
      simpa using again
    · rw [if_neg again] at copies
      have later : (types.filter (·.id ∉ seen)).filter (fun u => (u.id == t.id) = false) =
          types.filter (·.id ∉ t.id :: seen) := by
        rw [List.filter_filter]
        apply List.filter_congr
        intro u _
        simp
      rw [if_neg again, List.filter_cons_of_pos (by simpa using again), firsts,
        List.eraseDupsBy_cons, List.findSome?_cons, List.findSome?_cons, ih copies, later]
      rfl

section Nested

variable (front : (Blocks.split (properties es)).1 = []) (new : Fresh fresh es)
include front new

/-- Nothing that loose repair adds refers to snippets and serves as one. -/
theorem findSome?_repaired :
    ((repaired fresh es).map (·.relink (target fresh es))).findSome? (nested? (references es).snippets) =
      (firsts (blocks es)).findSome? (nested? (references es).snippets) := by
  have snippets : ∀ snippet ∈ (references es).snippets, snippet ∈ ids es :=
    fun _ => mem_ids_of_snippets front
  have unused {id : String} (outside : id ∉ ids es) (t : ContentType) (named : t.id = id) :
      nested? (references es).snippets t = none := by
    rw [nested?, named, if_neg (mt (snippets id) outside)]
  have copies : ∀ id ∈ Registry.newIds fresh 0 (Registry.repeated [] ((blocks es).map (·.id))),
      ∀ t : ContentType, nested? (references es).snippets (t.cloneAs id) = none := by
    intro id member t
    refine unused (new.unused id ?_) _ rfl
    rw [newIds_copied]
    exact List.mem_append_left _ member
  have added : ((references es).links.toList.flatMap fun link =>
      Registry.additions (target fresh es link) link (link ∈ (references es).snippets)
        ((blocks es).find? (·.id == link))).findSome? (nested? (references es).snippets) = none := by
    rw [List.findSome?_eq_none_iff]
    intro t member
    obtain ⟨link, linked, member⟩ := List.mem_flatMap.mp member
    obtain ⟨snippet, copy⟩ | rfl := Registry.of_mem_additions member
    · have isShared := mem_shared.mpr ⟨linked, of_decide_eq_true snippet⟩
      exact unused (target_not_mem_ids new isShared) t copy
    · exact nested?_placeholder _ link
  have missing (ids : List String) : (ids.map ContentType.placeholder).findSome?
      (nested? (references es).snippets) = none := by
    rw [List.findSome?_eq_none_iff]
    intro t member
    obtain ⟨id, _, rfl⟩ := List.mem_map.mp member
    exact nested?_placeholder _ id
  rw [List.findSome?_map]
  show (repaired fresh es).findSome? (nested? (references es).snippets) = _
  rw [repaired, linked, List.findSome?_append, List.findSome?_append, added, missing, Option.or_none,
    Option.or_none, findSome?_renumbered copies, List.filter_eq_self.mpr]
  simp

end Nested

/-- A type that serves as a snippet in the document, and refers to a snippet. -/
structure Nests (es : List Entry) (t : ContentType) : Prop where
  used : ∃ e ∈ es, e.property.snippetId? = some t.id
  nests : ∃ id, ∃ p ∈ t.properties, p.snippetId? = some id

/-- The smallest id of a snippet that the type refers to. -/
structure LeastSnippet (t : ContentType) (snippet : String) : Prop where
  member : ∃ p ∈ t.properties, p.snippetId? = some snippet
  least : ∀ p ∈ t.properties, ∀ id, p.snippetId? = some id → snippet ≤ id

theorem nests_iff {t : ContentType} (tidy : t.Tidy) :
    Nests es t ↔ t.id ∈ (references es).snippets ∧ t.snippets ≠ ∅ := by
  have filled : t.snippets ≠ ∅ ↔ ∃ id, ∃ p ∈ t.properties, p.snippetId? = some id := by
    simp only [← tidy.mem_snippets]
    rw [Ne, IdSet.ext_iff]
    simp
  rw [filled, mem_snippets_iff_entry]
  exact ⟨fun ⟨used, nests⟩ => ⟨used, nests⟩, fun ⟨used, nests⟩ => ⟨used, nests⟩⟩

theorem nested?_eq_none_iff {t : ContentType} (tidy : t.Tidy) :
    nested? (references es).snippets t = none ↔ ¬ Nests es t := by
  rw [nests_iff tidy, nested?]
  split
  · next used => simp [used, IdSet.least?_eq_none_iff]
  · next unused => simp [unused]

theorem leastSnippet_iff {t : ContentType} (tidy : t.Tidy) {snippet : String} :
    LeastSnippet t snippet ↔ t.snippets.least? = some snippet := by
  rw [IdSet.least?_eq_some_iff, tidy.mem_snippets]
  simp only [tidy.mem_snippets]
  constructor
  · intro ⟨member, least⟩
    exact ⟨member, fun other ⟨p, property, named⟩ => least p property other named⟩
  · intro ⟨member, least⟩
    exact ⟨member, fun p property other named => least other ⟨p, property, named⟩⟩

theorem nested?_eq_some_iff {t : ContentType} (tidy : t.Tidy) {snippet id : String} :
    nested? (references es).snippets t = some (snippet, id) ↔
      Nests es t ∧ LeastSnippet t snippet ∧ t.id = id := by
  rw [nests_iff tidy, leastSnippet_iff tidy, nested?]
  split
  · next used =>
    rw [Option.map_eq_some_iff]
    constructor
    · intro ⟨least, found, same⟩
      cases same
      have filled : t.snippets ≠ ∅ := by
        intro empty
        simp [IdSet.least?_eq_none_iff.mpr empty] at found
      exact ⟨⟨used, filled⟩, found, rfl⟩
    · rintro ⟨_, found, rfl⟩
      exact ⟨snippet, found, rfl⟩
  · next unused => simp [unused]

/-- The first of the types that nests is reported, with the smallest snippet it refers to. -/
theorem findSome?_nested?_eq_some_iff {types : List ContentType} (tidy : ∀ t ∈ types, t.Tidy)
    {snippet id : String} :
    types.findSome? (nested? (references es).snippets) = some (snippet, id) ↔
      ∃ before t after, types = before ++ t :: after ∧ Nests es t ∧ (∀ u ∈ before, ¬ Nests es u) ∧
        LeastSnippet t snippet ∧ t.id = id := by
  rw [List.findSome?_eq_some_iff]
  constructor
  · rintro ⟨before, t, after, rfl, found, none⟩
    obtain ⟨nests, least, named⟩ := (nested?_eq_some_iff (tidy t (by simp))).mp found
    refine ⟨before, t, after, rfl, nests, fun u member => ?_, least, named⟩
    exact (nested?_eq_none_iff (tidy u (by simp [member]))).mp (none u member)
  · rintro ⟨before, t, after, rfl, nests, none, least, named⟩
    refine ⟨before, t, after, rfl, ?_, fun u member => ?_⟩
    · exact (nested?_eq_some_iff (tidy t (by simp))).mpr ⟨nests, least, named⟩
    · exact (nested?_eq_none_iff (tidy u (by simp [member]))).mpr (none u member)

/-- Why loose assembly fails: the document does not begin with a type, or a snippet is described by a
type that refers to snippets. The first such type is reported. -/
inductive LooseFault (typeStart : String) : List Entry → ParseError → Prop where
  | outside {e : Entry} {rest : List Entry} : e.property.kind ≠ .type →
      LooseFault typeStart (e :: rest)
        (.propertyOutsideType e.property.kind.name typeStart e.line)
  | nested {es : List Entry} {before after : List ContentType} {t : ContentType} {snippet : String} :
      (∀ e, es.head? = some e → e.property.kind = .type) →
      firsts (blocks es) = before ++ t :: after → Nests es t → (∀ u ∈ before, ¬ Nests es u) →
      LeastSnippet t snippet → LooseFault typeStart es (.nestedSnippet snippet t.id)

theorem ofEntries_loose_eq_error_iff (new : Fresh fresh es) {error : ParseError} :
    ofEntries fresh .loose typeStart es = .error error ↔ LooseFault typeStart es error := by
  by_cases begins : ∀ e, es.head? = some e → e.property.kind = .type
  · have front := front_eq_nil_iff.mpr begins
    have tidy : ∀ t ∈ firsts (blocks es), t.Tidy :=
      fun t member => (within_of_blocks front (mem_of_mem_firsts _ member)).tidy
    rw [ofEntries_loose front new, separate_eq_error_iff, findSome?_repaired front new]
    simp only [findSome?_nested?_eq_some_iff tidy]
    constructor
    · rintro ⟨snippet, _, ⟨before, t, after, cut, nests, none, least, rfl⟩, rfl⟩
      exact .nested begins cut nests none least
    · intro fault
      cases fault with
      | outside other => exact absurd (begins _ rfl) other
      | nested _ cut nests none least => exact ⟨_, _, ⟨_, _, _, cut, nests, none, least, rfl⟩, rfl⟩
  · cases es with
    | nil => simp at begins
    | cons e rest =>
      have other : e.property.kind ≠ .type := fun same => begins (by simpa using same)
      rw [ofEntries_of_outside .loose other, Except.error.injEq, eq_comm]
      constructor
      · rintro rfl
        exact .outside other
      · intro fault
        cases fault with
        | outside => rfl
        | nested begins => exact absurd (begins e rfl) other

/-- Where the strict rules accept a document the loose ones give the same types, and make no copy and
no empty type. Loose assembly fails for two reasons only, which do not depend on the mode. -/
theorem modes_agree (fresh : Nat → String) (typeStart : String) (es : List Entry) :
    (∀ a, ofEntries fresh .strict typeStart es = .ok a →
      ofEntries fresh .loose typeStart es = .ok a ∧
        Registry.repair fresh (references es) (blocks es) = { types := blocks es }) ∧
    (Fresh fresh es → ∀ error,
      ofEntries fresh .loose typeStart es = .error error ↔ LooseFault typeStart es error) := by
  constructor
  · intro a accepted
    exact ofEntries_of_strict accepted
  · intro new error
    exact ofEntries_loose_eq_error_iff new

/-- A document that keeps the strict rules. -/
def consistent : String := "a Home\nb[] Link\n...s\nb Card\ns Seo\n"

/-- A document in which a snippet refers to snippets; its second description, which does not, is
the one that gets another id. -/
def nesting : String := "a Home\n...s\ns Seo\n...u\n...t\nt Tags\nu User\ns Seo again\n"

theorem modes_agree_nesting :
    (∃ es a, entries .standard consistent = .ok es ∧
      ofEntries numbered .strict "type" es = .ok a ∧ a.types.map (·.id) = ["a", "b"] ∧
      ofEntries numbered .loose "type" es = .ok a ∧
      Registry.repair numbered (references es) (blocks es) = { types := blocks es }) ∧
    ∃ es, entries .standard nesting = .ok es ∧ Fresh numbered es ∧
      ofEntries numbered .loose "type" es = .error (.nestedSnippet "t" "s") ∧
      LooseFault "type" es (.nestedSnippet "t" "s") := by
  constructor
  · let es := (entries .standard consistent).toOption.getD []
    let a := (ofEntries numbered .strict "type" es).toOption.getD {}
    have described : entries .standard consistent = .ok es := by decide +kernel
    have accepted : ofEntries numbered .strict "type" es = .ok a := by decide +kernel
    exact ⟨es, a, described, accepted, by decide +kernel,
      (modes_agree numbered "type" es).1 a accepted⟩
  · let es := (entries .standard nesting).toOption.getD []
    have described : entries .standard nesting = .ok es := by decide +kernel
    have new : Fresh numbered es := ⟨by decide +kernel, by decide +kernel⟩
    have failed : ofEntries numbered .loose "type" es = .error (.nestedSnippet "t" "s") := by
      decide +kernel
    exact ⟨es, described, new, failed, ((modes_agree numbered "type" es).2 new _).mp failed⟩

end Assembly

end ContentSchema
