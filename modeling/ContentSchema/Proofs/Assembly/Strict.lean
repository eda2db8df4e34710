import ContentSchema.Proofs.Assembly.Modes
/-!
The strict rules. Each of them says by itself what breaks it (`Assembly.Breaks`). Strict assembly
reports what breaks the first rule that is broken, and where none is, it gives the described types
as they are (`Assembly.strict_reports_first_broken`).
-/
namespace ContentSchema

/-- The least id of which `p` holds, in code-point order. -/
structure LeastId (p : String → Prop) (id : String) : Prop where
  holds : p id
  least : ∀ other, p other → id ≤ other

theorem IdSet.find?_eq_some_iff {s : IdSet} {p : String → Bool} {id : String} :
    s.toList.find? p = some id ↔ LeastId (fun id => id ∈ s ∧ p id) id := by
  have filtered : s.toList.find? p = least? ⟨s.toList.filter p, s.rising.filter p⟩ := by
    rw [least?, List.head?_filter]
  rw [filtered, least?_eq_some_iff]
  simp only [← mem_toList, List.mem_filter]
  constructor
  · rintro ⟨holds, least⟩
    exact ⟨holds, least⟩
  · rintro ⟨holds, least⟩
    exact ⟨holds, least⟩

namespace References

/-- The first id that has come before follows ids that are new each. -/
theorem firstRepeated?_eq_some_iff {seen ids : List String} {id : String} :
    firstRepeated? seen ids = some id ↔ ∃ before after, ids = before ++ id :: after ∧
      before.Nodup ∧ (∀ other ∈ before, other ∉ seen) ∧ (id ∈ before ∨ id ∈ seen) := by
  induction ids generalizing seen with
  | nil => simp [firstRepeated?]
  | cons first ids ih =>
    rw [firstRepeated?]
    split
    · next again =>
      constructor
      · intro same
        cases same
        exact ⟨[], ids, rfl, .nil, List.forall_mem_nil _, .inr again⟩
      · rintro ⟨_ | ⟨other, before⟩, after, cut, _, apart, _⟩
        · rw [List.nil_append, List.cons.injEq] at cut
          rw [cut.1]
        · rw [List.cons_append, List.cons.injEq] at cut
          exact absurd (cut.1 ▸ again) (apart other List.mem_cons_self)
    · next new =>
      rw [ih]
      constructor
      · rintro ⟨before, after, rfl, distinct, apart, again⟩
        have others : first ∉ before := fun member => apart first member List.mem_cons_self
        refine ⟨first :: before, after, rfl, List.nodup_cons.mpr ⟨others, distinct⟩, ?_, ?_⟩
        · rw [List.forall_mem_cons]
          exact ⟨new, fun other member inside =>
            apart other member (List.mem_cons_of_mem first inside)⟩
        · rw [List.mem_cons] at again ⊢
          tauto
      · rintro ⟨_ | ⟨other, before⟩, after, cut, distinct, apart, again⟩
        · rw [List.nil_append, List.cons.injEq] at cut
          simp [← cut.1, new] at again
        · rw [List.cons_append, List.cons.injEq] at cut
          obtain ⟨rfl, rfl⟩ := cut
          rw [List.nodup_cons] at distinct
          rw [List.forall_mem_cons] at apart
          refine ⟨before, after, rfl, distinct.2, ?_, ?_⟩
          · intro x member inside
            obtain rfl | inside := List.mem_cons.mp inside
            · exact distinct.1 member
            · exact apart.2 x member inside
          · rw [List.mem_cons] at again ⊢
            tauto

end References

/-- The strict rules. -/
inductive StrictRule where
  /-- A document begins with a type. -/
  | typeFirst
  | describedOnce
  /-- A link leads to a described type that is no snippet. -/
  | linksLead
  | snippetsDescribed
  /-- A snippet refers to no snippet. -/
  | snippetsFlat

/-- The order in which the rules are checked. -/
def StrictRule.all : List StrictRule :=
  [typeFirst, describedOnce, linksLead, snippetsDescribed, snippetsFlat]

namespace Blocks

/-- The types that the lines of a document describe: each is opened by a line that names it, and has
the properties up to the next such line, with the ids they refer to. -/
inductive Describes : List Property → List ContentType → Prop where
  | nil : Describes [] []
  | cons {p : Property} {typeId : String} {inner rest : List Property} {types : List ContentType} :
      p.typeId? = some typeId → (∀ q ∈ inner, q.typeId? = none) → Describes rest types →
      Describes (p :: (inner ++ rest))
        ({ id := typeId
           label := if p.label = "" then typeId else p.label
           properties := inner
           links := .ofList (inner.flatMap (·.links))
           snippets := .ofList (inner.filterMap (·.snippetId?)) } :: types)

theorem relink_id_headed (typeId label : String) (properties : List Property) :
    (ContentType.headed typeId label properties).relink id =
      { id := typeId
        label := if label = "" then typeId else label
        properties
        links := .ofList (properties.flatMap (·.links))
        snippets := .ofList (properties.filterMap (·.snippetId?)) } := by
  have same : properties.map (·.mapLinks id) = properties := by
    rw [List.map_congr_left, List.map_id]
    exact fun p _ => p.mapLinks_id
  simp only [ContentType.relink, ContentType.headed, same]

/-- What stands in front opens nothing, and the rest describes the types. -/
theorem describes_split (ps : List Property) : ∃ rest, ps = (split ps).1 ++ rest ∧
    (∀ q ∈ (split ps).1, q.typeId? = none) ∧ Describes rest ((split ps).2.map (·.relink id)) := by
  induction ps with
  | nil => exact ⟨[], rfl, List.forall_mem_nil _, .nil⟩
  | cons p ps ih =>
    obtain ⟨rest, cut, typeless, described⟩ := ih
    rw [split]
    cases opened : p.typeId? with
    | none =>
      refine ⟨rest, congrArg (p :: ·) cut, ?_, described⟩
      exact List.forall_mem_cons.mpr ⟨opened, typeless⟩
    | some typeId =>
      refine ⟨p :: ps, rfl, List.forall_mem_nil _, ?_⟩
      rw [List.map_cons, relink_id_headed]
      conv in p :: ps => rw [cut]
      exact .cons opened typeless described

/-- Lines describe one list of types, if none stands in front of the first. -/
theorem describes_iff {ps : List Property} {types : List ContentType} :
    Describes ps types ↔ (split ps).1 = [] ∧ types = (split ps).2.map (·.relink id) := by
  constructor
  · intro describes
    induction describes with
    | nil => exact ⟨rfl, rfl⟩
    | cons opened typeless _ ih =>
      rw [split, split_append typeless, opened, ih.1, List.append_nil, List.map_cons,
        relink_id_headed, ← ih.2]
      exact ⟨rfl, rfl⟩
  · rintro ⟨front, rfl⟩
    obtain ⟨rest, cut, _, describes⟩ := describes_split ps
    rw [front, List.nil_append] at cut
    rwa [← cut] at describes

theorem tidy_of_mem_split {ps : List Property} {t : ContentType} (member : t ∈ (split ps).2) :
    t.Tidy := by
  have typeless : ∀ p ∈ t.properties, p.typeId? = none := by
    intro p property
    have held : p ∈ ps.filter (·.typeId?.isNone) := by
      rw [← split_properties]
      exact List.mem_append_right _ (List.mem_flatMap.mpr ⟨t, member, property⟩)
    simpa using (List.mem_filter.mp held).2
  obtain ⟨p, _, typeId, properties, _, rfl⟩ := of_mem_split member
  exact ContentType.tidy_headed typeless

end Blocks

namespace Assembly

variable {fresh : Nat → String} {es : List Entry} {typeStart : String} {e : ParseError}

/-- The ids that the lines of types describe, in source order. A component describes nothing. -/
def described (es : List Entry) : List String := (properties es).filterMap (·.typeId?)

/-- The id is the target of linked items, or a component of rich text. -/
def Linked (es : List Entry) (id : String) : Prop :=
  ∃ m ∈ Components.attach .closed es, id ∈ m.1.property.links

def Referred (es : List Entry) (id : String) : Prop :=
  ∃ e ∈ es, e.property.snippetId? = some id

/-- A link that leads to a snippet or to nothing. -/
def Misled (es : List Entry) (id : String) : Prop :=
  Linked es id ∧ (Referred es id ∨ id ∉ described es)

/-- What breaks a rule, and how it is reported. -/
inductive Breaks (typeStart : String) (es : List Entry) : StrictRule → ParseError → Prop where
  | outside {e : Entry} : es.head? = some e → e.property.kind ≠ .type →
      Breaks typeStart es .typeFirst (.propertyOutsideType e.property.kind.name typeStart e.line)
  | repeated {before after : List String} {id : String} : described es = before ++ id :: after →
      before.Nodup → id ∈ before → Breaks typeStart es .describedOnce (.duplicateType id)
  | linkIsSnippet {id : String} : LeastId (Misled es) id → Referred es id →
      Breaks typeStart es .linksLead (.linkIsSnippet id)
  | undescribedLink {id : String} : LeastId (Misled es) id → ¬ Referred es id →
      Breaks typeStart es .linksLead (.undescribedLink id)
  | undescribedSnippet {id : String} :
      LeastId (fun id => Referred es id ∧ id ∉ described es) id →
      Breaks typeStart es .snippetsDescribed (.undescribedSnippet id)
  | nested {before after : List ContentType} {t : ContentType} {snippet : String} :
      blocks es = before ++ t :: after → Nests es t → (∀ u ∈ before, ¬ Nests es u) →
      LeastSnippet t snippet → Breaks typeStart es .snippetsFlat (.nestedSnippet snippet t.id)

/-- The error breaks a rule, and nothing breaks a rule before that. -/
def FirstBroken (typeStart : String) (es : List Entry) (e : ParseError) : Prop :=
  ∃ before rule after, StrictRule.all = before ++ rule :: after ∧ Breaks typeStart es rule e ∧
    ∀ earlier ∈ before, ∀ other, ¬ Breaks typeStart es earlier other

theorem ids_blocks (es : List Entry) : (blocks es).map (·.id) = described es :=
  Blocks.split_ids _

theorem mem_links_iff_linked {id : String} : id ∈ (references es).links ↔ Linked es id := by
  simp [references, References.ofEntries, Linked]

theorem mem_snippets_iff_referred {id : String} :
    id ∈ (references es).snippets ↔ Referred es id :=
  mem_snippets_iff_entry

/-- What strict assembly finds to break a rule. -/
def finding? (typeStart : String) (es : List Entry) : StrictRule → Option ParseError
  | .typeFirst => (es.head?.filter (·.property.kind ≠ .type)).map fun e =>
      .propertyOutsideType e.property.kind.name typeStart e.line
  | .describedOnce => (References.firstRepeated? [] (described es)).map .duplicateType
  | .linksLead => ((references es).links.toList.find? fun link =>
      link ∈ (references es).snippets ∨ link ∉ described es).map fun link =>
        if link ∈ (references es).snippets then .linkIsSnippet link else .undescribedLink link
  | .snippetsDescribed =>
    ((references es).snippets.toList.find? (· ∉ described es)).map .undescribedSnippet
  | .snippetsFlat => ((blocks es).findSome? (nested? (references es).snippets)).map fun (s, id) =>
      .nestedSnippet s id

theorem finding?_eq_some_iff (rule : StrictRule) :
    finding? typeStart es rule = some e ↔ Breaks typeStart es rule e := by
  rw [finding?.eq_def]
  cases rule with
  | typeFirst =>
    simp only [Option.map_eq_some_iff, Option.filter_eq_some_iff, decide_eq_true_eq]
    constructor
    · rintro ⟨_, ⟨first, other⟩, rfl⟩
      exact .outside first other
    · rintro ⟨first, other⟩
      exact ⟨_, ⟨first, other⟩, rfl⟩
  | describedOnce =>
    simp only [Option.map_eq_some_iff, References.firstRepeated?_eq_some_iff]
    constructor
    · rintro ⟨id, ⟨before, after, cut, distinct, _, again⟩, rfl⟩
      exact .repeated cut distinct (by simpa using again)
    · rintro (_ | ⟨cut, distinct, again⟩)
      exact ⟨_, ⟨_, _, cut, distinct, by simp, .inl again⟩, rfl⟩
  | linksLead =>
    have misled (id : String) : (id ∈ (references es).links ∧
        decide (id ∈ (references es).snippets ∨ id ∉ described es) = true) ↔ Misled es id := by
      rw [decide_eq_true_eq, mem_links_iff_linked, mem_snippets_iff_referred, Misled]
    simp only [Option.map_eq_some_iff, IdSet.find?_eq_some_iff, misled]
    constructor
    · rintro ⟨id, least, rfl⟩
      split
      · next snippet => exact .linkIsSnippet least (mem_snippets_iff_referred.mp snippet)
      · next other => exact .undescribedLink least (mt mem_snippets_iff_referred.mpr other)
    · rintro (_ | _ | ⟨least, snippet⟩ | ⟨least, other⟩)
      · exact ⟨_, least, if_pos (mem_snippets_iff_referred.mpr snippet)⟩
      · exact ⟨_, least, if_neg (mt mem_snippets_iff_referred.mp other)⟩
  | snippetsDescribed =>
    have missing (id : String) : (id ∈ (references es).snippets ∧
        decide (id ∉ described es) = true) ↔ Referred es id ∧ id ∉ described es := by
      rw [decide_eq_true_eq, mem_snippets_iff_referred]
    simp only [Option.map_eq_some_iff, IdSet.find?_eq_some_iff, missing]
    constructor
    · rintro ⟨id, least, rfl⟩
      exact .undescribedSnippet least
    · rintro (_ | _ | _ | _ | least)
      exact ⟨_, least, rfl⟩
  | snippetsFlat =>
    have tidy : ∀ t ∈ blocks es, t.Tidy := fun t => Blocks.tidy_of_mem_split
    simp only [Option.map_eq_some_iff, Prod.exists, findSome?_nested?_eq_some_iff tidy]
    constructor
    · rintro ⟨snippet, _, ⟨before, t, after, cut, nests, none, least, rfl⟩, rfl⟩
      exact .nested cut nests none least
    · rintro (_ | _ | _ | _ | _ | ⟨cut, nests, none, least⟩)
      exact ⟨_, _, ⟨_, _, _, cut, nests, none, least, rfl⟩, rfl⟩

theorem finding?_eq_none_iff (rule : StrictRule) :
    finding? typeStart es rule = none ↔ ∀ e, ¬ Breaks typeStart es rule e := by
  rw [Option.eq_none_iff_forall_ne_some]
  exact forall_congr' fun e => not_congr (finding?_eq_some_iff rule)

theorem violation?_eq_findSome? (typeStart : String) (es : List Entry) :
    (references es).violation? (described es) =
      [StrictRule.describedOnce, .linksLead, .snippetsDescribed].findSome?
        (finding? typeStart es) := by
  rw [References.violation?]
  simp only [List.findSome?_cons, List.findSome?_nil, finding?]
  cases References.firstRepeated? [] (described es) with
  | some id => rfl
  | none =>
    cases (references es).links.toList.find? fun link =>
        link ∈ (references es).snippets ∨ link ∉ described es with
    | some link => rfl
    | none => cases (references es).snippets.toList.find? (· ∉ described es) <;> rfl

theorem separate_blocks (typeStart : String) (es : List Entry) :
    separate (references es).snippets ((blocks es).map (·.relink id)) =
      match finding? typeStart es .snippetsFlat with
      | some e => .error e
      | none => .ok
        { types := ((blocks es).map (·.relink id)).filter (·.id ∉ (references es).snippets)
          snippetTypes :=
            ((blocks es).map (·.relink id)).filter (·.id ∈ (references es).snippets) } := by
  have same : ((blocks es).map (·.relink id)).findSome? (nested? (references es).snippets) =
      (blocks es).findSome? (nested? (references es).snippets) := List.findSome?_map
  rw [finding?, ← same]
  cases found : ((blocks es).map (·.relink id)).findSome? (nested? (references es).snippets) with
  | some n => exact separate_eq_error_iff.mpr ⟨n.1, n.2, found, rfl⟩
  | none =>
    cases separated : separate (references es).snippets ((blocks es).map (·.relink id)) with
    | error e =>
      obtain ⟨_, _, broken, _⟩ := separate_eq_error_iff.mp separated
      simp [found] at broken
    | ok a => exact congrArg _ (separate_eq_ok_iff.mp separated).2

/-- Strict assembly goes through the rules in order. -/
theorem ofEntries_strict (fresh : Nat → String) (typeStart : String) (es : List Entry) :
    ofEntries fresh .strict typeStart es = match StrictRule.all.findSome? (finding? typeStart es) with
      | some e => .error e
      | none => .ok
        { types := ((blocks es).map (·.relink id)).filter (·.id ∉ (references es).snippets)
          snippetTypes :=
            ((blocks es).map (·.relink id)).filter (·.id ∈ (references es).snippets) } := by
  by_cases begins : ∀ e, es.head? = some e → e.property.kind = .type
  · have first : finding? typeStart es .typeFirst = none := by
      rw [finding?_eq_none_iff]
      rintro _ ⟨isFirst, other⟩
      exact other (begins _ isFirst)
    have middle := violation?_eq_findSome? typeStart es
    rw [ofEntries_eq fresh .strict typeStart (front_eq_nil_iff.mpr begins), ids_blocks]
    simp only [StrictRule.all, List.findSome?_cons, List.findSome?_nil, first] at middle ⊢
    rw [middle, separate_blocks typeStart]
    cases finding? typeStart es .describedOnce with
    | some e => rfl
    | none =>
      cases finding? typeStart es .linksLead with
      | some e => rfl
      | none =>
        cases finding? typeStart es .snippetsDescribed with
        | some e => rfl
        | none => cases finding? typeStart es .snippetsFlat <;> rfl
  · cases es with
    | nil => simp at begins
    | cons e rest =>
      have other : e.property.kind ≠ .type := fun same => begins (by simpa using same)
      have first : finding? typeStart (e :: rest) .typeFirst = some _ :=
        (finding?_eq_some_iff _).mpr (.outside rfl other)
      rw [ofEntries_of_outside .strict other]
      simp only [StrictRule.all, List.findSome?_cons, first]

theorem findSome?_finding?_eq_some_iff :
    StrictRule.all.findSome? (finding? typeStart es) = some e ↔ FirstBroken typeStart es e := by
  simp only [List.findSome?_eq_some_iff, finding?_eq_some_iff, finding?_eq_none_iff, FirstBroken]

theorem findSome?_finding?_eq_none_iff : StrictRule.all.findSome? (finding? typeStart es) = none ↔
    ∀ rule e, ¬ Breaks typeStart es rule e := by
  have listed (rule : StrictRule) : rule ∈ StrictRule.all := by cases rule <;> simp [StrictRule.all]
  simp [List.findSome?_eq_none_iff, finding?_eq_none_iff, listed]

/-- Strict assembly fails with what breaks the first rule that is broken. It succeeds exactly if no
rule is, and then gives the described types in source order, those that serve as snippets apart. -/
theorem strict_reports_first_broken (fresh : Nat → String) (typeStart : String) (es : List Entry) :
    (∀ e, ofEntries fresh .strict typeStart es = .error e ↔ FirstBroken typeStart es e) ∧
    ((∃ a, ofEntries fresh .strict typeStart es = .ok a) ↔
      ∀ rule e, ¬ Breaks typeStart es rule e) ∧
    ∀ a, ofEntries fresh .strict typeStart es = .ok a ↔
      (∀ rule e, ¬ Breaks typeStart es rule e) ∧
        ∃ types, Blocks.Describes (properties es) types ∧
          a.types = types.filter (·.id ∉ (references es).snippets) ∧
          a.snippetTypes = types.filter (·.id ∈ (references es).snippets) := by
  have fails (e : ParseError) :
      ofEntries fresh .strict typeStart es = .error e ↔ FirstBroken typeStart es e := by
    rw [ofEntries_strict, ← findSome?_finding?_eq_some_iff]
    cases StrictRule.all.findSome? (finding? typeStart es) <;> simp
  have accepts (a : Assembly) : ofEntries fresh .strict typeStart es = .ok a ↔
      (∀ rule e, ¬ Breaks typeStart es rule e) ∧
        ∃ types, Blocks.Describes (properties es) types ∧
          a.types = types.filter (·.id ∉ (references es).snippets) ∧
          a.snippetTypes = types.filter (·.id ∈ (references es).snippets) := by
    rw [ofEntries_strict, ← findSome?_finding?_eq_none_iff]
    cases found : StrictRule.all.findSome? (finding? typeStart es) with
    | some e => simp
    | none =>
      constructor
      · intro same
        have begins : ∀ e, es.head? = some e → e.property.kind = .type := fun e first =>
          not_not.mp fun other => findSome?_finding?_eq_none_iff.mp found _ _ (.outside first other)
        refine ⟨rfl, (blocks es).map (·.relink id), ?_, ?_⟩
        · exact Blocks.describes_iff.mpr ⟨front_eq_nil_iff.mpr begins, rfl⟩
        · rw [← Except.ok.inj same]
          exact ⟨rfl, rfl⟩
      · rintro ⟨_, types, describes, ofTypes, ofSnippets⟩
        obtain ⟨_, rfl⟩ := Blocks.describes_iff.mp describes
        cases a
        cases ofTypes
        cases ofSnippets
        rfl
  refine ⟨fails, ?_, accepts⟩
  rw [ofEntries_strict, ← findSome?_finding?_eq_none_iff]
  cases StrictRule.all.findSome? (finding? typeStart es) <;> simp

/-- A document that breaks all rules but the first two. -/
def inconsistent : String := "a Home\nz[] Link\ns[] Link\n...s\n...q\ns Seo\n...t\nt Tags\n"

theorem strict_reports_first_broken_inconsistent : ∃ es,
    entries .standard inconsistent = .ok es ∧
      ofEntries numbered .strict "type" es = .error (.linkIsSnippet "s") ∧
      FirstBroken "type" es (.linkIsSnippet "s") := by
  let es := (entries .standard inconsistent).toOption.getD []
  have read : entries .standard inconsistent = .ok es := by decide +kernel
  have failed : ofEntries numbered .strict "type" es = .error (.linkIsSnippet "s") := by
    decide +kernel
  exact ⟨es, read, failed, ((strict_reports_first_broken numbered "type" es).1 _).mp failed⟩

end Assembly

end ContentSchema
