import Mathlib.Data.List.Infix
import Mathlib.Tactic.MkIffOfInductiveProp
import ContentSchema.Proofs.Schema.Document
import ContentSchema.Proofs.Schema.Links
/-!
Canonical schemas: those whose ids, labels and choices the standard grammar can write, and which
have nothing that a document cannot tell. Parsing the text of a canonical schema by the strict rules
gives back the schema (`Schema.parse_standard_text`).
-/
namespace ContentSchema

namespace Form

theorem closed_cons_iff {g : Grammar} {inDetail : Bool} {c : Char} {cs : List Char} :
    Closed g inDetail (c :: cs) ↔
      (inDetail = false ∧ c = g.detailStart ∧ Closed g true cs) ∨
      (inDetail = true ∧ c = g.detailEnd ∧ Closed g false cs) ∨
      (inDetail = true ∧ c = g.arrayDelimiter ∧ Closed g true cs) ∨
      ((c = g.space ∨ ¬ g.isReserved c) ∧ Closed g inDetail cs) := by
  constructor
  · intro closed
    cases closed with
    | opened closed => exact .inl ⟨rfl, rfl, closed⟩
    | ended closed => exact .inr (.inl ⟨rfl, rfl, closed⟩)
    | delimiter closed => exact .inr (.inr (.inl ⟨rfl, rfl, closed⟩))
    | plain plain closed => exact .inr (.inr (.inr ⟨plain, closed⟩))
  · intro cases
    obtain ⟨rfl, rfl, closed⟩ | ⟨rfl, rfl, closed⟩ | ⟨rfl, rfl, closed⟩ | ⟨plain, closed⟩ := cases
    · exact .opened closed
    · exact .ended closed
    · exact .delimiter closed
    · exact .plain plain closed

instance decidableClosed (g : Grammar) :
    (inDetail : Bool) → (cs : List Char) → Decidable (Closed g inDetail cs)
  | false, [] => .isTrue .nil
  | true, [] => .isFalse nofun
  | inDetail, _ :: cs =>
    have := decidableClosed g inDetail cs
    have := decidableClosed g true cs
    have := decidableClosed g false cs
    decidable_of_iff _ closed_cons_iff.symm

end Form

namespace Canonical

/-- An id that is read as the identifier of a line, and names no kind. -/
@[mk_iff] structure IsId (id : String) : Prop where
  nonempty : id ≠ ""
  first : id.toList.head? ≠ some ','
  plain : ∀ c ∈ id.toList, c ∉ [' ', '\n', '\r', '/', '.', '[', ']', '(', ')']
  unknown : Grammar.standard.kindFor? id = none

/-- A label that goes on to the end of its line. -/
@[mk_iff] structure IsLabel (label : String) : Prop where
  nonempty : label ≠ ""
  first : label.toList.head? ≠ some ' ' ∧ label.toList.head? ≠ some '.'
  last : label.toList.getLast? ≠ some ' '
  plain : ∀ c ∈ label.toList, c ∉ ['\n', '\r', '[', ']', '(', ')', ',']
  uncommented : ¬ ['/', '/'] <:+: label.toList

/-- A choice that is read as one option. Round brackets do not open it, and are closed one after the
other; commas stand within them only. -/
@[mk_iff] structure IsChoice (choice : String) : Prop where
  nonempty : choice ≠ ""
  first : choice.toList.head? ≠ some ' ' ∧ choice.toList.head? ≠ some '('
  last : choice.toList.getLast? ≠ some ' '
  closed : Form.Closed .standard false choice.toList
  kept : '\r' ∉ choice.toList
  unmarked : choice ≠ "*"

instance (id : String) : Decidable (IsId id) :=
  decidable_of_iff _ (isId_iff id).symm

instance (label : String) : Decidable (IsLabel label) :=
  decidable_of_iff _ (isLabel_iff label).symm

instance (choice : String) : Decidable (IsChoice choice) :=
  decidable_of_iff _ (isChoice_iff choice).symm

theorem isReserved_standard {c : Char} :
    Grammar.standard.isReserved c ↔ c ∈ [' ', ',', '[', ']', '(', ')', '/', '.', '\n'] :=
  Grammar.isReserved_iff

theorem isStructural_standard {c : Char} :
    Grammar.standard.isStructural c ↔ c ∈ [',', '[', ']', '(', ')'] := by
  simp only [Grammar.isStructural, Bool.or_eq_true, beq_iff_eq, or_assoc, List.mem_cons,
    List.not_mem_nil, or_false]
  rfl

theorem inline_standard {c : Char} : Grammar.standard.Inline c ↔ c ≠ '\n' ∧ c ≠ '\r' := by
  have skipped : c ∈ Grammar.standard.skip ↔ c = '\r' := List.mem_singleton
  rw [Grammar.Inline, skipped]
  rfl

theorem inline_snippetMark : ∀ c ∈ Grammar.standard.snippetMark.toList, Grammar.standard.Inline c := by
  have mark : ∀ c ∈ Grammar.standard.snippetMark.toList, c ≠ '\n' ∧ c ≠ '\r' := by decide
  exact fun c member => inline_standard.mpr (mark c member)

theorem IsId.isIdentifier {id : String} (isId : IsId id) :
    Form.IsIdentifier .standard id.toList ∧ ∀ c ∈ id.toList, Grammar.standard.Inline c := by
  refine ⟨⟨by simpa using isId.nonempty, isId.first, ?_⟩, ?_⟩
  · intro c member
    have plain := isId.plain c member
    by_cases delimiter : c = ','
    · exact .inl delimiter
    · right
      rw [isReserved_standard]
      simp_all
  · intro c member
    have plain := isId.plain c member
    rw [inline_standard]
    simp_all

theorem IsLabel.isLabel {label : String} (isLabel : IsLabel label) :
    Property.IsLabel .standard label := by
  refine ⟨⟨?_, ?_, ?_⟩, isLabel.last, ?_⟩
  · obtain ⟨c, cs, begins⟩ := List.exists_cons_of_ne_nil
      (show label.toList ≠ [] by simpa using isLabel.nonempty)
    have first := isLabel.first
    rw [begins] at first ⊢
    exact ⟨c, rfl, fun same => first.1 (congrArg some same), fun same => first.2 (congrArg some same)⟩
  · intro c member structural
    have plain := isLabel.plain c member
    rw [isStructural_standard] at structural
    simp_all
  · intro i _ comment
    rw [List.append_nil] at comment
    exact isLabel.uncommented (comment.isInfix.trans (List.drop_suffix i _).isInfix)
  · intro c member
    have plain := isLabel.plain c member
    rw [inline_standard]
    simp_all

theorem ne_newline_of_closed {inDetail : Bool} {cs : List Char}
    (closed : Form.Closed .standard inDetail cs) : ∀ c ∈ cs, c ≠ '\n' := by
  induction closed with
  | nil => exact List.forall_mem_nil _
  | opened _ ih => exact List.forall_mem_cons.mpr ⟨by decide, ih⟩
  | ended _ ih => exact List.forall_mem_cons.mpr ⟨by decide, ih⟩
  | delimiter _ ih => exact List.forall_mem_cons.mpr ⟨by decide, ih⟩
  | plain plain _ ih =>
    refine List.forall_mem_cons.mpr ⟨?_, ih⟩
    intro same
    rw [same] at plain
    exact plain.elim (by decide) fun unreserved => unreserved (by decide)

theorem IsChoice.isToken {choice : String} (isChoice : IsChoice choice) :
    Form.IsToken .standard choice := by
  refine ⟨isChoice.closed, Text.trim_eq_self isChoice.first.1 isChoice.last, isChoice.nonempty,
    isChoice.first.2, ?_⟩
  intro c member
  rw [inline_standard]
  exact ⟨ne_newline_of_closed isChoice.closed c member, fun same => isChoice.kept (same ▸ member)⟩

section Linked

variable {ids : List String}

theorem isIdentifier_join (nonempty : ids ≠ []) (isId : ∀ id ∈ ids, IsId id) :
    Form.IsIdentifier .standard (Text.join ',' ids).toList ∧
      ∀ c ∈ (Text.join ',' ids).toList, Grammar.standard.Inline c := by
  constructor
  · exact Form.isIdentifier_join nonempty fun id listed => (isId id listed).isIdentifier.1
  · intro c member
    obtain rfl | ⟨id, listed, inside⟩ := Form.mem_join member
    · rw [inline_standard]
      decide
    · exact (isId id listed).isIdentifier.2 c inside

/-- An id with a character that no identifier of the table has names no kind. -/
theorem kindFor?_of_mem {id : String} {c : Char} (member : c ∈ id.toList)
    (foreign : ∀ row ∈ Markup.standardTable, ∀ name ∈ row.identifier, c ∉ name.toList) :
    Grammar.standard.kindFor? id = none := by
  rw [Grammar.kindFor?, Option.map_eq_none_iff, List.find?_eq_none]
  intro row listed same
  exact foreign row listed id (beq_iff_eq.mp same) member

theorem kindFor?_join (nonempty : ids ≠ []) (isId : ∀ id ∈ ids, IsId id) :
    Grammar.standard.kindFor? (Text.join ',' ids) = none := by
  obtain ⟨id, others, rfl⟩ := List.exists_cons_of_ne_nil nonempty
  cases others with
  | nil =>
    have single : Text.join ',' [id] = id := rfl
    rw [single]
    exact (isId id List.mem_cons_self).unknown
  | cons other others =>
    have delimited : ',' ∈ (Text.join ',' (id :: other :: others)).toList := by
      rw [Text.toList_join, List.map_cons, List.map_cons, List.intercalate_cons_cons]
      simp
    exact kindFor?_of_mem delimited (by decide)

theorem linkedIdentifier_eq (nonempty : ids ≠ []) (isId : ∀ id ∈ ids, IsId id) :
    Property.linkedIdentifier .standard ids = Text.join ',' ids := by
  have unknown : Grammar.standard.kindFor? (Text.join Grammar.standard.arrayDelimiter ids) = none :=
    kindFor?_join nonempty isId
  simp only [Property.linkedIdentifier, unknown]
  rfl

end Linked

end Canonical

open Canonical

/-- A content of which its lines tell all, but for the ids that it holds. -/
def Content.IsCanonical : Content → Prop
  | linkedItems ids _ => ids ≠ [] ∧ ∀ id ∈ ids, ',' ∉ id.toList
  | singleChoice options => ∀ v ∈ options, IsChoice v
  | multipleChoice options => ∀ v ∈ options, IsChoice v
  | richText r => (r.tables = false → r.tableFormatting = {}) ∧
      (r.isComponentParent ↔ r.components ≠ [])
  | _ => True

instance : (c : Content) → Decidable c.IsCanonical
  | .linkedItems _ _ => inferInstanceAs (Decidable (_ ∧ _))
  | .singleChoice options => inferInstanceAs (Decidable (∀ v ∈ options, IsChoice v))
  | .multipleChoice options => inferInstanceAs (Decidable (∀ v ∈ options, IsChoice v))
  | .richText _ => inferInstanceAs (Decidable (_ ∧ _))
  | .type _ | .snippet _ | .asset _ _ | .text _ _ | .date | .number | .custom => .isTrue trivial

namespace Property

/-- A property of which its lines tell all, but for the ids that it holds. -/
@[mk_iff] structure IsCanonical (p : Property) : Prop where
  label : p.label ≠ "" → Canonical.IsLabel p.label
  reference : p.kind = .snippet → p.label = "" ∧ p.required = false
  content : p.content.IsCanonical

instance (p : Property) : Decidable p.IsCanonical :=
  decidable_of_iff _ (isCanonical_iff p).symm

namespace IsCanonical

variable {p : Property} (canonical : p.IsCanonical) (isId : ∀ id ∈ p.ids, IsId id)
include canonical isId

theorem isIdentifier : Form.IsIdentifier .standard (p.line .standard).identifier.toList ∧
    ∀ c ∈ (p.line .standard).identifier.toList, Grammar.standard.Inline c := by
  have named (k : Kind) : Grammar.standard.IsWord
      ((Grammar.standard.identifierFor? k).getD k.name) := by
    cases k <;> exact ⟨by decide, by decide⟩
  have word {w : String} (isWord : Grammar.standard.IsWord w) :
      Form.IsIdentifier .standard w.toList ∧ ∀ c ∈ w.toList, Grammar.standard.Inline c := by
    refine ⟨⟨isWord.ne_nil, ?_, fun c member => .inr (isWord.plain c member).1⟩, ?_⟩
    · exact Form.head?_ne_of_isPhrase isWord.isPhrase (by decide) (by decide)
    · exact fun c member => Grammar.inline_of_isPlain (isWord.plain c member)
  obtain ⟨label, required, content⟩ := p
  have other := word (named content.kind)
  cases content with
  | type id => exact (isId id (by simp [ids, typeId?])).isIdentifier
  | snippet id => exact (isId id (by simp [ids, snippetId?])).isIdentifier
  | linkedItems linked range =>
    have nonempty := canonical.content.1
    have each : ∀ id ∈ linked, IsId id := fun id member =>
      isId id (by simp [ids, links, Content.links, member])
    have parts := isIdentifier_join nonempty each
    rwa [← linkedIdentifier_eq nonempty each] at parts
  | _ => exact other

theorem kindName_line (opening : p.kind = .type → p.required = false) :
    (p.line .standard).kindName .standard = p.kind.name := by
  obtain ⟨label, required, content⟩ := p
  cases content with
  | type id =>
    have unknown := (isId id (by simp [ids, typeId?])).unknown
    have optional : required = false := opening rfl
    simp [line, Line.kindName, identifier, kind, Content.kind, tokens, contentTokens, unknown,
      optional]
    rfl
  | snippet id => rfl
  | linkedItems linked range =>
    have nonempty := canonical.content.1
    have each : ∀ id ∈ linked, IsId id := fun id member =>
      isId id (by simp [ids, links, Content.links, member])
    have unknown := kindFor?_join nonempty each
    simp [line, Line.kindName, identifier, kind, Content.kind, linkedIdentifier_eq nonempty each,
      unknown]
    rfl
  | _ => rfl

theorem written : p.Written .standard := by
  constructor
  case identifier => exact (canonical.isIdentifier isId).1
  case inline => exact (canonical.isIdentifier isId).2
  case tokens =>
    apply isToken_tokens Grammar.standard_legible
    obtain ⟨label, required, content⟩ := p
    cases content with
    | singleChoice options => exact fun v member => (canonical.content v member).isToken
    | multipleChoice options => exact fun v member => (canonical.content v member).isToken
    | _ => exact List.forall_mem_nil _
  case label => exact fun nonempty => (canonical.label nonempty).isLabel

omit isId in
theorem told : p.content.Told .standard := by
  obtain ⟨label, required, content⟩ := p
  cases content with
  | singleChoice options => exact fun v member => (canonical.content v member).unmarked
  | multipleChoice options => exact fun v member => (canonical.content v member).unmarked
  | richText r => exact canonical.content.1
  | _ => trivial

theorem telling (opening : p.kind = .type → p.required = false) : p.Telling .standard := by
  constructor
  case kind => exact canonical.kindName_line isId opening
  case told => exact canonical.told
  case named =>
    obtain ⟨label, required, content⟩ := p
    cases content with
    | type id => rfl
    | snippet id => rfl
    | linkedItems linked range =>
      obtain ⟨nonempty, apart⟩ := canonical.content
      have each : ∀ id ∈ linked, IsId id := fun id member =>
        isId id (by simp [ids, links, Content.links, member])
      have parts : Form.links .standard (Text.join ',' linked) = linked :=
        Form.links_join nonempty (fun id member => (each id member).isIdentifier.1) apart
      rwa [← linkedIdentifier_eq nonempty each] at parts
    | _ => trivial
  case reference => exact canonical.reference
  case opening => exact opening

end IsCanonical

end Property

namespace Schema

/-- A schema of integrity of which its text tells all. -/
structure IsCanonical (s : Schema) : Prop where
  ids : ∀ t ∈ s.types ++ s.snippetTypes, IsId t.id
  labels : ∀ t ∈ s.types ++ s.snippetTypes, IsLabel t.label
  properties : ∀ t ∈ s.types ++ s.snippetTypes, ∀ p ∈ t.properties, p.IsCanonical
  integral : s.Integral
  stats : s.stats = Chains.stats s.types

namespace IsCanonical

variable {s : Schema} (canonical : s.IsCanonical)
include canonical

theorem isId_of_mem_ids {t : ContentType} (member : t ∈ s.types ++ s.snippetTypes) {p : Property}
    (property : p ∈ t.properties) : ∀ id ∈ p.ids, IsId id := by
  have typeless := Property.typeId?_eq_none_iff.mpr
    (canonical.integral.typeless t member p property)
  intro id held
  rw [Property.ids, typeless, List.mem_append, List.mem_append, Option.mem_toList,
    Option.mem_toList] at held
  obtain (opens | linked) | named := held
  · contradiction
  · have link : id ∈ t.links := by
      rw [canonical.integral.links_eq t member, IdSet.mem_ofList]
      exact List.mem_flatMap.mpr ⟨p, property, linked⟩
    obtain ⟨target, listed, rfl⟩ := (canonical.integral.linked t member id link).1
    exact canonical.ids target (List.mem_append_left _ listed)
  · have snippet : id ∈ t.snippets := by
      rw [canonical.integral.snippets_eq t member, IdSet.mem_ofList]
      exact List.mem_filterMap.mpr ⟨p, property, named⟩
    obtain ⟨target, listed, rfl⟩ := canonical.integral.described t member id snippet
    exact canonical.ids target (List.mem_append_right _ listed)

/-- Every line of a canonical schema is that of a canonical property. -/
theorem of_mem_stated {t : ContentType} (member : t ∈ s.types ++ s.snippetTypes) {p : Property}
    (stated : p ∈ t.stated) :
    p.IsCanonical ∧ (∀ id ∈ p.ids, IsId id) ∧ (p.kind = .type → p.required = false) := by
  -- The lines that open types and those of components hold an id alone.
  have bare {label id : String} (isLabel : label ≠ "" → IsLabel label) (isId : IsId id) :
      let p : Property := { label, required := false, content := .type id }
      p.IsCanonical ∧ (∀ id ∈ p.ids, IsId id) ∧ (p.kind = .type → p.required = false) := by
    refine ⟨?_, ?_, fun _ => rfl⟩
    · constructor
      case label => exact isLabel
      case reference => exact fun same => nomatch same
      case content => trivial
    · simpa [Property.ids, Property.typeId?, Property.snippetId?, Property.links,
        Content.links] using isId
  rw [ContentType.stated, List.mem_cons, List.mem_flatMap] at stated
  obtain rfl | ⟨q, property, inside⟩ := stated
  · exact bare (fun _ => canonical.labels t member) (canonical.ids t member)
  have isId := canonical.isId_of_mem_ids member property
  obtain rfl | component := List.mem_cons.mp inside
  · refine ⟨canonical.properties t member p property, isId, ?_⟩
    exact fun opens => absurd opens (canonical.integral.typeless t member p property)
  · obtain ⟨id, listed, rfl⟩ := List.mem_map.mp component
    have linked := Property.mem_links_of_components listed
    exact bare (absurd rfl) (isId id (by simp [Property.ids, linked]))

theorem statable {t : ContentType} (member : t ∈ s.types ++ s.snippetTypes) : t.Statable := by
  constructor
  case labelled => exact (canonical.labels t member).nonempty
  case typeless =>
    intro p property
    exact Property.typeId?_eq_none_iff.mpr (canonical.integral.typeless t member p property)
  case parents =>
    intro p property r rich
    have content := (canonical.properties t member p property).content
    rw [rich] at content
    exact content.2

theorem written_of_mem_stated {t : ContentType} (member : t ∈ s.types ++ s.snippetTypes)
    {p : Property} (stated : p ∈ t.stated) : p.Written .standard := by
  obtain ⟨isCanonical, isId, _⟩ := canonical.of_mem_stated member stated
  exact isCanonical.written isId

theorem telling_of_mem_stated {t : ContentType} (member : t ∈ s.types ++ s.snippetTypes)
    {p : Property} (stated : p ∈ t.stated) : p.Telling .standard := by
  obtain ⟨isCanonical, isId, opening⟩ := canonical.of_mem_stated member stated
  exact isCanonical.telling isId opening

end IsCanonical

/-- Parsing by the strict rules undoes writing on canonical schemas. -/
theorem parse_standard_text {s : Schema} (canonical : s.IsCanonical) (fresh : Nat → String) :
    parse fresh .strict .standard (s.text .standard) = .ok s := by
  apply parse_text Grammar.standard_endsLines rfl inline_snippetMark Grammar.standard_legible
    canonical.integral canonical.stats
  case statable => exact fun t member => canonical.statable member
  case written => exact fun t member p stated => canonical.written_of_mem_stated member stated
  case telling => exact fun t member p stated => canonical.telling_of_mem_stated member stated

/-- A schema with most kinds, in which half a comment mark ends a label, a choice holds a comma, a
type links to itself, and a rich text is followed by its component. -/
def magazine : Schema :=
  let article : ContentType :=
    { id := "article", label := "Article a/"
      properties := [
        { label := "", required := false, content := .snippet "seo" },
        { label := "Written by", required := true
          content := .linkedItems ["author", "article"] { min := some 1, max := some 3 } },
        { label := "", required := false, content := .asset .images (.exact 1) },
        { label := "Teaser", required := false, content := .text none (some 80) },
        { label := "Mood", required := false
          content := .singleChoice ["Glad", "Sad (a bit, or more)"] },
        { label := "Body", required := true
          content := .richText
            { words := some 500, tables := true, components := ["author", "author"]
              formatting := .enable .bold {}, isComponentParent := true } },
        { label := "Day", required := true, content := .date }]
      links := .ofList ["article", "author"], snippets := .ofList ["seo"] }
  let types := [article, { id := "author", label := "Author" }]
  { types
    snippetTypes := [
      { id := "seo", label := "Search engines"
        properties := [{ label := "", required := true, content := .text none none }] }]
    stats := Chains.stats types }

theorem parse_standard_text_magazine : magazine.IsCanonical ∧
    parse (fun _ => "") .strict .standard (magazine.text .standard) = .ok magazine := by
  have integral : magazine.Integral := by constructor <;> decide +kernel
  have canonical : magazine.IsCanonical :=
    ⟨by decide +kernel, by decide +kernel, by decide +kernel, integral, rfl⟩
  exact ⟨canonical, parse_standard_text canonical fun _ => ""⟩

end Schema

end ContentSchema
