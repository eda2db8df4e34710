import ContentSchema.Proofs.Description.Given
import ContentSchema.Proofs.Line.Clean
import ContentSchema.Proofs.Schema.Canonical
/-!
What a document can describe. The property of a line that has been read is canonical, whatever its
options are, and its ids can stand in lines again (`Property.Described`); an id that opens a type
names no kind.
-/
namespace ContentSchema

namespace Canonical

/-- An id that is read as the identifier of a line, though it may name a kind. -/
@[mk_iff] structure IsName (id : String) : Prop where
  nonempty : id ≠ ""
  first : id.toList.head? ≠ some ','
  plain : ∀ c ∈ id.toList, c ∉ [' ', '\n', '\r', '/', '.', '[', ']', '(', ')']

instance (id : String) : Decidable (IsName id) :=
  decidable_of_iff _ (isName_iff id).symm

theorem isId_iff_isName {id : String} :
    IsId id ↔ IsName id ∧ Grammar.standard.kindFor? id = none := by
  rw [isId_iff, isName_iff, and_assoc, and_assoc]

theorem isName_of_isIdentifier {id : String} (isIdentifier : Form.IsIdentifier .standard id.toList)
    (inline : ∀ c ∈ id.toList, Grammar.standard.Inline c) : IsName id := by
  constructor
  case nonempty => simpa using isIdentifier.nonempty
  case first => exact isIdentifier.head
  case plain =>
    intro c member
    have inside := inline c member
    rw [inline_standard] at inside
    obtain delimiter | unreserved := isIdentifier.plain c member
    · rw [delimiter]
      decide
    · rw [isReserved_standard] at unreserved
      simp_all

/-- Without a comma a name can stand as a label too. -/
theorem IsName.isLabel {id : String} (isName : IsName id) (comma : ',' ∉ id.toList) :
    IsLabel id := by
  have apart {c : Char} (reserved : c ∈ [' ', '\n', '\r', '/', '.', '[', ']', '(', ')']) :
      c ∉ id.toList := fun member => isName.plain c member reserved
  constructor
  case nonempty => exact isName.nonempty
  case first =>
    constructor
    · exact fun first => apart (by simp) (List.mem_of_head? first)
    · exact fun first => apart (by simp) (List.mem_of_head? first)
  case last => exact fun last => apart (by simp) (List.mem_of_getLast? last)
  case plain =>
    intro c member
    have plain := isName.plain c member
    have other : c ≠ ',' := by
      rintro rfl
      exact comma member
    simp_all
  case uncommented =>
    intro comment
    exact apart (by simp) (comment.subset (List.mem_cons_self : '/' ∈ _))

theorem isLabel_of_isLabel {label : String} (isLabel : Property.IsLabel .standard label) :
    IsLabel label := by
  obtain ⟨first, begins, other, unmarked⟩ := isLabel.isLabel.head
  constructor
  case nonempty =>
    rintro rfl
    contradiction
  case first =>
    rw [begins]
    exact ⟨fun same => other (Option.some.inj same), fun same => unmarked (Option.some.inj same)⟩
  case last => exact isLabel.last
  case plain =>
    intro c member
    have inside := isLabel.inline c member
    have plain := isLabel.isLabel.plain c member
    rw [inline_standard] at inside
    rw [isStructural_standard] at plain
    simp_all
  case uncommented =>
    rintro ⟨before, after, cut⟩
    have below : before.length < label.toList.length := by simp [← cut]
    apply isLabel.isLabel.first before.length below
    rw [List.append_nil, ← cut, List.append_assoc, List.drop_left]
    exact List.prefix_append _ _

theorem isChoice_of_isToken {token : String} (isToken : Form.IsToken .standard token)
    (unmarked : token ≠ "*") : IsChoice token := by
  have trimmed := isToken.trimmed
  constructor
  case nonempty => exact isToken.nonempty
  case first => exact ⟨trimmed ▸ Text.head?_trim ' ' token, isToken.named⟩
  case last => exact trimmed ▸ Text.getLast?_trimEnd ' ' _
  case closed => exact isToken.closed
  case kept => exact fun member => (inline_standard.mp (isToken.inline _ member)).2 rfl
  case unmarked => exact unmarked

/-- The ids of linked items are what stands between the commas of an identifier. -/
theorem isName_of_linked {id : String} (isIdentifier : Form.IsIdentifier .standard id.toList)
    (inline : ∀ c ∈ id.toList, Grammar.standard.Inline c) :
    Form.links .standard id ≠ [] ∧
      ∀ link ∈ Form.links .standard id, IsName link ∧ ',' ∉ link.toList := by
  obtain ⟨nonempty, each⟩ := Form.of_links isIdentifier
  refine ⟨nonempty, fun link listed => ?_⟩
  obtain ⟨isLink, delimited, inside⟩ := each link listed
  exact ⟨isName_of_isIdentifier isLink fun c held => inline c (inside c held), delimited⟩

/-- The table of the standard grammar gives no identifier to the kinds that lines have without it. -/
theorem ofName?_of_kindFor? {id name : String} (known : Grammar.standard.kindFor? id = some name)
    {kind : Kind} (isKind : Kind.ofName? name = some kind) :
    kind ∉ [Kind.type, .snippet, .linkedItems] := by
  have rows : ∀ row ∈ Markup.standardTable, row.identifier.isSome →
      ∀ kind ∈ Kind.ofName? row.kind, kind ∉ [Kind.type, .snippet, .linkedItems] := by decide
  obtain ⟨row, found, rfl⟩ := Option.map_eq_some_iff.mp known
  have named : row.identifier = some id := by simpa using List.find?_some found
  exact rows row (List.mem_of_find?_eq_some found) (by simp [named]) kind isKind

end Canonical

open Canonical

namespace Supply

variable {g : Grammar} {kind : Kind} {s : Supply}

/-- The choices that options supply are some of the options, and none is the required mark. -/
theorem choices_of_ofTokens {tokens : List String} (supplied : ofTokens g kind tokens = .ok s) :
    ∀ v ∈ s.choices, v ∈ tokens ∧ v ≠ g.required.toString := by
  intro v member
  obtain ⟨t, listed, said, isSaid, renews⟩ := exists_said (c := .choice v) supplied member
  cases renews
  cases Clause.origin_of_said isSaid with
  | choice _ unmarked => exact ⟨listed, unmarked⟩

/-- The options of a type and of a reference to a snippet supply nothing. -/
theorem ofTokens_optionless (g : Grammar) {kind : Kind} (optionless : kind = .type ∨ kind = .snippet)
    (tokens : List String) : ofTokens g kind tokens = .ok {} := by
  rw [ofTokens]
  obtain rfl | rfl := optionless <;>
  induction tokens with
  | nil => rfl
  | cons token tokens ih => exact ih

end Supply

/-- A property as the line of a document describes it. Its links are those of linked items: components
have lines of their own. -/
structure Property.Described (p : Property) : Prop where
  canonical : p.IsCanonical
  names : ∀ id ∈ p.ids, IsName id
  opens : ∀ id, p.typeId? = some id → Grammar.standard.kindFor? id = none
  links : ∀ id ∈ p.links, ',' ∉ id.toList

namespace Line

variable {l : Line} {p : Property}

theorem describe_eq_ok_iff {g : Grammar} : l.describe g = .ok p ↔ ∃ kind supply,
    Kind.ofName? (l.kindName g) = some kind ∧
      Supply.ofTokens g kind (l.options.getD []) = .ok supply ∧
      p = { label := l.label.getD ""
            required := supply.required
            content := supply.content g l.identifier kind } := by
  rw [describe]
  cases Kind.ofName? (l.kindName g) with
  | none => simp
  | some kind =>
    simp only [bind, Except.bind, pure, Except.pure]
    cases supplied : Supply.ofTokens g kind (l.options.getD []) with
    | error e => simp [supplied]
    | ok supply => simp [supplied, eq_comm]

theorem kind_of_describe {g : Grammar} (described : l.describe g = .ok p) :
    Kind.ofName? (l.kindName g) = some p.kind := by
  obtain ⟨kind, supply, isKind, -, rfl⟩ := describe_eq_ok_iff.mp described
  rw [isKind, Property.kind, Supply.kind_content]

theorem bare_of_describe {g : Grammar} (described : l.describe g = .ok p) : p.bare = p := by
  obtain ⟨kind, supply, _, _, rfl⟩ := describe_eq_ok_iff.mp described
  cases kind <;> rfl

/-- Only a line that the table does not know opens a type, and only one with a snippet mark refers to
a snippet. -/
theorem of_kindName {kind : Kind} (isKind : Kind.ofName? (l.kindName .standard) = some kind) :
    (kind = .type → Grammar.standard.kindFor? l.identifier = none) ∧
      (kind = .snippet → l.snippet = true) := by
  rw [kindName] at isKind
  cases marked : l.snippet with
  | true =>
    have snippet : Kind.ofName? Grammar.standard.snippetKind = some .snippet := by decide
    rw [marked, if_pos rfl, snippet, Option.some.injEq] at isKind
    simp [← isKind]
  | false =>
    rw [marked, if_neg Bool.false_ne_true] at isKind
    cases known : Grammar.standard.kindFor? l.identifier with
    | some name =>
      simp only [known] at isKind
      have other := ofName?_of_kindFor? known isKind
      simp_all
    | none =>
      have fallback : ∀ bracketed : Bool, Kind.ofName? (if bracketed then
          Grammar.standard.bracketedFallback else Grammar.standard.bareFallback) ≠ some .snippet := by
        decide
      simp only [known] at isKind
      refine ⟨fun _ => rfl, ?_⟩
      rintro rfl
      exact absurd isKind (fallback _)

/-- A line refers to what its identifier names, and a line of links to the pieces of it. -/
theorem of_mem_ids {g : Grammar} {label identifier id : String} {required : Bool} {kind : Kind}
    {supply : Supply} (held : id ∈ Property.ids
      { label, required, content := supply.content g identifier kind }) :
    id = identifier ∨ kind = .linkedItems ∧
      id ∈ ((Text.split g.arrayDelimiter identifier).map (Text.trim g.space)).filter (· ≠ "") := by
  rw [Property.ids] at held
  cases kind with
  | linkedItems =>
    simp only [Property.typeId?, Property.snippetId?, Property.links, Content.links,
      Supply.content, Option.toList_none, List.nil_append, List.append_nil] at held
    exact .inr ⟨rfl, held⟩
  | type | snippet =>
    left
    simpa [Property.typeId?, Property.snippetId?, Property.links, Content.links, Supply.content,
      eq_comm] using held
  | _ =>
    simp [Property.typeId?, Property.snippetId?, Property.links, Content.links, Supply.content]
      at held

/-- Whatever a clean line describes, it is canonical, and its ids can be written again. -/
theorem described_of_clean (clean : l.Clean .standard) (described : l.describe .standard = .ok p) :
    p.Described := by
  obtain ⟨kind, supply, isKind, supplied, rfl⟩ := describe_eq_ok_iff.mp described
  obtain ⟨unknown, marked⟩ := of_kindName isKind
  have isName := isName_of_isIdentifier clean.identifier clean.inline
  have linked := isName_of_linked clean.identifier clean.inline
  have isChoice : ∀ v ∈ supply.choices, IsChoice v := by
    intro v member
    obtain ⟨isOption, unmarked⟩ := Supply.choices_of_ofTokens supplied v member
    exact isChoice_of_isToken (clean.tokens v isOption) unmarked
  have isLabel : l.label.getD "" ≠ "" → IsLabel (l.label.getD "") := by
    intro nonempty
    cases labelled : l.label with
    | none => simp [labelled] at nonempty
    | some label => exact isLabel_of_isLabel (clean.label label labelled)
  constructor
  case canonical =>
    constructor
    case label => exact isLabel
    case reference =>
      intro snippet
      have isSnippet : kind = .snippet := by
        cases kind <;> simp_all [Property.kind, Supply.content, Content.kind]
      subst isSnippet
      rw [Supply.ofTokens_optionless _ (.inr rfl), Except.ok.injEq] at supplied
      simp [clean.reference (marked rfl), ← supplied]
    case content =>
      cases kind with
      | linkedItems => exact ⟨linked.1, fun id member => (linked.2 id member).2⟩
      | singleChoice => exact isChoice
      | multipleChoice => exact isChoice
      | richText =>
        constructor
        · intro tableless
          cases tables : supply.tables with
          | none => rfl
          | some formats => simp [tables] at tableless
        · simp
      | _ => trivial
  case names =>
    intro id held
    obtain rfl | ⟨-, link⟩ := of_mem_ids held
    · exact isName
    · exact (linked.2 id link).1
  case opens =>
    intro id opened
    cases kind with
    | type => exact Option.some.inj opened ▸ unknown rfl
    | _ => contradiction
  case links =>
    intro id held
    cases kind with
    | linkedItems => exact (linked.2 id held).2
    | _ => contradiction

end Line

theorem of_mem_mapM {α β ε : Type} {f : α → Except ε β} {l : List α} {l' : List β} {b : β}
    (mapped : l.mapM f = .ok l') (member : b ∈ l') : ∃ a ∈ l, f a = .ok b := by
  induction l generalizing l' with
  | nil =>
    cases mapped
    contradiction
  | cons a l ih =>
    rw [List.mapM_cons] at mapped
    obtain ⟨first, isFirst, mapped⟩ := of_bind_eq_ok mapped
    obtain ⟨others, areOthers, mapped⟩ := of_bind_eq_ok mapped
    cases mapped
    obtain rfl | later := List.mem_cons.mp member
    · exact ⟨a, List.mem_cons_self, isFirst⟩
    · obtain ⟨a', inside, same⟩ := ih areOthers later
      exact ⟨a', List.mem_cons_of_mem a inside, same⟩

/-- Every entry of a document holds what a line of it describes. -/
theorem exists_line_of_entries {g : Grammar} {source : String} {es : List Entry}
    (described : entries g source = .ok es) : ∃ lines, scan g source = .ok lines ∧
      ∀ e ∈ es, ∃ l ∈ lines, l.describe g = .ok e.property := by
  obtain ⟨lines, read, described⟩ := of_bind_eq_ok described
  refine ⟨lines, read, fun e member => ?_⟩
  obtain ⟨l, listed, entry⟩ := of_mem_mapM described member
  refine ⟨l, listed, ?_⟩
  rw [Line.toEntry] at entry
  cases property : l.describe g with
  | error e => simp [property, Except.map] at entry
  | ok p =>
    rw [property] at entry
    cases entry
    rfl

/-- Every entry of a document holds a property that its line describes. -/
theorem described_of_entries {source : String} {es : List Entry}
    (described : entries .standard source = .ok es) : ∀ e ∈ es, e.property.Described := by
  obtain ⟨lines, read, each⟩ := exists_line_of_entries described
  intro e member
  obtain ⟨l, listed, property⟩ := each e member
  exact Line.described_of_clean (Line.clean_of_scan Grammar.standard_endsLines rfl read l listed)
    property

end ContentSchema
