import ContentSchema.Proofs.Schema.Described
import ContentSchema.Proofs.Schema.Renewed
/-!
Properties that are read, written and read again, for any marks. As long as the digits of the counts
are no marks, the line that is written for a property that a line has described is read as one line
that describes the same property (`Property.described_again`).
-/
namespace ContentSchema

/-- Whatever the marks are, lines have the kinds that they have in the standard grammar. -/
structure Grammar.StandardKinds (g : Grammar) : Prop where
  table : g.table = Markup.standardTable
  bracketedFallback : g.bracketedFallback = Kind.linkedItems.name
  bareFallback : g.bareFallback = Kind.type.name
  snippetKind : g.snippetKind = Kind.snippet.name

namespace Grammar.StandardKinds

variable {g : Grammar} (kinds : g.StandardKinds)
include kinds

theorem kindFor?_eq (id : String) : g.kindFor? id = Grammar.standard.kindFor? id := by
  rw [kindFor?, kinds.table]
  rfl

theorem identifierFor?_eq (k : Kind) : g.identifierFor? k = Grammar.standard.identifierFor? k := by
  rw [identifierFor?, kinds.table]
  rfl

/-- An identifier of the table is that under which its kind is written. -/
theorem identifierFor?_of_kindFor? {id name : String} {kind : Kind} (known : g.kindFor? id = some name)
    (isKind : Kind.ofName? name = some kind) : g.identifierFor? kind = some id := by
  have rows : ∀ row ∈ Markup.standardTable, ∀ id ∈ row.identifier, ∀ kind ∈ Kind.ofName? row.kind,
      Grammar.standard.identifierFor? kind = some id := by decide
  rw [kinds.kindFor?_eq] at known
  obtain ⟨row, found, rfl⟩ := Option.map_eq_some_iff.mp known
  have named : row.identifier = some id := by simpa using List.find?_some found
  rw [kinds.identifierFor?_eq]
  exact rows row (List.mem_of_find?_eq_some found) id named kind isKind

/-- No identifier of the table is another one with one more character. -/
theorem kindFor?_push {id : String} (known : (g.kindFor? id).isSome) (c : Char) :
    g.kindFor? (id.push c) = none := by
  have rows : ∀ row ∈ Markup.standardTable, ∀ id ∈ row.identifier,
      ∀ row' ∈ Markup.standardTable, ∀ id' ∈ row'.identifier, id'.toList.dropLast ≠ id.toList := by
    decide
  rw [kinds.kindFor?_eq] at known ⊢
  obtain ⟨name, isName⟩ := Option.isSome_iff_exists.mp known
  obtain ⟨row, found, rfl⟩ := Option.map_eq_some_iff.mp isName
  have named : row.identifier = some id := by simpa using List.find?_some found
  rw [kindFor?, Option.map_eq_none_iff, List.find?_eq_none]
  intro row' listed same
  apply rows row (List.mem_of_find?_eq_some found) id named row' listed _ (beq_iff_eq.mp same)
  rw [String.toList_push, List.dropLast_concat]

theorem kindFor?_linkedIdentifier (ids : List String) :
    g.kindFor? (Property.linkedIdentifier g ids) = none := by
  rw [Property.linkedIdentifier]
  split
  · next known => exact kinds.kindFor?_push known g.arrayDelimiter
  · next unknown => simpa using unknown

end Grammar.StandardKinds

namespace Form

variable {g : Grammar} {ids : List String}

theorem isIdentifier_linkedIdentifier (nonempty : ids ≠ [])
    (each : ∀ id ∈ ids, IsIdentifier g id.toList) :
    IsIdentifier g (Property.linkedIdentifier g ids).toList := by
  have joined := isIdentifier_join nonempty each
  rw [Property.linkedIdentifier]
  split
  · rw [String.toList_push]
    constructor
    case nonempty => simp
    case head =>
      obtain ⟨c, cs, begins⟩ := List.exists_cons_of_ne_nil joined.nonempty
      have head := joined.head
      rw [begins] at head ⊢
      exact head
    case plain =>
      intro c member
      obtain inside | last := List.mem_append.mp member
      · exact joined.plain c inside
      · exact .inl (List.mem_singleton.mp last)
  · exact joined

theorem links_linkedIdentifier (nonempty : ids ≠ []) (each : ∀ id ∈ ids, IsIdentifier g id.toList)
    (apart : ∀ id ∈ ids, g.arrayDelimiter ∉ id.toList) :
    links g (Property.linkedIdentifier g ids) = ids := by
  rw [Property.linkedIdentifier]
  split
  · rw [links_push]
    exact links_join nonempty each apart
  · exact links_join nonempty each apart

theorem kept_linkedIdentifier (kept : ∀ id ∈ ids, ∀ c ∈ id.toList, c ∉ g.skip) :
    ∀ c ∈ (Property.linkedIdentifier g ids).toList, c ∉ g.skip := by
  have delimiter : g.arrayDelimiter ∉ g.skip :=
    (Grammar.inline_structural (by simp [Grammar.isStructural])).2
  have joined : ∀ c ∈ (Text.join g.arrayDelimiter ids).toList, c ∉ g.skip := by
    intro c member
    obtain rfl | ⟨id, listed, inside⟩ := mem_join member
    · exact delimiter
    · exact kept id listed c inside
  rw [Property.linkedIdentifier]
  split
  · rw [String.toList_push, List.forall_mem_append, List.forall_mem_singleton]
    exact ⟨joined, delimiter⟩
  · exact joined

end Form

namespace Property

variable {g : Grammar} {l : Line} {p : Property}

theorem text_line (g : Grammar) (p : Property) : (p.line g).text g = p.text g := by
  by_cases snippet : p.kind = .snippet
  · obtain ⟨label, required, content⟩ := p
    cases content with
    | snippet id => simp [line, text, Line.text, Line.optionsText, Line.labelText]
    | _ => contradiction
  obtain ⟨line_eq, text_eq⟩ := of_kind_ne_snippet (g := g) snippet
  rw [line_eq, text_eq, Line.text, brackets]
  by_cases bracketed : p.kind = .linkedItems ∨ p.tokens g ≠ [] <;> by_cases empty : p.label = "" <;>
    simp [bracketed, empty, Line.optionsText, Line.labelText]

/-- What the identifier of a line tells of the property that it describes. -/
theorem of_describe (kinds : g.StandardKinds) (described : l.describe g = .ok p)
    (other : p.kind ≠ .type) :
    (l.snippet = true ∧ p.content = .snippet l.identifier) ∨
    (∃ range, p.content = .linkedItems (Form.links g l.identifier) range) ∨
    p.kind ∉ [Kind.type, .snippet, .linkedItems] ∧ g.kindFor? l.identifier = some p.kind.name ∧
      (p.line g).identifier = l.identifier := by
  obtain ⟨kind, supply, isKind, -, rfl⟩ := Line.describe_eq_ok_iff.mp described
  have same : kind = Property.kind
      { label := l.label.getD "", required := supply.required
        content := supply.content g l.identifier kind } := (Supply.kind_content ..).symm
  rw [Line.kindName] at isKind
  cases marked : l.snippet with
  | true =>
    rw [marked, if_pos rfl, kinds.snippetKind, Kind.ofName?_name, Option.some.injEq] at isKind
    subst isKind
    exact .inl ⟨rfl, rfl⟩
  | false =>
    rw [marked, if_neg Bool.false_ne_true] at isKind
    right
    cases known : g.kindFor? l.identifier with
    | some name =>
      simp only [known] at isKind
      right
      have other := Canonical.ofName?_of_kindFor? (kinds.kindFor?_eq _ ▸ known) isKind
      have named := kinds.identifierFor?_of_kindFor? known isKind
      refine ⟨same ▸ other, ?_, ?_⟩
      · rw [← same, Kind.name_of_ofName? isKind]
      · have written : (g.identifierFor? kind).getD kind.name = l.identifier := by
          rw [named]
          rfl
        cases kind with
        | type | snippet | linkedItems => simp at other
        | _ => exact written
    | none =>
      simp only [known] at isKind
      left
      cases bracketed : l.options.isSome with
      | true =>
        rw [bracketed, if_pos rfl, kinds.bracketedFallback, Kind.ofName?_name,
          Option.some.injEq] at isKind
        subst isKind
        exact ⟨_, rfl⟩
      | false =>
        rw [bracketed, if_neg Bool.false_ne_true, kinds.bareFallback, Kind.ofName?_name,
          Option.some.injEq] at isKind
        subst isKind
        exact absurd rfl other

/-- The identifier under which a property is written. -/
theorem identifier_of_describe (kinds : g.StandardKinds) (repeatable : l.Repeatable g)
    (described : l.describe g = .ok p) (other : p.kind ≠ .type) :
    Form.IsIdentifier g (p.line g).identifier.toList ∧
      (∀ c ∈ (p.line g).identifier.toList, c ∉ g.skip) ∧
      (p.line g).kindName g = p.kind.name ∧ p.content.NamedBy g (p.line g).identifier := by
  have told := of_describe kinds described other
  obtain ⟨label, required, content⟩ := p
  obtain ⟨-, rfl⟩ | ⟨range, rfl⟩ | ⟨plain, known, same⟩ := told
  · exact ⟨repeatable.identifier, repeatable.kept, kinds.snippetKind, rfl⟩
  · obtain ⟨nonempty, each⟩ := Form.of_links repeatable.identifier
    refine ⟨Form.isIdentifier_linkedIdentifier nonempty fun id listed => (each id listed).1,
      Form.kept_linkedIdentifier fun id listed c inside =>
        repeatable.kept c ((each id listed).2.2 c inside), ?_,
      Form.links_linkedIdentifier nonempty (fun id listed => (each id listed).1)
        fun id listed => (each id listed).2.1⟩
    have unknown := kinds.kindFor?_linkedIdentifier (Form.links g l.identifier)
    simp [line, Line.kindName, identifier, kind, Content.kind, unknown, kinds.bracketedFallback]
  · rw [same]
    refine ⟨repeatable.identifier, repeatable.kept, ?_, ?_⟩
    · have unmarked : (line g ⟨label, required, content⟩).snippet = false := by
        cases content <;> simp_all [line, kind, Content.kind]
      rw [Line.kindName, unmarked, if_neg Bool.false_ne_true, same, known]
    · cases content <;> simp_all [kind, Content.kind, Content.NamedBy]

/-- Each option that is written says again what an option of the line has said. -/
theorem renewed_of_describe (repeatable : l.Repeatable g) (described : l.describe g = .ok p)
    (apart : ∀ c ∈ p.clauses, c.Apart g) :
    ∀ c ∈ p.clauses, Form.IsToken g (c.token g) ∧ Clause.Said g p.kind (c.token g) c := by
  obtain ⟨kind, supply, -, supplied, rfl⟩ := Line.describe_eq_ok_iff.mp described
  intro c member
  obtain ⟨t, listed, said, isSaid, renews⟩ :=
    Supply.exists_said supplied (Supply.gives_of_mem_clauses rfl member)
  have same : kind = Property.kind
      { label := l.label.getD "", required := supply.required
        content := supply.content g l.identifier kind } := (Supply.kind_content ..).symm
  exact same ▸ Clause.renewed (repeatable.tokens t listed) isSaid renews (apart c member)

theorem repeatableLabel_of_describe (repeatable : l.Repeatable g) (described : l.describe g = .ok p)
    (nonempty : p.label ≠ "") : Line.RepeatableLabel g p.label := by
  obtain ⟨kind, supply, -, -, rfl⟩ := Line.describe_eq_ok_iff.mp described
  cases labelled : l.label with
  | none => simp [labelled] at nonempty
  | some label => exact repeatable.label label labelled

theorem repeatable_line (kinds : g.StandardKinds) (repeatable : l.Repeatable g)
    (described : l.describe g = .ok p) (other : p.kind ≠ .type)
    (isToken : ∀ c ∈ p.clauses, Form.IsToken g (c.token g)) : (p.line g).Repeatable g := by
  obtain ⟨isIdentifier, kept, -, -⟩ := identifier_of_describe kinds repeatable described other
  by_cases snippet : p.kind = .snippet
  · have marked : l.snippet = true := by
      obtain ⟨marked, -⟩ | ⟨range, linked⟩ | ⟨plain, -, -⟩ := of_describe kinds described other
      · exact marked
      · simp [kind, linked, Content.kind] at snippet
      · simp [snippet] at plain
    obtain ⟨label, required, content⟩ := p
    cases content with
    | snippet id =>
      exact ⟨isIdentifier, kept, fun _ => repeatable.mark marked, List.forall_mem_nil _, by simp [line],
        fun _ => rfl⟩
    | _ => contradiction
  · have isLabel := repeatableLabel_of_describe repeatable described
    rw [(of_kind_ne_snippet (g := g) snippet).1] at isIdentifier kept ⊢
    have unmarked {a : Prop} (marked : false = true) : a := absurd marked Bool.false_ne_true
    refine ⟨isIdentifier, kept, unmarked, ?_, ?_, unmarked⟩
    · have tokens : ∀ t ∈ p.tokens g, Form.IsToken g t := by
        rw [tokens_eq_map, List.forall_mem_map]
        exact isToken
      dsimp only
      split
      · exact tokens
      · exact List.forall_mem_nil _
    · intro label same
      simp only [Option.ite_none_left_eq_some, Option.some.injEq] at same
      exact same.2 ▸ isLabel same.1

theorem telling_of_describe (kinds : g.StandardKinds) (repeatable : l.Repeatable g)
    (described : l.describe g = .ok p) (other : p.kind ≠ .type) : p.Telling g := by
  obtain ⟨-, -, named, links⟩ := identifier_of_describe kinds repeatable described other
  have origin := of_describe kinds described other
  obtain ⟨kind, supply, -, supplied, rfl⟩ := Line.describe_eq_ok_iff.mp described
  constructor
  case kind => exact named
  case named => exact links
  case opening => exact fun opens => absurd opens other
  case told =>
    have unmarked : ∀ v ∈ supply.choices, v ≠ g.required.toString :=
      fun v member => (Supply.choices_of_ofTokens supplied v member).2
    cases kind with
    | singleChoice => exact unmarked
    | multipleChoice => exact unmarked
    | richText =>
      intro tableless
      cases tables : supply.tables with
      | none => rfl
      | some formats => simp [tables] at tableless
    | _ => trivial
  case reference =>
    intro snippet
    have isSnippet : kind = .snippet := by
      cases kind <;> simp_all [Property.kind, Supply.content, Content.kind]
    subst isSnippet
    rw [Supply.ofTokens_optionless _ (.inr rfl), Except.ok.injEq] at supplied
    obtain ⟨marked, -⟩ | ⟨range, linked⟩ | ⟨plain, -, -⟩ := origin
    · simp [repeatable.reference marked, ← supplied]
    · contradiction
    · simp [Property.kind, Supply.content, Content.kind] at plain

/-- The line that is written for a property that has been read is read as one line that describes the
same property, whatever the marks of the grammar are, unless a digit of its counts is a mark. -/
theorem described_again (kinds : g.StandardKinds) {source : String} {lines : List Line}
    (read : scan g source = .ok lines) (listed : l ∈ lines) (described : l.describe g = .ok p)
    (other : p.kind ≠ .type) (apart : ∀ c ∈ p.clauses, c.Apart g) (n : Nat) :
    ∃ l', scan g (.ofList (List.replicate n g.space) ++ p.text g) = .ok [l'] ∧
      l'.describe g = .ok p := by
  have repeatable := Line.repeatable_of_scan read l listed
  have renewed := renewed_of_describe repeatable described apart
  have written := repeatable_line kinds repeatable described other fun c member => (renewed c member).1
  have telling := telling_of_describe kinds repeatable described other
  refine ⟨_, text_line g p ▸ Line.scan_text written n, ?_⟩
  have whole := describe_line telling fun c member => (renewed c member).2
  rwa [Line.bare_of_describe described] at whole

/-- A grammar with none of the standard marks. Its space also stands in ranges, and comments begin with
three characters. -/
def foreign : Grammar where
  toMarkup := { Markup.standard with
    comment := ⟨'#', ['-', '#']⟩
    space := '_'
    arrayDelimiter := ';'
    optionsStart := '<'
    optionsEnd := '>'
    detailStart := '\x7b'
    detailEnd := '\x7d'
    moreOrLess := '~'
    range := '_'
    required := '.'
    delimiter := ⟨'!', ['!']⟩
    snippetMark := ⟨'@', ['=']⟩ }
  reserved_nodup := by decide
  moreOrLess_ne_range := by decide
  not_reserved_of_skip := by decide
  roles_declared := by decide

theorem described_again_foreign :
    scan foreign "A_a!!_Asset<.;03_05>_x#-y#-#z!!" = .ok
      [{ identifier := "A", label := some "a" },
        { identifier := "Asset", options := some [".", "03_05"], label := some "x#-y", number := 2 }] ∧
    (⟨"x#-y", true, .asset .none { min := some 3, max := some 5 }⟩ : Property).text foreign =
      "Asset<3_5;.>_x#-y" ∧
    ∃ l, scan foreign "__Asset<3_5;.>_x#-y" = .ok [l] ∧
      l.describe foreign = .ok ⟨"x#-y", true, .asset .none { min := some 3, max := some 5 }⟩ := by
  have read : scan foreign "A_a!!_Asset<.;03_05>_x#-y#-#z!!" = .ok
      [{ identifier := "A", label := some "a" },
        { identifier := "Asset", options := some [".", "03_05"], label := some "x#-y", number := 2 }] := by
    decide +kernel
  have apart : foreign.CountsApart :=
    ⟨⟨by decide, by decide⟩, by decide, by decide, by decide, by decide⟩
  have again := described_again (p := ⟨"x#-y", true, .asset .none { min := some 3, max := some 5 }⟩)
    ⟨rfl, rfl, rfl, rfl⟩ read (List.mem_cons_of_mem _ List.mem_cons_self) (by decide +kernel)
    (by decide) (fun c _ => Clause.apart_of_countsApart apart c) 2
  exact ⟨read, by decide +kernel, again⟩

/-- A grammar that is accepted though a count may be its mark for required values. -/
def countRequired : Grammar where
  toMarkup := { Markup.standard with required := '3' }
  reserved_nodup := by decide
  moreOrLess_ne_range := by decide
  not_reserved_of_skip := by decide
  roles_declared := by decide

/-- The count is written as the mark for required values. -/
theorem described_again_required : countRequired.StandardKinds ∧
    scan countRequired "A a\n Asset[03] x\n" = .ok
      [{ identifier := "A", label := some "a" },
        { identifier := "Asset", options := some ["03"], label := some "x", number := 2 }] ∧
    Line.describe countRequired
      { identifier := "Asset", options := some ["03"], label := some "x", number := 2 } =
        .ok ⟨"x", false, .asset .none (.exact 3)⟩ ∧
    (⟨"x", false, .asset .none (.exact 3)⟩ : Property).text countRequired = "Asset[3] x" ∧
    scan countRequired "Asset[3] x" = .ok
      [{ identifier := "Asset", options := some ["3"], label := some "x" }] ∧
    Line.describe countRequired { identifier := "Asset", options := some ["3"], label := some "x" } =
      .ok ⟨"x", true, .asset .none {}⟩ := by
  refine ⟨⟨rfl, rfl, rfl, rfl⟩, ?_, ?_, ?_, ?_, ?_⟩ <;> decide +kernel

end Property

end ContentSchema
