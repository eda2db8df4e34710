import ContentSchema.Grammar.Document
import ContentSchema.Grammar.Standard
import ContentSchema.Proofs.Schema.Described
/-!
The table of identifiers in both directions. The identifier of a kind is always found again, and it
is found as of that kind unless an earlier row gives it to another one (`Grammar.kind_read_back`).
-/
namespace ContentSchema
namespace Grammar

variable {g : Grammar} {k : Kind} {id name : String}

/-- The kind of an identifier is that of the first row with it. -/
theorem kindFor?_eq_some_iff : g.kindFor? id = some name ↔ ∃ before row after,
    g.table = before ++ row :: after ∧ row.identifier = some id ∧ row.kind = name ∧
      ∀ r ∈ before, r.identifier ≠ some id := by
  rw [kindFor?, Option.map_eq_some_iff]
  constructor
  · rintro ⟨row, found, rfl⟩
    obtain ⟨named, before, after, cut, others⟩ := List.find?_eq_some_iff_append.mp found
    exact ⟨before, row, after, cut, by simpa using named, rfl, by simpa using others⟩
  · rintro ⟨before, row, after, cut, named, rfl, others⟩
    refine ⟨row, List.find?_eq_some_iff_append.mpr ⟨by simpa using named, before, after, cut, ?_⟩, rfl⟩
    simpa using others

theorem exists_row_of_identifierFor? (h : g.identifierFor? k = some id) :
    ∃ row ∈ g.table, row.identifier = some id ∧ row.kind = k.name := by
  obtain ⟨row, listed, named⟩ := List.exists_of_findSome?_eq_some h
  obtain ⟨member, kind⟩ := List.mem_filter.mp listed
  exact ⟨row, member, named, by simpa using kind⟩

/-- A row gives the identifier to another kind, before any that gives it to this one. -/
def Shadowed (g : Grammar) (k : Kind) (id : String) : Prop :=
  ∃ before row after, g.table = before ++ row :: after ∧ row.identifier = some id ∧
    row.kind ≠ k.name ∧ ∀ r ∈ before, r.identifier = some id → r.kind ≠ k.name

/-- An identifier of the table is shadowed for a kind exactly if it is of another one. -/
theorem shadowed_iff (known : g.kindFor? id = some name) : g.Shadowed k id ↔ name ≠ k.name := by
  obtain ⟨first, row, rest, cut, named, rfl, others⟩ := kindFor?_eq_some_iff.mp known
  constructor
  · rintro ⟨before, row', after, cut', named', other, unlisted⟩ same
    -- The first row with the identifier stands before the one that shadows it, or is that row.
    obtain ⟨between, rfl, -⟩ | ⟨between, rfl, tail⟩ :=
      List.append_eq_append_iff.mp (cut.symm.trans cut')
    · cases between with
      | nil => simp_all
      | cons r between => simp_all
    · cases between with
      | nil => simp_all
      | cons r between => simp_all
  · intro other
    exact ⟨first, row, rest, cut, named, other, fun r member named => absurd named (others r member)⟩

/-- The line of a property whose kind has an identifier stands under that identifier. -/
theorem identifier_line {p : Property} (plain : p.kind ∉ [Kind.type, .snippet, .linkedItems])
    (h : g.identifierFor? p.kind = some id) :
    (p.line g).snippet = false ∧ (p.line g).identifier = id := by
  have written : (g.identifierFor? p.kind).getD p.kind.name = id := by rw [h, Option.getD_some]
  obtain ⟨label, required, content⟩ := p
  cases content with
  | type | snippet | linkedItems => simp [Property.kind, Content.kind] at plain
  | _ => exact ⟨rfl, written⟩

/-- The identifier under which a kind is written is found in the table again, and a line under it is
of that kind, unless an earlier row gives the identifier to another kind. -/
theorem kind_read_back (h : g.identifierFor? k = some id) :
    (∃ name, g.kindFor? id = some name) ∧
    (g.kindFor? id = some k.name ↔ ¬ g.Shadowed k id) ∧
    ∀ p : Property, p.kind = k → k ∉ [Kind.type, .snippet, .linkedItems] →
      (p.line g).identifier = id ∧
      ((p.line g).kindName g = k.name ↔ ¬ g.Shadowed k id) ∧
      ∀ read, (p.line g).describe g = .ok read → (read.kind = k ↔ ¬ g.Shadowed k id) := by
  obtain ⟨row, listed, named, -⟩ := exists_row_of_identifierFor? h
  obtain ⟨name, known⟩ : ∃ name, g.kindFor? id = some name := by
    cases known : g.kindFor? id with
    | some name => exact ⟨name, rfl⟩
    | none =>
      rw [kindFor?, Option.map_eq_none_iff, List.find?_eq_none] at known
      exact absurd (beq_iff_eq.mpr named) (known row listed)
  have exactly : name = k.name ↔ ¬ g.Shadowed k id := by rw [shadowed_iff known, not_not]
  refine ⟨⟨name, known⟩, by rw [known, Option.some.injEq, exactly], ?_⟩
  rintro p rfl plain
  obtain ⟨unmarked, under⟩ := identifier_line plain h
  have kindName : (p.line g).kindName g = name := by
    rw [Line.kindName, unmarked, if_neg Bool.false_ne_true, under, known]
  refine ⟨under, by rw [kindName, exactly], fun read described => ?_⟩
  rw [← exactly, ← kindName, ← Kind.name_of_ofName? (Line.kind_of_describe described), Kind.name_inj]

/-- A grammar that is accepted though it gives the identifier of texts to dates too. -/
def aliased : Grammar where
  toMarkup := { Markup.standard with
    table := Markup.standardTable.flatMap fun row =>
      if row.kind = Kind.text.name then [row, { row with kind := Kind.date.name }] else [row] }
  reserved_nodup := by decide
  moreOrLess_ne_range := by decide
  not_reserved_of_skip := by decide
  roles_declared := by decide

/-- Texts keep their identifier, whatever other kind has it in a later row. -/
theorem kind_read_back_aliased :
    aliased.identifierFor? .text = some "Text" ∧ ¬ aliased.Shadowed .text "Text" ∧
      aliased.kindFor? "Text" = some Kind.text.name ∧
      ((⟨"x", true, .text none none⟩ : Property).line aliased).kindName aliased = "text" := by
  have chosen : aliased.identifierFor? .text = some "Text" := by decide +kernel
  have known : aliased.kindFor? "Text" = some Kind.text.name := by decide +kernel
  obtain ⟨-, exactly, lines⟩ := kind_read_back chosen
  have unshadowed := exactly.mp known
  exact ⟨chosen, unshadowed, known,
    (lines ⟨"x", true, .text none none⟩ rfl (by decide)).2.1.mpr unshadowed⟩

/-- A date is written under the identifier of texts, and read back as a text. -/
theorem kind_read_back_shadowed :
    (GrammarDocument.ofGrammar aliased).validate = .ok aliased ∧
    aliased.identifierFor? .date = some "Text" ∧ aliased.kindFor? "Text" = some Kind.text.name ∧
    Line.describe aliased { identifier := "Date", label := some "x" } =
      .ok ⟨"x", false, .date⟩ ∧
    (⟨"x", false, .date⟩ : Property).text aliased = "Text x" ∧
    scan aliased "Text x" = .ok [{ identifier := "Text", label := some "x" }] ∧
    Line.describe aliased { identifier := "Text", label := some "x" } =
      .ok ⟨"x", false, .text none none⟩ := by
  refine ⟨GrammarDocument.validate_ofGrammar aliased, ?_, ?_, ?_, ?_, ?_, ?_⟩ <;> decide +kernel

end Grammar
end ContentSchema
