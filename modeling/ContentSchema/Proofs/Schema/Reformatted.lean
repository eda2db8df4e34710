import ContentSchema.Proofs.Assembly.Modes
import ContentSchema.Proofs.Schema.Refused
import ContentSchema.Proofs.Schema.Sourced
/-!
The text of a parsed schema, parsed again. What a document describes is canonical but for two things:
a label with a comma, which a type has only in place of a label of its own, and an id that names a
kind, which only repair gives to a type. Where there is neither, formatting gives back the schema
(`Schema.parse_text_of_strict`, `Schema.parse_text_of_loose`).
-/
namespace ContentSchema

open Canonical

namespace Schema

variable {fresh : Nat → String} {source : String} {s : Schema} {es : List Entry}

/-- A canonical schema is read back from its text, in either mode. -/
theorem IsCanonical.parse_text (canonical : s.IsCanonical) (fresh : Nat → String) (mode : Mode) :
    parse fresh mode .standard (s.text .standard) = .ok s := by
  have strict : parse fresh .strict .standard (s.text .standard) = .ok s := by
    apply Schema.parse_text Grammar.standard_endsLines rfl inline_snippetMark
      Grammar.standard_legible canonical.integral canonical.stats
    case statable => exact fun t member => canonical.statable member
    case written => exact fun t member p stated => canonical.written_of_mem_stated member stated
    case telling => exact fun t member p stated => canonical.telling_of_mem_stated member stated
  cases mode with
  | strict => exact strict
  | loose =>
    obtain ⟨es, a, described, accepted, rfl⟩ := parse_eq_ok_iff.mp strict
    exact parse_eq_ok_iff.mpr ⟨es, a, described, (Assembly.ofEntries_of_strict accepted).1, rfl⟩

/-- What the strict rules accept is the described types, as they are. -/
theorem of_parse_strict (described : entries .standard source = .ok es)
    (parsed : parse fresh .strict .standard source = .ok s) :
    (Blocks.split (Assembly.properties es)).1 = [] ∧ s.Integral ∧
      s.stats = Chains.stats s.types ∧
      ∀ t, t ∈ s.types ++ s.snippetTypes ↔ ∃ u ∈ Assembly.blocks es, u.relink id = t := by
  obtain ⟨_, a, described', assembled, rfl⟩ := parse_eq_ok_iff.mp parsed
  cases described.symm.trans described'
  have front := Assembly.front_of_ofEntries assembled
  rw [Assembly.ofEntries_eq fresh .strict Grammar.standard.typeStart front] at assembled
  cases kept : (Assembly.references es).violation? ((Assembly.blocks es).map (·.id)) with
  | some e => simp [kept] at assembled
  | none =>
    simp only [kept] at assembled
    refine ⟨front, Assembly.integral_of_met (Assembly.met_of_strict front kept) assembled, rfl, ?_⟩
    exact fun t => (Assembly.mem_of_separate assembled).trans List.mem_map

/-- What the loose rules accept is the repaired types, with their links sent to the copies. -/
theorem of_parse_loose (described : entries .standard source = .ok es)
    (new : Assembly.Fresh fresh es) (parsed : parse fresh .loose .standard source = .ok s) :
    (Blocks.split (Assembly.properties es)).1 = [] ∧ s.Integral ∧
      s.stats = Chains.stats s.types ∧
      ∀ t, t ∈ s.types ++ s.snippetTypes ↔
        ∃ u ∈ Assembly.repaired fresh es, u.relink (Assembly.target fresh es) = t := by
  obtain ⟨_, a, described', assembled, rfl⟩ := parse_eq_ok_iff.mp parsed
  cases described.symm.trans described'
  have front := Assembly.front_of_ofEntries assembled
  rw [Assembly.ofEntries_loose front new] at assembled
  refine ⟨front, Assembly.integral_of_met (Assembly.met_repaired front new) assembled, rfl, ?_⟩
  exact fun t => (Assembly.mem_of_separate assembled).trans List.mem_map

/-- No type of a schema that the strict rules read names a kind: its line would have been read as a
property. -/
theorem kindFor?_of_parse_strict (parsed : parse fresh .strict .standard source = .ok s) :
    ∀ t ∈ s.types ++ s.snippetTypes, Grammar.standard.kindFor? t.id = none := by
  obtain ⟨es, _, described, _⟩ := parse_eq_ok_iff.mp parsed
  obtain ⟨front, _, _, each⟩ := of_parse_strict described parsed
  intro t member
  obtain ⟨u, block, rfl⟩ := (each t).mp member
  exact (Assembly.sourced_of_blocks (described_of_entries described) front block).2.2

/-- Formatting a document that the strict rules accept gives back what it describes, in either mode,
unless a type line without a label holds an id with a comma: that line gets the id for a label, where
no comma may stand, and the text is refused. -/
theorem parse_text_of_strict (described : entries .standard source = .ok es)
    (parsed : parse fresh .strict .standard source = .ok s) :
    ((∀ p ∈ Assembly.properties es, p.label = "" → ∀ id ∈ p.typeId?, ',' ∉ id.toList) →
      ∀ other mode, parse other mode .standard (s.text .standard) = .ok s) ∧
    ((∃ p ∈ Assembly.properties es, p.label = "" ∧ ∃ id ∈ p.typeId?, ',' ∈ id.toList) →
      ∀ other mode, ∃ e, parse other mode .standard (s.text .standard) = .error e) := by
  obtain ⟨front, integral, stats, each⟩ := of_parse_strict described parsed
  have lines := described_of_entries described
  have sourced : ∀ t ∈ s.types ++ s.snippetTypes, t.Sourced := by
    intro t member
    obtain ⟨u, block, rfl⟩ := (each t).mp member
    exact (Assembly.sourced_of_blocks lines front block).1.relink fun _ comma => comma
  constructor
  · intro commaless
    have canonical : s.IsCanonical := by
      rw [isCanonical_iff_of_sourced integral stats sourced]
      intro t member
      obtain ⟨u, block, rfl⟩ := (each t).mp member
      refine ⟨fun comma => ?_, (Assembly.sourced_of_blocks lines front block).2.2⟩
      obtain ⟨p, inside, bare, id, opened, held⟩ :=
        (Assembly.exists_comma_iff lines).mp ⟨u, block, comma⟩
      exact commaless p inside bare id opened held
    exact canonical.parse_text
  · intro bare
    obtain ⟨u, block, comma⟩ := (Assembly.exists_comma_iff lines).mpr bare
    have member := (each _).mpr ⟨u, block, rfl⟩
    have labelled : IsName u.label :=
      (sourced _ member).label.resolve_left fun isLabel => isLabel.plain ',' comma (by simp)
    exact parse_text_of_comma member (sourced _ member).name labelled comma

/-- A document with an id of two names, which is a component and opens a type, a type line without a
label, half a comment mark at the end of a label, and a snippet. -/
def tangled : String :=
  "a\n  RichText[b, words(3)] Body a/ // note\n  b,c\n\n  ...s\n  x,a[+2]\nb,c Two\nx\ns Seo\n"

theorem parse_text_of_strict_tangled :
    (∃ s, parse numbered .strict .standard tangled = .ok s ∧
      s.types.map (·.label) = ["a", "Two", "x"] ∧ s.snippetTypes.map (·.label) = ["Seo"] ∧
      parse numbered .loose .standard (s.text .standard) = .ok s) ∧
    ∃ s e, parse numbered .strict .standard "A,B\n" = .ok s ∧
      parse numbered .strict .standard (s.text .standard) = .error e := by
  constructor
  · let es := (entries .standard tangled).toOption.getD []
    let s := (parse numbered .strict .standard tangled).toOption.getD {}
    have described : entries .standard tangled = .ok es := by decide +kernel
    have parsed : parse numbered .strict .standard tangled = .ok s := by decide +kernel
    have commaless : ∀ p ∈ Assembly.properties es, p.label = "" →
        ∀ id ∈ p.typeId?, ',' ∉ id.toList := by decide +kernel
    exact ⟨s, parsed, by decide +kernel, by decide +kernel,
      (parse_text_of_strict described parsed).1 commaless numbered .loose⟩
  · let es := (entries .standard "A,B\n").toOption.getD []
    let s := (parse numbered .strict .standard "A,B\n").toOption.getD {}
    have described : entries .standard "A,B\n" = .ok es := by decide +kernel
    have parsed : parse numbered .strict .standard "A,B\n" = .ok s := by decide +kernel
    have bare : ∃ p ∈ Assembly.properties es, p.label = "" ∧ ∃ id ∈ p.typeId?, ',' ∈ id.toList :=
      ⟨{ label := "", required := false, content := .type "A,B" }, by decide +kernel, rfl,
        "A,B", rfl, by decide⟩
    obtain ⟨e, refused⟩ := (parse_text_of_strict described parsed).2 bare numbered .strict
    exact ⟨s, e, parsed, refused⟩

/-- The strict rules accept a type line that holds two names alone, but not the text it is given. -/
theorem parse_text_of_strict_unlabelled : ∃ s, parse numbered .strict .standard "A,B\n" = .ok s ∧
    s.text .standard = "A,B A,B\n" ∧
    parse numbered .strict .standard (s.text .standard) = .error (.unexpected ',' 5 .label) := by
  let s := (parse numbered .strict .standard "A,B\n").toOption.getD {}
  exact ⟨s, by decide +kernel, by decide +kernel, by decide +kernel⟩

/-- Formatting a document that the loose rules accept, with no comma in the id of a type or snippet,
gives a text from which the strict rules read the same schema, copies and empty types included,
exactly if no reference of the document names a kind: the header of the empty type that it would get
is read as a property. -/
theorem parse_text_of_loose (described : entries .standard source = .ok es)
    (commaless : ∀ e ∈ es, (∀ id ∈ e.property.typeId?, ',' ∉ id.toList) ∧
      ∀ id ∈ e.property.snippetId?, ',' ∉ id.toList)
    (new : Assembly.Fresh fresh es) (endings : Assembly.Endings fresh)
    (parsed : parse fresh .loose .standard source = .ok s) :
    parse fresh .strict .standard (s.text .standard) = .ok s ↔
      ∀ id, id ∈ (Assembly.references es).links ∨ id ∈ (Assembly.references es).snippets →
        Grammar.standard.kindFor? id = none := by
  have lines := described_of_entries described
  obtain ⟨front, integral, stats, each⟩ := of_parse_loose described new parsed
  constructor
  · intro same id referred
    obtain ⟨t, member, rfl⟩ := List.mem_map.mp (Assembly.mem_ids_repaired front new referred)
    have inside := (each (t.relink (Assembly.target fresh es))).mpr ⟨t, member, rfl⟩
    exact kindFor?_of_parse_strict same (t.relink (Assembly.target fresh es)) inside
  · intro unknown
    have sourced : ∀ t ∈ s.types ++ s.snippetTypes, t.Sourced := by
      intro t member
      obtain ⟨u, inside, rfl⟩ := (each t).mp member
      exact (Assembly.sourced_of_repaired lines front endings u inside).relink
        (Assembly.comma_target endings)
    have apart : ∀ id ∈ Assembly.ids es, ',' ∉ id.toList :=
      Assembly.not_comma_of_mem_ids lines commaless
    have canonical : s.IsCanonical := by
      rw [isCanonical_iff_of_sourced integral stats sourced]
      intro t member
      obtain ⟨u, inside, rfl⟩ := (each t).mp member
      exact Assembly.told_of_repaired lines front apart unknown u inside
    exact canonical.parse_text fresh .strict

theorem parse_text_of_loose_unrepaired : ∃ s,
    parse numbered .loose .standard unrepaired = .ok s ∧
      s.types.map (·.id) = ["a", "b", "b-" ++ numbered 0, "q", "s-" ++ numbered 1] ∧
      s.snippetTypes.map (·.id) = ["s", "z"] ∧
      parse numbered .strict .standard (s.text .standard) = .ok s := by
  let es := (entries .standard unrepaired).toOption.getD []
  let s := (parse numbered .loose .standard unrepaired).toOption.getD {}
  have described : entries .standard unrepaired = .ok es := by decide +kernel
  have commaless : ∀ e ∈ es, (∀ id ∈ e.property.typeId?, ',' ∉ id.toList) ∧
      ∀ id ∈ e.property.snippetId?, ',' ∉ id.toList := by decide +kernel
  have new : Assembly.Fresh numbered es := ⟨by decide +kernel, by decide +kernel⟩
  have endings : Assembly.Endings numbered := by
    intro n c member
    rw [numbered, String.toList_append, List.mem_append] at member
    obtain first | rest := member
    · rw [Nat.repr_eq_ofList_toDigits, String.toList_ofList] at first
      have digit : c.isDigit := Nat.isDigit_of_mem_toDigits (by decide) (by decide) first
      simp [Char.isAlphanum, digit]
    · have plain : ∀ c ∈ "0000000-0000-4000-8000-000000000000".toList,
          c.isAlphanum ∨ c = '-' := by decide +kernel
      exact plain c rest
  have parsed : parse numbered .loose .standard unrepaired = .ok s := by decide +kernel
  have links : ∀ id ∈ (Assembly.references es).links,
      Grammar.standard.kindFor? id = none := by decide +kernel
  have snippets : ∀ id ∈ (Assembly.references es).snippets,
      Grammar.standard.kindFor? id = none := by decide +kernel
  exact ⟨s, parsed, by decide +kernel, by decide +kernel,
    (parse_text_of_loose described commaless new endings parsed).mpr
      fun id referred => referred.elim (links id) (snippets id)⟩

/-- A reference to a snippet by the name of a kind is repaired, but not in the text of the repair. -/
theorem parse_text_of_loose_kind : ∃ s,
    parse numbered .loose .standard "A a\n ...Text\n" = .ok s ∧
      s.text .standard = "A a\n  ...Text\nText Text\n" ∧
      parse numbered .strict .standard (s.text .standard) = .error (.undescribedSnippet "Text") := by
  let s := (parse numbered .loose .standard "A a\n ...Text\n").toOption.getD {}
  exact ⟨s, by decide +kernel, by decide +kernel, by decide +kernel⟩

end Schema

end ContentSchema
