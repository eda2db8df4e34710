import ContentSchema.Description.Basic
import ContentSchema.Proofs.Description.Conflict
/-!
What the options of a line come to. A line is refused exactly if its options conflict, and otherwise
its property has just what they supply (`Line.describe_by_options`).
-/
namespace ContentSchema

/-! What options supply -/

/-- The value is what each option gives that gives any, and the default where none does. -/
structure SettledBy {α : Type} (tokens : List String) (gives : String → α → Prop)
    (default value : α) : Prop where
  given : ∀ t ∈ tokens, ∀ a, gives t a → value = a
  missing : (∀ t ∈ tokens, ∀ a, ¬ gives t a) → value = default

def GivesRange (g : Grammar) (token : String) (r : CountRange) : Prop :=
  CountRange.read? g token.toList = some r

/-- A limit may be given without a number. -/
def GivesLimit (g : Grammar) (name token : String) (n : Option UInt32) : Prop :=
  ∃ values, Detail.Spells g token { name, values } ∧ n = Supply.limitOf values

def GivesTables (g : Grammar) (token : String) (formats : Formatting) : Prop :=
  ∃ values, Detail.Spells g token { name := "tables", values } ∧
    formats = Supply.formatsOf values

/-- What a line of the kind holds, by its identifier and its options. -/
def Content.SuppliedBy (g : Grammar) (identifier : String) (tokens : List String) (kind : Kind)
    (content : Content) : Prop :=
  match kind with
  | .type => content = .type identifier
  | .snippet => content = .snippet identifier
  | .linkedItems => ∃ range,
      content = .linkedItems (((Text.split g.arrayDelimiter identifier).map
        (Text.trim g.space)).filter (· ≠ "")) range ∧
      SettledBy (kind.others g tokens) (GivesRange g) {} range
  | .asset => ∃ mode range, content = .asset mode range ∧ (mode = .images ↔ "images" ∈ tokens) ∧
      SettledBy (kind.others g tokens) (GivesRange g) {} range
  | .text => ∃ words characters, content = .text words characters ∧
      SettledBy (kind.others g tokens) (GivesLimit g "words") none words ∧
      SettledBy (kind.others g tokens) (GivesLimit g "characters") none characters
  | .date => content = .date
  | .number => content = .number
  | .singleChoice => content = .singleChoice (tokens.filter (· ≠ g.required.toString))
  | .multipleChoice => content = .multipleChoice (tokens.filter (· ≠ g.required.toString))
  | .richText => ∃ r : RichText, content = .richText r ∧
      SettledBy (kind.others g tokens) (GivesLimit g "words") none r.words ∧
      SettledBy (kind.others g tokens) (GivesLimit g "characters") none
        r.characters ∧
      (∀ f, r.formatting.allows f ↔ f.token ∈ tokens ∧ f.token ≠ g.required.toString) ∧
      (r.tables ↔ ∃ t ∈ kind.others g tokens, Detail.Named g "tables" t) ∧
      SettledBy (kind.others g tokens) (GivesTables g) {} r.tableFormatting ∧
      r.components = [] ∧ r.isComponentParent = false
  | .custom => content = .custom

/-! What says which clause -/

namespace Clause

variable {g : Grammar} {kind : Kind} {token : String}

theorem said_required_iff : Said g kind token required ↔
    (kind ≠ .type ∧ kind ≠ .snippet) ∧ token = g.required.toString := by
  constructor
  · intro said
    refine ⟨⟨?_, ?_⟩, by cases origin_of_said said; rfl⟩
    · rintro rfl
      cases said
    · rintro rfl
      cases said
  · rintro ⟨⟨type, snippet⟩, rfl⟩
    exact said_required type snippet

theorem said_images_iff : Said g .asset token images ↔ token = "images" := by
  constructor
  · intro said
    cases origin_of_said said
    rfl
  · rintro rfl
    have unmarked : "images" ≠ g.required.toString := by
      intro same
      simpa using congrArg String.toList same
    simp [Said, ofToken, isChar_eq_false unmarked]

theorem said_format_iff {f : Format} :
    Said g .richText token (format f) ↔ token = f.token ∧ token ≠ g.required.toString := by
  constructor
  · intro said
    cases origin_of_said said
    refine ⟨rfl, fun mark => ?_⟩
    have marked : Said g .richText f.token required := mark ▸ said_required nofun nofun
    cases marked.symm.trans said
  · rintro ⟨rfl, unmarked⟩
    simp [Said, ofToken, isChar_eq_false unmarked]

/-- The clauses of details, with the name that each detail has, and its kinds. -/
inductive Detailed : Kind → String → (List String → Clause) → Prop where
  | words {kind : Kind} : kind = .text ∨ kind = .richText → Detailed kind "words" words
  | characters {kind : Kind} : kind = .text ∨ kind = .richText →
      Detailed kind "characters" characters
  | tables {kind : Kind} : kind = .richText → Detailed kind "tables" tables

theorem said_detail_iff {name : String} {clause : List String → Clause} {values : List String}
    (detailed : Detailed kind name clause) (other : kind.isFlag g token = false) :
    Said g kind token (clause values) ↔ Detail.Spells g token { name, values } := by
  rw [← Detail.ofToken_eq_some_iff]
  constructor
  · intro said
    have origin := origin_of_said said
    cases detailed <;> cases origin <;> assumption
  · intro read
    rw [Said, ofToken_of_not_flag other]
    cases detailed with
    | words limited => obtain rfl | rfl := limited <;> rw [ofOther, read] <;> rfl
    | characters limited => obtain rfl | rfl := limited <;> rw [ofOther, read] <;> rfl
    | tables rich =>
      subst rich
      rw [ofOther, read]
      rfl

end Clause

variable {g : Grammar} {kind : Kind} {tokens : List String}

theorem not_flag_of_mem_others {t : String} (listed : t ∈ kind.others g tokens) :
    t ∈ tokens ∧ kind.isFlag g t = false := by
  simpa [Kind.others] using listed

theorem mem_others_of_said {t : String} {c : Clause} (listed : t ∈ tokens)
    (said : Clause.Said g kind t c) (plain : ¬ c.IsFlag) : t ∈ kind.others g tokens := by
  refine List.mem_filter.mpr ⟨listed, ?_⟩
  rw [Bool.not_eq_true', Bool.eq_false_iff]
  intro flag
  have type : kind ≠ .type := by rintro rfl; cases said
  have snippet : kind ≠ .snippet := by rintro rfl; cases said
  obtain ⟨c', known, isFlag⟩ := Clause.said_of_flag type snippet flag
  cases known.symm.trans said
  exact plain isFlag

namespace Supply

variable {s : Supply} (supplied : ofTokens g kind tokens = .ok s)
include supplied

theorem has_flag_iff {c : Clause} (flag : c.IsFlag) :
    s.Has c ↔ ∃ t ∈ tokens, Clause.Said g kind t c := by
  constructor
  · intro has
    have held : ¬ s.Lacks c := by
      cases c <;> simp_all [Has, Lacks, Clause.IsFlag]
    rw [lacks_iff_of_ofTokens supplied] at held
    push Not at held
    obtain ⟨t, listed, c', said, clash⟩ := held
    exact ⟨t, listed, flag.eq_of_clashes clash.symm ▸ said⟩
  · rintro ⟨t, listed, said⟩
    exact has_of_said supplied listed said

/-- What is settled by the clauses of one sort is settled by the options that say them. -/
theorem settledBy_of_said {α β : Type} (clause : α → Clause) (meaning : α → β) (any : α)
    {gives : String → β → Prop} {default value : β}
    (sort : ∀ c, c.Clashes (clause any) → ¬ c.IsFlag ∧ ∃ x, c = clause x)
    (has : ∀ x, s.Has (clause x) → value = meaning x)
    (lacks : s.Lacks (clause any) → value = default)
    (reads : ∀ t ∈ kind.others g tokens, ∀ b,
      gives t b ↔ ∃ x, Clause.Said g kind t (clause x) ∧ b = meaning x) :
    SettledBy (kind.others g tokens) gives default value := by
  constructor
  case given =>
    intro t other b given
    obtain ⟨x, said, rfl⟩ := (reads t other b).mp given
    exact has x (has_of_said supplied (not_flag_of_mem_others other).1 said)
  case missing =>
    intro none
    refine lacks ((lacks_iff_of_ofTokens supplied).mpr ?_)
    intro t listed c said clash
    obtain ⟨plain, x, rfl⟩ := sort c clash
    have other := mem_others_of_said listed said plain
    exact none t other _ ((reads t other _).mpr ⟨x, said, rfl⟩)

theorem settledBy_range (ranged : kind = .linkedItems ∨ kind = .asset) :
    SettledBy (kind.others g tokens) (GivesRange g) {} (s.range.getD {}) := by
  refine settledBy_of_said supplied .range id {} ?_ ?_ ?_ ?_
  · intro c clash
    cases c <;> simp_all [Clause.Clashes, Clause.IsFlag]
  · intro r has
    rw [has, Option.getD_some, id]
  · intro lacks
    rw [lacks, Option.getD_none]
  · intro t other r
    obtain ⟨listed, other⟩ := not_flag_of_mem_others other
    have known : Clause.ofToken g kind t = Clause.ofRange g t := by
      rw [Clause.ofToken_of_not_flag other]
      obtain rfl | rfl := ranged <;> rfl
    have begins : t.toList.head? ≠ some g.range := by
      intro begins
      obtain ⟨e, refused⟩ := Clause.exists_ofRange_error_iff.mpr begins
      exact (ofTokens_eq_ok_iff.mp supplied).1 t listed e (known.trans refused)
    simp [Clause.Said, known, Clause.ofRange_eq_some_iff, begins, GivesRange]

/-- What a detail gives is settled by the options that are the detail. -/
theorem settledBy_detail {β : Type} {name : String} {clause : List String → Clause}
    (detailed : Clause.Detailed kind name clause) (meaning : List String → β) {default value : β}
    (has : ∀ values, s.Has (clause values) → value = meaning values)
    (lacks : s.Lacks (clause []) → value = default) :
    SettledBy (kind.others g tokens)
      (fun t b => ∃ values, Detail.Spells g t { name, values } ∧ b = meaning values)
      default value := by
  refine settledBy_of_said supplied clause meaning [] ?_ has lacks ?_
  · intro c clash
    cases detailed <;> cases c <;> simp_all [Clause.Clashes, Clause.IsFlag]
  · intro t other b
    simp only [Clause.said_detail_iff detailed (not_flag_of_mem_others other).2]

theorem settledBy_words (limited : kind = .text ∨ kind = .richText) :
    SettledBy (kind.others g tokens) (GivesLimit g "words") none s.words.join :=
  settledBy_detail supplied (.words limited) limitOf
    (fun values has => by rw [has, Option.join_some]) fun lacks => by rw [lacks, Option.join_none]

theorem settledBy_characters (limited : kind = .text ∨ kind = .richText) :
    SettledBy (kind.others g tokens) (GivesLimit g "characters") none s.characters.join :=
  settledBy_detail supplied (.characters limited) limitOf
    (fun values has => by rw [has, Option.join_some]) fun lacks => by rw [lacks, Option.join_none]

theorem settledBy_tables (rich : kind = .richText) :
    SettledBy (kind.others g tokens) (GivesTables g) {} (s.tables.getD {}) :=
  settledBy_detail supplied (.tables rich) formatsOf
    (fun values has => by rw [has, Option.getD_some]) fun lacks => by rw [lacks, Option.getD_none]

theorem isSome_tables_iff (rich : kind = .richText) :
    s.tables.isSome ↔ ∃ t ∈ kind.others g tokens, Detail.Named g "tables" t := by
  have settled : SettledBy (kind.others g tokens) (fun t b => ∃ values,
      Detail.Spells g t { name := "tables", values } ∧ b = true) false s.tables.isSome :=
    settledBy_detail supplied (.tables rich) (fun _ => true)
      (fun values has => by rw [has, Option.isSome_some]) fun lacks => by rw [lacks, Option.isSome_none]
  constructor
  · intro has
    by_contra none
    have lacks := settled.missing fun t other b ⟨values, spells, _⟩ => none ⟨t, other, values, spells⟩
    simp [has] at lacks
  · rintro ⟨t, other, values, spells⟩
    exact settled.given t other true ⟨values, spells, rfl⟩

theorem choices_eq (choice : kind = .singleChoice ∨ kind = .multipleChoice) :
    s.choices = tokens.filter (· ≠ g.required.toString) := by
  obtain ⟨-, -, -, rfl⟩ := ofTokens_eq_ok_iff.mp supplied
  rw [choices_extendAll, clauses, List.filterMap_filterMap, ← List.filterMap_eq_filter]
  refine (List.nil_append _).trans (List.filterMap_congr fun t _ => ?_)
  by_cases mark : t = g.required.toString
  · subst mark
    have said : Clause.said? g kind g.required.toString = some .required := by
      rw [Clause.said?_eq_some_iff]
      obtain rfl | rfl := choice <;> exact Clause.said_required (by decide) (by decide)
    simp only [said, Option.bind_some, Option.guard, ne_eq, not_true_eq_false, decide_false,
      Bool.false_eq_true, if_false]
  · have said := Clause.said?_eq_some_iff.mpr (Clause.said_choice choice mark)
    simp only [said, Option.bind_some, Option.guard, ne_eq, mark, not_false_eq_true, decide_true,
      if_true]

end Supply

namespace Line

variable {l : Line} {p : Property}

/-- What a property has of the options of its line. -/
structure Supplied (g : Grammar) (l : Line) (kind : Kind) (p : Property) : Prop where
  label : p.label = l.label.getD ""
  required : p.required ↔
    (kind ≠ .type ∧ kind ≠ .snippet) ∧ g.required.toString ∈ l.options.getD []
  content : p.content.SuppliedBy g l.identifier (l.options.getD []) kind

theorem supplied_of_ofTokens {g : Grammar} {kind : Kind} {s : Supply}
    (supplied : Supply.ofTokens g kind (l.options.getD []) = .ok s) :
    l.Supplied g kind
      { label := l.label.getD ""
        required := s.required
        content := s.content g l.identifier kind } := by
  constructor
  case label => rfl
  case required =>
    have said := Supply.has_flag_iff supplied (c := .required) trivial
    simp only [Clause.said_required_iff] at said
    grind [Supply.Has]
  case content =>
    cases kind
    case type => rfl
    case snippet => rfl
    case linkedItems => exact ⟨_, rfl, Supply.settledBy_range supplied (.inl rfl)⟩
    case asset =>
      refine ⟨_, _, rfl, ?_, Supply.settledBy_range supplied (.inr rfl)⟩
      have said := Supply.has_flag_iff supplied (c := .images) trivial
      simp only [Clause.said_images_iff, exists_eq_right] at said
      rw [← said, Supply.Has]
      cases s.images <;> simp
    case text =>
      exact ⟨_, _, rfl, Supply.settledBy_words supplied (.inl rfl),
        Supply.settledBy_characters supplied (.inl rfl)⟩
    case date => rfl
    case number => rfl
    case singleChoice => exact congrArg Content.singleChoice (Supply.choices_eq supplied (.inl rfl))
    case multipleChoice =>
      exact congrArg Content.multipleChoice (Supply.choices_eq supplied (.inr rfl))
    case richText =>
      refine ⟨_, rfl, Supply.settledBy_words supplied (.inr rfl),
        Supply.settledBy_characters supplied (.inr rfl), fun f => ?_,
        Supply.isSome_tables_iff supplied rfl, Supply.settledBy_tables supplied rfl, rfl, rfl⟩
      have said := Supply.has_flag_iff supplied (c := .format f) trivial
      simp only [Clause.said_format_iff] at said
      grind [Supply.Has]
    case custom => rfl

/-- A line is refused exactly if its options conflict, and otherwise describes a property that has
just what its options supply. -/
theorem describe_by_options {g : Grammar} {kind : Kind}
    (known : Kind.ofName? (l.kindName g) = some kind) :
    ((∃ e, l.describe g = .error e) ↔ Conflicts g (l.options.getD []) kind) ∧
      ∀ p, l.describe g = .ok p → l.Supplied g kind p := by
  rw [← exists_error_iff_conflicts, describe, known]
  cases supplied : Supply.ofTokens g kind (l.options.getD []) with
  | error e => simp [bind, Except.bind, supplied]
  | ok s =>
    have property := supplied_of_ofTokens supplied
    simpa [bind, Except.bind, pure, Except.pure, supplied] using property

/-- Every option of this line supplies something. -/
theorem describe_by_options_body :
    let l : Line :=
      { identifier := "RichText", label := some "Body"
        options := some ["b", "words(5)", "tables(p,ul)", "*"] }
    Kind.ofName? (l.kindName .standard) = some .richText ∧
      ¬ Conflicts .standard ["b", "words(5)", "tables(p,ul)", "*"] .richText ∧
      ∃ p, l.describe .standard = .ok p ∧ l.Supplied .standard .richText p := by
  intro l
  have known : Kind.ofName? (l.kindName .standard) = some .richText := by decide
  have outcome := describe_by_options known
  have succeeds : (l.describe .standard).toOption.isSome := by decide
  cases described : l.describe .standard with
  | error e => simp [described, Except.toOption] at succeeds
  | ok p =>
    refine ⟨known, fun conflicts => ?_, p, rfl, outcome.2 p described⟩
    obtain ⟨e, refused⟩ := outcome.1.mpr conflicts
    cases described.symm.trans refused

/-- A reference to a snippet passes over its options, the required mark among them. -/
theorem snippet_passes_over_required :
    let l : Line := { snippet := true, identifier := "S", options := some ["*"] }
    Kind.ofName? (l.kindName .standard) = some .snippet ∧
      ∃ p, l.describe .standard = .ok p ∧
        ¬ (p.required ↔ Grammar.standard.required.toString ∈ l.options.getD []) := by
  intro l
  refine ⟨by decide, { label := "", required := false, content := .snippet "S" }, rfl, ?_⟩
  decide

end Line

end ContentSchema
