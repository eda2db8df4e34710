import ContentSchema.Description.Clause
import ContentSchema.Grammar.Standard
import ContentSchema.Proofs.Token.Detail
import ContentSchema.Proofs.Token.Range
import ContentSchema.Schema.Text
/-!
What a written option says. Where a grammar keeps the options apart (`Grammar.Legible`), each option
that is written for a property is read as what it was written for. What an option says tells of what
form it is (`Clause.Origin`).
-/
namespace ContentSchema

/-- No written option is taken for another one, or for a part of a line. -/
structure Grammar.Legible (g : Grammar) : Prop where
  counts : g.CountsEnd
  digits : ∀ c : Char, c.isDigit → g.IsPlain c
  marks : ∀ c ∈ [g.moreOrLess, g.range, g.required], g.IsPlain c
  required_count : ¬ g.required.isDigit ∧ g.required ≠ g.moreOrLess
  required_flag : ∀ f : Format, f.token ≠ g.required.toString
  names : ∀ name ∈ ["words", "characters", "tables"], g.IsWord name
  flags : ∀ f : Format, g.IsWord f.token

theorem Grammar.standard_legible : Grammar.standard.Legible := by
  constructor
  case counts => exact ⟨by decide, by decide⟩
  case digits =>
    intro c digit
    have reserved : ∀ c ∈ Grammar.standard.reservedChars, ¬ c.isDigit := by decide
    have skipped : ∀ c ∈ Grammar.standard.skip, ¬ c.isDigit := by decide
    constructor
    · intro isReserved
      exact reserved c (Grammar.isReserved_iff.mp isReserved) digit
    · intro isSkipped
      exact skipped c isSkipped digit
  case marks => decide
  case required_count => exact ⟨by decide, by decide⟩
  case required_flag => intro f; cases f <;> decide
  case names =>
    have plain : ∀ name ∈ ["words", "characters", "tables"],
        name ≠ "" ∧ ∀ c ∈ name.toList, Grammar.standard.IsPlain c := by decide
    exact fun name member => ⟨(plain name member).1, (plain name member).2⟩
  case flags =>
    have plain : ∀ f ∈ Format.all,
        f.token ≠ "" ∧ ∀ c ∈ f.token.toList, Grammar.standard.IsPlain c := by decide
    exact fun f => ⟨(plain f f.mem_all).1, (plain f f.mem_all).2⟩

namespace Grammar.Legible

variable {g : Grammar} (legible : g.Legible)
include legible

theorem isWord_ofCount (n : UInt32) : g.IsWord (Decimal.ofCount n) := by
  constructor
  · intro empty
    exact Decimal.ofCount_ne_nil n (by rw [empty]; rfl)
  · intro c member
    exact legible.digits c (Decimal.isDigit_of_mem_ofCount member)

theorem isWord_range {r : CountRange} {token : String} (written : r.token? g = some token) :
    g.IsWord token := by
  obtain ⟨chars, c, first, -⟩ := CountRange.mem_token written
  constructor
  · intro empty
    simp [empty] at first
  · intro c member
    obtain digit | same | same := chars c member
    · exact legible.digits c digit
    · exact legible.marks c (by simp [same])
    · exact legible.marks c (by simp [same])

theorem isWord_required : g.IsWord g.required.toString :=
  ⟨by simp, by simpa using legible.marks g.required (by simp)⟩

end Grammar.Legible

namespace Clause

/-- The option that says it. -/
def token (g : Grammar) : Clause → String
  | required => g.required.toString
  | images => "images"
  | range r => (r.token? g).getD ""
  | format f => f.token
  | words values => Detail.token g { name := "words", values }
  | characters values => Detail.token g { name := "characters", values }
  | tables values => Detail.token g { name := "tables", values }
  | choice text => text

/-- The option says just this of a property of the kind. -/
def Said (g : Grammar) (kind : Kind) (token : String) (c : Clause) : Prop :=
  ofToken g kind token = .ok (some c)

variable {g : Grammar} {kind : Kind} {text : String}

theorem said_required (type : kind ≠ .type) (snippet : kind ≠ .snippet) :
    Said g kind g.required.toString .required := by
  cases kind <;> simp_all [Said, ofToken]

theorem isChar_eq_false (other : text ≠ g.required.toString) :
    Text.isChar g.required text = false := by
  rw [Bool.eq_false_iff]
  exact fun same => other (Text.isChar_iff.mp same)

theorem said_choice (choice : kind = .singleChoice ∨ kind = .multipleChoice)
    (unmarked : text ≠ g.required.toString) : Said g kind text (.choice text) := by
  obtain rfl | rfl := choice <;> simp [Said, ofToken, isChar_eq_false unmarked]

/-- A range has two characters at most that are no digits. -/
theorem range_ne_images {r : CountRange} (written : r.token? g = some text) : text ≠ "images" := by
  intro same
  have chars := (CountRange.mem_token written).1
  have mark (c : Char) (other : c.isDigit = false) (member : c ∈ "images".toList) :
      c = g.moreOrLess ∨ c = g.range := by
    have sort := chars c (same ▸ member)
    simpa [other] using sort
  have i := mark 'i' (by decide) (by decide)
  have m := mark 'm' (by decide) (by decide)
  have a := mark 'a' (by decide) (by decide)
  grind

theorem said_range (ends : g.CountsEnd) (unmarked : ¬ g.required.isDigit)
    (ranged : kind = .linkedItems ∨ kind = .asset) {r : CountRange} (bounded : r ≠ {}) :
    Said g kind (token g (range r)) (range r) := by
  obtain ⟨text, written⟩ := Option.ne_none_iff_exists'.mp
    (mt (CountRange.token?_eq_none_iff (g := g)).mp bounded)
  have other : Text.isChar g.required text = false := by
    apply isChar_eq_false
    rintro rfl
    obtain ⟨c, member, digit⟩ := (CountRange.spells_token written).exists_digit
    have same : c = g.required := by simpa using member
    exact unmarked (same ▸ digit)
  have read := CountRange.ofToken_token ends written
  rw [Said, token, written, Option.getD_some]
  obtain rfl | rfl := ranged
  · simp [ofToken, ofRange, other, read, Functor.map, Except.map]
  · simp [ofToken, ofRange, other, read, Functor.map, Except.map, range_ne_images written]

def detailNames : List String := ["words", "characters", "tables"]

/-- The option of a detail is no other option. -/
theorem detail_apart {d : Detail} (known : d.name ∈ detailNames) :
    Text.isChar g.required (d.token g) = false ∧ Format.ofToken? (d.token g) = none := by
  have written := Detail.toList_token g d
  constructor
  · apply isChar_eq_false
    intro same
    rw [same] at written
    have long := congrArg List.length written
    simp at long
    omega
  · cases found : Format.ofToken? (d.token g) with
    | none => rfl
    | some f =>
      have apart : ∀ name ∈ detailNames, ∀ f ∈ Format.all, ¬ name.toList <+: f.token.toList := by
        decide
      rw [← Format.token_of_ofToken? found] at written
      exact absurd ⟨_, written.symm⟩ (apart d.name known f f.mem_all)

theorem ofToken_detail {d : Detail} (known : d.name ∈ detailNames) (name : g.IsPhrase d.name)
    (values : ∀ v ∈ d.values, g.IsPhrase v) :
    ofToken g .text (d.token g) = .ok (ofDetail d) ∧
      ofToken g .richText (d.token g) = .ok (ofRichDetail d) := by
  have read := Detail.ofToken_token name values
  obtain ⟨required, flag⟩ := detail_apart (g := g) known
  constructor <;> simp [ofToken, required, flag, read, Functor.map, Except.map]

variable {values : List String} (phrases : ∀ v ∈ values, g.IsPhrase v)
include phrases

theorem said_words (limited : kind = .text ∨ kind = .richText) (name : g.IsPhrase "words") :
    Said g kind (token g (words values)) (words values) := by
  obtain ⟨text, rich⟩ :=
    ofToken_detail (d := { name := "words", values }) (by simp [detailNames]) name phrases
  obtain rfl | rfl := limited
  · exact text
  · exact rich

theorem said_characters (limited : kind = .text ∨ kind = .richText)
    (name : g.IsPhrase "characters") :
    Said g kind (token g (characters values)) (characters values) := by
  obtain ⟨text, rich⟩ :=
    ofToken_detail (d := { name := "characters", values }) (by simp [detailNames]) name phrases
  obtain rfl | rfl := limited
  · exact text
  · exact rich

theorem said_tables (name : g.IsPhrase "tables") :
    Said g .richText (token g (tables values)) (tables values) :=
  (ofToken_detail (d := { name := "tables", values }) (by simp [detailNames]) name phrases).2

end Clause

/-! How an option comes to say something -/

namespace Clause

/-- Each clause has one form of option, and the kinds that have the option. -/
inductive Origin (g : Grammar) : Kind → String → Clause → Prop where
  | required {kind : Kind} : Origin g kind g.required.toString .required
  | images : Origin g .asset "images" .images
  | range {kind : Kind} {text : String} {r : CountRange} : kind = .linkedItems ∨ kind = .asset →
      CountRange.ofToken g text = .ok (some r) → Origin g kind text (.range r)
  | format (f : Format) : Origin g .richText f.token (.format f)
  | words {kind : Kind} {text : String} {values : List String} : kind = .text ∨ kind = .richText →
      Detail.ofToken g text = .ok (some { name := "words", values }) →
      Origin g kind text (.words values)
  | characters {kind : Kind} {text : String} {values : List String} :
      kind = .text ∨ kind = .richText →
      Detail.ofToken g text = .ok (some { name := "characters", values }) →
      Origin g kind text (.characters values)
  | tables {text : String} {values : List String} :
      Detail.ofToken g text = .ok (some { name := "tables", values }) →
      Origin g .richText text (.tables values)
  | choice {kind : Kind} {text : String} : kind = .singleChoice ∨ kind = .multipleChoice →
      text ≠ g.required.toString → Origin g kind text (.choice text)

variable {g : Grammar} {kind : Kind} {text : String} {c : Clause}

theorem of_map_eq_ok {α : Type} {f : α → Option Clause} {read : Except ParseError α}
    (mapped : f <$> read = .ok (some c)) : ∃ a, read = .ok a ∧ f a = some c := by
  cases read with
  | error e => contradiction
  | ok a => exact ⟨a, rfl, Except.ok.inj mapped⟩

theorem origin_of_ofRange (ranged : kind = .linkedItems ∨ kind = .asset)
    (said : ofRange g text = .ok (some c)) : Origin g kind text c := by
  obtain ⟨r, read, same⟩ := of_map_eq_ok said
  obtain ⟨r, rfl, rfl⟩ := Option.map_eq_some_iff.mp same
  exact .range ranged read

theorem origin_of_ofDetail {d : Detail} (limited : kind = .text ∨ kind = .richText)
    (read : Detail.ofToken g text = .ok (some d)) (same : ofDetail d = some c) :
    Origin g kind text c := by
  obtain ⟨name, values⟩ := d
  rw [ofDetail] at same
  split at same
  · next named =>
    cases same
    exact .words limited (named ▸ read)
  · split at same
    · next named =>
      cases same
      exact .characters limited (named ▸ read)
    · contradiction

theorem origin_of_ofRichDetail {d : Detail} (read : Detail.ofToken g text = .ok (some d))
    (same : ofRichDetail d = some c) : Origin g .richText text c := by
  rw [ofRichDetail] at same
  split at same
  · next named =>
    obtain ⟨name, values⟩ := d
    cases same
    exact .tables (named ▸ read)
  · exact origin_of_ofDetail (.inr rfl) read same

theorem origin_of_said (said : Said g kind text c) : Origin g kind text c := by
  rw [Said] at said
  by_cases mark : text = g.required.toString
  · subst mark
    have same : c = .required := by
      cases kind <;> simp_all [ofToken]
    rw [same]
    exact .required
  have other := isChar_eq_false mark
  cases kind <;> simp only [ofToken, other, Bool.false_eq_true, if_false] at said
  case linkedItems => exact origin_of_ofRange (.inl rfl) said
  case asset =>
    split at said
    · next images =>
      cases said
      exact images ▸ .images
    · exact origin_of_ofRange (.inr rfl) said
  case text =>
    obtain ⟨d, read, same⟩ := of_map_eq_ok said
    obtain ⟨d, rfl, same⟩ := Option.bind_eq_some_iff.mp same
    exact origin_of_ofDetail (.inl rfl) read same
  case richText =>
    split at said
    · next f isFormat =>
      cases said
      rw [← Format.token_of_ofToken? isFormat]
      exact .format f
    · obtain ⟨d, read, same⟩ := of_map_eq_ok said
      obtain ⟨d, rfl, same⟩ := Option.bind_eq_some_iff.mp same
      exact origin_of_ofRichDetail read same
  case singleChoice =>
    cases said
    exact .choice (.inl rfl) mark
  case multipleChoice =>
    cases said
    exact .choice (.inr rfl) mark
  all_goals simp at said

end Clause

/-! What a property says -/

namespace Clause

def ofBounds (r : CountRange) : List Clause := if r = {} then [] else [range r]

def ofLimits (wordLimit characterLimit : Option UInt32) : List Clause :=
  (wordLimit.map fun n => words [Decimal.ofCount n]).toList ++
    (characterLimit.map fun n => characters [Decimal.ofCount n]).toList

theorem mem_ofBounds {r : CountRange} {c : Clause} : c ∈ ofBounds r ↔ r ≠ {} ∧ c = range r := by
  by_cases empty : r = {} <;> simp [ofBounds, empty]

theorem mem_ofLimits {wordLimit characterLimit : Option UInt32} {c : Clause} :
    c ∈ ofLimits wordLimit characterLimit ↔
      (∃ n, wordLimit = some n ∧ c = words [Decimal.ofCount n]) ∨
        ∃ n, characterLimit = some n ∧ c = characters [Decimal.ofCount n] := by
  rw [ofLimits, List.mem_append, Option.mem_toList, Option.mem_toList, Option.map_eq_some_iff,
    Option.map_eq_some_iff]
  simp only [eq_comm]

theorem map_token_ofBounds (g : Grammar) (r : CountRange) :
    (ofBounds r).map (token g) = (r.token? g).toList := by
  rw [ofBounds]
  cases written : r.token? g with
  | none => rw [if_pos (CountRange.token?_eq_none_iff.mp written)]; rfl
  | some text =>
    have bounded : r ≠ {} := by
      intro empty
      simp [CountRange.token?_eq_none_iff.mpr empty] at written
    simp [bounded, token, written]

theorem map_token_ofLimits (g : Grammar) (wordLimit characterLimit : Option UInt32) :
    (ofLimits wordLimit characterLimit).map (token g) =
      Property.limitTokens g wordLimit characterLimit := by
  cases wordLimit <;> cases characterLimit <;> rfl

end Clause

/-- What the options of a content say, in the order in which they are written. -/
def Content.clauses : Content → List Clause
  | .linkedItems _ range => Clause.ofBounds range
  | .asset mode range => (if mode = .images then [.images] else []) ++ Clause.ofBounds range
  | .text words characters => Clause.ofLimits words characters
  | .singleChoice options => options.map .choice
  | .multipleChoice options => options.map .choice
  | .richText r =>
    r.formatting.enabled.map .format ++
      (if r.tables then [.tables (Property.flags r.tableFormatting)] else []) ++
      Clause.ofLimits r.words r.characters
  | _ => []

namespace Property

def clauses (p : Property) : List Clause :=
  p.content.clauses ++ if p.required then [.required] else []

theorem contentTokens_eq_map (g : Grammar) (c : Content) :
    contentTokens g c = c.clauses.map (Clause.token g) := by
  cases c with
  | linkedItems ids range => exact (Clause.map_token_ofBounds g range).symm
  | asset mode range =>
    rw [Content.clauses, List.map_append, Clause.map_token_ofBounds]
    cases mode <;> rfl
  | text words characters => exact (Clause.map_token_ofLimits g words characters).symm
  | singleChoice options => simp [contentTokens, Content.clauses, Clause.token, Function.comp_def]
  | multipleChoice options => simp [contentTokens, Content.clauses, Clause.token, Function.comp_def]
  | richText r =>
    rw [Content.clauses, List.map_append, List.map_append, Clause.map_token_ofLimits, List.map_map]
    cases tables : r.tables <;> rw [contentTokens, tables] <;> rfl
  | _ => rfl

/-- The options of a property are those that say what it has. -/
theorem tokens_eq_map (g : Grammar) (p : Property) : p.tokens g = p.clauses.map (Clause.token g) := by
  rw [tokens, contentTokens_eq_map, clauses, List.map_append]
  cases p.required <;> rfl

end Property

namespace Content

/-- Whether the options of a content can give it: a choice is not the required mark, and formats in
tables need tables. -/
def Told (g : Grammar) : Content → Prop
  | singleChoice options => ∀ v ∈ options, v ≠ g.required.toString
  | multipleChoice options => ∀ v ∈ options, v ≠ g.required.toString
  | richText r => r.tables = false → r.tableFormatting = {}
  | _ => True

end Content

namespace Grammar.Legible

variable {g : Grammar} (legible : g.Legible)
include legible

theorem isPhrase_ofCount (n : UInt32) : ∀ v ∈ [Decimal.ofCount n], g.IsPhrase v := by
  rw [List.forall_mem_singleton]
  exact (legible.isWord_ofCount n).isPhrase

theorem isPhrase_flags (s : Formatting) : ∀ v ∈ Property.flags s, g.IsPhrase v := by
  intro v member
  obtain ⟨f, -, rfl⟩ := List.mem_map.mp member
  exact (legible.flags f).isPhrase

theorem isPhrase_name {name : String} (known : name ∈ Clause.detailNames) : g.IsPhrase name :=
  (legible.names name known).isPhrase

theorem said_contentClauses {content : Content} (told : content.Told g) :
    ∀ c ∈ content.clauses, Clause.Said g content.kind (c.token g) c := by
  have ranged {kind : Kind} (ranged : kind = .linkedItems ∨ kind = .asset) (r : CountRange) :
      ∀ c ∈ Clause.ofBounds r, Clause.Said g kind (c.token g) c := by
    intro c member
    obtain ⟨bounded, rfl⟩ := Clause.mem_ofBounds.mp member
    exact Clause.said_range legible.counts legible.required_count.1 ranged bounded
  have limited {kind : Kind} (limited : kind = .text ∨ kind = .richText)
      (words characters : Option UInt32) :
      ∀ c ∈ Clause.ofLimits words characters, Clause.Said g kind (c.token g) c := by
    intro c member
    obtain ⟨n, -, rfl⟩ | ⟨n, -, rfl⟩ := Clause.mem_ofLimits.mp member
    · exact Clause.said_words (legible.isPhrase_ofCount n) limited (legible.isPhrase_name (by decide))
    · exact Clause.said_characters (legible.isPhrase_ofCount n) limited
        (legible.isPhrase_name (by decide))
  have choice {kind : Kind} (choice : kind = .singleChoice ∨ kind = .multipleChoice)
      {options : List String} (unmarked : ∀ v ∈ options, v ≠ g.required.toString) :
      ∀ c ∈ options.map Clause.choice, Clause.Said g kind (c.token g) c := by
    intro c member
    obtain ⟨v, listed, rfl⟩ := List.mem_map.mp member
    exact Clause.said_choice choice (unmarked v listed)
  intro c member
  cases content with
  | linkedItems ids range => exact ranged (.inl rfl) range c member
  | asset mode range =>
    obtain images | member := List.mem_append.mp member
    · cases mode with
      | none => contradiction
      | images =>
        have other := Clause.isChar_eq_false (legible.required_flag .images)
        simp only [Format.token] at other
        rw [List.mem_singleton.mp images]
        simp [Clause.Said, Clause.token, Clause.ofToken, Content.kind, other]
    · exact ranged (.inr rfl) range c member
  | text words characters => exact limited (.inl rfl) words characters c member
  | singleChoice options => exact choice (.inl rfl) told c member
  | multipleChoice options => exact choice (.inr rfl) told c member
  | richText r =>
    rw [Content.clauses, List.mem_append, List.mem_append] at member
    obtain (format | tables) | limit := member
    · obtain ⟨f, -, rfl⟩ := List.mem_map.mp format
      have other := Clause.isChar_eq_false (legible.required_flag f)
      simp [Clause.Said, Clause.token, Clause.ofToken, Content.kind, other]
    · cases with_ : r.tables with
      | false => simp [with_] at tables
      | true =>
        rw [with_, if_pos rfl, List.mem_singleton] at tables
        rw [tables]
        exact Clause.said_tables (legible.isPhrase_flags r.tableFormatting)
          (legible.isPhrase_name (by decide))
    · exact limited (.inr rfl) r.words r.characters c limit
  | _ => contradiction

/-- Each option that is written for a property says what it is written for. -/
theorem said_clauses {p : Property} (told : p.content.Told g)
    (optional : p.kind = .type ∨ p.kind = .snippet → p.required = false) :
    ∀ c ∈ p.clauses, Clause.Said g p.kind (c.token g) c := by
  intro c member
  obtain content | mark := List.mem_append.mp member
  · exact said_contentClauses legible told c content
  · cases required : p.required with
    | false => simp [required] at mark
    | true =>
      rw [required, if_pos rfl, List.mem_singleton] at mark
      rw [mark]
      apply Clause.said_required
      · exact fun same => by simp [optional (.inl same)] at required
      · exact fun same => by simp [optional (.inr same)] at required

end Grammar.Legible

end ContentSchema
