import ContentSchema.Description.Basic
import ContentSchema.Proofs.Description.Supply
import ContentSchema.Proofs.Line.Form
/-!
The line of a property. What the reader finds in it is `Property.line`: the line has that form
(`form_text`), and it describes the property without its components (`describe_line`).
-/
namespace ContentSchema

namespace Grammar

variable {g : Grammar} {c : Char}

/-- A character that is kept, and does not end its line. -/
def Inline (g : Grammar) (c : Char) : Prop := c ≠ g.delimiter.head ∧ c ∉ g.skip

theorem inline_of_isPlain (plain : g.IsPlain c) : g.Inline c := by
  refine ⟨?_, plain.2⟩
  intro same
  apply plain.1
  simp [isReserved, opensDelimiter, same]

theorem inline_of_isReserved (reserved : g.isReserved c) (other : c ≠ g.delimiter.head) :
    g.Inline c :=
  ⟨other, fun skipped => g.not_reserved_of_skip c skipped (isReserved_iff.mp reserved)⟩

theorem inline_space : g.Inline g.space :=
  inline_of_isReserved (by simp [isReserved]) g.apart.1.2.2.2.2.2.2.2

theorem inline_structural (structural : g.isStructural c) : g.Inline c := by
  apply inline_of_isReserved
  · simp [isReserved, structural]
  · simp only [isStructural, Bool.or_eq_true, beq_iff_eq] at structural
    obtain (((rfl | rfl) | rfl) | rfl) | rfl := structural
    · exact g.apart.2.1.2.2.2.2.2.2
    · exact g.apart.2.2.1.2.2.2.2.2
    · exact g.apart.2.2.2.1.2.2.2.2
    · exact g.apart.2.2.2.2.1.2.2.2
    · exact g.apart.2.2.2.2.2.1.2.2

end Grammar

namespace Form

variable {g : Grammar} {cs rest : List Char} {inDetail : Bool}

theorem Closed.append (plain : ∀ c ∈ cs, c = g.space ∨ ¬ g.isReserved c)
    (closed : Closed g inDetail rest) : Closed g inDetail (cs ++ rest) := by
  induction cs with
  | nil => exact closed
  | cons c cs ih =>
    rw [List.forall_mem_cons] at plain
    exact .plain plain.1 (ih plain.2)

/-- Within a detail array delimiters may stand too. -/
theorem Closed.append_values
    (plain : ∀ c ∈ cs, c = g.arrayDelimiter ∨ c = g.space ∨ ¬ g.isReserved c)
    (closed : Closed g true rest) : Closed g true (cs ++ rest) := by
  induction cs with
  | nil => exact closed
  | cons c cs ih =>
    rw [List.forall_mem_cons] at plain
    obtain ⟨rfl | allowed, later⟩ := plain
    · exact .delimiter (ih later)
    · exact .plain allowed (ih later)

/-- An option as it is written, without spaces around it. -/
structure IsToken (g : Grammar) (token : String) : Prop where
  closed : Closed g false token.toList
  trimmed : Text.trim g.space token = token
  nonempty : token ≠ ""
  named : token.toList.head? ≠ some g.detailStart
  inline : ∀ c ∈ token.toList, g.Inline c

theorem IsToken.isPiece {token : String} (isToken : IsToken g token) : IsPiece g token.toList := by
  constructor
  case closed => exact isToken.closed
  case nonempty =>
    rw [String.ofList_toList, isToken.trimmed]
    exact isToken.nonempty
  case named =>
    rw [String.ofList_toList, isToken.trimmed]
    exact isToken.named

theorem head?_ne_of_isPhrase {phrase : String} (isPhrase : g.IsPhrase phrase) {c : Char}
    (reserved : g.isReserved c) (other : c ≠ g.space) : phrase.toList.head? ≠ some c :=
  fun first => (isPhrase.plain c (List.mem_of_head? first)).elim other fun plain => plain reserved

theorem inline_of_isPhrase {phrase : String} (isPhrase : g.IsPhrase phrase) :
    ∀ c ∈ phrase.toList, g.Inline c := by
  intro c member
  obtain rfl | plain := isPhrase.plain c member
  · exact Grammar.inline_space
  · exact Grammar.inline_of_isPlain ⟨plain, isPhrase.kept c member⟩

theorem isToken_of_isPhrase {phrase : String} (isPhrase : g.IsPhrase phrase) : IsToken g phrase := by
  constructor
  case closed => simpa using Closed.append isPhrase.plain .nil
  case trimmed => exact isPhrase.trimmed
  case nonempty => exact isPhrase.nonempty
  case named =>
    apply head?_ne_of_isPhrase isPhrase _ g.apart.1.2.2.2.1.symm
    simp [Grammar.isReserved, Grammar.isStructural]
  case inline => exact inline_of_isPhrase isPhrase

theorem isToken_detail {d : Detail} (name : g.IsPhrase d.name)
    (values : ∀ v ∈ d.values, g.IsPhrase v) : IsToken g (d.token g) := by
  have written := Detail.toList_token g d
  have first : (d.token g).toList.head? = d.name.toList.head? := by
    obtain ⟨c, cs, begins⟩ := List.exists_cons_of_ne_nil name.ne_nil
    simp [written, begins]
  have last : (d.token g).toList.getLast? = some g.detailEnd := by
    rw [written, ← List.cons_append, ← List.append_assoc, List.getLast?_concat]
  constructor
  case closed =>
    rw [written]
    apply Closed.append name.plain
    apply Closed.opened
    refine Closed.append_values ?_ (.ended .nil)
    intro c member
    obtain same | ⟨cs, listed, inside⟩ := Text.mem_intercalate member
    · exact .inl same
    · obtain ⟨v, isValue, rfl⟩ := List.mem_map.mp listed
      exact .inr ((values v isValue).plain c inside)
  case trimmed =>
    apply Text.trim_eq_self
    · rw [first]
      exact name.first
    · rw [last]
      simpa using g.apart.1.2.2.2.2.1.symm
  case nonempty =>
    intro empty
    simp [empty] at last
  case named =>
    rw [first]
    apply head?_ne_of_isPhrase name _ g.apart.1.2.2.2.1.symm
    simp [Grammar.isReserved, Grammar.isStructural]
  case inline =>
    intro c member
    rw [written, List.mem_append, List.mem_cons, List.mem_append, List.mem_singleton] at member
    obtain inName | rfl | inValues | rfl := member
    · exact inline_of_isPhrase name c inName
    · exact Grammar.inline_structural (by simp [Grammar.isStructural])
    · obtain rfl | ⟨cs, listed, inside⟩ := Text.mem_intercalate inValues
      · exact Grammar.inline_structural (by simp [Grammar.isStructural])
      · obtain ⟨v, isValue, rfl⟩ := List.mem_map.mp listed
        exact inline_of_isPhrase (values v isValue) c inside
    · exact Grammar.inline_structural (by simp [Grammar.isStructural])

theorem isOptions_join {tokens : List String} (isToken : ∀ t ∈ tokens, IsToken g t) :
    IsOptions g (Text.join g.arrayDelimiter tokens).toList tokens := by
  rw [Text.toList_join]
  by_cases empty : tokens = []
  · subst empty
    exact .none 0
  · have pieces : ∀ p ∈ tokens.map String.toList, IsPiece g p := by
      intro p member
      obtain ⟨t, listed, rfl⟩ := List.mem_map.mp member
      exact (isToken t listed).isPiece
    have trimmed : (tokens.map String.toList).map (fun p => Text.trim g.space (.ofList p)) =
        tokens := by
      rw [List.map_map, List.map_congr_left, List.map_id]
      intro t member
      simp only [Function.comp_apply, String.ofList_toList, id_eq, (isToken t member).trimmed]
    have options := IsOptions.pieces (by simpa using empty) pieces
    rwa [trimmed] at options

end Form

namespace Property

/-- The line of a property, as far as its text tells it. -/
def line (g : Grammar) (p : Property) : Line :=
  match p.content with
  | .snippet id => { snippet := true, identifier := id }
  | _ =>
    { identifier := p.identifier g
      options := if p.kind = .linkedItems ∨ p.tokens g ≠ [] then some (p.tokens g) else none
      label := if p.label = "" then none else some p.label }

/-- A label that goes on to the end of its line, and is all that stands there. -/
structure IsLabel (g : Grammar) (label : String) : Prop where
  isLabel : Form.IsLabel g label.toList []
  last : label.toList.getLast? ≠ some g.space
  inline : ∀ c ∈ label.toList, g.Inline c

/-- Whether the parts of the text of a property can be told from each other. -/
structure Written (g : Grammar) (p : Property) : Prop where
  identifier : Form.IsIdentifier g (p.line g).identifier.toList
  inline : ∀ c ∈ (p.line g).identifier.toList, g.Inline c
  tokens : ∀ t ∈ p.tokens g, Form.IsToken g t
  label : p.label ≠ "" → IsLabel g p.label

variable {g : Grammar} {p : Property}

theorem isTail_label {label : String} (isLabel : IsLabel g label) (n : Nat) :
    Form.IsTail g false (List.replicate n g.space ++ label.toList) (some label) := by
  have tail := Form.IsTail.label n rfl isLabel.isLabel (.inl rfl)
  rwa [String.ofList_toList, Text.trimEnd_eq_self isLabel.last, List.append_nil] at tail

theorem of_kind_ne_snippet (other : p.kind ≠ .snippet) :
    p.line g =
      { identifier := p.identifier g
        options := if p.kind = .linkedItems ∨ p.tokens g ≠ [] then some (p.tokens g) else none
        label := if p.label = "" then none else some p.label } ∧
    p.text g = p.identifier g ++ p.brackets g ++
      if p.label = "" then "" else g.space.toString ++ p.label := by
  obtain ⟨label, required, content⟩ := p
  cases content with
  | snippet id => exact absurd rfl other
  | _ => exact ⟨rfl, rfl⟩

theorem isTail_written (written : p.Written g) :
    Form.IsTail g false (if p.label = "" then "" else g.space.toString ++ p.label).toList
      (if p.label = "" then none else some p.label) := by
  by_cases empty : p.label = ""
  · rw [if_pos empty, if_pos empty]
    exact .bare 0 (.inl rfl)
  · have tail := isTail_label (written.label empty) 1
    simpa [empty] using tail

/-- The text of a property, behind any indent, is read as its line. -/
theorem form_text (written : p.Written g) (n : Nat) :
    Form g (List.replicate n g.space ++ (p.text g).toList) (.named (p.line g)) := by
  have isIdentifier := written.identifier
  have plain : Form.front g n false = List.replicate n g.space := List.append_nil _
  by_cases snippet : p.kind = .snippet
  · obtain ⟨label, required, content⟩ := p
    cases content with
    | snippet id =>
      have form : Form g (Form.front g n true ++ (id.toList ++ [])) _ :=
        Form.bare n isIdentifier (.inl rfl)
      simpa [Form.front, line, text, Marker.text] using form
    | _ => contradiction
  obtain ⟨line_eq, text_eq⟩ := of_kind_ne_snippet (g := g) snippet
  rw [line_eq] at isIdentifier
  rw [line_eq, text_eq, ← plain]
  by_cases bracketed : p.kind = .linkedItems ∨ p.tokens g ≠ []
  · have form := Form.bracketed n isIdentifier (Form.isOptions_join written.tokens)
      (isTail_written written)
    simpa [brackets, bracketed] using form
  · by_cases empty : p.label = ""
    · have form : Form g (Form.front g n false ++ ((p.identifier g).toList ++ [])) _ :=
        Form.bare n isIdentifier (.inl rfl)
      simpa [brackets, bracketed, empty] using form
    · have form := Form.spaced n isIdentifier (isTail_label (written.label empty) 0)
      simpa [brackets, bracketed, empty] using form

theorem inline_brackets (written : p.Written g) : ∀ c ∈ (p.brackets g).toList, g.Inline c := by
  intro c member
  rw [brackets] at member
  split at member
  · rw [String.toList_push, String.toList_append, Text.toList_join, List.mem_append, List.mem_append,
      List.mem_singleton] at member
    obtain (starts | inTokens) | rfl := member
    · exact Grammar.inline_structural (by simp_all [Grammar.isStructural])
    · obtain rfl | ⟨cs, listed, inside⟩ := Text.mem_intercalate inTokens
      · exact Grammar.inline_structural (by simp [Grammar.isStructural])
      · obtain ⟨t, isToken, rfl⟩ := List.mem_map.mp listed
        exact (written.tokens t isToken).inline c inside
    · exact Grammar.inline_structural (by simp [Grammar.isStructural])
  · contradiction

theorem inline_text (mark : ∀ c ∈ g.snippetMark.toList, g.Inline c) (written : p.Written g) :
    ∀ c ∈ (p.text g).toList, g.Inline c := by
  have inIdentifier := written.inline
  intro c member
  by_cases snippet : p.kind = .snippet
  · obtain ⟨label, required, content⟩ := p
    cases content with
    | snippet id =>
      rw [text, String.toList_append, Marker.text, String.toList_ofList, List.mem_append] at member
      exact member.elim (mark c) (inIdentifier c)
    | _ => contradiction
  obtain ⟨line_eq, text_eq⟩ := of_kind_ne_snippet (g := g) snippet
  rw [line_eq] at inIdentifier
  rw [text_eq, String.toList_append, String.toList_append, List.mem_append, List.mem_append] at member
  obtain (isIdentifier | bracketed) | labelled := member
  · exact inIdentifier c isIdentifier
  · exact inline_brackets written c bracketed
  · split at labelled
    · contradiction
    · next nonempty =>
      rw [String.toList_append, List.mem_append] at labelled
      obtain space | labelled := labelled
      · have same : c = g.space := by simpa using space
        exact same ▸ Grammar.inline_space
      · exact (written.label nonempty).inline c labelled

/-- The options that are written for a content are tokens, if its choices are. -/
theorem isToken_contentClauses (legible : g.Legible) {content : Content}
    (choices : ∀ v ∈ content.choices, Form.IsToken g v) :
    ∀ c ∈ content.clauses, Form.IsToken g (c.token g) := by
  have ranged (r : CountRange) : ∀ c ∈ Clause.ofBounds r, Form.IsToken g (c.token g) := by
    intro c member
    obtain ⟨bounded, rfl⟩ := Clause.mem_ofBounds.mp member
    obtain ⟨text, written⟩ := Option.ne_none_iff_exists'.mp
      (mt (CountRange.token?_eq_none_iff (g := g)).mp bounded)
    rw [Clause.token, written]
    exact Form.isToken_of_isPhrase (legible.isWord_range written).isPhrase
  have limited (words characters : Option UInt32) :
      ∀ c ∈ Clause.ofLimits words characters, Form.IsToken g (c.token g) := by
    intro c member
    obtain ⟨n, -, rfl⟩ | ⟨n, -, rfl⟩ := Clause.mem_ofLimits.mp member
    · exact Form.isToken_detail (legible.isPhrase_name (by simp [Clause.detailNames]))
        (legible.isPhrase_ofCount n)
    · exact Form.isToken_detail (legible.isPhrase_name (by simp [Clause.detailNames]))
        (legible.isPhrase_ofCount n)
  have choice {options : List String} (isToken : ∀ v ∈ options, Form.IsToken g v) :
      ∀ c ∈ options.map Clause.choice, Form.IsToken g (c.token g) := by
    intro c member
    obtain ⟨v, listed, rfl⟩ := List.mem_map.mp member
    exact isToken v listed
  have flagged (f : Format) : Form.IsToken g f.token :=
    Form.isToken_of_isPhrase (legible.flags f).isPhrase
  intro c member
  cases content with
  | linkedItems ids range => exact ranged range c member
  | asset mode range =>
    obtain images | member := List.mem_append.mp member
    · cases mode with
      | none => contradiction
      | images =>
        rw [List.mem_singleton.mp images]
        exact flagged .images
    · exact ranged range c member
  | text words characters => exact limited words characters c member
  | singleChoice options => exact choice choices c member
  | multipleChoice options => exact choice choices c member
  | richText r =>
    rw [Content.clauses, List.mem_append, List.mem_append] at member
    obtain (format | tables) | limit := member
    · obtain ⟨f, -, rfl⟩ := List.mem_map.mp format
      exact flagged f
    · cases with_ : r.tables with
      | false => simp [with_] at tables
      | true =>
        rw [with_, if_pos rfl, List.mem_singleton] at tables
        rw [tables]
        exact Form.isToken_detail (legible.isPhrase_name (by simp [Clause.detailNames]))
          (legible.isPhrase_flags r.tableFormatting)
    · exact limited r.words r.characters c limit
  | _ => contradiction

theorem isToken_tokens (legible : g.Legible)
    (choices : ∀ v ∈ p.content.choices, Form.IsToken g v) :
    ∀ t ∈ p.tokens g, Form.IsToken g t := by
  rw [tokens_eq_map, List.forall_mem_map]
  intro c member
  obtain content | mark := List.mem_append.mp member
  · exact isToken_contentClauses legible choices c content
  · cases required : p.required with
    | false => simp [required] at mark
    | true =>
      rw [required, if_pos rfl, List.mem_singleton] at mark
      rw [mark]
      exact Form.isToken_of_isPhrase legible.isWord_required.isPhrase

/-- Whether the line of a property has the kind of the property and tells all that it has, but for
its components. -/
structure Telling (g : Grammar) (p : Property) : Prop where
  kind : (p.line g).kindName g = p.kind.name
  told : p.content.Told g
  named : p.content.NamedBy g (p.line g).identifier
  reference : p.kind = .snippet → p.label = "" ∧ p.required = false
  opening : p.kind = .type → p.required = false

theorem Telling.said (telling : p.Telling g) (legible : g.Legible) :
    ∀ c ∈ p.clauses, Clause.Said g p.kind (c.token g) c :=
  legible.said_clauses telling.told fun plain =>
    plain.elim telling.opening fun snippet => (telling.reference snippet).2

/-- Where each option says what it is written for, the line describes the property. -/
theorem describe_line (telling : p.Telling g)
    (said : ∀ c ∈ p.clauses, Clause.Said g p.kind (c.token g) c) :
    (p.line g).describe g = .ok p.bare := by
  have options : (p.line g).options.getD [] = p.tokens g ∧ (p.line g).label.getD "" = p.label := by
    by_cases snippet : p.kind = .snippet
    · obtain ⟨label, required, content⟩ := p
      cases content with
      | snippet id =>
        obtain ⟨rfl, rfl⟩ := telling.reference rfl
        exact ⟨rfl, rfl⟩
      | _ => contradiction
    · rw [(of_kind_ne_snippet snippet).1]
      constructor
      · by_cases bracketed : p.kind = .linkedItems ∨ p.tokens g ≠ []
        · simp [bracketed]
        · simp_all
      · by_cases empty : p.label = "" <;> simp [empty]
  have supplied : Supply.ofTokens g p.kind (p.tokens g) =
      .ok { Supply.supplied p.content with required := p.required } := Supply.ofTokens_tokens said
  have content : ({ Supply.supplied p.content with required := p.required } : Supply).content g
      (p.line g).identifier p.kind = p.content.bare :=
    Supply.content_supplied telling.told telling.named p.required
  rw [Line.describe, telling.kind, Kind.ofName?_name, options.1, options.2]
  simp only [supplied, bind, Except.bind, content]
  rfl

end Property

end ContentSchema
