import Mathlib.Data.List.DropRight
import Mathlib.Data.List.Infix
import ContentSchema.Proofs.Line.Language
import ContentSchema.Proofs.Schema.Line
/-!
What the reader leaves in the parts of a line. Whatever a source holds, options and labels have no
spaces around them and no character that would end them, so that each part can be written again as
it stands (`Line.clean_of_scan`).
-/
namespace ContentSchema

namespace Text

variable {sp c : Char} {s : String}

theorem mem_of_mem_trimEnd (member : c ∈ (trimEnd sp s).toList) : c ∈ s.toList := by
  rw [toList_trimEnd] at member
  exact (List.rdropWhile_prefix _ _).subset member

theorem mem_of_mem_trim (member : c ∈ (trim sp s).toList) : c ∈ s.toList := by
  have inside := mem_of_mem_trimEnd member
  rw [String.toList_ofList] at inside
  exact (List.dropWhile_suffix _).subset inside

theorem getLast?_trimEnd (sp : Char) (s : String) :
    (trimEnd sp s).toList.getLast? ≠ some sp := by
  rw [toList_trimEnd, List.getLast?_reverse]
  intro last
  have other := List.head?_dropWhile_not (· == sp) s.toList.reverse
  simp [last] at other

theorem head?_trim (sp : Char) (s : String) : (trim sp s).toList.head? ≠ some sp := by
  by_cases empty : trim sp s = ""
  · simp [empty]
  · rw [trim] at empty ⊢
    rw [Scan.head?_trimEnd empty, String.toList_ofList]
    intro first
    have other := List.head?_dropWhile_not (· == sp) s.toList
    simp [first] at other

theorem trim_trim (sp : Char) (s : String) : trim sp (trim sp s) = trim sp s :=
  trim_eq_self (head?_trim sp s) (getLast?_trimEnd sp _)

end Text

namespace Form

variable {g : Grammar} {cs : List Char} {inDetail : Bool}

theorem Closed.of_cons_space (closed : Closed g inDetail (g.space :: cs)) :
    Closed g inDetail cs := by
  have apart := g.apart.1
  generalize begins : g.space :: cs = whole at closed
  cases closed with
  | nil => contradiction
  | opened _ => exact absurd (List.cons.inj begins).1 apart.2.2.2.1
  | ended _ => exact absurd (List.cons.inj begins).1 apart.2.2.2.2.1
  | delimiter _ => exact absurd (List.cons.inj begins).1 apart.1
  | plain _ closed => rwa [(List.cons.inj begins).2]

theorem Closed.of_concat_space (closed : Closed g inDetail (cs ++ [g.space])) :
    Closed g inDetail cs := by
  induction cs generalizing inDetail with
  | nil => exact closed.of_cons_space
  | cons c cs ih =>
    rw [List.cons_append] at closed
    cases closed with
    | opened closed => exact .opened (ih closed)
    | ended closed => exact .ended (ih closed)
    | delimiter closed => exact .delimiter (ih closed)
    | plain plain closed => exact .plain plain (ih closed)

theorem Closed.dropWhile (closed : Closed g inDetail cs) :
    Closed g inDetail (cs.dropWhile (· == g.space)) := by
  induction cs with
  | nil => exact closed
  | cons c cs ih =>
    by_cases space : c = g.space
    · subst space
      rw [List.dropWhile_cons_of_pos (p := (· == g.space)) (beq_self_eq_true _)]
      exact ih closed.of_cons_space
    · rwa [List.dropWhile_cons_of_neg (by simpa using space)]

theorem Closed.rdropWhile (closed : Closed g inDetail cs) :
    Closed g inDetail (cs.rdropWhile (· == g.space)) := by
  induction cs using List.reverseRecOn with
  | nil => exact closed
  | append_singleton cs c ih =>
    by_cases space : c = g.space
    · subst space
      rw [List.rdropWhile_concat_pos (· == g.space) _ _ (beq_self_eq_true _)]
      exact ih closed.of_concat_space
    · rwa [List.rdropWhile_concat_neg _ _ _ (by simpa using space)]

/-- An option is left of a piece once the spaces around it are gone. -/
theorem IsPiece.isToken {piece : List Char} (isPiece : IsPiece g piece)
    (inline : ∀ c ∈ piece, g.Inline c) : IsToken g (Text.trim g.space (.ofList piece)) := by
  constructor
  case closed =>
    rw [Text.toList_trim, String.toList_ofList]
    exact isPiece.closed.dropWhile.rdropWhile
  case trimmed => exact Text.trim_trim _ _
  case nonempty => exact isPiece.nonempty
  case named => exact isPiece.named
  case inline =>
    intro c member
    apply inline
    simpa using Text.mem_of_mem_trim member

theorem isToken_of_isOptions {inner : List Char} {options : List String}
    (isOptions : IsOptions g inner options) (inline : ∀ c ∈ inner, g.Inline c) :
    ∀ t ∈ options, IsToken g t := by
  cases isOptions with
  | none => exact List.forall_mem_nil _
  | pieces _ isPiece =>
    intro t member
    obtain ⟨piece, listed, rfl⟩ := List.mem_map.mp member
    apply (isPiece piece listed).isToken
    intro c inside
    exact inline c (Text.mem_intercalate_of_mem listed inside)

theorem isLabel_trimEnd {label rest : List Char} (isLabel : IsLabel g label rest)
    (inline : ∀ c ∈ label, g.Inline c) :
    Property.IsLabel g (Text.trimEnd g.space (.ofList label)) := by
  obtain ⟨first, begins, other, unmarked⟩ := isLabel.head
  have nonempty : label ≠ [] := by
    rintro rfl
    contradiction
  have full : Text.trimEnd g.space (.ofList label) ≠ "" := by
    apply Scan.trimEnd_ne_empty nonempty
    rw [begins]
    exact fun same => other (Option.some.inj same)
  have kept : (Text.trimEnd g.space (.ofList label)).toList <+: label := by
    rw [Text.toList_trimEnd, String.toList_ofList]
    exact List.rdropWhile_prefix _ _
  constructor
  case isLabel =>
    constructor
    case head =>
      refine ⟨first, ?_, other, unmarked⟩
      rw [Scan.head?_trimEnd full, String.toList_ofList, begins]
    case plain => exact fun c member => isLabel.plain c (kept.subset member)
    case first =>
      intro i below comment
      rw [List.append_nil] at comment
      apply isLabel.first i (Nat.lt_of_lt_of_le below kept.length_le)
      have longer := kept.trans (List.prefix_append label rest)
      exact comment.trans (longer.drop i)
  case last => exact Text.getLast?_trimEnd _ _
  case inline => exact fun c member => inline c (kept.subset member)

/-- The label that a tail gives can stand alone at the end of a line; behind a snippet there is
none. -/
theorem isLabel_of_isTail {snippet : Bool} {label : Option String} (tail : IsTail g snippet cs label)
    (inline : ∀ c ∈ cs, g.Inline c) :
    (∀ text, label = some text → Property.IsLabel g text) ∧ (snippet = true → label = none) := by
  cases tail with
  | bare => simp
  | @label n text rest labelled isLabel ending =>
    have written : Property.IsLabel g (Text.trimEnd g.space (.ofList text)) :=
      isLabel_trimEnd isLabel fun c member => inline c (by simp [member])
    exact ⟨fun _ same => Option.some.inj same ▸ written, by simp [labelled]⟩

end Form

/-- A line of which each part can be written as it stands. -/
structure Line.Clean (g : Grammar) (l : Line) : Prop where
  identifier : Form.IsIdentifier g l.identifier.toList
  inline : ∀ c ∈ l.identifier.toList, g.Inline c
  tokens : ∀ t ∈ l.options.getD [], Form.IsToken g t
  label : ∀ label, l.label = some label → Property.IsLabel g label
  reference : l.snippet = true → l.label = none

theorem Line.clean_of_form {g : Grammar} {cs : List Char} {l : Line} (form : Form g cs (.named l))
    (inline : ∀ c ∈ cs, g.Inline c) : l.Clean g := by
  cases form with
  | @bare n snippet id rest isIdentifier ending =>
    constructor
    case identifier => simpa using isIdentifier
    case inline =>
      intro c member
      exact inline c (by simp_all)
    case tokens => exact List.forall_mem_nil _
    case label => exact fun _ same => nomatch same
    case reference => exact fun _ => rfl
  | @spaced n snippet id rest label isIdentifier tail =>
    obtain ⟨isLabel, reference⟩ := Form.isLabel_of_isTail tail fun c member =>
      inline c (by simp [member])
    constructor
    case identifier => simpa using isIdentifier
    case inline =>
      intro c member
      exact inline c (by simp_all)
    case tokens => exact List.forall_mem_nil _
    case label => exact isLabel
    case reference => exact reference
  | @bracketed n snippet id inner rest options label isIdentifier isOptions tail =>
    obtain ⟨isLabel, reference⟩ := Form.isLabel_of_isTail tail fun c member =>
      inline c (by simp [member])
    constructor
    case identifier => simpa using isIdentifier
    case inline =>
      intro c member
      exact inline c (by simp_all)
    case tokens =>
      apply Form.isToken_of_isOptions isOptions
      intro c member
      exact inline c (by simp [member])
    case label => exact isLabel
    case reference => exact reference

theorem mem_of_mem_splitOn {a c : Char} {cs l : List Char} (cut : l ∈ cs.splitOn a)
    (member : c ∈ l) : c ∈ cs := by
  have whole : [a].intercalate (cs.splitOn a) = cs := List.intercalate_splitOn a
  rw [← whole]
  exact Text.mem_intercalate_of_mem cut member

theorem Line.clean_of_forms {g : Grammar} {texts : List (List Char)} {held : List Held}
    (forms : List.Forall₂ (Form g) texts held) (inline : ∀ text ∈ texts, ∀ c ∈ text, g.Inline c)
    {l : Line} (named : .named l ∈ held) : l.Clean g := by
  induction forms with
  | nil => contradiction
  | cons form _ ih =>
    rw [List.forall_mem_cons] at inline
    obtain rfl | later := List.mem_cons.mp named
    · exact clean_of_form form inline.1
    · exact ih inline.2 later

/-- Every line that has been read is clean. -/
theorem Line.clean_of_scan {g : Grammar} (ends : g.EndsLines) (two : g.comment.size = 2)
    {source : String} {lines : List Line} (read : scan g source = .ok lines) :
    ∀ l ∈ lines, l.Clean g := by
  obtain ⟨held, forms, rfl⟩ := (scan_iff_form ends two).mp read
  have inline : ∀ text ∈ textLines g source, ∀ c ∈ text, g.Inline c := by
    intro text listed c member
    constructor
    · rintro rfl
      exact not_mem_of_mem_splitOn listed member
    · have inside : c ∈ source.toList.filter (· ∉ g.skip) := mem_of_mem_splitOn listed member
      simpa using (List.mem_filter.mp inside).2
  intro l member
  obtain ⟨⟨h, i⟩, listed, counted⟩ := List.mem_filterMap.mp member
  obtain ⟨l, named, rfl⟩ := Option.map_eq_some_iff.mp counted
  have isNamed : h = .named l := by
    cases h <;> simp_all [Held.line?]
  have clean : l.Clean g :=
    clean_of_forms forms inline (isNamed ▸ List.fst_mem_of_mem_zipIdx listed)
  exact ⟨clean.identifier, clean.inline, clean.tokens, clean.label, clean.reference⟩

end ContentSchema
