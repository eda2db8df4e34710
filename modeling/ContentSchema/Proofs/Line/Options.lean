import Mathlib.Data.List.TakeWhile
import ContentSchema.Proofs.Line.Reading
/-!
Reading the options of a line. Behind an opening bracket the reader accepts exactly the texts of
`Form.IsOptions` up to the closing one, and gathers the options they give (`read?_options`,
`of_read?_options`).
-/
namespace ContentSchema.Scan
open Form Phase

variable {g : Grammar} {d : Draft} {tokens : List String} {token : String} {inDetail : Bool}
  {c : Char} {cs : List Char} {seen : Seen}

/-- The text of a piece that has been read as far as this: spaces before it are dropped. -/
def lead (g : Grammar) (before : List Char) : String :=
  .ofList (before.dropWhile (· == g.space))

theorem toList_lead (g : Grammar) (before : List Char) :
    (lead g before).toList = before.dropWhile (· == g.space) :=
  String.toList_ofList

theorem lead_nil (g : Grammar) : lead g [] = "" := rfl

theorem dropWhile_concat {α : Type} (p : α → Bool) (l : List α) (a : α) :
    (l ++ [a]).dropWhile p = if l.dropWhile p = [] ∧ p a then [] else l.dropWhile p ++ [a] := by
  rw [List.dropWhile_append]
  by_cases all : l.dropWhile p = [] <;> by_cases last : p a <;> simp [all, last]

theorem lead_eq_empty_iff {before : List Char} :
    lead g before = "" ↔ before.dropWhile (· == g.space) = [] := by
  rw [← String.toList_inj, toList_lead]
  rfl

theorem lead_concat_space (before : List Char) :
    lead g (before ++ [g.space]) =
      if lead g before = "" then "" else (lead g before).push g.space := by
  apply String.toList_inj.mp
  rw [toList_lead, dropWhile_concat]
  by_cases empty : before.dropWhile (· == g.space) = []
  · simp [lead_eq_empty_iff, empty]
  · simp [lead_eq_empty_iff, empty, toList_lead]

theorem lead_concat (before : List Char) (other : c ≠ g.space) :
    lead g (before ++ [c]) = (lead g before).push c := by
  apply String.toList_inj.mp
  rw [toList_lead, dropWhile_concat, if_neg (by simp [other]), String.toList_push, toList_lead]

theorem trimEnd_lead (g : Grammar) (before : List Char) :
    Text.trimEnd g.space (lead g before) = Text.trim g.space (.ofList before) := by
  rw [Text.trim, String.toList_ofList, lead]

/-! One character -/

theorem read?_space (before : List Char) :
    read? g (.options d tokens (lead g before) inDetail) (g.space :: cs) =
      read? g (.options d tokens (lead g (before ++ [g.space])) inDetail) cs := by
  have apart := g.apart
  apply read?_of_take
  rw [lead_concat_space]
  simp only [look]
  grind [lookOptions, Grammar.opensComment, Grammar.opensDelimiter, Grammar.opensSnippet]

theorem read?_options_push (plain : ¬ g.isReserved c) :
    read? g (.options d tokens token inDetail) (c :: cs) =
      read? g (.options d tokens (token.push c) inDetail) cs := by
  apply read?_of_take
  simp only [look]
  grind [lookOptions, Grammar.isReserved, Grammar.isStructural]

theorem read?_options_detailEnd :
    read? g (.options d tokens token true) (g.detailEnd :: cs) =
      read? g (.options d tokens (token.push g.detailEnd) false) cs := by
  have apart := g.apart
  apply read?_of_take
  simp only [look]
  grind [lookOptions, Grammar.opensComment, Grammar.opensDelimiter, Grammar.opensSnippet]

theorem read?_plain (before : List Char) (plain : ¬ g.isReserved c) :
    read? g (.options d tokens (lead g before) inDetail) (c :: cs) =
      read? g (.options d tokens (lead g (before ++ [c])) inDetail) cs := by
  have other : c ≠ g.space := by
    intro same
    simp [same, Grammar.isReserved] at plain
  rw [lead_concat before other, read?_options_push plain]

theorem read?_opened (before : List Char) (named : lead g before ≠ "") :
    read? g (.options d tokens (lead g before) false) (g.detailStart :: cs) =
      read? g (.options d tokens (lead g (before ++ [g.detailStart])) true) cs := by
  have apart := g.apart
  apply read?_of_take
  rw [lead_concat before apart.1.2.2.2.1.symm]
  simp only [look]
  grind [lookOptions, Grammar.opensComment, Grammar.opensDelimiter, Grammar.opensSnippet]

theorem read?_ended (before : List Char) :
    read? g (.options d tokens (lead g before) true) (g.detailEnd :: cs) =
      read? g (.options d tokens (lead g (before ++ [g.detailEnd])) false) cs := by
  rw [lead_concat before g.apart.1.2.2.2.2.1.symm, read?_options_detailEnd]

theorem read?_delimiter (before : List Char) :
    read? g (.options d tokens (lead g before) true) (g.arrayDelimiter :: cs) =
      read? g (.options d tokens (lead g (before ++ [g.arrayDelimiter])) true) cs := by
  have apart := g.apart
  apply read?_of_take
  rw [lead_concat before apart.1.1.symm]
  simp only [look]
  grind [lookOptions, Grammar.opensComment, Grammar.opensDelimiter, Grammar.opensSnippet]

theorem read?_separator (full : Text.trimEnd g.space token ≠ "") :
    read? g (.options d tokens token false) (g.arrayDelimiter :: cs) =
      read? g (.options d (tokens ++ [Text.trimEnd g.space token]) "" false) cs := by
  have apart := g.apart
  apply read?_of_take
  simp only [look]
  grind [lookOptions, token?, Grammar.opensComment, Grammar.opensDelimiter, Grammar.opensSnippet]

theorem read?_end (full : Text.trimEnd g.space token ≠ "") :
    read? g (.options d tokens token false) (g.optionsEnd :: cs) =
      read? g (.afterHead { d with options := some (tokens ++ [Text.trimEnd g.space token]) }) cs := by
  have apart := g.apart
  apply read?_of_take
  simp only [look]
  grind [lookOptions, token?, Grammar.opensComment, Grammar.opensDelimiter, Grammar.opensSnippet]

theorem read?_end_none (empty : Text.trimEnd g.space token = "") :
    read? g (.options d [] token false) (g.optionsEnd :: cs) =
      read? g (.afterHead { d with options := some [] }) cs := by
  have apart := g.apart
  apply read?_of_take
  simp only [look]
  grind [lookOptions, token?, Grammar.opensComment, Grammar.opensDelimiter, Grammar.opensSnippet]

/-! Whole options -/

/-- What is left of a text by dropping spaces at its end begins as the text does. -/
theorem head?_trimEnd {sp : Char} {s : String} (full : Text.trimEnd sp s ≠ "") :
    (Text.trimEnd sp s).toList.head? = s.toList.head? := by
  have front : (Text.trimEnd sp s).toList <+: s.toList := by
    rw [Text.toList_trimEnd, ← List.reverse_suffix, List.reverse_reverse]
    exact List.dropWhile_suffix _
  obtain ⟨rest, whole⟩ := front
  have nonempty : (Text.trimEnd sp s).toList ≠ [] := by
    intro empty
    exact full (String.toList_inj.mp empty)
  rw [← whole, List.head?_append_of_ne_nil _ nonempty]

theorem lead_ne_empty_of_append {before after : List Char}
    (named : (lead g (before ++ g.detailStart :: after)).toList.head? ≠ some g.detailStart) :
    lead g before ≠ "" := by
  intro empty
  rw [lead_eq_empty_iff] at empty
  apply named
  rw [toList_lead, List.dropWhile_append]
  have other := g.apart.1.2.2.2.1.symm
  simp [empty, other]

theorem read?_piece {after : List Char} (before : List Char) (closed : Closed g inDetail after)
    (named : (lead g (before ++ after)).toList.head? ≠ some g.detailStart) :
    read? g (.options d tokens (lead g before) inDetail) (after ++ cs) =
      read? g (.options d tokens (lead g (before ++ after)) false) cs := by
  induction closed generalizing before with
  | nil => rw [List.nil_append, List.append_nil]
  | opened _ ih =>
    have rest := ih (before ++ [g.detailStart])
    rw [List.append_assoc, List.singleton_append] at rest
    rw [List.cons_append, read?_opened before (lead_ne_empty_of_append named), rest named]
  | ended _ ih =>
    have rest := ih (before ++ [g.detailEnd])
    rw [List.append_assoc, List.singleton_append] at rest
    rw [List.cons_append, read?_ended, rest named]
  | delimiter _ ih =>
    have rest := ih (before ++ [g.arrayDelimiter])
    rw [List.append_assoc, List.singleton_append] at rest
    rw [List.cons_append, read?_delimiter, rest named]
  | @plain _ c _ allowed _ ih =>
    have rest := ih (before ++ [c])
    rw [List.append_assoc, List.singleton_append] at rest
    obtain rfl | plain := allowed
    · rw [List.cons_append, read?_space, rest named]
    · rw [List.cons_append, read?_plain before plain, rest named]

theorem read?_wholePiece {piece : List Char} (isPiece : IsPiece g piece) :
    read? g (.options d tokens "" false) (piece ++ cs) =
      read? g (.options d tokens (lead g piece) false) cs := by
  have named := isPiece.named
  rw [← trimEnd_lead, head?_trimEnd (trimEnd_lead g piece ▸ isPiece.nonempty)] at named
  exact read?_piece [] isPiece.closed named

theorem read?_pieces {ps : List (List Char)} (nonempty : ps ≠ [])
    (isPiece : ∀ p ∈ ps, IsPiece g p) :
    read? g (.options d tokens "" false)
        ([g.arrayDelimiter].intercalate ps ++ g.optionsEnd :: cs) =
      read? g (.afterHead { d with
        options := some (tokens ++ ps.map fun p => Text.trim g.space (.ofList p)) }) cs := by
  induction ps generalizing tokens with
  | nil => exact absurd rfl nonempty
  | cons p ps ih =>
    have first := isPiece p List.mem_cons_self
    have full : Text.trimEnd g.space (lead g p) ≠ "" := trimEnd_lead g p ▸ first.nonempty
    cases ps with
    | nil =>
      rw [List.intercalate_singleton, read?_wholePiece first, read?_end full, trimEnd_lead]
      rfl
    | cons q ps =>
      rw [List.intercalate_cons_cons, List.append_assoc, List.append_assoc,
        read?_wholePiece first, List.singleton_append, read?_separator full, trimEnd_lead,
        ih (List.cons_ne_nil q ps) fun p member => isPiece p (List.mem_cons_of_mem _ member)]
      simp

theorem read?_spaces (n : Nat) :
    read? g (.options d tokens "" inDetail) (List.replicate n g.space ++ cs) =
      read? g (.options d tokens "" inDetail) cs := by
  induction n with
  | zero => rfl
  | succ n ih =>
    have dropped : lead g ([] ++ [g.space]) = "" := lead_concat_space []
    rw [List.replicate_succ, List.cons_append, ← lead_nil g, read?_space, dropped, ih]
    rfl

theorem read?_options {inner : List Char} {options : List String}
    (isOptions : IsOptions g inner options) :
    read? g (.options d [] "" false) (inner ++ g.optionsEnd :: cs) =
      read? g (.afterHead { d with options := some options }) cs := by
  cases isOptions with
  | none n => rw [read?_spaces, read?_end_none rfl]
  | pieces nonempty isPiece => rw [read?_pieces nonempty isPiece, List.nil_append]

/-! What has been read was made of pieces -/

/-- A text of which nothing is left by dropping the spaces at its ends has spaces only. -/
theorem eq_replicate_of_trim_eq_empty {sp : Char} {cs : List Char}
    (empty : Text.trim sp (.ofList cs) = "") : cs = List.replicate cs.length sp := by
  have kept : (Text.trim sp (.ofList cs)).toList = [] := by rw [empty]; rfl
  rw [Text.toList_trim, String.toList_ofList, List.reverse_eq_nil_iff,
    List.dropWhile_eq_nil_iff] at kept
  have none : cs.dropWhile (· == sp) = [] := by
    cases remains : cs.dropWhile (· == sp) with
    | nil => rfl
    | cons c rest =>
      have first := List.head?_dropWhile_not (· == sp) cs
      rw [remains] at first kept
      simp only [List.head?_cons] at first
      rw [kept c (by simp)] at first
      contradiction
  apply List.eq_replicate_length.mpr
  intro c member
  exact beq_iff_eq.mp (List.dropWhile_eq_nil_iff.mp none c member)

/-- What a character within brackets may be: it goes on with the piece, or ends it, or ends the
options. Spaces alone are no piece, and end the options only if there are none. -/
theorem read?_options_cases {before : List Char}
    (h : read? g (.options d tokens (lead g before) inDetail) (c :: cs) = some seen) :
    (∃ next, (c ≠ g.detailStart ∨ lead g before ≠ "") ∧
      (∀ after, Closed g next after → Closed g inDetail (c :: after)) ∧
      read? g (.options d tokens (lead g (before ++ [c])) next) cs = some seen) ∨
    (inDetail = false ∧ Text.trimEnd g.space (lead g before) ≠ "" ∧ c = g.arrayDelimiter ∧
      read? g (.options d (tokens ++ [Text.trimEnd g.space (lead g before)]) "" false) cs =
        some seen) ∨
    (inDetail = false ∧ Text.trimEnd g.space (lead g before) ≠ "" ∧ c = g.optionsEnd ∧
      read? g (.afterHead { d with
        options := some (tokens ++ [Text.trimEnd g.space (lead g before)]) }) cs = some seen) ∨
    (inDetail = false ∧ Text.trimEnd g.space (lead g before) = "" ∧ c = g.optionsEnd ∧
      tokens = [] ∧ read? g (.afterHead { d with options := some [] }) cs = some seen) := by
  have apart := g.apart
  -- Reading goes on, so that the character is none of those that are refused.
  have refused : lookOptions g d tokens (lead g before) inDetail c ≠ .refuse := look_ne_refuse h
  by_cases space : c = g.space
  · subst space
    rw [read?_space] at h
    exact .inl ⟨inDetail, .inl apart.1.2.2.2.1, fun _ => .plain (.inl rfl), h⟩
  by_cases plain : ¬ g.isReserved c
  · rw [read?_plain before plain] at h
    refine .inl ⟨inDetail, .inl ?_, fun _ => .plain (.inr plain), h⟩
    intro same
    simp [same, Grammar.isReserved, Grammar.isStructural] at plain
  by_cases separates : c = g.arrayDelimiter
  · subst separates
    cases inDetail with
    | true =>
      rw [read?_delimiter] at h
      exact .inl ⟨true, .inl apart.2.1.2.2.1, fun _ => .delimiter, h⟩
    | false =>
      by_cases full : Text.trimEnd g.space (lead g before) = ""
      · grind [lookOptions, token?]
      · rw [read?_separator full] at h
        exact .inr (.inl ⟨rfl, full, rfl, h⟩)
  by_cases ended : c = g.optionsEnd
  · subst ended
    cases inDetail with
    | true => grind [lookOptions]
    | false =>
      by_cases full : Text.trimEnd g.space (lead g before) = ""
      · by_cases first : tokens = []
        · subst first
          rw [read?_end_none full] at h
          exact .inr (.inr (.inr ⟨rfl, full, rfl, rfl, h⟩))
        · grind [lookOptions, token?]
      · rw [read?_end full] at h
        exact .inr (.inr (.inl ⟨rfl, full, rfl, h⟩))
  by_cases opens : c = g.detailStart
  · subst opens
    by_cases allowed : inDetail = false ∧ lead g before ≠ ""
    · obtain ⟨rfl, begun⟩ := allowed
      rw [read?_opened before begun] at h
      exact .inl ⟨true, .inr begun, fun _ => .opened, h⟩
    · grind [lookOptions]
  by_cases closes : c = g.detailEnd
  · subst closes
    cases inDetail with
    | true =>
      rw [read?_ended] at h
      exact .inl ⟨false, .inl apart.2.2.2.2.1.1.symm, fun _ => .ended, h⟩
    | false => grind [lookOptions]
  grind [lookOptions, Grammar.isReserved, Grammar.isStructural]

theorem head?_lead_concat {before : List Char}
    (named : (lead g before).toList.head? ≠ some g.detailStart)
    (allowed : c ≠ g.detailStart ∨ lead g before ≠ "") :
    (lead g (before ++ [c])).toList.head? ≠ some g.detailStart := by
  have other := g.apart.1.2.2.2.1
  rw [toList_lead] at named
  rw [toList_lead, dropWhile_concat]
  simp only [ne_eq, lead_eq_empty_iff] at allowed
  cases read : before.dropWhile (· == g.space) with
  | nil =>
    by_cases space : c = g.space
    · simp [space]
    · simpa [space, read] using allowed
  | cons first rest =>
    rw [read] at named
    simpa using named

theorem isPiece_of_begun {before : List Char} (closed : Closed g false before)
    (named : (lead g before).toList.head? ≠ some g.detailStart)
    (full : Text.trimEnd g.space (lead g before) ≠ "") : IsPiece g before := by
  refine ⟨closed, trimEnd_lead g before ▸ full, ?_⟩
  rw [← trimEnd_lead, head?_trimEnd full]
  exact named

theorem isOptions_single {piece : List Char} (isPiece : IsPiece g piece) :
    IsOptions g piece [Text.trim g.space (.ofList piece)] := by
  have all : ∀ p ∈ [piece], IsPiece g p := by
    intro p member
    rw [List.mem_singleton.mp member]
    exact isPiece
  have gathered := IsOptions.pieces (List.cons_ne_nil piece []) all
  rwa [List.intercalate_singleton] at gathered

theorem isOptions_cons {piece inner : List Char} {options : List String} (isPiece : IsPiece g piece)
    (more : options ≠ []) (isOptions : IsOptions g inner options) :
    IsOptions g (piece ++ g.arrayDelimiter :: inner)
      (Text.trim g.space (.ofList piece) :: options) := by
  cases isOptions with
  | none n => contradiction
  | @pieces ps nonempty isPieces =>
    have whole : piece ++ g.arrayDelimiter :: [g.arrayDelimiter].intercalate ps =
        [g.arrayDelimiter].intercalate (piece :: ps) := by
      obtain ⟨p, others, rfl⟩ := List.exists_cons_of_ne_nil nonempty
      rw [List.intercalate_cons_cons, List.append_assoc, List.singleton_append]
    have all : ∀ p ∈ piece :: ps, IsPiece g p := List.forall_mem_cons.mpr ⟨isPiece, isPieces⟩
    have gathered := IsOptions.pieces (List.cons_ne_nil piece ps) all
    rwa [← whole] at gathered

/-- What the reader accepts behind an opening bracket are options up to the closing one. Within a
piece it has read the text `before`, which any rest of the piece closes. -/
theorem of_read?_options {before : List Char}
    (begun : ∀ after, Closed g inDetail after → Closed g false (before ++ after))
    (named : (lead g before).toList.head? ≠ some g.detailStart)
    (h : read? g (.options d tokens (lead g before) inDetail) cs = some seen) :
    ∃ inner rest options, cs = inner ++ g.optionsEnd :: rest ∧
      IsOptions g (before ++ inner) options ∧ (options = [] → tokens = []) ∧
      read? g (.afterHead { d with options := some (tokens ++ options) }) rest = some seen := by
  induction cs generalizing before tokens inDetail with
  | nil => simp [read?, conclude?] at h
  | cons c cs ih =>
    have piece (outside : inDetail = false) (full : Text.trimEnd g.space (lead g before) ≠ "") :
        IsPiece g before := by
      subst outside
      exact isPiece_of_begun (by simpa using begun [] .nil) named full
    obtain ⟨next, allowed, closes, read⟩ | ⟨outside, full, rfl, read⟩ | ⟨outside, full, rfl, read⟩ |
      ⟨_, empty, rfl, first, read⟩ := read?_options_cases h
    · have longer : ∀ after, Closed g next after → Closed g false (before ++ [c] ++ after) := by
        intro after closed
        rw [List.append_assoc, List.singleton_append]
        exact begun _ (closes after closed)
      obtain ⟨inner, rest, options, rfl, isOptions, none, read⟩ :=
        ih longer (head?_lead_concat named allowed) read
      rw [List.append_assoc, List.singleton_append] at isOptions
      exact ⟨c :: inner, rest, options, rfl, isOptions, none, read⟩
    · rw [← lead_nil g] at read
      obtain ⟨inner, rest, options, rfl, isOptions, none, read⟩ :=
        ih (fun after closed => closed) (by simp [toList_lead]) read
      have more : options ≠ [] := fun empty => by simpa using none empty
      refine ⟨g.arrayDelimiter :: inner, rest, _, rfl,
        isOptions_cons (piece outside full) more isOptions, by simp, ?_⟩
      rw [← trimEnd_lead]
      simpa using read
    · rw [trimEnd_lead] at read
      refine ⟨[], cs, _, rfl, ?_, by simp, read⟩
      rw [List.append_nil]
      exact isOptions_single (piece outside full)
    · subst first
      have spaces := IsOptions.none (g := g) before.length
      rw [trimEnd_lead] at empty
      rw [← eq_replicate_of_trim_eq_empty empty] at spaces
      refine ⟨[], cs, [], rfl, ?_, fun _ => rfl, read⟩
      rwa [List.append_nil]

end ContentSchema.Scan
