import ContentSchema.Proofs.Line.Label
/-!
Lines that are written again, for any grammar. Behind any phase that has been reached, a line that is
read has parts that can each be read again in a line with other parts (`Scan.invariant_repeatable`,
`Line.repeatable_of_scan`); so the parts, written one behind the other, make up a source of just that
line (`Line.scan_text`).
-/
namespace ContentSchema
namespace Scan
open Form Phase

variable {g : Grammar} {d : Draft} {c : Char} {cs : List Char} {seen : Seen}

/-! The head of a line -/

/-- Behind its indent a line that names something begins with an identifier, or with a snippet mark and
an identifier. -/
theorem exists_identifier_of_read? (h : read? g .lineStart cs = some seen) (drafted : d ∈ seen.draft?) :
    ∃ snippet rest, (snippet = true → ∀ c ∈ g.snippetMark.toList, c ∈ cs) ∧ (∀ c ∈ rest, c ∈ cs) ∧
      read? g (.identifier { snippet }) rest = some seen := by
  have apart := g.apart
  induction cs with
  | nil =>
    rw [read?, conclude?, Option.some.injEq] at h
    subst h
    contradiction
  | cons c cs ih =>
    by_cases opens : g.opensComment c
    · rw [read?_of_handOn (q := .commentMark .remark 0)] at h
      · rw [eq_of_past (p := .commentMark .remark 0) ⟨rfl, settled_remark⟩ h] at drafted
        contradiction
      · simp [look, lookLineStart, opens]
    by_cases space : c = g.space
    · subst space
      rw [read?_of_take (q := .lineStart)] at h
      · obtain ⟨snippet, rest, mark, inside, read⟩ := ih h
        exact ⟨snippet, rest, fun marked c member => List.mem_cons_of_mem _ (mark marked c member),
          fun c member => List.mem_cons_of_mem _ (inside c member), read⟩
      · simp [look, lookLineStart, opens]
    by_cases ends : g.opensDelimiter c
    · rw [read?_of_handOn (q := .delimiter .nothing 0)] at h
      · rw [eq_of_past (p := .delimiter .nothing 0) rfl h] at drafted
        contradiction
      · simp [look, lookLineStart, opens, space, ends]
    by_cases marked : g.opensSnippet c
    · rw [read?_of_handOn (q := .snippetMark 0), read?_snippetMark_iff g.snippetMark.size_pos,
        List.drop_zero] at h
      · obtain ⟨rest, cut, read⟩ := h
        rw [cut]
        exact ⟨true, rest, fun _ c => List.mem_append_left _, fun c => List.mem_append_right _, read⟩
      · have refused := look_ne_refuse h
        simp only [look] at refused ⊢
        grind [lookLineStart]
    · rw [read?_of_handOn (q := .identifier {})] at h
      · exact ⟨false, c :: cs, by simp, fun _ => id, h⟩
      · have refused := look_ne_refuse h
        simp only [look] at refused ⊢
        grind [lookLineStart]

/-- Where an identifier has ended, nothing more is held, or a label or options follow. -/
theorem of_read?_stopped (stops : ∀ c rest, cs = c :: rest → g.isReserved c ∧ c ≠ g.arrayDelimiter)
    (h : read? g (.identifier d) cs = some seen) :
    seen = .head d ∨ (∃ rest, cs = g.space :: rest ∧ read? g (.afterHead d) rest = some seen) ∨
      ∃ rest, cs = g.optionsStart :: rest ∧ read? g (.options d [] "" false) rest = some seen := by
  cases cs with
  | nil =>
    rw [read?, conclude?] at h
    split at h
    · contradiction
    · exact .inl (Option.some.inj h).symm
  | cons c cs =>
    obtain ⟨reserved, other⟩ := stops c cs rfl
    have named : d.identifier ≠ "" := by
      intro empty
      rw [read?_identifier_reserved reserved empty] at h
      contradiction
    by_cases space : c = g.space
    · subst space
      rw [read?_identifier_space named] at h
      exact .inr (.inl ⟨cs, rfl, h⟩)
    by_cases start : c = g.optionsStart
    · subst start
      rw [read?_identifier_start named] at h
      exact .inr (.inr ⟨cs, rfl, h⟩)
    left
    by_cases opens : g.opensComment c
    · apply eq_of_past (p := .commentMark (.head d) 0) ⟨rfl, settled_head⟩
      rwa [read?_of_handOn] at h
      simp [look, lookIdentifier, named, opens]
    by_cases ends : g.opensDelimiter c
    · apply eq_of_past (p := .delimiter (.head d) 0) rfl
      rwa [read?_of_handOn] at h
      simp [look, lookIdentifier, named, opens, ends]
    · exfalso
      apply look_ne_refuse h
      simp [look, lookIdentifier, named, opens, ends, space, start, reserved, other]

end Scan

namespace Form

variable {g : Grammar} {c : Char} {cs : List Char} {inDetail : Bool}

/-- The marks that may stand in an option. -/
theorem Closed.of_mem (closed : Closed g inDetail cs) (member : c ∈ cs) :
    c = g.space ∨ c = g.arrayDelimiter ∨ c = g.detailStart ∨ c = g.detailEnd ∨ ¬ g.isReserved c := by
  induction closed with
  | nil => contradiction
  | _ => grind

theorem ne_delimiter_of_isOptions {options : List String} (isOptions : IsOptions g cs options)
    (member : c ∈ cs) : c ≠ g.delimiter.head := by
  have apart := g.apart
  cases isOptions with
  | none n =>
    rw [(List.mem_replicate.mp member).2]
    exact apart.1.2.2.2.2.2.2.2
  | pieces _ isPiece =>
    have reserved : g.isReserved g.delimiter.head := by
      simp [Grammar.isReserved, Grammar.opensDelimiter]
    obtain rfl | ⟨piece, listed, inside⟩ := Text.mem_intercalate member
    · exact apart.2.1.2.2.2.2.2.2
    · have allowed := (isPiece piece listed).closed.of_mem inside
      rintro rfl
      grind

end Form

/-- A label that can be written behind any head of a line. -/
structure Line.RepeatableLabel (g : Grammar) (label : String) : Prop where
  nonempty : label ≠ ""
  text : Scan.LabelText g label.toList
  last : label.toList.getLast? ≠ some g.space
  kept : ∀ c ∈ label.toList, c ∉ g.skip

/-- A line of which each part can be read again in a line with other parts. -/
structure Line.Repeatable (g : Grammar) (l : Line) : Prop where
  identifier : Form.IsIdentifier g l.identifier.toList
  kept : ∀ c ∈ l.identifier.toList, c ∉ g.skip
  mark : l.snippet = true → ∀ c ∈ g.snippetMark.toList, c ∉ g.skip
  tokens : ∀ t ∈ l.options.getD [], Form.IsToken g t
  label : ∀ label, l.label = some label → Line.RepeatableLabel g label
  reference : l.snippet = true → l.label = none

namespace Scan
open Form Phase

variable {g : Grammar} {d : Draft} {cs : List Char} {seen : Seen}

/-- A line without its label can be written again with the label that has been read. -/
theorem repeatable_of_afterHead (unread : d.label = "")
    (bare : ∀ number afterBlank, (d.toLine g number afterBlank).Repeatable g)
    (kept : ∀ c ∈ cs, c ∉ g.skip) (h : read? g (.afterHead d) cs = some seen) :
    ∀ d ∈ seen.draft?, ∀ number afterBlank, (d.toLine g number afterBlank).Repeatable g := by
  obtain rfl | ⟨text, labelled, inside, isText, rfl⟩ := labelText_of_read? h
  · intro _ same
    exact Option.some.inj same ▸ bare
  intro _ same number afterBlank
  rw [← Option.some.inj same]
  obtain ⟨identifier, keptId, mark, tokens, -, -⟩ := bare number afterBlank
  refine ⟨identifier, keptId, mark, tokens, ?_, fun snippet => ?_⟩
  · intro label same
    have whole : (d.extend text).label = .ofList text := by
      rw [Draft.extend, unread, String.empty_append]
    simp only [Draft.toLine, whole, Option.ite_none_left_eq_some, Option.some.injEq] at same
    obtain ⟨nonempty, rfl⟩ := same
    have front : (Text.trimEnd g.space (.ofList text)).toList <+: text := by
      rw [Text.toList_trimEnd, String.toList_ofList]
      exact List.rdropWhile_prefix _ _
    refine ⟨nonempty, ?_, Text.getLast?_trimEnd _ _, ?_⟩
    · exact fun d labelled before start => isText d labelled before (start.trans front)
    · exact fun c member => kept c (inside c (front.subset member))
  · exact absurd (labelled.symm.trans snippet) Bool.false_ne_true

theorem repeatable_of_identifier {snippet : Bool}
    (mark : snippet = true → ∀ c ∈ g.snippetMark.toList, c ∉ g.skip) (kept : ∀ c ∈ cs, c ∉ g.skip)
    (h : read? g (.identifier { snippet }) cs = some seen) :
    ∀ d ∈ seen.draft?, ∀ number afterBlank, (d.toLine g number afterBlank).Repeatable g := by
  obtain ⟨id, rest, rfl, plain, first, -, stops, read⟩ := of_read?_identifier_stop h
  rw [String.empty_append] at read
  have isIdentifier : IsIdentifier g (String.ofList id).toList := by
    rw [String.toList_ofList]
    exact ⟨(first rfl).1, (first rfl).2, plain⟩
  have keptId : ∀ c ∈ (String.ofList id).toList, c ∉ g.skip := by
    rw [String.toList_ofList]
    exact fun c member => kept c (List.mem_append_left _ member)
  have bare (options : Option (List String)) (tokens : ∀ t ∈ options.getD [], IsToken g t)
      (number : Nat) (afterBlank : Bool) :
      (Draft.toLine g number afterBlank { snippet, identifier := .ofList id, options }).Repeatable g :=
    ⟨isIdentifier, keptId, mark, tokens, by simp [Draft.toLine, Text.trimEnd],
      by simp [Draft.toLine, Text.trimEnd]⟩
  obtain rfl | ⟨after, rfl, behind⟩ | ⟨after, rfl, behind⟩ := of_read?_stopped stops read
  · intro _ same
    exact Option.some.inj same ▸ bare none (List.forall_mem_nil _)
  · refine repeatable_of_afterHead rfl (bare none (List.forall_mem_nil _)) ?_ behind
    exact fun c member => kept c (by simp [member])
  · have unbegun : ∀ after, Closed g false after → Closed g false ([] ++ after) :=
      fun _ closed => closed
    obtain ⟨inner, rest, options, rfl, isOptions, -, behind⟩ :=
      of_read?_options unbegun (by simp [toList_lead]) behind
    rw [List.nil_append] at isOptions
    have isToken : ∀ t ∈ options, IsToken g t := by
      apply isToken_of_isOptions isOptions
      exact fun c member => ⟨ne_delimiter_of_isOptions isOptions member, kept c (by simp [member])⟩
    refine repeatable_of_afterHead rfl (bare (some options) isToken) ?_ behind
    exact fun c member => kept c (by simp [member])

/-- A line that is read can be written again. -/
theorem repeatable_of_read? (kept : ∀ c ∈ cs, c ∉ g.skip) (h : read? g .lineStart cs = some seen) :
    ∀ d ∈ seen.draft?, ∀ number afterBlank, (d.toLine g number afterBlank).Repeatable g := by
  intro d drafted
  obtain ⟨snippet, rest, mark, inside, read⟩ := exists_identifier_of_read? h drafted
  exact repeatable_of_identifier (fun marked c member => kept c (mark marked c member))
    (fun c member => kept c (inside c member)) read d drafted

/-- The phase is reached behind a text in which nothing is skipped. -/
def Phase.Reached (g : Grammar) (p : Phase) : Prop :=
  ∃ before, (∀ c ∈ before, c ∉ g.skip) ∧
    ∀ rest, p.read? g rest = read? g .lineStart (before ++ rest)

theorem invariant_repeatable (g : Grammar) : Invariant g (Phase.Reached g)
    fun d => ∀ number afterBlank, (d.toLine g number afterBlank).Repeatable g where
  start := ⟨[], List.forall_mem_nil _, fun _ => rfl⟩
  next := by
    intro p q c unskipped ⟨before, kept, reads⟩ settled
    refine ⟨before ++ [c], ?_, fun rest => ?_⟩
    · rw [List.forall_mem_append, List.forall_mem_singleton]
      exact ⟨kept, unskipped⟩
    · rw [List.append_assoc, List.singleton_append, ← reads, read?]
      simp only [settled]
  conclude := by
    intro p seen ⟨before, kept, reads⟩ concluded
    have read : read? g .lineStart before = some seen := by
      rw [← List.append_nil before, ← reads, read?, concluded]
    exact repeatable_of_read? kept read

end Scan

namespace Line
open Scan Phase

variable {g : Grammar} {l : Line}

/-- Each line of a source can be written again. -/
theorem repeatable_of_scan {source : String} {lines : List Line} (read : scan g source = .ok lines) :
    ∀ l ∈ lines, l.Repeatable g := by
  intro l member
  obtain ⟨d, number, afterBlank, repeatable, rfl⟩ := (invariant_repeatable g).of_scan read l member
  exact repeatable number afterBlank

/-- Options in their brackets. -/
def optionsText (g : Grammar) : Option (List String) → String
  | none => ""
  | some tokens => (g.optionsStart.toString ++ Text.join g.arrayDelimiter tokens).push g.optionsEnd

/-- A label behind its space. -/
def labelText (g : Grammar) : Option String → String
  | none => ""
  | some label => g.space.toString ++ label

/-- A line as it is written, without what stands around it. -/
def text (g : Grammar) (l : Line) : String :=
  (if l.snippet then g.snippetMark.text else "") ++ l.identifier ++ optionsText g l.options ++
    labelText g l.label

theorem Repeatable.kept_text (repeatable : l.Repeatable g) : ∀ c ∈ (l.text g).toList, c ∉ g.skip := by
  have structural {c : Char} (isMark : g.isStructural c) : c ∉ g.skip :=
    (Grammar.inline_structural isMark).2
  have inOptions : ∀ c ∈ (optionsText g l.options).toList, c ∉ g.skip := by
    cases options : l.options with
    | none => exact List.forall_mem_nil _
    | some tokens =>
      have isToken := repeatable.tokens
      rw [options] at isToken
      intro c member
      simp only [optionsText, String.toList_push, String.toList_append, Text.toList_join,
        Char.toString_eq_singleton, String.toList_singleton, List.mem_append, List.mem_singleton]
        at member
      obtain (rfl | inside) | rfl := member
      · exact structural (by simp [Grammar.isStructural])
      · obtain rfl | ⟨_, listed, inside⟩ := Text.mem_intercalate inside
        · exact structural (by simp [Grammar.isStructural])
        · obtain ⟨t, isOption, rfl⟩ := List.mem_map.mp listed
          exact ((isToken t isOption).inline c inside).2
      · exact structural (by simp [Grammar.isStructural])
  have inLabel : ∀ c ∈ (labelText g l.label).toList, c ∉ g.skip := by
    cases labelled : l.label with
    | none => exact List.forall_mem_nil _
    | some label =>
      have kept := (repeatable.label label labelled).kept
      simpa [labelText] using ⟨Grammar.inline_space.2, kept⟩
  have inMark : ∀ c ∈ (if l.snippet then g.snippetMark.text else "").toList, c ∉ g.skip := by
    cases snippet : l.snippet with
    | false => exact List.forall_mem_nil _
    | true => simpa [Marker.text] using repeatable.mark snippet
  simp only [text, String.toList_append, List.forall_mem_append]
  exact ⟨⟨⟨inMark, repeatable.kept⟩, inOptions⟩, inLabel⟩

/-- Behind the head of a line its label is read. -/
theorem Repeatable.read?_label (repeatable : l.Repeatable g) {d : Draft} (same : d.snippet = l.snippet) :
    read? g (.afterHead d) (labelText g l.label).toList =
      some (.tail (d.extend (l.label.getD "").toList)) := by
  cases labelled : l.label with
  | none => exact congrArg (some ∘ Seen.tail) d.extend_nil.symm
  | some label =>
    have unmarked : d.snippet = false := by
      rw [same]
      cases snippet : l.snippet with
      | false => rfl
      | true => simp [repeatable.reference snippet] at labelled
    have written : (labelText g (some label)).toList = List.replicate 1 g.space ++ label.toList := by
      simp [labelText]
    rw [written, read?_afterHead_spaces]
    exact (repeatable.label label labelled).text d unmarked _ (List.prefix_refl _)

theorem Repeatable.held_tail (repeatable : l.Repeatable g) :
    (Seen.tail (Draft.extend { snippet := l.snippet, identifier := l.identifier, options := l.options }
      (l.label.getD "").toList)).held g = .named { l with number := 1, afterBlank := false } := by
  have trimmed : Text.trimEnd g.space (l.label.getD "") = l.label.getD "" ∧
      (if l.label.getD "" = "" then none else some (l.label.getD "")) = l.label := by
    cases labelled : l.label with
    | none => exact ⟨rfl, rfl⟩
    | some label =>
      have isLabel := repeatable.label label labelled
      exact ⟨Text.trimEnd_eq_self isLabel.last, if_neg isLabel.nonempty⟩
  simp [Seen.held, Draft.toLine, Draft.extend, trimmed]

/-- What the reader finds in the text of a line. -/
theorem Repeatable.read?_text (repeatable : l.Repeatable g) (n : Nat) :
    ∃ seen, read? g .lineStart (List.replicate n g.space ++ (l.text g).toList) = some seen ∧
      seen.held g = .named { l with number := 1, afterBlank := false } := by
  have isIdentifier := repeatable.identifier
  have named : l.identifier ≠ "" := by simpa using isIdentifier.nonempty
  have whole : List.replicate n g.space ++ (l.text g).toList = Form.front g n l.snippet ++
      (l.identifier.toList ++ ((optionsText g l.options).toList ++ (labelText g l.label).toList)) := by
    cases snippet : l.snippet <;> simp [text, Form.front, snippet, Marker.text]
  have front {seen : Seen}
      (read : read? g (.identifier { snippet := l.snippet, identifier := l.identifier })
        ((optionsText g l.options).toList ++ (labelText g l.label).toList) = some seen) :
      read? g .lineStart (List.replicate n g.space ++ (l.text g).toList) = some seen := by
    rw [whole]
    apply read?_front isIdentifier
    rwa [String.ofList_toList]
  have held := repeatable.held_tail
  have label (options : Option (List String)) := repeatable.read?_label
    (d := { snippet := l.snippet, identifier := l.identifier, options }) rfl
  cases options : l.options with
  | some tokens =>
    rw [options] at held front
    have isOptions : Form.IsOptions g (Text.join g.arrayDelimiter tokens).toList tokens := by
      have isToken := repeatable.tokens
      rw [options] at isToken
      exact Form.isOptions_join isToken
    have written : (optionsText g (some tokens)).toList = g.optionsStart ::
        ((Text.join g.arrayDelimiter tokens).toList ++ [g.optionsEnd]) := by
      simp [optionsText]
    refine ⟨_, front ?_, held⟩
    rw [written, List.cons_append, List.append_assoc, List.singleton_append,
      read?_identifier_start named, read?_options isOptions]
    exact label (some tokens)
  | none =>
    rw [options] at held front
    have read := label none
    cases labelled : l.label with
    | none =>
      rw [labelled] at held front
      exact ⟨.head { snippet := l.snippet, identifier := l.identifier }, front (if_neg named), held⟩
    | some text =>
      rw [labelled] at held front read
      have written : (labelText g (some text)).toList = g.space :: text.toList := by simp [labelText]
      refine ⟨_, front ?_, held⟩
      rw [← read, written, ← List.singleton_append, ← List.replicate_one, read?_afterHead_spaces]
      exact read?_identifier_space named

/-- Any line that has been read can be written again. -/
theorem scan_text (repeatable : l.Repeatable g) (n : Nat) :
    scan g (.ofList (List.replicate n g.space) ++ l.text g) =
      .ok [{ l with number := 1, afterBlank := false }] := by
  obtain ⟨seen, read, held⟩ := repeatable.read?_text n
  have kept : ∀ c ∈ List.replicate n g.space ++ (l.text g).toList, c ∉ g.skip := by
    rw [List.forall_mem_append]
    refine ⟨fun c member => ?_, repeatable.kept_text⟩
    rw [(List.mem_replicate.mp member).2]
    exact Grammar.inline_space.2
  rw [scan, String.toList_append, String.toList_ofList, Scanner.run_of_read? (s := {}) kept read]
  have closed := Scanner.close_append_kept (g := g) {} seen []
  rw [held] at closed
  simpa [Held.kept] using closed

end Line
end ContentSchema
