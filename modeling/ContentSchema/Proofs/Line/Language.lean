import ContentSchema.Proofs.Line.Head
import ContentSchema.Proofs.Line.Options
/-!
The language of the reader. A line can be read exactly if it has one of the forms of the grammar,
and holds what its form says (`Form.iff_read?`), so that a source is read exactly if all of its
lines have a form (`scan_iff_form`). Comment marks are taken to have two characters: a longer one
could begin within one that has broken off.
-/
namespace ContentSchema
namespace Scan
open Form Phase

variable {g : Grammar} {d : Draft} {c : Char} {cs : List Char} {seen : Seen} {held : Held}

theorem exists_spaces (sp : Char) (cs : List Char) :
    ∃ n rest, cs = List.replicate n sp ++ rest ∧ rest.head? ≠ some sp := by
  refine ⟨(cs.takeWhile (· == sp)).length, cs.dropWhile (· == sp), ?_, ?_⟩
  · have spaces : cs.takeWhile (· == sp) = List.replicate (cs.takeWhile (· == sp)).length sp := by
      rw [List.eq_replicate_length]
      intro c member
      have same := List.mem_takeWhile_imp (p := (· == sp)) member
      exact beq_iff_eq.mp same
    rw [← spaces, List.takeWhile_append_dropWhile]
  · have first := List.head?_dropWhile_not (· == sp) cs
    intro same
    rw [same] at first
    simp at first

/-! Labels -/

section Label

variable (two : g.comment.size = 2)
include two

theorem comment_eq : ∃ x, g.comment.toList = [g.comment.head, x] := by
  obtain ⟨x, tail⟩ := List.length_eq_one_iff.mp (Nat.succ.inj two)
  exact ⟨x, by rw [Marker.toList, tail]⟩

/-- A character that opens no comment belongs to the label, also the first one of a mark. -/
theorem read?_label_push (inner : c ≠ g.delimiter.head) (plain : ¬ g.isStructural c)
    (unmarked : ¬ g.comment.toList <+: c :: cs) (labelled : d.snippet = false) :
    read? g (.label d) (c :: cs) = read? g (.label { d with label := d.label.push c }) cs := by
  obtain ⟨x, mark⟩ := comment_eq two
  by_cases opens : c = g.comment.head
  · subst opens
    have begun : read? g (.label d) (g.comment.head :: cs) =
        read? g (.commentMark (.tail d) 1) cs := by
      rw [read?_of_handOn (q := .commentMark (.tail d) 0),
        read?_of_take (q := .commentMark (.tail d) 1)]
      · simp [look, lookCommentMark, mark, two]
      · simp only [look]
        grind [lookLabel, Grammar.opensComment]
    have recovered : (Seen.tail d).recover? g 1 =
        some { d with label := d.label.push g.comment.head } := by
      simp [Seen.recover?, labelled, mark]
    rw [begun]
    cases cs with
    | nil => simp only [read?, conclude?, recovered, Option.map_some]
    | cons y cs =>
      have broken : x ≠ y := by
        intro same
        simp [mark, same] at unmarked
      rw [read?_of_handOn]
      simp only [look]
      grind [lookCommentMark]
  · apply read?_of_take
    simp only [look]
    grind [lookLabel, Grammar.opensComment, Grammar.opensDelimiter]

omit two in
theorem read?_label_ending (inner : g.delimiter.head ∉ cs) (ending : IsEnding g cs) :
    read? g (.label d) cs = some (.tail d) := by
  apply read?_ending rfl _ inner ending
  simp [look, lookLabel, Grammar.opensComment]

/-- A label is read up to the leftmost comment mark or the end of the line. -/
theorem read?_label {text rest : List Char} (inner : g.delimiter.head ∉ text ++ rest)
    (plain : ∀ c ∈ text, ¬ g.isStructural c)
    (first : ∀ i < text.length, ¬ g.comment.toList <+: (text ++ rest).drop i)
    (ending : IsEnding g rest) (labelled : d.snippet = false) :
    read? g (.label d) (text ++ rest) =
      some (.tail { d with label := d.label ++ .ofList text }) := by
  induction text generalizing d with
  | nil =>
    rw [append_ofList_nil]
    exact read?_label_ending inner ending
  | cons c text ih =>
    rw [List.cons_append, List.mem_cons, not_or] at inner
    have unmarked : ¬ g.comment.toList <+: c :: (text ++ rest) := first 0 (Nat.zero_lt_succ _)
    rw [List.cons_append, read?_label_push two (Ne.symm inner.1) (plain c List.mem_cons_self)
      unmarked labelled, append_ofList_cons]
    refine ih inner.2 ?_ ?_ labelled
    · intro x member
      exact plain x (List.mem_cons_of_mem c member)
    · intro i below
      exact first (i + 1) (Nat.succ_lt_succ below)

/-- What the reader accepts as a label reaches up to the leftmost comment mark. -/
theorem of_read?_label (inner : g.delimiter.head ∉ cs) (labelled : d.snippet = false)
    (h : read? g (.label d) cs = some seen) :
    ∃ text rest, cs = text ++ rest ∧ (∀ c ∈ text, ¬ g.isStructural c) ∧
      (∀ i < text.length, ¬ g.comment.toList <+: cs.drop i) ∧ IsEnding g rest ∧
      seen = .tail { d with label := d.label ++ .ofList text } := by
  induction cs generalizing d with
  | nil =>
    refine ⟨[], [], rfl, by simp, by simp, .inl rfl, ?_⟩
    rw [append_ofList_nil]
    exact (Option.some.inj h).symm
  | cons c cs ih =>
    by_cases mark : g.comment.toList <+: c :: cs
    · rw [read?_label_ending inner (.inr mark), Option.some.injEq] at h
      refine ⟨[], c :: cs, rfl, by simp, by simp, .inr mark, ?_⟩
      rw [append_ofList_nil, h]
    by_cases structural : g.isStructural c
    · have apart := g.apart
      exfalso
      apply look_ne_refuse h
      simp only [look]
      grind [lookLabel, Grammar.opensComment, Grammar.opensDelimiter, Grammar.isStructural]
    rw [List.mem_cons, not_or] at inner
    rw [read?_label_push two (Ne.symm inner.1) structural mark labelled] at h
    obtain ⟨text, rest, rfl, plain, first, ending, same⟩ := ih inner.2 (by exact labelled) h
    refine ⟨c :: text, rest, rfl, ?_, ?_, ending, ?_⟩
    · intro x member
      obtain rfl | member := List.mem_cons.mp member
      · exact structural
      · exact plain x member
    · intro i below
      cases i with
      | zero => exact mark
      | succ i => exact first i (Nat.lt_of_succ_lt_succ below)
    · rw [append_ofList_cons]
      exact same

end Label

/-! What stands behind the head of a line -/

theorem read?_afterHead_spaces (n : Nat) :
    read? g (.afterHead d) (List.replicate n g.space ++ cs) = read? g (.afterHead d) cs := by
  have apart := g.apart
  induction n with
  | zero => rfl
  | succ n ih =>
    rw [List.replicate_succ, List.cons_append, read?_of_take (q := .afterHead d), ih]
    simp only [look]
    grind [lookAfterHead, Grammar.opensComment]

/-- A label begins where no space, no comment and no mark does. -/
theorem read?_afterHead_label (inner : c ≠ g.delimiter.head) (other : c ≠ g.space)
    (plain : ¬ g.isStructural c) (unmarked : c ≠ g.snippetMark.head) (labelled : d.snippet = false) :
    read? g (.afterHead d) (c :: cs) = read? g (.label d) (c :: cs) := by
  by_cases commented : g.opensComment c
  · rw [read?_of_handOn (q := .commentMark (.tail d) 0),
      read?_of_handOn (p := .label d) (q := .commentMark (.tail d) 0)]
    · simp only [look, lookLabel, if_pos commented]
    · simp only [look, lookAfterHead, if_pos commented]
  · rw [read?_of_handOn (q := .label d)]
    simp only [look]
    grind [lookAfterHead, Grammar.opensSnippet, Grammar.opensDelimiter]

theorem trimEnd_ne_empty {sp : Char} {text : List Char} (nonempty : text ≠ [])
    (first : text.head? ≠ some sp) : Text.trimEnd sp (.ofList text) ≠ "" := by
  intro empty
  have kept : (Text.trimEnd sp (.ofList text)).toList = [] := by rw [empty]; rfl
  rw [Text.toList_trimEnd, String.toList_ofList, List.reverse_eq_nil_iff,
    List.dropWhile_eq_nil_iff] at kept
  obtain ⟨c, rest, rfl⟩ := List.exists_cons_of_ne_nil nonempty
  have spaced := kept c (by simp)
  exact first (congrArg some (beq_iff_eq.mp spaced))

section Tail

variable (inner : g.delimiter.head ∉ cs)
include inner

theorem read?_bare {rest : List Char} {n : Nat} (cut : cs = List.replicate n g.space ++ rest)
    (ending : IsEnding g rest) : read? g (.afterHead d) cs = some (.tail d) := by
  subst cut
  rw [read?_afterHead_spaces]
  apply read?_ending rfl _ _ ending
  · simp [look, lookAfterHead, Grammar.opensComment]
  · intro member
    exact inner (List.mem_append_right _ member)

variable (two : g.comment.size = 2) (unread : d.label = "")
include two unread

theorem read?_tail {label : Option String} (tail : IsTail g d.snippet cs label) :
    ∃ seen, read? g (.afterHead d) cs = some seen ∧
      seen.held g = .named
        { snippet := d.snippet, identifier := d.identifier, options := d.options, label } := by
  cases tail with
  | bare n ending =>
    refine ⟨.tail d, read?_bare inner rfl ending, ?_⟩
    simp [Seen.held, Draft.toLine, unread, Text.trimEnd]
  | @label n text rest labelled isLabel ending =>
    obtain ⟨c, begins, other, unmarked⟩ := isLabel.head
    have nonempty : text ≠ [] := by
      intro empty
      simp [empty] at begins
    have full := trimEnd_ne_empty nonempty (begins ▸ fun same => other (Option.some.inj same))
    have inner' : g.delimiter.head ∉ text ++ rest :=
      fun member => inner (List.mem_append_right _ member)
    have read := read?_label two (d := d) inner' isLabel.plain isLabel.first ending labelled
    refine ⟨.tail { d with label := d.label ++ .ofList text }, ?_, ?_⟩
    · rw [read?_afterHead_spaces, ← read]
      cases text with
      | nil => contradiction
      | cons x text =>
        rw [List.head?_cons, Option.some.injEq] at begins
        subst begins
        have foreign : x ≠ g.delimiter.head := by
          intro same
          simp [same] at inner'
        exact read?_afterHead_label foreign other (isLabel.plain x List.mem_cons_self) unmarked
          labelled
    · simp only [Seen.held, Draft.toLine, unread, String.empty_append, if_neg full]

/-- What the reader accepts behind the head of a line is a tail. -/
theorem of_read?_afterHead (h : read? g (.afterHead d) cs = some seen) :
    ∃ label, IsTail g d.snippet cs label ∧
      seen.held g = .named
        { snippet := d.snippet, identifier := d.identifier, options := d.options, label } := by
  obtain ⟨n, rest, rfl, first⟩ := exists_spaces g.space cs
  have inner' : g.delimiter.head ∉ rest := fun member => inner (List.mem_append_right _ member)
  by_cases ending : IsEnding g rest
  · rw [read?_bare inner rfl ending, Option.some.injEq] at h
    refine ⟨none, .bare n ending, ?_⟩
    simp [← h, Seen.held, Draft.toLine, unread, Text.trimEnd]
  rw [read?_afterHead_spaces] at h
  cases rest with
  | nil => exact absurd (.inl rfl) ending
  | cons c rest =>
    have other : c ≠ g.space := fun same => first (congrArg some same)
    have foreign : c ≠ g.delimiter.head := by
      intro same
      simp [same] at inner'
    have apart := g.apart
    by_cases snippet : d.snippet
    · by_cases opens : c = g.comment.head
      · rw [read?_of_handOn (q := .commentMark (.tail d) 0),
          read?_commentMark_iff (settled_tail snippet) g.comment.size_pos inner'] at h
        · exact absurd (.inr h.1) ending
        · simp [look, lookAfterHead, opens, Grammar.opensComment]
      · exfalso
        apply look_ne_refuse h
        simp only [look]
        grind [lookAfterHead, Grammar.opensComment, Grammar.opensDelimiter]
    by_cases marked : g.isStructural c ∨ c = g.snippetMark.head
    · exfalso
      apply look_ne_refuse h
      simp only [look]
      grind [lookAfterHead, Grammar.opensComment, Grammar.opensDelimiter, Grammar.opensSnippet,
        Grammar.isStructural]
    rw [not_or] at marked
    rw [Bool.not_eq_true] at snippet
    rw [read?_afterHead_label foreign other marked.1 marked.2 snippet] at h
    obtain ⟨text, rest', cut, plain, leftmost, ended, rfl⟩ := of_read?_label two inner' snippet h
    cases text with
    | nil =>
      rw [List.nil_append] at cut
      exact absurd (cut ▸ ended) ending
    | cons x text =>
      rw [cut] at leftmost ⊢
      have same : c = x := List.head_eq_of_cons_eq cut
      subst same
      have isLabel : IsLabel g (c :: text) rest' :=
        ⟨⟨c, rfl, other, marked.2⟩, plain, leftmost⟩
      have full : Text.trimEnd g.space (.ofList (c :: text)) ≠ "" :=
        trimEnd_ne_empty (List.cons_ne_nil c text) (by simpa using other)
      refine ⟨_, .label n snippet isLabel ended, ?_⟩
      simp only [Seen.held, Draft.toLine, unread, String.empty_append, if_neg full]

end Tail

section Line

theorem read?_front {n : Nat} {snippet : Bool} {id : List Char} (isIdentifier : IsIdentifier g id)
    (read : read? g (.identifier { snippet, identifier := .ofList id }) cs = some seen) :
    read? g .lineStart (front g n snippet ++ (id ++ cs)) = some seen := by
  have whole : read? g (.identifier { snippet }) (id ++ cs) = some seen := by
    rw [read?_identifier isIdentifier.plain fun _ => isIdentifier.head, String.empty_append]
    exact read
  have apart := g.apart
  rw [front, List.append_assoc, read?_indent]
  cases snippet with
  | false =>
    rw [if_neg Bool.false_ne_true, List.nil_append]
    obtain ⟨c, id, rfl⟩ := List.exists_cons_of_ne_nil isIdentifier.nonempty
    have plain : ¬ g.isReserved c := by
      obtain same | plain := isIdentifier.plain c List.mem_cons_self
      · exact absurd (congrArg some same) isIdentifier.head
      · exact plain
    rw [List.cons_append] at whole ⊢
    rw [read?_of_handOn (q := .identifier {}), whole]
    simp only [look]
    grind [lookLineStart, Grammar.isReserved]
  | true =>
    have begins : g.snippetMark.toList = g.snippetMark.head :: g.snippetMark.tail := rfl
    rw [if_pos rfl, begins, List.cons_append, read?_of_handOn (q := .snippetMark 0), ← List.cons_append,
      ← begins]
    · exact (read?_snippetMark_iff g.snippetMark.size_pos).mpr ⟨_, rfl, whole⟩
    · simp only [look]
      grind [lookLineStart, Grammar.opensComment, Grammar.opensDelimiter, Grammar.opensSnippet,
        Grammar.isStructural]

/-- What the reader accepts behind the front of a line makes it a line with an identifier. -/
theorem form_of_identifier {snippet : Bool} (two : g.comment.size = 2)
    (inner : g.delimiter.head ∉ cs) (h : read? g (.identifier { snippet }) cs = some seen)
    (n : Nat) : Form g (front g n snippet ++ cs) (seen.held g) := by
  obtain ⟨id, rest, rfl, plain, first, behind⟩ := of_read?_identifier inner h
  have isIdentifier : IsIdentifier g id := ⟨(first rfl).1, (first rfl).2, plain⟩
  rw [String.empty_append] at behind
  rw [List.mem_append, not_or] at inner
  cases behind with
  | ending ending =>
    simpa [Seen.held, Draft.toLine, Text.trimEnd] using Form.bare n isIdentifier ending
  | space read =>
    rw [List.mem_cons, not_or] at inner
    obtain ⟨label, tail, same⟩ := of_read?_afterHead inner.2.2 two rfl read
    rw [same]
    exact .spaced n isIdentifier tail
  | start read =>
    rw [List.mem_cons, not_or] at inner
    have unbegun : ∀ after, Closed g false after → Closed g false ([] ++ after) :=
      fun _ closed => closed
    obtain ⟨options, rest, given, rfl, isOptions, -, read⟩ :=
      of_read?_options unbegun (by simp [toList_lead]) read
    rw [List.mem_append, not_or, List.mem_cons, not_or] at inner
    obtain ⟨label, tail, same⟩ := of_read?_afterHead inner.2.2.2.2 two rfl read
    rw [same]
    exact .bracketed n isIdentifier isOptions tail

variable (two : g.comment.size = 2) (inner : g.delimiter.head ∉ cs)
include two inner

theorem read?_form (form : Form g cs held) :
    ∃ seen, read? g .lineStart cs = some seen ∧ seen.held g = held := by
  cases form with
  | blank n =>
    refine ⟨.nothing, ?_, rfl⟩
    rw [← List.append_nil (List.replicate n g.space), read?_indent, read?, conclude?]
  | @remark n rest mark =>
    refine ⟨.remark, ?_, rfl⟩
    rw [read?_indent]
    cases rest with
    | nil => exact absurd mark (by simp [Marker.toList])
    | cons c rest =>
      have opens := mark
      rw [Marker.toList, List.cons_prefix_cons] at opens
      have other : c ≠ g.space := opens.1 ▸ g.apart.1.2.2.2.2.2.1.symm
      rw [read?_lineStart_iff other fun member => inner (List.mem_append_right _ member)]
      exact .inl ⟨mark, rfl⟩
  | @bare n snippet id rest isIdentifier ending =>
    have named : String.ofList id ≠ "" := by simpa using isIdentifier.nonempty
    refine ⟨.head { snippet, identifier := .ofList id }, ?_, ?_⟩
    · apply read?_front isIdentifier
      exact read?_of_behind named (by simp_all) (.ending ending)
    · simp [Seen.held, Draft.toLine, Text.trimEnd]
  | @spaced n snippet id rest label isIdentifier tail =>
    have named : String.ofList id ≠ "" := by simpa using isIdentifier.nonempty
    obtain ⟨seen, read, same⟩ := read?_tail (d := { snippet, identifier := .ofList id })
      (by simp_all) two rfl tail
    refine ⟨seen, ?_, same⟩
    apply read?_front isIdentifier
    exact read?_of_behind named (by simp_all) (.space read)
  | @bracketed n snippet id text rest options label isIdentifier isOptions tail =>
    have named : String.ofList id ≠ "" := by simpa using isIdentifier.nonempty
    obtain ⟨seen, read, same⟩ := read?_tail
      (d := { snippet, identifier := .ofList id, options := some options })
      (by simp_all) two rfl tail
    refine ⟨seen, ?_, same⟩
    apply read?_front isIdentifier
    exact read?_of_behind named (by simp_all) (.start ((read?_options isOptions).trans read))

theorem of_read?_lineStart (h : read? g .lineStart cs = some seen) : Form g cs (seen.held g) := by
  obtain ⟨n, rest, rfl, first⟩ := exists_spaces g.space cs
  rw [read?_indent] at h
  rw [List.mem_append, not_or] at inner
  cases rest with
  | nil =>
    rw [read?, conclude?, Option.some.injEq] at h
    rw [← h, List.append_nil]
    exact .blank n
  | cons c rest =>
    have other : c ≠ g.space := fun same => first (congrArg some same)
    obtain ⟨mark, rfl⟩ | read | ⟨rest', cut, read⟩ := (read?_lineStart_iff other inner.2).mp h
    · exact .remark n mark
    · have form := form_of_identifier two inner.2 read n
      rwa [front, if_neg Bool.false_ne_true, List.append_nil] at form
    · rw [cut, List.mem_append, not_or] at inner
      have form := form_of_identifier two inner.2.2 read n
      rwa [front, if_pos rfl, List.append_assoc, ← cut] at form

end Line

end Scan

theorem Form.iff_read? {g : Grammar} {cs : List Char} {held : Held} (two : g.comment.size = 2)
    (inner : g.delimiter.head ∉ cs) : Form g cs held ↔
      ∃ seen, Scan.Phase.lineStart.read? g cs = some seen ∧ seen.held g = held := by
  constructor
  · exact Scan.read?_form two inner
  · intro ⟨seen, read, same⟩
    rw [← same]
    exact Scan.of_read?_lineStart two inner read

/-- What a line holds is given by its text. -/
theorem Form.unique {g : Grammar} {cs : List Char} {held held' : Held} (two : g.comment.size = 2)
    (inner : g.delimiter.head ∉ cs) (form : Form g cs held) (form' : Form g cs held') :
    held = held' := by
  obtain ⟨seen, read, rfl⟩ := (Form.iff_read? two inner).mp form
  obtain ⟨seen', read', rfl⟩ := (Form.iff_read? two inner).mp form'
  rw [read, Option.some.injEq] at read'
  rw [read']

theorem not_mem_of_mem_splitOn {a : Char} {cs l : List Char} (member : l ∈ cs.splitOn a) :
    a ∉ l := by
  induction cs generalizing l with
  | nil =>
    rw [List.splitOn_nil, List.mem_singleton] at member
    rw [member]
    exact List.not_mem_nil
  | cons c cs ih =>
    rw [List.splitOn_cons_eq_if_modifyHead] at member
    split at member
    · obtain rfl | member := List.mem_cons.mp member
      · exact List.not_mem_nil
      · exact ih member
    · next other =>
      obtain ⟨first, others, rest⟩ := List.exists_cons_of_ne_nil (List.splitOn_ne_nil a cs)
      rw [rest, List.modifyHead_cons] at member
      rw [rest] at ih
      obtain rfl | member := List.mem_cons.mp member
      · rw [List.mem_cons, not_or]
        exact ⟨fun same => other (beq_iff_eq.mpr same.symm), ih List.mem_cons_self⟩
      · exact ih (List.mem_cons_of_mem first member)

theorem forall₂_form_iff {g : Grammar} (two : g.comment.size = 2) {ls : List (List Char)}
    {held : List Held} (inner : ∀ l ∈ ls, g.delimiter.head ∉ l) :
    List.Forall₂ (Form g) ls held ↔ ∃ seens,
      List.Forall₂ (fun l seen => Scan.Phase.lineStart.read? g l = some seen) ls seens ∧
        held = seens.map (·.held g) := by
  constructor
  · intro forms
    induction forms with
    | nil => exact ⟨[], .nil, rfl⟩
    | cons form _ ih =>
      obtain ⟨seen, read, rfl⟩ := (Form.iff_read? two (inner _ List.mem_cons_self)).mp form
      obtain ⟨seens, readAll, rfl⟩ := ih fun l member => inner l (List.mem_cons_of_mem _ member)
      exact ⟨seen :: seens, .cons read readAll, rfl⟩
  · intro ⟨seens, readAll, same⟩
    subst same
    induction readAll with
    | nil => exact .nil
    | cons read _ ih =>
      apply List.Forall₂.cons
      · exact (Form.iff_read? two (inner _ List.mem_cons_self)).mpr ⟨_, read, rfl⟩
      · exact ih fun l member => inner l (List.mem_cons_of_mem _ member)

/-- A source is read exactly if its lines have forms, and gives the lines that these name. -/
theorem scan_iff_form {g : Grammar} (ends : g.EndsLines) (two : g.comment.size = 2)
    {source : String} {lines : List Line} :
    scan g source = .ok lines ↔ ∃ held,
      List.Forall₂ (Form g) (textLines g source) held ∧ lines = Held.records held := by
  have inner : ∀ l ∈ textLines g source, g.delimiter.head ∉ l :=
    fun l member => not_mem_of_mem_splitOn member
  rw [scan_eq_ok_iff ends]
  constructor
  · intro ⟨seens, read, kept⟩
    exact ⟨_, (forall₂_form_iff two inner).mpr ⟨seens, read, rfl⟩, kept⟩
  · intro ⟨held, forms, kept⟩
    obtain ⟨seens, read, rfl⟩ := (forall₂_form_iff two inner).mp forms
    exact ⟨seens, read, kept⟩

theorem exists_forall₂ {α β : Type} {R : α → β → Prop} {l : List α} :
    (∃ l', List.Forall₂ R l l') ↔ ∀ a ∈ l, ∃ b, R a b := by
  induction l with
  | nil => simp
  | cons a l ih =>
    rw [List.forall_mem_cons, ← ih]
    constructor
    · intro ⟨_, related⟩
      cases related with
      | cons first rest => exact ⟨⟨_, first⟩, _, rest⟩
    · intro ⟨⟨b, first⟩, l', rest⟩
      exact ⟨b :: l', .cons first rest⟩

theorem textLines_standard (source : String) :
    textLines .standard source = (source.toList.filter (· ≠ '\r')).splitOn '\n' := by
  have skipped (c : Char) : c ∈ Grammar.standard.skip ↔ c = '\r' := List.mem_singleton
  simp only [textLines, skipped]
  rfl

/-- In the standard grammar a source, without its carriage returns and cut at its newlines, is read
exactly if each of its lines has a form, and gives the lines that these name. -/
theorem scan_standard_reads_forms (source : String) :
    ((∃ lines, scan .standard source = .ok lines) ↔
      ∀ l ∈ (source.toList.filter (· ≠ '\r')).splitOn '\n', ∃ held, Form .standard l held) ∧
    ∀ lines, scan .standard source = .ok lines ↔ ∃ held,
      List.Forall₂ (Form .standard) ((source.toList.filter (· ≠ '\r')).splitOn '\n') held ∧
        lines = Held.records held := by
  rw [← textLines_standard, ← exists_forall₂]
  have reads (lines : List Line) : scan .standard source = .ok lines ↔ ∃ held,
      List.Forall₂ (Form .standard) (textLines .standard source) held ∧
        lines = Held.records held :=
    scan_iff_form Grammar.standard_endsLines rfl
  refine ⟨?_, reads⟩
  constructor
  · intro ⟨lines, read⟩
    obtain ⟨held, forms, _⟩ := (reads lines).mp read
    exact ⟨held, forms⟩
  · intro ⟨held, forms⟩
    exact ⟨_, (reads _).mpr ⟨held, forms, rfl⟩⟩

end ContentSchema
