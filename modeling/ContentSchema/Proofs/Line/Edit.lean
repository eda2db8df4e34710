import Mathlib.Logic.Relation
import ContentSchema.Proofs.Line.Append
import ContentSchema.Proofs.Line.Language
/-!
Edits of the layout: indents, spaces and comments behind a line that is kept, lines of comment, and
characters to skip. None of them changes what is read, up to the numbers of the lines
(`Layout.scan_of_edits`).
-/
namespace ContentSchema

namespace Text

theorem trimEnd_append_replicate (sp : Char) (text : List Char) (n : Nat) :
    trimEnd sp (.ofList (text ++ List.replicate n sp)) = trimEnd sp (.ofList text) := by
  apply String.toList_inj.mp
  rw [toList_trimEnd, toList_trimEnd, String.toList_ofList, String.toList_ofList,
    List.reverse_append, List.reverse_replicate, List.dropWhile_append_of_pos (by simp)]

end Text

namespace Form

variable {g : Grammar} {cs label rest : List Char} {n : Nat}

theorem IsEnding.append (ending : IsEnding g cs) (begun : cs ≠ []) (more : List Char) :
    IsEnding g (cs ++ more) :=
  .inr ((ending.resolve_left begun).trans (List.prefix_append cs more))

/-- A comment behind a label may go on. -/
theorem IsLabel.comment (isLabel : IsLabel g label cs) (mark : g.comment.toList <+: cs) :
    IsLabel g label (cs ++ rest) := by
  refine ⟨isLabel.head, isLabel.plain, fun i below longer => isLabel.first i below ?_⟩
  rw [← List.append_assoc, List.drop_append_of_le_length (by simp; omega)] at longer
  apply List.prefix_of_prefix_length_le longer (List.prefix_append _ rest)
  rw [List.drop_append_of_le_length (Nat.le_of_lt below), List.length_append]
  exact Nat.le_add_left_of_le mark.length_le

section

variable (unspaced : g.space ∉ g.comment.toList)
include unspaced

/-- Behind a space that stands in no comment mark, none can begin before it. -/
theorem not_comment_append {x y : List Char} (plain : ¬ g.comment.toList <+: x) :
    ¬ g.comment.toList <+: x ++ g.space :: y := by
  intro mark
  obtain inside | ⟨z, same⟩ := List.prefix_or_prefix_of_prefix mark (List.prefix_append x _)
  · exact plain inside
  · rw [← same] at mark plain unspaced
    rw [List.prefix_append_right_inj] at mark
    cases z with
    | nil => simp at plain
    | cons c z =>
      rw [List.cons_prefix_cons] at mark
      simp [mark.1] at unspaced

/-- Spaces behind a label are spaces of it, and keep the mark of a comment from what may be half a
mark. -/
theorem IsLabel.spaces (isLabel : IsLabel g label []) :
    IsLabel g (label ++ List.replicate (n + 1) g.space) rest := by
  have apart := g.apart
  constructor
  case head =>
    obtain ⟨c, first, others⟩ := isLabel.head
    refine ⟨c, ?_, others⟩
    rw [List.head?_append, first, Option.some_or]
  case plain =>
    intro c member
    obtain inside | space := List.mem_append.mp member
    · exact isLabel.plain c inside
    · rw [List.eq_of_mem_replicate space]
      grind [Grammar.isStructural]
  case first =>
    intro i below
    rw [List.length_append, List.length_replicate] at below
    have behind : (label ++ List.replicate (n + 1) g.space ++ rest).drop i = label.drop i ++
        g.space :: (List.replicate (n - (i - label.length)) g.space ++ rest) := by
      have some : n + 1 - (i - label.length) = n - (i - label.length) + 1 := by omega
      have within : i - label.length ≤ (List.replicate (n + 1) g.space).length := by
        rw [List.length_replicate]
        omega
      rw [List.append_assoc, List.drop_append, List.drop_append_of_le_length within,
        List.drop_replicate, some, List.replicate_succ, List.cons_append]
    rw [behind]
    apply not_comment_append unspaced
    by_cases inside : i < label.length
    · simpa using isLabel.first i inside
    · rw [List.drop_of_length_le (Nat.le_of_not_lt inside)]
      simp [Marker.toList]

theorem IsTail.trail {snippet : Bool} {given : Option String} (tail : IsTail g snippet cs given)
    (ending : IsEnding g rest) :
    IsTail g snippet (cs ++ (List.replicate (n + 1) g.space ++ rest)) given := by
  cases tail with
  | @bare k comment ended =>
    rw [List.append_assoc]
    by_cases begun : comment = []
    · rw [begun, List.nil_append, ← List.append_assoc, List.replicate_append_replicate]
      exact .bare (k + (n + 1)) ending
    · exact .bare k (ended.append begun _)
  | @label k label comment labelled isLabel ended =>
    rw [List.append_assoc, List.append_assoc]
    by_cases begun : comment = []
    · subst begun
      rw [List.nil_append, ← List.append_assoc label,
        ← Text.trimEnd_append_replicate g.space label (n + 1)]
      exact .label k labelled (isLabel.spaces unspaced) ending
    · exact .label k labelled (isLabel.comment (ended.resolve_left begun)) (ended.append begun _)

end

end Form

namespace Form

variable {g : Grammar} {cs rest : List Char} {held : Held} {line : Line} (n : Nat)

theorem front_indent (g : Grammar) (indent : Nat) (snippet : Bool) :
    List.replicate n g.space ++ front g indent snippet = front g (n + indent) snippet := by
  rw [front, front, ← List.append_assoc, List.replicate_append_replicate]

/-- A line holds the same however far it is indented. -/
theorem indent (form : Form g cs held) :
    Form g (List.replicate n g.space ++ cs) held := by
  cases form with
  | blank k =>
    rw [List.replicate_append_replicate]
    exact .blank (n + k)
  | remark k mark =>
    rw [← List.append_assoc, List.replicate_append_replicate]
    exact .remark (n + k) mark
  | bare k isIdentifier ending =>
    rw [← List.append_assoc, front_indent]
    exact .bare (n + k) isIdentifier ending
  | spaced k isIdentifier tail =>
    rw [← List.append_assoc, front_indent]
    exact .spaced (n + k) isIdentifier tail
  | bracketed k isIdentifier isOptions tail =>
    rw [← List.append_assoc, front_indent]
    exact .bracketed (n + k) isIdentifier isOptions tail

/-- A line that names something holds the same with spaces and a comment behind it. -/
theorem trail (unspaced : g.space ∉ g.comment.toList) (form : Form g cs (.named line))
    (ending : IsEnding g rest) :
    Form g (cs ++ (List.replicate (n + 1) g.space ++ rest)) (.named line) := by
  cases form with
  | @bare k snippet id comment isIdentifier ended =>
    rw [List.append_assoc, List.append_assoc]
    by_cases begun : comment = []
    · rw [begun, List.nil_append]
      exact .spaced k isIdentifier (.bare n ending)
    · exact .bare k isIdentifier (ended.append begun _)
  | spaced k isIdentifier tail =>
    rw [List.append_assoc, List.append_assoc, List.cons_append]
    exact .spaced k isIdentifier (tail.trail unspaced ending)
  | bracketed k isIdentifier isOptions tail =>
    rw [List.append_assoc, List.append_assoc, List.cons_append, List.append_assoc, List.cons_append]
    exact .bracketed k isIdentifier isOptions (tail.trail unspaced ending)

end Form

/-- The line wherever it stands. -/
def Line.unplaced (l : Line) : Line := { l with number := 1 }

namespace Held

/-- Lines that hold nothing but a comment only move the others. -/
theorem unplaced_kept (number other : Nat) (passed : Bool) (held : List Held) :
    (kept number passed held).map (·.unplaced) =
      (kept other passed (held.filter (· ≠ remark))).map (·.unplaced) := by
  induction held generalizing number other passed with
  | nil => rfl
  | cons h held ih =>
    cases h with
    | blank => exact ih (number + 1) (other + 1) true
    | remark => exact ih (number + 1) other passed
    | named line => exact congrArg (_ :: ·) (ih (number + 1) (other + 1) false)

theorem unplaced_records (held : List Held) : (records held).map (·.unplaced) =
    (records (held.filter (· ≠ remark))).map (·.unplaced) := by
  rw [← kept_eq_records, ← kept_eq_records, unplaced_kept 1 1]

/-- The line that was kept under a number stands at its place. -/
theorem named_of_mem_records {before after : List Held} {h : Held} {l : Line}
    (member : l ∈ records (before ++ h :: after)) (number : l.number = before.length + 1) :
    ∃ line, h = named line := by
  rw [records, List.mem_filterMap] at member
  obtain ⟨⟨h', i⟩, listed, made⟩ := member
  obtain ⟨line, inside, rfl⟩ := Option.map_eq_some_iff.mp made
  have place : i = before.length := Nat.succ.inj number
  rw [List.mem_zipIdx_iff_getElem?, place, List.getElem?_append_right (Nat.le_refl _),
    Nat.sub_self] at listed
  have same : h = h' := Option.some.inj listed
  subst same
  cases h with
  | named line => exact ⟨line, rfl⟩
  | _ => contradiction

theorem records_concat_blank (held : List Held) : records (held ++ [blank]) = records held := by
  rw [records_append]
  exact List.append_nil _

end Held

theorem forall₂_append_iff {α β : Type} {R : α → β → Prop} {l₁ l₂ : List α} {bs : List β} :
    List.Forall₂ R (l₁ ++ l₂) bs ↔
      ∃ b₁ b₂, List.Forall₂ R l₁ b₁ ∧ List.Forall₂ R l₂ b₂ ∧ bs = b₁ ++ b₂ := by
  constructor
  · intro related
    induction l₁ generalizing bs with
    | nil => exact ⟨[], bs, .nil, related, rfl⟩
    | cons a l₁ ih =>
      cases related with
      | cons first rest =>
        obtain ⟨b₁, b₂, before, after, rfl⟩ := ih rest
        exact ⟨_ :: b₁, b₂, .cons first before, after, rfl⟩
  · rintro ⟨b₁, b₂, before, after, rfl⟩
    exact List.rel_append before after

/-- A comment mark of two characters, neither of which is a space or is skipped. -/
structure Grammar.PlainComments (g : Grammar) : Prop where
  two : g.comment.size = 2
  unspaced : g.space ∉ g.comment.toList
  unskipped : ∀ c ∈ g.comment.toList, c ∉ g.skip

theorem Grammar.standard_plainComments : Grammar.standard.PlainComments :=
  ⟨rfl, by decide, by simp [Marker.toList, Grammar.standard, Markup.standard]⟩

namespace Layout

section Cut

variable {g : Grammar} {before line after : String}

/-- A line begins behind the text. -/
def BeginsLine (g : Grammar) (before : String) : Prop :=
  before = "" ∨ ∃ text : String, before = text.push g.delimiter.head

/-- A line ends before the text. -/
def EndsLine (g : Grammar) (after : String) : Prop :=
  after = "" ∨ ∃ text, after = g.delimiter.head.toString ++ text

/-- A source cut before and behind one of its lines. -/
structure IsLine (g : Grammar) (before line after : String) : Prop where
  begins : BeginsLine g before
  inner : g.delimiter.head ∉ line.toList
  follows : EndsLine g after

theorem textLines_before (begins : BeginsLine g before) : ∃ ls, ls.length =
    before.toList.count g.delimiter.head ∧
      ∀ text, textLines g (before ++ text) = ls ++ textLines g text := by
  obtain rfl | ⟨first, rfl⟩ := begins
  · exact ⟨[], rfl, fun text => by rw [String.empty_append, List.nil_append]⟩
  · refine ⟨textLines g first, ?_, textLines_push_append g first⟩
    rw [textLines_eq_map, List.length_map, length_splitOn, String.toList_push, List.count_append]
    simp

theorem textLines_after (follows : EndsLine g after) : ∃ ls, ∀ text,
    textLines g (text ++ after) = textLines g text ++ ls := by
  obtain rfl | ⟨last, rfl⟩ := follows
  · exact ⟨[], fun text => by rw [String.append_empty, List.append_nil]⟩
  · refine ⟨textLines g last, fun text => ?_⟩
    rw [← textLines_push_append, ← String.append_assoc]
    rfl

theorem textLines_line (inner : g.delimiter.head ∉ line.toList) :
    textLines g line = [line.toList.filter (· ∉ g.skip)] := by
  rw [textLines, List.splitOn_eq_singleton fun member => inner (List.mem_of_mem_filter member)]

/-- The lines around a line do not depend on it. -/
theorem IsLine.textLines (cut : IsLine g before line after) : ∃ ls ms : List (List Char),
    ls.length = before.toList.count g.delimiter.head ∧
      ∀ text : String, g.delimiter.head ∉ text.toList →
        textLines g (before ++ text ++ after) = ls ++ text.toList.filter (· ∉ g.skip) :: ms := by
  obtain ⟨ls, count, first⟩ := textLines_before cut.begins
  obtain ⟨ms, last⟩ := textLines_after cut.follows
  refine ⟨ls, ms, count, fun text inner => ?_⟩
  rw [last, first, textLines_line inner, List.append_assoc, List.singleton_append]

end Cut

/-- A comment without the end of its line. -/
def IsComment (g : Grammar) (comment : String) : Prop :=
  g.comment.toList <+: comment.toList ∧ g.delimiter.head ∉ comment.toList

/-- Spaces in a row. -/
def spaces (g : Grammar) (n : Nat) : String := .ofList (List.replicate n g.space)

/-- What may be done to the layout of a source. -/
inductive Edit (g : Grammar) : String → String → Prop where
  /-- Spaces before a line. -/
  | indent (n : Nat) {before line after : String} : IsLine g before line after →
      Edit g (before ++ line ++ after) (before ++ (spaces g n ++ line) ++ after)
  /-- Spaces, and perhaps a comment, behind a line that is kept. -/
  | trail (n : Nat) {before line after rest : String} {lines : List Line} {l : Line} :
      IsLine g before line after → scan g (before ++ line ++ after) = .ok lines → l ∈ lines →
      l.number = before.toList.count g.delimiter.head + 1 → rest = "" ∨ IsComment g rest →
      Edit g (before ++ line ++ after) (before ++ (line ++ (spaces g (n + 1) ++ rest)) ++ after)
  /-- A character to skip, anywhere. -/
  | skipped {c : Char} {before after : String} : c ∈ g.skip →
      Edit g (before ++ after) (before.push c ++ after)
  /-- A line of comment before another line. -/
  | remark (n : Nat) {before after comment : String} : BeginsLine g before → IsComment g comment →
      Edit g (before ++ after)
        (before ++ ((spaces g n ++ comment).push g.delimiter.head ++ after))
  /-- A line of comment behind the last line. -/
  | lastRemark (n : Nat) {source comment : String} : IsComment g comment →
      Edit g source (source.push g.delimiter.head ++ (spaces g n ++ comment))
  /-- A line of comment at the end, if the last line is empty. -/
  | closing (n : Nat) {source comment : String} : BeginsLine g source → IsComment g comment →
      Edit g source (source ++ (spaces g n ++ comment))

section Edits

variable {g : Grammar} {a b comment : String} {lines : List Line} (plain : g.PlainComments)

theorem not_mem_spaces (g : Grammar) (n : Nat) : g.delimiter.head ∉ (spaces g n).toList := by
  rw [spaces, String.toList_ofList]
  intro member
  exact g.apart.1.2.2.2.2.2.2.2 (List.eq_of_mem_replicate member).symm

theorem clean_spaces (g : Grammar) (n : Nat) :
    (spaces g n).toList.filter (· ∉ g.skip) = List.replicate n g.space := by
  rw [spaces, String.toList_ofList, List.filter_eq_self.mpr]
  intro c member
  simpa [List.eq_of_mem_replicate member] using g.space_not_skip

include plain

theorem prefix_clean (isComment : IsComment g comment) :
    g.comment.toList <+: comment.toList.filter (· ∉ g.skip) := by
  have kept : g.comment.toList.filter (· ∉ g.skip) = g.comment.toList :=
    List.filter_eq_self.mpr (by simpa using plain.unskipped)
  rw [← kept]
  exact isComment.1.filter _

/-- A line of comment holds nothing else. -/
theorem textLines_remark (n : Nat) (isComment : IsComment g comment) :
    ∃ l, textLines g (spaces g n ++ comment) = [l] ∧ Form g l .remark := by
  have inner : g.delimiter.head ∉ (spaces g n ++ comment).toList := by
    rw [String.toList_append, List.mem_append, not_or]
    exact ⟨not_mem_spaces g n, isComment.2⟩
  refine ⟨_, textLines_line inner, ?_⟩
  rw [String.toList_append, List.filter_append, clean_spaces]
  exact .remark n (prefix_clean plain isComment)

variable (ends : g.EndsLines)
include ends

/-- A line that is read again with the same meaning leaves the lines as they were. -/
theorem scan_of_line {before line after text : String} (cut : IsLine g before line after)
    (inner : g.delimiter.head ∉ text.toList) (read : scan g (before ++ line ++ after) = .ok lines)
    (same : ∀ held, Form g (line.toList.filter (· ∉ g.skip)) held →
      ((∃ l ∈ lines, l.number = before.toList.count g.delimiter.head + 1) →
        ∃ line, held = .named line) →
      Form g (text.toList.filter (· ∉ g.skip)) held) :
    scan g (before ++ text ++ after) = .ok lines := by
  obtain ⟨ls, ms, count, lined⟩ := cut.textLines
  obtain ⟨held, forms, rfl⟩ := (scan_iff_form ends plain.two).mp read
  rw [lined line cut.inner, forall₂_append_iff] at forms
  obtain ⟨first, _, formsBefore, formsAfter, rfl⟩ := forms
  cases formsAfter with
  | @cons _ h _ last form formsAfter =>
    apply (scan_iff_form ends plain.two).mpr
    refine ⟨first ++ h :: last, ?_, rfl⟩
    rw [lined text inner]
    apply List.rel_append formsBefore (.cons (same h form _) formsAfter)
    intro ⟨l, member, number⟩
    rw [← count, formsBefore.length_eq] at number
    exact Held.named_of_mem_records member number

theorem exists_scan_of_forms {held : List Held} (forms : List.Forall₂ (Form g) (textLines g b) held)
    (same : (Held.records (held.filter (· ≠ .remark))).map (·.unplaced) = lines.map (·.unplaced)) :
    ∃ again, scan g b = .ok again ∧ again.map (·.unplaced) = lines.map (·.unplaced) :=
  ⟨_, (scan_iff_form ends plain.two).mpr ⟨held, forms, rfl⟩,
    (Held.unplaced_records held).trans same⟩

/-- An edit changes nothing but the numbers of lines. -/
theorem scan_of_edit (edit : Edit g a b) (read : scan g a = .ok lines) :
    ∃ again, scan g b = .ok again ∧ again.map (·.unplaced) = lines.map (·.unplaced) := by
  cases edit with
  | indent n cut =>
    refine ⟨lines, scan_of_line plain ends cut ?_ read ?_, rfl⟩
    · rw [String.toList_append, List.mem_append, not_or]
      exact ⟨not_mem_spaces g n, cut.inner⟩
    · intro held form _
      rw [String.toList_append, List.filter_append, clean_spaces]
      exact form.indent n
  | @trail n _ _ _ rest lines' l cut read' member number comment =>
    have same := Except.ok.inj (read.symm.trans read')
    subst same
    have inner : g.delimiter.head ∉ rest.toList := by
      obtain rfl | comment := comment
      · exact List.not_mem_nil
      · exact comment.2
    have ending : Form.IsEnding g (rest.toList.filter (· ∉ g.skip)) := by
      obtain rfl | comment := comment
      · exact .inl rfl
      · exact .inr (prefix_clean plain comment)
    refine ⟨lines, scan_of_line plain ends cut ?_ read ?_, rfl⟩
    · simp only [String.toList_append, List.mem_append, not_or]
      exact ⟨cut.inner, not_mem_spaces g _, inner⟩
    · intro held form isNamed
      obtain ⟨line, rfl⟩ := isNamed ⟨l, member, number⟩
      simp only [String.toList_append, List.filter_append, clean_spaces]
      exact form.trail n plain.unspaced ending
  | @skipped c before after skip =>
    have same : textLines g (before.push c ++ after) = textLines g (before ++ after) := by
      simp [textLines, skip]
    refine ⟨lines, ?_, rfl⟩
    rw [scan_iff_form ends plain.two, same, ← scan_iff_form ends plain.two]
    exact read
  | @remark n before after comment begins isComment =>
    obtain ⟨held, forms, rfl⟩ := (scan_iff_form ends plain.two).mp read
    obtain ⟨ls, -, cut⟩ := textLines_before begins
    obtain ⟨l, line, form⟩ := textLines_remark plain n isComment
    rw [cut, forall₂_append_iff] at forms
    obtain ⟨first, last, formsBefore, formsAfter, rfl⟩ := forms
    have formsAgain : List.Forall₂ (Form g)
        (textLines g (before ++ ((spaces g n ++ comment).push g.delimiter.head ++ after)))
        (first ++ .remark :: last) := by
      rw [cut, textLines_push_append, line, List.singleton_append]
      exact List.rel_append formsBefore (.cons form formsAfter)
    apply exists_scan_of_forms plain ends formsAgain
    rw [Held.unplaced_records (first ++ last)]
    simp
  | @lastRemark n _ comment isComment =>
    obtain ⟨held, forms, rfl⟩ := (scan_iff_form ends plain.two).mp read
    obtain ⟨l, line, form⟩ := textLines_remark plain n isComment
    have formsAgain : List.Forall₂ (Form g)
        (textLines g (a.push g.delimiter.head ++ (spaces g n ++ comment)))
        (held ++ [.remark]) := by
      rw [textLines_push_append, line]
      exact List.rel_append forms (.cons form .nil)
    apply exists_scan_of_forms plain ends formsAgain
    rw [Held.unplaced_records held]
    simp
  | @closing n _ comment begins isComment =>
    obtain ⟨held, forms, rfl⟩ := (scan_iff_form ends plain.two).mp read
    obtain ⟨ls, -, cut⟩ := textLines_before begins
    obtain ⟨l, line, form⟩ := textLines_remark plain n isComment
    have last : textLines g a = ls ++ [[]] := by
      rw [← String.append_empty (s := a), cut]
      rfl
    rw [last, forall₂_append_iff] at forms
    obtain ⟨first, _, formsBefore, formsLast, rfl⟩ := forms
    simp only [List.forall₂_cons_left_iff, List.forall₂_nil_left_iff] at formsLast
    obtain ⟨h, _, empty, rfl, rfl⟩ := formsLast
    have formsAgain : List.Forall₂ (Form g) (textLines g (a ++ (spaces g n ++ comment)))
        (first ++ [.remark]) := by
      rw [cut, line]
      exact List.rel_append formsBefore (.cons form .nil)
    apply exists_scan_of_forms plain ends formsAgain
    -- An empty last line is blank, but nothing is kept behind it.
    rw [Form.unique plain.two List.not_mem_nil empty (.blank 0), Held.records_concat_blank,
      Held.unplaced_records first]
    simp

/-- However many edits are made to a source that can be read, it is read again, and gives the same
lines but for their numbers. -/
theorem scan_of_edits (edited : Relation.ReflTransGen (Edit g) a b) (read : scan g a = .ok lines) :
    ∃ again, scan g b = .ok again ∧ again.map (·.unplaced) = lines.map (·.unplaced) := by
  induction edited with
  | refl => exact ⟨lines, read, rfl⟩
  | tail _ edit ih =>
    obtain ⟨before, read, same⟩ := ih
    obtain ⟨again, readAgain, sameAgain⟩ := scan_of_edit plain ends edit read
    exact ⟨again, readAgain, sameAgain.trans same⟩

end Edits

end Layout

end ContentSchema
