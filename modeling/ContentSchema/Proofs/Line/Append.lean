import Mathlib.Data.List.Induction
import ContentSchema.Proofs.Line.Head
import ContentSchema.Proofs.Line.Invariant
/-!
Reading is compositional. Where a line ends with one character of its own, a text, a delimiter and a
second text are read as the two texts are read by themselves: of the first, only how many lines it
has and whether it ends with a blank line matters to the second (`scan_push_append`).
-/
namespace ContentSchema

theorem filter_splitOn {α : Type} [BEq α] [LawfulBEq α] {p : α → Bool} {a : α} (keeps : p a)
    (l : List α) : (l.filter p).splitOn a = (l.splitOn a).map (·.filter p) := by
  induction l with
  | nil => rfl
  | cons x l ih =>
    obtain ⟨first, others, rest⟩ := List.exists_cons_of_ne_nil (List.splitOn_ne_nil a l)
    rw [List.splitOn_cons_eq_if_modifyHead, rest]
    by_cases same : x = a
    · subst same
      rw [List.filter_cons_of_pos keeps, List.splitOn_cons_eq_if_modifyHead, ih, rest]
      simp
    · by_cases kept : p x
      · rw [List.filter_cons_of_pos kept, List.splitOn_cons_eq_if_modifyHead, ih, rest]
        simp [same, kept]
      · rw [List.filter_cons_of_neg kept, ih, rest]
        simp [same, kept]

theorem length_splitOn {α : Type} [BEq α] [LawfulBEq α] (a : α) (l : List α) :
    (l.splitOn a).length = l.count a + 1 := by
  induction l with
  | nil => rfl
  | cons x l ih =>
    rw [List.splitOn_cons_eq_if_modifyHead, List.count_cons]
    split <;> simp [ih]

/-- The error of a text that stands behind `count` other characters. -/
def ParseError.later (count : Nat) : ParseError → ParseError
  | unexpected c index stage => unexpected c (index + count) stage
  | unterminated stage index => unterminated stage (index + count)
  | e => e

/-- The error of a text that a delimiter follows, at the index, in place of the end. -/
def ParseError.before (delimiter : Char) (index : Nat) : ParseError → ParseError
  | unterminated stage _ => unexpected delimiter index stage
  | e => e

theorem Grammar.delimiter_not_skip (g : Grammar) : g.delimiter.head ∉ g.skip := fun skipped =>
  g.not_reserved_of_skip _ skipped (by simp [Markup.reservedChars, Markup.reserved])

theorem Grammar.space_not_skip (g : Grammar) : g.space ∉ g.skip := fun skipped =>
  g.not_reserved_of_skip _ skipped (by simp [Markup.reservedChars, Markup.reserved])

namespace Line

/-- The lines of a text that stands behind `count` others: they are numbered on, and the first is
also behind a blank line if the others end with one. -/
def behind (count : Nat) (endsBlank : Bool) : List Line → List Line
  | [] => []
  | l :: ls =>
    { l with number := l.number + count, afterBlank := l.afterBlank || endsBlank } ::
      ls.map fun l => { l with number := l.number + count }

/-- The number of the last line that was kept, none if there is none. -/
def lastNumber (lines : List Line) : Nat := (lines.getLast?.map (·.number)).getD 0

theorem behind_false (count : Nat) (lines : List Line) :
    behind count false lines = lines.map fun l => { l with number := l.number + count } := by
  cases lines <;> simp [behind]

end Line

namespace Held

theorem kept_append (before first second : List Held) :
    kept (before.length + 1) (endBlank before) (first ++ second) =
      kept (before.length + 1) (endBlank before) first ++
        kept ((before ++ first).length + 1) (endBlank (before ++ first)) second := by
  induction first generalizing before with
  | nil => simp [kept]
  | cons h first ih =>
    have later := ih (before ++ [h])
    rw [endBlank_concat, List.length_append, List.append_assoc] at later
    cases h <;> simpa [kept] using later

theorem kept_behind (number count : Nat) (passed endsBlank : Bool) (held : List Held) :
    kept (number + count) (passed || endsBlank) held =
      Line.behind count endsBlank (kept number passed held) := by
  induction held generalizing number passed endsBlank with
  | nil => rfl
  | cons h held ih =>
    cases h with
    | blank =>
      have later := ih (number + 1) true endsBlank
      rwa [Bool.true_or, Nat.add_right_comm] at later
    | remark =>
      have later := ih (number + 1) passed endsBlank
      rwa [Nat.add_right_comm] at later
    | named line =>
      have later := ih (number + 1) false false
      rw [Bool.false_or, Nat.add_right_comm, Line.behind_false] at later
      simp only [kept, Line.behind, later]

/-- The lines kept of two texts, one behind the other. -/
theorem records_append (first second : List Held) :
    records (first ++ second) =
      records first ++ Line.behind first.length (endBlank first) (records second) := by
  have whole := kept_append [] first second
  have later := kept_behind 1 first.length false (endBlank first) second
  rw [Bool.false_or, Nat.add_comm] at later
  simp only [← kept_eq_records, ← later]
  exact whole

/-- A blank line behind the last line that names something stands behind the number of that line. -/
theorem endBlank_eq_contains (held : List Held) : Line.lastNumber (records held) ≤ held.length ∧
    endBlank held = (held.drop (Line.lastNumber (records held))).contains blank := by
  -- From the end: a line that names something leaves nothing behind its number.
  induction held using List.reverseRecOn with
  | nil => exact ⟨Nat.le_refl _, rfl⟩
  | append_singleton held h ih =>
    obtain ⟨bound, same⟩ := ih
    rw [endBlank_concat, records_append, List.length_append]
    have more : Line.lastNumber (records held) ≤ held.length + 1 := Nat.le_succ_of_le bound
    cases h with
    | blank =>
      have none : records [blank] = [] := rfl
      rw [none, Line.behind, List.append_nil, List.drop_append_of_le_length bound]
      exact ⟨more, by simp⟩
    | remark =>
      have none : records [remark] = [] := rfl
      rw [none, Line.behind, List.append_nil, List.drop_append_of_le_length bound]
      exact ⟨more, by simp [same]⟩
    | named line =>
      have last : Line.lastNumber (records held ++
          Line.behind held.length (endBlank held) (records [named line])) = held.length + 1 := by
        rw [Line.lastNumber, List.getLast?_append]
        exact Nat.add_comm 1 held.length
      rw [last, List.drop_of_length_le (by simp)]
      exact ⟨Nat.le_refl _, rfl⟩

end Held

namespace Scan

variable {g : Grammar} {p q : Phase} {c : Char} {cs : List Char} {seen : Seen}

/-- The line holds more than spaces. -/
def Phase.Begun : Phase → Prop
  | lineStart => False
  | commentMark seen _ => seen ≠ .nothing
  | comment seen => seen ≠ .nothing
  | delimiter seen _ => seen ≠ .nothing
  | _ => True

theorem kept_begun (g : Grammar) : Kept g Phase.Begun where
  take := by
    intro p q c begun taken
    cases p <;> simp only [look] at taken
    case lineStart => contradiction
    case snippetMark => grind [lookSnippetMark, Phase.Begun]
    case identifier => grind [lookIdentifier, Phase.Begun]
    case options => grind [lookOptions, Phase.Begun]
    case afterHead => grind [lookAfterHead, Phase.Begun]
    case label => grind [lookLabel, Phase.Begun]
    case commentMark => grind [lookCommentMark, Phase.Begun]
    case comment => grind [lookComment, Phase.Begun]
    case delimiter => grind [lookDelimiter, Phase.Begun]
  handOn := by
    intro p q c begun handed
    cases p <;> simp only [look] at handed
    case lineStart => contradiction
    case snippetMark => grind [lookSnippetMark]
    case identifier => grind [lookIdentifier, Phase.Begun]
    case options => grind [lookOptions]
    case afterHead => grind [lookAfterHead, Phase.Begun]
    case label => grind [lookLabel, Phase.Begun]
    case commentMark => grind [lookCommentMark, Phase.Begun]
    case comment => grind [lookComment, Phase.Begun]
    case delimiter => grind [lookDelimiter]

theorem conclude?_ne_of_begun (begun : p.Begun) : p.conclude? g ≠ some .nothing := by
  cases p <;> simp only [Phase.conclude?]
  case commentMark seen matched => cases seen.recover? g matched <;> simp
  case identifier d => split <;> simp
  all_goals grind [Phase.Begun]

section EndsLines

variable (ends : g.EndsLines)
include ends

/-- Whatever is no space begins the line. -/
theorem begun_of_settle (other : c ≠ g.space) (settled : settle g .lineStart c = .next q) :
    q.Begun := by
  have passed (next : Phase) (handed : look g .lineStart c = .handOn next) (begun : next.Begun) :
      q.Begun := (kept_begun g).of_settle begun (settle_of_handOn handed ▸ settled)
  by_cases delimits : c = g.delimiter.head
  · rw [delimits, settle_delimiter ends (p := .lineStart) trivial] at settled
    contradiction
  by_cases opens : g.opensComment c
  · exact passed (.commentMark .remark 0) (if_pos opens) nofun
  have delimited : ¬ g.opensDelimiter c := by simpa [Grammar.opensDelimiter] using delimits
  by_cases structural : g.isStructural c
  · have refused : look g .lineStart c = .refuse := by
      simp only [look, lookLineStart, if_neg opens, if_neg other, if_neg delimited, if_pos structural]
    rw [settle_of_refuse refused] at settled
    contradiction
  by_cases marked : g.opensSnippet c
  · apply passed (.snippetMark 0) _ trivial
    simp only [look, lookLineStart, if_neg opens, if_neg other, if_neg delimited, if_neg structural,
      if_pos marked]
  · apply passed (.identifier {}) _ trivial
    simp only [look, lookLineStart, if_neg opens, if_neg other, if_neg delimited, if_neg structural,
      if_neg marked]

/-- A blank line is one of spaces. -/
theorem read?_eq_nothing_iff :
    Phase.lineStart.read? g cs = some .nothing ↔ ∀ c ∈ cs, c = g.space := by
  induction cs with
  | nil => simp [Phase.read?, Phase.conclude?]
  | cons c cs ih =>
    rw [List.forall_mem_cons]
    by_cases space : c = g.space
    · have taken : Phase.lineStart.read? g (g.space :: cs) = Phase.lineStart.read? g cs :=
        read?_indent 1
      rw [space, taken, ih]
      simp
    · simp only [space, false_and, iff_false]
      intro read
      rw [Phase.read?] at read
      cases settled : settle g .lineStart c with
      | next q =>
        simp only [settled] at read
        obtain ⟨last, begun, concluded⟩ :=
          (kept_begun g).of_read? (begun_of_settle ends space settled) read
        exact conclude?_ne_of_begun begun concluded
      | endLine _ => simp [settled] at read
      | refused _ => simp [settled] at read

end EndsLines

/-- The blank ones among lines that have been read are those of spaces. -/
theorem contains_blank (ends : g.EndsLines) {ls : List (List Char)} {seens : List Seen}
    (readAll : List.Forall₂ (fun l seen => Phase.lineStart.read? g l = some seen) ls seens) :
    (seens.map (·.held g)).contains .blank = ls.any (·.all (· == g.space)) := by
  induction readAll with
  | nil => rfl
  | @cons l seen ls seens read readAll ih =>
    have blank : (Held.blank == seen.held g) = l.all (· == g.space) := by
      rw [Bool.eq_iff_iff, List.all_eq_true, beq_iff_eq]
      simp only [beq_iff_eq]
      rw [← read?_eq_nothing_iff ends, read]
      cases seen <;> simp [Seen.held]
    rw [List.map_cons, List.contains_cons, List.any_cons, ih, blank]

end Scan

namespace Scanner
open Scan

variable {g : Grammar} {s t : Scanner} {i : Nat} {cs : List Char} {e : ParseError}

/-- Where and why a text is refused depends on the phase, and on nothing else that has been read. -/
theorem run_later (same : t.phase = s.phase) (failed : s.run g i cs = .error e) (count : Nat) :
    t.run g (i + count) cs = .error (e.later count) := by
  induction cs generalizing s t i with
  | nil =>
    rw [run, finish] at failed ⊢
    rw [same]
    cases concluded : s.phase.conclude? g with
    | some seen => simp [concluded] at failed
    | none =>
      simp only [concluded, Except.error.injEq] at failed
      rw [← failed]
      rfl
  | cons c cs ih =>
    rw [run] at failed ⊢
    rw [Nat.add_right_comm]
    by_cases skipped : c ∈ g.skip
    · rw [if_pos skipped] at failed ⊢
      exact ih same failed
    · rw [if_neg skipped, feed] at failed ⊢
      rw [same]
      cases settled : settle g s.phase c with
      | next p =>
        simp only [settled] at failed ⊢
        exact ih (by rfl) failed
      | endLine seen =>
        simp only [settled] at failed ⊢
        exact ih (by rfl) failed
      | refused stage =>
        simp only [settled, Except.error.injEq] at failed
        rw [← failed]
        rfl

/-- A character is refused, whatever stands behind it, or the reader goes on in a phase of which holds
what is kept. -/
theorem run_step (holds : Phase → Prop) (start : holds .lineStart) (held : holds s.phase)
    (keeps : ∀ c q, settle g s.phase c = .next q → holds q) (i : Nat) (c : Char) :
    (∃ t : Scanner, holds t.phase ∧ ∀ cs, s.run g i (c :: cs) = t.run g (i + 1) cs) ∨
      c ∉ g.skip ∧ ∃ stage, ∀ cs, s.run g i (c :: cs) = .error (.unexpected c i stage) := by
  by_cases skipped : c ∈ g.skip
  · exact .inl ⟨s, held, fun cs => by rw [run, if_pos skipped]⟩
  · cases settled : settle g s.phase c with
    | next p =>
      refine .inl ⟨{ s with phase := p }, keeps c p settled, fun cs => ?_⟩
      rw [run, if_neg skipped, feed, settled]
    | endLine seen =>
      refine .inl ⟨{ s.close g seen with phase := .lineStart, number := s.number + 1 }, start, ?_⟩
      intro cs
      rw [run, if_neg skipped, feed, settled]
    | refused stage =>
      refine .inr ⟨skipped, stage, fun cs => ?_⟩
      rw [run, if_neg skipped, feed, settled]

section EndsLines

variable (ends : g.EndsLines) (waits : s.phase.Waits)
include ends waits

theorem run_cons (i : Nat) (c : Char) :
    (∃ t : Scanner, t.phase.Waits ∧ ∀ cs, s.run g i (c :: cs) = t.run g (i + 1) cs) ∨
      c ∉ g.skip ∧ ∃ stage, ∀ cs, s.run g i (c :: cs) = .error (.unexpected c i stage) :=
  run_step Phase.Waits trivial waits (fun _ _ => waits_of_settle ends) i c

/-- A delimiter is refused where the source must not end; elsewhere a new line begins behind it. -/
theorem run_delimiter (i : Nat) (rest : List Char) :
    (∃ seen, s.phase.conclude? g = some seen ∧ ∃ t : Scanner, t.phase = .lineStart ∧
      s.run g i (g.delimiter.head :: rest) = t.run g (i + 1) rest) ∨
    (s.phase.conclude? g = none ∧
      s.run g i (g.delimiter.head :: rest) =
        .error (.unexpected g.delimiter.head i s.phase.stage)) := by
  rw [run, if_neg g.delimiter_not_skip, feed, settle_delimiter ends waits]
  cases s.phase.conclude? g with
  | none => exact .inr ⟨rfl, rfl⟩
  | some seen => exact .inl ⟨seen, rfl, _, rfl, rfl⟩

/-- What is refused is refused also before a delimiter, which comes too early where the end does. -/
theorem run_append_of_error (failed : s.run g i cs = .error e) (rest : List Char) :
    s.run g i (cs ++ g.delimiter.head :: rest) =
      .error (e.before g.delimiter.head (i + cs.length)) := by
  -- Behind all of `cs` the delimiter meets the phase that the end of the source meets in `failed`.
  induction cs generalizing s i with
  | nil =>
    rw [run, finish] at failed
    obtain ⟨seen, concluded, _⟩ | ⟨concluded, refused⟩ := run_delimiter ends waits i rest
    · simp [concluded] at failed
    · simp only [concluded, Except.error.injEq] at failed
      rw [← failed]
      exact refused
  | cons c cs ih =>
    obtain ⟨t, waits', same⟩ | ⟨_, stage, refused⟩ := run_cons ends waits i c
    · rw [same] at failed
      rw [List.cons_append, same, ih waits' failed, List.length_cons, Nat.add_right_comm, Nat.add_assoc]
    · rw [refused, Except.error.injEq] at failed
      subst failed
      exact refused (cs ++ g.delimiter.head :: rest)

/-- Behind a text that can be read, and a delimiter, a text is refused as it is by itself. -/
theorem run_append_of_ok {lines : List Line} (read : s.run g i cs = .ok lines) {rest : List Char}
    (failed : run g 0 {} rest = .error e) :
    s.run g i (cs ++ g.delimiter.head :: rest) = .error (e.later (i + cs.length + 1)) := by
  induction cs generalizing s i with
  | nil =>
    rw [run, finish] at read
    obtain ⟨_, _, t, start, next⟩ | ⟨concluded, _⟩ := run_delimiter ends waits i rest
    · have later := run_later (t := t) start failed (i + 1)
      rwa [Nat.zero_add, ← next] at later
    · simp [concluded] at read
  | cons c cs ih =>
    obtain ⟨t, waits', same⟩ | ⟨_, stage, refused⟩ := run_cons ends waits i c
    · rw [same] at read
      rw [List.cons_append, same, ih waits' read, List.length_cons, Nat.add_right_comm i 1,
        Nat.add_assoc i]
    · rw [refused] at read
      contradiction

end EndsLines

end Scanner

/-- Whether a line of characters to skip and spaces stands behind the last line of the text that was
kept, or anywhere in the text if none was. -/
def endsBlank (g : Grammar) (source : String) (lines : List Line) : Bool :=
  ((source.toList.splitOn g.delimiter.head).drop (Line.lastNumber lines)).any
    (·.all fun c => c ∈ g.skip || c == g.space)

theorem textLines_eq_map (g : Grammar) (source : String) : textLines g source =
    (source.toList.splitOn g.delimiter.head).map (·.filter (· ∉ g.skip)) :=
  filter_splitOn (by simpa using g.delimiter_not_skip) source.toList

theorem textLines_push_append (g : Grammar) (a b : String) :
    textLines g (a.push g.delimiter.head ++ b) = textLines g a ++ textLines g b := by
  simp only [textLines_eq_map, String.toList_append, String.toList_push, List.append_assoc,
    List.singleton_append, List.splitOn_append_cons_self, List.map_append]

section EndsLines

variable {g : Grammar} (ends : g.EndsLines)
include ends

/-- Texts that can be read are read one behind the other. -/
theorem scan_push_append_of_ok {a b : String} {before after : List Line}
    (first : scan g a = .ok before) (second : scan g b = .ok after) :
    scan g (a.push g.delimiter.head ++ b) = .ok (before ++
      Line.behind (a.toList.count g.delimiter.head + 1) (endsBlank g a before) after) := by
  obtain ⟨seens, readFirst, rfl⟩ := (scan_eq_ok_iff ends).mp first
  obtain ⟨others, readSecond, rfl⟩ := (scan_eq_ok_iff ends).mp second
  have count : (seens.map (·.held g)).length = a.toList.count g.delimiter.head + 1 := by
    rw [List.length_map, ← readFirst.length_eq, textLines_eq_map, List.length_map, length_splitOn]
  have blank : Held.endBlank (seens.map (·.held g)) =
      endsBlank g a (Held.records (seens.map (·.held g))) := by
    rw [(Held.endBlank_eq_contains _).2, ← List.map_drop,
      Scan.contains_blank ends (List.forall₂_drop _ readFirst), textLines_eq_map, ← List.map_drop,
      List.any_map, endsBlank]
    simp [Function.comp_def, List.all_filter]
  -- The lines of the two texts are those of the whole, so what they hold is kept as one list.
  rw [← count, ← blank, ← Held.records_append, ← List.map_append]
  apply (scan_eq_ok_iff ends).mpr
  refine ⟨seens ++ others, ?_, rfl⟩
  rw [textLines_push_append]
  exact List.rel_append readFirst readSecond

/-- A text, a delimiter and a second text are read as the two are by themselves. Nothing passes over
the delimiter but the number of the line and whether a blank line stands behind the last one that was
kept; and where the text must not end, no delimiter may stand. -/
theorem scan_push_append (a b : String) :
    scan g (a.push g.delimiter.head ++ b) = match scan g a, scan g b with
      | .ok before, .ok after => .ok (before ++
          Line.behind (a.toList.count g.delimiter.head + 1) (endsBlank g a before) after)
      | .ok _, .error e => .error (e.later (a.length + 1))
      | .error e, _ => .error (e.before g.delimiter.head a.length) := by
  have whole : (a.push g.delimiter.head ++ b).toList = a.toList ++ g.delimiter.head :: b.toList := by
    simp
  cases first : scan g a with
  | error e =>
    have failed := Scanner.run_append_of_error ends (s := {}) trivial first b.toList
    rw [Nat.zero_add, String.length_toList, ← whole] at failed
    exact failed
  | ok before =>
    cases second : scan g b with
    | error e =>
      have failed := Scanner.run_append_of_ok ends (s := {}) trivial first second
      rw [Nat.zero_add, String.length_toList, ← whole] at failed
      exact failed
    | ok after => exact scan_push_append_of_ok ends first second

end EndsLines

/-- A grammar of one line, whose comment mark has three characters. -/
def Grammar.semicolons : Grammar where
  toMarkup :=
    { Markup.standard with delimiter := ⟨';', []⟩, comment := ⟨'#', ['!', '#']⟩, skip := ['\r', '\n'] }
  reserved_nodup := by decide
  moreOrLess_ne_range := by decide
  not_reserved_of_skip := by simp [Markup.reservedChars, Markup.reserved, Markup.standard]
  roles_declared := by decide

theorem scan_push_append_semicolons :
    scan .semicolons (("a[x] A#!; \n".push ';' ++ "#!# note;b")) =
      .ok [{ identifier := "a", options := some ["x"], label := some "A#!" },
        { identifier := "b", number := 4, afterBlank := true }] ∧
    scan .semicolons ("a;".push ';' ++ "b;,") = .error (.unexpected ',' 5 .indent) ∧
    scan .semicolons ("a;,".push ';' ++ "b") = .error (.unexpected ',' 2 .indent) ∧
    scan .semicolons ("a[x".push ';' ++ "]") = .error (.unexpected ';' 3 .options) := by
  have ends : Grammar.semicolons.EndsLines := ⟨rfl, by decide, by decide⟩
  exact ⟨(scan_push_append ends "a[x] A#!; \n" "#!# note;b").trans (by decide +kernel),
    (scan_push_append ends "a;" "b;,").trans (by decide +kernel),
    (scan_push_append ends "a;," "b").trans (by decide +kernel),
    (scan_push_append ends "a[x" "]").trans (by decide +kernel)⟩

end ContentSchema
