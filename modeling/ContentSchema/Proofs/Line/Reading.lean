import Mathlib.Data.List.Forall2
import Mathlib.Logic.Relation
import ContentSchema.Grammar.Standard
import ContentSchema.Line.Scan
import ContentSchema.Proofs.Line.Form
/-!
Reading line by line. Where the delimiter is one character of its own, a source is read exactly if
each of its lines can be read by itself, and gives the lines that these hold (`scan_eq_ok_iff`).
-/
namespace ContentSchema

/-- Lines end with a single character, which begins or continues no other mark. -/
structure Grammar.EndsLines (g : Grammar) : Prop where
  single : g.delimiter.tail = []
  not_comment : g.delimiter.head ∉ g.comment.toList
  not_snippet : g.delimiter.head ∉ g.snippetMark.toList

theorem Grammar.standard_endsLines : Grammar.standard.EndsLines :=
  ⟨rfl, by decide, by decide⟩

namespace Scan

variable {g : Grammar} {p q : Phase} {c : Char} {cs : List Char} {seen : Seen}

theorem settle_of_take (h : look g p c = .take q) : settle g p c = .next q := by
  rw [settle]
  split <;> simp_all

theorem settle_of_endLine (h : look g p c = .endLine seen) : settle g p c = .endLine seen := by
  rw [settle]
  split <;> simp_all

theorem settle_of_handOn (h : look g p c = .handOn q) : settle g p c = settle g q c := by
  rw [settle]
  split <;> simp_all

theorem settle_of_refuse (h : look g p c = .refuse) : settle g p c = .refused p.stage := by
  rw [settle]
  split <;> simp_all

/-- The phases that a character is handed on to, from one to the next. -/
abbrev HandedOn (g : Grammar) (c : Char) : Phase → Phase → Prop :=
  Relation.ReflTransGen fun p q => look g p c = .handOn q

/-- What becomes of a character is what the last phase that it is handed on to does with it. -/
theorem exists_last (g : Grammar) (p : Phase) (c : Char) : ∃ last, HandedOn g c p last ∧
    match settle g p c with
    | .next q => look g last c = .take q
    | .endLine seen => look g last c = .endLine seen
    | .refused _ => look g last c = .refuse := by
  induction p using settle.induct g c with
  | case1 p next taken => exact ⟨p, .refl, by rwa [settle_of_take taken]⟩
  | case2 p seen ended => exact ⟨p, .refl, by rwa [settle_of_endLine ended]⟩
  | case3 p next handed ih =>
    obtain ⟨last, onward, outcome⟩ := ih
    refine ⟨last, .head handed onward, ?_⟩
    rwa [settle_of_handOn handed]
  | case4 p refused => exact ⟨p, .refl, by rwa [settle_of_refuse refused]⟩

theorem take_of_settle (h : settle g p c = .next q) :
    ∃ last, HandedOn g c p last ∧ look g last c = .take q := by
  simpa only [h] using exists_last g p c

theorem endLine_of_settle (h : settle g p c = .endLine seen) :
    ∃ last, HandedOn g c p last ∧ look g last c = .endLine seen := by
  simpa only [h] using exists_last g p c

/-- A line ends within its delimiter. -/
theorem delimiter_of_endLine (h : look g p c = .endLine seen) :
    ∃ matched, p = .delimiter seen matched := by
  cases p <;> simp only [look] at h
  case lineStart => grind [lookLineStart]
  case snippetMark => grind [lookSnippetMark]
  case identifier => grind [lookIdentifier]
  case options => grind [lookOptions]
  case afterHead => grind [lookAfterHead]
  case label => grind [lookLabel]
  case commentMark => grind [lookCommentMark]
  case comment => grind [lookComment]
  case delimiter seen' matched =>
    refine ⟨matched, ?_⟩
    grind [lookDelimiter]

theorem recover?_zero (g : Grammar) (d : Draft) :
    (Seen.tail d).recover? g 0 = if d.snippet then none else some d := by
  have unread : d.label ++ .ofList [] = d.label := String.append_empty
  rw [Seen.recover?, List.take_zero, unread]

/-- A character is handed on only to a phase in which the line holds the same if it ends. -/
theorem conclude?_of_handOn (handed : look g p c = .handOn q)
    (concluded : q.conclude? g = some seen) : p.conclude? g = some seen := by
  cases p <;> simp only [look] at handed
  case lineStart => grind [lookLineStart, Phase.conclude?, Seen.recover?]
  case snippetMark => grind [lookSnippetMark]
  case identifier => grind [lookIdentifier, Phase.conclude?, Seen.recover?, Grammar.isReserved]
  case options => grind [lookOptions]
  case afterHead => grind [lookAfterHead, Phase.conclude?, recover?_zero]
  case label => grind [lookLabel, Phase.conclude?, recover?_zero]
  case commentMark => grind [lookCommentMark, Phase.conclude?]
  case comment => grind [lookComment, Phase.conclude?]
  case delimiter => grind [lookDelimiter]

/-- Where a line ends, it holds what it would hold if the source ended before the character. -/
theorem conclude?_of_settle (h : settle g p c = .endLine seen) : p.conclude? g = some seen := by
  obtain ⟨last, handed, ended⟩ := endLine_of_settle h
  obtain ⟨matched, rfl⟩ := delimiter_of_endLine ended
  clear h
  induction handed using Relation.ReflTransGen.head_induction_on with
  | refl => rfl
  | head handed _ ih => exact conclude?_of_handOn handed ih

namespace Phase

/-- What the line holds if the text is the rest of it. -/
def read? (g : Grammar) : Phase → List Char → Option Seen
  | p, [] => p.conclude? g
  | p, c :: cs =>
    match settle g p c with
    | .next q => read? g q cs
    | _ => none

theorem read?_of_take (h : look g p c = .take q) : p.read? g (c :: cs) = q.read? g cs := by
  rw [read?, settle_of_take h]

theorem read?_of_handOn (h : look g p c = .handOn q) :
    p.read? g (c :: cs) = q.read? g (c :: cs) := by
  rw [read?, settle_of_handOn h, read?]

theorem read?_of_refuse (h : look g p c = .refuse) : p.read? g (c :: cs) = none := by
  rw [read?, settle_of_refuse h]

theorem look_ne_refuse (h : p.read? g (c :: cs) = some seen) : look g p c ≠ .refuse := by
  intro refuses
  rw [read?_of_refuse refuses] at h
  contradiction

/-- A phase that waits for a character; the others only pass one on. -/
def Waits : Phase → Prop
  | commentMark _ matched => matched ≠ 0
  | delimiter _ _ => False
  | _ => True

end Phase

section EndsLines

variable (ends : g.EndsLines)
include ends

theorem delimiter_eq : g.delimiter.toList = [g.delimiter.head] := by
  rw [Marker.toList, ends.single]

theorem waits_of_take (h : look g p c = .take q) : q.Waits := by
  cases p <;> simp only [look] at h
  case lineStart => grind [lookLineStart, Phase.Waits]
  case snippetMark => grind [lookSnippetMark, Phase.Waits]
  case identifier => grind [lookIdentifier, Phase.Waits]
  case options => grind [lookOptions, Phase.Waits]
  case afterHead => grind [lookAfterHead, Phase.Waits]
  case label => grind [lookLabel, Phase.Waits]
  case commentMark => grind [lookCommentMark, Phase.Waits]
  case comment => grind [lookComment, Phase.Waits]
  case delimiter => grind [lookDelimiter, delimiter_eq, Marker.size]

theorem waits_of_settle (h : settle g p c = .next q) : q.Waits := by
  obtain ⟨last, -, taken⟩ := take_of_settle h
  exact waits_of_take ends taken

theorem head_of_endLine (h : look g p c = .endLine seen) : c = g.delimiter.head := by
  obtain ⟨matched, rfl⟩ := delimiter_of_endLine h
  simp only [look] at h
  grind [lookDelimiter, delimiter_eq, Marker.size]

/-- Only the delimiter ends a line. -/
theorem head_of_settle (h : settle g p c = .endLine seen) : c = g.delimiter.head := by
  obtain ⟨last, -, ended⟩ := endLine_of_settle h
  exact head_of_endLine ends ended

theorem look_delimiter (seen : Seen) :
    look g (.delimiter seen 0) g.delimiter.head = .endLine seen := by
  simp [look, lookDelimiter, delimiter_eq ends, Marker.size]

/-- At the delimiter the line holds what it would hold if the source ended there. -/
theorem settle_delimiter (waits : p.Waits) :
    settle g p g.delimiter.head = match p.conclude? g with
      | some seen => .endLine seen
      | none => .refused p.stage := by
  have apart := g.apart
  have ended (seen : Seen) : settle g (.delimiter seen 0) g.delimiter.head = .endLine seen :=
    settle_of_endLine (look_delimiter ends seen)
  have labelled (d : Draft) : settle g (.label d) g.delimiter.head = .endLine (.tail d) := by
    rw [settle_of_handOn (q := .delimiter (.tail d) 0), ended]
    simp only [look]
    grind [lookLabel, Grammar.opensComment, Grammar.opensDelimiter]
  cases p with
  | lineStart =>
    rw [settle_of_handOn (q := .delimiter .nothing 0), ended, Phase.conclude?]
    simp only [look]
    grind [lookLineStart, Grammar.opensComment, Grammar.opensDelimiter]
  | snippetMark matched =>
    rw [settle_of_refuse, Phase.conclude?]
    have foreign : g.snippetMark.toList[matched]? ≠ some g.delimiter.head :=
      fun found => ends.not_snippet (List.mem_of_getElem? found)
    simp only [look, lookSnippetMark, if_pos foreign]
  | identifier d =>
    by_cases empty : d.identifier = ""
    · rw [settle_of_refuse, Phase.conclude?, if_pos empty]
      simp only [look]
      grind [lookIdentifier, Grammar.isReserved, Grammar.opensDelimiter]
    · rw [settle_of_handOn (q := .delimiter (.head d) 0), ended, Phase.conclude?, if_neg empty]
      simp only [look]
      grind [lookIdentifier, Grammar.opensComment, Grammar.opensDelimiter]
  | options d tokens token inDetail =>
    rw [settle_of_refuse, Phase.conclude?]
    simp only [look]
    grind [lookOptions, Grammar.opensDelimiter]
  | afterHead d =>
    rw [settle_of_handOn (q := .delimiter (.tail d) 0), ended, Phase.conclude?]
    simp only [look]
    grind [lookAfterHead, Grammar.opensComment, Grammar.opensDelimiter]
  | label d => rw [labelled, Phase.conclude?]
  | commentMark seen matched =>
    have foreign : g.comment.toList[matched]? ≠ some g.delimiter.head :=
      fun found => ends.not_comment (List.mem_of_getElem? found)
    have started : matched ≠ 0 := waits
    rw [Phase.conclude?]
    cases recovered : seen.recover? g matched with
    | some d =>
      rw [settle_of_handOn (q := .label d), labelled, Option.map_some]
      simp only [look, lookCommentMark, if_neg foreign, if_neg started, recovered]
    | none =>
      rw [settle_of_refuse, Option.map_none]
      simp only [look, lookCommentMark, if_neg foreign, if_neg started, recovered]
  | comment seen =>
    rw [settle_of_handOn (q := .delimiter seen 0), ended, Phase.conclude?]
    simp [look, lookComment, Grammar.opensDelimiter]
  | delimiter seen matched => exact absurd waits id

end EndsLines

/-- What a line that has been read so far holds. -/
def Seen.held (g : Grammar) : Seen → Held
  | nothing => .blank
  | remark => .remark
  | head d => .named (d.toLine g 1 false)
  | tail d => .named (d.toLine g 1 false)

end Scan

namespace Held

/-- The lines that are kept from a line of the given number on, of which it is known whether a blank
line has gone by before. -/
def kept (number : Nat) (passed : Bool) : List Held → List Line
  | [] => []
  | blank :: rest => kept (number + 1) true rest
  | remark :: rest => kept (number + 1) passed rest
  | named line :: rest => { line with number, afterBlank := passed } :: kept (number + 1) false rest

theorem endBlank_concat (before : List Held) (h : Held) :
    endBlank (before ++ [h]) = match h with
      | blank => true
      | remark => endBlank before
      | named _ => false := by
  cases h <;> simp [endBlank, line?]

theorem kept_eq (before rest : List Held) :
    kept (before.length + 1) (endBlank before) rest =
      (rest.zipIdx before.length).filterMap fun (h, i) => h.line?.map fun line =>
        { line with number := i + 1, afterBlank := endBlank ((before ++ rest).take i) } := by
  induction rest generalizing before with
  | nil => rfl
  | cons h rest ih =>
    have later := ih (before ++ [h])
    rw [endBlank_concat, List.length_append, List.append_assoc] at later
    have here : (before ++ h :: rest).take before.length = before := List.take_left
    cases h with
    | blank => simpa [kept, line?] using later
    | remark => simpa [kept, line?] using later
    | named line => simpa [kept, line?, here] using later

theorem kept_eq_records (held : List Held) : kept 1 false held = records held :=
  kept_eq [] held

end Held

namespace Scanner
open Scan

variable {g : Grammar}

theorem close_append_kept (s : Scanner) (seen : Seen) (rest : List Held) :
    (s.close g seen).lines.toList ++ Held.kept (s.number + 1) (s.close g seen).blank rest =
      s.lines.toList ++ Held.kept s.number s.blank (seen.held g :: rest) := by
  cases seen <;> simp [close, keep, Seen.held, Held.kept, Draft.toLine]

/-- The rest of a source that completes the line that has been begun. -/
theorem run_of_read? {cs : List Char} {s : Scanner} {i : Nat} {seen : Seen}
    (kept : ∀ c ∈ cs, c ∉ g.skip) (read : s.phase.read? g cs = some seen) :
    s.run g i cs = .ok (s.close g seen).lines.toList := by
  induction cs generalizing s i with
  | nil =>
    rw [Phase.read?] at read
    rw [run, finish, read]
  | cons c cs ih =>
    rw [List.forall_mem_cons] at kept
    rw [Phase.read?] at read
    cases settled : settle g s.phase c with
    | next p =>
      simp only [settled] at read
      have rest := ih (s := { s with phase := p }) (i := i + 1) kept.2 read
      rw [run, if_neg kept.1, feed, settled]
      simp only [rest]
      cases seen <;> rfl
    | endLine _ => simp [settled] at read
    | refused _ => simp [settled] at read

/-- The rest of a source is read line by line, the line that has been begun first. -/
theorem run_eq_ok_iff (ends : g.EndsLines) {cs : List Char} {s : Scanner} (waits : s.phase.Waits)
    {i : Nat} {lines : List Line} {l : List Char} {ls : List (List Char)}
    (cut : (cs.filter (· ∉ g.skip)).splitOn g.delimiter.head = l :: ls) :
    s.run g i cs = .ok lines ↔ ∃ seen seens, s.phase.read? g l = some seen ∧
      List.Forall₂ (fun l seen => Phase.lineStart.read? g l = some seen) ls seens ∧
      lines = s.lines.toList ++ Held.kept s.number s.blank ((seen :: seens).map (·.held g)) := by
  -- `l` is what is left of the line that has been begun: a character is taken off it, or ends it.
  induction cs generalizing s i l ls with
  | nil =>
    rw [List.filter_nil, List.splitOn_nil, List.cons.injEq] at cut
    obtain ⟨rfl, rfl⟩ := cut
    rw [run, finish, Phase.read?]
    cases s.phase.conclude? g with
    | none => simp
    | some seen =>
      have closed := close_append_kept (g := g) s seen []
      simp only [Held.kept, List.append_nil] at closed
      simp [closed, eq_comm]
  | cons c cs ih =>
    rw [run]
    by_cases skipped : c ∈ g.skip
    · rw [if_pos skipped]
      apply ih waits
      simpa [skipped] using cut
    · rw [if_neg skipped, feed]
      rw [List.filter_cons_of_pos (by simpa using skipped),
        List.splitOn_cons_eq_if_modifyHead] at cut
      obtain ⟨first, others, rest⟩ := List.exists_cons_of_ne_nil
        (List.splitOn_ne_nil g.delimiter.head (cs.filter (· ∉ g.skip)))
      by_cases delimits : c = g.delimiter.head
      · subst delimits
        rw [if_pos (beq_self_eq_true _), rest, List.cons.injEq] at cut
        obtain ⟨rfl, rfl⟩ := cut
        rw [settle_delimiter ends waits, Phase.read?]
        cases s.phase.conclude? g with
        | none => simp
        | some seen =>
          have next := ih (s := { s.close g seen with phase := .lineStart, number := s.number + 1 })
            trivial (i := i + 1) rest
          simp only [List.map_cons, close_append_kept] at next
          rw [next]
          constructor
          · rintro ⟨second, seens, read, readAll, kept⟩
            exact ⟨seen, second :: seens, rfl, .cons read readAll, kept⟩
          · rintro ⟨_, _, same, readAll, kept⟩
            cases same
            cases readAll with
            | cons read readAll => exact ⟨_, _, read, readAll, kept⟩
      · rw [if_neg (by simpa using delimits), rest, List.modifyHead_cons, List.cons.injEq] at cut
        obtain ⟨rfl, rfl⟩ := cut
        rw [Phase.read?]
        cases settled : settle g s.phase c with
        | next q => exact ih (waits_of_settle ends settled) rest
        | endLine seen => exact absurd (head_of_settle ends settled) delimits
        | refused stage => simp

end Scanner

def textLines (g : Grammar) (source : String) : List (List Char) :=
  (source.toList.filter (· ∉ g.skip)).splitOn g.delimiter.head

theorem scan_eq_ok_iff {g : Grammar} (ends : g.EndsLines) {source : String} {lines : List Line} :
    scan g source = .ok lines ↔ ∃ seens,
      List.Forall₂ (fun l seen => Scan.Phase.lineStart.read? g l = some seen)
        (textLines g source) seens ∧ lines = Held.records (seens.map (·.held g)) := by
  obtain ⟨l, ls, cut⟩ := List.exists_cons_of_ne_nil
    (List.splitOn_ne_nil g.delimiter.head (source.toList.filter (· ∉ g.skip)))
  rw [scan, Scanner.run_eq_ok_iff ends (s := {}) trivial cut, textLines, cut]
  simp only [Held.kept_eq_records, List.nil_append]
  constructor
  · rintro ⟨seen, seens, read, readAll, kept⟩
    exact ⟨seen :: seens, .cons read readAll, kept⟩
  · rintro ⟨_, readAll, kept⟩
    cases readAll with
    | cons read readAll => exact ⟨_, _, read, readAll, kept⟩

end ContentSchema
