import ContentSchema.Proofs.Line.Append
import ContentSchema.Proofs.Line.Options
import ContentSchema.Proofs.Line.Progress
import ContentSchema.Proofs.Token.Detail
/-!
Errors are reported as early as they can be. Whatever has been read without an error goes on to some
text that is accepted (`Scan.exists_completes`), so the first character that is refused is the
first behind which nothing could be accepted, and a source that ends too early is refused only for
its end (`scan_error_earliest`).
-/
namespace ContentSchema

/-- The marks of lines can be written whole, and something can be written that is no mark. -/
structure Grammar.Writable (g : Grammar) : Prop where
  comment : ∀ c ∈ g.comment.toList, c ∉ g.skip ∧ c ≠ g.delimiter.head
  snippetMark : ∀ c ∈ g.snippetMark.toList, c ∉ g.skip
  plain : ∃ c, c ∉ g.skip ∧ ¬ g.isReserved c

theorem Grammar.standard_writable : Grammar.standard.Writable :=
  ⟨by decide, by decide, 'a', by decide, by decide⟩

namespace Scan

variable {g : Grammar} {p q : Phase} {c : Char} {seen : Seen}

/-- A mark that has been begun has not ended. -/
def Phase.Within (g : Grammar) : Phase → Prop
  | snippetMark matched => matched < g.snippetMark.size
  | commentMark _ matched => matched < g.comment.size
  | _ => True

theorem within_of_mark? (below : ∀ mark matched, p.mark? g = some (mark, matched) →
    matched < mark.size) : p.Within g := by
  cases p with
  | snippetMark matched => exact below _ _ rfl
  | commentMark seen matched => exact below _ _ rfl
  | _ => trivial

theorem kept_within (g : Grammar) : Kept g (Phase.Within g) where
  take _ taken := within_of_mark? fun mark matched marked =>
    (partway_of_take taken mark matched marked).2
  handOn _ handed := within_of_mark? fun mark matched marked =>
    (compares_of_handOn handed mark matched marked).1

/-- The text can be written behind the phase, and the line may end there. -/
structure Completes (g : Grammar) (p : Phase) (more : List Char) : Prop where
  written : ∀ c ∈ more, c ∉ g.skip
  read : ∃ seen, p.read? g more = some seen

section Completion

variable (writable : g.Writable)
include writable

theorem completes_commentMark {matched : Nat} (below : matched < g.comment.size) :
    Completes g (.commentMark seen matched) (g.comment.toList.drop matched) := by
  have mark (c : Char) (member : c ∈ g.comment.toList.drop matched) :
      c ∉ g.skip ∧ c ≠ g.delimiter.head :=
    writable.comment c (List.mem_of_mem_drop member)
  have inner : g.delimiter.head ∉ g.comment.toList.drop matched :=
    fun member => (mark _ member).2 rfl
  exact ⟨fun c member => (mark c member).1, seen, read?_commentMark below inner (List.prefix_refl _)⟩

theorem exists_completes_identifier (d : Draft) : ∃ more, Completes g (.identifier d) more := by
  obtain ⟨x, unskipped, plain⟩ := writable.plain
  by_cases empty : d.identifier = ""
  · refine ⟨[x], by simpa using unskipped, .head { d with identifier := d.identifier.push x }, ?_⟩
    rw [read?_identifier_push (.inr plain), Phase.read?, Phase.conclude?, if_neg (by simp)]
  · exact ⟨[], by simp, .head d, if_neg empty⟩

theorem exists_completes_snippetMark {matched : Nat} (below : matched < g.snippetMark.size) :
    ∃ more, Completes g (.snippetMark matched) more := by
  obtain ⟨more, written, seen, read⟩ := exists_completes_identifier writable { snippet := true }
  refine ⟨g.snippetMark.toList.drop matched ++ more, ?_, seen, ?_⟩
  · intro c member
    obtain mark | later := List.mem_append.mp member
    · exact writable.snippetMark c (List.mem_of_mem_drop mark)
    · exact written c later
  · exact (read?_snippetMark_iff below).mpr ⟨more, rfl, read⟩

/-- An option that has been begun is closed behind one more character. -/
theorem exists_completes_options (d : Draft) (tokens : List String) (token : String)
    (inDetail : Bool) : ∃ more, Completes g (.options d tokens token inDetail) more := by
  obtain ⟨x, unskipped, plain⟩ := writable.plain
  have other : x ≠ g.space := by
    rintro rfl
    simp [Grammar.isReserved] at plain
  have ended (c : Char) (structural : g.isStructural c) : c ∉ g.skip := by
    intro skipped
    apply g.not_reserved_of_skip c skipped
    rw [← Grammar.isReserved_iff, Grammar.isReserved, structural]
    simp
  have full (token : String) : Text.trimEnd g.space (token.push x) ≠ "" := by
    rw [ne_eq, ← String.toList_inj, Text.toList_trimEnd, String.toList_push, List.reverse_append]
    simp [other]
  have closes (token : String) :
      Completes g (.options d tokens token false) [x, g.optionsEnd] := by
    refine ⟨?_, .tail { d with options := some (tokens ++ [Text.trimEnd g.space (token.push x)]) }, ?_⟩
    · simp [unskipped, ended g.optionsEnd (by simp [Grammar.isStructural])]
    · rw [read?_options_push plain, read?_end (full token)]
      rfl
  cases inDetail with
  | false => exact ⟨_, closes token⟩
  | true =>
    obtain ⟨written, seen, read⟩ := closes (token.push g.detailEnd)
    refine ⟨g.detailEnd :: [x, g.optionsEnd], ?_, seen, ?_⟩
    · rw [List.forall_mem_cons]
      exact ⟨ended g.detailEnd (by simp [Grammar.isStructural]), written⟩
    · rw [read?_options_detailEnd, read]

/-- Wherever the reader is, the line can be completed. -/
theorem exists_completes (within : p.Within g) : ∃ more, Completes g p more := by
  have stop {seen : Seen} (stops : p.conclude? g = some seen) : ∃ more, Completes g p more :=
    ⟨[], by simp, seen, stops⟩
  cases p with
  | lineStart => exact stop rfl
  | snippetMark matched => exact exists_completes_snippetMark writable within
  | identifier d => exact exists_completes_identifier writable d
  | options d tokens token inDetail => exact exists_completes_options writable d tokens token inDetail
  | afterHead d => exact stop rfl
  | label d => exact stop rfl
  | commentMark seen matched => exact ⟨_, completes_commentMark writable within⟩
  | comment seen => exact stop rfl
  | delimiter seen matched => exact stop rfl

end Completion

end Scan

namespace Scanner
open Scan

variable {g : Grammar} {s : Scanner} {i : Nat} {cs : List Char}

/-- A source that completes the line is accepted. -/
theorem run_of_completes (completes : Completes g s.phase cs) :
    ∃ lines, s.run g i cs = .ok lines :=
  completes.read.elim fun _ read => ⟨_, run_of_read? completes.written read⟩

/-- Some source that begins with the text is accepted. -/
def Viable (g : Grammar) (s : Scanner) (i : Nat) (cs : List Char) : Prop :=
  ∃ more lines, s.run g i (cs ++ more) = .ok lines

/-- An error is reported at the first character behind which nothing is accepted, or at the end. -/
inductive Earliest (g : Grammar) (s : Scanner) (i : Nat) : List Char → ParseError → Prop where
  | unexpected {before after : List Char} {c : Char} {stage : Stage} : c ∉ g.skip →
      s.Viable g i before →
      (∀ rest, s.run g i (before ++ c :: rest) = .error (.unexpected c (i + before.length) stage)) →
      Earliest g s i (before ++ c :: after) (.unexpected c (i + before.length) stage)
  | unterminated {cs : List Char} {stage : Stage} : s.Viable g i cs →
      Earliest g s i cs (.unterminated stage (i + cs.length))

/-- A character that the reader takes changes nothing about what may be behind it. -/
theorem Earliest.cons {t : Scanner} {c : Char} {e : ParseError}
    (same : ∀ cs, s.run g i (c :: cs) = t.run g (i + 1) cs) (earliest : t.Earliest g (i + 1) cs e) :
    s.Earliest g i (c :: cs) e := by
  have viable {before : List Char} : t.Viable g (i + 1) before → s.Viable g i (c :: before) := by
    rintro ⟨more, lines, read⟩
    exact ⟨more, lines, by rw [List.cons_append, same, read]⟩
  have place (before : List Char) : i + 1 + before.length = i + (c :: before).length := by
    rw [List.length_cons, Nat.add_right_comm, Nat.add_assoc]
  cases earliest with
  | @unexpected before after c' stage unskipped completed refused =>
    rw [place before] at refused ⊢
    refine .unexpected unskipped (viable completed) fun rest => ?_
    rw [List.cons_append, same, refused]
  | unterminated completed =>
    rw [place cs]
    exact .unterminated (viable completed)

theorem earliest_of_run (writable : g.Writable) (within : s.phase.Within g) {e : ParseError}
    (failed : s.run g i cs = .error e) : s.Earliest g i cs e := by
  induction cs generalizing s i with
  | nil =>
    obtain ⟨more, completes⟩ := exists_completes writable within
    rw [run, finish] at failed
    cases concluded : s.phase.conclude? g with
    | some seen => simp [concluded] at failed
    | none =>
      simp only [concluded, Except.error.injEq] at failed
      rw [← failed]
      exact .unterminated ⟨more, run_of_completes completes⟩
  | cons c cs ih =>
    obtain ⟨t, within', same⟩ | ⟨unskipped, stage, refused⟩ :=
      run_step (Phase.Within g) trivial within (fun _ _ => (kept_within g).of_settle within) i c
    · rw [same] at failed
      exact .cons same (ih within' failed)
    · obtain ⟨more, completes⟩ := exists_completes writable within
      rw [refused, Except.error.injEq] at failed
      rw [← failed]
      exact @Earliest.unexpected g s i [] cs c stage unskipped ⟨more, run_of_completes completes⟩
        refused

end Scanner

/-- An unexpected character is the first one that cannot stand where it stands, whatever comes behind
it, and a source that ends too early could have gone on. -/
theorem scan_error_earliest (source : String) :
    (∀ c i stage, scan .standard source = .error (.unexpected c i stage) →
      source.toList[i]? = some c ∧ c ∉ Grammar.standard.skip ∧
      (∀ text : String, text.toList.take (i + 1) = source.toList.take (i + 1) →
        scan .standard text = .error (.unexpected c i stage)) ∧
      ∃ more lines, scan .standard (.ofList (source.toList.take i ++ more)) = .ok lines) ∧
    ∀ stage i, scan .standard source = .error (.unterminated stage i) →
      i = source.length ∧
        ∃ more lines, scan .standard (.ofList (source.toList ++ more)) = .ok lines := by
  have earliest {e : ParseError} (failed : scan .standard source = .error e) :
      Scanner.Earliest .standard {} 0 source.toList e :=
    Scanner.earliest_of_run (s := {}) Grammar.standard_writable trivial failed
  constructor
  · intro c i stage failed
    have earliest := earliest failed
    generalize source.toList = cs at earliest
    cases earliest with
    | @unexpected before after _ _ unskipped viable refused =>
      obtain ⟨more, lines, read⟩ := viable
      rw [Nat.zero_add] at refused ⊢
      refine ⟨by simp, unskipped, ?_, more, lines, ?_⟩
      · intro text same
        obtain ⟨rest, begins⟩ : before ++ [c] <+: text.toList := by
          rw [List.prefix_iff_eq_take, List.length_append, List.length_singleton, same,
            List.take_length_add_append]
          rfl
        rw [scan, ← begins, List.append_assoc]
        exact refused rest
      · rw [scan, String.toList_ofList, List.take_left]
        exact read
  · intro stage i failed
    rw [← String.length_toList]
    have earliest := earliest failed
    generalize source.toList = cs at earliest
    cases earliest with
    | unterminated viable =>
      obtain ⟨more, lines, read⟩ := viable
      refine ⟨Nat.zero_add _, more, lines, ?_⟩
      rw [scan, String.toList_ofList]
      exact read

theorem scan_error_earliest_samples :
    (∀ text : String, text.toList.take 7 = "a A\n\rb]x".toList.take 7 →
      scan .standard text = .error (.unexpected ']' 6 .identifier)) ∧
    ∃ more lines, scan .standard (.ofList ("a A\nb[x(y".toList ++ more)) = .ok lines := by
  have refused : scan .standard "a A\n\rb]x" = .error (.unexpected ']' 6 .identifier) := by
    decide +kernel
  have ended : scan .standard "a A\nb[x(y" = .error (.unterminated .options 9) := by decide +kernel
  obtain ⟨_, _, same, _⟩ := (scan_error_earliest "a A\n\rb]x").1 _ _ _ refused
  exact ⟨same, ((scan_error_earliest "a A\nb[x(y").2 _ _ ended).2⟩

end ContentSchema
