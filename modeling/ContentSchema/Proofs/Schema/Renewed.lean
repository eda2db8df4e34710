import ContentSchema.Proofs.Description.Given
import ContentSchema.Proofs.Line.Repeat
/-!
Options that are said once more. Whatever the marks of a grammar are, what an option says is said
again as it is written (`Clause.renewed`), as long as no mark that may stand there is a digit
(`Clause.Apart`): counts are written without the zeros before them, so that the digits of an option
change.
-/
namespace ContentSchema

/-- No mark that may stand in an option is a digit. -/
structure Grammar.CountsApart (g : Grammar) : Prop extends Grammar.CountsEnd g where
  required : ¬ g.required.isDigit
  space : ¬ g.space.isDigit
  detailStart : ¬ g.detailStart.isDigit
  detailEnd : ¬ g.detailEnd.isDigit

namespace Form

variable {g : Grammar} {cs : List Char} {inDetail : Bool} {token : String}

theorem Closed.plain_of_not_mem (closed : Closed g inDetail cs) (outside : inDetail = false)
    (undetailed : g.detailStart ∉ cs) : ∀ c ∈ cs, c = g.space ∨ ¬ g.isReserved c := by
  induction closed with
  | nil => exact List.forall_mem_nil _
  | opened => exact absurd List.mem_cons_self undetailed
  | ended => contradiction
  | delimiter => contradiction
  | plain allowed _ ih =>
    rw [List.mem_cons, not_or] at undetailed
    exact List.forall_mem_cons.mpr ⟨allowed, ih outside undetailed.2⟩

/-- A detail that has been opened is closed. -/
theorem Closed.mem_detailEnd (closed : Closed g inDetail cs)
    (opened : inDetail = true ∨ g.detailStart ∈ cs) : g.detailEnd ∈ cs := by
  induction closed with
  | nil => simp at opened
  | opened _ ih => exact List.mem_cons_of_mem _ (ih (.inl rfl))
  | ended => exact List.mem_cons_self
  | delimiter _ ih => exact List.mem_cons_of_mem _ (ih (.inl rfl))
  | @plain inDetail c cs allowed _ ih =>
    apply List.mem_cons_of_mem
    refine ih (opened.imp_right fun member => (List.mem_cons.mp member).resolve_left ?_)
    rintro rfl
    have apart := g.apart
    obtain same | plain := allowed
    · exact apart.1.2.2.2.1 same.symm
    · simp [Grammar.isReserved, Grammar.isStructural] at plain

/-- What stands before the first bracket of details. -/
theorem Closed.plain_takeWhile (closed : Closed g inDetail cs) (outside : inDetail = false) :
    ∀ c ∈ cs.takeWhile (!Detail.isBracket g ·), c = g.space ∨ ¬ g.isReserved c := by
  induction closed with
  | nil => exact List.forall_mem_nil _
  | opened =>
    rw [List.takeWhile_cons_of_neg (by simp)]
    exact List.forall_mem_nil _
  | ended => contradiction
  | delimiter => contradiction
  | @plain inDetail c cs allowed _ ih =>
    rw [List.takeWhile_cons]
    split
    · exact List.forall_mem_cons.mpr ⟨allowed, ih outside⟩
    · exact List.forall_mem_nil _

theorem isPhrase_trim (plain : ∀ c ∈ cs, c = g.space ∨ ¬ g.isReserved c)
    (kept : ∀ c ∈ cs, c ∉ g.skip) (nonempty : Text.trim g.space (.ofList cs) ≠ "") :
    g.IsPhrase (Text.trim g.space (.ofList cs)) := by
  have inside {c : Char} (member : c ∈ (Text.trim g.space (.ofList cs)).toList) : c ∈ cs := by
    simpa using Text.mem_of_mem_trim member
  constructor
  case nonempty => exact nonempty
  case first => exact Text.head?_trim _ _
  case last => exact Text.getLast?_trimEnd _ _
  case plain => exact fun c member => plain c (inside member)
  case kept => exact fun c member => kept c (inside member)

/-- The parts of a detail that has been read can be written again. -/
theorem isPhrase_of_detail (isToken : IsToken g token) {d : Detail}
    (read : Detail.ofToken g token = .ok (some d)) :
    (d.name ≠ "" → g.IsPhrase d.name) ∧ ∀ v ∈ d.values, v ≠ "" → g.IsPhrase v := by
  obtain ⟨name, values, rfl, rfl, inside⟩ := Detail.of_ofToken read
  have kept : ∀ c ∈ token.toList, c ∉ g.skip := fun c member => (isToken.inline c member).2
  constructor
  · apply isPhrase_trim (isToken.closed.plain_takeWhile rfl)
    exact fun c member => kept c ((List.takeWhile_prefix _).subset member)
  · intro v listed
    obtain ⟨v, isValue, rfl⟩ := List.mem_map.mp listed
    apply isPhrase_trim _ fun c member => kept c (inside v isValue c member).1
    intro c member
    obtain ⟨held, bracket, delimiter⟩ := inside v isValue c member
    simp only [Detail.isBracket, Bool.or_eq_true, beq_iff_eq, not_or] at bracket
    have allowed := isToken.closed.of_mem held
    simp only [delimiter, bracket.1, bracket.2, false_or] at allowed
    exact allowed

end Form

namespace Clause
open Form

variable {g : Grammar} {kind : Kind} {text : String} {said c : Clause}

theorem isPhrase_ofCount (apart : ¬ g.space.isDigit) {v : String} {n : UInt32}
    (isPhrase : g.IsPhrase v) (digits : ∀ c ∈ (Decimal.ofCount n).toList, c ∈ v.toList) :
    g.IsPhrase (Decimal.ofCount n) := by
  have spaceless : g.space ∉ (Decimal.ofCount n).toList :=
    fun member => apart (Decimal.isDigit_of_mem_ofCount member)
  constructor
  case nonempty =>
    intro empty
    exact Decimal.ofCount_ne_nil n (by rw [empty]; rfl)
  case first => exact fun first => spaceless (List.mem_of_head? first)
  case last => exact fun last => spaceless (List.mem_of_getLast? last)
  case plain => exact fun c member => isPhrase.plain c (digits c member)
  case kept => exact fun c member => isPhrase.kept c (digits c member)

theorem digits_of_signed {v : String} {n : UInt32}
    (read : (Decimal.readSigned? v.toList).bind Decimal.toCount? = some n) :
    v ≠ "" ∧ ∀ c ∈ (Decimal.ofCount n).toList, c ∈ v.toList := by
  have nonempty : v ≠ "" := by
    rintro rfl
    contradiction
  refine ⟨nonempty, fun c member => ?_⟩
  unfold Decimal.readSigned? at read
  split at read
  · next cs signed =>
    rw [signed]
    exact List.mem_cons_of_mem _ ((Decimal.isNumeral_iff.mp read).mem_of_mem_ofCount member)
  · exact (Decimal.isNumeral_iff.mp read).mem_of_mem_ofCount member

/-- The detail of a limit can be written again with its count alone. -/
theorem isPhrase_limit (apart : ¬ g.space.isDigit) (isToken : IsToken g text) {name v : String}
    {n : UInt32} (named : name ≠ "") (read : Detail.ofToken g text = .ok (some ⟨name, [v]⟩))
    (signed : (Decimal.readSigned? v.toList).bind Decimal.toCount? = some n) :
    g.IsPhrase name ∧ ∀ v ∈ [Decimal.ofCount n], g.IsPhrase v := by
  obtain ⟨isName, values⟩ := isPhrase_of_detail isToken read
  obtain ⟨nonempty, digits⟩ := digits_of_signed signed
  rw [List.forall_mem_singleton]
  exact ⟨isName named, isPhrase_ofCount apart (values v List.mem_cons_self nonempty) digits⟩

theorem isPhrase_range (apart : g.CountsApart) (isToken : IsToken g text) {r : CountRange}
    (read : CountRange.read? g text.toList = some r) : g.IsPhrase (token g (range r)) := by
  have spells := CountRange.spells_of_read? read
  obtain ⟨mark, -, marked⟩ := spells.exists_mark
  obtain ⟨token, written⟩ := Option.ne_none_iff_exists'.mp
    (mt (CountRange.token?_eq_none_iff (g := g)).mp spells.ne_empty)
  obtain ⟨inside, begins, ends⟩ := CountRange.drawnFrom_token read written
  have undetailed : g.detailStart ∉ text.toList := by
    intro opened
    have closed := isToken.closed.mem_detailEnd (.inr opened)
    have start := (marked _ opened).resolve_left apart.detailStart
    have finish := (marked _ closed).resolve_left apart.detailEnd
    exact g.apart.2.2.2.2.1.1 (start.trans finish.symm)
  have plain := isToken.closed.plain_of_not_mem rfl undetailed
  have trimmed := isToken.trimmed
  rw [Clause.token, written, Option.getD_some]
  constructor
  case nonempty =>
    rintro rfl
    obtain ⟨c, member, -⟩ := (CountRange.spells_token written).exists_digit
    contradiction
  case first =>
    intro first
    obtain digit | same := begins _ first
    · exact apart.space digit
    · exact Text.head?_trim g.space text (trimmed.symm ▸ same)
  case last =>
    intro last
    obtain digit | same := ends _ last
    · exact apart.space digit
    · rw [← trimmed] at same
      exact Text.getLast?_trimEnd g.space _ same
  case plain => exact fun c member => plain c (inside c member)
  case kept => exact fun c member => (isToken.inline c (inside c member)).2

/-- Whether no digit with which the clause may be written is a mark where it stands. -/
def Apart (g : Grammar) : Clause → Prop
  | range _ => g.CountsApart
  | words _ => ¬ g.space.isDigit
  | characters _ => ¬ g.space.isDigit
  | _ => True

theorem apart_of_countsApart (apart : g.CountsApart) (c : Clause) : c.Apart g := by
  cases c with
  | range r => exact apart
  | words values => exact apart.space
  | characters values => exact apart.space
  | _ => trivial

/-- What an option has said can be said once more by an option of its own. -/
theorem renewed (isToken : IsToken g text) (isSaid : Said g kind text said) (renews : Renews said c)
    (apart : c.Apart g) : IsToken g (c.token g) ∧ Said g kind (c.token g) c := by
  have origin := origin_of_said isSaid
  cases renews with
  | required =>
    cases origin
    exact ⟨isToken, isSaid⟩
  | images =>
    cases origin
    exact ⟨isToken, isSaid⟩
  | format f =>
    cases origin
    exact ⟨isToken, isSaid⟩
  | choice text' =>
    cases origin
    exact ⟨isToken, isSaid⟩
  | range r =>
    cases origin with
    | range ranged read =>
      have read : CountRange.read? g text.toList = some r := by
        rw [CountRange.ofToken] at read
        split at read
        · contradiction
        · exact Except.ok.inj read
      exact ⟨isToken_of_isPhrase (isPhrase_range apart isToken read),
        said_range apart.toCountsEnd apart.required ranged (CountRange.spells_of_read? read).ne_empty⟩
  | @words v n signed =>
    cases origin with
    | words limited read =>
      obtain ⟨name, phrases⟩ := isPhrase_limit apart isToken (by simp) read signed
      exact ⟨isToken_detail name phrases, said_words phrases limited name⟩
  | @characters v n signed =>
    cases origin with
    | characters limited read =>
      obtain ⟨name, phrases⟩ := isPhrase_limit apart isToken (by simp) read signed
      exact ⟨isToken_detail name phrases, said_characters phrases limited name⟩
  | @tables written fs formats =>
    cases origin with
    | tables read =>
      obtain ⟨name, values⟩ := isPhrase_of_detail isToken read
      have phrases : ∀ v ∈ Property.flags fs, g.IsPhrase v := by
        intro v listed
        obtain ⟨f, enabled, rfl⟩ := List.mem_map.mp listed
        apply values f.token (formats f (Formatting.mem_enabled.mp enabled))
        cases f <;> decide
      exact ⟨isToken_detail (name (by simp)) phrases, said_tables phrases (name (by simp))⟩

end Clause

end ContentSchema
