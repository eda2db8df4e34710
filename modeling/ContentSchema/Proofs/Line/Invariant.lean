import ContentSchema.Proofs.Line.Reading
/-!
Invariants of reading, for any grammar. What holds where a line begins, and is kept whenever a
character is taken or handed on, holds of every line that has been read (`Invariant.of_scan`). So
every such line has an identifier (`identifier_ne_of_scan`).
-/
namespace ContentSchema
namespace Scan

/-- The line that has been seen, if it names something. -/
def Seen.draft? : Seen → Option Draft
  | head d => some d
  | tail d => some d
  | _ => none

/-- What is kept whenever a character is taken or handed on. -/
structure Kept (g : Grammar) (holds : Phase → Prop) : Prop where
  take : ∀ {p q : Phase} {c : Char}, holds p → look g p c = .take q → holds q
  handOn : ∀ {p q : Phase} {c : Char}, holds p → look g p c = .handOn q → holds q

/-- What holds of every phase, and then of the drafts that lines are made of. -/
structure Invariant (g : Grammar) (holds : Phase → Prop) (whole : Draft → Prop) : Prop where
  start : holds .lineStart
  next : ∀ {p q : Phase} {c : Char}, c ∉ g.skip → holds p → settle g p c = .next q → holds q
  conclude : ∀ {p : Phase} {seen : Seen}, holds p → p.conclude? g = some seen →
    ∀ d ∈ seen.draft?, whole d

section

variable {g : Grammar} {holds : Phase → Prop} {p q : Phase} {c : Char} {seen : Seen}
  (kept : Kept g holds)
include kept

theorem Kept.of_handedOn (held : holds p) (handed : HandedOn g c p q) : holds q := by
  induction handed with
  | refl => exact held
  | tail _ handed ih => exact kept.handOn ih handed

theorem Kept.of_settle (held : holds p) (settled : settle g p c = .next q) : holds q := by
  obtain ⟨last, handed, taken⟩ := take_of_settle settled
  exact kept.take (kept.of_handedOn held handed) taken

/-- A line that can be read to its end is concluded by a phase of which still holds what is kept. -/
theorem Kept.of_read? {cs : List Char} (held : holds p) (read : p.read? g cs = some seen) :
    ∃ q, holds q ∧ q.conclude? g = some seen := by
  induction cs generalizing p with
  | nil => exact ⟨p, held, read⟩
  | cons c cs ih =>
    rw [Phase.read?] at read
    cases settled : settle g p c with
    | next q =>
      simp only [settled] at read
      exact ih (kept.of_settle held settled) read
    | endLine _ => simp [settled] at read
    | refused _ => simp [settled] at read

end

end Scan

namespace Scanner
open Scan

variable {g : Grammar} {s t : Scanner} {i : Nat} {c : Char}

/-- A character moves the reader on within a line, or ends the line. -/
theorem feed_eq_ok_iff : s.feed g i c = .ok t ↔
    (∃ p, settle g s.phase c = .next p ∧ t = { s with phase := p }) ∨
    ∃ seen, settle g s.phase c = .endLine seen ∧
      t = { s.close g seen with phase := .lineStart, number := s.number + 1 } := by
  rw [feed]
  cases settle g s.phase c <;> simp [eq_comm]

/-- What every character keeps holds of the reader at the end of a source. -/
theorem exists_end_of_run (holds : Scanner → Prop)
    (kept : ∀ {s t : Scanner} {i : Nat} {c : Char}, c ∉ g.skip → holds s → s.feed g i c = .ok t →
      holds t)
    {cs : List Char} {lines : List Line} (held : holds s) (read : s.run g i cs = .ok lines) :
    ∃ t seen, holds t ∧ t.phase.conclude? g = some seen ∧ lines = (t.close g seen).lines.toList := by
  induction cs generalizing s i with
  | nil =>
    rw [run, finish] at read
    cases concluded : s.phase.conclude? g with
    | none => simp [concluded] at read
    | some seen =>
      simp only [concluded, Except.ok.injEq] at read
      exact ⟨s, seen, held, concluded, read.symm⟩
  | cons c cs ih =>
    rw [run] at read
    split at read
    · exact ih held read
    · next unskipped =>
      cases fed : s.feed g i c with
      | error e => simp [fed] at read
      | ok t =>
        simp only [fed] at read
        exact ih (kept unskipped held fed) read

end Scanner

namespace Scan
namespace Invariant

variable {g : Grammar} {holds : Phase → Prop} {whole : Draft → Prop} {p : Phase} {c : Char}
  {seen : Seen}

/-- A line that is made of such a draft. -/
def IsLine (g : Grammar) (whole : Draft → Prop) (l : Line) : Prop :=
  ∃ d number afterBlank, whole d ∧ l = d.toLine g number afterBlank

theorem isLine_of_close {s : Scanner} (lines : ∀ l ∈ s.lines, IsLine g whole l)
    (ended : ∀ d ∈ seen.draft?, whole d) : ∀ l ∈ (s.close g seen).lines, IsLine g whole l := by
  have added (d : Draft) (isWhole : whole d) : ∀ l ∈ (s.keep g d).lines, IsLine g whole l := by
    intro l member
    obtain before | rfl := Array.mem_push.mp member
    · exact lines l before
    · exact ⟨d, s.number, s.blank, isWhole, rfl⟩
  cases seen with
  | nothing => exact lines
  | remark => exact lines
  | head d => exact added d (ended d rfl)
  | tail d => exact added d (ended d rfl)

theorem of_run (invariant : Invariant g holds whole) {cs : List Char} {s : Scanner} {i : Nat}
    {lines : List Line} (held : holds s.phase) (before : ∀ l ∈ s.lines, IsLine g whole l)
    (read : s.run g i cs = .ok lines) : ∀ l ∈ lines, IsLine g whole l := by
  have kept {s t : Scanner} {i : Nat} {c : Char} (unskipped : c ∉ g.skip)
      (held : holds s.phase ∧ ∀ l ∈ s.lines, IsLine g whole l) (fed : s.feed g i c = .ok t) :
      holds t.phase ∧ ∀ l ∈ t.lines, IsLine g whole l := by
    obtain ⟨p, settled, rfl⟩ | ⟨seen, settled, rfl⟩ := Scanner.feed_eq_ok_iff.mp fed
    · exact ⟨invariant.next unskipped held.1 settled, held.2⟩
    · have ended := invariant.conclude held.1 (conclude?_of_settle settled)
      exact ⟨invariant.start, isLine_of_close held.2 ended⟩
  obtain ⟨t, seen, ⟨held, before⟩, concluded, rfl⟩ :=
    Scanner.exists_end_of_run _ kept ⟨held, before⟩ read
  simpa using isLine_of_close before (invariant.conclude held concluded)

theorem of_scan (invariant : Invariant g holds whole) {source : String} {lines : List Line}
    (read : scan g source = .ok lines) : ∀ l ∈ lines, IsLine g whole l :=
  invariant.of_run (s := {}) invariant.start (by simp) read

end Invariant

/-- Once an identifier has ended, it is not empty. -/
def Phase.Named : Phase → Prop
  | lineStart => True
  | snippetMark _ => True
  | identifier _ => True
  | options d .. => d.identifier ≠ ""
  | afterHead d => d.identifier ≠ ""
  | label d => d.identifier ≠ ""
  | commentMark seen _ => ∀ d ∈ seen.draft?, d.identifier ≠ ""
  | comment seen => ∀ d ∈ seen.draft?, d.identifier ≠ ""
  | delimiter seen _ => ∀ d ∈ seen.draft?, d.identifier ≠ ""

theorem named_of_recover? {g : Grammar} {seen : Seen} {matched : Nat} {d : Draft}
    (named : ∀ d ∈ seen.draft?, d.identifier ≠ "") (recovered : seen.recover? g matched = some d) :
    d.identifier ≠ "" := by
  cases seen with
  | tail d' =>
    rw [Seen.recover?] at recovered
    split at recovered
    · contradiction
    · cases recovered
      exact named d' rfl
  | _ => contradiction

theorem kept_named (g : Grammar) : Kept g Phase.Named where
  take := by
    intro p q c named taken
    cases p <;> simp only [look] at taken
    case lineStart => grind [lookLineStart, Phase.Named]
    case snippetMark => grind [lookSnippetMark, Phase.Named]
    case identifier =>
      grind [lookIdentifier, Phase.Named, Grammar.isReserved, Grammar.isStructural]
    case options => grind [lookOptions, Phase.Named]
    case afterHead => grind [lookAfterHead, Phase.Named]
    case label => grind [lookLabel, Phase.Named]
    case commentMark => grind [lookCommentMark, Phase.Named]
    case comment => grind [lookComment, Phase.Named]
    case delimiter => grind [lookDelimiter, Phase.Named]
  handOn := by
    intro p q c named handed
    cases p <;> simp only [look] at handed
    case lineStart => grind [lookLineStart, Phase.Named, Seen.draft?]
    case snippetMark => grind [lookSnippetMark]
    case identifier => grind [lookIdentifier, Phase.Named, Grammar.isReserved, Seen.draft?]
    case options => grind [lookOptions]
    case afterHead => grind [lookAfterHead, Phase.Named, Seen.draft?]
    case label => grind [lookLabel, Phase.Named, Seen.draft?]
    case commentMark => grind [lookCommentMark, Phase.Named, named_of_recover?]
    case comment => grind [lookComment, Phase.Named]
    case delimiter => grind [lookDelimiter]

theorem invariant_named (g : Grammar) : Invariant g Phase.Named (·.identifier ≠ "") where
  start := trivial
  next := fun _ => (kept_named g).of_settle
  conclude := by
    intro p seen named concluded
    cases p <;> simp only [Phase.conclude?] at concluded
    case commentMark =>
      obtain ⟨d, recovered, rfl⟩ := Option.map_eq_some_iff.mp concluded
      intro _ same
      exact Option.some.inj same ▸ named_of_recover? named recovered
    all_goals grind [Phase.Named, Seen.draft?]

end Scan

theorem identifier_ne_of_scan {g : Grammar} {source : String} {lines : List Line}
    (read : scan g source = .ok lines) : ∀ l ∈ lines, l.identifier ≠ "" := by
  intro l member
  obtain ⟨d, _, _, named, rfl⟩ := (Scan.invariant_named g).of_scan read l member
  exact named

end ContentSchema
