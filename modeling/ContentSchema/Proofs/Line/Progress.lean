import ContentSchema.Proofs.Line.Invariant
/-!
How often a phase is called for one character. A reader that closes a line only when the next
character comes, in a call of its own, calls no more than three phases for a character, and gives
what the reader gives that closes lines at once. While it does, no mark is compared beyond its last
character (`Scanner.Lagging.consumed_within_three`).
-/
namespace ContentSchema
namespace Scan

variable {g : Grammar} {p q r : Phase} {c : Char}

/-- The mark that the phase compares with, and how many of its characters have been matched. -/
def Phase.mark? (g : Grammar) : Phase → Option (Marker × Nat)
  | snippetMark matched => some (g.snippetMark, matched)
  | commentMark _ matched => some (g.comment, matched)
  | delimiter _ matched => some (g.delimiter, matched)
  | _ => none

/-- Some characters of the mark have been matched, and some have not. -/
def Phase.Partway (g : Grammar) (p : Phase) : Prop :=
  ∀ mark matched, p.mark? g = some (mark, matched) → 0 < matched ∧ matched < mark.size

/-- The mark has a character to compare with this one, and does not refuse it as its first. -/
def Phase.Compares (g : Grammar) (c : Char) (p : Phase) : Prop :=
  ∀ mark matched, p.mark? g = some (mark, matched) →
    matched < mark.size ∧ (matched = 0 → c = mark.head)

theorem Phase.Partway.compares (partway : p.Partway g) (c : Char) : p.Compares g c := by
  intro mark matched marked
  obtain ⟨started, below⟩ := partway mark matched marked
  exact ⟨below, fun zero => absurd zero (Nat.ne_of_gt started)⟩

theorem partway_of_take (taken : look g p c = .take q) : q.Partway g := by
  intro mark matched marked
  have below {m : Marker} {n : Nat} (found : m.toList[n]? = some c) (more : n + 1 ≠ m.size) :
      n + 1 < m.size := by
    obtain ⟨inside, -⟩ := List.getElem?_eq_some_iff.mp found
    exact Nat.lt_of_le_of_ne inside more
  cases p <;> simp only [look] at taken
  case lineStart => grind [lookLineStart, Phase.mark?]
  case snippetMark => grind [lookSnippetMark, Phase.mark?]
  case identifier => grind [lookIdentifier, Phase.mark?]
  case options => grind [lookOptions, Phase.mark?]
  case afterHead => grind [lookAfterHead, Phase.mark?]
  case label => grind [lookLabel, Phase.mark?]
  case commentMark => grind [lookCommentMark, Phase.mark?]
  case comment => grind [lookComment, Phase.mark?]
  case delimiter => grind [lookDelimiter, Phase.mark?]

/-- A character is handed on to a mark only if it is the first one of the mark. -/
theorem compares_of_handOn (handed : look g p c = .handOn q) : q.Compares g c := by
  intro mark matched marked
  have first {m : Marker} (opens : c = m.head) : 0 < m.size ∧ (0 = 0 → c = m.head) :=
    ⟨m.size_pos, fun _ => opens⟩
  cases p <;> simp only [look] at handed
  case lineStart => grind [lookLineStart, Phase.mark?, Grammar.opensComment, Grammar.opensDelimiter,
      Grammar.opensSnippet]
  case snippetMark => grind [lookSnippetMark]
  case identifier => grind [lookIdentifier, Phase.mark?, Grammar.opensComment,
      Grammar.opensDelimiter]
  case options => grind [lookOptions]
  case afterHead => grind [lookAfterHead, Phase.mark?, Grammar.opensComment, Grammar.opensDelimiter]
  case label => grind [lookLabel, Phase.mark?, Grammar.opensComment, Grammar.opensDelimiter]
  case commentMark => grind [lookCommentMark, Phase.mark?]
  case comment => grind [lookComment, Phase.mark?, Grammar.opensDelimiter]
  case delimiter => grind [lookDelimiter]

theorem compares_of_handedOn (partway : p.Partway g) (handed : HandedOn g c p q) :
    q.Compares g c := by
  cases handed with
  | refl => exact partway.compares c
  | tail _ last => exact compares_of_handOn last

theorem rank_le (p : Phase) : p.rank ≤ 2 := by
  cases p <;> grind [Phase.rank]

/-- What the start of a line hands on is not handed on again. -/
theorem look_ne_handOn_of_lineStart (handed : look g .lineStart c = .handOn q) :
    look g q c ≠ .handOn r := by
  simp only [look, lookLineStart] at handed
  cases q <;> simp only [look]
  case snippetMark => grind [lookSnippetMark]
  case identifier => grind [lookIdentifier]
  case commentMark => grind [lookCommentMark]
  case delimiter => grind [lookDelimiter]
  all_goals grind

end Scan

namespace Scanner
open Scan

variable {g : Grammar} {s t : Scanner} {p : Phase} {i : Nat} {c : Char}

theorem close_phase (s : Scanner) (p : Phase) (seen : Seen) :
    { s with phase := p }.close g seen = { s.close g seen with phase := p } := by
  cases seen <;> rfl

theorem feed_of_handOn (handed : look g s.phase c = .handOn p) :
    { s with phase := p }.feed g i c = s.feed g i c := by
  simp only [feed, settle_of_handOn handed, close_phase]

theorem partway_of_feed (fed : s.feed g i c = .ok t) : t.phase.Partway g := by
  obtain ⟨p, settled, rfl⟩ | ⟨seen, settled, rfl⟩ := feed_eq_ok_iff.mp fed
  · obtain ⟨last, -, taken⟩ := take_of_settle settled
    exact partway_of_take taken
  · rintro _ _ ⟨⟩

/-- A reader that closes a line only when the next character comes. -/
structure Lagging where
  reader : Scanner := {}
  /-- What the line has held that has ended and is not closed. -/
  ended : Option Seen := none

namespace Lagging

/-- What a call makes of a character. -/
inductive Call where
  | consumed (next : Lagging)
  | again (next : Lagging)
  | failed (e : ParseError)

/-- The reader that has closed each line that has ended. -/
def caughtUp (g : Grammar) (d : Lagging) : Scanner :=
  match d.ended with
  | none => d.reader
  | some seen =>
    { d.reader.close g seen with phase := .lineStart, number := d.reader.number + 1 }

/-- Closes a line that has ended, and otherwise calls the phase once. -/
def call (g : Grammar) (index : Nat) (c : Char) (d : Lagging) : Call :=
  match d.ended with
  | some _ => .again { reader := d.caughtUp g }
  | none =>
    match look g d.reader.phase c with
    | .take next => .consumed { reader := { d.reader with phase := next } }
    | .endLine seen => .consumed { reader := d.reader, ended := some seen }
    | .handOn next => .again { reader := { d.reader with phase := next } }
    | .refuse => .failed (.unexpected c index d.reader.phase.stage)

/-- Calls until the character is consumed or refused, none if the calls do not suffice. -/
def loop (g : Grammar) (index : Nat) (c : Char) : Nat → Lagging → Option (Except ParseError Lagging)
  | 0, _ => none
  | calls + 1, d =>
    match d.call g index c with
    | .consumed next => some (.ok next)
    | .again next => loop g index c calls next
    | .failed e => some (.error e)

/-- The readers that some characters lead to. -/
inductive Fed (g : Grammar) : Lagging → Prop where
  | start : Fed g {}
  | next {d next : Lagging} {i n : Nat} {c : Char} : Fed g d →
      d.loop g i c n = some (.ok next) → Fed g next

variable {d next : Lagging} {calls : Nat} {outcome : Except ParseError Lagging}

theorem feed_of_call (g : Grammar) (i : Nat) (c : Char) (d : Lagging) :
    match d.call g i c with
    | .consumed next => (d.caughtUp g).feed g i c = .ok (next.caughtUp g)
    | .again next => (d.caughtUp g).feed g i c = (next.caughtUp g).feed g i c
    | .failed e => (d.caughtUp g).feed g i c = .error e := by
  obtain ⟨s, ended⟩ := d
  cases ended with
  | some seen => rfl
  | none =>
    cases move : look g s.phase c with
    | take p => simp only [call, caughtUp, move, feed, settle_of_take move]
    | endLine seen => simp only [call, caughtUp, move, feed, settle_of_endLine move]
    | handOn p => simp only [call, caughtUp, move, feed_of_handOn move]
    | refuse => simp only [call, caughtUp, move, feed, settle_of_refuse move]

/-- Calls come to what the reader gives that closes lines at once. -/
theorem map_caughtUp_of_loop (looped : d.loop g i c calls = some outcome) :
    outcome.map (caughtUp g) = (d.caughtUp g).feed g i c := by
  induction calls generalizing d with
  | zero => simp [loop] at looped
  | succ calls ih =>
    have agrees := feed_of_call g i c d
    simp only [loop] at looped
    cases called : d.call g i c with
    | consumed next =>
      simp only [called, Option.some.injEq] at looped agrees
      rw [← looped, agrees, Except.map]
    | again next =>
      simp only [called] at looped agrees
      rw [ih looped, agrees]
    | failed e =>
      simp only [called, Option.some.injEq] at looped agrees
      rw [← looped, agrees, Except.map]

theorem loop_of_again (again : d.call g i c = .again next) :
    d.loop g i c (calls + 1) = next.loop g i c calls := by
  simp only [loop, again]

theorem loop_of_handOn (handed : look g s.phase c = .handOn p) :
    loop g i c (calls + 1) { reader := s } = loop g i c calls { reader := { s with phase := p } } :=
  loop_of_again (by simp only [call, handed])

/-- One call more suffices if the others do wherever the character is handed on to. -/
theorem isSome_loop_succ (onward : ∀ p, look g s.phase c = .handOn p →
    (loop g i c calls { reader := { s with phase := p } }).isSome) :
    (loop g i c (calls + 1) { reader := s }).isSome := by
  cases move : look g s.phase c with
  | handOn p =>
    rw [loop_of_handOn move]
    exact onward p move
  | _ => simp only [loop, call, move, Option.isSome_some]

theorem isSome_loop_of_rank_lt (bound : s.phase.rank < calls) :
    (loop g i c calls { reader := s }).isSome := by
  induction calls generalizing s with
  | zero => contradiction
  | succ calls ih =>
    exact isSome_loop_succ fun p handed =>
      ih (Nat.lt_of_lt_of_le (rank_lt_of_handOn handed) (Nat.le_of_lt_succ bound))

theorem isSome_loop_lineStart (start : s.phase = .lineStart) :
    (loop g i c 2 { reader := s }).isSome := by
  refine isSome_loop_succ fun p handed => isSome_loop_succ fun q again => ?_
  rw [start] at handed
  exact absurd again (look_ne_handOn_of_lineStart handed)

/-- The call that closes a line leaves two for the start of the next one. -/
theorem isSome_loop_three (g : Grammar) (i : Nat) (c : Char) (d : Lagging) :
    (d.loop g i c 3).isSome := by
  obtain ⟨s, ended⟩ := d
  cases ended with
  | none => exact isSome_loop_of_rank_lt (Nat.lt_succ_of_le (rank_le s.phase))
  | some seen =>
    rw [loop_of_again rfl]
    exact isSome_loop_lineStart rfl

theorem Fed.partway (fed : Fed g d) : (d.caughtUp g).phase.Partway g := by
  induction fed with
  | start => rintro _ _ ⟨⟩
  | next _ looped _ => exact partway_of_feed (map_caughtUp_of_loop looped).symm

/-- Whatever has been read, a character is consumed or refused by the third call at the latest, as by
the reader that closes lines at once. In every phase that is called, and at the end of the source,
fewer characters have been matched than the mark has, so that those that become text of a label
again are characters of it. -/
theorem consumed_within_three (fed : Fed g d) (i : Nat) (c : Char) :
    (∃ outcome, d.loop g i c 3 = some outcome ∧
      outcome.map (caughtUp g) = (d.caughtUp g).feed g i c) ∧
    (d.caughtUp g).phase.Partway g ∧
    ∀ p, HandedOn g c (d.caughtUp g).phase p → p.Compares g c := by
  obtain ⟨outcome, looped⟩ := Option.isSome_iff_exists.mp (isSome_loop_three g i c d)
  exact ⟨⟨outcome, looped, map_caughtUp_of_loop looped⟩, fed.partway,
    fun _ handed => compares_of_handedOn fed.partway handed⟩

/-- Two calls do not suffice where a comment stands behind the end of a line. -/
theorem consumed_within_three_comment :
    ∃ d, Fed .standard d ∧ d.ended = some (.head { identifier := "A" }) ∧
      (d.loop .standard 2 '/' 2).isNone ∧
      ∃ next, d.loop .standard 2 '/' 3 = some (.ok next) ∧
        (d.caughtUp .standard).feed .standard 2 '/' = .ok (next.caughtUp .standard) ∧
        (next.caughtUp .standard).phase = .commentMark .remark 1 ∧
        Phase.Compares .standard '/' (.commentMark .remark 0) := by
  let named : Phase := .identifier { identifier := "A" }
  have begun : Fed .standard { reader := { phase := named } } :=
    .next (i := 0) (c := 'A') (n := 3) .start rfl
  have fed : Fed .standard
      { reader := { phase := .delimiter (.head { identifier := "A" }) 0 }
        ended := some (.head { identifier := "A" }) } :=
    .next (i := 1) (c := '\n') (n := 3) begun rfl
  obtain ⟨⟨outcome, looped, agrees⟩, -, compares⟩ := consumed_within_three fed 2 '/'
  cases Option.some.inj looped
  exact ⟨_, fed, rfl, rfl, _, looped, agrees.symm, rfl, compares _ (.single rfl)⟩

end Lagging
end Scanner
end ContentSchema
