import ContentSchema.Line.Phase
/-!
Reading a source into lines, one character at a time. Only the number of the line, and whether a
blank line has gone by, pass from one line to the next.
-/
namespace ContentSchema

namespace Scan

/-- What becomes of a character in the end. -/
inductive Step where
  | next (p : Phase)
  | endLine (seen : Seen)
  | refused (stage : Stage)

/-- Hands the character on until some phase takes or refuses it. -/
def settle (g : Grammar) (p : Phase) (c : Char) : Step :=
  match _move : look g p c with
  | .take next => .next next
  | .endLine seen => .endLine seen
  | .handOn next => settle g next c
  | .refuse => .refused p.stage
termination_by p.rank
decreasing_by exact rank_lt_of_handOn ‹_›

end Scan

/-- A reader between two characters. -/
structure Scanner where
  phase : Scan.Phase := .lineStart
  /-- The number of the line that is being read. -/
  number : Nat := 1
  /-- Whether a blank line has ended since the last line that was kept. -/
  blank : Bool := false
  lines : Array Line := #[]

namespace Scanner
open Scan

def keep (g : Grammar) (d : Draft) (s : Scanner) : Scanner :=
  { s with blank := false, lines := s.lines.push (d.toLine g s.number s.blank) }

/-- A line without an identifier is not kept; one of spaces alone is a blank line. -/
def close (g : Grammar) (s : Scanner) : Seen → Scanner
  | .nothing => { s with blank := true }
  | .remark => s
  | .head d => s.keep g d
  | .tail d => s.keep g d

def feed (g : Grammar) (index : Nat) (c : Char) (s : Scanner) : Except ParseError Scanner :=
  match settle g s.phase c with
  | .next p => .ok { s with phase := p }
  | .endLine seen => .ok { s.close g seen with phase := .lineStart, number := s.number + 1 }
  | .refused stage => .error (.unexpected c index stage)

def finish (g : Grammar) (index : Nat) (s : Scanner) : Except ParseError (List Line) :=
  match s.phase.conclude? g with
  | some seen => .ok (s.close g seen).lines.toList
  | none => .error (.unterminated s.phase.stage index)

/-- Reads the rest of a source, of which `index` characters have been read. Characters to skip are
counted and have no other effect. -/
def run (g : Grammar) (index : Nat) (s : Scanner) : List Char → Except ParseError (List Line)
  | [] => s.finish g index
  | c :: cs =>
    if c ∈ g.skip then run g (index + 1) s cs
    else match s.feed g index c with
      | .ok next => run g (index + 1) next cs
      | .error e => .error e

end Scanner

/-- The lines of a source. -/
def scan (g : Grammar) (source : String) : Except ParseError (List Line) :=
  Scanner.run g 0 {} source.toList

end ContentSchema
