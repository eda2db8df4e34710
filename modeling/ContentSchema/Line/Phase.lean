import ContentSchema.Grammar.Basic
import ContentSchema.Line.Basic
import ContentSchema.ParseError
import ContentSchema.Text
/-!
The phases of reading a line. The phase says where in a line the reader is and what it has gathered;
each phase takes the character, refuses it, or hands it on to another phase. A character is handed
on at most twice, since that lowers the rank of the phase (`rank_lt_of_handOn`).
-/
namespace ContentSchema.Scan

/-- A line as far as it has been read. -/
structure Draft where
  snippet : Bool := false
  identifier : String := ""
  options : Option (List String) := none
  label : String := ""
deriving DecidableEq

/-- Spaces at the end are not part of a label, and a label has at least one character. -/
def Draft.toLine (g : Grammar) (number : Nat) (afterBlank : Bool) (d : Draft) : Line :=
  let label := Text.trimEnd g.space d.label
  { snippet := d.snippet
    identifier := d.identifier
    options := d.options
    label := if label = "" then none else some label
    number, afterBlank }

/-- What a line has held before a comment or its end. -/
inductive Seen where
  | nothing
  /-- A comment only. -/
  | remark
  /-- An identifier that nothing but its options, a space or the end may follow. -/
  | head (d : Draft)
  /-- An identifier after which a label may stand. -/
  | tail (d : Draft)
deriving DecidableEq

/-- Where in a line the reader is. -/
inductive Phase where
  | lineStart
  | snippetMark (matched : Nat)
  | identifier (d : Draft)
  | options (d : Draft) (tokens : List String) (token : String) (inDetail : Bool)
  | afterHead (d : Draft)
  | label (d : Draft)
  | commentMark (seen : Seen) (matched : Nat)
  | comment (seen : Seen)
  | delimiter (seen : Seen) (matched : Nat)
deriving DecidableEq

/-- What a phase does with a character. -/
inductive Move where
  | take (next : Phase)
  | endLine (seen : Seen)
  | handOn (next : Phase)
  | refuse

namespace Phase

def stage : Phase → Stage
  | lineStart => .indent
  | snippetMark _ => .snippetMark
  | identifier _ => .identifier
  | options .. => .options
  | afterHead _ => .afterHead
  | label _ => .label
  | commentMark .. => .comment
  | comment _ => .comment
  | delimiter .. => .delimiter

end Phase

/-- The line with the first characters of the comment mark as text of its label, where a label may
stand: a mark that breaks off there was no mark. -/
def Seen.recover? (g : Grammar) (matched : Nat) : Seen → Option Draft
  | .tail d =>
    if d.snippet then none
    else some { d with label := d.label ++ .ofList (g.comment.toList.take matched) }
  | _ => none

/-- The text of an option, without the spaces after it; an empty text is no option. -/
def token? (g : Grammar) (token : String) : Option String :=
  let text := Text.trimEnd g.space token
  if text = "" then none else some text

def lookLineStart (g : Grammar) (c : Char) : Move :=
  if g.opensComment c then .handOn (.commentMark .remark 0)
  else if c = g.space then .take .lineStart
  else if g.opensDelimiter c then .handOn (.delimiter .nothing 0)
  else if g.isStructural c then .refuse
  else if g.opensSnippet c then .handOn (.snippetMark 0)
  else .handOn (.identifier {})

def lookSnippetMark (g : Grammar) (matched : Nat) (c : Char) : Move :=
  if g.snippetMark.toList[matched]? ≠ some c then .refuse
  else if matched + 1 = g.snippetMark.size then .take (.identifier { snippet := true })
  else .take (.snippetMark (matched + 1))

/-- No identifier begins with a reserved character; within one, only the array delimiter may
stand. -/
def lookIdentifier (g : Grammar) (d : Draft) (c : Char) : Move :=
  if d.identifier = "" ∧ g.isReserved c then .refuse
  else if g.opensComment c then .handOn (.commentMark (.head d) 0)
  else if g.opensDelimiter c then .handOn (.delimiter (.head d) 0)
  else if c = g.space then .take (.afterHead d)
  else if c = g.optionsStart then .take (.options d [] "" false)
  else if g.isReserved c ∧ c ≠ g.arrayDelimiter then .refuse
  else .take (.identifier { d with identifier := d.identifier.push c })

/-- Spaces before an option are dropped, and array delimiters within a detail separate nothing. -/
def lookOptions (g : Grammar) (d : Draft) (tokens : List String) (token : String)
    (inDetail : Bool) (c : Char) : Move :=
  if g.opensComment c || g.opensDelimiter c || g.opensSnippet c then .refuse
  else if c = g.space then
    .take (.options d tokens (if token = "" then "" else token.push c) inDetail)
  else if c = g.arrayDelimiter then
    if inDetail then .take (.options d tokens (token.push c) inDetail)
    else match token? g token with
      | none => .refuse
      | some text => .take (.options d (tokens ++ [text]) "" false)
  else if c = g.optionsEnd then
    if inDetail then .refuse
    else match token? g token with
      | some text => .take (.afterHead { d with options := some (tokens ++ [text]) })
      | none =>
        if tokens = [] then .take (.afterHead { d with options := some [] }) else .refuse
  else if c = g.detailStart then
    if inDetail ∨ token = "" then .refuse else .take (.options d tokens (token.push c) true)
  else if c = g.detailEnd then
    if inDetail then .take (.options d tokens (token.push c) false) else .refuse
  else if c = g.optionsStart then .refuse
  else .take (.options d tokens (token.push c) inDetail)

/-- A reference to a snippet carries no label. -/
def lookAfterHead (g : Grammar) (d : Draft) (c : Char) : Move :=
  if g.opensComment c then .handOn (.commentMark (.tail d) 0)
  else if c = g.space then .take (.afterHead d)
  else if g.opensDelimiter c then .handOn (.delimiter (.tail d) 0)
  else if g.isStructural c || g.opensSnippet c || d.snippet then .refuse
  else .handOn (.label d)

def lookLabel (g : Grammar) (d : Draft) (c : Char) : Move :=
  if g.opensComment c then .handOn (.commentMark (.tail d) 0)
  else if g.opensDelimiter c then .handOn (.delimiter (.tail d) 0)
  else if g.isStructural c then .refuse
  else .take (.label { d with label := d.label.push c })

def lookCommentMark (g : Grammar) (seen : Seen) (matched : Nat) (c : Char) : Move :=
  if g.comment.toList[matched]? = some c then
    if matched + 1 = g.comment.size then .take (.comment seen)
    else .take (.commentMark seen (matched + 1))
  else if matched = 0 then .refuse
  else match seen.recover? g matched with
    | some d => .handOn (.label d)
    | none => .refuse

def lookComment (g : Grammar) (seen : Seen) (c : Char) : Move :=
  if g.opensDelimiter c then .handOn (.delimiter seen 0) else .take (.comment seen)

def lookDelimiter (g : Grammar) (seen : Seen) (matched : Nat) (c : Char) : Move :=
  if g.delimiter.toList[matched]? ≠ some c then .refuse
  else if matched + 1 = g.delimiter.size then .endLine seen
  else .take (.delimiter seen (matched + 1))

def look (g : Grammar) : Phase → Char → Move
  | .lineStart => lookLineStart g
  | .snippetMark matched => lookSnippetMark g matched
  | .identifier d => lookIdentifier g d
  | .options d tokens token inDetail => lookOptions g d tokens token inDetail
  | .afterHead d => lookAfterHead g d
  | .label d => lookLabel g d
  | .commentMark seen matched => lookCommentMark g seen matched
  | .comment seen => lookComment g seen
  | .delimiter seen matched => lookDelimiter g seen matched

/-- How often a character can still be handed on. -/
def Phase.rank : Phase → Nat
  | lineStart => 2
  | afterHead _ => 2
  | commentMark _ matched => if matched = 0 then 0 else 2
  | identifier _ => 1
  | label _ => 1
  | comment _ => 1
  | snippetMark _ => 0
  | options .. => 0
  | delimiter .. => 0

theorem rank_lt_of_handOn {g : Grammar} {p q : Phase} {c : Char} (h : look g p c = .handOn q) :
    q.rank < p.rank := by
  cases p <;> simp only [look] at h
  case lineStart => grind [lookLineStart, Phase.rank]
  case snippetMark => grind [lookSnippetMark]
  case identifier => grind [lookIdentifier, Phase.rank]
  case options => grind [lookOptions]
  case afterHead => grind [lookAfterHead, Phase.rank]
  case label => grind [lookLabel, Phase.rank]
  case commentMark => grind [lookCommentMark, Phase.rank]
  case comment => grind [lookComment, Phase.rank]
  case delimiter => grind [lookDelimiter]

/-- What the line holds if the source ends here, none if something has still to be closed. -/
def Phase.conclude? (g : Grammar) : Phase → Option Seen
  | lineStart => some .nothing
  | snippetMark _ => none
  | identifier d => if d.identifier = "" then none else some (.head d)
  | options .. => none
  | afterHead d => some (.tail d)
  | label d => some (.tail d)
  | commentMark seen matched => (seen.recover? g matched).map .tail
  | comment seen => some seen
  | delimiter seen _ => some seen

end ContentSchema.Scan
