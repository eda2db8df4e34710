import ContentSchema.Line.Basic
import ContentSchema.Grammar.Basic
import ContentSchema.Text
/-!
The grammar of lines, said without a reader: what the text of one line holds (`Form`), and which
lines a document keeps of what its lines hold (`records`).
-/
namespace ContentSchema

/-- What a line holds. Its number and the blank lines before it are not known to the line. -/
inductive Held where
  | blank
  | remark
  | named (line : Line)
deriving DecidableEq

namespace Held

def line? : Held → Option Line
  | named line => some line
  | _ => none

/-- Whether a blank line stands behind the last line that names something. -/
def endBlank (before : List Held) : Bool :=
  (before.reverse.takeWhile (·.line?.isNone)).contains blank

/-- The lines that name something, each with its number, counted from one, and with whether a blank
line stands between it and the one before it. -/
def records (held : List Held) : List Line :=
  held.zipIdx.filterMap fun (h, i) => h.line?.map fun line =>
    { line with number := i + 1, afterBlank := endBlank (held.take i) }

end Held

namespace Form

/-- Such a text begins with no array delimiter, which is the only mark that may stand in it. -/
structure IsIdentifier (g : Grammar) (cs : List Char) : Prop where
  nonempty : cs ≠ []
  head : cs.head? ≠ some g.arrayDelimiter
  plain : ∀ c ∈ cs, c = g.arrayDelimiter ∨ ¬ g.isReserved c

/-- A text in which brackets of details open and close in turn, and array delimiters stand within
details only. It may begin within a detail, but does not end there. -/
inductive Closed (g : Grammar) : (inDetail : Bool) → List Char → Prop where
  | nil : Closed g false []
  | opened {cs : List Char} : Closed g true cs → Closed g false (g.detailStart :: cs)
  | ended {cs : List Char} : Closed g false cs → Closed g true (g.detailEnd :: cs)
  | delimiter {cs : List Char} : Closed g true cs → Closed g true (g.arrayDelimiter :: cs)
  | plain {inDetail : Bool} {c : Char} {cs : List Char} :
      c = g.space ∨ ¬ g.isReserved c → Closed g inDetail cs → Closed g inDetail (c :: cs)

/-- What an option may be, with spaces at either end: not empty, and no detail without a name. -/
structure IsPiece (g : Grammar) (piece : List Char) : Prop where
  closed : Closed g false piece
  nonempty : Text.trim g.space (.ofList piece) ≠ ""
  named : (Text.trim g.space (.ofList piece)).toList.head? ≠ some g.detailStart

/-- The text between the brackets of a line, and the options it gives. -/
inductive IsOptions (g : Grammar) : List Char → List String → Prop where
  | none (n : Nat) : IsOptions g (List.replicate n g.space) []
  | pieces {ps : List (List Char)} : ps ≠ [] → (∀ p ∈ ps, IsPiece g p) →
      IsOptions g ([g.arrayDelimiter].intercalate ps)
        (ps.map fun p => Text.trim g.space (.ofList p))

/-- Nothing, or a comment. -/
def IsEnding (g : Grammar) (cs : List Char) : Prop :=
  cs = [] ∨ g.comment.toList <+: cs

/-- A label goes on until a comment mark begins for the first time. -/
structure IsLabel (g : Grammar) (label rest : List Char) : Prop where
  head : ∃ c, label.head? = some c ∧ c ≠ g.space ∧ c ≠ g.snippetMark.head
  plain : ∀ c ∈ label, ¬ g.isStructural c
  first : ∀ i < label.length, ¬ g.comment.toList <+: (label ++ rest).drop i

/-- What stands behind the identifier and the options of a line, and the label it gives. A line
with a snippet mark has none. -/
inductive IsTail (g : Grammar) (snippet : Bool) : List Char → Option String → Prop where
  | bare (n : Nat) {rest : List Char} : IsEnding g rest →
      IsTail g snippet (List.replicate n g.space ++ rest) none
  | label (n : Nat) {label rest : List Char} : snippet = false → IsLabel g label rest →
      IsEnding g rest → IsTail g snippet (List.replicate n g.space ++ (label ++ rest))
        (some (Text.trimEnd g.space (.ofList label)))

/-- What stands before the identifier of a line. -/
def front (g : Grammar) (indent : Nat) (snippet : Bool) : List Char :=
  List.replicate indent g.space ++ if snippet then g.snippetMark.toList else []

end Form

open Form in
/-- What a line holds, by its text without the delimiter. -/
inductive Form (g : Grammar) : List Char → Held → Prop where
  | blank (n : Nat) : Form g (List.replicate n g.space) .blank
  | remark (n : Nat) {rest : List Char} : g.comment.toList <+: rest →
      Form g (List.replicate n g.space ++ rest) .remark
  | bare (n : Nat) {snippet : Bool} {id rest : List Char} : IsIdentifier g id → IsEnding g rest →
      Form g (front g n snippet ++ (id ++ rest)) (.named { snippet, identifier := .ofList id })
  | spaced (n : Nat) {snippet : Bool} {id rest : List Char} {label : Option String} :
      IsIdentifier g id → IsTail g snippet rest label →
      Form g (front g n snippet ++ (id ++ g.space :: rest))
        (.named { snippet, identifier := .ofList id, label })
  | bracketed (n : Nat) {snippet : Bool} {id inner rest : List Char} {options : List String}
      {label : Option String} :
      IsIdentifier g id → IsOptions g inner options → IsTail g snippet rest label →
      Form g (front g n snippet ++ (id ++ g.optionsStart :: (inner ++ g.optionsEnd :: rest)))
        (.named { snippet, identifier := .ofList id, options := some options, label })

end ContentSchema
