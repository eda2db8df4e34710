import ContentSchema.Description.Clause
/-!
What the options of a property supply together, each thing at most once and in any order.
-/
namespace ContentSchema

/-- What options have supplied so far. -/
structure Supply where
  required : Bool := false
  images : Bool := false
  range : Option CountRange := none
  formatting : Formatting := {}
  /-- A limit can be supplied without a number. -/
  words : Option (Option UInt32) := none
  characters : Option (Option UInt32) := none
  /-- The formats within tables. -/
  tables : Option Formatting := none
  choices : List String := []
deriving DecidableEq

namespace Supply

/-- The number a limit gives; its text need not be one. -/
def limit (token : String) : List String → Except ParseError (Option UInt32)
  | [] => .ok none
  | [v] => .ok ((Decimal.readSigned? v.toList).bind Decimal.toCount?)
  | _ => .error (.duplicateOption token)

/-- The formats that values name; other values are passed over. -/
def tableFormats (s : Formatting) : List String → Except ParseError Formatting
  | [] => .ok s
  | v :: vs =>
    match Format.ofToken? v with
    | none => tableFormats s vs
    | some f => if s.allows f then .error (.duplicateOption v) else tableFormats (s.enable f) vs

/-- Adds what an option says, unless that has been supplied before. Choices may be repeated. -/
def add (token : String) (s : Supply) : Clause → Except ParseError Supply
  | .required =>
    if s.required then .error (.duplicateOption token) else .ok { s with required := true }
  | .images => if s.images then .error (.duplicateOption token) else .ok { s with images := true }
  | .range r =>
    if s.range.isSome then .error (.duplicateOption token) else .ok { s with range := r }
  | .format f =>
    if s.formatting.allows f then .error (.duplicateOption token)
    else .ok { s with formatting := s.formatting.enable f }
  | .words values =>
    if s.words.isSome then .error (.duplicateOption token)
    else (limit token values).map fun n => { s with words := some n }
  | .characters values =>
    if s.characters.isSome then .error (.duplicateOption token)
    else (limit token values).map fun n => { s with characters := some n }
  | .tables values =>
    if s.tables.isSome then .error (.duplicateOption token)
    else (tableFormats {} values).map fun formats => { s with tables := some formats }
  | .choice text => .ok { s with choices := s.choices ++ [text] }

/-- Adds what an option says of a property of the kind. -/
def addToken (g : Grammar) (kind : Kind) (s : Supply) (token : String) :
    Except ParseError Supply := do
  match ← Clause.ofToken g kind token with
  | none => return s
  | some clause => s.add token clause

/-- What a list of options supplies. -/
def ofTokens (g : Grammar) (kind : Kind) (tokens : List String) : Except ParseError Supply :=
  tokens.foldlM (addToken g kind) {}

/-- The content of the kind under the identifier, with what has been supplied. -/
def content (g : Grammar) (identifier : String) (s : Supply) : Kind → Content
  | .type => .type identifier
  | .snippet => .snippet identifier
  | .linkedItems =>
    let ids := (Text.split g.arrayDelimiter identifier).map (Text.trim g.space)
    .linkedItems (ids.filter (· ≠ "")) (s.range.getD {})
  | .asset => .asset (if s.images then .images else .none) (s.range.getD {})
  | .text => .text s.words.join s.characters.join
  | .date => .date
  | .number => .number
  | .singleChoice => .singleChoice s.choices
  | .multipleChoice => .multipleChoice s.choices
  | .richText => .richText
    { words := s.words.join
      characters := s.characters.join
      formatting := s.formatting
      tables := s.tables.isSome
      tableFormatting := s.tables.getD {} }
  | .custom => .custom

@[simp] theorem kind_content (g : Grammar) (identifier : String) (s : Supply) (kind : Kind) :
    (s.content g identifier kind).kind = kind := by
  cases kind <;> rfl

end Supply

end ContentSchema
