import ContentSchema.Grammar.Document
import ContentSchema.Json.Decode
/-!
Grammar documents as JSON.
-/
namespace ContentSchema

namespace TableRow

def toJson (r : TableRow) : Json :=
  .object [("identifier", .option .string r.identifier), ("kind", .string r.kind)]

def ofJson? (v : Json) : Option TableRow := do
  let [identifier, kind] ← v.record? ["identifier", "kind"] | none
  return { identifier := ← identifier.optional Json.string?, kind := ← kind.required Json.string? }

end TableRow

namespace GrammarDocument

/-- A character as a text. -/
def charJson (c : Char) : Json := .string c.toString

def toJson (d : GrammarDocument) : Json :=
  .object [
    (GrammarField.comments.name, .option .string d.comments),
    (GrammarField.space.name, .option charJson d.space),
    (GrammarField.arrayDelimiter.name, .option charJson d.arrayDelimiter),
    (GrammarField.optionsStart.name, .option charJson d.optionsStart),
    (GrammarField.optionsEnd.name, .option charJson d.optionsEnd),
    (GrammarField.detailStart.name, .option charJson d.detailStart),
    (GrammarField.detailEnd.name, .option charJson d.detailEnd),
    (GrammarField.moreOrLess.name, .option charJson d.moreOrLess),
    (GrammarField.range.name, .option charJson d.range),
    (GrammarField.required.name, .option charJson d.required),
    (GrammarField.delimiter.name, .option .string d.delimiter),
    (GrammarField.snippetMark.name, .option .string d.snippetMark),
    (GrammarField.table.name, .option (.array <| ·.map (·.toJson)) d.table),
    (GrammarField.bracketedFallback.name, .option .string d.bracketedFallback),
    (GrammarField.bareFallback.name, .option .string d.bareFallback),
    (GrammarField.snippetKind.name, .option .string d.snippetKind),
    (GrammarField.typeStart.name, .option .string d.typeStart),
    (GrammarField.skip.name, .option .string d.skip)]

/-- What the fields of an object say, where each has the type it must have. -/
def ofFields? (fields : List (String × Json)) : Option GrammarDocument := do
  let get {α : Type} (field : GrammarField) (decode : Json → Option α) : Option (Option α) := do
    (← Json.field? fields field.name).optional decode
  return {
    comments := ← get .comments Json.string?
    space := ← get .space Json.char?
    arrayDelimiter := ← get .arrayDelimiter Json.char?
    optionsStart := ← get .optionsStart Json.char?
    optionsEnd := ← get .optionsEnd Json.char?
    detailStart := ← get .detailStart Json.char?
    detailEnd := ← get .detailEnd Json.char?
    moreOrLess := ← get .moreOrLess Json.char?
    range := ← get .range Json.char?
    required := ← get .required Json.char?
    delimiter := ← get .delimiter Json.string?
    snippetMark := ← get .snippetMark Json.string?
    table := ← get .table (Json.list? TableRow.ofJson?)
    bracketedFallback := ← get .bracketedFallback Json.string?
    bareFallback := ← get .bareFallback Json.string?
    snippetKind := ← get .snippetKind Json.string?
    typeStart := ← get .typeStart Json.string?
    skip := ← get .skip Json.string? }

end GrammarDocument

end ContentSchema
