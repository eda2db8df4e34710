import ContentSchema.Json.Decode
import ContentSchema.Schema
/-!
Schemas as JSON. A property is one object, in which the fields of its kind stand beside its label.
-/
namespace ContentSchema

namespace CountRange

def toJson (r : CountRange) : Json :=
  .object [("min", .option (.natural ·.toNat) r.min), ("max", .option (.natural ·.toNat) r.max)]

def ofJson? (v : Json) : Option CountRange := do
  let [min, max] ← v.record? ["min", "max"] | none
  return { min := ← min.optional Json.count?, max := ← max.optional Json.count? }

end CountRange

namespace AssetMode

def name : AssetMode → String
  | none => "none"
  | images => "images"

def ofName? (name : String) : Option AssetMode :=
  [none, images].find? (·.name == name)

def ofJson? : Json → Option AssetMode :=
  Json.choice? (fun | .null | .object [] => true | _ => false) ofName?

end AssetMode

namespace Formatting

def toJson (s : Formatting) : Json :=
  .object (Format.all.map fun f => (f.name, .bool (s.allows f)))

/-- The set of the formats whose flag is true. -/
def ofFlags (flags : List Bool) : Formatting :=
  ⟨fun f => ((Format.all.zip flags).find? (·.1 == f)).any (·.2)⟩

def ofJson? (v : Json) : Option Formatting := do
  let fields ← v.record? (Format.all.map Format.name)
  return ofFlags (← fields.mapM (·.required Json.bool?))

end Formatting

namespace RichText

def fieldNames : List String :=
  ["words", "characters", "formatting", "tables", "table_formatting", "component_type_ids",
    "is_component_parent"]

def toFields (r : RichText) : List (String × Json) :=
  [("words", .option (.natural ·.toNat) r.words),
    ("characters", .option (.natural ·.toNat) r.characters),
    ("formatting", r.formatting.toJson),
    ("tables", .bool r.tables),
    ("table_formatting", r.tableFormatting.toJson),
    ("component_type_ids", .strings r.components),
    ("is_component_parent", .bool r.isComponentParent)]

def ofFields? (fields : List (String × Json)) : Option RichText := do
  let [words, characters, formatting, tables, tableFormatting, components, isComponentParent] ←
    (Json.object fields).object? fieldNames | none
  return {
    words := ← words.optional Json.count?
    characters := ← characters.optional Json.count?
    formatting := ← formatting.required Formatting.ofJson?
    tables := ← tables.required Json.bool?
    tableFormatting := ← tableFormatting.required Formatting.ofJson?
    components := ← components.required (Json.list? Json.string?)
    isComponentParent := ← isComponentParent.required Json.bool? }

end RichText

namespace Kind

/-- A kind is given by its name or by its place among all kinds. -/
def ofJson? : Json → Option Kind
  | .string name => ofName? name
  | .natural n => all[n]?
  | _ => none

end Kind

namespace Content

/-- The fields of the content beside the kind. -/
def toFields : Content → List (String × Json)
  | type id => [("id", .string id)]
  | snippet id => [("id", .string id)]
  | linkedItems ids range => [("linked_type_ids", .strings ids), ("range", range.toJson)]
  | asset mode range => [("mode", .string mode.name), ("range", range.toJson)]
  | text words characters =>
    [("words", .option (.natural ·.toNat) words),
      ("characters", .option (.natural ·.toNat) characters)]
  | date => []
  | number => []
  | singleChoice options => [("options", .strings options)]
  | multipleChoice options => [("options", .strings options)]
  | richText r => r.toFields
  | custom => []

/-- The content of a kind, from the fields of the property. -/
def ofFields? (fields : List (String × Json)) : Kind → Option Content
  | .type => do return type (← (← Json.field? fields "id").required Json.string?)
  | .snippet => do return snippet (← (← Json.field? fields "id").required Json.string?)
  | .linkedItems => do
    let ids ← (← Json.field? fields "linked_type_ids").required (Json.list? Json.string?)
    let range ← (← Json.field? fields "range").required CountRange.ofJson?
    return linkedItems ids range
  | .asset => do
    let mode ← (← Json.field? fields "mode").required AssetMode.ofJson?
    let range ← (← Json.field? fields "range").required CountRange.ofJson?
    return asset mode range
  | .text => do
    let words ← (← Json.field? fields "words").optional Json.count?
    let characters ← (← Json.field? fields "characters").optional Json.count?
    return text words characters
  | .date => some date
  | .number => some number
  | .singleChoice => do
    return singleChoice
      (← (← Json.field? fields "options").required (Json.list? Json.string?))
  | .multipleChoice => do
    return multipleChoice
      (← (← Json.field? fields "options").required (Json.list? Json.string?))
  | .richText => richText <$> RichText.ofFields? fields
  | .custom => some custom

end Content

namespace Property

def toJson (p : Property) : Json :=
  .object (("label", .string p.label) :: ("required", .bool p.required) ::
    ("kind", .string p.kind.name) :: p.content.toFields)

def ofJson? : Json → Option Property
  | .object fields => do
    let label ← (← Json.field? fields "label").required Json.string?
    let required ← (← Json.field? fields "required").required Json.bool?
    let kind ← (← Json.field? fields "kind").required Kind.ofJson?
    let content ← Content.ofFields? fields kind
    return { label, required, content }
  | _ => none

end Property

namespace IdSet

def toJson (s : IdSet) : Json := .strings s.toList

def ofJson? (v : Json) : Option IdSet := ofList <$> v.list? Json.string?

end IdSet

namespace ContentType

def toJson (t : ContentType) : Json :=
  .object [("id", .string t.id), ("label", .string t.label),
    ("properties", .array (t.properties.map (·.toJson))),
    ("linked_type_ids", t.links.toJson), ("snippet_type_ids", t.snippets.toJson)]

def ofJson? (v : Json) : Option ContentType := do
  let [id, label, properties, links, snippets] ←
    v.record? ["id", "label", "properties", "linked_type_ids", "snippet_type_ids"] | none
  return {
    id := ← id.required Json.string?
    label := ← label.required Json.string?
    properties := ← properties.required (Json.list? Property.ofJson?)
    links := ← links.required IdSet.ofJson?
    snippets := ← snippets.required IdSet.ofJson? }

end ContentType

namespace ChainStats

def toJson (s : ChainStats) : Json :=
  .object [("total_types", .natural s.total), ("chains", .strings s.chains),
    ("closed_chains", .strings s.closedChains),
    ("max_chain_depth", .option .natural s.maxDepth)]

def ofJson? (v : Json) : Option ChainStats := do
  let [total, chains, closedChains, maxDepth] ←
    v.record? ["total_types", "chains", "closed_chains", "max_chain_depth"] | none
  return {
    total := ← total.required Json.size?
    chains := ← chains.required (Json.list? Json.string?)
    closedChains := ← closedChains.required (Json.list? Json.string?)
    maxDepth := ← maxDepth.optional Json.size? }

end ChainStats

namespace Schema

def toJson (s : Schema) : Json :=
  .object [("types", .array (s.types.map (·.toJson))),
    ("snippet_types", .array (s.snippetTypes.map (·.toJson))), ("stats", s.stats.toJson)]

def ofJson? (v : Json) : Option Schema := do
  let [types, snippetTypes, stats] ← v.record? ["types", "snippet_types", "stats"] | none
  return {
    types := ← types.required (Json.list? ContentType.ofJson?)
    snippetTypes := ← snippetTypes.required (Json.list? ContentType.ofJson?)
    stats := ← stats.required ChainStats.ofJson? }

end Schema

end ContentSchema
