import ContentSchema.Grammar.Json
import ContentSchema.Json.Reader
import ContentSchema.Mode
/-!
Configuration documents: a grammar and a mode, side by side in one JSON object.
-/
namespace ContentSchema

structure Config where
  mode : Mode
  grammar : Grammar
deriving DecidableEq

inductive ConfigError where
  /-- The text is no JSON, or a field has a value of a type it cannot have. -/
  | malformed
  | missingMode
  | grammar (e : GrammarError)
deriving DecidableEq

namespace ConfigError

def message : ConfigError → String
  | malformed => "invalid config document: a field has the wrong type or the text is no JSON object"
  | missingMode => "'mode' does not have a value"
  | grammar e => e.message

end ConfigError

/-- What a document says, before anything in it is checked. -/
structure ConfigDocument where
  mode : Option Mode
  grammar : GrammarDocument

namespace ConfigDocument

def ofJson? : Json → Option ConfigDocument
  | .object fields => do
    let mode ← (← Json.field? fields "mode").optional
      (Json.choice? (fun | .null => true | _ => false) Mode.ofName?)
    return { mode, grammar := ← GrammarDocument.ofFields? fields }
  | _ => none

/-- The mode is looked for before the grammar is checked. -/
def validate (d : ConfigDocument) : Except ConfigError Config :=
  match d.mode with
  | none => .error .missingMode
  | some mode => (d.grammar.validate.mapError .grammar).map fun grammar => { mode, grammar }

end ConfigDocument

namespace Config

def ofText (text : String) : Except ConfigError Config :=
  match (Json.parse? text).bind ConfigDocument.ofJson? with
  | some d => d.validate
  | none => .error .malformed

end Config

end ContentSchema
