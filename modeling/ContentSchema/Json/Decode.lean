import ContentSchema.Decimal
import ContentSchema.Json.Basic
/-!
Reading domain values from JSON. Nothing is converted: a value has exactly the type that is asked
for, and a field is there once. Fields that nobody asks for are passed over.
-/
namespace ContentSchema.Json

def bool? : Json → Option Bool
  | bool b => some b
  | _ => none

def string? : Json → Option String
  | string s => some s
  | _ => none

/-- A text of one character. -/
def char? : Json → Option Char
  | string s =>
    match s.toList with
    | [c] => some c
    | _ => none
  | _ => none

def count? : Json → Option UInt32
  | natural n => Decimal.toCount? n
  | _ => none

/-- A natural number of at most 64 bits. -/
def size? : Json → Option Nat
  | natural n => if n < UInt64.size then some n else none
  | _ => none

def list? {α : Type} (decode : Json → Option α) : Json → Option (List α)
  | array items => items.mapM decode
  | _ => none

/-- A field of a value: none where it is not there. -/
abbrev Field := Option Json

namespace Field

def required {α : Type} (decode : Json → Option α) (field : Field) : Option α :=
  field.bind decode

/-- A field that may be missing or null. -/
def optional {α : Type} (decode : Json → Option α) : Field → Option (Option α)
  | none => some none
  | some null => some none
  | some v => (decode v).map some

end Field

/-- The value of a field; there is no answer where the name comes twice. -/
def field? (fields : List (String × Json)) (name : String) : Option Field :=
  match fields.filter (·.1 == name) with
  | [] => some none
  | [(_, v)] => some (some v)
  | _ => none

/-- The named fields of an object. -/
def object? (names : List String) : Json → Option (List Field)
  | object fields => names.mapM (field? fields)
  | _ => none

/-- The named fields of an object, or of an array that lists their values in this order. -/
def record? (names : List String) : Json → Option (List Field)
  | array items => if items.length = names.length then some (items.map some) else none
  | v => object? names v

/-- One of some named values: its name, or an object of one field of that name which holds nothing
more. -/
def choice? {α : Type} (isEmpty : Json → Bool) (ofName? : String → Option α) : Json → Option α
  | string s => ofName? s
  | object [(s, v)] => if isEmpty v then ofName? s else none
  | _ => none

end ContentSchema.Json
