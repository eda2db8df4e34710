import Mathlib
import ContentSchema.Command.Report
import ContentSchema.Proofs.Json.Reader
import ContentSchema.Schema.Json
/-!
The JSON form of a schema loses nothing (`Schema.json_lossless`). Each type of values has a law of its
own, that decoding undoes encoding (`ofJson?_toJson`), and another one that the encoded value can be
printed and read (`fits_toJson`).
-/
namespace ContentSchema

namespace Json

theorem list?_array {α : Type} {decode : Json → Option α} {encode : α → Json}
    (back : ∀ a, decode (encode a) = some a) (as : List α) :
    list? decode (array (as.map encode)) = some as := by
  rw [list?]
  induction as with
  | nil => rfl
  | cons a as ih => simp [back, ih]

@[simp] theorem list?_strings (ss : List String) : list? string? (strings ss) = some ss := by
  have back : ∀ s, string? (string s) = some s := fun _ => rfl
  exact list?_array back ss

/-- Where all fields have names of their own, each is found under its name. -/
theorem field?_eq_lookup {fields : List (String × Json)} (distinct : (fields.map (·.1)).Nodup)
    (name : String) : field? fields name = some (fields.lookup name) := by
  induction fields with
  | nil => rfl
  | cons field fields ih =>
    rw [List.map_cons, List.nodup_cons] at distinct
    obtain ⟨s, v⟩ := field
    by_cases same : s = name
    · have absent : fields.filter (·.1 == name) = [] := by
        rw [List.filter_eq_nil_iff]
        intro other member again
        rw [beq_iff_eq, ← same] at again
        exact distinct.1 (List.mem_map.mpr ⟨other, member, again⟩)
      simp [field?, same, absent, List.lookup]
    · have passed := ih distinct.2
      rw [field?] at passed ⊢
      rw [List.filter_cons_of_neg (by simpa using same), passed, List.lookup_cons,
        beq_eq_false_iff_ne.mpr (Ne.symm same)]

theorem object?_eq_lookup {fields : List (String × Json)} (distinct : (fields.map (·.1)).Nodup)
    (names : List String) : object? names (object fields) = some (names.map (List.lookup · fields)) := by
  rw [object?]
  induction names with
  | nil => rfl
  | cons name names ih => simp [field?_eq_lookup distinct, ih]

theorem optional_option {α : Type} {decode : Json → Option α} {encode : α → Json}
    (back : ∀ a, decode (encode a) = some a) (present : ∀ a, encode a ≠ null) (o : Option α) :
    Field.optional decode (some (option encode o)) = some o := by
  cases o with
  | none => rfl
  | some a =>
    have other := present a
    simp only [option]
    unfold Field.optional
    split
    · contradiction
    · next same => exact absurd (Option.some.inj same) other
    · next same =>
      rw [← Option.some.inj same, back]
      rfl

@[simp] theorem optional_count (n : Option UInt32) :
    Field.optional count? (some (option (.natural ·.toNat) n)) = some n := by
  have back : ∀ n : UInt32, count? (natural n.toNat) = some n := by simp [count?]
  exact optional_option back nofun n

variable {n : Nat}

theorem fits_strings (n : Nat) (ss : List String) : Fits (n + 1) (strings ss) := by
  refine .array fun v member => ?_
  obtain ⟨s, -, rfl⟩ := List.mem_map.mp member
  exact .string s

theorem fits_option {α : Type} {encode : α → Json} {o : Option α}
    (fits : ∀ a ∈ o, Fits n (encode a)) : Fits n (option encode o) := by
  cases o with
  | none => exact .null
  | some a => exact fits a rfl

theorem fits_count (n : Nat) (o : Option UInt32) : Fits n (option (.natural ·.toNat) o) :=
  fits_option fun a _ => .natural (Nat.lt_trans a.toNat_lt_size (by decide))

end Json

open Json (Fits fits_strings fits_count fits_option)

namespace CountRange

@[simp] theorem ofJson?_toJson (r : CountRange) : ofJson? r.toJson = some r := by
  simp [ofJson?, toJson, Json.record?, Json.object?, Json.field?]

theorem fits_toJson (n : Nat) (r : CountRange) : Fits (n + 1) r.toJson := by
  refine .object ?_
  simp [fits_count]

end CountRange

namespace AssetMode

@[simp] theorem ofJson?_name (mode : AssetMode) : ofJson? (.string mode.name) = some mode := by
  cases mode <;> decide

end AssetMode

namespace Formatting

@[simp] theorem ofJson?_toJson (s : Formatting) : ofJson? s.toJson = some s := by
  have read : ofJson? s.toJson = some (ofFlags (Format.all.map s.allows)) := by
    simp [ofJson?, toJson, Json.record?, Json.object?, Json.field?, Format.all, Format.name,
      Json.Field.required, Json.bool?]
  rw [read, Option.some.injEq]
  ext f
  cases f <;> rfl

theorem fits_toJson (n : Nat) (s : Formatting) : Fits (n + 1) s.toJson := by
  refine .object fun field member => ?_
  obtain ⟨f, -, rfl⟩ := List.mem_map.mp member
  exact .bool _

end Formatting

namespace Kind

@[simp] theorem ofJson?_name (k : Kind) : ofJson? (.string k.name) = some k := ofName?_name k

end Kind

namespace Property

/-- The fields of the object that a property becomes. -/
def toFields (p : Property) : List (String × Json) :=
  ("label", .string p.label) :: ("required", .bool p.required) :: ("kind", .string p.kind.name) ::
    p.content.toFields

theorem toJson_eq (p : Property) : p.toJson = .object p.toFields := rfl

/-- No field of a content has the name of another one, or of a field that all properties have. -/
theorem nodup_toFields (p : Property) : (p.toFields.map (·.1)).Nodup := by
  obtain ⟨label, required, content⟩ := p
  cases content <;> simp [toFields, Content.toFields, RichText.toFields]

theorem lookup_kind (p : Property) : p.toFields.lookup "kind" = some (.string p.kind.name) := rfl

@[simp] theorem ofJson?_toJson (p : Property) : ofJson? p.toJson = some p := by
  rw [toJson_eq, ofJson?]
  simp only [Content.ofFields?, RichText.ofFields?, Json.field?_eq_lookup p.nodup_toFields,
    Json.object?_eq_lookup p.nodup_toFields]
  obtain ⟨label, required, content⟩ := p
  cases content <;>
    simp [toFields, kind, Content.kind, Content.toFields, RichText.toFields, RichText.fieldNames,
      List.lookup, Json.Field.required, Json.string?, Json.bool?]

theorem fits_toJson (n : Nat) (p : Property) : Fits (n + 2) p.toJson := by
  have content : ∀ field ∈ p.content.toFields, Fits (n + 1) field.2 := by
    cases p.content <;>
      simp [Content.toFields, RichText.toFields, fits_strings, fits_count, CountRange.fits_toJson,
        Formatting.fits_toJson, Fits.string, Fits.bool]
  refine .object ?_
  simp only [List.forall_mem_cons]
  exact ⟨.string _, .bool _, .string _, content⟩

end Property

namespace IdSet

@[simp] theorem ofJson?_toJson (s : IdSet) : ofJson? s.toJson = some s := by
  simp [ofJson?, toJson, ofList_toList]

end IdSet

namespace ContentType

@[simp] theorem ofJson?_toJson (t : ContentType) : ofJson? t.toJson = some t := by
  simp [ofJson?, toJson, Json.record?, Json.object?, Json.field?, Json.Field.required, Json.string?,
    Json.list?_array Property.ofJson?_toJson]

theorem fits_toJson (n : Nat) (t : ContentType) : Fits (n + 4) t.toJson := by
  have properties : Fits (n + 3) (.array (t.properties.map (·.toJson))) := by
    refine .array fun v member => ?_
    obtain ⟨p, -, rfl⟩ := List.mem_map.mp member
    exact p.fits_toJson n
  refine .object ?_
  simp only [List.forall_mem_cons]
  exact ⟨.string _, .string _, properties, fits_strings _ _, fits_strings _ _, nofun⟩

end ContentType

namespace ChainStats

/-- The counts have at most 64 bits. -/
structure Small (s : ChainStats) : Prop where
  total : s.total < UInt64.size
  maxDepth : ∀ n ∈ s.maxDepth, n < UInt64.size

variable {s : ChainStats}

theorem ofJson?_toJson (small : s.Small) : ofJson? s.toJson = some s := by
  have depth : Json.Field.optional Json.size? (some (.option .natural s.maxDepth)) =
      some s.maxDepth := by
    cases deepest : s.maxDepth with
    | none => rfl
    | some n => simp [Json.option, Json.Field.optional, Json.size?, small.maxDepth n deepest]
  simp [ofJson?, toJson, Json.record?, Json.object?, Json.field?, Json.Field.required, Json.size?,
    small.total, depth]

theorem fits_toJson (small : s.Small) (n : Nat) : Fits (n + 2) s.toJson := by
  refine .object ?_
  simp only [List.forall_mem_cons]
  exact ⟨.natural small.total, fits_strings _ _, fits_strings _ _,
    fits_option fun k deepest => .natural (small.maxDepth k deepest), nofun⟩

end ChainStats

namespace Schema

variable {s : Schema}

theorem ofJson?_toJson (small : s.stats.Small) : ofJson? s.toJson = some s := by
  simp [ofJson?, toJson, Json.record?, Json.object?, Json.field?, Json.Field.required,
    Json.list?_array ContentType.ofJson?_toJson, ChainStats.ofJson?_toJson small]

theorem fits_toJson (small : s.stats.Small) (n : Nat) : Fits (n + 6) s.toJson := by
  have types (ts : List ContentType) : Fits (n + 5) (.array (ts.map (·.toJson))) := by
    refine .array fun v member => ?_
    obtain ⟨t, -, rfl⟩ := List.mem_map.mp member
    exact t.fits_toJson n
  refine .object ?_
  simp only [List.forall_mem_cons]
  exact ⟨types _, types _, ChainStats.fits_toJson small (n + 3), nofun⟩

/-- The JSON text of a schema gives the schema back, with or without the end of its line. A property is
one object in which no two fields have one name, and whose tag belongs to no other kind. -/
theorem json_lossless (small : s.stats.Small) :
    (Json.parse? s.toJson.print).bind ofJson? = some s ∧
      (Json.parse? (Command.lines [s.toJson.print])).bind ofJson? = some s ∧
      ∀ p : Property, p.toJson = .object p.toFields ∧ (p.toFields.map (·.1)).Nodup ∧
        (∀ k : Kind, p.toFields.lookup "kind" = some (.string k.name) ↔ p.kind = k) ∧
        ∀ q : Property, p.toJson = q.toJson ↔ p = q := by
  have fits : Fits Json.Reader.maxDepth s.toJson := fits_toJson small 121
  have line : Command.lines [s.toJson.print] = s.toJson.print ++ "\n" := by
    apply String.toList_inj.mp
    simp [Command.lines]
  refine ⟨?_, ?_, fun p => ⟨p.toJson_eq, p.nodup_toFields, fun k => ?_, fun q => ?_⟩⟩
  · rw [Json.parse?_print fits]
    exact ofJson?_toJson small
  · rw [line, Json.parse?_print_append fits (List.all_eq_true.mp (by decide))]
    exact ofJson?_toJson small
  · simp [p.lookup_kind, Kind.name_inj]
  · refine ⟨fun same => ?_, fun same => same ▸ rfl⟩
    have read := p.ofJson?_toJson
    rw [same, q.ofJson?_toJson] at read
    exact (Option.some.inj read).symm

/-- A schema with the largest numbers that it may hold, texts that have to be escaped, an empty id, and
two kinds whose fields have the same names. -/
def extreme : Schema :=
  let limits : RichText :=
    { words := some 0xffffffff, characters := none, tables := true
      tableFormatting := .enable .images {}, components := ["", "\""] }
  { types := [
      { id := "", label := "a\\ \"b\"\n\x1f é"
        properties := [
          { label := "words", required := true, content := .text none (some 0) },
          { label := "kind", required := false, content := .richText limits },
          { label := "", required := true, content := .asset .none { max := some 7 } }]
        links := .ofList ["", "\""] }]
    stats := { total := 0xffffffffffffffff, chains := [""], maxDepth := some 0xffffffffffffffff } }

theorem json_lossless_extreme : extreme.stats.Small ∧
    (Json.parse? extreme.toJson.print).bind ofJson? = some extreme ∧
    (Json.parse? (Command.lines [extreme.toJson.print])).bind ofJson? = some extreme := by
  have small : extreme.stats.Small := ⟨by decide, by decide⟩
  obtain ⟨text, line, -⟩ := json_lossless small
  exact ⟨small, text, line⟩

end Schema

end ContentSchema
