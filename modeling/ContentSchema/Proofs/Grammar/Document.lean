import Mathlib.Data.List.Find
import Mathlib.Data.List.Nodup
import ContentSchema.Grammar.Document
import ContentSchema.Grammar.Standard
/-!
Which documents are grammars. Everything that can be wrong with a document is listed in the order in
which it is looked at (`GrammarDocument.faults`); the first fault is reported, and a document without
faults is the one that its grammar is written as (`GrammarDocument.validate_by_faults`).
-/
namespace ContentSchema

/-- The error, if the computation fails. -/
def error? {ε α : Type} : Except ε α → Option ε
  | .ok _ => none
  | .error e => some e

section

variable {ε α β : Type} {x : Except ε α} {f : α → Except ε β} {l l' : List ε} {e : ε}

theorem error?_eq_some_iff : error? x = some e ↔ x = .error e := by
  cases x <;> simp [error?]

theorem error?_eq_none_iff : error? x = none ↔ ∃ a, x = .ok a := by
  cases x <;> simp [error?]

/-- Where each of two steps fails with the first of its faults, they do so together. -/
theorem error?_bind (first : error? x = l.head?) (next : ∀ a, x = .ok a → error? (f a) = l'.head?) :
    error? (x.bind f) = (l ++ l').head? := by
  cases x with
  | error e =>
    rw [List.head?_append, ← first]
    rfl
  | ok a =>
    have none : l = [] := List.head?_eq_none_iff.mp first.symm
    rw [none, List.nil_append, ← next a rfl]
    rfl

end

namespace GrammarField

/-- Every field, in the order in which a document is asked for it. -/
def all : List GrammarField :=
  [comments, space, arrayDelimiter, optionsStart, optionsEnd, detailStart, detailEnd, moreOrLess,
    range, required, delimiter, snippetMark, table, bracketedFallback, bareFallback, snippetKind,
    typeStart, skip]

/-- The fields whose characters, or first characters, a grammar reserves. -/
def reserved : List GrammarField :=
  [space, arrayDelimiter, optionsStart, optionsEnd, detailStart, detailEnd, comments, snippetMark,
    delimiter]

/-- The fields that name kinds. -/
def roles : List GrammarField := [bracketedFallback, bareFallback, snippetKind, typeStart]

end GrammarField

namespace Markup

/-- What `validate` reports is the first thing that one of its checks finds. -/
theorem error?_validate (m : Markup) :
    error? m.validate =
      (((firstClash m.reserved).map fun (f, f', c) => .ambiguousMarkers f f' c).or
        (if m.moreOrLess = m.range then some (.ambiguousMarkers .moreOrLess .range m.range)
          else none)).or
      ((m.firstSkipped.map fun (f, c) => .skippedMarker f c).or
        (m.firstUndeclared.map fun (f, kind) => .missingKind f kind)) := by
  rw [validate]
  split
  · next found => simp [found, error?]
  · next unclashed =>
    split
    · next same => simp [unclashed, error?]
    · next other =>
      split
      · next found => simp [unclashed, found, error?]
      · next unskipped =>
        split
        · next found => simp [unclashed, unskipped, found, error?]
        · next declared => simp [unclashed, unskipped, declared, error?]

theorem validate_eq_ok_iff {m : Markup} {g : Grammar} : m.validate = .ok g ↔ m = g.toMarkup := by
  constructor
  · intro accepted
    rw [validate] at accepted
    split at accepted
    · contradiction
    · split at accepted
      · contradiction
      · split at accepted
        · contradiction
        · split at accepted
          · contradiction
          · rw [← Except.ok.inj accepted]
  · rintro rfl
    exact validate_toMarkup g

end Markup

namespace GrammarDocument

/-- Whether the document says something of the field. -/
def has (d : GrammarDocument) : GrammarField → Bool
  | .comments => d.comments.isSome
  | .space => d.space.isSome
  | .arrayDelimiter => d.arrayDelimiter.isSome
  | .optionsStart => d.optionsStart.isSome
  | .optionsEnd => d.optionsEnd.isSome
  | .detailStart => d.detailStart.isSome
  | .detailEnd => d.detailEnd.isSome
  | .moreOrLess => d.moreOrLess.isSome
  | .range => d.range.isSome
  | .required => d.required.isSome
  | .delimiter => d.delimiter.isSome
  | .snippetMark => d.snippetMark.isSome
  | .table => d.table.isSome
  | .bracketedFallback => d.bracketedFallback.isSome
  | .bareFallback => d.bareFallback.isSome
  | .snippetKind => d.snippetKind.isSome
  | .typeStart => d.typeStart.isSome
  | .skip => d.skip.isSome

/-- The character of a field, or the one that its mark begins with. -/
def char? (d : GrammarDocument) : GrammarField → Option Char
  | .comments => d.comments.bind (·.toList.head?)
  | .space => d.space
  | .arrayDelimiter => d.arrayDelimiter
  | .optionsStart => d.optionsStart
  | .optionsEnd => d.optionsEnd
  | .detailStart => d.detailStart
  | .detailEnd => d.detailEnd
  | .moreOrLess => d.moreOrLess
  | .range => d.range
  | .required => d.required
  | .delimiter => d.delimiter.bind (·.toList.head?)
  | .snippetMark => d.snippetMark.bind (·.toList.head?)
  | _ => none

/-- The kind that a field names. -/
def kind? (d : GrammarDocument) : GrammarField → Option String
  | .bracketedFallback => d.bracketedFallback
  | .bareFallback => d.bareFallback
  | .snippetKind => d.snippetKind
  | .typeStart => d.typeStart
  | _ => none

/-! What is wrong with a document -/

def missing (d : GrammarDocument) (fields : List GrammarField) : List GrammarError :=
  (fields.filter (!d.has ·)).map .missingField

def empties (d : GrammarDocument) (fields : List GrammarField) : List GrammarError :=
  (fields.filter (d.char? · = none)).map .emptyMarker

/-- That both fields have one character. -/
def clash? (d : GrammarDocument) (f f' : GrammarField) : Option GrammarError :=
  if d.char? f = d.char? f' then (d.char? f).map (.ambiguousMarkers f f') else none

/-- The clashes of each field with later ones. -/
def clashes (d : GrammarDocument) : List GrammarField → List GrammarError
  | [] => []
  | f :: fields => fields.filterMap (d.clash? f) ++ d.clashes fields

def skipped (d : GrammarDocument) (fields : List GrammarField) : List GrammarError :=
  (d.skip.getD "").toList.flatMap fun c =>
    (fields.filter (d.char? · = some c)).map (.skippedMarker · c)

def declares (d : GrammarDocument) (kind : String) : Bool :=
  (d.table.getD []).any (·.kind == kind)

def undeclared (d : GrammarDocument) (fields : List GrammarField) : List GrammarError :=
  fields.filterMap fun f =>
    ((d.kind? f).filter (!d.declares ·)).map (.missingKind f)

/-- Everything that is wrong with a document. -/
def faults (d : GrammarDocument) : List GrammarError :=
  d.missing GrammarField.all ++ d.empties GrammarField.reserved ++
    (d.clashes GrammarField.reserved ++ (d.clash? .moreOrLess .range).toList ++
      (d.skipped GrammarField.reserved ++ d.undeclared GrammarField.roles))

variable {d : GrammarDocument} {α β : Type}

/-! Reading the fields -/

theorem require_bind_eq_ok_iff {field : GrammarField} {o : Option α} {k : α → Except GrammarError β}
    {b : β} : (require field o >>= k) = .ok b ↔ ∃ a, o = some a ∧ k a = .ok b := by
  cases o <;> simp [require, bind, Except.bind]

theorem marker_bind_eq_ok_iff {field : GrammarField} {text : String}
    {k : Marker → Except GrammarError β} {b : β} :
    (marker field text >>= k) = .ok b ↔ ∃ m : Marker, text = m.text ∧ k m = .ok b := by
  simp only [← Marker.ofString?_eq_some_iff, marker]
  cases Marker.ofString? text <;> simp [bind, Except.bind]

/-- The parts are read exactly from the document that says them. -/
theorem markup_eq_ok_iff {m : Markup} : d.markup = .ok m ↔ d = ofMarkup m := by
  constructor
  · intro read
    obtain ⟨⟩ := d
    simp only [markup, require_bind_eq_ok_iff, marker_bind_eq_ok_iff, pure, Except.pure,
      Except.ok.injEq] at read
    obtain ⟨_, rfl, _, rfl, _, rfl, _, rfl, _, rfl, _, rfl, _, rfl, _, rfl, _, rfl, _, rfl, _, rfl,
      _, rfl, _, rfl, _, rfl, _, rfl, _, rfl, _, rfl, _, rfl, _, rfl, _, rfl, _, rfl, rfl⟩ := read
    simp [ofMarkup]
  · rintro rfl
    exact markup_ofMarkup m

/-- A field that has to be there is the first thing to be missing, or is passed over. -/
theorem error?_require_bind {field : GrammarField} {fields : List GrammarField} {o : Option α}
    {k : α → Except GrammarError β} {later : List GrammarError} (said : d.has field = o.isSome)
    (next : ∀ a, o = some a → error? (k a) = (d.missing fields ++ later).head?) :
    error? (require field o >>= k) = (d.missing (field :: fields) ++ later).head? := by
  cases o with
  | none => simp [missing, said, require, bind, Except.bind, error?]
  | some a =>
    have rest := next a rfl
    simpa [missing, said, require, bind, Except.bind] using rest

theorem error?_marker_bind {field : GrammarField} {fields : List GrammarField} {text : String}
    {k : Marker → Except GrammarError β} {later : List GrammarError}
    (begins : d.char? field = text.toList.head?)
    (next : ∀ m : Marker, text = m.text → error? (k m) = (d.empties fields ++ later).head?) :
    error? (marker field text >>= k) = (d.empties (field :: fields) ++ later).head? := by
  rw [marker]
  cases read : Marker.ofString? text with
  | none =>
    rw [Marker.ofString?_eq_none_iff.mp read] at begins
    simp [empties, begins, bind, Except.bind, error?]
  | some m =>
    have same := Marker.ofString?_eq_some_iff.mp read
    have rest := next m same
    rw [same, Marker.text, String.toList_ofList, Marker.toList, List.head?_cons] at begins
    simpa [empties, begins, bind, Except.bind] using rest

/-- The fields are asked for before any mark is looked at. -/
theorem error?_markup (d : GrammarDocument) :
    error? d.markup = (d.missing GrammarField.all ++ d.empties GrammarField.reserved).head? := by
  refine error?_require_bind rfl fun comments isComments => ?_
  refine error?_require_bind rfl fun space isSpace => ?_
  refine error?_require_bind rfl fun arrayDelimiter isArrayDelimiter => ?_
  refine error?_require_bind rfl fun optionsStart isOptionsStart => ?_
  refine error?_require_bind rfl fun optionsEnd isOptionsEnd => ?_
  refine error?_require_bind rfl fun detailStart isDetailStart => ?_
  refine error?_require_bind rfl fun detailEnd isDetailEnd => ?_
  refine error?_require_bind rfl fun moreOrLess _ => ?_
  refine error?_require_bind rfl fun range _ => ?_
  refine error?_require_bind rfl fun required _ => ?_
  refine error?_require_bind rfl fun delimiter isDelimiter => ?_
  refine error?_require_bind rfl fun snippetMark isSnippetMark => ?_
  refine error?_require_bind rfl fun table _ => ?_
  refine error?_require_bind rfl fun bracketedFallback _ => ?_
  refine error?_require_bind rfl fun bareFallback _ => ?_
  refine error?_require_bind rfl fun snippetKind _ => ?_
  refine error?_require_bind rfl fun typeStart _ => ?_
  refine error?_require_bind rfl fun skip _ => ?_
  -- Of the fields whose characters are reserved only those of marks can have no character.
  have marks : d.empties GrammarField.reserved =
      d.empties [.comments, .snippetMark, .delimiter] := by
    simp [empties, GrammarField.reserved, char?, isSpace, isArrayDelimiter, isOptionsStart,
      isOptionsEnd, isDetailStart, isDetailEnd]
  have asked : d.missing [] = [] := rfl
  rw [marks, asked, List.nil_append, ← List.append_nil (d.empties _)]
  refine error?_marker_bind (by rw [char?, isComments, Option.bind_some]) fun comment _ => ?_
  refine error?_marker_bind (by rw [char?, isSnippetMark, Option.bind_some]) fun snippet _ => ?_
  refine error?_marker_bind (by rw [char?, isDelimiter, Option.bind_some]) fun delimiter _ => ?_
  rfl

/-! Looking at the marks -/

/-- The first mark that clashes with an earlier one has the character of that one. -/
theorem findSome?_clash? {f : GrammarField} {c : Char} {marks : List (GrammarField × Char)}
    (here : d.char? f = some c) (known : ∀ mark ∈ marks, d.char? mark.1 = some mark.2) :
    marks.findSome? (fun mark => d.clash? f mark.1) =
      (marks.find? (·.2 == c)).map fun mark => .ambiguousMarkers f mark.1 c := by
  induction marks with
  | nil => rfl
  | cons mark marks ih =>
    rw [List.forall_mem_cons] at known
    rw [List.findSome?_cons, List.find?_cons, ih known.2, clash?, here, known.1]
    by_cases same : mark.2 = c
    · simp [same]
    · simp [beq_eq_false_iff_ne.mpr same, Ne.symm same]

theorem head?_clashes {marks : List (GrammarField × Char)}
    (known : ∀ mark ∈ marks, d.char? mark.1 = some mark.2) :
    (d.clashes (marks.map (·.1))).head? =
      (Markup.firstClash marks).map fun (f, f', c) => .ambiguousMarkers f f' c := by
  induction marks with
  | nil => rfl
  | cons mark marks ih =>
    rw [List.forall_mem_cons] at known
    have first : (marks.map (·.1)).findSome? (d.clash? mark.1) = _ :=
      List.findSome?_map.trans (findSome?_clash? known.1 known.2)
    rw [List.map_cons, clashes, List.head?_append, List.head?_filterMap, ih known.2, first,
      Markup.firstClash]
    cases marks.find? (·.2 == mark.2) <;> rfl

theorem head?_skipped {marks : List (GrammarField × Char)} {skip : String} (said : d.skip = some skip)
    (known : ∀ mark ∈ marks, d.char? mark.1 = some mark.2) :
    (d.skipped (marks.map (·.1))).head? =
      (skip.toList.findSome? fun c => marks.find? (·.2 == c)).map fun (f, c) =>
        .skippedMarker f c := by
  rw [skipped, said, Option.getD_some, List.head?_flatMap, List.map_findSome?]
  congr 1
  funext c
  have first : (marks.map (·.1)).find? (d.char? · = some c) = (marks.find? (·.2 == c)).map (·.1) := by
    rw [List.find?_map]
    congr 1
    apply List.find?_congr
    intro mark listed
    simp [known mark listed, Bool.beq_eq_decide_eq]
  rw [List.head?_map, List.head?_filter, first, Function.comp_apply, Option.map_map]
  cases found : marks.find? (·.2 == c) with
  | none => rfl
  | some mark =>
    have same : mark.2 = c := by simpa using List.find?_some found
    simp [same]

theorem head?_undeclared {roles : List (GrammarField × String)}
    (known : ∀ role ∈ roles, d.kind? role.1 = some role.2) :
    (d.undeclared (roles.map (·.1))).head? =
      (roles.find? (!d.declares ·.2)).map fun (f, kind) => .missingKind f kind := by
  rw [undeclared, List.head?_filterMap, List.findSome?_map]
  induction roles with
  | nil => rfl
  | cons role roles ih =>
    rw [List.forall_mem_cons] at known
    rw [List.findSome?_cons, List.find?_cons, ih known.2, Function.comp_apply, known.1]
    cases declared : d.declares role.2 <;> simp [Option.filter, declared]

/-- The marks are looked at in this order. -/
theorem error?_validate (m : Markup) :
    error? m.validate = ((ofMarkup m).clashes GrammarField.reserved ++
      ((ofMarkup m).clash? .moreOrLess .range).toList ++
        ((ofMarkup m).skipped GrammarField.reserved ++
          (ofMarkup m).undeclared GrammarField.roles)).head? := by
  have chars : ∀ mark ∈ m.reserved, (ofMarkup m).char? mark.1 = some mark.2 := by
    simp [Markup.reserved, char?, ofMarkup, Marker.text, Marker.toList]
  have kinds : ∀ role ∈ m.roles, (ofMarkup m).kind? role.1 = some role.2 := by
    simp [Markup.roles, kind?, ofMarkup]
  have clashes : ((ofMarkup m).clashes GrammarField.reserved).head? = _ := head?_clashes chars
  have clash : (ofMarkup m).clash? .moreOrLess .range =
      if m.moreOrLess = m.range then some (.ambiguousMarkers .moreOrLess .range m.range) else none := by
    by_cases same : m.moreOrLess = m.range <;> simp [clash?, char?, ofMarkup, same]
  have skipped : ((ofMarkup m).skipped GrammarField.reserved).head? = _ := head?_skipped rfl chars
  have undeclared : ((ofMarkup m).undeclared GrammarField.roles).head? = _ := head?_undeclared kinds
  rw [List.head?_append, List.head?_append, List.head?_append, Option.head?_toList, clashes, clash,
    skipped, undeclared, String.toList_ofList, Markup.error?_validate]
  rfl

theorem error?_eq_head?_faults (d : GrammarDocument) : error? d.validate = d.faults.head? := by
  apply error?_bind (error?_markup d)
  intro m read
  rw [markup_eq_ok_iff.mp read]
  exact error?_validate m

theorem validate_eq_ok_iff {g : Grammar} : d.validate = .ok g ↔ d = ofGrammar g := by
  constructor
  · intro accepted
    cases read : d.markup with
    | error e => simp [validate, read, Except.bind] at accepted
    | ok m =>
      rw [validate, read, Except.bind, Markup.validate_eq_ok_iff] at accepted
      rw [markup_eq_ok_iff.mp read, accepted, ofGrammar]
  · rintro rfl
    exact validate_ofGrammar g

/-- Every field is there, every mark has a character, and no character has two meanings. -/
structure IsWellFormed (d : GrammarDocument) : Prop where
  complete : ∀ f, d.has f
  marked : d.comments ≠ some "" ∧ d.snippetMark ≠ some "" ∧ d.delimiter ≠ some ""
  apart : (GrammarField.reserved.map d.char?).Nodup
  counts : d.moreOrLess ≠ d.range
  kept : ∀ skip, d.skip = some skip → ∀ c ∈ skip.toList, some c ∉ GrammarField.reserved.map d.char?
  declared : ∀ f ∈ GrammarField.roles, ∃ row ∈ d.table.getD [], d.kind? f = some row.kind

theorem isWellFormed_ofMarkup (m : Markup) : (ofMarkup m).IsWellFormed ↔
    m.reservedChars.Nodup ∧ m.moreOrLess ≠ m.range ∧ (∀ c ∈ m.skip, c ∉ m.reservedChars) ∧
      ∀ role ∈ m.roles, m.declares role.2 := by
  have chars : GrammarField.reserved.map (ofMarkup m).char? = m.reservedChars.map some := by
    simp [GrammarField.reserved, char?, ofMarkup, Markup.reservedChars, Markup.reserved, Marker.text,
      Marker.toList]
  have full (mark : Marker) : some mark.text ≠ some "" := by
    intro same
    have read := mark.ofString?_text
    rw [Option.some.inj same] at read
    contradiction
  have declares (kind : String) : (∃ row ∈ m.table, kind = row.kind) ↔ m.declares kind := by
    simp [Markup.declares, eq_comm (a := kind)]
  have kinds : (∀ f ∈ GrammarField.roles, ∃ row ∈ (ofMarkup m).table.getD [],
      (ofMarkup m).kind? f = some row.kind) ↔ ∀ role ∈ m.roles, m.declares role.2 := by
    simp [GrammarField.roles, kind?, ofMarkup, Markup.roles, declares]
  constructor
  · rintro ⟨-, -, apart, counts, kept, declared⟩
    rw [chars] at apart
    refine ⟨apart.of_map some, fun same => counts (congrArg some same), fun c member => ?_,
      kinds.mp declared⟩
    have unreserved := kept _ rfl c (by rwa [String.toList_ofList])
    simpa [chars] using unreserved
  · rintro ⟨apart, counts, kept, declared⟩
    constructor
    case complete => exact fun f => by cases f <;> rfl
    case marked => exact ⟨full m.comment, full m.snippetMark, full m.delimiter⟩
    case apart => exact chars ▸ apart.map fun _ _ => Option.some.inj
    case counts => exact fun same => counts (Option.some.inj same)
    case kept =>
      rintro _ ⟨⟩ c member
      rw [String.toList_ofList] at member
      simpa [chars] using kept c member
    case declared => exact kinds.mpr declared

/-- A document that says all fields, and of each mark more than nothing, has parts. -/
theorem exists_markup (complete : ∀ f, d.has f)
    (marked : d.comments ≠ some "" ∧ d.snippetMark ≠ some "" ∧ d.delimiter ≠ some "") :
    ∃ m, d = ofMarkup m := by
  have mark {o : Option String} (said : o.isSome) (full : o ≠ some "") :
      o.bind (·.toList.head?) ≠ none := by
    obtain ⟨text, rfl⟩ := Option.isSome_iff_exists.mp said
    simpa using full
  have char {o : Option Char} (said : o.isSome) : o ≠ none := Option.isSome_iff_ne_none.mp said
  have begins : ∀ f ∈ GrammarField.reserved, d.char? f ≠ none := by
    simp only [GrammarField.reserved, List.forall_mem_cons]
    exact ⟨char (complete .space), char (complete .arrayDelimiter), char (complete .optionsStart),
      char (complete .optionsEnd), char (complete .detailStart), char (complete .detailEnd),
      mark (complete .comments) marked.1, mark (complete .snippetMark) marked.2.1,
      mark (complete .delimiter) marked.2.2, List.forall_mem_nil _⟩
  have missing : d.missing GrammarField.all = [] := by simp [missing, complete]
  have empties : d.empties GrammarField.reserved = [] := by simpa [empties] using begins
  obtain ⟨m, read⟩ : ∃ m, d.markup = .ok m := by
    rw [← error?_eq_none_iff, error?_markup, missing, empties]
    rfl
  exact ⟨m, markup_eq_ok_iff.mp read⟩

theorem isWellFormed_iff : d.IsWellFormed ↔ ∃ g, d = ofGrammar g := by
  constructor
  · intro wellFormed
    obtain ⟨m, rfl⟩ := exists_markup wellFormed.complete wellFormed.marked
    obtain ⟨apart, counts, kept, declared⟩ := (isWellFormed_ofMarkup m).mp wellFormed
    exact ⟨⟨m, apart, counts, kept, declared⟩, rfl⟩
  · rintro ⟨g, rfl⟩
    exact (isWellFormed_ofMarkup g.toMarkup).mpr
      ⟨g.reserved_nodup, g.moreOrLess_ne_range, g.not_reserved_of_skip, g.roles_declared⟩

/-- A document is a grammar exactly if it is well-formed, and then it is what the grammar is written
as; otherwise the first of its faults is reported. -/
theorem validate_by_faults (d : GrammarDocument) :
    ((∃ g, d.validate = .ok g) ↔ d.IsWellFormed) ∧
    (∀ g, d.validate = .ok g ↔ d = ofGrammar g) ∧
    ∀ e, d.validate = .error e ↔ d.faults.head? = some e := by
  refine ⟨?_, fun g => validate_eq_ok_iff, fun e => ?_⟩
  · simp only [validate_eq_ok_iff, isWellFormed_iff]
  · rw [← error?_eq_head?_faults, error?_eq_some_iff]

example :
    faults { ofGrammar .standard with comments := some "", range := some '+', skip := some "\r [" } =
      [.emptyMarker .comments, .ambiguousMarkers .moreOrLess .range '+', .skippedMarker .space ' ',
        .skippedMarker .optionsStart '['] := by
  decide +kernel

end GrammarDocument
end ContentSchema
