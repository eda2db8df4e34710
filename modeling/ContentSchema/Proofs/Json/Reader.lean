import ContentSchema.Json.Reader
import ContentSchema.Proofs.Json.Token
/-!
Printed values are read back (`parse?_print`), as long as their numbers have at most 64 bits and they
are not nested more deeply than a reader follows.
-/
namespace ContentSchema.Json

/-- The value can be printed and read again inside all but `n` of the containers that may be open. -/
inductive Fits : Nat → Json → Prop where
  | null {n : Nat} : Fits n null
  | bool {n : Nat} (b : Bool) : Fits n (bool b)
  | natural {n k : Nat} : k < UInt64.size → Fits n (natural k)
  | string {n : Nat} (s : String) : Fits n (string s)
  | array {n : Nat} {items : List Json} : (∀ v ∈ items, Fits n v) → Fits (n + 1) (array items)
  | object {n : Nat} {fields : List (String × Json)} : (∀ field ∈ fields, Fits n field.2) →
      Fits (n + 1) (object fields)

namespace Reader

variable {n : Nat} {v : Json} {ts us : List Token}

/-- The tokens tell the value wherever a value may stand. The end of an array would tell that there is
none. -/
def Tells (n : Nat) (ts : List Token) (v : Json) : Prop :=
  ∃ t more, ts = t :: more ∧ t ≠ .arrayEnd ∧ ∀ stack : List Frame, stack.length + n ≤ maxDepth →
    (start stack t).bind (more.foldlM step) = some (rest stack v)

theorem tells_atom (n : Nat) (v : Json) : Tells n [.atom v] v :=
  ⟨.atom v, [], rfl, nofun, fun _ _ => rfl⟩

theorem tells_string (n : Nat) (s : String) : Tells n [.string s] (.string s) :=
  ⟨.string s, [], rfl, nofun, fun _ _ => rfl⟩

theorem tells_empty : Tells (n + 1) [.arrayStart, .arrayEnd] (.array []) ∧
    Tells (n + 1) [.objectStart, .objectEnd] (.object []) := by
  constructor
  · refine ⟨.arrayStart, _, rfl, nofun, fun stack deep => ?_⟩
    rw [start, if_pos (by omega)]
    rfl
  · refine ⟨.objectStart, _, rfl, nofun, fun stack deep => ?_⟩
    rw [start, if_pos (by omega)]
    rfl

theorem foldlM_of_start {t : Token} {more : List Token} {r : Reader} {stack : List Frame}
    (told : (start stack t).bind (more.foldlM step) = some (rest stack v))
    (starts : step r t = start stack t) :
    (t :: more ++ us).foldlM step r = us.foldlM step (rest stack v) := by
  have read : (t :: more).foldlM step r = some (rest stack v) := by
    rw [List.foldlM_cons, starts]
    exact told
  rw [List.foldlM_append, read]
  rfl

theorem Tells.value (tells : Tells n ts v) (stack : List Frame)
    (deep : stack.length + n ≤ maxDepth) :
    (ts ++ us).foldlM step (value stack) = us.foldlM step (rest stack v) := by
  obtain ⟨t, more, rfl, -, told⟩ := tells
  exact foldlM_of_start (told stack deep) rfl

theorem Tells.item (tells : Tells n ts v) (stack : List Frame)
    (deep : stack.length + 1 + n ≤ maxDepth) :
    (ts ++ us).foldlM step (item stack) = us.foldlM step (rest (.array [] :: stack) v) := by
  obtain ⟨t, more, rfl, other, told⟩ := tells
  refine foldlM_of_start (told (.array [] :: stack) deep) ?_
  cases t <;> first | rfl | contradiction

/-- The tokens go on with these items behind an item, and end the array. -/
def TellsItems (n : Nat) (ts : List Token) (items : List Json) : Prop :=
  ∀ (stack : List Frame) (before : List Json) (v : Json), stack.length + 1 + n ≤ maxDepth →
    (ts ++ [Token.arrayEnd]).foldlM step (rest (.array before :: stack) v) =
      some (rest stack (.array (before.reverse ++ v :: items)))

theorem tellsItems_nil (n : Nat) : TellsItems n [] [] := by
  intro stack before v deep
  simp [step]

theorem TellsItems.cons {w : Json} {items : List Json} (others : TellsItems n us items)
    (first : Tells n ts w) : TellsItems n (.comma :: (ts ++ us)) (w :: items) := by
  intro stack before v deep
  rw [List.cons_append, List.foldlM_cons, step, Option.bind_eq_bind, Option.bind_some,
    List.append_assoc, first.value (.array (v :: before) :: stack) deep,
    others stack (v :: before) w deep]
  simp

theorem tells_array {items : List Json} (first : Tells n ts v) (others : TellsItems n us items) :
    Tells (n + 1) (.arrayStart :: (ts ++ us ++ [.arrayEnd])) (.array (v :: items)) := by
  refine ⟨.arrayStart, _, rfl, nofun, fun stack deep => ?_⟩
  have shallow : stack.length < maxDepth := by omega
  have inner : stack.length + 1 + n ≤ maxDepth := by omega
  rw [start, if_pos shallow, Option.bind_some, List.append_assoc, first.item stack inner,
    others stack [] v inner]
  rfl

/-- The tokens go on with these fields behind a field, and end the object. -/
def TellsFields (n : Nat) (ts : List Token) (fields : List (String × Json)) : Prop :=
  ∀ (stack : List Frame) (before : List (String × Json)) (s : String) (v : Json),
    stack.length + 1 + n ≤ maxDepth →
    (ts ++ [Token.objectEnd]).foldlM step (rest (.object before s :: stack) v) =
      some (rest stack (.object (before.reverse ++ (s, v) :: fields)))

theorem tellsFields_nil (n : Nat) : TellsFields n [] [] := by
  intro stack before s v deep
  simp [step]

theorem TellsFields.cons {s : String} {w : Json} {fields : List (String × Json)}
    (others : TellsFields n us fields) (first : Tells n ts w) :
    TellsFields n (.comma :: .string s :: .colon :: (ts ++ us)) ((s, w) :: fields) := by
  intro stack before s' v deep
  simp only [List.cons_append, List.foldlM_cons, step, Option.bind_eq_bind, Option.bind_some,
    List.append_assoc]
  rw [first.value (.object ((s', v) :: before) s :: stack) deep,
    others stack ((s', v) :: before) s w deep]
  simp

theorem tells_object {s : String} {fields : List (String × Json)} (first : Tells n ts v)
    (others : TellsFields n us fields) :
    Tells (n + 1) (.objectStart :: .string s :: .colon :: (ts ++ us ++ [.objectEnd]))
      (.object ((s, v) :: fields)) := by
  refine ⟨.objectStart, _, rfl, nofun, fun stack deep => ?_⟩
  have shallow : stack.length < maxDepth := by omega
  have inner : stack.length + 1 + n ≤ maxDepth := by omega
  rw [start, if_pos shallow, Option.bind_some]
  simp only [List.foldlM_cons, step, Option.bind_eq_bind, Option.bind_some, List.append_assoc]
  rw [first.value (.object [] s :: stack) inner, others stack [] s v inner]
  rfl

end Reader

open Lexer Reader

variable {n : Nat} {v : Json}

/-- The text has tokens that tell the value. -/
def Readable (n : Nat) (text : String) (v : Json) : Prop :=
  ∃ ts, Spells text.toList ts ∧ Tells n ts v

theorem parse?_of_readable {text : String} (readable : Readable maxDepth text v) :
    parse? text = some v := by
  obtain ⟨ts, spelled, tells⟩ := readable
  have read : (ts ++ []).foldlM step (.value []) = some (rest [] v) :=
    tells.value [] (Nat.le_of_eq (Nat.zero_add maxDepth))
  rw [List.append_nil] at read
  rw [parse?, tokens?_of_spells spelled, Option.bind_eq_bind, Option.bind_some, read]
  rfl

/-- Blanks may stand behind a value. -/
theorem Readable.append_blanks {text blanks : String} (readable : Readable n text v)
    (blank : ∀ c ∈ blanks.toList, isBlank c) : Readable n (text ++ blanks) v := by
  obtain ⟨ts, spelled, tells⟩ := readable
  refine ⟨ts, ?_, tells⟩
  have apart : ∀ c, blanks.toList.head? = some c → isAtomChar c = false :=
    fun c first => isAtomChar_of_isBlank (blank c (List.mem_of_head? first))
  have whole := spelled.append (settles_blanks blank).spells apart
  rwa [List.append_nil, ← String.toList_append] at whole

/-! Containers -/

theorem head?_printItems {depth : Nat} {items : List Json} {c : Char}
    (first : (printItems depth items).toList.head? = some c) : isAtomChar c = false := by
  cases items with
  | nil => contradiction
  | cons w items =>
    have comma : c = ',' := by simpa [printItems] using first.symm
    rw [comma]
    rfl

theorem head?_printFields {depth : Nat} {fields : List (String × Json)} {c : Char}
    (first : (printFields depth fields).toList.head? = some c) : isAtomChar c = false := by
  cases fields with
  | nil => contradiction
  | cons field fields =>
    have comma : c = ',' := by simpa [printFields] using first.symm
    rw [comma]
    rfl

/-- The end of a container, on a line of its own. -/
theorem spells_ending {c : Char} {t : Token} (mark : Token.mark? c = some t) (depth : Nat) :
    Spells ((newline depth).toList ++ [c]) [t] ∧
      ∀ d, ((newline depth).toList ++ [c]).head? = some d → isAtomChar d = false := by
  refine ⟨((settles_newline depth).append (settles_mark mark)).spells, fun d first => ?_⟩
  have line : d = '\n' := by simpa [newline] using first.symm
  rw [line]
  rfl

theorem exists_items (depth : Nat) {items : List Json}
    (readable : ∀ w ∈ items, Readable n (printAt depth w) w) :
    ∃ ts, Spells (printItems depth items).toList ts ∧ TellsItems n ts items := by
  induction items with
  | nil => exact ⟨[], settles_nil.spells, tellsItems_nil n⟩
  | cons w items ih =>
    rw [List.forall_mem_cons] at readable
    obtain ⟨ts, spelled, tells⟩ := readable.1
    obtain ⟨us, others, tellsItems⟩ := ih readable.2
    refine ⟨.comma :: (ts ++ us), ?_, tellsItems.cons tells⟩
    have comma : Settles ([','] ++ (newline depth).toList) [.comma] :=
      (settles_mark rfl).append (settles_newline depth)
    have whole := comma.append_spells (spelled.append others fun _ => head?_printItems)
    simpa [printItems] using whole

theorem exists_fields (depth : Nat) {fields : List (String × Json)}
    (readable : ∀ field ∈ fields, Readable n (printAt depth field.2) field.2) :
    ∃ ts, Spells (printFields depth fields).toList ts ∧ TellsFields n ts fields := by
  induction fields with
  | nil => exact ⟨[], settles_nil.spells, tellsFields_nil n⟩
  | cons field fields ih =>
    obtain ⟨name, w⟩ := field
    rw [List.forall_mem_cons] at readable
    obtain ⟨ts, spelled, tells⟩ := readable.1
    obtain ⟨us, others, tellsFields⟩ := ih readable.2
    refine ⟨.comma :: .string name :: .colon :: (ts ++ us), ?_, tellsFields.cons tells⟩
    have comma : Settles ([','] ++ (newline depth).toList) [.comma] :=
      (settles_mark rfl).append (settles_newline depth)
    have named := (comma.append (settles_quote name)).append settles_colon
    have whole := named.append_spells (spelled.append others fun _ => head?_printFields)
    simpa [printFields] using whole

theorem readable_array (depth : Nat) {items : List Json}
    (readable : ∀ w ∈ items, Readable n (printAt (depth + 1) w) w) :
    Readable (n + 1) (printAt depth (.array items)) (.array items) := by
  cases items with
  | nil =>
    have brackets : Settles ['[', ']'] [.arrayStart, .arrayEnd] :=
      (settles_mark rfl).append (settles_mark rfl)
    refine ⟨[.arrayStart, .arrayEnd], ?_, tells_empty.1⟩
    simpa [printAt] using brackets.spells
  | cons v items =>
    rw [List.forall_mem_cons] at readable
    obtain ⟨ts, spelled, tells⟩ := readable.1
    obtain ⟨us, others, tellsItems⟩ := exists_items (depth + 1) readable.2
    refine ⟨_, ?_, tells_array tells tellsItems⟩
    have opened : Settles (['['] ++ (newline (depth + 1)).toList) [.arrayStart] :=
      (settles_mark rfl).append (settles_newline _)
    obtain ⟨closed, apart⟩ := spells_ending (c := ']') (t := .arrayEnd) rfl depth
    have inner := (spelled.append others fun _ => head?_printItems).append closed apart
    simpa [printAt] using opened.append_spells inner

theorem readable_object (depth : Nat) {fields : List (String × Json)}
    (readable : ∀ field ∈ fields, Readable n (printAt (depth + 1) field.2) field.2) :
    Readable (n + 1) (printAt depth (.object fields)) (.object fields) := by
  cases fields with
  | nil =>
    have brackets : Settles ['\x7b', '\x7d'] [.objectStart, .objectEnd] :=
      (settles_mark rfl).append (settles_mark rfl)
    refine ⟨[.objectStart, .objectEnd], ?_, tells_empty.2⟩
    simpa [printAt] using brackets.spells
  | cons field fields =>
    obtain ⟨name, v⟩ := field
    rw [List.forall_mem_cons] at readable
    obtain ⟨ts, spelled, tells⟩ := readable.1
    obtain ⟨us, others, tellsFields⟩ := exists_fields (depth + 1) readable.2
    refine ⟨_, ?_, tells_object tells tellsFields⟩
    have opened : Settles (['\x7b'] ++ (newline (depth + 1)).toList) [.objectStart] :=
      (settles_mark rfl).append (settles_newline _)
    have named := (opened.append (settles_quote name)).append settles_colon
    obtain ⟨closed, apart⟩ := spells_ending (c := '\x7d') (t := .objectEnd) rfl depth
    have inner := (spelled.append others fun _ => head?_printFields).append closed apart
    simpa [printAt] using named.append_spells inner

/-- What is printed of a value tells it, however deep it stands. -/
theorem readable_printAt (fits : Fits n v) (depth : Nat) : Readable n (printAt depth v) v := by
  induction fits generalizing depth with
  | null => exact ⟨_, spells_null, tells_atom _ _⟩
  | bool b => exact ⟨_, spells_bool b, tells_atom _ _⟩
  | natural small => exact ⟨_, spells_natural small, tells_atom _ _⟩
  | string s => exact ⟨_, (settles_quote s).spells, tells_string _ s⟩
  | array _ ih => exact readable_array depth fun w member => ih w member (depth + 1)
  | object _ ih => exact readable_object depth fun field member => ih field member (depth + 1)

theorem parse?_print (fits : Fits maxDepth v) : parse? (print v) = some v :=
  parse?_of_readable (readable_printAt fits 0)

theorem parse?_print_append {blanks : String} (fits : Fits maxDepth v)
    (blank : ∀ c ∈ blanks.toList, isBlank c) : parse? (print v ++ blanks) = some v :=
  parse?_of_readable ((readable_printAt fits 0).append_blanks blank)

end ContentSchema.Json
