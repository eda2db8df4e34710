import ContentSchema.Token.Detail
import Mathlib.Data.List.TakeWhile
/-!
An option is a detail exactly if it has the form of one (`Detail.ofToken_eq_some_iff`). Written details
are read back, as long as their names and values are phrases: texts without any character that the
grammar reserves, but for spaces inside.
-/
namespace ContentSchema

namespace Text

variable {sp : Char} {s : String}

theorem trimEnd_eq_self (last : s.toList.getLast? ≠ some sp) : trimEnd sp s = s := by
  apply String.toList_inj.mp
  rw [toList_trimEnd]
  cases ends : s.toList.reverse with
  | nil => simpa using ends.symm
  | cons c rest =>
    have other : ¬ c = sp := by
      intro same
      rw [← List.head?_reverse, ends] at last
      exact last (congrArg some same)
    rw [List.dropWhile_cons_of_neg (by simpa using other), ← ends, List.reverse_reverse]

theorem trim_eq_self (first : s.toList.head? ≠ some sp) (last : s.toList.getLast? ≠ some sp) :
    trim sp s = s := by
  have unchanged : s.toList.dropWhile (· == sp) = s.toList := by
    cases begins : s.toList with
    | nil => rfl
    | cons c rest =>
      have other : ¬ c = sp := by
        intro same
        rw [begins] at first
        exact first (congrArg some same)
      rw [List.dropWhile_cons_of_neg (by simpa using other)]
  rw [trim, unchanged, String.ofList_toList, trimEnd_eq_self last]

theorem mem_intercalate_of_mem {α : Type} {sep c : α} {l : List α} {ls : List (List α)}
    (listed : l ∈ ls) (member : c ∈ l) : c ∈ [sep].intercalate ls := by
  induction ls with
  | nil => contradiction
  | cons first ls ih =>
    cases ls with
    | nil => simpa [List.mem_singleton.mp listed] using member
    | cons second ls =>
      rw [List.intercalate_cons_cons, List.mem_append, List.mem_append]
      obtain rfl | later := List.mem_cons.mp listed
      · exact .inl (.inl member)
      · exact .inr (ih later)

theorem mem_intercalate {α : Type} {sep c : α} {ls : List (List α)}
    (member : c ∈ [sep].intercalate ls) : c = sep ∨ ∃ l ∈ ls, c ∈ l := by
  induction ls with
  | nil => simp at member
  | cons l ls ih =>
    cases ls with
    | nil => exact .inr ⟨l, by simp, by simpa using member⟩
    | cons m ls =>
      rw [List.intercalate_cons_cons, List.mem_append, List.mem_append, List.mem_singleton] at member
      obtain (first | same) | later := member
      · exact .inr ⟨l, List.mem_cons_self, first⟩
      · exact .inl same
      · exact (ih later).imp_right fun ⟨x, inside, found⟩ => ⟨x, List.mem_cons_of_mem l inside, found⟩

end Text

/-- Goes through the list alone, and not through all characters. -/
instance decidableForallMem (cs : List Char) (p : Char → Prop) [DecidablePred p] :
    Decidable (∀ c ∈ cs, p c) :=
  List.decidableBAll p cs

/-- A character that is neither skipped nor taken for a mark. -/
def Grammar.IsPlain (g : Grammar) (c : Char) : Prop := ¬ g.isReserved c ∧ c ∉ g.skip

instance (g : Grammar) (c : Char) : Decidable (g.IsPlain c) :=
  inferInstanceAs (Decidable (_ ∧ _))

/-- A text that has no part of a line in it. -/
structure Grammar.IsWord (g : Grammar) (word : String) : Prop where
  nonempty : word ≠ ""
  plain : ∀ c ∈ word.toList, g.IsPlain c

/-- A text that has no part of a line in it but spaces, and these not at its ends. -/
structure Grammar.IsPhrase (g : Grammar) (phrase : String) : Prop where
  nonempty : phrase ≠ ""
  first : phrase.toList.head? ≠ some g.space
  last : phrase.toList.getLast? ≠ some g.space
  plain : ∀ c ∈ phrase.toList, c = g.space ∨ ¬ g.isReserved c
  kept : ∀ c ∈ phrase.toList, c ∉ g.skip

namespace Grammar

variable {g : Grammar} {word phrase : String}

theorem IsWord.ne_nil (isWord : g.IsWord word) : word.toList ≠ [] :=
  fun empty => isWord.nonempty (String.toList_inj.mp empty)

theorem IsWord.isPhrase (isWord : g.IsWord word) : g.IsPhrase word := by
  have absent : g.space ∉ word.toList := by
    intro member
    have plain := (isWord.plain _ member).1
    simp [Grammar.isReserved] at plain
  constructor
  case nonempty => exact isWord.nonempty
  case first => exact fun first => absent (List.mem_of_head? first)
  case last => exact fun last => absent (List.mem_of_getLast? last)
  case plain => exact fun c member => .inr (isWord.plain c member).1
  case kept => exact fun c member => (isWord.plain c member).2

namespace IsPhrase

theorem ne_nil (isPhrase : g.IsPhrase phrase) : phrase.toList ≠ [] :=
  fun empty => isPhrase.nonempty (String.toList_inj.mp empty)

theorem trimmed (isPhrase : g.IsPhrase phrase) : Text.trim g.space phrase = phrase :=
  Text.trim_eq_self isPhrase.first isPhrase.last

theorem not_structural (isPhrase : g.IsPhrase phrase) :
    ∀ c ∈ phrase.toList, ¬ g.isStructural c := by
  intro c member structural
  have apart := g.apart
  obtain rfl | plain := isPhrase.plain c member
  · grind [Grammar.isStructural]
  · simp [Grammar.isReserved, structural] at plain

theorem not_bracket (isPhrase : g.IsPhrase phrase) :
    ∀ c ∈ phrase.toList, ¬ Detail.isBracket g c := by
  intro c member bracket
  apply isPhrase.not_structural c member
  simp only [Detail.isBracket, Bool.or_eq_true] at bracket
  obtain start | finish := bracket
  · simp [Grammar.isStructural, start]
  · simp [Grammar.isStructural, finish]

theorem ne_delimiter (isPhrase : g.IsPhrase phrase) : ∀ c ∈ phrase.toList, c ≠ g.arrayDelimiter := by
  intro c member same
  apply isPhrase.not_structural c member
  simp [Grammar.isStructural, same]

end IsPhrase

end Grammar

namespace Detail

variable {g : Grammar} {back value rest : List Char}

@[simp] theorem isBracket_start (g : Grammar) : isBracket g g.detailStart := by
  simp [isBracket]

@[simp] theorem isBracket_end (g : Grammar) : isBracket g g.detailEnd := by
  simp [isBracket]

theorem not_bracket_of_mem_takeWhile {cs : List Char} :
    ∀ c ∈ cs.takeWhile (!isBracket g ·), ¬ isBracket g c := by
  intro c member
  simpa using List.mem_takeWhile_imp member

/-- A text up to its first bracket, and the text from there on. -/
theorem cut_at_bracket {before : List Char} {x : Char} (plain : ∀ c ∈ before, ¬ isBracket g c)
    (bracket : isBracket g x) (after : List Char) :
    (before ++ x :: after).takeWhile (!isBracket g ·) = before ∧
      (before ++ x :: after).dropWhile (!isBracket g ·) = x :: after := by
  have passed : ∀ c ∈ before, !isBracket g c := by simpa using plain
  rw [List.takeWhile_append_of_pos passed, List.dropWhile_append_of_pos passed]
  simp [bracket]

theorem readValues_append {cs : List Char} (plain : ∀ c ∈ cs, ¬ isBracket g c)
    (inside : ∀ c ∈ cs, c ≠ g.arrayDelimiter) :
    readValues g back value (cs ++ rest) = readValues g back (value ++ cs) rest := by
  induction cs generalizing value with
  | nil => rw [List.append_nil, List.nil_append]
  | cons c cs ih =>
    rw [List.forall_mem_cons] at plain inside
    rw [List.cons_append, readValues, if_neg inside.1, if_neg plain.1, ih plain.2 inside.2,
      List.append_assoc, List.singleton_append]

theorem readValues_delimiter (full : value ≠ []) :
    readValues g back value (g.arrayDelimiter :: rest) =
      (value :: (readValues g (g.arrayDelimiter :: rest) [] rest).1,
        (readValues g (g.arrayDelimiter :: rest) [] rest).2) := by
  rw [readValues, if_pos rfl, if_neg full]

theorem readValues_end (g : Grammar) (back value rest : List Char) :
    readValues g back value (g.detailEnd :: rest) =
      if value = [] then ([], back) else ([value], g.detailEnd :: rest) := by
  have other : g.detailEnd ≠ g.arrayDelimiter := g.apart.2.1.2.2.2.1.symm
  rw [readValues, if_neg other, if_pos (isBracket_end g)]

/-- A value of a detail holds no mark that could end it. -/
def IsValue (g : Grammar) (v : List Char) : Prop :=
  v ≠ [] ∧ ∀ c ∈ v, ¬ isBracket g c ∧ c ≠ g.arrayDelimiter

theorem readValues_intercalate {values : List (List Char)} (nonempty : values ≠ [])
    (valued : ∀ v ∈ values, IsValue g v) :
    readValues g back [] ([g.arrayDelimiter].intercalate values ++ g.detailEnd :: rest) =
      (values, g.detailEnd :: rest) := by
  induction values generalizing back with
  | nil => contradiction
  | cons v values ih =>
    rw [List.forall_mem_cons] at valued
    obtain ⟨⟨full, plain⟩, valued⟩ := valued
    have gather (rest : List Char) : readValues g back [] (v ++ rest) = readValues g back v rest :=
      readValues_append (fun c member => (plain c member).1) fun c member => (plain c member).2
    cases values with
    | nil => simp [gather, readValues_end, full]
    | cons w values =>
      have remains : w :: values ≠ [] := List.cons_ne_nil w values
      rw [List.intercalate_cons_of_ne_nil remains, List.append_assoc, List.append_assoc, gather,
        List.singleton_append, readValues_delimiter full, ih remains valued]

/-- The parts of a detail, and the text that they make. -/
structure Parts (g : Grammar) (cs name : List Char) (values : List (List Char)) : Prop where
  text : cs = name ++ g.detailStart :: ([g.arrayDelimiter].intercalate values ++ [g.detailEnd])
  named : name ≠ [] ∧ ∀ c ∈ name, ¬ isBracket g c
  valued : ∀ v ∈ values, IsValue g v

theorem read_of_parts {cs name : List Char} {values : List (List Char)}
    (parts : Parts g cs name values) : read g cs = .ok (name, values) := by
  obtain ⟨rfl, ⟨nonempty, named⟩, valued⟩ := parts
  have body : readValues g ([g.arrayDelimiter].intercalate values ++ [g.detailEnd]) []
      ([g.arrayDelimiter].intercalate values ++ [g.detailEnd]) = (values, [g.detailEnd]) := by
    by_cases empty : values = []
    · simp [empty, readValues_end]
    · exact readValues_intercalate empty valued
  obtain ⟨before, behind⟩ := cut_at_bracket named (isBracket_start g)
    ([g.arrayDelimiter].intercalate values ++ [g.detailEnd])
  rw [read, before, behind]
  simp [nonempty, body]

theorem toList_token (g : Grammar) (d : Detail) :
    (token g d).toList = d.name.toList ++ g.detailStart ::
      ([g.arrayDelimiter].intercalate (d.values.map String.toList) ++ [g.detailEnd]) := by
  simp [token, Text.toList_join]

theorem isValue_of_isPhrase {v : String} (phrase : g.IsPhrase v) : IsValue g v.toList :=
  ⟨phrase.ne_nil, fun c member => ⟨phrase.not_bracket c member, phrase.ne_delimiter c member⟩⟩

/-! What has been read -/

theorem mem_readValues {cs v : List Char} {c : Char} (listed : v ∈ (readValues g back value cs).1)
    (member : c ∈ v) : c ∈ value ∨ c ∈ cs ∧ ¬ isBracket g c ∧ c ≠ g.arrayDelimiter := by
  induction cs generalizing back value with
  | nil =>
    rw [readValues] at listed
    split at listed
    · contradiction
    · exact .inl (List.mem_singleton.mp listed ▸ member)
  | cons x cs ih =>
    rw [readValues] at listed
    split at listed
    · split at listed
      · contradiction
      · obtain rfl | later := List.mem_cons.mp listed
        · exact .inl member
        · right
          obtain none | ⟨inside, plain⟩ := ih later
          · contradiction
          · exact ⟨List.mem_cons_of_mem x inside, plain⟩
    · next other =>
      split at listed
      · split at listed
        · contradiction
        · exact .inl (List.mem_singleton.mp listed ▸ member)
      · next plain =>
        obtain before | ⟨inside, apart⟩ := ih listed
        · obtain before | last := List.mem_append.mp before
          · exact .inl before
          · rw [List.mem_singleton.mp last]
            exact .inr ⟨List.mem_cons_self, plain, other⟩
        · exact .inr ⟨List.mem_cons_of_mem x inside, apart⟩

/-- What has been taken of a text whose front is the beginning of a value: the values and the rest
make it up, or there is no value, and the text goes on at `back`. -/
def Taken (g : Grammar) (back value cs : List Char) : List (List Char) × List Char → Prop
  | ([], rest) => value = [] ∧ rest = back
  | (v :: values, rest) => (∀ w ∈ v :: values, w ≠ []) ∧
      value ++ cs = [g.arrayDelimiter].intercalate (v :: values) ++ rest

theorem taken_readValues (g : Grammar) (back value cs : List Char) :
    Taken g back value cs (readValues g back value cs) := by
  induction cs generalizing back value with
  | nil =>
    rw [readValues]
    by_cases empty : value = [] <;> simp [Taken, empty]
  | cons c cs ih =>
    rw [readValues]
    by_cases delimiter : c = g.arrayDelimiter
    · rw [if_pos delimiter]
      by_cases empty : value = []
      · simp [Taken, empty]
      · have later := ih (c :: cs) []
        rw [if_neg empty]
        cases taken : readValues g (c :: cs) [] cs with
        | mk more rest =>
          rw [taken] at later
          cases more with
          | nil => simp [Taken, empty, later.2]
          | cons w more =>
            obtain ⟨full, text⟩ := later
            rw [List.nil_append] at text
            refine ⟨List.forall_mem_cons.mpr ⟨empty, full⟩, ?_⟩
            rw [List.intercalate_cons_cons, List.append_assoc, ← text, delimiter]
            simp
    · rw [if_neg delimiter]
      by_cases bracket : isBracket g c
      · rw [if_pos bracket]
        by_cases empty : value = [] <;> simp [Taken, empty]
      · rw [if_neg bracket]
        have later := ih back (value ++ [c])
        cases taken : readValues g back (value ++ [c]) cs with
        | mk values rest =>
          rw [taken] at later
          cases values with
          | nil => simp [Taken] at later
          | cons v values =>
            rw [Taken, List.append_assoc] at later
            exact later

/-- The values that have been read stand at the front of the text, and its rest behind them. -/
theorem of_readValues {values : List (List Char)} {body : List Char}
    (read : readValues g body [] body = (values, rest)) :
    body = [g.arrayDelimiter].intercalate values ++ rest ∧ ∀ v ∈ values, IsValue g v := by
  have taken : Taken g body [] body (values, rest) := read ▸ taken_readValues g body [] body
  obtain ⟨text, full⟩ : body = [g.arrayDelimiter].intercalate values ++ rest ∧
      ∀ v ∈ values, v ≠ [] := by
    cases values with
    | nil => exact ⟨taken.2.symm, List.forall_mem_nil _⟩
    | cons v values => exact ⟨taken.2, taken.1⟩
  refine ⟨text, fun v listed => ⟨full v listed, fun c member => ?_⟩⟩
  have listed : v ∈ (readValues g body [] body).1 := by rw [read]; exact listed
  exact ((mem_readValues listed member).resolve_left List.not_mem_nil).2

/-- What has been read in full is a name, and behind the start of details its values up to their
end. -/
theorem of_read {cs name : List Char} {values : List (List Char)}
    (parsed : read g cs = .ok (name, values)) :
    ∃ body, cs = name ++ g.detailStart :: body ∧ (name ≠ [] ∧ ∀ c ∈ name, ¬ isBracket g c) ∧
      readValues g body [] body = (values, [g.detailEnd]) := by
  have text : cs.takeWhile (!isBracket g ·) ++ cs.dropWhile (!isBracket g ·) = cs :=
    List.takeWhile_append_dropWhile
  rw [read] at parsed
  split at parsed
  · contradiction
  next nonempty =>
  split at parsed
  · contradiction
  next start body opened =>
  split at parsed
  · contradiction
  next opens =>
  cases taken : readValues g body [] body with
  | mk values' rest =>
    simp only [taken] at parsed
    split at parsed
    · contradiction
    next finish tail =>
    split at parsed
    · contradiction
    next closes =>
    split at parsed
    next last =>
      cases parsed
      rw [Decidable.not_not.mp opens] at opened
      rw [Decidable.not_not.mp closes, last] at taken
      exact ⟨body, by rw [← opened, text], ⟨nonempty, not_bracket_of_mem_takeWhile⟩, taken⟩
    · contradiction

theorem read_eq_ok_iff {cs name : List Char} {values : List (List Char)} :
    read g cs = .ok (name, values) ↔ Parts g cs name values := by
  refine ⟨fun parsed => ?_, read_of_parts⟩
  obtain ⟨body, text, named, taken⟩ := of_read parsed
  obtain ⟨joined, valued⟩ := of_readValues taken
  exact ⟨by rw [text, joined], named, valued⟩

/-- The option is the detail, up to spaces around its parts. -/
def Spells (g : Grammar) (token : String) (d : Detail) : Prop :=
  ∃ name values, Parts g token.toList name values ∧
    d = { name := Text.trim g.space (.ofList name)
          values := values.map fun v => Text.trim g.space (.ofList v) }

theorem Parts.opened {cs name : List Char} {values : List (List Char)}
    (parts : Parts g cs name values) : g.detailStart ∈ cs := by
  rw [parts.text]
  exact List.mem_append_right name List.mem_cons_self

theorem ofToken_eq_some_iff {token : String} {d : Detail} :
    ofToken g token = .ok (some d) ↔ Spells g token d := by
  constructor
  · intro known
    by_cases opened : g.detailStart ∉ token.toList
    · rw [ofToken, if_pos opened, Except.ok.injEq] at known
      contradiction
    · rw [ofToken, if_neg opened] at known
      cases parsed : read g token.toList with
      | error rest =>
        rw [parsed] at known
        contradiction
      | ok parts =>
        rw [parsed, Except.ok.injEq, Option.some.injEq] at known
        exact ⟨parts.1, parts.2, read_eq_ok_iff.mp parsed, known.symm⟩
  · rintro ⟨name, values, parts, rfl⟩
    rw [ofToken, if_neg (fun absent => absent parts.opened), read_of_parts parts]

theorem ofToken_eq_none_iff {token : String} :
    ofToken g token = .ok none ↔ g.detailStart ∉ token.toList := by
  rw [ofToken]
  by_cases opened : g.detailStart ∈ token.toList
  · rw [if_neg (fun absent => absent opened)]
    cases read g token.toList <;> simp [opened]
  · simp [opened]

/-- An option that opens a detail is refused unless it is one. -/
theorem exists_error_iff {token : String} : (∃ e, ofToken g token = .error e) ↔
    g.detailStart ∈ token.toList ∧ ∀ d, ¬ Spells g token d := by
  simp only [← ofToken_eq_some_iff]
  rw [ofToken]
  by_cases opened : g.detailStart ∈ token.toList
  · rw [if_neg (fun absent => absent opened)]
    cases read g token.toList <;> simp [opened]
  · simp [opened]

theorem ofToken_token {d : Detail} (name : g.IsPhrase d.name)
    (values : ∀ v ∈ d.values, g.IsPhrase v) :
    ofToken g (token g d) = .ok (some d) := by
  have parts : Parts g (token g d).toList d.name.toList (d.values.map String.toList) := by
    constructor
    case text => exact toList_token g d
    case named => exact ⟨name.ne_nil, name.not_bracket⟩
    case valued => exact List.forall_mem_map.mpr fun v member => isValue_of_isPhrase (values v member)
  have trimmed : (d.values.map String.toList).map (fun v => Text.trim g.space (.ofList v)) =
      d.values := by
    rw [List.map_map, List.map_congr_left, List.map_id]
    intro v member
    simp only [Function.comp_apply, String.ofList_toList, id_eq, (values v member).trimmed]
  refine ofToken_eq_some_iff.mpr ⟨_, _, parts, ?_⟩
  simp only [trimmed, String.ofList_toList, name.trimmed]

/-- The name of a detail stands before all brackets, and its values between delimiters. -/
theorem of_ofToken {token : String} {d : Detail} (known : ofToken g token = .ok (some d)) :
    ∃ (name : List Char) (values : List (List Char)),
      d = { name := Text.trim g.space (.ofList name)
            values := values.map fun v => Text.trim g.space (.ofList v) } ∧
      name = token.toList.takeWhile (!isBracket g ·) ∧
      ∀ v ∈ values, ∀ c ∈ v, c ∈ token.toList ∧ ¬ isBracket g c ∧ c ≠ g.arrayDelimiter := by
  obtain ⟨name, values, parts, rfl⟩ := ofToken_eq_some_iff.mp known
  refine ⟨name, values, rfl, ?_, fun v listed c member => ⟨?_, (parts.valued v listed).2 c member⟩⟩
  · rw [parts.text, (cut_at_bracket parts.named.2 (isBracket_start g) _).1]
  · rw [parts.text]
    refine List.mem_append_right name (List.mem_cons_of_mem _ (List.mem_append_left _ ?_))
    exact Text.mem_intercalate_of_mem listed member

end Detail

end ContentSchema
