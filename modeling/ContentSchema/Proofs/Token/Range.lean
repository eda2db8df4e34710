import Mathlib.Data.List.Basic
import Mathlib.Data.List.Induction
import ContentSchema.Grammar.Standard
import ContentSchema.Token.Range
/-!
As long as the marks of ranges are no digits, an option is a range exactly if it spells one, and
written ranges are read back (`CountRange.ofToken_by_spelling`). They are written with nothing but the
digits and the mark of a text that they have been read from (`CountRange.drawnFrom_token`).
-/
namespace ContentSchema

/-- Counts end where the marks of a range stand. -/
structure Grammar.CountsEnd (g : Grammar) : Prop where
  moreOrLess : ¬ g.moreOrLess.isDigit
  range : ¬ g.range.isDigit

namespace Decimal

theorem toList_ofCount (n : UInt32) : (ofCount n).toList = Nat.toDigits 10 n.toNat := by
  rw [ofCount, Nat.repr_eq_ofList_toDigits, String.toList_ofList]

theorem isDigit_of_mem_ofCount {n : UInt32} {c : Char} (member : c ∈ (ofCount n).toList) :
    c.isDigit := by
  rw [toList_ofCount] at member
  exact Nat.isDigit_of_mem_toDigits (by decide) (by decide) member

theorem ofCount_ne_nil (n : UInt32) : (ofCount n).toList ≠ [] := by
  rw [toList_ofCount]
  exact Nat.toDigits_ne_nil

theorem isDigit_of_head? {n : UInt32} {c : Char} (rest : List Char)
    (first : ((ofCount n).toList ++ rest).head? = some c) : c.isDigit := by
  rw [List.head?_append_of_ne_nil _ (ofCount_ne_nil n)] at first
  exact isDigit_of_mem_ofCount (List.mem_of_head? first)

theorem isDigit_of_getLast? {n : UInt32} {c : Char} (rest : List Char)
    (last : (rest ++ (ofCount n).toList).getLast? = some c) : c.isDigit := by
  rw [List.getLast?_append_of_ne_nil _ (ofCount_ne_nil n)] at last
  exact isDigit_of_mem_ofCount (List.mem_of_getLast? last)

theorem digitChar_toNat {c : Char} (digit : c.isDigit) :
    c.toNat - '0'.toNat < 10 ∧ Nat.digitChar (c.toNat - '0'.toNat) = c := by
  have bounds : 48 ≤ c.toNat ∧ c.toNat ≤ 57 := Char.isDigit_iff_toNat.mp digit
  have below : c.toNat - 48 < 10 := by omega
  refine ⟨below, Char.toNat_inj.mp ?_⟩
  exact (Nat.toNat_digitChar_of_lt_ten below).trans (Nat.add_sub_cancel' bounds.1)

/-- A numeral has no digits but those of any run of digits with its value. -/
theorem mem_of_mem_toDigits {cs : List Char} (digits : ∀ c ∈ cs, c.isDigit) (nonempty : cs ≠ []) :
    ∀ c ∈ Nat.toDigits 10 (Nat.ofDigitChars 10 cs 0), c ∈ cs := by
  induction cs using List.reverseRecOn with
  | nil => contradiction
  | append_singleton cs x ih =>
    rw [List.forall_mem_append, List.forall_mem_singleton] at digits
    obtain ⟨below, same⟩ := digitChar_toNat digits.2
    have last : Nat.toDigits 10 (x.toNat - '0'.toNat) = [x] := by
      rw [Nat.toDigits_of_lt_base below, same]
    intro c member
    rw [Nat.ofDigitChars_append, Nat.ofDigitChars_cons, Nat.ofDigitChars_nil] at member
    by_cases zero : Nat.ofDigitChars 10 cs 0 = 0
    · rw [zero, Nat.mul_zero, Nat.zero_add, last] at member
      exact List.mem_append_right cs member
    · have more : cs ≠ [] := by
        rintro rfl
        exact zero rfl
      rw [← Nat.toDigits_append_toDigits (by decide) (Nat.pos_of_ne_zero zero) below, last,
        List.mem_append] at member
      exact List.mem_append.mpr (member.imp_left (ih digits.1 more c))

/-- The digits of a count, perhaps behind zeros. -/
def IsNumeral (cs : List Char) (n : UInt32) : Prop := (read? cs).bind toCount? = some n

/-- A run of digits whose value is the count, and so not beyond its 32 bits. -/
structure HasValue (cs : List Char) (n : UInt32) : Prop where
  nonempty : cs ≠ []
  digits : ∀ c ∈ cs, c.isDigit
  value : Nat.ofDigitChars 10 cs 0 = n.toNat

theorem isNumeral_iff {cs : List Char} {n : UInt32} : IsNumeral cs n ↔ HasValue cs n := by
  constructor
  · intro isNumeral
    obtain ⟨value, read, counted⟩ := Option.bind_eq_some_iff.mp isNumeral
    obtain ⟨⟨nonempty, digits⟩, same⟩ := Option.ite_none_right_eq_some.mp read
    obtain ⟨small, same'⟩ := Option.dite_none_right_eq_some.mp counted
    refine ⟨nonempty, List.all_eq_true.mp digits, ?_⟩
    rw [← Option.some.inj same', Option.some.inj same, UInt32.toNat_ofNatLT]
  · rintro ⟨nonempty, digits, value⟩
    have read : read? cs = some n.toNat := by
      rw [read?, if_pos ⟨nonempty, List.all_eq_true.mpr digits⟩, value]
    rw [IsNumeral, read, Option.bind_some, toCount?_toNat]

theorem hasValue_ofCount (n : UInt32) : HasValue (ofCount n).toList n :=
  isNumeral_iff.mp (read?_ofCount n)

theorem HasValue.exists_head {cs : List Char} {n : UInt32} (valued : HasValue cs n)
    (rest : List Char) : ∃ c ∈ cs, (cs ++ rest).head? = some c ∧ c.isDigit := by
  obtain ⟨c, ds, rfl⟩ := List.exists_cons_of_ne_nil valued.nonempty
  exact ⟨c, List.mem_cons_self, rfl, valued.digits c List.mem_cons_self⟩

theorem HasValue.mem_of_mem_ofCount {cs : List Char} {n : UInt32} (valued : HasValue cs n) {c : Char}
    (member : c ∈ (ofCount n).toList) : c ∈ cs := by
  rw [toList_ofCount, ← valued.value] at member
  exact mem_of_mem_toDigits valued.digits valued.nonempty c member

end Decimal

namespace CountRange

variable {g : Grammar} {ds rest : List Char} {n : UInt32}

/-- A count is read up to the first character that is no digit. -/
theorem count?_append (valued : Decimal.HasValue ds n)
    (stops : ∀ c, rest.head? = some c → ¬ c.isDigit) : count? (ds ++ rest) = some (n, rest) := by
  have stopped : rest.takeWhile Char.isDigit = [] ∧ rest.dropWhile Char.isDigit = rest := by
    cases rest with
    | nil => exact ⟨rfl, rfl⟩
    | cons c rest => simp [List.takeWhile, List.dropWhile, stops c rfl]
  have read : (Decimal.read? ds).bind Decimal.toCount? = some n := Decimal.isNumeral_iff.mpr valued
  rw [count?, List.takeWhile_append_of_pos valued.digits, List.dropWhile_append_of_pos valued.digits,
    stopped.1, stopped.2, List.append_nil]
  simp [read]

theorem count?_of_hasValue (valued : Decimal.HasValue ds n) : count? ds = some (n, []) := by
  have read : count? (ds ++ []) = some (n, []) := count?_append valued (by simp)
  rwa [List.append_nil] at read

theorem drop?_nil (c : Char) : drop? c [] = none := rfl

theorem drop?_self (c : Char) (cs : List Char) : drop? c (c :: cs) = some cs := by
  simp [drop?]

/-- No count begins with a character that is no digit. -/
theorem head?_ne_of_hasValue {c : Char} (other : ¬ c.isDigit) (valued : Decimal.HasValue ds n) :
    (ds ++ rest).head? ≠ some c := by
  obtain ⟨d, -, begins, digit⟩ := valued.exists_head rest
  rw [begins]
  exact fun same => other (Option.some.inj same ▸ digit)

theorem drop?_of_head?_ne {c : Char} {cs : List Char} (other : cs.head? ≠ some c) :
    drop? c cs = none := by
  cases cs with
  | nil => rfl
  | cons d cs => exact if_neg fun same => other (by rw [same, List.head?_cons])

/-- Only a range without bounds needs no option. -/
theorem token?_eq_none_iff {r : CountRange} : r.token? g = none ↔ r = {} := by
  obtain ⟨min, max⟩ := r
  cases min <;> cases max <;> simp only [token?] <;> try split
  all_goals simp

/-- The texts that stand for a range: a count, a count and up, up to a count, or one count to
another. -/
inductive Spells (g : Grammar) : List Char → CountRange → Prop
  | single {ds : List Char} {n : UInt32} (valued : Decimal.HasValue ds n) : Spells g ds (exact n)
  | atLeast {ds : List Char} {n : UInt32} (valued : Decimal.HasValue ds n) :
    Spells g (ds ++ [g.moreOrLess]) { min := n }
  | atMost {ds : List Char} {n : UInt32} (valued : Decimal.HasValue ds n) :
    Spells g (g.moreOrLess :: ds) { max := n }
  | between {ds es : List Char} {m n : UInt32} (first : Decimal.HasValue ds m)
    (second : Decimal.HasValue es n) : Spells g (ds ++ g.range :: es) { min := m, max := n }

/-- Each form is read as such, because no form that is tried before it fits the front of the text. -/
theorem read?_of_spells (ends : g.CountsEnd) {cs : List Char} {r : CountRange}
    (spells : Spells g cs r) : read? g cs = some r := by
  cases spells with
  | single valued =>
    have bare : drop? g.moreOrLess cs = none := by
      rw [← List.append_nil cs]
      exact drop?_of_head?_ne (head?_ne_of_hasValue ends.moreOrLess valued)
    simp [read?, atMost?, atLeast?, between?, exactCount?, bare, count?_of_hasValue valued,
      drop?_nil]
  | @atLeast ds n valued =>
    have bare : drop? g.moreOrLess (ds ++ [g.moreOrLess]) = none :=
      drop?_of_head?_ne (head?_ne_of_hasValue ends.moreOrLess valued)
    have counted : count? (ds ++ [g.moreOrLess]) = some (n, [g.moreOrLess]) :=
      count?_append valued (by simpa using ends.moreOrLess)
    simp [read?, atMost?, atLeast?, bare, counted, drop?_self]
  | atMost valued => simp [read?, atMost?, drop?_self, count?_of_hasValue valued]
  | @between ds es m n first second =>
    have bare : drop? g.moreOrLess (ds ++ g.range :: es) = none :=
      drop?_of_head?_ne (head?_ne_of_hasValue ends.moreOrLess first)
    have counted : count? (ds ++ g.range :: es) = some (m, g.range :: es) :=
      count?_append first (by simpa using ends.range)
    have other : drop? g.moreOrLess (g.range :: es) = none := by
      simp [drop?, Ne.symm g.moreOrLess_ne_range]
    simp [read?, atMost?, atLeast?, between?, bare, counted, other, drop?_self,
      count?_of_hasValue second]

theorem of_count? {cs : List Char} (counted : count? cs = some (n, rest)) :
    ∃ ds, cs = ds ++ rest ∧ Decimal.HasValue ds n := by
  obtain ⟨m, isNumeral, same⟩ := Option.bind_eq_some_iff.mp counted
  cases same
  exact ⟨_, List.takeWhile_append_dropWhile.symm, Decimal.isNumeral_iff.mp isNumeral⟩

theorem of_drop? {c : Char} {cs : List Char} (dropped : drop? c cs = some rest) : cs = c :: rest := by
  cases cs with
  | nil => contradiction
  | cons d cs =>
    rw [drop?] at dropped
    split at dropped
    · next same => rw [same, Option.some.inj dropped]
    · contradiction

theorem spells_of_read? {cs : List Char} {r : CountRange} (h : read? g cs = some r) :
    Spells g cs r := by
  obtain ⟨⟨r', rest⟩, formed, whole⟩ := Option.bind_eq_some_iff.mp h
  obtain ⟨rfl, same⟩ : rest = [] ∧ some r' = some r := Option.ite_none_right_eq_some.mp whole
  cases same
  simp only [Option.orElse_eq_orElse, Option.orElse_eq_or, Option.or_eq_some_iff] at formed
  obtain atMost | ⟨-, atLeast | ⟨-, between | ⟨-, single⟩⟩⟩ := formed
  · obtain ⟨digits, dropped, atMost⟩ := Option.bind_eq_some_iff.mp atMost
    obtain ⟨⟨n, rest⟩, counted, same⟩ := Option.bind_eq_some_iff.mp atMost
    cases same
    obtain ⟨ds, rfl, valued⟩ := of_count? counted
    rw [of_drop? dropped, List.append_nil]
    exact .atMost valued
  · obtain ⟨⟨m, rest⟩, counted, atLeast⟩ := Option.bind_eq_some_iff.mp atLeast
    obtain ⟨last, dropped, same⟩ := Option.bind_eq_some_iff.mp atLeast
    cases same
    obtain ⟨ds, rfl, valued⟩ := of_count? counted
    rw [of_drop? dropped]
    exact .atLeast valued
  · obtain ⟨⟨m, rest⟩, counted, between⟩ := Option.bind_eq_some_iff.mp between
    obtain ⟨digits, dropped, between⟩ := Option.bind_eq_some_iff.mp between
    obtain ⟨⟨n, last⟩, counted', same⟩ := Option.bind_eq_some_iff.mp between
    cases same
    obtain ⟨ds, rfl, first⟩ := of_count? counted
    obtain ⟨es, rfl, second⟩ := of_count? counted'
    rw [of_drop? dropped, List.append_nil]
    exact .between first second
  · obtain ⟨⟨n, rest⟩, counted, same⟩ := Option.bind_eq_some_iff.mp single
    cases same
    obtain ⟨ds, rfl, valued⟩ := of_count? counted
    rw [List.append_nil]
    exact .single valued

theorem read?_eq_some_iff (ends : g.CountsEnd) {cs : List Char} {r : CountRange} :
    read? g cs = some r ↔ Spells g cs r :=
  ⟨spells_of_read?, read?_of_spells ends⟩

namespace Spells

variable {cs : List Char} {r : CountRange}

theorem ne_empty (spells : Spells g cs r) : r ≠ {} := by
  cases spells <;> simp [exact]

/-- A text that stands for a range holds one mark at most. -/
theorem exists_mark (spells : Spells g cs r) :
    ∃ mark, (mark = g.moreOrLess ∨ mark = g.range) ∧ ∀ c ∈ cs, c.isDigit ∨ c = mark := by
  cases spells with
  | single valued => exact ⟨g.moreOrLess, .inl rfl, fun c member => .inl (valued.digits c member)⟩
  | atLeast valued =>
    refine ⟨g.moreOrLess, .inl rfl, fun c member => ?_⟩
    obtain member | same := List.mem_append.mp member
    · exact .inl (valued.digits c member)
    · exact .inr (List.mem_singleton.mp same)
  | atMost valued =>
    refine ⟨g.moreOrLess, .inl rfl, fun c member => ?_⟩
    obtain same | member := List.mem_cons.mp member
    · exact .inr same
    · exact .inl (valued.digits c member)
  | between first second =>
    refine ⟨g.range, .inr rfl, fun c member => ?_⟩
    obtain member | later := List.mem_append.mp member
    · exact .inl (first.digits c member)
    · obtain same | member := List.mem_cons.mp later
      · exact .inr same
      · exact .inl (second.digits c member)

theorem exists_head (spells : Spells g cs r) :
    ∃ c, cs.head? = some c ∧ (c.isDigit ∨ c = g.moreOrLess) := by
  cases spells with
  | single valued =>
    obtain ⟨c, -, begins, digit⟩ := valued.exists_head []
    exact ⟨c, by rwa [List.append_nil] at begins, .inl digit⟩
  | atMost valued => exact ⟨g.moreOrLess, rfl, .inr rfl⟩
  | atLeast valued | between valued =>
    obtain ⟨c, -, begins, digit⟩ := valued.exists_head _
    exact ⟨c, begins, .inl digit⟩

theorem exists_digit (spells : Spells g cs r) : ∃ c ∈ cs, c.isDigit := by
  cases spells with
  | single valued =>
    obtain ⟨c, member, -, digit⟩ := valued.exists_head []
    exact ⟨c, member, digit⟩
  | atMost valued =>
    obtain ⟨c, member, -, digit⟩ := valued.exists_head []
    exact ⟨c, List.mem_cons_of_mem _ member, digit⟩
  | atLeast valued | between valued =>
    obtain ⟨c, member, -, digit⟩ := valued.exists_head []
    exact ⟨c, List.mem_append_left _ member, digit⟩

theorem head?_ne (ends : g.CountsEnd) (spells : Spells g cs r) : cs.head? ≠ some g.range := by
  obtain ⟨c, begins, digit | same⟩ := spells.exists_head
  · rw [begins]
    exact fun same => ends.range (Option.some.inj same ▸ digit)
  · rw [begins, same]
    exact fun same => g.moreOrLess_ne_range (Option.some.inj same)

end Spells

theorem spells_token {r : CountRange} {token : String} (written : r.token? g = some token) :
    Spells g token.toList r := by
  obtain ⟨min, max⟩ := r
  cases min with
  | none =>
    cases max with
    | none => simp [token?] at written
    | some n =>
      have form : token.toList = g.moreOrLess :: (Decimal.ofCount n).toList := by
        simp [← Option.some.inj written]
      exact form ▸ .atMost (Decimal.hasValue_ofCount n)
  | some m =>
    cases max with
    | none =>
      have form : token.toList = (Decimal.ofCount m).toList ++ [g.moreOrLess] := by
        simp [← Option.some.inj written]
      exact form ▸ .atLeast (Decimal.hasValue_ofCount m)
    | some n =>
      simp only [token?] at written
      split at written
      · next same =>
        rw [← Option.some.inj written, ← same]
        exact .single (Decimal.hasValue_ofCount m)
      · have form : token.toList =
            (Decimal.ofCount m).toList ++ g.range :: (Decimal.ofCount n).toList := by
          simp [← Option.some.inj written]
        exact form ▸ .between (Decimal.hasValue_ofCount m) (Decimal.hasValue_ofCount n)

/-- A text is made of characters of another one, and at either end of it stands a digit or what stands
there in the other one. -/
structure DrawnFrom (cs text : List Char) : Prop where
  inside : ∀ c ∈ text, c ∈ cs
  first : ∀ c, text.head? = some c → c.isDigit ∨ cs.head? = some c
  last : ∀ c, text.getLast? = some c → c.isDigit ∨ cs.getLast? = some c

theorem drawnFrom_ofCount {cs : List Char} {n : UInt32}
    (inside : ∀ c ∈ (Decimal.ofCount n).toList, c ∈ cs) :
    DrawnFrom cs (Decimal.ofCount n).toList where
  inside := inside
  first _ first := .inl (Decimal.isDigit_of_mem_ofCount (List.mem_of_head? first))
  last _ last := .inl (Decimal.isDigit_of_mem_ofCount (List.mem_of_getLast? last))

/-- A range is written with the digits and the mark of any text that is read as it. -/
theorem drawnFrom_token {cs : List Char} {r : CountRange} {token : String}
    (h : read? g cs = some r) (written : r.token? g = some token) : DrawnFrom cs token.toList := by
  cases spells_of_read? h with
  | single valued =>
    simp only [token?, exact, if_true, Option.some.injEq] at written
    exact written ▸ drawnFrom_ofCount fun c => valued.mem_of_mem_ofCount
  | @atLeast ds n valued =>
    have form : token.toList = (Decimal.ofCount n).toList ++ [g.moreOrLess] := by
      simp [← Option.some.inj written]
    rw [form]
    constructor
    case inside =>
      refine List.forall_mem_append.mpr ⟨fun c member => ?_, fun c => List.mem_append_right _⟩
      exact List.mem_append_left _ (valued.mem_of_mem_ofCount member)
    case first => exact fun c first => .inl (Decimal.isDigit_of_head? _ first)
    case last =>
      intro c last
      rw [List.getLast?_concat] at last ⊢
      exact .inr last
  | @atMost ds n valued =>
    have form : token.toList = [g.moreOrLess] ++ (Decimal.ofCount n).toList := by
      simp [← Option.some.inj written]
    rw [form]
    constructor
    case inside =>
      refine List.forall_mem_cons.mpr ⟨List.mem_cons_self, fun c member => ?_⟩
      exact List.mem_cons_of_mem _ (valued.mem_of_mem_ofCount member)
    case first => exact fun c first => .inr first
    case last => exact fun c last => .inl (Decimal.isDigit_of_getLast? _ last)
  | @between ds es m n first second =>
    have inFirst : ∀ c ∈ (Decimal.ofCount m).toList, c ∈ ds ++ g.range :: es :=
      fun c member => List.mem_append_left _ (first.mem_of_mem_ofCount member)
    have inSecond : ∀ c ∈ (Decimal.ofCount n).toList, c ∈ ds ++ g.range :: es := fun c member =>
      List.mem_append_right _ (List.mem_cons_of_mem _ (second.mem_of_mem_ofCount member))
    simp only [token?] at written
    split at written
    · rw [← Option.some.inj written]
      exact drawnFrom_ofCount inFirst
    · have form : token.toList = (Decimal.ofCount m).toList ++
          ([g.range] ++ (Decimal.ofCount n).toList) := by
        simp [← Option.some.inj written]
      rw [form]
      constructor
      case inside =>
        refine List.forall_mem_append.mpr ⟨inFirst, List.forall_mem_append.mpr ⟨?_, inSecond⟩⟩
        simp
      case first => exact fun c first => .inl (Decimal.isDigit_of_head? _ first)
      case last =>
        intro c last
        rw [← List.append_assoc] at last
        exact .inl (Decimal.isDigit_of_getLast? _ last)

/-- The option of a range holds only digits and the two marks, and it does not begin as the end of a
range. -/
theorem mem_token {r : CountRange} {token : String} (written : r.token? g = some token) :
    (∀ c ∈ token.toList, c.isDigit ∨ c = g.moreOrLess ∨ c = g.range) ∧
      ∃ c, token.toList.head? = some c ∧ (c.isDigit ∨ c = g.moreOrLess) := by
  refine ⟨fun c member => ?_, (spells_token written).exists_head⟩
  obtain ⟨mark, same, marked⟩ := (spells_token written).exists_mark
  exact (marked c member).imp_right fun marks => same.imp marks.trans marks.trans

theorem ofToken_eq_error_iff {token : String} {e : ParseError} : ofToken g token = .error e ↔
    token.toList.head? = some g.range ∧ e = .malformedOption token g.range 0 := by
  rw [ofToken]
  split
  · next begins => simp [begins, eq_comm]
  · next begins => simp [begins]

theorem ofToken_eq_some_iff (ends : g.CountsEnd) {token : String} {r : CountRange} :
    ofToken g token = .ok (some r) ↔ Spells g token.toList r := by
  rw [ofToken, ← read?_eq_some_iff ends]
  split
  · next begins =>
    have unread : read? g token.toList ≠ some r :=
      fun read => (spells_of_read? read).head?_ne ends begins
    simp [unread]
  · simp

theorem ofToken_token (ends : g.CountsEnd) {r : CountRange} {token : String}
    (written : r.token? g = some token) : ofToken g token = .ok (some r) :=
  (ofToken_eq_some_iff ends).mpr (spells_token written)

theorem ofToken_eq_none_iff (ends : g.CountsEnd) {token : String} : ofToken g token = .ok none ↔
    token.toList.head? ≠ some g.range ∧ ∀ r, ¬ Spells g token.toList r := by
  simp only [← read?_eq_some_iff ends, ← Option.eq_none_iff_forall_ne_some]
  rw [ofToken]
  split
  · next begins => simp [begins]
  · next begins => simp [begins]

/-- An option is refused exactly if it begins as the end of a range, and otherwise it is the range that
it spells, or none. Every range with a bound is written as an option that is read back. -/
theorem ofToken_by_spelling (ends : g.CountsEnd) :
    (∀ token e, ofToken g token = .error e ↔
      token.toList.head? = some g.range ∧ e = .malformedOption token g.range 0) ∧
    (∀ token r, ofToken g token = .ok (some r) ↔ Spells g token.toList r) ∧
    (∀ token, ofToken g token = .ok none ↔
      token.toList.head? ≠ some g.range ∧ ∀ r, ¬ Spells g token.toList r) ∧
    (∀ r : CountRange, r.token? g = none ↔ r.min = none ∧ r.max = none) ∧
    ∀ (r : CountRange) token, r.token? g = some token → ofToken g token = .ok (some r) := by
  refine ⟨fun token e => ofToken_eq_error_iff, fun token r => ofToken_eq_some_iff ends,
    fun token => ofToken_eq_none_iff ends, fun r => ?_, fun r token => ofToken_token ends⟩
  obtain ⟨min, max⟩ := r
  rw [token?_eq_none_iff, CountRange.mk.injEq]

/-- Zeros before a count change nothing, and a number of more than 32 bits is no count. -/
theorem ofToken_by_spelling_zeros :
    Grammar.standard.CountsEnd ∧
      ofToken .standard "007-12" = .ok (some { min := some 7, max := some 12 }) ∧
      (∀ r, ¬ Spells .standard "4294967296+".toList r) ∧
      ofToken .standard "-3" = .error (.malformedOption "-3" '-' 0) ∧
      token? .standard { min := some 7, max := some 12 } = some "7-12" ∧
      ofToken .standard "7-12" = .ok (some { min := some 7, max := some 12 }) := by
  have ends : Grammar.standard.CountsEnd := ⟨by decide, by decide⟩
  obtain ⟨refused, known, unknown, -, back⟩ := ofToken_by_spelling ends
  have spelled : Spells .standard ("007".toList ++ '-' :: "12".toList)
      { min := some 7, max := some 12 } :=
    .between ⟨by decide, by decide, by decide⟩ ⟨by decide, by decide, by decide⟩
  have written : token? .standard { min := some 7, max := some 12 } = some "7-12" := by decide
  exact ⟨ends, (known _ _).mpr spelled, ((unknown _).mp (by decide +kernel)).2,
    (refused _ _).mpr ⟨by decide, rfl⟩, written, back _ _ written⟩

end CountRange

end ContentSchema
