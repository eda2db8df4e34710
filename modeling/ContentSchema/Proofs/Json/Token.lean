import Mathlib.Data.List.Basic
import Mathlib.Data.List.TakeWhile
import Mathlib.Data.Option.Basic
import ContentSchema.Json.Printer
import ContentSchema.Json.Token
/-!
Which tokens a printed text has. An atom ends only where another character comes, so a text spells
its tokens up to the last (`Lexer.Spells`) or with nothing left over (`Lexer.Settles`); the texts of
atoms, strings and blanks are spelled here, and texts are put together from these.
-/
namespace ContentSchema.Json

namespace Numeral

/-- Digits are taken up while the value of all of them has at most 64 bits. -/
theorem takeUp_eq {cs : List Char} {value : Nat} (small : Nat.ofDigitChars 10 cs value < UInt64.size) :
    takeUp value cs = (Nat.ofDigitChars 10 cs value, 0) := by
  induction cs generalizing value with
  | nil => rfl
  | cons c cs ih =>
    have grows (n : Nat) (ds : List Char) : n ≤ Nat.ofDigitChars 10 ds n := by
      induction ds generalizing n with
      | nil => exact Nat.le_refl n
      | cons d ds ih =>
        rw [Nat.ofDigitChars_cons]
        exact Nat.le_trans (by omega) (ih _)
    rw [Nat.ofDigitChars_cons] at small ⊢
    have next : Nat.ofDigitChars 10 [c] value < UInt64.size :=
      Nat.lt_of_le_of_lt (grows _ cs) small
    simp only [takeUp]
    rw [if_pos next]
    exact ih small

theorem isWhole_toDigits (n : Nat) : isWhole (Nat.toDigits 10 n) := by
  have first (n : Nat) (positive : 0 < n) : ∀ c, (Nat.toDigits 10 n).head? = some c → c ≠ '0' := by
    induction n using Nat.strongRecOn with
    | ind n ih =>
      intro c head
      by_cases below : n < 10
      · rw [Nat.toDigits_of_lt_base below, List.head?_cons, Option.some.injEq] at head
        have digits : ∀ d < 10, 0 < d → Nat.digitChar d ≠ '0' := by decide
        exact head ▸ digits n below positive
      · have tens : 0 < n / 10 := by omega
        rw [← Nat.div_add_mod n 10, ← Nat.toDigits_append_toDigits (by decide) tens (by omega),
          List.head?_append_of_ne_nil _ Nat.toDigits_ne_nil] at head
        exact ih (n / 10) (by omega) tens c head
  obtain rfl | positive := Nat.eq_zero_or_pos n
  · decide
  · obtain ⟨c, cs, digits⟩ := List.exists_cons_of_ne_nil (Nat.toDigits_ne_nil (b := 10) (n := n))
    have other : c ≠ '0' := first n positive c (by rw [digits, List.head?_cons])
    rw [digits]
    unfold isWhole
    split
    · contradiction
    · rfl
    · simp_all

/-- The numeral of a natural number has a whole part only. -/
theorem read?_toDigits (n : Nat) :
    read? (Nat.toDigits 10 n) =
      some { negative := false, whole := Nat.toDigits 10 n, fraction := [], exponent := none } := by
  have digits : ∀ c ∈ Nat.toDigits 10 n, c.isDigit :=
    fun c member => Nat.isDigit_of_mem_toDigits (by decide) (by decide) member
  have unsigned : ∀ rest, Nat.toDigits 10 n ≠ '-' :: rest := by
    intro rest signed
    have digit := digits '-' (by simp [signed])
    exact absurd digit (by decide)
  have whole : (Nat.toDigits 10 n).takeWhile Char.isDigit = Nat.toDigits 10 n :=
    List.takeWhile_eq_self_iff.mpr digits
  have nothing : (Nat.toDigits 10 n).dropWhile Char.isDigit = [] :=
    List.dropWhile_eq_nil_iff.mpr digits
  simp [read?, whole, nothing, isWhole_toDigits, fraction?, exponent?]

theorem not_isInfinite {n : Nat} (small : n < UInt64.size) :
    isInfinite { negative := false, whole := Nat.toDigits 10 n, fraction := [], exponent := none } =
      false := by
  have value : Nat.ofDigitChars 10 (Nat.toDigits 10 n) 0 = n := Nat.ofDigitChars_ten_toDigits
  have taken : takeUp 0 (Nat.toDigits 10 n) = (n, 0) := by
    rw [takeUp_eq (value.symm ▸ small), value]
  have finite : Double.round n < Double.limit := by
    have positive : 0 < 1 <<< (n.log2 + 1 - 53) := by
      rw [Nat.one_shiftLeft]
      exact Nat.two_pow_pos _
    have near : 2 * Double.round n ≤ 2 * n + 1 <<< (n.log2 + 1 - 53) :=
      (Double.divNearest_near positive).2
    have bits : n.log2 + 1 - 53 ≤ 11 := by
      by_cases zero : n = 0
      · simp [zero]
      · have := (Nat.log2_lt zero).mpr (show n < 2 ^ 64 from small)
        omega
    have unit : 1 <<< (n.log2 + 1 - 53) ≤ 2 ^ 11 := by
      rw [Nat.one_shiftLeft]
      exact Nat.pow_le_pow_right (by decide) bits
    have large : 2 ^ 66 ≤ Double.limit := by decide
    have size : UInt64.size = 2 ^ 64 := rfl
    omega
  have one : Double.round 1 = 1 := by decide
  simp [isInfinite, leading, taken, takeUp, one, finite]

end Numeral

/-- A natural number of at most 64 bits is read as it is written. -/
theorem atom?_repr {n : Nat} (small : n < UInt64.size) : atom? n.repr.toList = some (natural n) := by
  rw [Nat.repr_eq_ofList_toDigits, String.toList_ofList]
  have worded (word : String) (text : String.ofList (Nat.toDigits 10 n) = word) :
      word.toList.all Char.isDigit := by
    rw [← text, String.toList_ofList, List.all_eq_true]
    exact fun c member => Nat.isDigit_of_mem_toDigits (by decide) (by decide) member
  unfold atom?
  split
  · next text => exact absurd (worded _ text) (by decide)
  · next text => exact absurd (worded _ text) (by decide)
  · next text => exact absurd (worded _ text) (by decide)
  · simp [Numeral.read?_toDigits, Numeral.not_isInfinite small, Nat.ofDigitChars_ten_toDigits]

namespace Lexer

variable {cs ds : List Char} {ts us : List Token}

/-- The tokens that have been read, the last of them first, if the text may end here. -/
def settle? (s : Lexer) : Option (List Token) :=
  match s.lexeme with
  | .gap => some s.tokens
  | .atom cs => (atom? cs.reverse).map (.atom · :: s.tokens)
  | _ => none

/-- The text has these tokens, wherever no atom goes on behind it. -/
def Spells (cs : List Char) (ts : List Token) : Prop :=
  ∀ before, ∃ s, cs.foldlM step { tokens := before } = some s ∧
    s.settle? = some (ts.reverse ++ before)

/-- The text has these tokens, whatever stands behind it. -/
def Settles (cs : List Char) (ts : List Token) : Prop :=
  ∀ before, cs.foldlM step { tokens := before } = some { tokens := ts.reverse ++ before }

theorem Settles.spells (settled : Settles cs ts) : Spells cs ts :=
  fun before => ⟨_, settled before, rfl⟩

theorem Settles.append (first : Settles cs ts) (second : Settles ds us) :
    Settles (cs ++ ds) (ts ++ us) := by
  intro before
  rw [List.foldlM_append, first before, List.reverse_append, List.append_assoc]
  exact second _

theorem Settles.append_spells (first : Settles cs ts) (second : Spells ds us) :
    Spells (cs ++ ds) (ts ++ us) := by
  intro before
  rw [List.foldlM_append, first before, List.reverse_append, List.append_assoc]
  exact second _

/-- A character that is in no atom ends one. -/
theorem step_of_settle? {s : Lexer} {c : Char} (apart : isAtomChar c = false)
    (settled : s.settle? = some ts) : step s c = step { tokens := ts } c := by
  obtain ⟨lexeme, tokens⟩ := s
  cases lexeme with
  | gap =>
    cases settled
    rfl
  | atom cs =>
    obtain ⟨value, isAtom, rfl⟩ := Option.map_eq_some_iff.mp settled
    simp [step, apart, isAtom]
  | quoted cs => contradiction
  | escaped cs => contradiction

theorem Spells.append (first : Spells cs ts) (second : Spells ds us)
    (apart : ∀ c, ds.head? = some c → isAtomChar c = false) : Spells (cs ++ ds) (ts ++ us) := by
  intro before
  obtain ⟨s, reads, settled⟩ := first before
  rw [List.foldlM_append, reads, List.reverse_append, List.append_assoc]
  cases ds with
  | nil =>
    obtain ⟨s', same, settled'⟩ := second (ts.reverse ++ before)
    cases same
    exact ⟨s, rfl, settled.trans settled'⟩
  | cons d ds =>
    obtain ⟨s', reads', settled'⟩ := second (ts.reverse ++ before)
    rw [List.foldlM_cons] at reads'
    refine ⟨s', ?_, settled'⟩
    rw [Option.bind_eq_bind, Option.bind_some, List.foldlM_cons,
      step_of_settle? (apart d rfl) settled]
    exact reads'

theorem tokens?_of_spells {text : String} (spelled : Spells text.toList ts) :
    tokens? text = some ts := by
  obtain ⟨⟨lexeme, tokens⟩, reads, settled⟩ := spelled []
  rw [List.append_nil] at settled
  rw [tokens?, reads, Option.bind_some]
  cases lexeme with
  | gap =>
    cases settled
    simp [finish]
  | atom cs =>
    obtain ⟨value, isAtom, same⟩ := Option.map_eq_some_iff.mp settled
    have last : Token.atom value :: tokens = ts.reverse := same
    simp only [finish, isAtom, Option.bind_eq_bind, Option.bind_some, Option.pure_def, last,
      List.reverse_reverse]
  | quoted cs => contradiction
  | escaped cs => contradiction

/-! The pieces of a text -/

theorem isAtomChar_of_isBlank {c : Char} (blank : isBlank c) : isAtomChar c = false := by
  simp only [isBlank, Bool.or_eq_true, beq_iff_eq] at blank
  obtain ((rfl | rfl) | rfl) | rfl := blank <;> rfl

theorem settles_nil : Settles [] [] := fun _ => rfl

theorem settles_blanks (blanks : ∀ c ∈ cs, isBlank c) : Settles cs [] := by
  induction cs with
  | nil => exact settles_nil
  | cons c cs ih =>
    rw [List.forall_mem_cons] at blanks
    intro before
    rw [List.foldlM_cons, step, start, if_pos blanks.1]
    exact ih blanks.2 before

theorem settles_newline (depth : Nat) : Settles (newline depth).toList [] := by
  apply settles_blanks
  intro c member
  rw [newline, String.toList_append, String.toList_ofList, List.mem_append] at member
  obtain first | space := member
  · rw [List.mem_singleton.mp first]
    rfl
  · rw [String.toList_ofList] at space
    rw [(List.mem_replicate.mp space).2]
    rfl

theorem settles_mark {c : Char} {t : Token} (mark : Token.mark? c = some t) : Settles [c] [t] := by
  have apart : isBlank c = false ∧ c ≠ '"' ∧ isAtomChar c = false := by
    rw [Token.mark?.eq_def] at mark
    split at mark
    case h_7 => contradiction
    all_goals decide
  intro before
  simp [step, start, apart, mark]

/-- What stands between the name of a field and its value. -/
theorem settles_colon : Settles [':', ' '] [.colon] := by
  have mark : Settles [':'] [.colon] := settles_mark rfl
  have blank : Settles [' '] [] := settles_blanks (List.all_eq_true.mp (by decide))
  exact mark.append blank

/-- The characters of an atom are gathered. -/
theorem foldlM_atom (gathered : List Char) (before : List Token) (atomic : ∀ c ∈ cs, isAtomChar c) :
    cs.foldlM step { lexeme := .atom gathered, tokens := before } =
      some { lexeme := .atom (cs.reverse ++ gathered), tokens := before } := by
  induction cs generalizing gathered with
  | nil => rfl
  | cons c cs ih =>
    rw [List.forall_mem_cons] at atomic
    rw [List.foldlM_cons, step]
    simp only [atomic.1, if_true]
    rw [List.reverse_cons, List.append_assoc, List.singleton_append]
    exact ih (c :: gathered) atomic.2

theorem spells_atom {v : Json} (isAtom : atom? cs = some v) (nonempty : cs ≠ [])
    (atomic : ∀ c ∈ cs, isAtomChar c) : Spells cs [.atom v] := by
  intro before
  obtain ⟨c, cs, rfl⟩ := List.exists_cons_of_ne_nil nonempty
  rw [List.forall_mem_cons] at atomic
  have begins : start c before = some { lexeme := .atom [c], tokens := before } := by
    have other : isBlank c = false ∧ c ≠ '"' := by
      constructor
      · rw [Bool.eq_false_iff]
        intro blank
        simp [isAtomChar_of_isBlank blank] at atomic
      · rintro rfl
        exact absurd atomic.1 (by decide)
    simp [start, other, atomic.1]
  refine ⟨{ lexeme := .atom (cs.reverse ++ [c]), tokens := before }, ?_, ?_⟩
  · rw [List.foldlM_cons, step, begins]
    exact foldlM_atom [c] before atomic.2
  · simp [settle?, isAtom]

theorem spells_null : Spells "null".toList [.atom null] :=
  spells_atom rfl (by decide) (List.all_eq_true.mp (by decide))

theorem spells_bool (b : Bool) : Spells (if b then "true" else "false").toList [.atom (bool b)] := by
  have spelled : Spells "true".toList [.atom (bool true)] ∧
      Spells "false".toList [.atom (bool false)] :=
    ⟨spells_atom rfl (by decide) (List.all_eq_true.mp (by decide)),
      spells_atom rfl (by decide) (List.all_eq_true.mp (by decide))⟩
  cases b with
  | false => exact spelled.2
  | true => exact spelled.1

theorem spells_natural {n : Nat} (small : n < UInt64.size) :
    Spells n.repr.toList [.atom (natural n)] := by
  refine spells_atom (atom?_repr small) ?_ ?_ <;>
    rw [Nat.repr_eq_ofList_toDigits, String.toList_ofList]
  · exact Nat.toDigits_ne_nil
  · intro c member
    have digit := Nat.isDigit_of_mem_toDigits (by decide) (by decide) member
    simp [isAtomChar, Char.isAlphanum, digit]

/-- A character is encoded by a backslash with what it escapes, or by itself where that is no mark of
a string. -/
theorem foldlM_encodeChar (c : Char) (gathered : List Char) (before : List Token) :
    (Quoted.encodeChar c).foldlM step { lexeme := .quoted gathered, tokens := before } =
      some { lexeme := .quoted ((Quoted.encodeChar c).reverse ++ gathered), tokens := before } := by
  rw [Quoted.encodeChar]
  split
  · rfl
  · next letterless =>
    have other : c ≠ '"' ∧ c ≠ '\\' := by
      constructor <;> rintro rfl <;> exact absurd letterless (by decide)
    split
    · next control =>
      have small : c.toNat < 32 := by simpa [Quoted.isControl] using control
      have digits : ∀ d < 16, Nat.digitChar d ≠ '"' ∧ Nat.digitChar d ≠ '\\' := by decide
      have high := digits (c.toNat / 16) (by omega)
      have low := digits (c.toNat % 16) (by omega)
      simp [step, high, low]
    · simp [step, other]

theorem foldlM_encode (cs gathered : List Char) (before : List Token) :
    (Quoted.encode cs).foldlM step { lexeme := .quoted gathered, tokens := before } =
      some { lexeme := .quoted ((Quoted.encode cs).reverse ++ gathered), tokens := before } := by
  induction cs generalizing gathered with
  | nil => rfl
  | cons c cs ih =>
    rw [Quoted.encode, List.flatMap_cons, ← Quoted.encode, List.foldlM_append, foldlM_encodeChar,
      List.reverse_append, List.append_assoc]
    exact ih _

theorem settles_quote (s : String) : Settles (quote s).toList [.string s] := by
  intro before
  have text : (quote s).toList = '"' :: (Quoted.encode s.toList ++ ['"']) := by simp [quote]
  rw [text, List.foldlM_cons, step]
  simp only [start, isBlank, Char.reduceBEq, Bool.or_false, Bool.false_eq_true, if_false, if_true]
  rw [Option.bind_eq_bind, Option.bind_some, List.foldlM_append, foldlM_encode]
  simp [step, Quoted.decode?_encode]

end Lexer

end ContentSchema.Json
