/-!
Decimal numerals, read within a bound and written without leading zeros.
-/
namespace ContentSchema.Decimal

/-- The value of a run of digits; there is none for the empty run or any other character. -/
def read? (cs : List Char) : Option Nat :=
  if cs ≠ [] ∧ cs.all Char.isDigit then some (Nat.ofDigitChars 10 cs 0) else none

/-- One plus sign may stand before the digits. -/
def readSigned? : List Char → Option Nat
  | '+' :: cs => read? cs
  | cs => read? cs

/-- A count that is too large for its 32 bits has no value. -/
def toCount? (n : Nat) : Option UInt32 :=
  if h : n < UInt32.size then some (UInt32.ofNatLT n h) else none

/-- The numeral of a count. -/
def ofCount (n : UInt32) : String :=
  n.toNat.repr

@[simp] theorem toCount?_toNat (n : UInt32) : toCount? n.toNat = some n := by
  simp [toCount?, n.toNat_lt_size]

theorem read?_toDigits (n : Nat) : read? (Nat.toDigits 10 n) = some n := by
  have digits : (Nat.toDigits 10 n).all Char.isDigit := by
    simpa using fun c hc => Nat.isDigit_of_mem_toDigits (by decide) (by decide) hc
  simp [read?, digits, Nat.toDigits_ne_nil, Nat.ofDigitChars_toDigits]

/-- A written count is read back. -/
theorem read?_ofCount (n : UInt32) :
    (read? (ofCount n).toList).bind toCount? = some n := by
  simp [ofCount, Nat.repr_eq_ofList_toDigits, read?_toDigits]

end ContentSchema.Decimal
