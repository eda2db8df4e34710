import ContentSchema.Decimal
import ContentSchema.Double
import ContentSchema.Json.Basic
/-!
Numbers of JSON. A numeral that is read as a double must not become infinite, even where the value
is not used.
-/
namespace ContentSchema.Json

/-- The parts of a numeral; the first part of a number is never empty. -/
structure Numeral where
  negative : Bool
  whole : List Char
  fraction : List Char
  exponent : Option Int

namespace Numeral

/-- Appends digits to a value as long as it has at most 64 bits, and gives the number of those that
are left. -/
def takeUp (value : Nat) : List Char → Nat × Nat
  | [] => (value, 0)
  | c :: cs =>
    let next := Nat.ofDigitChars 10 [c] value
    if next < UInt64.size then takeUp next cs else (value, cs.length + 1)

/-- The leading digits, and the power of ten that they are multiplied with. The fraction goes on
where the whole part has stopped, so a digit of it may be taken up behind one that was left. -/
def leading (n : Numeral) : Nat × Int :=
  let (value, dropped) := takeUp 0 n.whole
  let (value, unused) := takeUp value n.fraction
  (value, n.exponent.getD 0 + dropped - (n.fraction.length - unused : Nat))

/-- Whether the numeral becomes infinite: the digits and the power are rounded before they are
multiplied, and only powers up to the 308th are finite. -/
def isInfinite (n : Numeral) : Bool :=
  let (value, power) := n.leading
  if value = 0 ∨ power < 0 then false
  else 308 < power || Double.limit ≤ Double.round value * Double.round (Nat.pow 10 power.toNat)

/-- A whole part has no leading zero. -/
def isWhole (cs : List Char) : Bool :=
  match cs with
  | [] => false
  | ['0'] => true
  | c :: _ => c != '0'

/-- The fraction at the front of the text, with what follows it. -/
def fraction? : List Char → Option (List Char × List Char)
  | '.' :: cs =>
    let digits := cs.takeWhile Char.isDigit
    if digits = [] then none else some (digits, cs.dropWhile Char.isDigit)
  | cs => some ([], cs)

/-- The exponent that is the whole of the text. -/
def exponent? : List Char → Option (Option Int)
  | [] => some none
  | c :: cs =>
    if c ≠ 'e' ∧ c ≠ 'E' then none
    else match cs with
      | '-' :: cs => (Decimal.read? cs).map fun n => some (-(n : Int))
      | '+' :: cs => (Decimal.read? cs).map fun n => some (n : Int)
      | cs => (Decimal.read? cs).map fun n => some (n : Int)

def read? (cs : List Char) : Option Numeral := do
  let (negative, cs) := match cs with
    | '-' :: rest => (true, rest)
    | cs => (false, cs)
  let whole := cs.takeWhile Char.isDigit
  guard (isWhole whole)
  let (fraction, rest) ← fraction? (cs.dropWhile Char.isDigit)
  let exponent ← exponent? rest
  return { negative, whole, fraction, exponent }

end Numeral

/-- The value that a run of letters, digits and signs stands for. -/
def atom? (cs : List Char) : Option Json :=
  match String.ofList cs with
  | "null" => some null
  | "true" => some (bool true)
  | "false" => some (bool false)
  | text => do
    let n ← Numeral.read? cs
    guard !n.isInfinite
    return if n.negative || n.fraction ≠ [] || n.exponent.isSome then numeral text
      else natural (Nat.ofDigitChars 10 n.whole 0)

end ContentSchema.Json
