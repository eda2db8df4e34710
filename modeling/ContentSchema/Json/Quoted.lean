/-!
The text between the quotes of a JSON string. Reading undoes writing (`decode?_encode`).
-/
namespace ContentSchema.Json.Quoted

/-- The letter that stands for the character after a backslash. -/
def escapeLetter? (c : Char) : Option Char :=
  if c = '"' then some '"'
  else if c = '\\' then some '\\'
  else if c = '\x08' then some 'b'
  else if c = '\t' then some 't'
  else if c = '\n' then some 'n'
  else if c = '\x0c' then some 'f'
  else if c = '\r' then some 'r'
  else none

/-- The character that the letter after a backslash stands for. -/
def unescape? (c : Char) : Option Char :=
  if c = '"' then some '"'
  else if c = '\\' then some '\\'
  else if c = '/' then some '/'
  else if c = 'b' then some '\x08'
  else if c = 't' then some '\t'
  else if c = 'n' then some '\n'
  else if c = 'f' then some '\x0c'
  else if c = 'r' then some '\r'
  else none

def isControl (c : Char) : Bool := c.toNat < 0x20

/-- Controls without a letter are written by number; all other characters stand for themselves. -/
def encodeChar (c : Char) : List Char :=
  match escapeLetter? c with
  | some letter => ['\\', letter]
  | none =>
    if isControl c then
      ['\\', 'u', '0', '0', Nat.digitChar (c.toNat / 16), Nat.digitChar (c.toNat % 16)]
    else [c]

def encode (cs : List Char) : List Char := cs.flatMap encodeChar

def hexDigit? (c : Char) : Option Nat :=
  if c.isDigit then some (c.toNat - '0'.toNat)
  else if 'a' ≤ c ∧ c ≤ 'f' then some (c.toNat - 'a'.toNat + 10)
  else if 'A' ≤ c ∧ c ≤ 'F' then some (c.toNat - 'A'.toNat + 10)
  else none

/-- The value of four hexadecimal digits. -/
def hex? (a b c d : Char) : Option Nat := do
  return ((← hexDigit? a) * 16 + (← hexDigit? b)) * 256 + (← hexDigit? c) * 16 + (← hexDigit? d)

def isHighSurrogate (n : Nat) : Bool := 0xd800 ≤ n && n < 0xdc00

def isLowSurrogate (n : Nat) : Bool := 0xdc00 ≤ n && n < 0xe000

/-- A surrogate is a character only as the first of a pair; the second is read with it. -/
def decode? : List Char → Option (List Char)
  | [] => some []
  | '\\' :: 'u' :: a :: b :: c :: d :: rest => do
    let n ← hex? a b c d
    if isHighSurrogate n then
      match rest with
      | '\\' :: 'u' :: e :: f :: g :: h :: rest =>
        let low ← hex? e f g h
        if isLowSurrogate low then
          (.ofNat (0x10000 + (n - 0xd800) * 0x400 + (low - 0xdc00)) :: ·) <$> decode? rest
        else none
      | _ => none
    else if isLowSurrogate n then none
    else (.ofNat n :: ·) <$> decode? rest
  | '\\' :: letter :: rest => do
    let c ← unescape? letter
    (c :: ·) <$> decode? rest
  | c :: rest => if c = '\\' ∨ isControl c then none else (c :: ·) <$> decode? rest

theorem hexDigit?_digitChar : ∀ n < 16, hexDigit? (Nat.digitChar n) = some n := by
  decide

theorem unescape?_of_escapeLetter? {c letter : Char} (h : escapeLetter? c = some letter) :
    unescape? letter = some c ∧ letter ≠ 'u' := by
  unfold escapeLetter? at h
  repeat' split at h
  all_goals first
    | contradiction
    | (cases h; subst_vars; decide)

theorem decode?_encodeChar (c : Char) (rest : List Char) :
    decode? (encodeChar c ++ rest) = (decode? rest).map (c :: ·) := by
  unfold encodeChar
  split
  · next letter h =>
    obtain ⟨back, plain⟩ := unescape?_of_escapeLetter? h
    simp only [List.cons_append, List.nil_append]
    rw [decode?.eq_3]
    · simp [back]
    · grind
  · next h =>
    split
    · next control =>
      have small : c.toNat < 32 := by simpa [isControl] using control
      have high := hexDigit?_digitChar (c.toNat / 16) (by omega)
      have low := hexDigit?_digitChar (c.toNat % 16) (by omega)
      have zero : hexDigit? '0' = some 0 := by decide
      have value : c.toNat / 16 * 16 + c.toNat % 16 = c.toNat := by omega
      simp [decode?, hex?, high, low, zero, value, isHighSurrogate, isLowSurrogate]
      grind
    · next plain =>
      have other : c ≠ '\\' := by rintro rfl; simp [escapeLetter?] at h
      simp only [List.cons_append, List.nil_append]
      rw [decode?.eq_4]
      · simp [other, plain]
      · grind
      · grind

theorem decode?_encode (cs : List Char) : decode? (encode cs) = some cs := by
  induction cs with
  | nil => simp [encode, decode?]
  | cons c cs ih =>
    rw [encode, List.flatMap_cons, ← encode, decode?_encodeChar, ih]
    rfl

end ContentSchema.Json.Quoted
