/-!
Trimming, splitting and joining of text. The separating characters are parameters, because a grammar
chooses its own; cutting a text at a separator loses nothing (`join_split`).
-/
namespace ContentSchema.Text

/-- The text without the `sp`s at its end. -/
def trimEnd (sp : Char) (s : String) : String :=
  .ofList (s.toList.reverse.dropWhile (· == sp)).reverse

/-- The text without the `sp`s at either end. -/
def trim (sp : Char) (s : String) : String :=
  trimEnd sp (.ofList (s.toList.dropWhile (· == sp)))

/-- The pieces between the separators; their number is one more than that of the separators. -/
def split (sep : Char) (s : String) : List String :=
  (s.toList.splitOn sep).map .ofList

/-- The pieces with a separator between each two neighbours. -/
def join (sep : Char) (pieces : List String) : String :=
  String.intercalate sep.toString pieces

/-- Whether the text is exactly the one character. -/
def isChar (c : Char) (s : String) : Bool :=
  s.toList == [c]

@[simp] theorem toList_trimEnd (sp : Char) (s : String) :
    (trimEnd sp s).toList = (s.toList.reverse.dropWhile (· == sp)).reverse := by
  simp [trimEnd]

@[simp] theorem toList_trim (sp : Char) (s : String) :
    (trim sp s).toList =
      ((s.toList.dropWhile (· == sp)).reverse.dropWhile (· == sp)).reverse := by
  simp [trim]

@[simp] theorem isChar_iff {c : Char} {s : String} : isChar c s = true ↔ s = c.toString := by
  simp [isChar, ← String.toList_inj]

theorem toList_join (sep : Char) (pieces : List String) :
    (join sep pieces).toList = [sep].intercalate (pieces.map String.toList) := by
  simp [join]

/-- Joining the pieces of a text with the separator it was cut at gives it back. -/
theorem join_split (sep : Char) (s : String) : join sep (split sep s) = s := by
  apply String.toList_inj.mp
  simp [toList_join, split, Function.comp_def, List.intercalate_splitOn]

end ContentSchema.Text
