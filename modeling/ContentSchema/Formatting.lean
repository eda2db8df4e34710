/-!
The formats of rich text and sets of them.
-/
namespace ContentSchema

/-- An inline format or a block that rich text may use. -/
inductive Format where
  | paragraph | bold | italic | link | heading1 | heading2 | heading3 | heading4
  | unorderedList | orderedList | subscript | superscript | images
deriving DecidableEq, Repr

namespace Format

/-- Every format, in the order in which formats are listed. -/
def all : List Format :=
  [paragraph, bold, italic, link, heading1, heading2, heading3, heading4,
    unorderedList, orderedList, subscript, superscript, images]

/-- The option that allows the format. -/
def token : Format → String
  | paragraph => "p"
  | bold => "b"
  | italic => "i"
  | link => "a"
  | heading1 => "h1"
  | heading2 => "h2"
  | heading3 => "h3"
  | heading4 => "h4"
  | unorderedList => "ul"
  | orderedList => "ol"
  | subscript => "sub"
  | superscript => "sup"
  | images => "images"

/-- The name of the format in documents. -/
def name : Format → String
  | paragraph => "paragraph"
  | bold => "bold"
  | italic => "italic"
  | link => "link"
  | heading1 => "heading1"
  | heading2 => "heading2"
  | heading3 => "heading3"
  | heading4 => "heading4"
  | unorderedList => "unordered_list"
  | orderedList => "ordered_list"
  | subscript => "subscript"
  | superscript => "superscript"
  | images => "images"

def ofToken? (token : String) : Option Format :=
  all.find? (·.token == token)

theorem mem_all (f : Format) : f ∈ all := by
  cases f <;> decide

@[simp] theorem ofToken?_token (f : Format) : ofToken? f.token = some f := by
  cases f <;> decide

theorem token_of_ofToken? {token : String} {f : Format} (h : ofToken? token = some f) :
    f.token = token := by
  simpa using List.find?_some h

end Format

/-- A set of formats. -/
@[ext] structure Formatting where
  allows : Format → Bool := fun _ => false

namespace Formatting

/-- Sets are told apart by trying every format. -/
instance : DecidableEq Formatting := fun s t =>
  decidable_of_iff (∀ f ∈ Format.all, s.allows f = t.allows f)
    ⟨fun h => Formatting.ext (funext fun f => h f f.mem_all), fun h _ _ => h ▸ rfl⟩

instance : Inhabited Formatting := ⟨{}⟩

def enable (f : Format) (s : Formatting) : Formatting :=
  ⟨fun g => g == f || s.allows g⟩

/-- The formats that are allowed, in listing order. -/
def enabled (s : Formatting) : List Format :=
  Format.all.filter s.allows

theorem allows_enable (f g : Format) (s : Formatting) :
    (s.enable f).allows g = (g == f || s.allows g) := rfl

@[simp] theorem mem_enabled {s : Formatting} {f : Format} : f ∈ s.enabled ↔ s.allows f := by
  simp [enabled, Format.mem_all]

end Formatting

end ContentSchema
