import ContentSchema.Proofs.Schema.Rewritten
/-!
What a reader leaves in its lines, for any grammar: nothing that ends a part of a line stands in it,
details open and close in turn, and the lines are numbered from first to last
(`Line.scanned_of_scan`).
-/
namespace ContentSchema

namespace Form

variable {g : Grammar} {c : Char} {cs : List Char} {inDetail : Bool}

def isDetail (g : Grammar) (c : Char) : Bool := c == g.detailStart || c == g.detailEnd

theorem ne_of_not_isDetail (other : isDetail g c = false) : c ≠ g.detailStart ∧ c ≠ g.detailEnd := by
  simpa [isDetail] using other

theorem not_isDetail_delimiter : isDetail g g.arrayDelimiter = false := by
  have apart := g.apart.2.1
  simp [isDetail, apart.2.2.1, apart.2.2.2.1]

theorem not_isDetail_plain (plain : c = g.space ∨ ¬ g.isReserved c) : isDetail g c = false := by
  have apart := g.apart.1
  obtain rfl | unreserved := plain
  · simp [isDetail, apart.2.2.2.1, apart.2.2.2.2.1]
  · simp_all [isDetail, Grammar.isReserved, Grammar.isStructural]

theorem ne_delimiter_of_plain (plain : c = g.space ∨ ¬ g.isReserved c) : c ≠ g.arrayDelimiter := by
  obtain rfl | unreserved := plain
  · exact g.apart.1.1
  · rintro rfl
    simp [Grammar.isReserved, Grammar.isStructural] at unreserved

/-- The brackets of details come in pairs, behind the one that closes a detail that is open. -/
theorem Closed.brackets (closed : Closed g inDetail cs) :
    ∃ n, cs.filter (isDetail g) = (if inDetail then [g.detailEnd] else []) ++
      (List.replicate n [g.detailStart, g.detailEnd]).flatten := by
  induction closed with
  | nil => exact ⟨0, rfl⟩
  | opened _ ih =>
    obtain ⟨n, rest⟩ := ih
    exact ⟨n + 1, by simp [isDetail, rest, List.replicate_succ]⟩
  | ended _ ih =>
    obtain ⟨n, rest⟩ := ih
    exact ⟨n, by simp [isDetail, rest]⟩
  | delimiter _ ih => simpa [not_isDetail_delimiter] using ih
  | plain plain _ ih => simpa [not_isDetail_plain plain] using ih

/-- Before an array delimiter one more detail has been opened than closed. -/
theorem Closed.count_before (closed : Closed g inDetail cs) {before after : List Char}
    (cut : cs = before ++ g.arrayDelimiter :: after) :
    inDetail.toNat + before.count g.detailStart = before.count g.detailEnd + 1 := by
  have outer := ne_of_not_isDetail (not_isDetail_delimiter (g := g))
  have brackets : g.detailStart ≠ g.detailEnd := g.apart.2.2.2.2.1.1
  induction closed generalizing before with
  | nil => simp at cut
  | opened _ ih =>
    obtain ⟨-, same⟩ | ⟨before, rfl, rest⟩ := List.cons_eq_append_iff.mp cut
    · exact absurd (List.cons.inj same).1 outer.1
    · have later := ih rest
      rw [List.count_cons_self, List.count_cons_of_ne brackets, ← later, Bool.toNat_true,
        Bool.toNat_false, Nat.zero_add, Nat.add_comm]
  | ended _ ih =>
    obtain ⟨-, same⟩ | ⟨before, rfl, rest⟩ := List.cons_eq_append_iff.mp cut
    · exact absurd (List.cons.inj same).1 outer.2
    · have later := ih rest
      rw [List.count_cons_self, List.count_cons_of_ne brackets.symm, ← later, Bool.toNat_true,
        Bool.toNat_false, Nat.zero_add, Nat.add_comm]
  | delimiter _ ih =>
    obtain ⟨rfl, -⟩ | ⟨before, rfl, rest⟩ := List.cons_eq_append_iff.mp cut
    · rfl
    · have later := ih rest
      rwa [List.count_cons_of_ne outer.1, List.count_cons_of_ne outer.2]
  | plain plain _ ih =>
    obtain ⟨rfl, same⟩ | ⟨before, rfl, rest⟩ := List.cons_eq_append_iff.mp cut
    · exact absurd (List.cons.inj same).1.symm (ne_delimiter_of_plain plain)
    · have later := ih rest
      have other := ne_of_not_isDetail (not_isDetail_plain plain)
      rwa [List.count_cons_of_ne other.1, List.count_cons_of_ne other.2]

end Form

/-! The numbers of lines -/

namespace Scanner

variable {g : Grammar} {s : Scanner} {number : Nat} {lines : Array Line}

/-- The lines stand in the order of their numbers, all before the one that is being read. -/
structure Rising (number : Nat) (lines : Array Line) : Prop where
  pairwise : lines.toList.Pairwise (·.number < ·.number)
  below : ∀ l ∈ lines, l.number < number

theorem Rising.close (rising : Rising s.number s.lines) (seen : Scan.Seen) :
    Rising (s.number + 1) (s.close g seen).lines := by
  have later : Rising (s.number + 1) s.lines :=
    ⟨rising.pairwise, fun l member => Nat.lt_succ_of_lt (rising.below l member)⟩
  have added (d : Scan.Draft) : Rising (s.number + 1) (s.keep g d).lines := by
    constructor
    case pairwise =>
      rw [keep, Array.toList_push, List.pairwise_append]
      refine ⟨rising.pairwise, List.pairwise_singleton _ _, fun l member => ?_⟩
      rw [List.forall_mem_singleton]
      exact rising.below l (Array.mem_toList_iff.mp member)
    case below =>
      intro l member
      obtain before | rfl := Array.mem_push.mp member
      · exact later.below l before
      · exact Nat.lt_succ_self s.number
  cases seen with
  | nothing => exact later
  | remark => exact later
  | head d => exact added d
  | tail d => exact added d

theorem Rising.feed {t : Scanner} {i : Nat} {c : Char} (rising : Rising s.number s.lines)
    (fed : s.feed g i c = .ok t) : Rising t.number t.lines := by
  obtain ⟨p, -, rfl⟩ | ⟨seen, -, rfl⟩ := feed_eq_ok_iff.mp fed
  · exact rising
  · exact rising.close seen

end Scanner

theorem pairwise_number_of_scan {g : Grammar} {source : String} {lines : List Line}
    (read : scan g source = .ok lines) : lines.Pairwise (·.number < ·.number) := by
  have start : Scanner.Rising 1 #[] := ⟨List.Pairwise.nil, by simp⟩
  obtain ⟨t, seen, rising, -, rfl⟩ := Scanner.exists_end_of_run
    (fun s => Scanner.Rising s.number s.lines) (fun _ rising => rising.feed) (s := {}) start read
  exact (rising.close seen).pairwise

/-! What a line consists of -/

namespace Line

variable {g : Grammar} {l : Line} {t label : String}

/-- An option has no spaces around it, each detail in it has a name and is closed, and array
delimiters stand within details only. -/
structure IsOption (g : Grammar) (t : String) : Prop where
  nonempty : t ≠ ""
  first : t.toList.head? ≠ some g.space
  last : t.toList.getLast? ≠ some g.space
  kept : ∀ c ∈ t.toList, c ∉ g.skip
  plain : ∀ c ∈ t.toList, c ∉ [g.optionsStart, g.optionsEnd, g.comment.head, g.delimiter.head,
    g.snippetMark.head]
  brackets : ∃ n, t.toList.filter (Form.isDetail g) =
    (List.replicate n [g.detailStart, g.detailEnd]).flatten
  named : t.toList.head? ≠ some g.detailStart
  inside : ∀ before after, t.toList = before ++ g.arrayDelimiter :: after →
    before.count g.detailStart = before.count g.detailEnd + 1

/-- What holds of every line that is read. -/
structure IsScanned (g : Grammar) (l : Line) : Prop where
  nonempty : l.identifier ≠ ""
  first : l.identifier.toList.head? ≠ some g.arrayDelimiter
  kept : ∀ c ∈ l.identifier.toList, c ∉ g.skip
  plain : ∀ c ∈ l.identifier.toList, c ∉ [g.space, g.optionsStart, g.optionsEnd, g.detailStart,
    g.detailEnd, g.comment.head, g.delimiter.head, g.snippetMark.head]
  options : ∀ options, l.options = some options → ∀ t ∈ options, IsOption g t
  label : ∀ label, l.label = some label →
    label ≠ "" ∧ label.toList.head? ≠ some g.space ∧ label.toList.getLast? ≠ some g.space
  reference : l.snippet = true → l.label = none

theorem isOption_of_isToken (isToken : Form.IsToken g t) : IsOption g t := by
  have apart := g.apart
  obtain ⟨closed, trimmed, nonempty, named, inline⟩ := isToken
  constructor
  case nonempty => exact nonempty
  case first => exact trimmed ▸ Text.head?_trim g.space t
  case last => exact trimmed ▸ Text.getLast?_trimEnd g.space _
  case kept => exact fun c member => (inline c member).2
  case plain =>
    intro c member
    have allowed := closed.of_mem member
    rw [Grammar.isReserved_iff] at allowed
    simp only [Markup.reservedChars, Markup.reserved, List.map_cons, List.mem_cons] at allowed ⊢
    grind
  case brackets => simpa using closed.brackets
  case named => exact named
  case inside => exact fun before after cut => by simpa using closed.count_before cut

/-- A label begins with no space, since spaces before a label are passed over. -/
theorem RepeatableLabel.head? (isLabel : RepeatableLabel g label) :
    label.toList.head? ≠ some g.space := by
  intro first
  obtain ⟨rest, begins⟩ := List.head?_eq_some_iff.mp first
  have read := isLabel.text {} rfl [g.space] (begins ▸ ⟨rest, rfl⟩)
  have passed : Scan.Phase.read? g (.afterHead {}) [g.space] = some (.tail {}) :=
    Scan.read?_afterHead_spaces 1
  rw [passed] at read
  simp [Scan.Draft.extend] at read

theorem isScanned_of_repeatable (repeatable : l.Repeatable g) : l.IsScanned g := by
  obtain ⟨isIdentifier, kept, -, tokens, isLabel, reference⟩ := repeatable
  have apart := g.apart
  constructor
  case nonempty => simpa using isIdentifier.nonempty
  case first => exact isIdentifier.head
  case kept => exact kept
  case plain =>
    intro c member
    have allowed := isIdentifier.plain c member
    rw [Grammar.isReserved_iff] at allowed
    simp only [Markup.reservedChars, Markup.reserved, List.map_cons, List.mem_cons] at allowed ⊢
    grind
  case options =>
    intro options bracketed t listed
    rw [bracketed] at tokens
    exact isOption_of_isToken (tokens t listed)
  case label =>
    intro label labelled
    have isLabel := isLabel label labelled
    exact ⟨isLabel.nonempty, isLabel.head?, isLabel.last⟩
  case reference => exact reference

/-- Whatever the marks of a grammar are, the parts of each line that is read are well-formed, the
lines are numbered in their order, and linked items have at least one id. -/
theorem scanned_of_scan {source : String} {lines : List Line} (read : scan g source = .ok lines) :
    (∀ l ∈ lines, l.IsScanned g) ∧
    lines.Pairwise (·.number < ·.number) ∧
    ∀ l ∈ lines, ∀ p, l.describe g = .ok p → ∀ ids range, p.content = .linkedItems ids range →
      ids ≠ [] ∧ ∀ id ∈ ids, g.arrayDelimiter ∉ id.toList := by
  have repeatable := repeatable_of_scan read
  refine ⟨fun l member => isScanned_of_repeatable (repeatable l member), pairwise_number_of_scan read,
    ?_⟩
  intro l member p described ids range linked
  obtain ⟨kind, supply, -, -, rfl⟩ := describe_eq_ok_iff.mp described
  change supply.content g l.identifier kind = _ at linked
  have same : kind = .linkedItems := by
    rw [← Supply.kind_content g l.identifier supply kind, linked]
    rfl
  subst same
  obtain ⟨rfl, -⟩ := Content.linkedItems.inj linked
  obtain ⟨nonempty, each⟩ := Form.of_links (repeatable l member).identifier
  exact ⟨nonempty, fun id listed => (each id listed).2.1⟩

theorem scanned_of_scan_foreign :
    ∃ lines, scan Property.foreign "A_a!!_B;C<_.;x\x7by;_z\x7d_>_u#-v_!!_@=D!!" = .ok lines ∧
      lines.map (·.identifier) = ["A", "B;C", "D"] ∧
      (∀ l ∈ lines, l.IsScanned Property.foreign) ∧ lines.Pairwise (·.number < ·.number) ∧
      ∃ l ∈ lines, l.options = some [".", "x\x7by;_z\x7d"] ∧
        l.describe Property.foreign = .ok ⟨"u#-v", true, .linkedItems ["B", "C"] {}⟩ ∧
        ∀ id ∈ ["B", "C"], Property.foreign.arrayDelimiter ∉ id.toList := by
  have read : scan Property.foreign "A_a!!_B;C<_.;x\x7by;_z\x7d_>_u#-v_!!_@=D!!" = .ok
      [{ identifier := "A", label := some "a" },
        { identifier := "B;C", options := some [".", "x\x7by;_z\x7d"], label := some "u#-v"
          number := 2 },
        { snippet := true, identifier := "D", number := 3 }] := by
    decide +kernel
  obtain ⟨parts, numbers, linked⟩ := scanned_of_scan read
  refine ⟨_, read, rfl, parts, numbers, _, List.mem_cons_of_mem _ List.mem_cons_self, rfl, ?_⟩
  have described : Line.describe Property.foreign
      { identifier := "B;C", options := some [".", "x\x7by;_z\x7d"], label := some "u#-v"
        number := 2 } = .ok ⟨"u#-v", true, .linkedItems ["B", "C"] {}⟩ := by
    decide +kernel
  exact ⟨described, (linked _ (List.mem_cons_of_mem _ List.mem_cons_self) _ described _ _ rfl).2⟩

end Line
end ContentSchema
