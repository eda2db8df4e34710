import ContentSchema.Proofs.Line.Reading
/-!
Reading the marks and the identifier of a line. A comment that no label stands before is read
exactly if its mark is whole (`read?_commentMark_iff`), and an identifier goes on up to a space, a
comment or a bracket (`of_read?_identifier`).
-/
namespace ContentSchema.Scan
open Form Phase

variable {g : Grammar} {d : Draft} {c : Char} {cs : List Char} {seen held : Seen} {matched : Nat}

/-! Comments -/

theorem read?_comment (inner : g.delimiter.head ∉ cs) : read? g (.comment held) cs = some held := by
  induction cs with
  | nil => rfl
  | cons c cs ih =>
    rw [List.mem_cons, not_or] at inner
    rw [read?_of_take (q := .comment held), ih inner.2]
    simp only [look]
    grind [lookComment, Grammar.opensDelimiter]

theorem drop_comment (below : matched < g.comment.size) :
    ∃ x, g.comment.toList[matched]? = some x ∧
      g.comment.toList.drop matched = x :: g.comment.toList.drop (matched + 1) := by
  have inside : matched < g.comment.toList.length := below
  exact ⟨_, List.getElem?_eq_getElem inside, List.drop_eq_getElem_cons inside⟩

/-- The rest of a comment mark opens a comment. -/
theorem read?_commentMark (below : matched < g.comment.size) (inner : g.delimiter.head ∉ cs)
    (mark : g.comment.toList.drop matched <+: cs) :
    read? g (.commentMark held matched) cs = some held := by
  induction cs generalizing matched with
  | nil =>
    obtain ⟨x, -, rest⟩ := drop_comment below
    rw [rest] at mark
    exact absurd mark (by simp)
  | cons c cs ih =>
    rw [List.mem_cons, not_or] at inner
    obtain ⟨x, here, rest⟩ := drop_comment below
    rw [rest, List.cons_prefix_cons] at mark
    obtain ⟨rfl, mark⟩ := mark
    by_cases last : matched + 1 = g.comment.size
    · rw [read?_of_take (q := .comment held), read?_comment inner.2]
      simp only [look, lookCommentMark, if_pos here, if_pos last]
    · rw [read?_of_take (q := .commentMark held (matched + 1)), ih (by omega) inner.2 mark]
      simp only [look, lookCommentMark, if_pos here, if_neg last]

/-- A comment or the end leaves the line with the label that has been read. -/
theorem read?_ending {p : Phase} (stops : p.conclude? g = some seen)
    (passes : look g p g.comment.head = .handOn (.commentMark seen 0))
    (inner : g.delimiter.head ∉ cs) (ending : IsEnding g cs) : p.read? g cs = some seen := by
  obtain rfl | mark := ending
  · exact stops
  · cases cs with
    | nil => exact absurd mark (by simp [Marker.toList])
    | cons c cs =>
      have opens := mark
      rw [Marker.toList, List.cons_prefix_cons] at opens
      rw [← opens.1] at inner mark ⊢
      rw [read?_of_handOn passes]
      exact read?_commentMark g.comment.size_pos inner mark

/-- What has been seen of a line allows no label, so that no comment mark may break off. -/
def Seen.Settled (g : Grammar) (seen : Seen) : Prop := ∀ matched, seen.recover? g matched = none

theorem settled_remark : Seen.remark.Settled g := fun _ => rfl

theorem settled_head : (Seen.head d).Settled g := fun _ => rfl

theorem settled_tail (snippet : d.snippet = true) : (Seen.tail d).Settled g := by
  intro matched
  rw [Seen.recover?, if_pos snippet]

theorem read?_commentMark_iff (settled : held.Settled g) (below : matched < g.comment.size)
    (inner : g.delimiter.head ∉ cs) :
    read? g (.commentMark held matched) cs = some seen ↔
      g.comment.toList.drop matched <+: cs ∧ seen = held := by
  constructor
  · intro h
    have mark : g.comment.toList.drop matched <+: cs := by
      induction cs generalizing matched with
      | nil => simp [read?, conclude?, settled matched] at h
      | cons c cs ih =>
        rw [List.mem_cons, not_or] at inner
        obtain ⟨x, here, rest⟩ := drop_comment below
        by_cases same : g.comment.toList[matched]? = some c
        · rw [here, Option.some.injEq] at same
          subst same
          rw [rest, List.cons_prefix_cons]
          refine ⟨rfl, ?_⟩
          by_cases last : matched + 1 = g.comment.size
          · rw [List.drop_of_length_le (Nat.le_of_eq last.symm)]
            exact List.nil_prefix
          · rw [read?_of_take (q := .commentMark held (matched + 1))] at h
            · exact ih (by omega) inner.2 h
            · simp only [look, lookCommentMark, if_pos here, if_neg last]
        · exfalso
          apply look_ne_refuse h
          simp only [look, lookCommentMark, if_neg same, settled matched, ite_self]
    rw [read?_commentMark below inner mark, Option.some.injEq] at h
    exact ⟨mark, h.symm⟩
  · intro h
    rw [read?_commentMark below inner h.1, h.2]

/-! Identifiers -/

theorem read?_identifier_push (allowed : d.identifier ≠ "" ∧ c = g.arrayDelimiter ∨ ¬ g.isReserved c) :
    read? g (.identifier d) (c :: cs) =
      read? g (.identifier { d with identifier := d.identifier.push c }) cs := by
  have apart := g.apart
  apply read?_of_take
  simp only [look]
  grind [lookIdentifier, Grammar.isReserved, Grammar.isStructural, Grammar.opensComment,
    Grammar.opensDelimiter]

theorem read?_identifier_space (named : d.identifier ≠ "") :
    read? g (.identifier d) (g.space :: cs) = read? g (.afterHead d) cs := by
  have apart := g.apart
  apply read?_of_take
  simp only [look]
  grind [lookIdentifier, Grammar.opensComment, Grammar.opensDelimiter]

theorem read?_identifier_start (named : d.identifier ≠ "") :
    read? g (.identifier d) (g.optionsStart :: cs) = read? g (.options d [] "" false) cs := by
  have apart := g.apart
  apply read?_of_take
  simp only [look]
  grind [lookIdentifier, Grammar.opensComment, Grammar.opensDelimiter]

/-- What may stand behind the identifier of a line, and what the line then holds. -/
inductive Behind (g : Grammar) (d : Draft) : List Char → Seen → Prop where
  | ending {rest : List Char} : IsEnding g rest → Behind g d rest (.head d)
  | space {rest : List Char} {seen : Seen} : read? g (.afterHead d) rest = some seen →
      Behind g d (g.space :: rest) seen
  | start {rest : List Char} {seen : Seen} : read? g (.options d [] "" false) rest = some seen →
      Behind g d (g.optionsStart :: rest) seen

theorem read?_of_behind (named : d.identifier ≠ "") (inner : g.delimiter.head ∉ cs)
    (behind : Behind g d cs seen) : read? g (.identifier d) cs = some seen := by
  cases behind with
  | ending ending =>
    have stops : conclude? g (.identifier d) = some (.head d) := if_neg named
    apply read?_ending stops _ inner ending
    simp only [look]
    grind [lookIdentifier, Grammar.opensComment]
  | space read => rw [read?_identifier_space named, read]
  | start read => rw [read?_identifier_start named, read]

theorem behind_of_read? (named : d.identifier ≠ "") (inner : g.delimiter.head ∉ cs)
    (stops : ∀ c rest, cs = c :: rest → g.isReserved c ∧ c ≠ g.arrayDelimiter)
    (h : read? g (.identifier d) cs = some seen) : Behind g d cs seen := by
  cases cs with
  | nil =>
    rw [read?, conclude?, if_neg named, Option.some.injEq] at h
    subst h
    exact .ending (.inl rfl)
  | cons c cs =>
    obtain ⟨reserved, other⟩ := stops c cs rfl
    by_cases space : c = g.space
    · subst space
      rw [read?_identifier_space named] at h
      exact .space h
    by_cases start : c = g.optionsStart
    · subst start
      rw [read?_identifier_start named] at h
      exact .start h
    by_cases opens : c = g.comment.head
    · rw [read?_of_handOn (q := .commentMark (.head d) 0),
        read?_commentMark_iff settled_head g.comment.size_pos inner, List.drop_zero] at h
      · rw [h.2]
        exact .ending (.inr h.1)
      · simp only [look]
        grind [lookIdentifier, Grammar.opensComment]
    · rw [List.mem_cons, not_or] at inner
      exfalso
      apply look_ne_refuse h
      simp only [look]
      grind [lookIdentifier, Grammar.opensComment, Grammar.opensDelimiter]

theorem append_ofList_cons (s : String) (c : Char) (cs : List Char) :
    s ++ .ofList (c :: cs) = s.push c ++ .ofList cs := by
  simp [← String.toList_inj]

theorem append_ofList_nil (s : String) : s ++ .ofList [] = s := String.append_empty

theorem read?_identifier {id : List Char}
    (plain : ∀ c ∈ id, c = g.arrayDelimiter ∨ ¬ g.isReserved c)
    (first : d.identifier = "" → id.head? ≠ some g.arrayDelimiter) :
    read? g (.identifier d) (id ++ cs) =
      read? g (.identifier { d with identifier := d.identifier ++ .ofList id }) cs := by
  induction id generalizing d with
  | nil => rw [append_ofList_nil, List.nil_append]
  | cons c id ih =>
    have allowed : d.identifier ≠ "" ∧ c = g.arrayDelimiter ∨ ¬ g.isReserved c := by
      obtain same | other := plain c List.mem_cons_self
      · left
        refine ⟨fun empty => first empty ?_, same⟩
        rw [List.head?_cons, same]
      · right
        exact other
    rw [List.cons_append, read?_identifier_push allowed, append_ofList_cons]
    apply ih
    · intro x member
      exact plain x (List.mem_cons_of_mem c member)
    · intro empty
      simp at empty

/-- An identifier that the reader accepts goes on as long as it can. -/
theorem of_read?_identifier_stop (h : read? g (.identifier d) cs = some seen) :
    ∃ id rest, cs = id ++ rest ∧ (∀ c ∈ id, c = g.arrayDelimiter ∨ ¬ g.isReserved c) ∧
      (d.identifier = "" → id ≠ [] ∧ id.head? ≠ some g.arrayDelimiter) ∧
      d.identifier ++ .ofList id ≠ "" ∧
      (∀ c after, rest = c :: after → g.isReserved c ∧ c ≠ g.arrayDelimiter) ∧
      read? g (.identifier { d with identifier := d.identifier ++ .ofList id }) rest = some seen := by
  induction cs generalizing d with
  | nil =>
    have named : d.identifier ≠ "" := by
      intro empty
      simp [read?, conclude?, empty] at h
    refine ⟨[], [], rfl, by simp, fun empty => absurd empty named, ?_⟩
    rw [append_ofList_nil]
    exact ⟨named, by simp, h⟩
  | cons c cs ih =>
    by_cases allowed : d.identifier ≠ "" ∧ c = g.arrayDelimiter ∨ ¬ g.isReserved c
    · rw [read?_identifier_push allowed] at h
      obtain ⟨id, rest, rfl, plain, -, named, stops, read⟩ := ih h
      refine ⟨c :: id, rest, rfl, ?_, ?_, ?_⟩
      · intro x member
        obtain rfl | member := List.mem_cons.mp member
        · exact allowed.imp And.right fun other => other
        · exact plain x member
      · intro empty
        refine ⟨List.cons_ne_nil c id, ?_⟩
        rw [List.head?_cons]
        grind [Grammar.isReserved, Grammar.isStructural]
      · rw [append_ofList_cons]
        exact ⟨named, stops, read⟩
    · rw [not_or, not_not, not_and] at allowed
      have named : d.identifier ≠ "" := by
        intro empty
        apply look_ne_refuse h
        simp only [look, lookIdentifier, if_pos (And.intro empty allowed.2)]
      refine ⟨[], c :: cs, rfl, by simp, fun empty => absurd empty named, ?_⟩
      rw [append_ofList_nil]
      refine ⟨named, ?_, h⟩
      intro x rest same
      rw [List.cons.injEq] at same
      rw [← same.1]
      exact ⟨allowed.2, allowed.1 named⟩

theorem of_read?_identifier (inner : g.delimiter.head ∉ cs)
    (h : read? g (.identifier d) cs = some seen) :
    ∃ id rest, cs = id ++ rest ∧ (∀ c ∈ id, c = g.arrayDelimiter ∨ ¬ g.isReserved c) ∧
      (d.identifier = "" → id ≠ [] ∧ id.head? ≠ some g.arrayDelimiter) ∧
      Behind g { d with identifier := d.identifier ++ .ofList id } rest seen := by
  obtain ⟨id, rest, rfl, plain, first, named, stops, read⟩ := of_read?_identifier_stop h
  rw [List.mem_append, not_or] at inner
  exact ⟨id, rest, rfl, plain, first, behind_of_read? named inner.2 stops read⟩

/-! The front of a line -/

theorem drop_snippetMark (below : matched < g.snippetMark.size) :
    ∃ x, g.snippetMark.toList[matched]? = some x ∧
      g.snippetMark.toList.drop matched = x :: g.snippetMark.toList.drop (matched + 1) := by
  have inside : matched < g.snippetMark.toList.length := below
  exact ⟨_, List.getElem?_eq_getElem inside, List.drop_eq_getElem_cons inside⟩

/-- A snippet mark that has been begun has to go on, and an identifier stands behind it. -/
theorem read?_snippetMark_iff (below : matched < g.snippetMark.size) :
    read? g (.snippetMark matched) cs = some seen ↔
      ∃ rest, cs = g.snippetMark.toList.drop matched ++ rest ∧
        read? g (.identifier { snippet := true }) rest = some seen := by
  induction cs generalizing matched with
  | nil =>
    obtain ⟨x, -, rest⟩ := drop_snippetMark below
    simp [read?, conclude?, rest]
  | cons c cs ih =>
    obtain ⟨x, here, rest⟩ := drop_snippetMark below
    by_cases same : c = x
    · subst same
      have here' : ¬ g.snippetMark.toList[matched]? ≠ some c := not_not.mpr here
      by_cases last : matched + 1 = g.snippetMark.size
      · have done : g.snippetMark.toList.drop (matched + 1) = [] :=
          List.drop_of_length_le (Nat.le_of_eq last.symm)
        rw [read?_of_take (q := .identifier { snippet := true })]
        · simp [rest, done]
        · simp only [look, lookSnippetMark, if_neg here', if_pos last]
      · rw [read?_of_take (q := .snippetMark (matched + 1)), ih (by omega)]
        · simp [rest]
        · simp only [look, lookSnippetMark, if_neg here', if_neg last]
    · rw [read?_of_refuse]
      · simp [rest, same]
      · have foreign : g.snippetMark.toList[matched]? ≠ some c := by
          rw [here]
          simpa using fun h : x = c => same h.symm
        simp only [look, lookSnippetMark, if_pos foreign]

theorem read?_indent (n : Nat) :
    read? g .lineStart (List.replicate n g.space ++ cs) = read? g .lineStart cs := by
  have apart := g.apart
  induction n with
  | zero => rfl
  | succ n ih =>
    rw [List.replicate_succ, List.cons_append, read?_of_take (q := .lineStart), ih]
    simp only [look]
    grind [lookLineStart, Grammar.opensComment]

theorem read?_identifier_reserved (reserved : g.isReserved c) (empty : d.identifier = "") :
    read? g (.identifier d) (c :: cs) = none := by
  apply read?_of_refuse
  simp only [look, lookIdentifier, if_pos (And.intro empty reserved)]

/-- Behind its indent a line is a comment, or it begins with an identifier or a snippet mark. -/
theorem read?_lineStart_iff (other : c ≠ g.space) (inner : g.delimiter.head ∉ c :: cs) :
    read? g .lineStart (c :: cs) = some seen ↔
      (g.comment.toList <+: c :: cs ∧ seen = .remark) ∨
      read? g (.identifier {}) (c :: cs) = some seen ∨
      ∃ rest, c :: cs = g.snippetMark.toList ++ rest ∧
        read? g (.identifier { snippet := true }) rest = some seen := by
  have apart := g.apart
  have unmarked (different : c ≠ g.snippetMark.head) (rest : List Char) :
      c :: cs ≠ g.snippetMark.toList ++ rest := by
    simp [Marker.toList, different]
  by_cases opens : c = g.comment.head
  · subst opens
    have reserved : g.isReserved g.comment.head := by simp [Grammar.isReserved, Grammar.opensComment]
    rw [read?_of_handOn (q := .commentMark .remark 0),
      read?_commentMark_iff settled_remark g.comment.size_pos inner, List.drop_zero,
      read?_identifier_reserved reserved rfl]
    · simp [unmarked apart.2.2.2.2.2.2.1.1]
    · simp only [look]
      grind [lookLineStart, Grammar.opensComment]
  have uncommented : ¬ g.comment.toList <+: c :: cs := by
    intro mark
    rw [Marker.toList, List.cons_prefix_cons] at mark
    exact opens mark.1.symm
  by_cases marked : c = g.snippetMark.head
  · subst marked
    have reserved : g.isReserved g.snippetMark.head := by
      simp [Grammar.isReserved, Grammar.opensSnippet]
    rw [read?_of_handOn (q := .snippetMark 0), read?_snippetMark_iff g.snippetMark.size_pos,
      List.drop_zero, read?_identifier_reserved reserved rfl]
    · simp [uncommented]
    · simp only [look]
      grind [lookLineStart, Grammar.opensComment, Grammar.opensDelimiter, Grammar.opensSnippet,
        Grammar.isStructural]
  simp only [uncommented, unmarked marked, false_and, false_or, exists_false, or_false]
  by_cases structural : g.isStructural c
  · have reserved : g.isReserved c := by simp [Grammar.isReserved, structural]
    rw [read?_identifier_reserved reserved rfl, read?_of_refuse]
    simp only [look]
    grind [lookLineStart, Grammar.opensComment, Grammar.opensDelimiter]
  · rw [read?_of_handOn (q := .identifier {})]
    simp only [look]
    grind [lookLineStart, Grammar.opensComment, Grammar.opensDelimiter, Grammar.opensSnippet]

end ContentSchema.Scan
