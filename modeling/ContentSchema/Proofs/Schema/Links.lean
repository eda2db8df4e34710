import ContentSchema.Proofs.Line.Clean
/-!
The ids of linked items, for any grammar. Joined by array delimiters they are an identifier
(`Form.isIdentifier_join`) that names just them (`Form.links_join`), and an identifier names ids that
can be joined again (`Form.of_links`).
-/
namespace ContentSchema.Form

variable {g : Grammar} {id : String} {ids : List String}

/-- The ids that an identifier of linked items names. -/
def links (g : Grammar) (id : String) : List String :=
  ((Text.split g.arrayDelimiter id).map (Text.trim g.space)).filter (· ≠ "")

theorem IsIdentifier.trim (isIdentifier : IsIdentifier g id.toList) : Text.trim g.space id = id := by
  have spaceless : g.space ∉ id.toList := by
    intro member
    obtain same | plain := isIdentifier.plain g.space member
    · exact g.apart.1.1 same
    · simp [Grammar.isReserved] at plain
  apply Text.trim_eq_self
  · exact fun first => spaceless (List.mem_of_head? first)
  · exact fun last => spaceless (List.mem_of_getLast? last)

theorem mem_join {sep c : Char} (member : c ∈ (Text.join sep ids).toList) :
    c = sep ∨ ∃ id ∈ ids, c ∈ id.toList := by
  rw [Text.toList_join] at member
  obtain same | ⟨_, listed, inside⟩ := Text.mem_intercalate member
  · exact .inl same
  · obtain ⟨id, isOne, rfl⟩ := List.mem_map.mp listed
    exact .inr ⟨id, isOne, inside⟩

theorem isIdentifier_join (nonempty : ids ≠ []) (each : ∀ id ∈ ids, IsIdentifier g id.toList) :
    IsIdentifier g (Text.join g.arrayDelimiter ids).toList := by
  obtain ⟨c, begins, other⟩ : ∃ c, (Text.join g.arrayDelimiter ids).toList.head? = some c ∧
      c ≠ g.arrayDelimiter := by
    obtain ⟨id, others, rfl⟩ := List.exists_cons_of_ne_nil nonempty
    have isFirst := each id List.mem_cons_self
    obtain ⟨c, cs, begins⟩ := List.exists_cons_of_ne_nil isFirst.nonempty
    have head := isFirst.head
    rw [begins] at head
    refine ⟨c, ?_, fun same => head (congrArg some same)⟩
    rw [Text.toList_join, List.map_cons, begins]
    cases others <;> rfl
  constructor
  case nonempty =>
    intro empty
    simp [empty] at begins
  case head =>
    rw [begins]
    exact fun same => other (Option.some.inj same)
  case plain =>
    intro c member
    obtain delimiter | ⟨id, listed, inside⟩ := mem_join member
    · exact .inl delimiter
    · exact (each id listed).plain c inside

/-- The ids of linked items are told by their identifier. -/
theorem links_join (nonempty : ids ≠ []) (each : ∀ id ∈ ids, IsIdentifier g id.toList)
    (apart : ∀ id ∈ ids, g.arrayDelimiter ∉ id.toList) :
    links g (Text.join g.arrayDelimiter ids) = ids := by
  have pieces : Text.split g.arrayDelimiter (Text.join g.arrayDelimiter ids) = ids := by
    rw [Text.split, Text.toList_join, List.splitOn_intercalate g.arrayDelimiter (by simpa using apart)
      (by simpa using nonempty), List.map_map, List.map_congr_left, List.map_id]
    intro id _
    exact String.ofList_toList
  rw [links, pieces, List.map_congr_left fun id member => (each id member).trim, List.map_id',
    List.filter_eq_self]
  intro id member
  simpa using (each id member).nonempty

/-- A delimiter at the end names nothing more. -/
theorem links_push (g : Grammar) (id : String) : links g (id.push g.arrayDelimiter) = links g id := by
  have cut : Text.split g.arrayDelimiter (id.push g.arrayDelimiter) =
      Text.split g.arrayDelimiter id ++ [""] := by
    rw [Text.split, String.toList_push, List.splitOn_append_cons_self, List.map_append]
    rfl
  have empty : Text.trim g.space "" = "" := rfl
  rw [links, links, cut, List.map_append, List.filter_append, List.map_singleton, empty]
  simp

/-- What stands between the delimiters of an identifier are ids. -/
theorem of_links (isIdentifier : IsIdentifier g id.toList) :
    links g id ≠ [] ∧ ∀ link ∈ links g id, IsIdentifier g link.toList ∧
      g.arrayDelimiter ∉ link.toList ∧ ∀ c ∈ link.toList, c ∈ id.toList := by
  constructor
  · obtain ⟨c, cs, begins⟩ := List.exists_cons_of_ne_nil isIdentifier.nonempty
    have head := isIdentifier.head
    have plain := isIdentifier.plain c (by simp [begins])
    rw [begins, List.head?_cons, ne_eq, Option.some.injEq] at head
    have visible : c ≠ g.space := by
      rintro rfl
      simp [Grammar.isReserved, head] at plain
    obtain ⟨first, more, rest⟩ := List.exists_cons_of_ne_nil
      (List.splitOn_ne_nil g.arrayDelimiter cs)
    have full : Text.trim g.space (.ofList (c :: first)) ≠ "" := by
      rw [Text.trim, String.toList_ofList, List.dropWhile_cons_of_neg (by simpa using visible)]
      exact Scan.trimEnd_ne_empty (List.cons_ne_nil c first) (by simpa using visible)
    have cut : Text.split g.arrayDelimiter id = .ofList (c :: first) :: more.map .ofList := by
      rw [Text.split, begins, List.splitOn_cons_eq_if_modifyHead, if_neg (by simpa using head),
        rest, List.modifyHead_cons, List.map_cons]
    rw [links, cut, List.map_cons, List.filter_cons, if_pos (decide_eq_true full)]
    exact List.cons_ne_nil _ _
  · intro link member
    obtain ⟨listed, full⟩ := List.mem_filter.mp member
    obtain ⟨_, isPiece, rfl⟩ := List.mem_map.mp listed
    obtain ⟨piece, cut, rfl⟩ := List.mem_map.mp isPiece
    have inside {c : Char} (held : c ∈ (Text.trim g.space (.ofList piece)).toList) : c ∈ piece := by
      simpa using Text.mem_of_mem_trim held
    have delimited : g.arrayDelimiter ∉ (Text.trim g.space (.ofList piece)).toList :=
      fun held => not_mem_of_mem_splitOn cut (inside held)
    refine ⟨⟨?_, fun first => delimited (List.mem_of_head? first), ?_⟩, delimited,
      fun c held => mem_of_mem_splitOn cut (inside held)⟩
    · exact fun empty => of_decide_eq_true full (String.toList_inj.mp empty)
    · exact fun c held => isIdentifier.plain c (mem_of_mem_splitOn cut (inside held))

end ContentSchema.Form
