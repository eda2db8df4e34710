import ContentSchema.Proofs.Chains.Walk
/-!
The chains of a list of types, said without an exploration: paths without a repeated id, and such
paths closed by a link back. The lists of chains hold each of them once for each type it starts at,
ordered by length, then by the place of the start, then by the links (`stats_enumerates`).
-/
namespace ContentSchema.Chains

/-- A path without a repeated id that follows links from the type. All its ids but the last have
types. -/
def IsChain (types : List ContentType) (t : ContentType) (path : Path) : Prop :=
  path.Nodup ∧ (path = [t.id] ∨
    ∃ ids u id, Leads types t ids u ∧ id ∈ u.links ∧ path = t.id :: ids ++ [id])

/-- A path without a repeated id, all of whose ids have types, and a link back to one of them. -/
def IsClosedChain (types : List ContentType) (t : ContentType) (path : Path) : Prop :=
  ∃ ids u id, Leads types t ids u ∧ (t.id :: ids).Nodup ∧ id ∈ u.links ∧ id ∈ t.id :: ids ∧
    path = t.id :: ids ++ [id]

/-- A path with the place of the type that it starts at. -/
abbrev Placed := Nat × Path

/-- Shorter paths come first, then those of earlier types, then those with smaller links. -/
def Placed.Before (a b : Placed) : Prop :=
  a.2.length < b.2.length ∨
    a.2.length = b.2.length ∧ (a.1 < b.1 ∨ a.1 = b.1 ∧ a.2 < b.2)

/-- The paths by which the levels of each type are extended, shorter ones first. -/
def listing (types : List ContentType) (extend : Open → List Path) : List Placed :=
  (List.range types.length).flatMap fun n => types.zipIdx.flatMap fun start =>
    ((grow types n [.start start.1]).flatMap extend).map (start.2, ·)

theorem mem_listing {types : List ContentType} {extend : Open → List Path} {s : Nat}
    {path : Path} :
    (s, path) ∈ listing types extend ↔ ∃ t, types[s]? = some t ∧ ∃ ids u,
      Leads types t ids u ∧ (t.id :: ids).Nodup ∧ path ∈ extend ⟨t.id :: ids, u.links.toList⟩ := by
  simp only [listing, List.mem_flatMap, List.mem_map, List.mem_range, Prod.mk.injEq, Prod.exists,
    List.mem_zipIdx_iff_getElem?]
  constructor
  · rintro ⟨n, -, t, s, found, path, ⟨o, level, extended⟩, rfl, rfl⟩
    obtain ⟨ids, u, walk, nodup, -, rfl⟩ := mem_grow_start.mp level
    exact ⟨t, found, ids, u, walk, nodup, extended⟩
  · rintro ⟨t, found, ids, u, walk, nodup, extended⟩
    have bound := walk.length_lt (List.mem_of_getElem? found) nodup
    have level := mem_grow_start.mpr ⟨ids, u, walk, nodup, rfl, rfl⟩
    exact ⟨ids.length, bound, t, s, found, path, ⟨_, level, extended⟩, rfl, rfl⟩

theorem map_snd_listing (types : List ContentType) (extend : Open → List Path) :
    (listing types extend).map (·.2) = (List.range types.length).flatMap fun n =>
      (grow types n (types.map .start)).flatMap extend := by
  have side : types.map Open.start = types.zipIdx.flatMap fun start => [.start start.1] := by
    rw [← List.map_eq_flatMap, ← List.zipIdx_map_fst 0 types, List.map_map]
    simp [Function.comp_def]
  simp only [listing, side, grow_flatMap, List.map_flatMap, List.map_map, Function.comp_def,
    List.map_id', List.flatMap_assoc]

theorem explore_eq (types : List ContentType) (rounds : Nat) (level : List Open) :
    explore types rounds level =
      ((List.range rounds).flatMap fun n => (grow types n level).flatMap (·.chains),
        (List.range rounds).flatMap fun n => (grow types n level).flatMap (·.closed)) := by
  induction rounds generalizing level with
  | zero => rfl
  | succ n ih =>
    rw [explore, ih]
    simp only [List.range_succ_eq_map, List.flatMap_cons, List.flatMap_map, grow]

/-! The order of a listing -/

/-- Of two paths of one length the smaller one stays smaller, whatever is added to them. -/
theorem append_lt_append {p q : Path} (lt : p < q) (length : p.length = q.length) (a b : Path) :
    p ++ a < q ++ b := by
  have lex : List.Lex (· < ·) p q := lt
  show List.Lex (· < ·) (p ++ a) (q ++ b)
  induction lex with
  | nil => simp at length
  | rel less => exact .rel less
  | cons _ ih =>
    rw [List.length_cons, List.length_cons, Nat.add_right_cancel_iff] at length
    exact .cons (ih ‹_› length)

/-- Extending a rising level by some of its links, in order, gives rising paths. -/
theorem rising_flatMap {level : List Open} {extend : Open → List Path} {n : Nat}
    (links : ∀ o, (extend o).Sublist (o.links.map fun id => o.path ++ [id]))
    (rising : level.Pairwise (·.path < ·.path)) (length : ∀ o ∈ level, o.path.length = n)
    (sorted : ∀ o ∈ level, o.links.Pairwise (· < ·)) :
    (level.flatMap extend).Pairwise (· < ·) := by
  rw [List.pairwise_flatMap]
  constructor
  · intro o member
    apply List.Pairwise.sublist (links o)
    rw [List.pairwise_map]
    apply (sorted o member).imp
    intro id other lt
    exact List.append_left_lt (.rel lt)
  · apply rising.imp_of_mem
    intro o other member otherMember lt path pathMember otherPath otherPathMember
    obtain ⟨id, -, rfl⟩ := List.mem_map.mp ((links o).subset pathMember)
    obtain ⟨otherId, -, rfl⟩ := List.mem_map.mp ((links other).subset otherPathMember)
    apply append_lt_append lt
    rw [length o member, length other otherMember]

theorem chains_sublist (o : Open) : o.chains.Sublist (o.links.map fun id => o.path ++ [id]) :=
  List.filter_sublist.map _

theorem closed_sublist (o : Open) : o.closed.Sublist (o.links.map fun id => o.path ++ [id]) :=
  List.filter_sublist.map _

theorem next_sublist (types : List ContentType) (o : Open) :
    ((o.next types).map (·.path)).Sublist (o.links.map fun id => o.path ++ [id]) := by
  unfold Open.next
  have unvisited : (o.links.filter (· ∉ o.path)).Sublist o.links := List.filter_sublist
  refine .trans ?_ (unvisited.map _)
  generalize o.links.filter (· ∉ o.path) = links
  induction links with
  | nil => exact .slnil
  | cons id links ih =>
    cases found : target? types id with
    | none =>
      rw [List.filterMap_cons_none (by rw [found, Option.map_none]), List.map_cons]
      exact ih.cons _
    | some t =>
      rw [List.filterMap_cons_some (by rw [found, Option.map_some]), List.map_cons, List.map_cons]
      exact ih.cons_cons _

section Level

variable {types : List ContentType} {t : ContentType} {n : Nat} {extend : Open → List Path}

theorem length_of_mem_grow {o : Open} (member : o ∈ grow types n [.start t]) :
    o.path.length = n + 1 := by
  obtain ⟨ids, u, -, -, length, rfl⟩ := mem_grow_start.mp member
  rw [List.length_cons, length]

theorem sorted_of_mem_grow {o : Open} (member : o ∈ grow types n [.start t]) :
    o.links.Pairwise (· < ·) := by
  obtain ⟨ids, u, -, -, -, rfl⟩ := mem_grow_start.mp member
  exact u.links.rising

theorem length_of_mem_extended
    (links : ∀ o, (extend o).Sublist (o.links.map fun id => o.path ++ [id])) {path : Path}
    (member : path ∈ (grow types n [.start t]).flatMap extend) : path.length = n + 2 := by
  obtain ⟨o, level, extended⟩ := List.mem_flatMap.mp member
  obtain ⟨id, -, rfl⟩ := List.mem_map.mp ((links o).subset extended)
  rw [List.length_append, length_of_mem_grow level, List.length_singleton]

theorem rising_grow (types : List ContentType) (t : ContentType) (n : Nat) :
    (grow types n [.start t]).Pairwise (·.path < ·.path) := by
  induction n with
  | zero => exact List.pairwise_singleton ..
  | succ n ih =>
    rw [grow_succ, ← List.pairwise_map, List.map_flatMap]
    apply rising_flatMap (next_sublist types) ih
    · intro o member
      exact length_of_mem_grow member
    · intro o member
      exact sorted_of_mem_grow member

theorem pairwise_zipIdx (types : List ContentType) : types.zipIdx.Pairwise (·.2 < ·.2) := by
  rw [← List.pairwise_map, List.zipIdx_map_snd]
  exact List.pairwise_lt_range'

/-- A listing is in order, so it lists nothing twice. -/
theorem pairwise_listing (types : List ContentType)
    (links : ∀ o, (extend o).Sublist (o.links.map fun id => o.path ++ [id])) :
    (listing types extend).Pairwise Placed.Before := by
  unfold listing
  -- Levels differ in the length of their paths, starts of one level in their place, and paths of one
  -- start in their links.
  rw [List.pairwise_flatMap]
  constructor
  · intro n _
    rw [List.pairwise_flatMap]
    constructor
    · intro start _
      have rising := rising_flatMap links (rising_grow types start.1 n)
        (fun o => length_of_mem_grow) (fun o => sorted_of_mem_grow)
      rw [List.pairwise_map]
      apply rising.imp_of_mem
      intro path other member otherMember lt
      refine .inr ⟨?_, .inr ⟨rfl, lt⟩⟩
      rw [length_of_mem_extended links member, length_of_mem_extended links otherMember]
    · apply (pairwise_zipIdx types).imp
      intro start other lt placed member otherPlaced otherMember
      obtain ⟨path, extended, rfl⟩ := List.mem_map.mp member
      obtain ⟨otherPath, otherExtended, rfl⟩ := List.mem_map.mp otherMember
      refine .inr ⟨?_, .inl lt⟩
      rw [length_of_mem_extended links extended, length_of_mem_extended links otherExtended]
  · apply List.pairwise_lt_range.imp
    intro n m lt placed member otherPlaced otherMember
    obtain ⟨start, -, placedAt⟩ := List.mem_flatMap.mp member
    obtain ⟨path, extended, rfl⟩ := List.mem_map.mp placedAt
    obtain ⟨other, -, otherAt⟩ := List.mem_flatMap.mp otherMember
    obtain ⟨otherPath, otherExtended, rfl⟩ := List.mem_map.mp otherAt
    left
    rw [length_of_mem_extended links extended, length_of_mem_extended links otherExtended]
    omega

end Level

/-! The two lists of paths -/

/-- The paths of one type stand before all others. -/
def placedChains (types : List ContentType) : List Placed :=
  types.zipIdx.map (fun start => (start.2, [start.1.id])) ++ listing types (·.chains)

def placedClosed (types : List ContentType) : List Placed :=
  listing types (·.closed)

theorem paths_eq (types : List ContentType) :
    paths types = ((placedChains types).map (·.2), (placedClosed types).map (·.2)) := by
  have starts : types.map (fun t => [t.id]) =
      (types.zipIdx.map fun start => (start.2, [start.1.id])).map (·.2) := by
    rw [List.map_map, ← List.zipIdx_map_fst 0 types, List.map_map]
    simp [Function.comp_def]
  simp only [paths, explore_eq, placedChains, placedClosed, List.map_append, map_snd_listing,
    starts]

theorem mem_placedChains {types : List ContentType} {s : Nat} {path : Path} :
    (s, path) ∈ placedChains types ↔ ∃ t, types[s]? = some t ∧ IsChain types t path := by
  simp only [placedChains, List.mem_append, mem_listing, Open.chains, List.mem_map,
    List.mem_filter, decide_eq_true_eq, List.mem_zipIdx_iff_getElem?, Prod.mk.injEq, Prod.exists]
  constructor
  · rintro (⟨t, _, found, rfl, rfl⟩ | ⟨t, found, ids, u, walk, nodup, id, ⟨link, fresh⟩, rfl⟩)
    · exact ⟨t, found, by simp, .inl rfl⟩
    · exact ⟨t, found, nodup_concat.mpr ⟨nodup, fresh⟩, .inr ⟨ids, u, id, walk, link, rfl⟩⟩
  · rintro ⟨t, found, nodup, rfl | ⟨ids, u, id, walk, link, rfl⟩⟩
    · exact .inl ⟨t, s, found, rfl, rfl⟩
    · obtain ⟨nodup, fresh⟩ := nodup_concat.mp nodup
      exact .inr ⟨t, found, ids, u, walk, nodup, id, ⟨link, fresh⟩, rfl⟩

theorem mem_placedClosed {types : List ContentType} {s : Nat} {path : Path} :
    (s, path) ∈ placedClosed types ↔ ∃ t, types[s]? = some t ∧ IsClosedChain types t path := by
  simp only [placedClosed, mem_listing, Open.closed, List.mem_map, List.mem_filter,
    decide_eq_true_eq]
  constructor
  · rintro ⟨t, found, ids, u, walk, nodup, id, ⟨link, back⟩, rfl⟩
    exact ⟨t, found, ids, u, id, walk, nodup, link, back, rfl⟩
  · rintro ⟨t, found, ids, u, id, walk, nodup, link, back, rfl⟩
    exact ⟨t, found, ids, u, walk, nodup, id, ⟨link, back⟩, rfl⟩

/-- Without their places, paths that are placed where they start are those of any type. -/
theorem mem_map_placed {types : List ContentType} {placed : List Placed} {path : Path}
    {starts : ContentType → Path → Prop}
    (each : ∀ s path, (s, path) ∈ placed ↔ ∃ t, types[s]? = some t ∧ starts t path) :
    path ∈ placed.map (·.2) ↔ ∃ t ∈ types, starts t path := by
  simp only [List.mem_map, Prod.exists, exists_eq_right, each]
  constructor
  · rintro ⟨s, t, found, starts⟩
    exact ⟨t, List.mem_of_getElem? found, starts⟩
  · rintro ⟨t, member, starts⟩
    obtain ⟨s, found⟩ := List.mem_iff_getElem?.mp member
    exact ⟨s, t, found, starts⟩

theorem mem_chains_iff {types : List ContentType} {path : Path} :
    path ∈ (paths types).1 ↔ ∃ t ∈ types, IsChain types t path := by
  rw [paths_eq]
  exact mem_map_placed fun _ _ => mem_placedChains

theorem mem_closed_iff {types : List ContentType} {path : Path} :
    path ∈ (paths types).2 ↔ ∃ t ∈ types, IsClosedChain types t path := by
  rw [paths_eq]
  exact mem_map_placed fun _ _ => mem_placedClosed

/-- Every path is that of one type, or a walk without a repeated id and one link more. -/
theorem exists_walk_of_mem_paths {types : List ContentType} {path : Path}
    (member : path ∈ (paths types).1 ++ (paths types).2) : ∃ t ∈ types, path = [t.id] ∨
      ∃ ids u id, Leads types t ids u ∧ (t.id :: ids).Nodup ∧ id ∈ u.links ∧
        path = t.id :: ids ++ [id] := by
  obtain chain | closed := List.mem_append.mp member
  · obtain ⟨t, start, nodup, rfl | ⟨ids, u, id, walk, link, rfl⟩⟩ := mem_chains_iff.mp chain
    · exact ⟨t, start, .inl rfl⟩
    · exact ⟨t, start, .inr ⟨ids, u, id, walk, (nodup_concat.mp nodup).1, link, rfl⟩⟩
  · obtain ⟨t, start, ids, u, id, walk, nodup, link, -, rfl⟩ := mem_closed_iff.mp closed
    exact ⟨t, start, .inr ⟨ids, u, id, walk, nodup, link, rfl⟩⟩

theorem pairwise_placedChains (types : List ContentType) :
    (placedChains types).Pairwise Placed.Before := by
  unfold placedChains
  rw [List.pairwise_append]
  refine ⟨?_, pairwise_listing types chains_sublist, ?_⟩
  · rw [List.pairwise_map]
    exact (pairwise_zipIdx types).imp fun lt => .inr ⟨rfl, .inl lt⟩
  · intro first firstMember second secondMember
    obtain ⟨start, -, rfl⟩ := List.mem_map.mp firstMember
    obtain ⟨s, path⟩ := second
    obtain ⟨t, -, ids, u, walk, -, extended⟩ := mem_listing.mp secondMember
    obtain ⟨id, -, rfl⟩ := List.mem_map.mp ((chains_sublist _).subset extended)
    left
    simp only [List.length_append, List.length_cons, List.length_nil]
    omega

theorem Placed.Before.ne {a b : Placed} (before : a.Before b) : a ≠ b := by
  intro same
  subst same
  obtain shorter | ⟨-, earlier | ⟨-, smaller⟩⟩ := before
  · exact Nat.lt_irrefl _ shorter
  · exact Nat.lt_irrefl _ earlier
  · exact List.lt_irrefl _ smaller

theorem maxDepth_eq_some_iff {types : List ContentType} {depth : Nat} :
    (stats types).maxDepth = some depth ↔
      (∃ path ∈ (paths types).1 ++ (paths types).2, path.length = depth) ∧
        ∀ path ∈ (paths types).1 ++ (paths types).2, path.length ≤ depth := by
  simp only [stats, List.max?_eq_some_iff, List.mem_map, forall_exists_index, and_imp,
    forall_apply_eq_imp_iff₂]

theorem maxDepth_eq_none_iff {types : List ContentType} :
    (stats types).maxDepth = none ↔ types = [] := by
  simp only [stats, List.max?_eq_none_iff, List.map_eq_nil_iff, List.append_eq_nil_iff]
  constructor
  · intro nothing
    have starts := nothing.1
    simp only [paths, List.append_eq_nil_iff, List.map_eq_nil_iff] at starts
    exact starts.1
  · intro nothing
    subst nothing
    exact ⟨rfl, rfl⟩

/-- Before they are joined to texts, the chains are the paths without a repeated id that follow
links, one for each place a path can start at, and the closed chains are such paths with a link
back. Both lists are in order, and the depth is that of the longest path of either. -/
theorem stats_enumerates (types : List ContentType) :
    ∃ chains closed : List Placed,
      paths types = (chains.map (·.2), closed.map (·.2)) ∧
      (stats types).chains = (paths types).1.map (String.intercalate ">") ∧
      (stats types).closedChains = (paths types).2.map (String.intercalate ">") ∧
      (∀ s path, (s, path) ∈ chains ↔ ∃ t, types[s]? = some t ∧ IsChain types t path) ∧
      (∀ s path, (s, path) ∈ closed ↔ ∃ t, types[s]? = some t ∧ IsClosedChain types t path) ∧
      chains.Nodup ∧ chains.Pairwise Placed.Before ∧
      closed.Nodup ∧ closed.Pairwise Placed.Before ∧
      (stats types).total = types.length ∧
      (∀ depth, (stats types).maxDepth = some depth ↔
        (∃ path ∈ (paths types).1 ++ (paths types).2, path.length = depth) ∧
          ∀ path ∈ (paths types).1 ++ (paths types).2, path.length ≤ depth) ∧
      ((stats types).maxDepth = none ↔ types = []) := by
  have chainOrder := pairwise_placedChains types
  have closedOrder : (placedClosed types).Pairwise Placed.Before :=
    pairwise_listing types closed_sublist
  refine ⟨placedChains types, placedClosed types, paths_eq types, rfl, rfl,
    fun _ _ => mem_placedChains, fun _ _ => mem_placedClosed, ?_, chainOrder, ?_, closedOrder, rfl,
    fun _ => maxDepth_eq_some_iff, maxDepth_eq_none_iff⟩
  · exact chainOrder.imp Placed.Before.ne
  · exact closedOrder.imp Placed.Before.ne

end ContentSchema.Chains
