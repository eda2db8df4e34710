import ContentSchema.Chains
/-!
Walks along links. `Leads` says where a list of links ends, and the levels of the exploration hold
exactly the walks of their length that repeat no id (`mem_grow_start`). No walk without a repeated
id is as long as there are types (`Leads.length_lt`).
-/
namespace ContentSchema.Chains

/-- Following links from the first type by way of the ids ends at the second. Every id on the way
has a type; the first type's own links are those it is left by. -/
inductive Leads (types : List ContentType) : ContentType → List String → ContentType → Prop where
  | here (t : ContentType) : Leads types t [] t
  | step {t u v : ContentType} {id : String} {ids : List String} :
      id ∈ t.links → target? types id = some u → Leads types u ids v → Leads types t (id :: ids) v

/-- The level that is so many links beyond the given one. -/
def grow (types : List ContentType) : Nat → List Open → List Open
  | 0, level => level
  | n + 1, level => grow types n (level.flatMap (·.next types))

theorem isSome_target? {types : List ContentType} {id : String} :
    (target? types id).isSome ↔ id ∈ types.map (·.id) := by
  simp [target?, List.find?_isSome]

theorem of_target? {types : List ContentType} {u : ContentType} {id : String}
    (found : target? types id = some u) : u ∈ types ∧ u.id = id := by
  rw [target?] at found
  have named := List.find?_some found
  exact ⟨List.mem_reverse.mp (List.mem_of_find?_eq_some found), by simpa using named⟩

namespace Leads

variable {types : List ContentType} {t u v : ContentType} {id : String} {ids : List String}

theorem concat (walk : Leads types t ids u) (link : id ∈ u.links)
    (described : target? types id = some v) : Leads types t (ids ++ [id]) v := by
  induction walk with
  | here t => exact .step link described (.here v)
  | step first next _ ih => exact .step first next (ih link)

/-- The last link of a walk, and the walk before it. -/
theorem of_concat (walk : Leads types t (ids ++ [id]) v) :
    ∃ u, Leads types t ids u ∧ id ∈ u.links ∧ target? types id = some v := by
  induction ids generalizing t with
  | nil =>
    obtain _ | ⟨link, described, rest⟩ := walk
    cases rest
    exact ⟨t, .here t, link, described⟩
  | cons first ids ih =>
    obtain _ | ⟨link, described, rest⟩ := walk
    obtain ⟨u, before, last, target⟩ := ih rest
    exact ⟨u, .step link described before, last, target⟩

theorem described (walk : Leads types t ids u) : ∀ id ∈ ids, id ∈ types.map (·.id) := by
  induction walk with
  | here t => simp
  | step _ found _ ih =>
    intro id member
    obtain rfl | later := List.mem_cons.mp member
    · apply isSome_target?.mp
      rw [found, Option.isSome_some]
    · exact ih id later

theorem mem_types (walk : Leads types t ids u) (start : t ∈ types) : u ∈ types := by
  induction walk with
  | here t => exact start
  | step _ found _ ih => exact ih (of_target? found).1

/-- Every id that a walk from one of the types visits has a type. -/
theorem visited_described (walk : Leads types t ids u) (start : t ∈ types) :
    ∀ id ∈ t.id :: ids, id ∈ types.map (·.id) := by
  intro id member
  obtain rfl | later := List.mem_cons.mp member
  · exact List.mem_map_of_mem start
  · exact walk.described id later

/-- A walk that repeats no id has fewer links than there are types, since its start is one of
them. -/
theorem length_lt (walk : Leads types t ids u) (start : t ∈ types) (nodup : (t.id :: ids).Nodup) :
    ids.length < types.length := by
  have bound := nodup.length_le_of_subset (walk.visited_described start)
  rw [List.length_cons, List.length_map] at bound
  omega

end Leads

/-- The last link of a level is the last step of its growth. -/
theorem grow_succ (types : List ContentType) (n : Nat) (level : List Open) :
    grow types (n + 1) level = (grow types n level).flatMap (·.next types) := by
  induction n generalizing level with
  | zero => rfl
  | succ n ih => rw [grow, ih, grow]

theorem grow_flatMap {α : Type} (types : List ContentType) (n : Nat) (f : α → List Open)
    (as : List α) : grow types n (as.flatMap f) = as.flatMap fun a => grow types n (f a) := by
  induction n generalizing f with
  | zero => rfl
  | succ n ih => simp only [grow, List.flatMap_assoc, ih]

theorem mem_next {types : List ContentType} {o next : Open} :
    next ∈ o.next types ↔ ∃ id t, id ∈ o.links ∧ id ∉ o.path ∧ target? types id = some t ∧
      next = ⟨o.path ++ [id], t.links.toList⟩ := by
  simp only [Open.next, List.mem_filterMap, List.mem_filter, decide_eq_true_eq,
    Option.map_eq_some_iff]
  constructor
  · rintro ⟨id, ⟨link, fresh⟩, t, target, rfl⟩
    exact ⟨id, t, link, fresh, target, rfl⟩
  · rintro ⟨id, t, link, fresh, target, rfl⟩
    exact ⟨id, ⟨link, fresh⟩, t, target, rfl⟩

/-- An id behind a path without repetitions repeats nothing exactly if it is new to the path. -/
theorem nodup_concat {path : Path} {id : String} :
    (path ++ [id]).Nodup ↔ path.Nodup ∧ id ∉ path := by
  simp only [List.nodup_append, List.mem_singleton, forall_eq]
  constructor
  · rintro ⟨nodup, -, apart⟩
    exact ⟨nodup, fun member => apart id member rfl⟩
  · rintro ⟨nodup, fresh⟩
    exact ⟨nodup, by simp, fun x member eq => fresh (eq ▸ member)⟩

/-- A level holds the walks of its length that repeat no id, and nothing else. -/
theorem mem_grow_start {types : List ContentType} {t : ContentType} {n : Nat} {o : Open} :
    o ∈ grow types n [.start t] ↔ ∃ ids u, Leads types t ids u ∧ (t.id :: ids).Nodup ∧
      ids.length = n ∧ o = ⟨t.id :: ids, u.links.toList⟩ := by
  induction n generalizing o with
  | zero =>
    rw [grow, List.mem_singleton]
    constructor
    · rintro rfl
      exact ⟨[], t, .here t, by simp, rfl, rfl⟩
    · rintro ⟨ids, u, walk, -, none, rfl⟩
      obtain rfl := List.eq_nil_of_length_eq_zero none
      cases walk
      rfl
  | succ n ih =>
    rw [grow_succ, List.mem_flatMap]
    constructor
    · rintro ⟨before, member, next⟩
      obtain ⟨ids, u, walk, nodup, length, rfl⟩ := ih.mp member
      obtain ⟨id, v, link, fresh, target, rfl⟩ := mem_next.mp next
      refine ⟨ids ++ [id], v, walk.concat link target, ?_, by simp [length], rfl⟩
      exact nodup_concat.mpr ⟨nodup, fresh⟩
    · rintro ⟨ids, v, walk, nodup, length, rfl⟩
      obtain ⟨front, id, rfl⟩ : ∃ front id, ids = front ++ [id] := by
        have nonempty : ids ≠ [] := List.ne_nil_of_length_eq_add_one length
        exact ⟨ids.dropLast, ids.getLast nonempty, (List.dropLast_concat_getLast nonempty).symm⟩
      obtain ⟨u, walk, link, target⟩ := walk.of_concat
      rw [← List.cons_append, nodup_concat] at nodup
      rw [List.length_append, List.length_singleton, Nat.add_right_cancel_iff] at length
      refine ⟨⟨t.id :: front, u.links.toList⟩, ih.mpr ⟨front, u, walk, nodup.1, length, rfl⟩, ?_⟩
      exact mem_next.mpr ⟨id, v, link, nodup.2, target, rfl⟩

end ContentSchema.Chains
