import ContentSchema.Proofs.Chains.Enumeration
import ContentSchema.Proofs.Schema.Reformatted
/-!
Chains as texts. Separators within ids are not told from those between ids, so two paths are one
text if their ids come to the same pieces between separators (`Text.join_eq_join_iff`). That cannot
happen where no id begins with another one and a separator (`Text.eq_of_join_eq`), and then the
chains of a document are told apart by their texts (`Schema.chains_of_strict`).
-/
namespace ContentSchema

namespace Text

variable {sep : Char} {id : String} {ids p q : List String}

theorem toList_join_cons (sep : Char) (id : String) (rest : List String) :
    (join sep (id :: rest)).toList =
      id.toList ++ rest.flatMap fun other => sep :: other.toList := by
  rw [toList_join]
  induction rest generalizing id with
  | nil => simp
  | cons other rest ih =>
    rw [List.map_cons, List.map_cons, List.intercalate_cons_cons, ← List.map_cons, ih,
      List.flatMap_cons, List.append_assoc]
    rfl

/-- A joined text is cut within its pieces too. -/
theorem split_join (nonempty : p ≠ []) : split sep (join sep p) = p.flatMap (split sep) := by
  induction p with
  | nil => contradiction
  | cons id rest ih =>
    cases rest with
    | nil => simp [join]
    | cons other rest =>
      have text : (join sep (id :: other :: rest)).toList =
          id.toList ++ sep :: (join sep (other :: rest)).toList := by
        rw [toList_join_cons, toList_join_cons, List.flatMap_cons, List.cons_append]
      rw [split, text, List.splitOn_append_cons_self, List.map_append, List.flatMap_cons,
        ← ih (List.cons_ne_nil other rest)]
      rfl

/-- Lists have the same text exactly if they come to the same pieces. -/
theorem join_eq_join_iff (nonempty : p ≠ []) (nonempty' : q ≠ []) :
    join sep p = join sep q ↔ p.flatMap (split sep) = q.flatMap (split sep) := by
  rw [← split_join nonempty, ← split_join nonempty']
  constructor
  · exact congrArg (split sep)
  · intro same
    rw [← join_split sep (join sep p), same, join_split]

/-- No id begins with another one, or with itself, and a separator. -/
def PrefixFree (sep : Char) (ids : List String) : Prop :=
  ∀ id ∈ ids, ∀ other ∈ ids, ¬ (id.toList ++ [sep]) <+: other.toList

/-- Of two ids at the front of one text, one does not go on beyond the other. -/
theorem eq_nil_of_overlap {x y extra behind : List Char} {rest : List String}
    (free : ¬ (x ++ [sep]) <+: y) (longer : y = x ++ extra)
    (text : (rest.flatMap fun other => sep :: other.toList) = extra ++ behind) : extra = [] := by
  cases extra with
  | nil => rfl
  | cons c extra =>
    cases rest with
    | nil => contradiction
    | cons other rest =>
      rw [List.flatMap_cons, List.cons_append, List.cons_append, List.cons.injEq] at text
      obtain ⟨rfl, -⟩ := text
      exact absurd ⟨extra, by rw [longer, List.append_assoc, List.singleton_append]⟩ free

/-- Ids none of which begins with another one and a separator can be read back from their text. -/
theorem eq_of_join_eq (free : PrefixFree sep ids) (nonempty : p ≠ []) (nonempty' : q ≠ [])
    (inside : p ⊆ ids) (inside' : q ⊆ ids) (same : join sep p = join sep q) : p = q := by
  induction p generalizing q with
  | nil => contradiction
  | cons x p ih =>
    obtain ⟨y, q, rfl⟩ := List.exists_cons_of_ne_nil nonempty'
    rw [List.cons_subset] at inside inside'
    have text := congrArg String.toList same
    rw [toList_join_cons, toList_join_cons] at text
    have first : x.toList = y.toList := by
      obtain ⟨extra, longer, rest⟩ | ⟨extra, longer, rest⟩ := List.append_eq_append_iff.mp text
      · rw [longer, eq_nil_of_overlap (free x inside.1 y inside'.1) longer rest, List.append_nil]
      · rw [longer, eq_nil_of_overlap (free y inside'.1 x inside.1) longer rest, List.append_nil]
    rw [first, List.append_cancel_left_eq] at text
    cases p with
    | nil =>
      cases q with
      | nil => rw [String.toList_inj.mp first]
      | cons y' q => contradiction
    | cons x' p =>
      cases q with
      | nil => contradiction
      | cons y' q =>
        rw [List.flatMap_cons, List.flatMap_cons, List.cons_append, List.cons_append,
          List.cons.injEq, ← toList_join_cons, ← toList_join_cons] at text
        rw [String.toList_inj.mp first, ih (List.cons_ne_nil x' p) (List.cons_ne_nil y' q) inside.2
          inside'.2 (String.toList_inj.mp text.2)]

end Text

namespace Chains

variable {types : List ContentType} {path : Path}

theorem head?_of_isChain {t : ContentType} (chain : IsChain types t path) :
    path.head? = some t.id := by
  obtain ⟨-, rfl | ⟨ids, u, id, -, -, rfl⟩⟩ := chain <;> rfl

theorem head?_of_isClosedChain {t : ContentType} (closed : IsClosedChain types t path) :
    path.head? = some t.id := by
  obtain ⟨ids, u, id, -, -, -, -, rfl⟩ := closed
  rfl

/-- Where ids are distinct, a path tells where it starts, so no path is listed twice. -/
theorem nodup_map_placed {placed : List Placed} {starts : ContentType → Path → Prop}
    (distinct : (types.map (·.id)).Nodup) (nodup : placed.Nodup)
    (each : ∀ s path, (s, path) ∈ placed ↔ ∃ t, types[s]? = some t ∧ starts t path)
    (head : ∀ t path, starts t path → path.head? = some t.id) : (placed.map (·.2)).Nodup := by
  apply List.Nodup.map_on _ nodup
  rintro ⟨s, path⟩ member ⟨s', _⟩ member' rfl
  obtain ⟨t, found, starts⟩ := (each s path).mp member
  obtain ⟨t', found', starts'⟩ := (each s' path).mp member'
  have same : t.id = t'.id :=
    Option.some.inj ((head t path starts).symm.trans (head t' path starts'))
  have bound : s < (types.map (·.id)).length := by
    rw [List.length_map]
    exact (List.getElem?_eq_some_iff.mp found).1
  have place : s = s' := (List.getElem?_inj bound distinct).mp (by simp [found, found', same])
  rw [place]

/-- No path is listed twice, be it as a chain or as a closed chain. -/
theorem nodup_paths (distinct : (types.map (·.id)).Nodup) :
    ((paths types).1 ++ (paths types).2).Nodup := by
  refine List.nodup_append.mpr ⟨?_, ?_, ?_⟩
  · rw [paths_eq]
    exact nodup_map_placed distinct ((pairwise_placedChains types).imp Placed.Before.ne)
      (fun _ _ => mem_placedChains) fun _ _ => head?_of_isChain
  · rw [paths_eq]
    exact nodup_map_placed distinct ((pairwise_listing types closed_sublist).imp Placed.Before.ne)
      (fun _ _ => mem_placedClosed) fun _ _ => head?_of_isClosedChain
  · rintro path chain _ closed rfl
    obtain ⟨t, -, nodup, -⟩ := mem_chains_iff.mp chain
    obtain ⟨t, -, ids, u, id, -, -, -, back, rfl⟩ := mem_closed_iff.mp closed
    exact (nodup_concat.mp nodup).2 back

theorem ne_nil_of_mem_paths (member : path ∈ (paths types).1 ++ (paths types).2) : path ≠ [] := by
  obtain ⟨t, -, rfl | ⟨ids, u, id, -, -, -, rfl⟩⟩ := exists_walk_of_mem_paths member <;>
    exact List.cons_ne_nil _ _

/-- Where all links lead to types, the paths hold ids of types only. -/
theorem described_of_mem_paths (linked : ∀ t ∈ types, ∀ id ∈ t.links, id ∈ types.map (·.id))
    (member : path ∈ (paths types).1 ++ (paths types).2) : path ⊆ types.map (·.id) := by
  obtain ⟨t, start, rfl | ⟨ids, u, id, walk, -, link, rfl⟩⟩ := exists_walk_of_mem_paths member
  · exact List.cons_subset.mpr ⟨List.mem_map_of_mem start, List.nil_subset _⟩
  · have last := linked u (walk.mem_types start) id link
    exact List.append_subset.mpr ⟨walk.visited_described start,
      List.cons_subset.mpr ⟨last, List.nil_subset _⟩⟩

end Chains

namespace Schema

open Chains

variable {fresh : Nat → String} {source : String} {s : Schema}

/-- The chains of a document that the strict rules accept are the texts of distinct paths. Two of
these have the same text exactly if their ids come to the same pieces between separators, and none
have if no id of a type begins with that of another and a separator. -/
theorem chains_of_strict (parsed : parse fresh .strict .standard source = .ok s) :
    s.stats.chains = (paths s.types).1.map (Text.join '>') ∧
    s.stats.closedChains = (paths s.types).2.map (Text.join '>') ∧
    ((paths s.types).1 ++ (paths s.types).2).Nodup ∧
    (∀ p ∈ (paths s.types).1 ++ (paths s.types).2, ∀ q ∈ (paths s.types).1 ++ (paths s.types).2,
      Text.join '>' p = Text.join '>' q ↔
        p.flatMap (Text.split '>') = q.flatMap (Text.split '>')) ∧
    ((∀ t ∈ s.types, ∀ u ∈ s.types, ¬ (t.id.toList ++ ['>']) <+: u.id.toList) →
      (s.stats.chains ++ s.stats.closedChains).Nodup) := by
  obtain ⟨es, _, described, -⟩ := parse_eq_ok_iff.mp parsed
  obtain ⟨-, integral, stats, -⟩ := of_parse_strict described parsed
  have distinct : (s.types.map (·.id)).Nodup :=
    integral.distinct.sublist ((List.sublist_append_left ..).map _)
  have linked : ∀ t ∈ s.types, ∀ id ∈ t.links, id ∈ s.types.map (·.id) := by
    intro t member id link
    obtain ⟨⟨u, inside, rfl⟩, -⟩ := integral.linked t (List.mem_append_left _ member) id link
    exact List.mem_map_of_mem inside
  have chains : s.stats.chains = (paths s.types).1.map (Text.join '>') := by rw [stats]; rfl
  have closed : s.stats.closedChains = (paths s.types).2.map (Text.join '>') := by rw [stats]; rfl
  refine ⟨chains, closed, nodup_paths distinct, ?_, ?_⟩
  · intro p member q member'
    exact Text.join_eq_join_iff (ne_nil_of_mem_paths member) (ne_nil_of_mem_paths member')
  · intro apart
    have free : Text.PrefixFree '>' (s.types.map (·.id)) := by
      simpa only [Text.PrefixFree, List.forall_mem_map] using apart
    rw [chains, closed, ← List.map_append]
    refine (nodup_paths distinct).map_on ?_
    intro p member q member'
    exact Text.eq_of_join_eq free (ne_nil_of_mem_paths member) (ne_nil_of_mem_paths member')
      (described_of_mem_paths linked member) (described_of_mem_paths linked member')

/-- A separator in an id does no harm if what stands before it is no id. -/
theorem chains_of_strict_inner : ∃ s,
    parse numbered .strict .standard "A a\nB>A[] x\nB>A b\nA[] y\n" = .ok s ∧
      (s.stats.chains ++ s.stats.closedChains).Nodup ∧
      s.stats.closedChains = ["A>B>A>A", "B>A>A>B>A"] := by
  let s := (parse numbered .strict .standard "A a\nB>A[] x\nB>A b\nA[] y\n").toOption.getD {}
  have parsed : parse numbered .strict .standard "A a\nB>A[] x\nB>A b\nA[] y\n" = .ok s := by
    decide +kernel
  obtain ⟨-, -, -, -, nodup⟩ := chains_of_strict parsed
  exact ⟨s, parsed, nodup (by decide +kernel), by decide +kernel⟩

/-- The types A and A>A, which link to each other, are told in either order by one text. -/
theorem chains_share_text : ∃ s,
    parse numbered .strict .standard "A a\nA>A[] x\nA>A b\nA,A>A[] y\n" = .ok s ∧
      s.stats.chains = ["A", "A>A", "A>A>A", "A>A>A"] ∧ ¬ s.stats.chains.Nodup ∧
      s.stats.closedChains = ["A>A>A>A", "A>A>A>A", "A>A>A>A>A", "A>A>A>A>A"] ∧
      ¬ s.stats.closedChains.Nodup := by
  let s := (parse numbered .strict .standard
    "A a\nA>A[] x\nA>A b\nA,A>A[] y\n").toOption.getD {}
  exact ⟨s, by decide +kernel, by decide +kernel, by decide +kernel, by decide +kernel,
    by decide +kernel⟩

end Schema

end ContentSchema
