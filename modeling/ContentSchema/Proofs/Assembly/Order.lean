import ContentSchema.Proofs.Assembly.Restated
import ContentSchema.Proofs.Assembly.Strict
/-!
The order of the blocks of a document. A block that begins with a labelled type takes nothing from
the one before it, so the types of a document are those of its blocks (`Assembly.blocks_flatten`).
Strict assembly accepts a document in every order of its blocks or in none, and each block contributes
the same types wherever it stands (`Assembly.strict_of_perm`).
-/
namespace ContentSchema

namespace Components

variable {run : Run} {es rest : List Entry}

theorem front_append (closed : Closed rest) : front run (es ++ rest) = front run es := by
  induction es generalizing run with
  | nil => exact front_of_closed closed
  | cons e es ih => rw [List.cons_append, front, front, ih]

/-- What stands behind entries takes nothing from them, if it does not begin with a component. -/
theorem attach_append (closed : Closed rest) :
    attach run (es ++ rest) = attach run es ++ attach .closed rest := by
  induction es generalizing run with
  | nil => exact attach_of_closed closed
  | cons e es ih =>
    rw [List.cons_append, attach, attach, ih, ih, ih, front_append closed]
    split
    · rw [List.cons_append]
    · split <;> rw [List.cons_append]

end Components

namespace Blocks

theorem split_append_of_front {ps rest : List Property} (front : (split rest).1 = []) :
    split (ps ++ rest) = ((split ps).1, (split ps).2 ++ (split rest).2) := by
  induction ps with
  | nil => exact Prod.ext front rfl
  | cons p ps ih =>
    rw [List.cons_append, split, split, ih]
    cases p.typeId? with
    | none => rfl
    | some id => rfl

end Blocks

namespace Assembly

variable {es : List Entry} {bs cs : List (List Entry)}

/-- The entries begin with a type that has a label. -/
def Labelled (es : List Entry) : Prop :=
  ∃ e ∈ es.head?, e.property.kind = .type ∧ e.property.label ≠ ""

theorem Labelled.closed (labelled : Labelled es) : Components.Closed es := by
  obtain ⟨first, isFirst, _, label⟩ := labelled
  intro e same
  rw [isFirst] at same
  cases same
  exact if_neg label

theorem Labelled.front (labelled : Labelled es) : (Blocks.split (properties es)).1 = [] := by
  obtain ⟨first, isFirst, isType, _⟩ := labelled
  rw [front_eq_nil_iff]
  intro e same
  rw [isFirst] at same
  cases same
  exact isType

section Flatten

variable (labelled : ∀ b ∈ bs, Labelled b)
include labelled

theorem closed_flatten : Components.Closed bs.flatten := by
  cases bs with
  | nil =>
    intro e first
    contradiction
  | cons b bs =>
    obtain ⟨e, isFirst, others⟩ := labelled b List.mem_cons_self
    apply Labelled.closed
    exact ⟨e, by rw [List.flatten_cons, List.head?_append, isFirst]; rfl, others⟩

theorem attach_flatten :
    Components.attach .closed bs.flatten = bs.flatMap (Components.attach .closed) := by
  induction bs with
  | nil => rfl
  | cons b bs ih =>
    rw [List.forall_mem_cons] at labelled
    rw [List.flatten_cons, Components.attach_append (closed_flatten labelled.2), ih labelled.2,
      List.flatMap_cons]

theorem properties_flatten : properties bs.flatten = bs.flatMap properties := by
  rw [properties, attach_flatten labelled, List.filter_flatMap, List.map_flatMap, List.map_flatMap]
  rfl

/-- The types of a document are those of its blocks. -/
theorem blocks_flatten : (Blocks.split (properties bs.flatten)).1 = [] ∧
    blocks bs.flatten = bs.flatMap blocks := by
  rw [blocks, properties_flatten labelled]
  induction bs with
  | nil => exact ⟨rfl, rfl⟩
  | cons b bs ih =>
    rw [List.forall_mem_cons] at labelled
    obtain ⟨front, types⟩ := ih labelled.2
    rw [List.flatMap_cons, Blocks.split_append_of_front front, types, List.flatMap_cons]
    exact ⟨labelled.1.front, rfl⟩

theorem mem_links_flatten {link : String} :
    link ∈ (references bs.flatten).links ↔ ∃ b ∈ bs, Linked b link := by
  rw [mem_links_iff_linked, Linked, attach_flatten labelled]
  constructor
  · rintro ⟨m, member, held⟩
    obtain ⟨b, block, inside⟩ := List.mem_flatMap.mp member
    exact ⟨b, block, m, inside, held⟩
  · rintro ⟨b, block, m, inside, held⟩
    exact ⟨m, List.mem_flatMap.mpr ⟨b, block, inside⟩, held⟩

omit labelled in
theorem mem_snippets_flatten {snippet : String} :
    snippet ∈ (references bs.flatten).snippets ↔ ∃ b ∈ bs, Referred b snippet := by
  rw [mem_snippets_iff_referred, Referred]
  constructor
  · rintro ⟨e, member, named⟩
    obtain ⟨b, block, inside⟩ := List.mem_flatten.mp member
    exact ⟨b, block, e, inside, named⟩
  · rintro ⟨b, block, e, inside, named⟩
    exact ⟨e, List.mem_flatten.mpr ⟨b, block, inside⟩, named⟩

end Flatten

/-- The types that a block contributes to a document in which these ids serve as snippets. -/
def contribution (snippets : IdSet) (b : List Entry) : Assembly where
  types := ((blocks b).map (·.relink id)).filter (·.id ∉ snippets)
  snippetTypes := ((blocks b).map (·.relink id)).filter (·.id ∈ snippets)

/-- What blocks contribute, in their order. -/
def contributions (snippets : IdSet) (bs : List (List Entry)) : Assembly where
  types := bs.flatMap fun b => (contribution snippets b).types
  snippetTypes := bs.flatMap fun b => (contribution snippets b).snippetTypes

theorem contribution_flatten (labelled : ∀ b ∈ bs, Labelled b) (snippets : IdSet) :
    contribution snippets bs.flatten = contributions snippets bs := by
  rw [contribution, (blocks_flatten labelled).2, List.map_flatMap]
  simp only [List.filter_flatMap]
  rfl

/-- Strict assembly of a document that begins with a type succeeds if its references are met and no
snippet type refers to a snippet. -/
theorem ofEntries_strict_eq_ok_iff {fresh : Nat → String} {typeStart : String} {a : Assembly}
    (front : (Blocks.split (properties es)).1 = []) :
    ofEntries fresh .strict typeStart es = .ok a ↔
      (references es).violation? ((blocks es).map (·.id)) = none ∧
        (∀ t ∈ blocks es, t.id ∈ (references es).snippets → t.snippets = ∅) ∧
        a = contribution (references es).snippets es := by
  rw [ofEntries_eq fresh .strict typeStart front]
  cases (references es).violation? ((blocks es).map (·.id)) with
  | some e => simp
  | none =>
    simp only [separate_eq_ok_iff, List.forall_mem_map, true_and]
    rfl

section Permuted

variable (labelled : ∀ b ∈ bs, Labelled b) (perm : bs.Perm cs)
include labelled perm

theorem labelled_of_perm : ∀ b ∈ cs, Labelled b :=
  fun b block => labelled b (perm.mem_iff.mpr block)

theorem references_of_perm : references bs.flatten = references cs.flatten := by
  have links : (references bs.flatten).links = (references cs.flatten).links := by
    ext link
    simp only [mem_links_flatten labelled, mem_links_flatten (labelled_of_perm labelled perm),
      perm.mem_iff]
  have snippets : (references bs.flatten).snippets = (references cs.flatten).snippets := by
    ext snippet
    simp only [mem_snippets_flatten, perm.mem_iff]
  exact congrArg₂ References.mk links snippets

theorem blocks_of_perm : (blocks bs.flatten).Perm (blocks cs.flatten) := by
  rw [(blocks_flatten labelled).2, (blocks_flatten (labelled_of_perm labelled perm)).2]
  exact perm.flatMap_right blocks

/-- None of the strict rules looks at the order of the blocks. -/
theorem ofEntries_of_perm {fresh : Nat → String} {typeStart : String} {a : Assembly}
    (accepted : ofEntries fresh .strict typeStart bs.flatten = .ok a) :
    a = contributions (references bs.flatten).snippets bs ∧
      ofEntries fresh .strict typeStart cs.flatten =
        .ok (contributions (references bs.flatten).snippets cs) := by
  have labelled' := labelled_of_perm labelled perm
  have refs := references_of_perm labelled perm
  have types := blocks_of_perm labelled perm
  rw [ofEntries_strict_eq_ok_iff (blocks_flatten labelled).1] at accepted
  rw [ofEntries_strict_eq_ok_iff (blocks_flatten labelled').1]
  obtain ⟨kept, flat, rfl⟩ := accepted
  refine ⟨contribution_flatten labelled _, ?_, ?_, ?_⟩
  · rw [References.violation?_eq_none_iff] at kept ⊢
    obtain ⟨distinct, links, snippets⟩ := kept
    have ids := types.map (·.id)
    rw [← refs]
    refine ⟨ids.nodup_iff.mp distinct, fun link linked => ?_, fun snippet referred => ?_⟩
    · exact ⟨(links link linked).1, ids.mem_iff.mp (links link linked).2⟩
    · exact ids.mem_iff.mp (snippets snippet referred)
  · intro t block
    rw [← refs]
    exact flat t (types.mem_iff.mpr block)
  · rw [← refs, contribution_flatten labelled']

end Permuted

/-- Strict assembly does not depend on the order of blocks that each begin with a labelled type. It
accepts every order or none, and each block contributes the same types to the same side. -/
theorem strict_of_perm (fresh : Nat → String) (typeStart : String)
    (labelled : ∀ b ∈ bs, Labelled b) (perm : bs.Perm cs) :
    ((∃ a, ofEntries fresh .strict typeStart bs.flatten = .ok a) ↔
      ∃ a, ofEntries fresh .strict typeStart cs.flatten = .ok a) ∧
    ∀ a, ofEntries fresh .strict typeStart bs.flatten = .ok a →
      a = contributions (references bs.flatten).snippets bs ∧
        ofEntries fresh .strict typeStart cs.flatten =
          .ok (contributions (references bs.flatten).snippets cs) := by
  constructor
  · constructor
    · rintro ⟨a, accepted⟩
      exact ⟨_, (ofEntries_of_perm labelled perm accepted).2⟩
    · rintro ⟨a, accepted⟩
      exact ⟨_, (ofEntries_of_perm (labelled_of_perm labelled perm) perm.symm accepted).2⟩
  · intro a accepted
    exact ofEntries_of_perm labelled perm accepted

/-- Blocks that refer to each other in both directions. The first ends in a rich text, and the second
describes another type behind its components. -/
def crossing : List String :=
  ["a Home\nb[] Card\nc[] Tag\nRichText Body\n", "b Card\nRichText Text\na\n\nc\n...s\n",
    "s Seo\nText Title\n"]

theorem strict_of_perm_crossing : ∃ a b s : List Entry,
    crossing.map (entries .standard) = [.ok a, .ok b, .ok s] ∧
    ∃ first second, ofEntries numbered .strict "type" [a, b, s].flatten = .ok first ∧
      ofEntries numbered .strict "type" [s, b, a].flatten = .ok second ∧
      first.types.map (·.id) = ["a", "b", "c"] ∧ second.types.map (·.id) = ["b", "c", "a"] ∧
      first.snippetTypes.map (·.id) = ["s"] ∧ second.snippetTypes = first.snippetTypes := by
  let read (i : Nat) := (entries .standard (crossing.getD i "")).toOption.getD []
  let a := read 0
  let b := read 1
  let s := read 2
  let first := (ofEntries numbered .strict "type" [a, b, s].flatten).toOption.getD {}
  have accepted : ofEntries numbered .strict "type" [a, b, s].flatten = .ok first := by
    decide +kernel
  have labelled : ∀ b' ∈ [a, b, s], Labelled b' := by
    simp only [Labelled]
    decide +kernel
  have perm : [a, b, s].Perm [s, b, a] := (List.reverse_perm [a, b, s]).symm
  obtain ⟨-, same⟩ := strict_of_perm numbered "type" labelled perm
  obtain ⟨_, reordered⟩ := same first accepted
  exact ⟨a, b, s, by decide +kernel, first, _, accepted, reordered, by decide +kernel,
    by decide +kernel, by decide +kernel, by decide +kernel⟩

end Assembly

end ContentSchema
