import ContentSchema.Proofs.Chains.Enumeration
import Mathlib.Data.List.Nodup
import Mathlib.Logic.Relation
/-!
Cycles of links. A closed chain runs into a cycle, and a walk around a cycle can be shortened to one
that repeats no id (`Leads.exists_nodup`), so that every type on a cycle starts a chain which it
closes itself. Where ids are distinct, there are no closed chains exactly if no type reaches itself
(`closed_iff_cycle`).
-/
namespace ContentSchema.Chains

variable {types : List ContentType} {t u : ContentType} {id : String} {ids : List String}

/-- A link from one type of the list to another, or to itself. -/
structure LinksTo (types : List ContentType) (t u : ContentType) : Prop where
  source : t ∈ types
  target : u ∈ types
  link : u.id ∈ t.links

/-- A distinct id leads to its own type. -/
theorem target?_of_mem (distinct : (types.map (·.id)).Nodup) (member : t ∈ types) :
    target? types t.id = some t := by
  obtain ⟨u, found⟩ := Option.isSome_iff_exists.mp
    (isSome_target?.mpr (List.mem_map_of_mem member))
  obtain ⟨inside, same⟩ := of_target? found
  rw [found, List.inj_on_of_nodup_map distinct inside member same]

namespace Leads

theorem reflTransGen (walk : Leads types t ids u) (start : t ∈ types) :
    Relation.ReflTransGen (LinksTo types) t u := by
  induction walk with
  | here t => exact .refl
  | @step t v u id ids link found _ ih =>
    obtain ⟨inside, rfl⟩ := of_target? found
    exact .head ⟨start, inside, link⟩ (ih inside)

/-- The rest of a walk behind an id that it passes. -/
theorem exists_suffix (walk : Leads types t ids u) (passed : id ∈ ids) :
    ∃ v rest, target? types id = some v ∧ Leads types v rest u ∧ (id :: rest) <:+ ids := by
  induction walk with
  | here t => contradiction
  | @step t v u first ids link found walk ih =>
    obtain rfl | later := List.mem_cons.mp passed
    · exact ⟨v, ids, found, walk, List.suffix_rfl⟩
    · obtain ⟨w, rest, target, behind, suffix⟩ := ih later
      exact ⟨w, rest, target, behind, suffix.trans (List.suffix_cons first ids)⟩

/-- Whatever a walk reaches is reached without a repeated id. -/
theorem exists_nodup (distinct : (types.map (·.id)).Nodup) (walk : Leads types t ids u)
    (start : t ∈ types) : ∃ short, Leads types t short u ∧ (t.id :: short).Nodup := by
  induction walk with
  | here t => exact ⟨[], .here t, List.nodup_singleton _⟩
  | @step t v u id ids link found _ ih =>
    obtain ⟨inside, rfl⟩ := of_target? found
    obtain ⟨short, walk, nodup⟩ := ih inside
    have longer : Leads types t (v.id :: short) u := .step link found walk
    by_cases back : t.id ∈ v.id :: short
    · -- The walk comes back to its start, so what stands before that can be left out.
      obtain ⟨w, rest, own, behind, suffix⟩ := longer.exists_suffix back
      cases own.symm.trans (target?_of_mem distinct start)
      exact ⟨rest, behind, nodup.sublist suffix.sublist⟩
    · exact ⟨v.id :: short, longer, List.nodup_cons.mpr ⟨back, nodup⟩⟩

end Leads

theorem exists_leads (distinct : (types.map (·.id)).Nodup)
    (reach : Relation.ReflTransGen (LinksTo types) t u) : ∃ ids, Leads types t ids u := by
  induction reach with
  | refl => exact ⟨[], .here t⟩
  | tail _ last ih =>
    obtain ⟨ids, walk⟩ := ih
    exact ⟨ids ++ [_], walk.concat last.link (target?_of_mem distinct last.target)⟩

/-- A type that reaches itself closes a chain that it starts. -/
theorem exists_isClosedChain (distinct : (types.map (·.id)).Nodup)
    (cycle : Relation.TransGen (LinksTo types) t t) :
    ∃ ids, IsClosedChain types t (t.id :: ids ++ [t.id]) := by
  obtain ⟨u, reach, last⟩ := Relation.TransGen.tail'_iff.mp cycle
  obtain ⟨ids, walk⟩ := exists_leads distinct reach
  obtain ⟨short, walk, nodup⟩ := walk.exists_nodup distinct last.target
  exact ⟨short, short, u, t.id, walk, nodup, last.link, List.mem_cons_self, rfl⟩

/-- The id that closes a chain is that of a type which reaches itself. -/
theorem IsClosedChain.exists_cycle {path : Path} (closed : IsClosedChain types t path)
    (start : t ∈ types) : ∃ v ∈ types, path.getLast? = some v.id ∧
      Relation.TransGen (LinksTo types) v v := by
  obtain ⟨ids, u, id, walk, -, link, back, rfl⟩ := closed
  have last : u ∈ types := walk.mem_types start
  rw [List.getLast?_concat]
  obtain rfl | passed := List.mem_cons.mp back
  · exact ⟨t, start, rfl, .tail' (walk.reflTransGen start) ⟨last, start, link⟩⟩
  · obtain ⟨v, rest, found, behind, -⟩ := walk.exists_suffix passed
    obtain ⟨inside, rfl⟩ := of_target? found
    exact ⟨v, inside, rfl, .tail' (behind.reflTransGen inside) ⟨last, inside, link⟩⟩

/-- Closed chains tell cycles: where ids are distinct, there are none exactly if no type reaches
itself by links. Every type that does starts a closed chain which comes back to it, and every closed
chain ends with such a type. -/
theorem closed_iff_cycle (distinct : (types.map (·.id)).Nodup) :
    ((stats types).closedChains = [] ↔
      ∀ t ∈ types, ¬ Relation.TransGen (LinksTo types) t t) ∧
    (∀ t ∈ types, Relation.TransGen (LinksTo types) t t →
      ∃ ids, t.id :: ids ++ [t.id] ∈ (paths types).2 ∧
        String.intercalate ">" (t.id :: ids ++ [t.id]) ∈ (stats types).closedChains) ∧
    ∀ path ∈ (paths types).2, ∃ t ∈ types, path.getLast? = some t.id ∧
      Relation.TransGen (LinksTo types) t t := by
  have reported : ∀ t ∈ types, Relation.TransGen (LinksTo types) t t →
      ∃ ids, t.id :: ids ++ [t.id] ∈ (paths types).2 := by
    intro t member cycle
    obtain ⟨ids, closed⟩ := exists_isClosedChain distinct cycle
    exact ⟨ids, mem_closed_iff.mpr ⟨t, member, closed⟩⟩
  have real : ∀ path ∈ (paths types).2, ∃ t ∈ types, path.getLast? = some t.id ∧
      Relation.TransGen (LinksTo types) t t := by
    intro path member
    obtain ⟨t, start, closed⟩ := mem_closed_iff.mp member
    exact closed.exists_cycle start
  have nothing : (stats types).closedChains = [] ↔ (paths types).2 = [] := List.map_eq_nil_iff
  refine ⟨?_, ?_, real⟩
  · rw [nothing, List.eq_nil_iff_forall_not_mem]
    constructor
    · intro none t member cycle
      obtain ⟨ids, closed⟩ := reported t member cycle
      exact none _ closed
    · intro acyclic path member
      obtain ⟨t, inside, -, cycle⟩ := real path member
      exact acyclic t inside cycle
  · intro t member cycle
    obtain ⟨ids, closed⟩ := reported t member cycle
    exact ⟨ids, closed, List.mem_map_of_mem closed⟩

/-- Two types that link to each other, one of them also to an id without a type. -/
theorem closed_iff_cycle_mutual :
    let a : ContentType := { id := "A", label := "a", links := .ofList ["B"] }
    let b : ContentType := { id := "B", label := "b", links := .ofList ["A", "Missing"] }
    ([a, b].map (·.id)).Nodup ∧ Relation.TransGen (LinksTo [a, b]) b b ∧
      (stats [a, b]).closedChains ≠ [] ∧ ∃ ids, "B" :: ids ++ ["B"] ∈ (paths [a, b]).2 := by
  intro a b
  have distinct : ([a, b].map (·.id)).Nodup := by decide
  have there : LinksTo [a, b] a b := ⟨by simp, by simp, by decide⟩
  have back : LinksTo [a, b] b a := ⟨by simp, by simp, by decide⟩
  have cycle : Relation.TransGen (LinksTo [a, b]) b b := .tail (.single back) there
  have outcome := closed_iff_cycle distinct
  refine ⟨distinct, cycle, fun none => outcome.1.mp none b (by simp) cycle, ?_⟩
  obtain ⟨ids, closed, -⟩ := outcome.2.1 b (by simp) cycle
  exact ⟨ids, closed⟩

end ContentSchema.Chains
