import Mathlib.Data.List.Nodup
import ContentSchema.Grammar.Standard
import ContentSchema.Proofs.Assembly.Integrity
/-!
Loose repair. Each repair adds one or two types and keeps all others; the ids that are made up stay
apart from each other and from those of the document (`Registry.Sound`), so that in the end the
types meet every reference (`met_of_loose`) and every parsed schema has integrity.
-/
namespace ContentSchema

namespace Registry

variable {fresh : Nat → String} {refs : References} {doc pending : List String} {r : Registry}
  {t : ContentType} {id link : String}

def ids (r : Registry) : List String := r.types.map (·.id)

/-- The ids made up for copies of the given ones, if so many have been made up before. -/
def newIds (fresh : Nat → String) (made : Nat) : List String → List String
  | [] => []
  | id :: rest => (id ++ "-" ++ fresh made) :: newIds fresh (made + 1) rest

/-- The ids that are in the list a second time, or in `seen` before. -/
def repeated (seen : List String) : List String → List String
  | [] => []
  | id :: rest => if id ∈ seen then id :: repeated seen rest else repeated (id :: seen) rest

/-- The ids of the registry and those still to be made up, for copies of `pending`, are distinct, and
none of the latter is in the document. -/
structure Sound (fresh : Nat → String) (refs : References) (doc pending : List String)
    (r : Registry) : Prop where
  distinct : (r.ids ++ newIds fresh r.made pending).Nodup
  unused : ∀ id ∈ newIds fresh r.made pending, id ∉ doc
  within : ∀ t ∈ r.types, t.Within refs

theorem isSome_find? : (r.find? id).isSome ↔ id ∈ r.ids := by
  simp [find?, ids]

theorem of_find? (found : r.find? id = some t) : t ∈ r.types ∧ t.id = id :=
  ⟨List.mem_of_find?_eq_some found, by simpa using List.find?_some found⟩

theorem insert_of_mem (taken : t.id ∈ r.ids) :
    insert fresh r t =
      { r with types := r.types ++ [t.cloneAs (r.newId fresh t.id)], made := r.made + 1 } := by
  rw [insert, if_pos (isSome_find?.mpr taken)]

theorem insert_of_not_mem (free : t.id ∉ r.ids) :
    insert fresh r t = { r with types := r.types ++ [t] } := by
  rw [insert, if_neg (mt isSome_find?.mp free)]

/-- A copy takes up the next of the ids to be made up. -/
theorem Sound.copy (sound : Sound fresh refs doc (t.id :: pending) r) (within : t.Within refs)
    (renames : List (String × String)) :
    Sound fresh refs doc pending
      { types := r.types ++ [t.cloneAs (r.newId fresh t.id)], renames, made := r.made + 1 } := by
  constructor
  case distinct =>
    have distinct := sound.distinct
    simpa [newIds, ids, newId, ContentType.cloneAs] using distinct
  case unused =>
    intro id member
    exact sound.unused id (List.mem_cons_of_mem _ member)
  case within =>
    intro u member
    obtain member | member := List.mem_append.mp member
    · exact sound.within u member
    · rw [List.mem_singleton.mp member]
      exact within.cloneAs _

theorem Sound.newId_not_mem (sound : Sound fresh refs doc (id :: pending) r) :
    r.newId fresh id ∉ r.ids ∧ r.newId fresh id ∉ doc := by
  constructor
  · intro member
    exact (List.nodup_append.mp sound.distinct).2.2 _ member _ List.mem_cons_self rfl
  · exact sound.unused _ List.mem_cons_self

theorem Sound.insert_free (sound : Sound fresh refs doc pending r) (free : t.id ∉ r.ids)
    (held : t.id ∈ doc) (within : t.Within refs) :
    Sound fresh refs doc pending (insert fresh r t) := by
  rw [insert_of_not_mem free]
  constructor
  case distinct =>
    have others : t.id ∉ newIds fresh r.made pending :=
      fun member => sound.unused t.id member held
    have whole : ids { r with types := r.types ++ [t] } = r.ids ++ [t.id] := by simp [ids]
    rw [whole, List.append_assoc, List.singleton_append, List.nodup_middle, List.nodup_cons,
      List.mem_append, not_or]
    exact ⟨⟨free, others⟩, sound.distinct⟩
  case unused => exact sound.unused
  case within =>
    intro u member
    obtain member | member := List.mem_append.mp member
    · exact sound.within u member
    · rw [List.mem_singleton.mp member]
      exact within

theorem Sound.insert_taken (sound : Sound fresh refs doc (t.id :: pending) r) (taken : t.id ∈ r.ids)
    (within : t.Within refs) : Sound fresh refs doc pending (insert fresh r t) := by
  rw [insert_of_mem taken]
  exact sound.copy within r.renames

theorem redirect_eq (sound : Sound fresh refs doc (t.id :: pending) r) :
    redirect fresh r t =
      { types := r.types ++ [t.cloneAs (r.newId fresh t.id)]
        renames := r.renames ++ [(t.id, r.newId fresh t.id)]
        made := r.made + 1 } := by
  rw [redirect, insert_of_not_mem]
  exact sound.newId_not_mem.1

/-- Adding the described types uses up the copies of those that are described again. -/
theorem Sound.describe {types : List ContentType} {seen : List String}
    (sound : Sound fresh refs doc (repeated seen (types.map (·.id)) ++ pending) r)
    (known : ∀ id ∈ doc, id ∈ r.ids ↔ id ∈ seen) (held : ∀ t ∈ types, t.id ∈ doc)
    (within : ∀ t ∈ types, t.Within refs) :
    Sound fresh refs doc pending (types.foldl (insert fresh) r) := by
  induction types generalizing r seen with
  | nil => exact sound
  | cons t types ih =>
    rw [List.forall_mem_cons] at held within
    rw [List.map_cons, repeated] at sound
    rw [List.foldl_cons]
    by_cases again : t.id ∈ seen
    · rw [if_pos again, List.cons_append] at sound
      have taken : t.id ∈ r.ids := (known t.id held.1).mpr again
      have outside := sound.newId_not_mem.2
      have next := sound.insert_taken taken within.1
      refine ih next ?_ held.2 within.2
      intro id inside
      rw [insert_of_mem taken, ← known id inside]
      have other : id ≠ r.newId fresh t.id := fun same => outside (same ▸ inside)
      simp [ids, ContentType.cloneAs, other]
    · rw [if_neg again] at sound
      have free : t.id ∉ r.ids := fun member => again ((known t.id held.1).mp member)
      have next := sound.insert_free free held.1 within.1
      refine ih next ?_ held.2 within.2
      intro id inside
      rw [insert_of_not_mem free, List.mem_cons, ← known id inside]
      simp [ids, or_comm]

theorem insert_types (fresh : Nat → String) (r : Registry) (t : ContentType) :
    ∃ u, u.properties = t.properties ∧ (insert fresh r t).types = r.types ++ [u] := by
  rw [insert]
  split
  · exact ⟨t.cloneAs _, rfl, rfl⟩
  · exact ⟨t, rfl, rfl⟩

theorem renames_insert (fresh : Nat → String) (r : Registry) (t : ContentType) :
    (insert fresh r t).renames = r.renames := by
  rw [insert]
  split <;> rfl

theorem exists_of_describe {types : List ContentType} (member : t ∈ r.types ++ types) :
    ∃ u ∈ (types.foldl (insert fresh) r).types, u.properties = t.properties := by
  induction types generalizing r t with
  | nil => exact ⟨t, by simpa using member, rfl⟩
  | cons first types ih =>
    obtain ⟨u, same, added⟩ := insert_types fresh r first
    have next : ∀ t ∈ r.types ++ [u] ++ types,
        ∃ u ∈ ((first :: types).foldl (insert fresh) r).types, u.properties = t.properties := by
      intro t member
      rw [← added] at member
      exact ih member
    obtain before | member := List.mem_append.mp member
    · exact next t (by simp [before])
    · obtain rfl | member := List.mem_cons.mp member
      · rw [← same]
        exact next u (by simp)
      · exact next t (by simp [member])

theorem renames_describe (types : List ContentType) :
    (types.foldl (insert fresh) r).renames = r.renames := by
  induction types generalizing r with
  | nil => rfl
  | cons t types ih => rw [List.foldl_cons, ih, renames_insert]

theorem subset_insert (fresh : Nat → String) (r : Registry) (t : ContentType) :
    r.types ⊆ (insert fresh r t).types := by
  obtain ⟨u, _, added⟩ := insert_types fresh r t
  rw [added]
  exact List.subset_append_left _ _

theorem mem_ids_insert (fresh : Nat → String) (free : t.id ∉ r.ids) :
    t.id ∈ (insert fresh r t).ids := by
  rw [insert_of_not_mem free]
  simp [ids]

theorem ids_subset {s : Registry} (kept : r.types ⊆ s.types) : r.ids ⊆ s.ids :=
  List.map_subset _ kept

/-- What repairing one link does: it leads to a type that is no snippet, other links lead where they
did, and all types are kept. -/
structure Repaired (fresh : Nat → String) (refs : References) (doc pending : List String)
    (link : String) (r s : Registry) : Prop where
  sound : Sound fresh refs doc pending s
  kept : r.types ⊆ s.types
  others : ∀ other ≠ link, s.renames.lookup other = r.renames.lookup other
  led : s.rename link ∈ s.ids
  apart : s.rename link ∉ refs.snippets

theorem rename_of_unnamed (unnamed : r.renames.lookup link = none) : r.rename link = link := by
  rw [rename, unnamed, Option.getD_none]

/-- A link to a snippet goes to the copy that is made of it. -/
theorem Sound.repaired_of_redirect (sound : Sound fresh refs doc (t.id :: pending) r)
    (within : t.Within refs) (snippets : ∀ snippet ∈ refs.snippets, snippet ∈ doc)
    (unnamed : r.renames.lookup t.id = none) :
    Repaired fresh refs doc pending t.id r (redirect fresh r t) := by
  have led : (redirect fresh r t).rename t.id = r.newId fresh t.id := by
    rw [redirect_eq sound, rename]
    simp [List.lookup_append, unnamed]
  rw [redirect_eq sound] at led ⊢
  constructor
  case sound => exact sound.copy within _
  case kept => exact List.subset_append_left _ _
  case others =>
    intro other different
    have apart : (other == t.id) = false := beq_false_of_ne different
    simp [List.lookup_append, List.lookup_cons, apart]
  case led =>
    rw [led]
    simp [ids, ContentType.cloneAs]
  case apart =>
    rw [led]
    exact fun member => sound.newId_not_mem.2 (snippets _ member)

theorem Repaired.insert_free {s : Registry} (repaired : Repaired fresh refs doc pending link r s)
    (free : t.id ∉ s.ids) (held : t.id ∈ doc) (within : t.Within refs) :
    Repaired fresh refs doc pending link r (insert fresh s t) := by
  have kept := subset_insert fresh s t
  have same : (insert fresh s t).rename link = s.rename link := by
    rw [rename, rename, renames_insert]
  constructor
  case sound => exact repaired.sound.insert_free free held within
  case kept => exact List.Subset.trans repaired.kept kept
  case others => rw [renames_insert]; exact repaired.others
  case led => rw [same]; exact ids_subset kept repaired.led
  case apart => rw [same]; exact repaired.apart

theorem Sound.repaired (sound : Sound fresh refs doc pending r) (unnamed : r.renames.lookup link = none)
    (described : link ∈ r.ids) (other : link ∉ refs.snippets) :
    Repaired fresh refs doc pending link r r := by
  have led := rename_of_unnamed unnamed
  constructor
  case sound => exact sound
  case kept => exact List.Subset.refl _
  case others => exact fun _ _ => rfl
  case led => rw [led]; exact described
  case apart => rw [led]; exact other

/-- A link to nothing leads to a type that is added for it. -/
theorem Sound.repaired_of_insert (sound : Sound fresh refs doc pending r) (free : t.id ∉ r.ids)
    (held : t.id ∈ doc) (within : t.Within refs) (other : t.id ∉ refs.snippets)
    (unnamed : r.renames.lookup t.id = none) :
    Repaired fresh refs doc pending t.id r (insert fresh r t) := by
  have led : (insert fresh r t).rename t.id = t.id := by
    apply rename_of_unnamed
    rw [renames_insert, unnamed]
  constructor
  case sound => exact sound.insert_free free held within
  case kept => exact subset_insert fresh r t
  case others => rw [renames_insert]; exact fun _ _ => rfl
  case led => rw [led]; exact mem_ids_insert fresh free
  case apart => rw [led]; exact other

/-- Every link can be repaired, with a copy to be made if it is a snippet. -/
theorem Sound.repairLink
    (sound : Sound fresh refs doc ((if link ∈ refs.snippets then [link] else []) ++ pending) r)
    (held : link ∈ doc) (snippets : ∀ snippet ∈ refs.snippets, snippet ∈ doc)
    (unnamed : r.renames.lookup link = none) :
    Repaired fresh refs doc pending link r (repairLink fresh refs.snippets r link) := by
  rw [Registry.repairLink]
  have blank := ContentType.within_placeholder refs link
  cases found : r.find? link with
  | some t =>
    obtain ⟨member, rfl⟩ := of_find? found
    have described : t.id ∈ r.ids := List.mem_map_of_mem member
    by_cases snippet : t.id ∈ refs.snippets
    · rw [if_pos snippet] at sound
      simpa [snippet] using
        sound.repaired_of_redirect (sound.within t member) snippets unnamed
    · rw [if_neg snippet] at sound
      simpa [snippet] using sound.repaired unnamed described snippet
  | none =>
    have free : link ∉ r.ids := by
      intro member
      have found' := isSome_find?.mpr member
      simp [found] at found'
    by_cases snippet : link ∈ refs.snippets
    · rw [if_pos snippet] at sound
      have copied : Repaired fresh refs doc pending link r
          (redirect fresh r (.placeholder link)) :=
        Sound.repaired_of_redirect (t := .placeholder link) sound blank snippets unnamed
      have free' : link ∉ (redirect fresh r (.placeholder link)).ids := by
        have other : link ≠ r.newId fresh link :=
          fun same => sound.newId_not_mem.2 (same ▸ held)
        rw [redirect_eq (t := .placeholder link) sound]
        simpa [ids, ContentType.cloneAs, ContentType.placeholder, other] using free
      simpa [snippet] using copied.insert_free (t := .placeholder link) free' held blank
    · rw [if_neg snippet] at sound
      have added : Repaired fresh refs doc pending link r (insert fresh r (.placeholder link)) :=
        sound.repaired_of_insert (t := .placeholder link) free held blank snippet unnamed
      simpa [snippet] using added

/-- The links of a document are repaired one after the other. -/
theorem Sound.repairLinks {links : List String}
    (sound : Sound fresh refs doc (links.filter (· ∈ refs.snippets)) r) (distinct : links.Nodup)
    (held : ∀ link ∈ links, link ∈ doc) (snippets : ∀ snippet ∈ refs.snippets, snippet ∈ doc)
    (unnamed : ∀ link ∈ links, r.renames.lookup link = none) :
    let s := links.foldl (Registry.repairLink fresh refs.snippets) r
    Sound fresh refs doc [] s ∧ r.types ⊆ s.types ∧
      (∀ other ∉ links, s.renames.lookup other = r.renames.lookup other) ∧
      ∀ link ∈ links, s.rename link ∈ s.ids ∧ s.rename link ∉ refs.snippets := by
  induction links generalizing r with
  | nil => exact ⟨sound, List.Subset.refl _, fun _ _ => rfl, by simp⟩
  | cons link links ih =>
    obtain ⟨absent, distinct⟩ := List.nodup_cons.mp distinct
    rw [List.forall_mem_cons] at held unnamed
    have pending : (link :: links).filter (· ∈ refs.snippets) =
        (if link ∈ refs.snippets then [link] else []) ++ links.filter (· ∈ refs.snippets) := by
      by_cases snippet : link ∈ refs.snippets <;> simp [snippet]
    rw [pending] at sound
    have first := sound.repairLink held.1 snippets unnamed.1
    have unnamed' : ∀ other ∈ links,
        (Registry.repairLink fresh refs.snippets r link).renames.lookup other = none := by
      intro other member
      rw [first.others other fun same => absent (same ▸ member)]
      exact unnamed.2 other member
    obtain ⟨final, kept, others, led⟩ := ih first.sound distinct held.2 unnamed'
    rw [List.foldl_cons]
    refine ⟨final, List.Subset.trans first.kept kept, ?_, ?_⟩
    · intro other outside
      rw [List.mem_cons, not_or] at outside
      rw [others other outside.2, first.others other outside.1]
    · intro x member
      obtain rfl | member := List.mem_cons.mp member
      · rw [rename, others x absent, ← rename]
        exact ⟨ids_subset kept first.led, first.apart⟩
      · exact led x member

theorem Sound.repairSnippets {snippets : List String} (sound : Sound fresh refs doc [] r)
    (held : ∀ snippet ∈ snippets, snippet ∈ doc) :
    let s := snippets.foldl (repairSnippet fresh) r
    Sound fresh refs doc [] s ∧ r.types ⊆ s.types ∧ s.renames = r.renames ∧
      ∀ snippet ∈ snippets, snippet ∈ s.ids := by
  induction snippets generalizing r with
  | nil => exact ⟨sound, List.Subset.refl _, rfl, by simp⟩
  | cons snippet snippets ih =>
    rw [List.forall_mem_cons] at held
    rw [List.foldl_cons, repairSnippet]
    by_cases described : snippet ∈ r.ids
    · rw [if_pos (isSome_find?.mpr described)]
      obtain ⟨final, kept, same, all⟩ := ih sound held.2
      exact ⟨final, kept, same, List.forall_mem_cons.mpr ⟨ids_subset kept described, all⟩⟩
    · rw [if_neg (mt isSome_find?.mp described)]
      have next : Sound fresh refs doc [] (insert fresh r (.placeholder snippet)) :=
        sound.insert_free (t := .placeholder snippet) described held.1
          (ContentType.within_placeholder refs snippet)
      obtain ⟨final, kept, same, all⟩ := ih next held.2
      have added : snippet ∈ (insert fresh r (.placeholder snippet)).ids :=
        mem_ids_insert (t := .placeholder snippet) fresh described
      refine ⟨final, List.Subset.trans (subset_insert fresh r _) kept, ?_, ?_⟩
      · rw [same, renames_insert]
      · exact List.forall_mem_cons.mpr ⟨ids_subset kept added, all⟩

end Registry

namespace Assembly

/-- The ids that loose repair makes copies for, in this order: those that are described again, and
the links that are snippets. -/
def copied (es : List Entry) : List String :=
  Registry.repeated [] ((blocks es).map (·.id)) ++
    (references es).links.toList.filter (· ∈ (references es).snippets)

/-- The ids made up for the copies of a document are distinct, and none of them is in it. -/
structure Fresh (fresh : Nat → String) (es : List Entry) : Prop where
  distinct : (Registry.newIds fresh 0 (copied es)).Nodup
  unused : ∀ id ∈ Registry.newIds fresh 0 (copied es), id ∉ ids es

/-- Loose repair ends with types that meet every reference. -/
theorem met_of_loose {fresh : Nat → String} {es : List Entry}
    (front : (Blocks.split (properties es)).1 = []) (new : Fresh fresh es) :
    (references es).Met (Registry.repair fresh (references es) (blocks es)).rename
      (Registry.repair fresh (references es) (blocks es)).types := by
  have links : ∀ link ∈ (references es).links, link ∈ ids es := fun _ => mem_ids_of_links front
  have snippets : ∀ snippet ∈ (references es).snippets, snippet ∈ ids es :=
    fun _ => mem_ids_of_snippets front
  -- Soundness is kept through all three passes; each uses up the ids that it makes up.
  have start : Registry.Sound fresh (references es) (ids es) (copied es) {} :=
    ⟨by simpa [Registry.ids] using new.distinct, new.unused, by simp⟩
  have described := start.describe (by simp [Registry.ids]) (fun _ => mem_ids_of_blocks)
    fun t block => within_of_blocks front block
  obtain ⟨between, before, _, led⟩ :=
    described.repairLinks (references es).links.nodup_toList links snippets
      (by simp [Registry.renames_describe])
  obtain ⟨final, after, renames, met⟩ := between.repairSnippets snippets
  constructor
  case distinct =>
    have distinct := final.distinct
    rw [Registry.newIds, List.append_nil] at distinct
    exact distinct
  case within => exact final.within
  case linked =>
    intro link referred
    obtain ⟨leads, apart⟩ := led link referred
    rw [Registry.repair, Registry.rename, renames]
    exact ⟨Registry.ids_subset after leads, apart⟩
  case described => exact met
  case used =>
    intro snippet referred
    obtain ⟨t, block, p, property, named⟩ := (mem_snippets_iff front).mp referred
    obtain ⟨u, member, same⟩ := Registry.exists_of_describe (r := {}) block
    exact ⟨u, after (before member), p, same ▸ property, named⟩

end Assembly

theorem Schema.parse_eq_ok_iff {fresh : Nat → String} {mode : Mode} {g : Grammar}
    {source : String} {s : Schema} :
    Schema.parse fresh mode g source = .ok s ↔ ∃ es a, entries g source = .ok es ∧
      Assembly.ofEntries fresh mode g.typeStart es = .ok a ∧ s = .ofAssembly a := by
  rw [parse]
  cases entries g source with
  | error e => simp [bind, Except.bind]
  | ok es =>
    cases assembled : Assembly.ofEntries fresh mode g.typeStart es with
    | error e => simp [bind, Except.bind, assembled]
    | ok a => simp [bind, Except.bind, pure, Except.pure, assembled, eq_comm]

/-- Every parsed schema has integrity, as long as the ids that loose repair makes up are new. -/
theorem Schema.integral_of_parse {fresh : Nat → String} {mode : Mode} {g : Grammar}
    {source : String} {s : Schema}
    (new : ∀ es, mode = .loose → entries g source = .ok es → Assembly.Fresh fresh es)
    (parsed : Schema.parse fresh mode g source = .ok s) : s.Integral := by
  obtain ⟨es, a, described, assembled, rfl⟩ := parse_eq_ok_iff.mp parsed
  have front := Assembly.front_of_ofEntries assembled
  rw [Assembly.ofEntries_eq fresh mode g.typeStart front] at assembled
  cases mode with
  | strict =>
    cases kept : (Assembly.references es).violation? ((Assembly.blocks es).map (·.id)) with
    | some e => simp [kept] at assembled
    | none =>
      simp only [kept] at assembled
      exact Assembly.integral_of_met (Assembly.met_of_strict front kept) assembled
  | loose => exact Assembly.integral_of_met (Assembly.met_of_loose front (new es rfl described)) assembled

/-- A document with an id that is described twice, a link to a snippet, and a link and a snippet
that are not described. -/
def unrepaired : String := "a Home\nb,s,q[] Links\n...s\n...z\nb Card\nb Card again\ns Seo\n"

def numbered (n : Nat) : String := Nat.repr n ++ "0000000-0000-4000-8000-000000000000"

theorem Schema.integral_of_unrepaired :
    (∀ es, entries .standard unrepaired = .ok es → Assembly.Fresh numbered es) ∧
    ∃ s, Schema.parse numbered .loose .standard unrepaired = .ok s ∧
      s.types.map (·.id) = ["a", "b", "b-" ++ numbered 0, "q", "s-" ++ numbered 1] ∧
      s.snippetTypes.map (·.id) = ["s", "z"] ∧ s.Integral := by
  have new : ∀ es, entries .standard unrepaired = .ok es → Assembly.Fresh numbered es := by
    intro es described
    have es_eq : es = (entries .standard unrepaired).toOption.getD [] := by
      rw [described]
      rfl
    rw [es_eq]
    exact ⟨by decide +kernel, by decide +kernel⟩
  have ids : (Schema.parse numbered .loose .standard unrepaired).toOption.map
      (fun s => (s.types.map (·.id), s.snippetTypes.map (·.id))) =
      some (["a", "b", "b-" ++ numbered 0, "q", "s-" ++ numbered 1], ["s", "z"]) := by
    decide +kernel
  cases parsed : Schema.parse numbered .loose .standard unrepaired with
  | error e => simp [parsed, Except.toOption] at ids
  | ok s =>
    rw [parsed, Except.toOption, Option.map_some, Option.some.injEq, Prod.mk.injEq] at ids
    exact ⟨new, s, rfl, ids.1, ids.2, Schema.integral_of_parse (fun es _ => new es) parsed⟩

end ContentSchema
