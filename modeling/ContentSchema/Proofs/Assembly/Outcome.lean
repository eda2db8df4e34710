import Mathlib.Data.List.Basic
import ContentSchema.Proofs.Assembly.Repair
/-!
What loose repair makes of a document, type by type: the described types in order, each id kept by
the first of them, then what the links need, then what the snippets need (`Assembly.repaired`). The
registry holds exactly this list (`Assembly.repair_eq`), and sends exactly those links elsewhere
that are snippets (`Assembly.rename_repair`).
-/
namespace ContentSchema

namespace Registry

variable {fresh : Nat → String} {refs : References} {doc pending : List String} {r : Registry}
  {types : List ContentType} {seen : List String} {id link : String} {made : Nat}

/-- The types under the ids that they are given one after the other: the first of an id keeps it, and
a later one is a copy, as is one whose id has been seen before. -/
def renumbered (fresh : Nat → String) (made : Nat) (seen : List String) :
    List ContentType → List ContentType
  | [] => []
  | t :: rest =>
    if t.id ∈ seen then
      t.cloneAs (t.id ++ "-" ++ fresh made) :: renumbered fresh (made + 1) seen rest
    else t :: renumbered fresh made (t.id :: seen) rest

theorem describe_eq (unused : ∀ id ∈ newIds fresh r.made (repeated seen (types.map (·.id))), id ∉ doc)
    (known : ∀ id ∈ doc, id ∈ r.ids ↔ id ∈ seen) (held : ∀ t ∈ types, t.id ∈ doc) :
    types.foldl (insert fresh) r =
      { r with
        types := r.types ++ renumbered fresh r.made seen types
        made := r.made + (repeated seen (types.map (·.id))).length } := by
  induction types generalizing r seen with
  | nil => simp [renumbered, repeated]
  | cons t types ih =>
    rw [List.forall_mem_cons] at held
    rw [List.map_cons, repeated] at unused ⊢
    rw [List.foldl_cons, renumbered]
    by_cases again : t.id ∈ seen
    · rw [if_pos again, newIds, List.forall_mem_cons] at unused
      rw [insert_of_mem ((known t.id held.1).mpr again)]
      have known' : ∀ id ∈ doc, id ∈ ids { r with
          types := r.types ++ [t.cloneAs (r.newId fresh t.id)]
          made := r.made + 1 } ↔ id ∈ seen := by
        intro id inside
        have other : id ≠ r.newId fresh t.id := by
          rintro rfl
          exact unused.1 inside
        rw [← known id inside]
        simp [ids, ContentType.cloneAs, other]
      rw [ih unused.2 known' held.2, if_pos again, if_pos again]
      simp [newId, Nat.add_assoc, Nat.add_comm 1]
    · rw [if_neg again] at unused
      rw [insert_of_not_mem (mt (known t.id held.1).mp again)]
      have known' : ∀ id ∈ doc, id ∈ ids { r with types := r.types ++ [t] } ↔ id ∈ t.id :: seen := by
        intro id inside
        rw [List.mem_cons, ← known id inside]
        simp [ids, or_comm]
      rw [ih (r := { r with types := r.types ++ [t] }) unused known' held.2, if_neg again,
        if_neg again]
      simp

/-- Looking up an id of the document in renumbered types finds the first of that id. -/
theorem find?_renumbered
    (unused : ∀ id ∈ newIds fresh made (repeated seen (types.map (·.id))), id ∉ doc)
    (inside : id ∈ doc) :
    (renumbered fresh made seen types).find? (·.id == id) =
      if id ∈ seen then none else types.find? (·.id == id) := by
  induction types generalizing made seen with
  | nil => simp [renumbered]
  | cons t types ih =>
    rw [List.map_cons, repeated] at unused
    rw [renumbered]
    by_cases again : t.id ∈ seen
    · rw [if_pos again, newIds, List.forall_mem_cons] at unused
      have other : t.id ++ "-" ++ fresh made ≠ id := by
        rintro rfl
        exact unused.1 inside
      have copy : ((t.cloneAs (t.id ++ "-" ++ fresh made)).id == id) = false := beq_false_of_ne other
      rw [if_pos again, List.find?_cons, copy, ih unused.2]
      by_cases before : id ∈ seen
      · rw [if_pos before, if_pos before]
      · have different : (t.id == id) = false := by
          apply beq_false_of_ne
          rintro rfl
          exact before again
        rw [if_neg before, if_neg before, List.find?_cons, different]
    · rw [if_neg again] at unused
      rw [if_neg again, List.find?_cons, List.find?_cons, ih unused]
      by_cases same : t.id = id
      · simp [← same, again]
      · have different : (t.id == id) = false := beq_false_of_ne same
        simp [different, Ne.symm same]

/-- What is added for a link, by whether it is a snippet and what it leads to: a copy if it is a
snippet, and an empty type if there is none. -/
def additions (copy link : String) (snippet : Bool) : Option ContentType → List ContentType
  | some t => if snippet then [t.cloneAs copy] else []
  | none =>
    if snippet then [(ContentType.placeholder link).cloneAs copy, .placeholder link]
    else [.placeholder link]

/-- Where no copy is made, its id does not matter. -/
theorem additions_false (copy other link : String) (described : Option ContentType) :
    additions copy link false described = additions other link false described := by
  cases described <;> rfl

theorem of_mem_additions {copy : String} {snippet : Bool} {described : Option ContentType}
    {t : ContentType} (member : t ∈ additions copy link snippet described) :
    snippet = true ∧ t.id = copy ∨ t = .placeholder link := by
  cases described with
  | some u =>
    cases snippet with
    | false => contradiction
    | true => exact .inl ⟨rfl, congrArg _ (List.mem_singleton.mp member)⟩
  | none =>
    cases snippet with
    | false => exact .inr (List.mem_singleton.mp member)
    | true =>
      obtain rfl | rfl := List.mem_pair.mp member
      · exact .inl ⟨rfl, rfl⟩
      · exact .inr rfl

theorem find?_append_additions {copy : String} {snippet : Bool} {described : Option ContentType}
    (apart : snippet = true → id ≠ copy) (other : id ≠ link) :
    (types ++ additions copy link snippet described).find? (·.id == id) =
      types.find? (·.id == id) := by
  have absent : (additions copy link snippet described).find? (·.id == id) = none := by
    rw [List.find?_eq_none]
    intro t member same
    obtain ⟨copied, named⟩ | rfl := of_mem_additions member
    · exact apart copied ((beq_iff_eq.mp same).symm.trans named)
    · exact other (beq_iff_eq.mp same).symm
  rw [List.find?_append, absent, Option.or_none]

theorem repairLink_eq
    (sound : Sound fresh refs doc ((if link ∈ refs.snippets then [link] else []) ++ pending) r)
    (held : link ∈ doc) :
    Registry.repairLink fresh refs.snippets r link =
      { types := r.types ++
          additions (r.newId fresh link) link (link ∈ refs.snippets) (r.find? link)
        renames := r.renames ++
          if link ∈ refs.snippets then [(link, r.newId fresh link)] else []
        made := r.made + if link ∈ refs.snippets then 1 else 0 } := by
  rw [Registry.repairLink]
  cases found : r.find? link with
  | some t =>
    obtain ⟨_, rfl⟩ := of_find? found
    by_cases snippet : t.id ∈ refs.snippets
    · rw [if_pos snippet] at sound
      simp [snippet, additions, redirect_eq sound]
    · simp [snippet, additions]
  | none =>
    have free : link ∉ r.ids := by
      intro member
      have found' := isSome_find?.mpr member
      simp [found] at found'
    by_cases snippet : link ∈ refs.snippets
    · rw [if_pos snippet] at sound
      have copied : redirect fresh r (.placeholder link) =
          { types := r.types ++ [(ContentType.placeholder link).cloneAs (r.newId fresh link)]
            renames := r.renames ++ [(link, r.newId fresh link)]
            made := r.made + 1 } :=
        redirect_eq (t := .placeholder link) sound
      have free' : link ∉ (redirect fresh r (.placeholder link)).ids := by
        have other : link ≠ r.newId fresh link := by
          intro same
          exact sound.newId_not_mem.2 (same ▸ held)
        rw [copied]
        simpa [ids, ContentType.cloneAs, ContentType.placeholder, other] using free
      have added : insert fresh _ (.placeholder link) = _ :=
        insert_of_not_mem (t := .placeholder link) free'
      rw [copied] at added
      simp [snippet, additions, added, copied]
    · have added : insert fresh r (.placeholder link) = _ :=
        insert_of_not_mem (t := .placeholder link) free
      simp [snippet, additions, added]

/-- Every link adds what it needs by what it led to at first, since no addition takes its id. -/
theorem repairLinks_eq {links : List String} {copy : String → String}
    {described : String → Option ContentType}
    (sound : Sound fresh refs doc (links.filter (· ∈ refs.snippets)) r) (distinct : links.Nodup)
    (held : ∀ link ∈ links, link ∈ doc) (snippets : ∀ snippet ∈ refs.snippets, snippet ∈ doc)
    (unnamed : ∀ link ∈ links, r.renames.lookup link = none)
    (found : ∀ link ∈ links, r.find? link = described link)
    (named : newIds fresh r.made (links.filter (· ∈ refs.snippets)) =
      (links.filter (· ∈ refs.snippets)).map copy) :
    links.foldl (Registry.repairLink fresh refs.snippets) r =
      { types := r.types ++ links.flatMap fun link =>
          additions (copy link) link (link ∈ refs.snippets) (described link)
        renames := r.renames ++
          (links.filter (· ∈ refs.snippets)).map fun link => (link, copy link)
        made := r.made + (links.filter (· ∈ refs.snippets)).length } := by
  induction links generalizing r with
  | nil => simp
  | cons link links ih =>
    obtain ⟨absent, distinct⟩ := List.nodup_cons.mp distinct
    rw [List.forall_mem_cons] at held unnamed found
    have pending : (link :: links).filter (· ∈ refs.snippets) =
        (if link ∈ refs.snippets then [link] else []) ++ links.filter (· ∈ refs.snippets) := by
      by_cases snippet : link ∈ refs.snippets <;> simp [snippet]
    rw [pending] at sound named
    have first := sound.repairLink held.1 snippets unnamed.1
    have unnamed' : ∀ other ∈ links,
        (Registry.repairLink fresh refs.snippets r link).renames.lookup other = none := by
      intro other member
      rw [first.others other fun same => absent (same ▸ member)]
      exact unnamed.2 other member
    have step := repairLink_eq sound held.1
    have found' : ∀ other ∈ links,
        (Registry.repairLink fresh refs.snippets r link).find? other = described other := by
      intro other member
      rw [← found.2 other member, step, find?]
      apply find?_append_additions
      · intro snippet same
        rw [if_pos (of_decide_eq_true snippet)] at sound
        exact sound.newId_not_mem.2 (same ▸ held.2 other member)
      · rintro rfl
        exact absent member
    rw [step] at first unnamed' found'
    rw [List.foldl_cons, step, found.1, pending]
    by_cases snippet : link ∈ refs.snippets
    · rw [if_pos snippet] at named
      obtain ⟨copied, named⟩ := List.cons.inj named
      have later := ih first.sound distinct held.2 unnamed' found' (by simpa [snippet] using named)
      rw [found.1] at later
      rw [later]
      simp [snippet, ← copied, newId, Nat.add_assoc, Nat.add_comm 1]
    · rw [if_neg snippet] at named
      have later := ih first.sound distinct held.2 unnamed' found' (by simpa [snippet] using named)
      rw [found.1] at later
      rw [later, decide_eq_false snippet, additions_false _ (copy link)]
      simp [snippet]

/-- Every snippet that no type has yet gets an empty type. -/
theorem repairSnippets_eq {snippets : List String} (distinct : snippets.Nodup) :
    snippets.foldl (repairSnippet fresh) r =
      { r with types := r.types ++ (snippets.filter (· ∉ r.ids)).map .placeholder } := by
  induction snippets generalizing r with
  | nil => simp
  | cons snippet snippets ih =>
    obtain ⟨absent, distinct⟩ := List.nodup_cons.mp distinct
    rw [List.foldl_cons, repairSnippet]
    by_cases described : snippet ∈ r.ids
    · rw [if_pos (isSome_find?.mpr described), ih distinct]
      simp [described]
    · have added : insert fresh r (.placeholder snippet) = _ :=
        insert_of_not_mem (t := .placeholder snippet) described
      have same : snippets.filter (· ∉ (insert fresh r (.placeholder snippet)).ids) =
          snippets.filter (· ∉ r.ids) := by
        apply List.filter_congr
        intro id member
        have other : id ≠ snippet := by
          rintro rfl
          exact absent member
        rw [added]
        simp [ids, ContentType.placeholder, other]
      rw [if_neg (mt isSome_find?.mp described), ih distinct, same, added]
      simp [described]

end Registry

namespace Registry

theorem newIds_append (fresh : Nat → String) (made : Nat) (ids more : List String) :
    newIds fresh made (ids ++ more) =
      newIds fresh made ids ++ newIds fresh (made + ids.length) more := by
  induction ids generalizing made with
  | nil => rfl
  | cons id ids ih => simp [newIds, ih, Nat.add_assoc, Nat.add_comm 1]

/-- The ids made up for copies carry the number of what they are copies of. -/
theorem newIds_eq_map (fresh : Nat → String) (made : Nat) {ids : List String} (distinct : ids.Nodup) :
    newIds fresh made ids = ids.map fun id => id ++ "-" ++ fresh (made + ids.idxOf id) := by
  induction ids generalizing made with
  | nil => rfl
  | cons id ids ih =>
    obtain ⟨absent, distinct⟩ := List.nodup_cons.mp distinct
    rw [newIds, List.map_cons, List.idxOf_cons_self, ih _ distinct]
    congr 1
    apply List.map_congr_left
    intro other member
    have different : id ≠ other := by
      rintro rfl
      exact absent member
    rw [List.idxOf_cons_ne _ different, Nat.succ_eq_add_one, Nat.add_assoc, Nat.add_comm 1]

end Registry

namespace Assembly

variable {fresh : Nat → String} {es : List Entry} {id link : String}

/-- The links of a document that are snippets as well. -/
def shared (es : List Entry) : List String :=
  (references es).links.toList.filter (· ∈ (references es).snippets)

/-- The number of the first id that is made up for a link: those of types that are described again
come before. -/
def firstShared (es : List Entry) : Nat :=
  (Registry.repeated [] ((blocks es).map (·.id))).length

/-- Where links to the id go: to a copy if it is a snippet. -/
def target (fresh : Nat → String) (es : List Entry) (id : String) : String :=
  if id ∈ shared es then id ++ "-" ++ fresh (firstShared es + (shared es).idxOf id) else id

/-- The types of a document once links are repaired, in order. -/
def linked (fresh : Nat → String) (es : List Entry) : List ContentType :=
  Registry.renumbered fresh 0 [] (blocks es) ++
    (references es).links.toList.flatMap fun link =>
      Registry.additions (target fresh es link) link (link ∈ (references es).snippets)
        ((blocks es).find? (·.id == link))

/-- The types of a document after loose repair, in order. -/
def repaired (fresh : Nat → String) (es : List Entry) : List ContentType :=
  linked fresh es ++ ((references es).snippets.toList.filter fun id =>
    id ∉ (blocks es).map (·.id) ∧ id ∉ (references es).links).map .placeholder

theorem mem_shared : id ∈ shared es ↔ id ∈ (references es).links ∧ id ∈ (references es).snippets := by
  simp [shared]

theorem nodup_shared (es : List Entry) : (shared es).Nodup :=
  (references es).links.nodup_toList.filter _

/-- The ids of the copies that links go to are those made up last. -/
theorem newIds_shared (fresh : Nat → String) (es : List Entry) :
    Registry.newIds fresh (firstShared es) (shared es) = (shared es).map (target fresh es) := by
  rw [Registry.newIds_eq_map fresh _ (nodup_shared es)]
  apply List.map_congr_left
  intro id member
  rw [target, if_pos member]

theorem newIds_copied (fresh : Nat → String) (es : List Entry) :
    Registry.newIds fresh 0 (copied es) =
      Registry.newIds fresh 0 (Registry.repeated [] ((blocks es).map (·.id))) ++
        (shared es).map (target fresh es) := by
  rw [← newIds_shared, firstShared, ← Nat.zero_add (List.length _), ← Registry.newIds_append]
  rfl

section Repair

variable (front : (Blocks.split (properties es)).1 = []) (new : Fresh fresh es)

include new in
theorem target_not_mem_ids (member : id ∈ shared es) : target fresh es id ∉ ids es := by
  apply new.unused
  rw [newIds_copied]
  exact List.mem_append_right _ (List.mem_map_of_mem member)

include new in
/-- Looking up an id of the document among its renumbered types finds the type that keeps it. -/
theorem find?_renumbered_blocks (inside : id ∈ ids es) :
    (Registry.renumbered fresh 0 [] (blocks es)).find? (·.id == id) =
      (blocks es).find? (·.id == id) := by
  rw [Registry.find?_renumbered _ inside, if_neg List.not_mem_nil]
  intro id member
  apply new.unused
  rw [newIds_copied]
  exact List.mem_append_left _ member

include new in
/-- An id of the document that a type has, once links are repaired, was described or is a link. -/
theorem mem_ids_linked_iff (inside : id ∈ ids es) :
    id ∈ (linked fresh es).map (·.id) ↔
      id ∈ (blocks es).map (·.id) ∨ id ∈ (references es).links := by
  have looked (types : List ContentType) :
      id ∈ types.map (·.id) ↔ (types.find? (·.id == id)).isSome := by simp
  rw [linked, List.map_append, List.mem_append, looked, find?_renumbered_blocks new inside,
    ← looked]
  constructor
  · rintro (described | added)
    · exact .inl described
    · obtain ⟨t, member, rfl⟩ := List.mem_map.mp added
      obtain ⟨link, linked, member⟩ := List.mem_flatMap.mp member
      obtain ⟨snippet, copy⟩ | rfl := Registry.of_mem_additions member
      · have isShared := mem_shared.mpr ⟨linked, of_decide_eq_true snippet⟩
        exact absurd (copy ▸ inside) (target_not_mem_ids new isShared)
      · exact .inr linked
  · rintro (described | linked)
    · exact .inl described
    · by_cases described : id ∈ (blocks es).map (·.id)
      · exact .inl described
      · right
        have missing : (blocks es).find? (·.id == id) = none := by
          rw [looked, Option.not_isSome_iff_eq_none] at described
          exact described
        refine List.mem_map.mpr ⟨.placeholder id, List.mem_flatMap.mpr ⟨id, linked, ?_⟩, rfl⟩
        rw [missing, Registry.additions]
        split <;> simp

include front new in
/-- Loose repair makes exactly the types that are specified, and sends the links that are snippets,
and no others, to the copies made for them. -/
theorem repair_eq : Registry.repair fresh (references es) (blocks es) =
    { types := repaired fresh es
      renames := (shared es).map fun link => (link, target fresh es link)
      made := (copied es).length } := by
  have links : ∀ link ∈ (references es).links, link ∈ ids es := fun _ => mem_ids_of_links front
  have snippets : ∀ snippet ∈ (references es).snippets, snippet ∈ ids es :=
    fun _ => mem_ids_of_snippets front
  have start : Registry.Sound fresh (references es) (ids es) (copied es) {} :=
    ⟨by simpa [Registry.ids] using new.distinct, new.unused, by simp⟩
  have unused : ∀ id ∈ Registry.newIds fresh 0 (Registry.repeated [] ((blocks es).map (·.id))),
      id ∉ ids es := by
    intro id member
    apply new.unused
    rw [newIds_copied]
    exact List.mem_append_left _ member
  have described := start.describe (by simp [Registry.ids]) (fun _ => mem_ids_of_blocks)
    fun t block => within_of_blocks front block
  have typed : (blocks es).foldl (Registry.insert fresh) {} =
      { types := Registry.renumbered fresh 0 [] (blocks es), made := firstShared es } := by
    rw [Registry.describe_eq unused (by simp [Registry.ids]) fun _ => mem_ids_of_blocks]
    simp [firstShared]
  rw [typed] at described
  have missing : (references es).snippets.toList.filter (· ∉ (linked fresh es).map (·.id)) =
      (references es).snippets.toList.filter fun id =>
        id ∉ (blocks es).map (·.id) ∧ id ∉ (references es).links := by
    apply List.filter_congr
    intro id member
    rw [decide_eq_decide, mem_ids_linked_iff new (snippets id member), not_or]
  rw [Registry.repair, typed, Registry.repairLinks_eq described (references es).links.nodup_toList
    links snippets (by simp) (fun link linked => find?_renumbered_blocks new (links link linked))
    (newIds_shared fresh es), Registry.repairSnippets_eq (references es).snippets.nodup_toList]
  rw [repaired, ← missing, copied, List.length_append]
  rfl

include front new in
/-- Links to snippets go to their copies, and all others where they went. -/
theorem rename_repair : (Registry.repair fresh (references es) (blocks es)).rename =
    target fresh es := by
  funext link
  rw [Registry.rename, repair_eq front new, target]
  by_cases isShared : link ∈ shared es
  · rw [List.lookup_graph (target fresh es) isShared, Option.getD_some, target, if_pos isShared]
  · have unnamed : ((shared es).map fun link => (link, target fresh es link)).lookup link = none := by
      rw [List.lookup_eq_none_iff]
      rintro _ member
      obtain ⟨other, inside, rfl⟩ := List.mem_map.mp member
      have different : link ≠ other := by
        rintro rfl
        exact isShared inside
      simpa using different
    rw [unnamed, Option.getD_none, if_neg isShared]

include front new in
theorem ofEntries_loose (typeStart : String) : ofEntries fresh .loose typeStart es =
    separate (references es).snippets ((repaired fresh es).map (·.relink (target fresh es))) := by
  rw [ofEntries_eq fresh .loose typeStart front]
  have types := congrArg Registry.types (repair_eq front new)
  simp only [rename_repair front new, types]

end Repair

end Assembly

namespace Content

/-- The content but for what it links to. -/
def unlinked : Content → Content
  | linkedItems _ range => linkedItems [] range
  | richText r => richText { r with components := [] }
  | content => content

theorem unlinked_mapLinks (f : String → String) (c : Content) :
    (c.mapLinks f).unlinked = c.unlinked := by
  cases c <;> rfl

end Content

/-- The properties are the same but for their links, which are sent through `f` one by one. -/
structure Property.Relinked (f : String → String) (p q : Property) : Prop where
  label : q.label = p.label
  required : q.required = p.required
  unlinked : q.content.unlinked = p.content.unlinked
  links : q.links = p.links.map f

/-- The types are the same but for the links of their properties, which are sent through `f`. -/
structure ContentType.Relinked (f : String → String) (t u : ContentType) : Prop where
  id : u.id = t.id
  label : u.label = t.label
  properties : List.Forall₂ (Property.Relinked f) t.properties u.properties
  links : u.links = .ofList (u.properties.flatMap (·.links))
  snippets : u.snippets = t.snippets

theorem Property.relinked_mapLinks (f : String → String) (p : Property) :
    p.Relinked f (p.mapLinks f) :=
  ⟨rfl, rfl, p.content.unlinked_mapLinks f, p.links_mapLinks f⟩

theorem ContentType.relinked_relink (f : String → String) (t : ContentType) :
    t.Relinked f (t.relink f) := by
  constructor
  case properties =>
    rw [relink, List.forall₂_map_right_iff, List.forall₂_same]
    exact fun p _ => p.relinked_mapLinks f
  all_goals rfl

namespace Assembly

variable {fresh : Nat → String} {es : List Entry} {typeStart : String} {a : Assembly}

/-- Loose assembly gives the repaired types, with links to snippets sent to the copies of these and
all else as it was, and separates those that serve as snippets. No two types have one id. -/
theorem repaired_of_loose (new : Fresh fresh es)
    (assembled : ofEntries fresh .loose typeStart es = .ok a) :
    ∃ types, List.Forall₂ (ContentType.Relinked (target fresh es)) (repaired fresh es) types ∧
      a.types = types.filter (·.id ∉ (references es).snippets) ∧
      a.snippetTypes = types.filter (·.id ∈ (references es).snippets) ∧
      (types.map (·.id)).Nodup := by
  have front := front_of_ofEntries assembled
  rw [ofEntries_loose front new] at assembled
  obtain ⟨_, rfl⟩ := separate_eq_ok_iff.mp assembled
  refine ⟨(repaired fresh es).map (·.relink (target fresh es)), ?_, rfl, rfl, ?_⟩
  · rw [List.forall₂_map_right_iff, List.forall₂_same]
    exact fun t _ => t.relinked_relink _
  · have distinct := (met_of_loose front new).distinct
    rw [repair_eq front new] at distinct
    rw [List.map_map]
    exact distinct

theorem repaired_of_loose_unrepaired : ∃ es a, entries .standard unrepaired = .ok es ∧
    Fresh numbered es ∧ ofEntries numbered .loose "type" es = .ok a ∧
    (repaired numbered es).map (·.id) =
      ["a", "b", "b-" ++ numbered 0, "s", "q", "s-" ++ numbered 1, "z"] ∧
    ∃ types, List.Forall₂ (ContentType.Relinked (target numbered es)) (repaired numbered es) types ∧
      a.types = types.filter (·.id ∉ (references es).snippets) ∧
      a.snippetTypes = types.filter (·.id ∈ (references es).snippets) ∧
      (types.map (·.id)).Nodup := by
  let es := (entries .standard unrepaired).toOption.getD []
  let a := (ofEntries numbered .loose "type" es).toOption.getD {}
  have described : entries .standard unrepaired = .ok es := by decide +kernel
  have new : Fresh numbered es := ⟨by decide +kernel, by decide +kernel⟩
  have assembled : ofEntries numbered .loose "type" es = .ok a := by decide +kernel
  exact ⟨es, a, described, new, assembled, by decide +kernel, repaired_of_loose new assembled⟩

end Assembly

end ContentSchema
