import ContentSchema.Proofs.Assembly.Grouping
import Mathlib.Data.List.Range
/-!
Which lines are components, by their places. Components are given to rich texts in one pass with an
open run; here they are told by what stands between a line and the rich text before it
(`ComponentOf`), and the pass is shown to follow this rule (`attach_by_rule`).
-/
namespace ContentSchema.Components

/-- The entry at `i` is a component of the rich text at `j`: all that follows the rich text, up to the
entry itself, only names a type, and only before the first of these a blank line may stand. -/
structure ComponentOf (es : List Entry) (j i : Nat) : Prop where
  behind : j < i
  inside : i < es.length
  rich : ∀ e ∈ es[j]?, e.property.kind = .richText
  bare : ∀ k < i + 1, j < k → ∀ e ∈ es[k]?, e.property.kind = .type ∧ e.property.label = ""
  unbroken : ∀ k < i + 1, j + 1 < k → ∀ e ∈ es[k]?, e.afterBlank = false

instance (es : List Entry) (j i : Nat) : Decidable (ComponentOf es j i) :=
  decidable_of_iff
    (j < i ∧ i < es.length ∧ (∀ e ∈ es[j]?, e.property.kind = .richText) ∧
      (∀ k < i + 1, j < k → ∀ e ∈ es[k]?, e.property.kind = .type ∧ e.property.label = "") ∧
      ∀ k < i + 1, j + 1 < k → ∀ e ∈ es[k]?, e.afterBlank = false)
    ⟨fun ⟨behind, inside, rich, bare, unbroken⟩ => ⟨behind, inside, rich, bare, unbroken⟩,
      fun ⟨behind, inside, rich, bare, unbroken⟩ => ⟨behind, inside, rich, bare, unbroken⟩⟩

/-- The ids of the types that are named at some places, in the order of the entries. -/
def idsAt (es : List Entry) (places : Nat → Bool) : List String :=
  ((List.range es.length).filter places).filterMap fun i => es[i]?.bind (·.property.typeId?)

/-- The ids of the components of the rich text at `j`, in their order and as often as they are there. -/
def componentIds (es : List Entry) (j : Nat) : List String :=
  idsAt es fun i => ComponentOf es j i

/-- The run takes every entry up to the one at `i`. -/
structure Run.Reaches (run : Run) (es : List Entry) (i : Nat) : Prop where
  inside : i < es.length
  first : ∀ e ∈ es[0]?, (run.take? e).isSome
  others : ∀ k < i + 1, 0 < k → ∀ e ∈ es[k]?, (Run.continued.take? e).isSome

variable {run : Run} {e : Entry} {es : List Entry} {i j : Nat}

theorem isSome_bareId? : e.bareId?.isSome ↔ e.property.kind = .type ∧ e.property.label = "" := by
  rw [Entry.bareId?, Property.kind, Property.typeId?]
  cases e.property.content <;> simp [Content.kind]

theorem isSome_continued : (Run.continued.take? e).isSome ↔
    (e.property.kind = .type ∧ e.property.label = "") ∧ e.afterBlank = false := by
  rw [← isSome_bareId?, Run.take?]
  cases e.afterBlank <;> simp

namespace Run

theorem reaches_zero : run.Reaches (e :: es) 0 ↔ (run.take? e).isSome := by
  constructor
  · intro reaches
    exact reaches.first e rfl
  · intro taken
    constructor
    case inside => exact Nat.zero_lt_succ _
    case first =>
      intro e' first
      cases first
      exact taken
    case others => omega

theorem reaches_succ :
    run.Reaches (e :: es) (i + 1) ↔ (run.take? e).isSome ∧ continued.Reaches es i := by
  constructor
  · intro reaches
    refine ⟨reaches.first e rfl, ?_, ?_, ?_⟩
    · exact Nat.lt_of_succ_lt_succ reaches.inside
    · exact reaches.others 1 (by omega) (by decide)
    · exact fun k within _ => reaches.others (k + 1) (by omega) (by omega)
  · intro ⟨taken, reaches⟩
    constructor
    case inside => exact Nat.succ_lt_succ reaches.inside
    case first =>
      intro e' first
      cases first
      exact taken
    case others =>
      intro k within positive
      obtain _ | _ | k := k
      · contradiction
      · exact reaches.first
      · exact reaches.others (k + 1) (by omega) (by omega)

theorem not_reaches_closed : ¬ closed.Reaches es i := by
  intro reaches
  cases es with
  | nil => exact absurd reaches.inside (Nat.not_lt_zero i)
  | cons e es => exact absurd (reaches.first e rfl) (by simp [take?])

end Run

namespace ComponentOf

theorem succ_iff : ComponentOf (e :: es) (j + 1) (i + 1) ↔ ComponentOf es j i := by
  constructor
  · intro ⟨behind, inside, rich, bare, unbroken⟩
    refine ⟨by omega, Nat.lt_of_succ_lt_succ inside, rich, ?_, ?_⟩
    · exact fun k within after => bare (k + 1) (by omega) (by omega)
    · exact fun k within after => unbroken (k + 1) (by omega) (by omega)
  · intro ⟨behind, inside, rich, bare, unbroken⟩
    refine ⟨by omega, Nat.succ_lt_succ inside, rich, ?_, ?_⟩
    · intro k within after
      obtain _ | k := k
      · contradiction
      · exact bare k (by omega) (by omega)
    · intro k within after
      obtain _ | k := k
      · contradiction
      · exact unbroken k (by omega) (by omega)

/-- The components of a rich text are what an opened run reaches behind it. -/
theorem zero_iff : ComponentOf (e :: es) 0 (i + 1) ↔
    e.property.kind = .richText ∧ Run.opened.Reaches es i := by
  constructor
  · intro ⟨_, inside, rich, bare, unbroken⟩
    refine ⟨rich e rfl, Nat.lt_of_succ_lt_succ inside, fun e' first => ?_, ?_⟩
    · exact isSome_bareId?.mpr (bare 1 (by omega) (by decide) e' first)
    · intro k within positive e' at_
      exact isSome_continued.mpr ⟨bare (k + 1) (by omega) (by omega) e' at_,
        unbroken (k + 1) (by omega) (by omega) e' at_⟩
  · intro ⟨rich, inside, first, others⟩
    refine ⟨Nat.zero_lt_succ i, Nat.succ_lt_succ inside, ?_, ?_, ?_⟩
    · intro e' same
      cases same
      exact rich
    · intro k within positive e' at_
      obtain _ | _ | k := k
      · contradiction
      · exact isSome_bareId?.mp (first e' at_)
      · exact (isSome_continued.mp (others (k + 1) (by omega) (by omega) e' at_)).1
    · intro k within after e' at_
      obtain _ | _ | k := k
      · contradiction
      · contradiction
      · exact (isSome_continued.mp (others (k + 1) (by omega) (by omega) e' at_)).2

theorem exists_zero : ¬ ∃ j, ComponentOf es j 0 :=
  fun ⟨_, component⟩ => absurd component.behind (Nat.not_lt_zero _)

/-- A component of the rest, or one of the first entry. -/
theorem exists_succ : (∃ j, ComponentOf (e :: es) j (i + 1)) ↔
    (e.property.kind = .richText ∧ Run.opened.Reaches es i) ∨ ∃ j, ComponentOf es j i := by
  constructor
  · intro ⟨j, component⟩
    cases j with
    | zero => exact .inl (zero_iff.mp component)
    | succ j => exact .inr ⟨j, succ_iff.mp component⟩
  · rintro (first | ⟨j, component⟩)
    · exact ⟨0, zero_iff.mpr first⟩
    · exact ⟨j + 1, succ_iff.mpr component⟩

end ComponentOf

theorem isRichText_iff : e.isRichText ↔ e.property.kind = .richText := by
  simp [Entry.isRichText]

/-- What a run takes is no rich text. -/
theorem not_rich_of_take? (taken : (run.take? e).isSome) : e.property.kind ≠ .richText := by
  obtain ⟨id, taken⟩ := Option.isSome_iff_exists.mp taken
  have bare := (isSome_bareId? (e := e)).mp (by rw [bareId?_of_take? taken]; rfl)
  rw [bare.1]
  nofun

/-- An entry is marked where the run reaches it, or where it is a component of an entry before it. -/
theorem marked_iff (run : Run) (es : List Entry) (i : Nat) :
    (attach run es)[i]?.any (·.2) ↔ run.Reaches es i ∨ ∃ j, ComponentOf es j i := by
  induction es generalizing run i with
  | nil =>
    simp only [attach, List.getElem?_nil, Option.any_none, Bool.false_eq_true, false_iff, not_or]
    exact ⟨fun reaches => absurd reaches.inside (Nat.not_lt_zero i),
      not_exists.mpr fun _ component => absurd component.inside (Nat.not_lt_zero i)⟩
  | cons e es ih =>
    rw [attach]
    split
    · next taken =>
      cases i with
      | zero => simp [Run.reaches_zero, taken]
      | succ i =>
        simp [Run.reaches_succ, ComponentOf.exists_succ, taken, not_rich_of_take? taken, ih]
    · next other =>
      split
      · next rich =>
        rw [isRichText_iff] at rich
        cases i with
        | zero => simp [Run.reaches_zero, other, ComponentOf.exists_zero]
        | succ i => simp [Run.reaches_succ, ComponentOf.exists_succ, other, rich, ih]
      · next plain =>
        rw [isRichText_iff] at plain
        cases i with
        | zero => simp [Run.reaches_zero, other, ComponentOf.exists_zero]
        | succ i =>
          simp [Run.reaches_succ, ComponentOf.exists_succ, other, plain, ih, Run.not_reaches_closed]

theorem idsAt_cons (e : Entry) (es : List Entry) (places : Nat → Bool) :
    idsAt (e :: es) places = (if places 0 then e.property.typeId?.toList else []) ++
      idsAt es fun i => places (i + 1) := by
  rw [idsAt, List.length_cons, List.range_succ_eq_map, List.filter_cons, List.filter_map]
  cases places 0 with
  | false => simp [idsAt, List.filterMap_map, Function.comp_def]
  | true =>
    cases named : e.property.typeId? <;>
      simp [idsAt, List.filterMap_map, Function.comp_def, named]

theorem idsAt_eq_nil {places : Nat → Bool} (nowhere : ∀ i, places i = false) :
    idsAt es places = [] := by
  simp [idsAt, nowhere]

/-- The components at the front are named where the run reaches. -/
theorem front_eq_idsAt {places : Nat → Bool} (reached : ∀ i, places i ↔ run.Reaches es i) :
    front run es = idsAt es places := by
  induction es generalizing run places with
  | nil => rfl
  | cons e es ih =>
    rw [idsAt_cons, front]
    cases taken : run.take? e with
    | none =>
      have nowhere : ∀ i, places i = false := by
        intro i
        rw [Bool.eq_false_iff, ne_eq, reached]
        cases i with
        | zero => simp [Run.reaches_zero, taken]
        | succ i => simp [Run.reaches_succ, taken]
      rw [nowhere, idsAt_eq_nil fun i => nowhere (i + 1)]
      rfl
    | some id =>
      have here : places 0 := (reached 0).mpr (Run.reaches_zero.mpr (by rw [taken]; rfl))
      have later : ∀ i, places (i + 1) ↔ Run.continued.Reaches es i := by
        intro i
        rw [reached, Run.reaches_succ, taken]
        simp
      rw [here, typeId?_of_bareId? (bareId?_of_take? taken), ih later]
      rfl

theorem componentIds_zero (rich : e.property.kind = .richText) :
    componentIds (e :: es) 0 = front .opened es := by
  have nowhere : ¬ ComponentOf (e :: es) 0 0 := fun component => ComponentOf.exists_zero ⟨0, component⟩
  rw [componentIds, idsAt_cons, if_neg (by simpa using nowhere), List.nil_append]
  exact (front_eq_idsAt fun i => by simp [ComponentOf.zero_iff, rich]).symm

theorem componentIds_succ (e : Entry) (es : List Entry) (j : Nat) :
    componentIds (e :: es) (j + 1) = componentIds es j := by
  have behind : ¬ ComponentOf (e :: es) (j + 1) 0 :=
    fun component => ComponentOf.exists_zero ⟨_, component⟩
  rw [componentIds, idsAt_cons, if_neg (by simpa using behind), List.nil_append]
  simp only [ComponentOf.succ_iff]
  rfl

theorem withComponents_of_not_rich (plain : e.property.kind ≠ .richText) (ids : List String) :
    e.withComponents ids = e := by
  rw [Entry.withComponents]
  split
  · next r rich => exact absurd (by rw [Property.kind, rich]; rfl) plain
  · rfl

/-- Whatever the run, each entry is given the components that the rule gives it. -/
theorem given_eq (run : Run) (es : List Entry) (i : Nat) :
    (attach run es)[i]?.map (·.1) = es[i]?.map (·.withComponents (componentIds es i)) := by
  induction es generalizing run i with
  | nil => rfl
  | cons e es ih =>
    have later (run : Run) (i : Nat) : (attach run es)[i]?.map (·.1) =
        es[i]?.map (·.withComponents (componentIds (e :: es) (i + 1))) := by
      rw [componentIds_succ]
      exact ih run i
    rw [attach]
    split
    · next taken =>
      cases i with
      | zero => simp [withComponents_of_not_rich (not_rich_of_take? taken)]
      | succ i => exact later .continued i
    · split
      · next rich =>
        cases i with
        | zero => simp [componentIds_zero (isRichText_iff.mp rich)]
        | succ i => exact later .opened i
      · next plain =>
        rw [isRichText_iff] at plain
        cases i with
        | zero => simp [withComponents_of_not_rich plain]
        | succ i => exact later .closed i

/-- The rule of components: the entries that are marked are the components of some rich text; a rich
text that has any is given their ids in order, and every other entry stays as it is. -/
theorem attach_by_rule (es : List Entry) (i : Nat) :
    ((attach .closed es)[i]?.any (·.2) ↔ ∃ j, ComponentOf es j i) ∧
      (attach .closed es)[i]?.map (·.1) = es[i]?.map fun e =>
        match e.property.content, componentIds es i with
        | .richText r, id :: ids =>
          { e with property.content :=
              .richText { r with components := id :: ids, isComponentParent := true } }
        | _, _ => e := by
  constructor
  · simp [marked_iff, Run.not_reaches_closed]
  · rw [given_eq]
    congr 1
    funext ⟨⟨label, required, content⟩, line, afterBlank⟩
    cases content with
    | richText r => cases componentIds es i <;> rfl
    | _ => rfl

/-- A blank line in front of the first component does not matter, one before a later one does. -/
example :
    let text : Entry := { property := { label := "", required := false, content := .richText {} } }
    let name (id : String) (afterBlank : Bool) : Entry :=
      { property := { label := "", required := false, content := .type id }, afterBlank }
    (attach .closed [text, name "a" true, name "a" false, name "b" true]).map (·.2) =
      [false, true, true, false] := by
  decide

end ContentSchema.Components
