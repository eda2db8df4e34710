import Mathlib
import ContentSchema.Proofs.Chains.Enumeration
/-!
The exploration with a single queue, from which one open path is taken at a time. Every path that is
ever queued repeats no id and has types for all its ids (`Worklist.Sound`), so that it can grow only
as far as there are ids left. That bounds how much can come of a queue (`Worklist.weight`), and
every step uses some of it up. What the queue has listed when it is empty are the chains of the
levels (`worklist_ends`).
-/
namespace ContentSchema.Chains

variable {types : List ContentType}

/-- How many ids there are that have types. -/
def idCount (types : List ContentType) : Nat := (types.map (·.id)).dedup.length

theorem length_le_idCount {path : Path} (nodup : path.Nodup)
    (described : ∀ id ∈ path, id ∈ types.map (·.id)) : path.length ≤ idCount types :=
  nodup.length_le_of_subset fun id member => List.mem_dedup.mpr (described id member)

/-! Open paths -/

namespace Open

/-- No id of the path is repeated, all of them have types, and no link is counted twice. -/
structure Sound (types : List ContentType) (o : Open) : Prop where
  nodup : o.path.Nodup
  described : ∀ id ∈ o.path, id ∈ types.map (·.id)
  links : o.links.Nodup

variable {o longer : Open}

theorem sound_start {t : ContentType} (member : t ∈ types) : (start t).Sound types := by
  constructor
  case nodup => exact List.pairwise_singleton ..
  case described =>
    intro id isStart
    rw [List.mem_singleton.mp isStart]
    exact List.mem_map_of_mem member
  case links => exact t.links.nodup_toList

theorem Sound.next (sound : o.Sound types) (member : longer ∈ o.next types) :
    longer.Sound types := by
  obtain ⟨id, t, -, fresh, target, rfl⟩ := mem_next.mp member
  constructor
  case nodup => exact nodup_concat.mpr ⟨sound.nodup, fresh⟩
  case described =>
    intro visited inside
    obtain before | last := List.mem_append.mp inside
    · exact sound.described visited before
    · rw [List.mem_singleton.mp last, ← isSome_target?, target, Option.isSome_some]
  case links => exact t.links.nodup_toList

theorem length_path_of_mem_next (member : longer ∈ o.next types) :
    longer.path.length = o.path.length + 1 := by
  obtain ⟨id, t, -, -, -, rfl⟩ := mem_next.mp member
  exact List.length_append

/-- A path goes on by ids that it has not visited. -/
theorem Sound.length_next_le (sound : o.Sound types) :
    o.path.length + (o.next types).length ≤ idCount types := by
  let fresh := (o.links.filter (· ∉ o.path)).filter fun id => (target? types id).isSome
  have length : (o.next types).length = fresh.length := by
    simp only [Open.next, List.length_filterMap_eq_countP, Option.isSome_map,
      List.countP_eq_length_filter, fresh]
  have apart : (o.path ++ fresh).Nodup := by
    refine List.nodup_append.mpr ⟨sound.nodup, (sound.links.filter _).filter _, ?_⟩
    rintro id visited _ unvisited rfl
    simp [fresh, visited] at unvisited
  rw [length, ← List.length_append]
  apply length_le_idCount apart
  intro id member
  obtain visited | unvisited := List.mem_append.mp member
  · exact sound.described id visited
  · exact isSome_target?.mp (List.mem_filter.mp unvisited).2

end Open

/-- The most open paths that can come of one that may visit so many more ids, itself among them. -/
def extent : Nat → Nat
  | 0 => 1
  | n + 1 => (n + 1) * extent n + 1

def Open.weight (types : List ContentType) (o : Open) : Nat :=
  extent (idCount types - o.path.length)

theorem Open.Sound.weight_next {o : Open} (sound : o.Sound types) :
    ((o.next types).map (Open.weight types)).sum < o.weight types := by
  have ahead := sound.length_next_le
  have each : (o.next types).map (Open.weight types) =
      List.replicate (o.next types).length (extent (idCount types - (o.path.length + 1))) := by
    refine List.eq_replicate_iff.mpr ⟨List.length_map _, ?_⟩
    intro weight member
    obtain ⟨longer, inside, rfl⟩ := List.mem_map.mp member
    rw [Open.weight, length_path_of_mem_next inside]
  rw [each, List.sum_replicate_nat, Open.weight]
  cases left : idCount types - o.path.length with
  | zero =>
    have none : (o.next types).length = 0 := by omega
    rw [none, Nat.zero_mul]
    exact Nat.one_pos
  | succ n =>
    have fewer : idCount types - (o.path.length + 1) = n := by omega
    have bound : (o.next types).length ≤ n + 1 := by omega
    rw [fewer, extent]
    exact Nat.lt_succ_of_le (Nat.mul_le_mul_right _ bound)

/-! The queue -/

/-- The open paths in the order in which they are taken up, with the chains listed so far. -/
structure Worklist where
  queue : List Open
  chains : List Path
  closed : List Path

namespace Worklist

/-- Every type starts a chain. -/
def start (types : List ContentType) : Worklist :=
  { queue := types.map .start, chains := types.map fun t => [t.id], closed := [] }

/-- Takes up the first path: lists all that are one link longer, and puts those of them that may go
on behind the others. -/
def step? (types : List ContentType) (w : Worklist) : Option Worklist :=
  match w.queue with
  | [] => none
  | o :: queue => some
    { queue := queue ++ o.next types
      chains := w.chains ++ o.chains
      closed := w.closed ++ o.closed }

/-- So many steps lead from the first worklist to the second. -/
inductive Runs (types : List ContentType) : Nat → Worklist → Worklist → Prop where
  | done (w : Worklist) : Runs types 0 w w
  | step {n : Nat} {w w' w'' : Worklist} :
      w.step? types = some w' → Runs types n w' w'' → Runs types (n + 1) w w''

def Sound (types : List ContentType) (w : Worklist) : Prop := ∀ o ∈ w.queue, o.Sound types

/-- How many open paths can come of those in the queue. -/
def weight (types : List ContentType) (w : Worklist) : Nat := (w.queue.map (Open.weight types)).sum

variable {w w' w'' : Worklist} {n m : Nat}

theorem step?_eq_some_iff : w.step? types = some w' ↔ ∃ o queue, w.queue = o :: queue ∧
    w' = ⟨queue ++ o.next types, w.chains ++ o.chains, w.closed ++ o.closed⟩ := by
  obtain ⟨queue, chains, closed⟩ := w
  cases queue <;> simp [step?, eq_comm]

theorem sound_start (types : List ContentType) : (start types).Sound types := by
  intro o member
  obtain ⟨t, inside, rfl⟩ := List.mem_map.mp member
  exact Open.sound_start inside

theorem Sound.step (sound : w.Sound types) (step : w.step? types = some w') : w'.Sound types := by
  obtain ⟨o, queue, front, rfl⟩ := step?_eq_some_iff.mp step
  rw [Sound, front, List.forall_mem_cons] at sound
  intro longer member
  obtain queued | extended := List.mem_append.mp member
  · exact sound.2 longer queued
  · exact sound.1.next extended

/-- A step replaces a path by less than it can grow to. -/
theorem Sound.weight_step (sound : w.Sound types) (step : w.step? types = some w') :
    w'.weight types < w.weight types := by
  obtain ⟨o, queue, front, rfl⟩ := step?_eq_some_iff.mp step
  have less := (sound o (front ▸ List.mem_cons_self)).weight_next
  simp only [weight, front, List.map_append, List.sum_append, List.map_cons, List.sum_cons]
  omega

/-- Whatever is queued along a run is sound, and every step takes from the weight. -/
theorem Sound.run (sound : w.Sound types) (run : Runs types n w w') :
    w'.Sound types ∧ n + w'.weight types ≤ w.weight types := by
  induction run with
  | done w => exact ⟨sound, Nat.le_of_eq (Nat.zero_add _)⟩
  | step step _ ih =>
    have less := sound.weight_step step
    obtain ⟨sound, bound⟩ := ih (sound.step step)
    exact ⟨sound, by omega⟩

theorem weight_start (types : List ContentType) :
    (start types).weight types = types.length * extent (idCount types - 1) := by
  have each : (start types).queue.map (Open.weight types) =
      List.replicate types.length (extent (idCount types - 1)) := by
    simp [start, Open.weight, Open.start, Function.comp_def]
  rw [weight, each, List.sum_replicate_nat]

/-! A run takes up one level after the other -/

theorem Runs.append (first : Runs types n w w') (second : Runs types m w' w'') :
    Runs types (n + m) w w'' := by
  induction first with
  | done w => exact (Nat.zero_add m).symm ▸ second
  | @step n w v w' step _ ih => exact Nat.add_right_comm n 1 m ▸ .step step (ih second)

/-- The paths at the front of a queue are taken up in order. -/
theorem runs_level (types : List ContentType) (level later : List Open)
    (chains closed : List Path) :
    Runs types level.length ⟨level ++ later, chains, closed⟩
      ⟨later ++ level.flatMap (·.next types), chains ++ level.flatMap (·.chains),
        closed ++ level.flatMap (·.closed)⟩ := by
  -- The paths that each one adds stand behind all others, so `later` is general.
  induction level generalizing later chains closed with
  | nil => simpa using Runs.done ⟨later, chains, closed⟩
  | cons o level ih =>
    have taken : step? types ⟨o :: level ++ later, chains, closed⟩ =
        some ⟨level ++ (later ++ o.next types), chains ++ o.chains, closed ++ o.closed⟩ := by
      rw [← List.append_assoc]
      rfl
    have rest := ih (later ++ o.next types) (chains ++ o.chains) (closed ++ o.closed)
    simp only [List.append_assoc] at rest
    simpa only [List.flatMap_cons, List.length_cons] using Runs.step taken rest

theorem exists_runs_explore {rounds : Nat} {level : List Open} (ends : grow types rounds level = [])
    (chains closed : List Path) : ∃ n, Runs types n ⟨level, chains, closed⟩
      ⟨[], chains ++ (explore types rounds level).1, closed ++ (explore types rounds level).2⟩ := by
  induction rounds generalizing level chains closed with
  | zero =>
    rw [grow] at ends
    exact ⟨0, by simpa [ends, explore] using Runs.done ⟨[], chains, closed⟩⟩
  | succ rounds ih =>
    obtain ⟨n, rest⟩ := ih ends (chains ++ level.flatMap (·.chains))
      (closed ++ level.flatMap (·.closed))
    have first := runs_level types level [] chains closed
    rw [List.append_nil, List.nil_append] at first
    exact ⟨level.length + n, by simpa only [explore, List.append_assoc] using first.append rest⟩

end Worklist

theorem grow_length (types : List ContentType) :
    grow types types.length (types.map .start) = [] := by
  rw [List.map_eq_flatMap, grow_flatMap, List.flatMap_eq_nil_iff]
  intro t start
  rw [List.eq_nil_iff_forall_not_mem]
  intro o member
  obtain ⟨ids, u, walk, nodup, length, -⟩ := mem_grow_start.mp member
  exact absurd length (Nat.ne_of_lt (walk.length_lt start nodup))

theorem length_le_of_mem_paths {path : Path} (member : path ∈ (paths types).1 ++ (paths types).2) :
    path.length ≤ idCount types + 1 := by
  obtain ⟨t, start, rfl | ⟨ids, u, id, walk, nodup, -, rfl⟩⟩ := exists_walk_of_mem_paths member
  · exact Nat.le_add_left 1 _
  · rw [List.length_append, List.length_singleton]
    exact Nat.succ_le_succ (length_le_idCount nodup (walk.visited_described start))

/-- However types link to each other, the queue only ever holds paths without a repeated id and with
types for all their ids, is empty after a bounded number of steps, and has then listed the chains
and closed chains. None of them is longer than the number of ids with types, and one. -/
theorem worklist_ends (types : List ContentType) :
    (∀ n w, Worklist.Runs types n (.start types) w →
      (∀ o ∈ w.queue, o.path.Nodup ∧ ∀ id ∈ o.path, id ∈ types.map (·.id)) ∧
        n ≤ types.length * extent (idCount types - 1)) ∧
    (∃ n, Worklist.Runs types n (.start types)
      { queue := [], chains := (paths types).1, closed := (paths types).2 }) ∧
    ∀ depth, (stats types).maxDepth = some depth → depth ≤ idCount types + 1 := by
  refine ⟨?_, ?_, ?_⟩
  · intro n w run
    obtain ⟨sound, bound⟩ := (Worklist.sound_start types).run run
    rw [Worklist.weight_start] at bound
    exact ⟨fun o member => ⟨(sound o member).nodup, (sound o member).described⟩, by omega⟩
  · exact Worklist.exists_runs_explore (grow_length types) (types.map fun t => [t.id]) []
  · intro depth longest
    obtain ⟨⟨path, member, rfl⟩, -⟩ := maxDepth_eq_some_iff.mp longest
    exact length_le_of_mem_paths member

/-- A type that links to itself, to another one, and to an id without a type. The other id has two
types, and links lead to the second. -/
theorem worklist_ends_tangled :
    let a : ContentType := { id := "A", label := "a", links := .ofList ["A", "B", "Missing"] }
    let b : ContentType := { id := "B", label := "b", links := .ofList ["A"] }
    let types := [a, b, .placeholder "B"]
    let last : Worklist := { queue := [], chains := (paths types).1, closed := (paths types).2 }
    (∃ n ≤ 6, Worklist.Runs types n (.start types) last) ∧
      (stats types).maxDepth = some 3 ∧ 3 ≤ idCount types + 1 := by
  intro a b types last
  obtain ⟨queued, ⟨n, run⟩, depth⟩ := worklist_ends types
  have bound : n ≤ 6 := (queued n last run).2
  have deepest : (stats types).maxDepth = some 3 := by decide
  exact ⟨⟨n, bound, run⟩, deepest, depth 3 deepest⟩

end ContentSchema.Chains
