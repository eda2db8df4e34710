/-!
Sets of ids, kept as lists that rise strictly in code-point order: equal sets are equal values
(`IdSet.ext`), and the list is the order in which a set is shown.
-/
namespace ContentSchema

namespace IdSet

/-- Puts the id before the first larger one, unless it is there already. -/
def place (id : String) : List String → List String
  | [] => [id]
  | x :: xs => if id < x then id :: x :: xs else if id = x then x :: xs else x :: place id xs

theorem mem_place {id y : String} {xs : List String} : y ∈ place id xs ↔ y = id ∨ y ∈ xs := by
  induction xs with
  | nil => simp [place]
  | cons x xs ih => grind [place]

theorem pairwise_place {id : String} {xs : List String} (h : xs.Pairwise (· < ·)) :
    (place id xs).Pairwise (· < ·) := by
  induction xs with
  | nil => simp [place]
  | cons x xs ih =>
    obtain ⟨least, rest⟩ := List.pairwise_cons.mp h
    rw [place]
    split
    · next lt =>
      exact List.pairwise_cons.mpr ⟨fun y hy => (List.mem_cons.mp hy).elim (· ▸ lt)
        (String.lt_trans lt <| least y ·), h⟩
    · split
      · exact h
      · next ge ne =>
        have above : x < id := Std.lt_of_le_of_ne (String.not_lt.mp ge) (Ne.symm ne)
        exact List.pairwise_cons.mpr ⟨fun y hy => (mem_place.mp hy).elim (· ▸ above) (least y ·),
          ih rest⟩

end IdSet

/-- A set of ids. -/
structure IdSet where
  toList : List String
  rising : toList.Pairwise (· < ·)
deriving DecidableEq

namespace IdSet

instance : EmptyCollection IdSet := ⟨⟨[], .nil⟩⟩

instance : Inhabited IdSet := ⟨∅⟩

instance : Membership String IdSet := ⟨fun s id => id ∈ s.toList⟩

instance (id : String) (s : IdSet) : Decidable (id ∈ s) :=
  inferInstanceAs (Decidable (id ∈ s.toList))

instance (s : IdSet) (p : String → Prop) [DecidablePred p] : Decidable (∀ id ∈ s, p id) :=
  inferInstanceAs (Decidable (∀ id ∈ s.toList, p id))

def insert (id : String) (s : IdSet) : IdSet :=
  ⟨place id s.toList, pairwise_place s.rising⟩

def ofList (ids : List String) : IdSet :=
  ids.foldr insert ∅

/-- The smallest id of the set. -/
def least? (s : IdSet) : Option String :=
  s.toList.head?

def size (s : IdSet) : Nat :=
  s.toList.length

@[simp] theorem mem_toList {id : String} {s : IdSet} : id ∈ s.toList ↔ id ∈ s := Iff.rfl

@[simp] theorem not_mem_empty (id : String) : ¬ id ∈ (∅ : IdSet) := List.not_mem_nil

@[simp] theorem mem_insert {id x : String} {s : IdSet} : x ∈ s.insert id ↔ x = id ∨ x ∈ s :=
  mem_place

@[simp] theorem mem_ofList {x : String} {ids : List String} : x ∈ ofList ids ↔ x ∈ ids := by
  induction ids with
  | nil => exact ⟨fun h => absurd h (not_mem_empty x), fun h => absurd h List.not_mem_nil⟩
  | cons id ids ih => simp [ofList, ← ih]

theorem nodup_toList (s : IdSet) : s.toList.Nodup :=
  s.rising.imp fun lt => fun eq : _ = _ => String.lt_irrefl _ (eq ▸ lt)

/-- Two sets with the same members are one. -/
@[ext] theorem ext {s t : IdSet} (h : ∀ id, id ∈ s ↔ id ∈ t) : s = t := by
  have same : s.toList = t.toList :=
    List.Perm.eq_of_pairwise (fun _ _ _ _ lt gt => absurd gt (String.lt_asymm lt))
      s.rising t.rising
      ((List.perm_ext_iff_of_nodup s.nodup_toList t.nodup_toList).mpr h)
  cases s
  cases t
  cases same
  rfl

/-- A set is rebuilt from its list. -/
theorem ofList_toList (s : IdSet) : ofList s.toList = s := by
  ext id
  simp

end IdSet

end ContentSchema
