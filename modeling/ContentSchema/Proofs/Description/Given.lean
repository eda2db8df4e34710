import ContentSchema.Proofs.Description.Supply
/-!
Where a supply comes from. Whatever a property has was said by one of the options of its line
(`Supply.exists_said`), though counts, and the formats of tables, are not written as they stood
there (`Clause.Renews`).
-/
namespace ContentSchema

/-- What is computed in two steps comes of both. -/
theorem of_bind_eq_ok {α β ε : Type} {x : Except ε α} {f : α → Except ε β} {b : β}
    (bound : (do f (← x)) = .ok b) : ∃ a, x = .ok a ∧ f a = .ok b := by
  cases x with
  | error e => contradiction
  | ok a => exact ⟨a, rfl, bound⟩

theorem map_eq_ok_iff {α β ε : Type} {x : Except ε α} {f : α → β} {b : β} :
    x.map f = .ok b ↔ ∃ a, x = .ok a ∧ b = f a := by
  cases x <;> simp [Except.map, eq_comm]

/-- How what an option has said is said once more: counts without leading zeros, and only the formats
among the values of tables. -/
inductive Clause.Renews : Clause → Clause → Prop where
  | required : Renews .required .required
  | images : Renews .images .images
  | range (r : CountRange) : Renews (.range r) (.range r)
  | format (f : Format) : Renews (.format f) (.format f)
  | words {v : String} {n : UInt32} : (Decimal.readSigned? v.toList).bind Decimal.toCount? = some n →
      Renews (.words [v]) (.words [Decimal.ofCount n])
  | characters {v : String} {n : UInt32} :
      (Decimal.readSigned? v.toList).bind Decimal.toCount? = some n →
      Renews (.characters [v]) (.characters [Decimal.ofCount n])
  | tables {values : List String} {fs : Formatting} : (∀ f, fs.allows f → f.token ∈ values) →
      Renews (.tables values) (.tables (Property.flags fs))
  | choice (text : String) : Renews (.choice text) (.choice text)

namespace Supply

variable {g : Grammar} {kind : Kind} {token : String} {tokens : List String} {said c : Clause}
  {s s' : Supply}

/-- What a supply has to say once more. -/
def Gives (s : Supply) : Clause → Prop
  | .required => s.required
  | .images => s.images
  | .range r => s.range = some r
  | .format f => s.formatting.allows f
  | .words values => ∃ n, s.words = some (some n) ∧ values = [Decimal.ofCount n]
  | .characters values => ∃ n, s.characters = some (some n) ∧ values = [Decimal.ofCount n]
  | .tables values => ∃ fs, s.tables = some fs ∧ values = Property.flags fs
  | .choice text => text ∈ s.choices

theorem not_gives_empty (c : Clause) : ¬ ({} : Supply).Gives c := by
  cases c <;> simp [Gives]

theorem of_limit {values : List String} {n : UInt32} (limited : limit token values = .ok (some n)) :
    ∃ v, values = [v] ∧ (Decimal.readSigned? v.toList).bind Decimal.toCount? = some n := by
  match values with
  | [] => simp [limit] at limited
  | [v] => exact ⟨v, rfl, Except.ok.inj limited⟩
  | _ :: _ :: _ => contradiction

theorem of_tableFormats {values : List String} {t fs : Formatting} {f : Format}
    (formats : tableFormats t values = .ok fs) (allowed : fs.allows f) :
    t.allows f ∨ f.token ∈ values := by
  induction values generalizing t with
  | nil =>
    cases formats
    exact .inl allowed
  | cons v values ih =>
    rw [tableFormats] at formats
    cases isFormat : Format.ofToken? v with
    | none =>
      simp only [isFormat] at formats
      exact (ih formats).imp_right fun listed => List.mem_cons_of_mem v listed
    | some x =>
      simp only [isFormat] at formats
      split at formats
      · contradiction
      · obtain before | listed := ih formats
        · rw [Formatting.allows_enable, Bool.or_eq_true, beq_iff_eq] at before
          obtain rfl | before := before
          · right
            rw [Format.token_of_ofToken? isFormat]
            exact List.mem_cons_self
          · exact .inl before
        · exact .inr (List.mem_cons_of_mem v listed)

/-- A clause adds just what it says. -/
theorem gives_of_add (added : s.add token said = .ok s') (gives : s'.Gives c) :
    s.Gives c ∨ Clause.Renews said c := by
  cases said <;> rw [add] at added
  case choice text =>
    rw [← Except.ok.inj added] at gives
    cases c with
    | choice text' =>
      obtain before | last := List.mem_append.mp gives
      · exact .inl before
      · rw [List.mem_singleton.mp last]
        exact .inr (.choice text)
    | _ => exact .inl gives
  all_goals
    split at added
    · contradiction
  case required =>
    rw [← Except.ok.inj added] at gives
    cases c with
    | required => exact .inr .required
    | _ => exact .inl gives
  case images =>
    rw [← Except.ok.inj added] at gives
    cases c with
    | images => exact .inr .images
    | _ => exact .inl gives
  case range r _ =>
    rw [← Except.ok.inj added] at gives
    cases c with
    | range r' =>
      rw [← Option.some.inj gives]
      exact .inr (.range r)
    | _ => exact .inl gives
  case format =>
    rw [← Except.ok.inj added] at gives
    cases c with
    | format f' =>
      rw [Gives, Formatting.allows_enable, Bool.or_eq_true, beq_iff_eq] at gives
      obtain rfl | before := gives
      · exact .inr (.format f')
      · exact .inl before
    | _ => exact .inl gives
  case words =>
    obtain ⟨n, limited, rfl⟩ := map_eq_ok_iff.mp added
    cases c with
    | words written =>
      obtain ⟨n, same, rfl⟩ := gives
      cases same
      obtain ⟨v, rfl, read⟩ := of_limit limited
      exact .inr (.words read)
    | _ => exact .inl gives
  case characters =>
    obtain ⟨n, limited, rfl⟩ := map_eq_ok_iff.mp added
    cases c with
    | characters written =>
      obtain ⟨n, same, rfl⟩ := gives
      cases same
      obtain ⟨v, rfl, read⟩ := of_limit limited
      exact .inr (.characters read)
    | _ => exact .inl gives
  case tables =>
    obtain ⟨fs, formats, rfl⟩ := map_eq_ok_iff.mp added
    cases c with
    | tables written =>
      obtain ⟨_, same, rfl⟩ := gives
      cases same
      refine .inr (.tables fun f allowed => ?_)
      exact (of_tableFormats formats allowed).resolve_left Bool.false_ne_true
    | _ => exact .inl gives

theorem gives_of_foldlM (supplied : tokens.foldlM (addToken g kind) s = .ok s')
    (gives : s'.Gives c) : s.Gives c ∨
      ∃ t ∈ tokens, ∃ said, Clause.Said g kind t said ∧ Clause.Renews said c := by
  induction tokens generalizing s with
  | nil =>
    cases supplied
    exact .inl gives
  | cons token tokens ih =>
    rw [List.foldlM_cons] at supplied
    obtain ⟨next, added, supplied⟩ := of_bind_eq_ok supplied
    obtain before | ⟨t, later, said, isSaid, renews⟩ := ih supplied
    · obtain ⟨clause, isSaid, added⟩ := of_bind_eq_ok added
      cases clause with
      | none =>
        rw [← Except.ok.inj added] at before
        exact .inl before
      | some said =>
        refine (gives_of_add added before).imp_right fun renews => ?_
        exact ⟨token, List.mem_cons_self, said, isSaid, renews⟩
    · exact .inr ⟨t, List.mem_cons_of_mem token later, said, isSaid, renews⟩

/-- All that options supply, one of them has said. -/
theorem exists_said (supplied : ofTokens g kind tokens = .ok s) (gives : s.Gives c) :
    ∃ t ∈ tokens, ∃ said, Clause.Said g kind t said ∧ Clause.Renews said c :=
  (gives_of_foldlM supplied gives).resolve_left (not_gives_empty c)

/-- The options of a property are written for what its supply gives. -/
theorem gives_of_mem_clauses {label identifier : String} {required : Bool}
    (same : required = s.required)
    (member : c ∈ Property.clauses { label, required, content := s.content g identifier kind }) :
    s.Gives c := by
  have bounds {c : Clause} (member : c ∈ Clause.ofBounds (s.range.getD {})) : s.Gives c := by
    obtain ⟨bounded, rfl⟩ := Clause.mem_ofBounds.mp member
    cases range : s.range with
    | none => simp [range] at bounded
    | some r => simp [Gives, range]
  have limits {c : Clause} (member : c ∈ Clause.ofLimits s.words.join s.characters.join) :
      s.Gives c := by
    obtain ⟨n, limited, rfl⟩ | ⟨n, limited, rfl⟩ := Clause.mem_ofLimits.mp member
    · exact ⟨n, Option.join_eq_some_iff.mp limited, rfl⟩
    · exact ⟨n, Option.join_eq_some_iff.mp limited, rfl⟩
  have choices {c : Clause} (member : c ∈ s.choices.map Clause.choice) : s.Gives c := by
    obtain ⟨v, listed, rfl⟩ := List.mem_map.mp member
    exact listed
  rw [Property.clauses, List.mem_append] at member
  obtain member | mark := member
  · cases kind with
    | linkedItems => exact bounds member
    | asset =>
      obtain images | member := List.mem_append.mp member
      · cases mode : s.images with
        | false => simp [mode] at images
        | true =>
          rw [mode] at images
          rw [List.mem_singleton.mp images]
          exact mode
      · exact bounds member
    | text => exact limits member
    | singleChoice => exact choices member
    | multipleChoice => exact choices member
    | richText =>
      rw [content, Content.clauses, List.mem_append, List.mem_append] at member
      obtain (format | tables) | limit := member
      · obtain ⟨f, enabled, rfl⟩ := List.mem_map.mp format
        exact Formatting.mem_enabled.mp enabled
      · cases formats : s.tables with
        | none => simp [formats] at tables
        | some fs =>
          simp only [formats, Option.isSome_some, if_true, List.mem_singleton] at tables
          rw [tables]
          exact ⟨fs, formats, rfl⟩
      · exact limits limit
    | _ => contradiction
  · cases marked : required with
    | false => simp [marked] at mark
    | true =>
      rw [marked, if_pos rfl, List.mem_singleton] at mark
      rw [mark]
      exact same.symm.trans marked

end Supply

end ContentSchema
