import ContentSchema.Description.Supply
import ContentSchema.Proofs.Description.Clause
import ContentSchema.Proofs.Property
/-!
What the options of a property supply. The options that are written for a content supply all that it
has but the ids (`ofTokens_tokens`), from which the content is made again (`content_supplied`).
-/
namespace ContentSchema

namespace Decimal

/-- A written count has no sign. -/
theorem readSigned?_ofCount (n : UInt32) :
    (readSigned? (ofCount n).toList).bind toCount? = some n := by
  have signless : readSigned? (ofCount n).toList = read? (ofCount n).toList := by
    unfold readSigned?
    split
    · next rest signed =>
      have digit : '+'.isDigit := isDigit_of_mem_ofCount (n := n) (by simp [signed])
      exact absurd digit (by decide)
    · rfl
  rw [signless, read?_ofCount]

end Decimal

namespace Formatting

theorem foldl_enable (s : Formatting) : s.enabled.foldl (fun t f => t.enable f) {} = s := by
  have allows (fs : List Format) (t : Formatting) (f : Format) :
      (fs.foldl (fun t f => t.enable f) t).allows f = (decide (f ∈ fs) || t.allows f) := by
    induction fs generalizing t with
    | nil => simp
    | cons x fs ih =>
      rw [List.foldl_cons, ih, allows_enable]
      by_cases same : f = x
      · simp [same]
      · simp [same, beq_eq_false_iff_ne.mpr same]
  ext f
  rw [allows]
  simp

theorem free_of_enable {f : Format} {fs : List Format} {t : Formatting} (absent : f ∉ fs)
    (free : ∀ x ∈ fs, t.allows x = false) : ∀ x ∈ fs, (t.enable f).allows x = false := by
  intro x member
  have other : x ≠ f := fun same => absent (same ▸ member)
  simp [allows_enable, beq_eq_false_iff_ne.mpr other, free x member]

theorem nodup_enabled (s : Formatting) : s.enabled.Nodup :=
  List.Pairwise.filter _ (by decide)

end Formatting

namespace Supply

variable {g : Grammar} {kind : Kind} {c : Clause} {cs : List Clause} {s s' s'' : Supply}

/-- What clauses supply one after the other, whatever the options are that say them. -/
inductive Gains : Supply → List Clause → Supply → Prop where
  | nil {s : Supply} : Gains s [] s
  | cons {s s' s'' : Supply} {c : Clause} {cs : List Clause} :
      (∀ token, s.add token c = .ok s') → Gains s' cs s'' → Gains s (c :: cs) s''

theorem Gains.single (added : ∀ token, s.add token c = .ok s') : Gains s [c] s' :=
  .cons added .nil

theorem Gains.append {cs' : List Clause} (first : Gains s cs s') (second : Gains s' cs' s'') :
    Gains s (cs ++ cs') s'' := by
  induction first with
  | nil => exact second
  | cons added _ ih => exact .cons added (ih second)

theorem foldlM_of_gains (said : ∀ c ∈ cs, Clause.Said g kind (c.token g) c) (gains : Gains s cs s') :
    (cs.map (Clause.token g)).foldlM (addToken g kind) s = .ok s' := by
  induction gains with
  | nil => rfl
  | @cons s s' _ c _ added _ ih =>
    rw [List.forall_mem_cons] at said
    have gained : addToken g kind s (c.token g) = .ok s' := by
      rw [addToken, said.1]
      exact added _
    rw [List.map_cons, List.foldlM_cons, gained]
    exact ih said.2

/-- What a content supplies by its options. -/
def supplied : Content → Supply
  | .linkedItems _ range => { range := if range = {} then none else some range }
  | .asset mode range =>
    { images := mode = .images, range := if range = {} then none else some range }
  | .text words characters => { words := words.map some, characters := characters.map some }
  | .singleChoice options => { choices := options }
  | .multipleChoice options => { choices := options }
  | .richText r =>
    { words := r.words.map some
      characters := r.characters.map some
      formatting := r.formatting
      tables := if r.tables then some r.tableFormatting else none }
  | _ => {}

theorem gains_bounds (r : CountRange) (free : s.range = none) :
    Gains s (Clause.ofBounds r) { s with range := if r = {} then none else some r } := by
  by_cases empty : r = {}
  · have same : { s with range := none } = s := by rw [← free]
    rw [Clause.ofBounds, if_pos empty, if_pos empty, same]
    exact .nil
  · rw [Clause.ofBounds, if_neg empty, if_neg empty]
    refine .single fun token => ?_
    simp [add, free]

theorem limit_ofCount (token : String) (n : UInt32) :
    limit token [Decimal.ofCount n] = .ok (some n) := by
  rw [limit, Decimal.readSigned?_ofCount]

theorem gains_limits (words characters : Option UInt32)
    (free : s.words = none ∧ s.characters = none) :
    Gains s (Clause.ofLimits words characters)
      { s with words := words.map some, characters := characters.map some } := by
  have gainsWords : Gains s (words.map fun n => .words [Decimal.ofCount n]).toList
      { s with words := words.map some } := by
    cases words with
    | none =>
      have same : { s with words := none } = s := by rw [← free.1]
      exact same ▸ .nil
    | some n =>
      refine .single fun token => ?_
      simp [add, free.1, limit_ofCount, Except.map]
  apply gainsWords.append
  cases characters with
  | none =>
    have same : { s with words := words.map some, characters := none } =
        { s with words := words.map some } := by rw [← free.2]
    exact same ▸ .nil
  | some n =>
    refine .single fun token => ?_
    simp [add, free.2, limit_ofCount, Except.map]

theorem gains_flags (fs : List Format) (distinct : fs.Nodup)
    (free : ∀ f ∈ fs, s.formatting.allows f = false) :
    Gains s (fs.map .format)
      { s with formatting := fs.foldl (fun t f => t.enable f) s.formatting } := by
  induction fs generalizing s with
  | nil => exact .nil
  | cons f fs ih =>
    obtain ⟨absent, distinct⟩ := List.nodup_cons.mp distinct
    rw [List.forall_mem_cons] at free
    have rest : Gains { s with formatting := s.formatting.enable f } (fs.map .format)
        { s with formatting := fs.foldl (fun t f => t.enable f) (s.formatting.enable f) } :=
      ih distinct (Formatting.free_of_enable absent free.2)
    refine .cons (fun token => ?_) rest
    simp [add, free.1]

theorem tableFormats_flags (fs : List Format) (distinct : fs.Nodup) (t : Formatting)
    (free : ∀ f ∈ fs, t.allows f = false) :
    tableFormats t (fs.map Format.token) = .ok (fs.foldl (fun t f => t.enable f) t) := by
  induction fs generalizing t with
  | nil => rfl
  | cons f fs ih =>
    obtain ⟨absent, distinct⟩ := List.nodup_cons.mp distinct
    rw [List.forall_mem_cons] at free
    rw [List.map_cons, tableFormats, Format.ofToken?_token]
    simp only [free.1]
    exact ih distinct (t.enable f) (Formatting.free_of_enable absent free.2)

theorem gains_tables (tables : Bool) (formats : Formatting) (free : s.tables = none) :
    Gains s (if tables then [.tables (Property.flags formats)] else [])
      { s with tables := if tables then some formats else none } := by
  cases tables with
  | false =>
    have same : { s with tables := none } = s := by rw [← free]
    exact same ▸ .nil
  | true =>
    have read : tableFormats {} (Property.flags formats) = .ok formats := by
      rw [Property.flags, tableFormats_flags _ formats.nodup_enabled _ fun _ _ => rfl,
        Formatting.foldl_enable]
    refine .single fun token => ?_
    simp [add, free, read, Except.map]

theorem gains_choices (options : List String) :
    Gains s (options.map .choice) { s with choices := s.choices ++ options } := by
  induction options generalizing s with
  | nil =>
    rw [List.append_nil]
    exact .nil
  | cons v options ih =>
    have rest := ih (s := { s with choices := s.choices ++ [v] })
    rw [List.append_assoc, List.singleton_append] at rest
    exact .cons (fun _ => rfl) rest

theorem gains_clauses (content : Content) : Gains {} content.clauses (supplied content) := by
  cases content with
  | linkedItems ids range => exact gains_bounds range rfl
  | asset mode range =>
    cases mode with
    | none => exact gains_bounds range rfl
    | images => exact .cons (fun _ => rfl) (gains_bounds range rfl)
  | text words characters => exact gains_limits words characters ⟨rfl, rfl⟩
  | singleChoice options => exact gains_choices options
  | multipleChoice options => exact gains_choices options
  | richText r =>
    have flags := gains_flags (s := {}) r.formatting.enabled r.formatting.nodup_enabled fun _ _ => rfl
    rw [Formatting.foldl_enable] at flags
    exact (flags.append (gains_tables r.tables r.tableFormatting rfl)).append
      (gains_limits r.words r.characters ⟨rfl, rfl⟩)
  | _ => exact .nil

/-- The options of a property supply what its content has, and whether a value is required. -/
theorem ofTokens_tokens {p : Property} (said : ∀ c ∈ p.clauses, Clause.Said g p.kind (c.token g) c) :
    ofTokens g p.kind (p.tokens g) = .ok { supplied p.content with required := p.required } := by
  have unrequired : (supplied p.content).required = false := by
    cases p.content <;> rfl
  have mark : Gains (supplied p.content) (if p.required then [.required] else [])
      { supplied p.content with required := p.required } := by
    cases p.required with
    | false =>
      have same : { supplied p.content with required := false } = supplied p.content := by
        rw [← unrequired]
      exact same ▸ .nil
    | true =>
      refine .single fun token => ?_
      simp [add, unrequired]
  rw [ofTokens, Property.tokens_eq_map]
  exact foldlM_of_gains said ((gains_clauses p.content).append mark)

end Supply

namespace Content

/-- Whether an identifier holds the ids of a content. -/
def NamedBy (g : Grammar) (identifier : String) : Content → Prop
  | type id => identifier = id
  | snippet id => identifier = id
  | linkedItems ids _ =>
    ((Text.split g.arrayDelimiter identifier).map (Text.trim g.space)).filter (· ≠ "") = ids
  | _ => True

end Content

namespace Supply

variable {g : Grammar}

/-- What has been supplied gives the content without its components, where the ids of the content
are those of the identifier. -/
theorem content_supplied {c : Content} {identifier : String} (told : c.Told g)
    (named : c.NamedBy g identifier) (required : Bool) :
    ({ supplied c with required } : Supply).content g identifier c.kind = c.bare := by
  have ranged (r : CountRange) : (if r = {} then none else some r).getD {} = r := by
    by_cases empty : r = {} <;> simp [empty]
  have limited (n : Option UInt32) : (n.map some).join = n := by
    cases n <;> rfl
  cases c with
  | type id => rw [named]; rfl
  | snippet id => rw [named]; rfl
  | linkedItems ids range =>
    rw [Content.NamedBy] at named
    simp only [supplied, content, Content.kind, named, ranged]
    rfl
  | asset mode range =>
    cases mode <;> simp [supplied, content, Content.kind, Content.bare, ranged]
  | richText r =>
    cases tables : r.tables with
    | false => simp [supplied, content, Content.kind, Content.bare, limited, tables, told tables]
    | true => simp [supplied, content, Content.kind, Content.bare, limited, tables]
  | text words characters => simp [supplied, content, Content.kind, Content.bare, limited]
  | date => rfl
  | number => rfl
  | singleChoice options => rfl
  | multipleChoice options => rfl
  | custom => rfl

end Supply

end ContentSchema
