import ContentSchema.Proofs.Description.Outcome
/-!
Options in another order. Clauses of which no two clash add the same in any order, but for choices,
which are kept in the order of the options (`Supply.extendAll_perm`). So options are refused in one
order exactly if they are in every other, and the properties of a line differ in the order of its
choices alone (`Line.describe_of_reordered`).
-/
namespace ContentSchema

/-- The content with other choices, where it has choices. -/
def Content.withChoices (options : List String) : Content → Content
  | .singleChoice _ => .singleChoice options
  | .multipleChoice _ => .multipleChoice options
  | content => content

def Property.withChoices (options : List String) (p : Property) : Property :=
  { p with content := p.content.withChoices options }

theorem Content.withChoices_withChoices (options others : List String) (c : Content) :
    (c.withChoices others).withChoices options = c.withChoices options := by
  cases c <;> rfl

theorem Property.withChoices_withChoices (options others : List String) (p : Property) :
    (p.withChoices others).withChoices options = p.withChoices options := by
  rw [withChoices, withChoices, withChoices, Content.withChoices_withChoices]

namespace Supply

variable {g : Grammar} {kind : Kind} {tokens tokens' : List String} {c c' : Clause}
  {cs cs' : List Clause} {s : Supply}

def withChoices (options : List String) (s : Supply) : Supply := { s with choices := options }

/-- What a clause adds besides a choice. -/
def extendBare (s : Supply) (c : Clause) : Supply := (s.extend c).withChoices []

/-- Whether clauses add the same in either order, besides choices. -/
def Commute (c c' : Clause) : Prop :=
  ∀ s : Supply, (s.extendBare c).extendBare c' = (s.extendBare c').extendBare c

instance : Std.Symm Commute := ⟨fun _ _ commute s => (commute s).symm⟩

theorem commute_of_not_clashes (apart : ¬ c.Clashes c') : Commute c c' := by
  intro s
  cases c <;> cases c'
  case format.format f f' =>
    have same : (s.formatting.enable f).enable f' = (s.formatting.enable f').enable f := by
      ext x
      simp only [Formatting.allows_enable, Bool.or_left_comm]
    simp only [extendBare, extend, withChoices, same]
  case required.required | images.images | range.range | words.words | characters.characters |
      tables.tables => exact absurd trivial apart
  all_goals rfl

theorem withChoices_extendAll (s : Supply) (cs : List Clause) :
    (s.extendAll cs).withChoices [] = cs.foldl extendBare (s.withChoices []) := by
  induction cs generalizing s with
  | nil => rfl
  | cons c cs ih =>
    have step : (s.extend c).withChoices [] = (s.withChoices []).extendBare c := by
      cases c <;> rfl
    rw [List.foldl_cons, ← step]
    exact ih (s.extend c)

/-- The order of clauses that do not clash matters to the choices alone. -/
theorem extendAll_perm (perm : cs.Perm cs') (apart : cs.Pairwise fun c c' => ¬ c.Clashes c') :
    (s.extendAll cs).withChoices [] = (s.extendAll cs').withChoices [] := by
  -- A clause that is no choice clashes with itself, yet commutes with itself.
  have commute : ∀ c ∈ cs, ∀ c' ∈ cs, Commute c c' :=
    (apart.imp commute_of_not_clashes).forall_of_forall fun _ _ _ => rfl
  rw [withChoices_extendAll, withChoices_extendAll]
  exact perm.foldl_eq' commute (s.withChoices [])

/-- Options that supply something supply it in every order, with the choices in that order. -/
theorem ofTokens_perm (perm : tokens.Perm tokens') (supplied : ofTokens g kind tokens = .ok s) :
    ∃ options, ofTokens g kind tokens' = .ok (s.withChoices options) := by
  obtain ⟨reads, sound, apart, rfl⟩ := ofTokens_eq_ok_iff.mp supplied
  have same : (clauses g kind tokens).Perm (clauses g kind tokens') := perm.filterMap _
  let options := (extendAll {} (clauses g kind tokens')).choices
  have equal : (extendAll {} (clauses g kind tokens)).withChoices options =
      extendAll {} (clauses g kind tokens') :=
    calc (extendAll {} (clauses g kind tokens)).withChoices options
        = ((extendAll {} (clauses g kind tokens)).withChoices []).withChoices options := rfl
      _ = ((extendAll {} (clauses g kind tokens')).withChoices []).withChoices options := by
        rw [extendAll_perm same apart]
      _ = extendAll {} (clauses g kind tokens') := rfl
  refine ⟨options, ofTokens_eq_ok_iff.mpr ⟨?_, ?_, ?_, equal⟩⟩
  · intro t listed
    exact reads t (perm.mem_iff.mpr listed)
  · intro c member
    exact sound c (same.mem_iff.mpr member)
  · apply same.pairwise apart
    intro c c' apart clash
    exact apart clash.symm

theorem content_withChoices (options : List String) (identifier : String) :
    (s.withChoices options).content g identifier kind =
      (s.content g identifier kind).withChoices options := by
  cases kind <;> rfl

end Supply

namespace Line

variable {g : Grammar} {l l' : Line} {p : Property}

/-- The second line is the first with its options in another order. -/
structure Reordered (l l' : Line) : Prop where
  rest : { l' with options := l.options } = l
  brackets : l'.options.isSome = l.options.isSome
  options : (l.options.getD []).Perm (l'.options.getD [])

theorem Reordered.symm (reordered : l.Reordered l') : l'.Reordered l := by
  obtain ⟨rest, brackets, options⟩ := reordered
  refine ⟨?_, brackets.symm, options.symm⟩
  rw [← rest]

theorem Reordered.kindName_eq (reordered : l.Reordered l') : l'.kindName g = l.kindName g := by
  rw [← reordered.rest, kindName, kindName, reordered.brackets]

/-- The choices that the options of a line can give: all of them but the required mark. -/
def choices (g : Grammar) (l : Line) : List String :=
  (l.options.getD []).filter (· ≠ g.required.toString)

theorem withChoices_of_describe (described : l.describe g = .ok p) :
    p = p.withChoices (l.choices g) := by
  rw [describe] at described
  cases known : Kind.ofName? (l.kindName g) with
  | none => simp [known] at described
  | some kind =>
    simp only [known] at described
    obtain ⟨s, supplied, property⟩ := of_bind_eq_ok described
    cases property
    cases kind with
    | singleChoice => rw [Supply.content, Supply.choices_eq supplied (.inl rfl)]; rfl
    | multipleChoice => rw [Supply.content, Supply.choices_eq supplied (.inr rfl)]; rfl
    | _ => rfl

theorem Reordered.describe_eq (reordered : l.Reordered l') (described : l.describe g = .ok p) :
    l'.describe g = .ok (p.withChoices (l'.choices g)) := by
  suffices ∃ options, l'.describe g = .ok (p.withChoices options) by
    obtain ⟨options, described'⟩ := this
    have own := withChoices_of_describe described'
    rw [Property.withChoices_withChoices] at own
    rw [described', own]
  rw [describe] at described ⊢
  rw [reordered.kindName_eq]
  cases known : Kind.ofName? (l.kindName g) with
  | none => simp [known] at described
  | some kind =>
    simp only [known] at described ⊢
    obtain ⟨s, supplied, property⟩ := of_bind_eq_ok described
    obtain ⟨options, supplied'⟩ := Supply.ofTokens_perm reordered.options supplied
    refine ⟨options, ?_⟩
    cases property
    rw [supplied', ← reordered.rest]
    exact congrArg (fun content => Except.ok (Property.mk _ _ content))
      (Supply.content_withChoices options _)

/-- A line with its options in another order is refused exactly if the line is, and otherwise
describes the same property, except that choices stand in the order of the options. -/
theorem describe_of_reordered (reordered : l.Reordered l') :
    ((∃ p, l.describe g = .ok p) ↔ ∃ p, l'.describe g = .ok p) ∧
      ∀ p p', l.describe g = .ok p → l'.describe g = .ok p' →
        p = p.withChoices (l.choices g) ∧ p' = p.withChoices (l'.choices g) := by
  refine ⟨⟨?_, ?_⟩, ?_⟩
  · rintro ⟨p, described⟩
    exact ⟨_, reordered.describe_eq described⟩
  · rintro ⟨p, described⟩
    exact ⟨_, reordered.symm.describe_eq described⟩
  · intro p p' described described'
    refine ⟨withChoices_of_describe described, ?_⟩
    exact Except.ok.inj (described'.symm.trans (reordered.describe_eq described))

/-- Whatever order the options of this text stand in, it is the same text; the choices come in the
order of their line. -/
theorem describe_of_reordered_samples :
    let text : Line :=
      { identifier := "RichText", label := some "Body"
        options := some ["b", "words(5)", "tables(p,ul)", "*"] }
    let text' : Line := { text with options := some ["*", "tables(p,ul)", "b", "words(5)"] }
    let choice : Line :=
      { identifier := "SingleChoice", label := some "Size", options := some ["S", "*", "M"] }
    let choice' : Line := { choice with options := some ["M", "S", "*"] }
    (text.Reordered text' ∧
      ∃ p, text.describe .standard = .ok p ∧ text'.describe .standard = .ok p) ∧
      choice.Reordered choice' ∧ ∃ p p', choice.describe .standard = .ok p ∧
        choice'.describe .standard = .ok p' ∧
        p.content = .singleChoice ["S", "M"] ∧ p'.content = .singleChoice ["M", "S"] := by
  intro text text' choice choice'
  constructor
  · have reordered : text.Reordered text' := ⟨rfl, rfl, by decide⟩
    let p := (text.describe .standard).toOption.getD
      { label := "", required := false, content := .custom }
    have described : text.describe .standard = .ok p := rfl
    have outcome := describe_of_reordered reordered (g := .standard)
    obtain ⟨p', described'⟩ := outcome.1.mp ⟨p, described⟩
    obtain ⟨-, rfl⟩ := outcome.2 p p' described described'
    exact ⟨reordered, p, described, described'⟩
  · have reordered : choice.Reordered choice' := ⟨rfl, rfl, by decide⟩
    let p : Property := { label := "Size", required := true, content := .singleChoice ["S", "M"] }
    have described : choice.describe .standard = .ok p := rfl
    have outcome := describe_of_reordered reordered (g := .standard)
    obtain ⟨p', described'⟩ := outcome.1.mp ⟨p, described⟩
    obtain ⟨-, rfl⟩ := outcome.2 p p' described described'
    exact ⟨reordered, p, _, described, described', rfl, by decide⟩

end Line

end ContentSchema
