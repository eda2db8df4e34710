import ContentSchema.Proofs.Description.Clash
/-!
Why options are refused. For each kind it is said in terms of the options alone when they conflict or
one of them is malformed (`Conflicts`), and nothing else is refused (`exists_error_iff_conflicts`).
-/
namespace ContentSchema

/-! Options of each sort -/

/-- The options that are words of their own for a kind, besides the required mark. -/
def Kind.flags : Kind → List String
  | .asset => ["images"]
  | .richText => Format.all.map Format.token
  | _ => []

def Kind.isFlag (g : Grammar) (kind : Kind) (token : String) : Bool :=
  token = g.required.toString ∨ token ∈ kind.flags

/-- The options that are neither the required mark nor a flag of the kind. -/
def Kind.others (g : Grammar) (kind : Kind) (tokens : List String) : List String :=
  tokens.filter (!kind.isFlag g ·)

/-- The option is a detail of the name. -/
def Detail.Named (g : Grammar) (name token : String) : Prop :=
  ∃ values, Detail.Spells g token { name, values }

/-! When options are refused -/

/-- A range that lacks its beginning, or more than one range. -/
def RangesConflict (g : Grammar) (tokens : List String) : Prop :=
  (∃ t ∈ tokens, t.toList.head? = some g.range) ∨
    Twice tokens fun t => (CountRange.read? g t.toList).isSome

/-- A detail that is begun only, more than one detail of one of the names, or a limit with more than
one value. -/
def DetailsConflict (g : Grammar) (names tokens : List String) : Prop :=
  (∃ t ∈ tokens, g.detailStart ∈ t.toList ∧ ∀ d, ¬ Detail.Spells g t d) ∨
    (∃ name ∈ names, Twice tokens (Detail.Named g name)) ∨
    ∃ t ∈ tokens, ∃ d, Detail.Spells g t d ∧ d.name ∈ ["words", "characters"] ∧
      1 < d.values.length

/-- Tables that name a format more than once. -/
def TablesConflict (g : Grammar) (tokens : List String) : Prop :=
  ∃ t ∈ tokens, ∃ d, Detail.Spells g t d ∧ d.name = "tables" ∧
    ∃ f : Format, Twice d.values (· = f.token)

/-- Why the options of a line of the kind are refused. -/
def Conflicts (g : Grammar) (tokens : List String) : Kind → Prop
  | .type | .snippet => False
  | .date | .number | .custom | .singleChoice | .multipleChoice =>
    Twice tokens (· = g.required.toString)
  | .linkedItems =>
    Twice tokens (· = g.required.toString) ∨ RangesConflict g (Kind.linkedItems.others g tokens)
  | .asset =>
    Twice tokens (· = g.required.toString) ∨ Twice tokens (· = "images") ∨
      RangesConflict g (Kind.asset.others g tokens)
  | .text =>
    Twice tokens (· = g.required.toString) ∨
      DetailsConflict g ["words", "characters"] (Kind.text.others g tokens)
  | .richText =>
    Twice tokens (· = g.required.toString) ∨ (∃ f : Format, Twice tokens (· = f.token)) ∨
      DetailsConflict g ["words", "characters", "tables"] (Kind.richText.others g tokens) ∨
      TablesConflict g (Kind.richText.others g tokens)

theorem Format.ofToken?_eq_some_iff {token : String} {f : Format} :
    Format.ofToken? token = some f ↔ token = f.token := by
  constructor
  · intro named
    exact (Format.token_of_ofToken? named).symm
  · rintro rfl
    exact Format.ofToken?_token f

namespace Clause

variable {g : Grammar} {kind : Kind} {token t' : String} {c c' : Clause}

/-- What the required mark and flags say. -/
def IsFlag : Clause → Prop
  | required | images | format _ => True
  | _ => False

/-- What an option says that is neither the required mark nor a flag. -/
def ofOther (g : Grammar) (kind : Kind) (token : String) : Except ParseError (Option Clause) :=
  match kind with
  | .linkedItems | .asset => ofRange g token
  | .text => (·.bind ofDetail) <$> Detail.ofToken g token
  | .richText => (·.bind ofRichDetail) <$> Detail.ofToken g token
  | .singleChoice | .multipleChoice => .ok (some (choice token))
  | _ => .ok none

theorem ofToken_of_not_flag (other : kind.isFlag g token = false) :
    ofToken g kind token = ofOther g kind token := by
  simp only [Kind.isFlag, decide_eq_false_iff_not, not_or] at other
  obtain ⟨unmarked, other⟩ := other
  have mark := isChar_eq_false unmarked
  cases kind <;> simp only [ofToken, ofOther, mark, Bool.false_eq_true, if_false]
  case asset => rw [if_neg (by simpa [Kind.flags] using other)]
  case richText =>
    have unnamed : Format.ofToken? token = none := by
      rw [Option.eq_none_iff_forall_ne_some]
      intro f named
      apply other
      rw [Format.ofToken?_eq_some_iff.mp named]
      exact List.mem_map.mpr ⟨f, f.mem_all, rfl⟩
    rw [unnamed]

theorem said_of_flag (type : kind ≠ .type) (snippet : kind ≠ .snippet)
    (flag : kind.isFlag g token) : ∃ c, Said g kind token c ∧ c.IsFlag := by
  by_cases mark : token = g.required.toString
  · rw [mark]
    exact ⟨.required, said_required type snippet, trivial⟩
  · have listed : token ∈ kind.flags := (of_decide_eq_true flag).resolve_left mark
    have unmarked := isChar_eq_false mark
    cases kind with
    | asset =>
      rw [Kind.flags, List.mem_singleton] at listed
      refine ⟨.images, ?_, trivial⟩
      simp only [Said, ofToken, unmarked, Bool.false_eq_true, if_false, if_pos listed]
    | richText =>
      obtain ⟨f, -, rfl⟩ := List.mem_map.mp listed
      refine ⟨.format f, ?_, trivial⟩
      simp only [Said, ofToken, unmarked, Bool.false_eq_true, if_false, Format.ofToken?_token]
    | _ => contradiction

theorem IsFlag.eq_of_clashes (flag : c.IsFlag) (clash : c.Clashes c') : c' = c := by
  cases c <;> cases c' <;> simp_all [Clashes, IsFlag]

theorem IsFlag.clashes_self (flag : c.IsFlag) : c.Clashes c := by
  cases c <;> simp_all [Clashes, IsFlag]

/-- A flag clashes with itself only. -/
theorem clashes_flag_iff (flag : c.IsFlag) (said : Said g kind token c)
    (said' : Said g kind t' c') : c.Clashes c' ↔ t' = token := by
  constructor
  · intro clash
    obtain rfl := flag.eq_of_clashes clash
    have origin := origin_of_said said
    have origin' := origin_of_said said'
    cases origin <;> cases origin' <;> first | rfl | contradiction
  · rintro rfl
    obtain rfl : c = c' := Option.some.inj (Except.ok.inj (said.symm.trans said'))
    exact flag.clashes_self

theorem IsFlag.sound (flag : c.IsFlag) : c.Sound := by
  cases c <;> trivial

theorem ofRange_eq (g : Grammar) (token : String) :
    ofRange g token = if token.toList.head? = some g.range then
      .error (.malformedOption token g.range 0)
      else .ok ((CountRange.read? g token.toList).map range) := by
  rw [ofRange, CountRange.ofToken]
  split <;> rfl

theorem ofRange_eq_some_iff : ofRange g token = .ok (some c) ↔
    token.toList.head? ≠ some g.range ∧
      ∃ r, CountRange.read? g token.toList = some r ∧ c = range r := by
  rw [ofRange_eq]
  split
  · next begins => simp [begins]
  · next begins =>
    rw [Except.ok.injEq, Option.map_eq_some_iff]
    simp [begins, @eq_comm Clause]

theorem exists_ofRange_error_iff :
    (∃ e, ofRange g token = .error e) ↔ token.toList.head? = some g.range := by
  rw [ofRange_eq]
  split
  · next begins => simp [begins]
  · next begins => simp [begins]

end Clause

/-! Refused options -/

variable {g : Grammar} {kind : Kind} {tokens : List String}

theorem broken_iff_of_optioned (type : kind ≠ .type) (snippet : kind ≠ .snippet) :
    Broken (Clause.ofToken g kind) tokens ↔ Twice tokens (· = g.required.toString) ∨
      (∃ t ∈ kind.flags, Twice tokens (· = t)) ∨
        Broken (Clause.ofOther g kind) (kind.others g tokens) := by
  have alone (t : String) (flag : kind.isFlag g t) : ∃ c, Clause.Said g kind t c ∧ c.Sound ∧
      ∀ t' c', Clause.Said g kind t' c' → (c.Clashes c' ↔ t' = t) := by
    obtain ⟨c, said, isFlag⟩ := Clause.said_of_flag type snippet flag
    exact ⟨c, said, isFlag.sound, fun t' c' said' => Clause.clashes_flag_iff isFlag said said'⟩
  have flags : (∃ t, kind.isFlag g t ∧ Twice tokens (· = t)) ↔
      Twice tokens (· = g.required.toString) ∨ ∃ t ∈ kind.flags, Twice tokens (· = t) := by
    simp only [Kind.isFlag, decide_eq_true_eq, or_and_right, exists_or, exists_eq_left]
  have same : ∀ t ∈ kind.others g tokens, Clause.ofToken g kind t = Clause.ofOther g kind t := by
    intro t member
    exact Clause.ofToken_of_not_flag (by simpa using (List.mem_filter.mp member).2)
  rw [Broken.iff_of_flags alone, flags, or_assoc]
  have rest : Broken (Clause.ofToken g kind) (kind.others g tokens) ↔
      Broken (Clause.ofOther g kind) (kind.others g tokens) :=
    ⟨.congr same, .congr fun t member => (same t member).symm⟩
  exact or_congr_right (or_congr_right rest)

theorem broken_ofRange_iff : Broken (Clause.ofRange g) tokens ↔ RangesConflict g tokens := by
  constructor
  · intro broken
    cases broken with
    | malformed member known => exact .inl ⟨_, member, Clause.exists_ofRange_error_iff.mp ⟨_, known⟩⟩
    | clash inside known known' _ =>
      obtain ⟨-, r, isRange, -⟩ := Clause.ofRange_eq_some_iff.mp known
      obtain ⟨-, r', isRange', -⟩ := Clause.ofRange_eq_some_iff.mp known'
      exact .inr ⟨_, _, inside, by simp [isRange], by simp [isRange']⟩
    | unsound _ known unsound =>
      obtain ⟨-, r, -, rfl⟩ := Clause.ofRange_eq_some_iff.mp known
      exact absurd trivial unsound
  · intro conflict
    -- Of two ranges neither is read if one of them lacks its beginning, which is refused for itself.
    by_cases begins : ∃ t ∈ tokens, t.toList.head? = some g.range
    · obtain ⟨t, member, begins⟩ := begins
      obtain ⟨e, known⟩ := Clause.exists_ofRange_error_iff.mpr begins
      exact .malformed member known
    · obtain ⟨t, t', inside, isRange, isRange'⟩ := conflict.resolve_left begins
      obtain ⟨r, isRange⟩ := Option.isSome_iff_exists.mp isRange
      obtain ⟨r', isRange'⟩ := Option.isSome_iff_exists.mp isRange'
      have known : Clause.ofRange g t = .ok (some (.range r)) := Clause.ofRange_eq_some_iff.mpr
        ⟨fun head => begins ⟨t, inside.subset (by simp), head⟩, r, isRange, rfl⟩
      have known' : Clause.ofRange g t' = .ok (some (.range r')) := Clause.ofRange_eq_some_iff.mpr
        ⟨fun head => begins ⟨t', inside.subset (by simp), head⟩, r', isRange', rfl⟩
      exact .clash inside known known' trivial

/-- What can be wrong with details, whatever each of them says. -/
theorem broken_detail_iff {of : Detail → Option Clause} :
    Broken (fun t => (·.bind of) <$> Detail.ofToken g t) tokens ↔
      (∃ t ∈ tokens, g.detailStart ∈ t.toList ∧ ∀ d, ¬ Detail.Spells g t d) ∨
      (∃ t t', [t, t'].Sublist tokens ∧ ∃ d d', Detail.Spells g t d ∧ Detail.Spells g t' d' ∧
        ∃ c ∈ of d, ∃ c' ∈ of d', c.Clashes c') ∨
      ∃ t ∈ tokens, ∃ d, Detail.Spells g t d ∧ ∃ c ∈ of d, ¬ c.Sound := by
  have said (t : String) (c : Clause) : (·.bind of) <$> Detail.ofToken g t = .ok (some c) ↔
      ∃ d, Detail.Spells g t d ∧ of d = some c := by
    simp only [← Detail.ofToken_eq_some_iff]
    cases Detail.ofToken g t <;> simp [Functor.map, Except.map, Option.bind_eq_some_iff]
  have failed (t : String) : (∃ e, (·.bind of) <$> Detail.ofToken g t = .error e) ↔
      g.detailStart ∈ t.toList ∧ ∀ d, ¬ Detail.Spells g t d := by
    rw [← Detail.exists_error_iff]
    cases Detail.ofToken g t <;> simp [Functor.map, Except.map]
  constructor
  · intro broken
    cases broken with
    | malformed member known => exact .inl ⟨_, member, (failed _).mp ⟨_, known⟩⟩
    | clash inside known known' clash =>
      obtain ⟨d, spells, same⟩ := (said _ _).mp known
      obtain ⟨d', spells', same'⟩ := (said _ _).mp known'
      exact .inr (.inl ⟨_, _, inside, d, d', spells, spells', _, same, _, same', clash⟩)
    | unsound member known unsound =>
      obtain ⟨d, spells, same⟩ := (said _ _).mp known
      exact .inr (.inr ⟨_, member, d, spells, _, same, unsound⟩)
  · rintro (⟨t, member, bad⟩ | ⟨t, t', inside, d, d', spells, spells', c, same, c', same', clash⟩ |
      ⟨t, member, d, spells, c, same, unsound⟩)
    · obtain ⟨e, known⟩ := (failed t).mpr bad
      exact .malformed member known
    · exact .clash inside ((said _ _).mpr ⟨d, spells, same⟩) ((said _ _).mpr ⟨d', spells', same'⟩)
        clash
    · exact .unsound member ((said _ _).mpr ⟨d, spells, same⟩) unsound

theorem nodup_formats_iff {values : List String} :
    (values.filterMap Format.ofToken?).Nodup ↔ ¬ ∃ f : Format, Twice values (· = f.token) := by
  rw [List.nodup_iff_pairwise_ne, List.pairwise_filterMap, List.pairwise_iff_forall_sublist]
  simp only [Format.ofToken?_eq_some_iff]
  constructor
  · rintro apart ⟨f, v, v', inside, named, named'⟩
    exact apart inside f named f named' rfl
  · rintro distinct v v' inside f named f' named' rfl
    exact distinct ⟨f, v, v', inside, named, named'⟩

namespace Clause

variable {d d' : Detail}

theorem clashes_ofDetail_iff : (∃ c ∈ ofDetail d, ∃ c' ∈ ofDetail d', c.Clashes c') ↔
    ∃ name ∈ ["words", "characters"], d.name = name ∧ d'.name = name := by
  simp only [ofDetail]
  split_ifs <;> simp_all [Clashes]

theorem unsound_ofDetail_iff : (∃ c ∈ ofDetail d, ¬ c.Sound) ↔
    d.name ∈ ["words", "characters"] ∧ 1 < d.values.length := by
  simp only [ofDetail]
  split_ifs <;> simp_all [Sound]

theorem clashes_ofRichDetail_iff : (∃ c ∈ ofRichDetail d, ∃ c' ∈ ofRichDetail d', c.Clashes c') ↔
    ∃ name ∈ ["words", "characters", "tables"], d.name = name ∧ d'.name = name := by
  simp only [ofRichDetail, ofDetail]
  split_ifs <;> simp_all [Clashes]

theorem unsound_ofRichDetail_iff : (∃ c ∈ ofRichDetail d, ¬ c.Sound) ↔
    (d.name ∈ ["words", "characters"] ∧ 1 < d.values.length) ∨
      d.name = "tables" ∧ ∃ f : Format, Twice d.values (· = f.token) := by
  simp only [ofRichDetail, ofDetail]
  split_ifs <;> simp_all [Sound, nodup_formats_iff]

end Clause

theorem twice_named_iff {names : List String} :
    (∃ t t', [t, t'].Sublist tokens ∧ ∃ d d', Detail.Spells g t d ∧ Detail.Spells g t' d' ∧
      ∃ name ∈ names, d.name = name ∧ d'.name = name) ↔
        ∃ name ∈ names, Twice tokens (Detail.Named g name) := by
  constructor
  · rintro ⟨t, t', inside, ⟨name, values⟩, ⟨_, values'⟩, spells, spells', _, listed, rfl, rfl⟩
    exact ⟨_, listed, t, t', inside, ⟨values, spells⟩, values', spells'⟩
  · rintro ⟨name, listed, t, t', inside, ⟨values, spells⟩, values', spells'⟩
    exact ⟨t, t', inside, _, _, spells, spells', name, listed, rfl, rfl⟩

theorem broken_ofDetail_iff :
    Broken (fun t => (·.bind Clause.ofDetail) <$> Detail.ofToken g t) tokens ↔
      DetailsConflict g ["words", "characters"] tokens := by
  simp only [broken_detail_iff, Clause.clashes_ofDetail_iff, Clause.unsound_ofDetail_iff,
    twice_named_iff, DetailsConflict]

theorem broken_ofRichDetail_iff :
    Broken (fun t => (·.bind Clause.ofRichDetail) <$> Detail.ofToken g t) tokens ↔
      DetailsConflict g ["words", "characters", "tables"] tokens ∨ TablesConflict g tokens := by
  simp only [broken_detail_iff, Clause.clashes_ofRichDetail_iff, Clause.unsound_ofRichDetail_iff,
    twice_named_iff, DetailsConflict, TablesConflict, and_or_left, exists_or, or_assoc]

theorem not_broken {say : String → Option Clause}
    (harmless : ∀ t, ∀ c ∈ say t, c.Sound ∧ ∀ c', ¬ c.Clashes c') :
    ¬ Broken (fun t => .ok (say t)) tokens := by
  rintro (⟨_, known⟩ | ⟨_, known, -, clash⟩ | ⟨_, known, unsound⟩)
  · contradiction
  · exact (harmless _ _ (Except.ok.inj known)).2 _ clash
  · exact unsound (harmless _ _ (Except.ok.inj known)).1

theorem broken_ofOther_iff : Broken (Clause.ofOther g kind) tokens ↔ match kind with
    | .linkedItems | .asset => RangesConflict g tokens
    | .text => DetailsConflict g ["words", "characters"] tokens
    | .richText => DetailsConflict g ["words", "characters", "tables"] tokens ∨
        TablesConflict g tokens
    | _ => False := by
  have chosen : ¬ Broken (fun t => .ok (some (.choice t))) tokens :=
    not_broken (by simp [Clause.Sound, Clause.Clashes])
  have passed : ¬ Broken (fun _ => .ok none) tokens := not_broken (by simp)
  cases kind with
  | linkedItems | asset => exact broken_ofRange_iff
  | text => exact broken_ofDetail_iff
  | richText => exact broken_ofRichDetail_iff
  | singleChoice | multipleChoice => exact iff_of_false chosen id
  | _ => exact iff_of_false passed id

/-- Options are refused just where they conflict. -/
theorem exists_error_iff_conflicts :
    (∃ e, Supply.ofTokens g kind tokens = .error e) ↔ Conflicts g tokens kind := by
  rw [Supply.exists_error_iff]
  by_cases optionless : kind = .type ∨ kind = .snippet
  · have passed : ¬ Broken (fun _ => .ok none) tokens := not_broken (by simp)
    obtain rfl | rfl := optionless <;> exact iff_of_false passed id
  · rw [not_or] at optionless
    rw [broken_iff_of_optioned optionless.1 optionless.2, broken_ofOther_iff]
    cases kind <;> simp_all [Conflicts, Kind.flags, Format.mem_all]

end ContentSchema
