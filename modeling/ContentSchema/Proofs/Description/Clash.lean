import ContentSchema.Proofs.Description.Given
import Mathlib.Data.List.Pairwise
/-!
When options supply something together. Each of them has to say something by itself, and no two of
them may say the same sort of thing (`Clause.Clashes`); what they supply is then what each of them
adds (`Supply.ofTokens_eq_ok_iff`).
-/
namespace ContentSchema

/-! Clauses that cannot stand together -/

namespace Clause

/-- Whether two clauses are about the same thing. Choices never are. -/
def Clashes : Clause → Clause → Prop
  | required, required => True
  | images, images => True
  | range _, range _ => True
  | format f, format f' => f' = f
  | words _, words _ => True
  | characters _, characters _ => True
  | tables _, tables _ => True
  | _, _ => False

theorem Clashes.symm {c c' : Clause} (clash : c.Clashes c') : c'.Clashes c := by
  cases c <;> cases c' <;> simp_all [Clashes]

/-- A limit has one value at most, and the formats of tables are distinct. -/
def Sound : Clause → Prop
  | words values => values.length ≤ 1
  | characters values => values.length ≤ 1
  | tables values => (values.filterMap Format.ofToken?).Nodup
  | _ => True

variable {g : Grammar} {kind : Kind} {token : String} {c : Clause}

/-- What the option says, if it says anything. -/
def said? (g : Grammar) (kind : Kind) (token : String) : Option Clause :=
  (ofToken g kind token).toOption.join

theorem said?_eq_some_iff : said? g kind token = some c ↔ Said g kind token c := by
  rw [said?, Said]
  cases ofToken g kind token <;> simp [Except.toOption]

end Clause

namespace Supply

variable {g : Grammar} {kind : Kind} {token : String} {tokens : List String} {c c' : Clause}
  {cs : List Clause} {s s' : Supply}

/-- The number of a limit. -/
def limitOf (values : List String) : Option UInt32 :=
  values.head?.bind fun v => (Decimal.readSigned? v.toList).bind Decimal.toCount?

/-- The formats that are named by values. -/
def formatsOf (values : List String) : Formatting := ⟨fun f => f.token ∈ values⟩

/-- Nothing of the sort has been supplied. -/
def Lacks (s : Supply) : Clause → Prop
  | .required => s.required = false
  | .images => s.images = false
  | .range _ => s.range = none
  | .format f => s.formatting.allows f = false
  | .words _ => s.words = none
  | .characters _ => s.characters = none
  | .tables _ => s.tables = none
  | .choice _ => True

/-- What the clause says has been supplied. -/
def Has (s : Supply) : Clause → Prop
  | .required => s.required = true
  | .images => s.images = true
  | .range r => s.range = some r
  | .format f => s.formatting.allows f = true
  | .words values => s.words = some (limitOf values)
  | .characters values => s.characters = some (limitOf values)
  | .tables values => s.tables = some (formatsOf values)
  | .choice text => text ∈ s.choices

/-- The supply with what the clause says. -/
def extend (s : Supply) : Clause → Supply
  | .required => { s with required := true }
  | .images => { s with images := true }
  | .range r => { s with range := some r }
  | .format f => { s with formatting := s.formatting.enable f }
  | .words values => { s with words := some (limitOf values) }
  | .characters values => { s with characters := some (limitOf values) }
  | .tables values => { s with tables := some (formatsOf values) }
  | .choice text => { s with choices := s.choices ++ [text] }

theorem lacks_empty (c : Clause) : ({} : Supply).Lacks c := by
  cases c <;> trivial

theorem lacks_extend_iff : (s.extend c).Lacks c' ↔ s.Lacks c' ∧ ¬ c.Clashes c' := by
  cases c <;> cases c' <;>
    simp [extend, Lacks, Clause.Clashes, Formatting.allows_enable, and_comm]

theorem has_extend_self : (s.extend c).Has c := by
  cases c <;> simp [extend, Has, Formatting.allows_enable]

theorem Has.extend (has : s.Has c) (apart : ¬ c.Clashes c') : (s.extend c').Has c := by
  cases c <;> cases c' <;> simp_all [Supply.extend, Has, Clause.Clashes, Formatting.allows_enable]

theorem limit_eq_ok_iff {values : List String} {n : Option UInt32} :
    limit token values = .ok n ↔ values.length ≤ 1 ∧ n = limitOf values := by
  match values with
  | [] => simp [limit, limitOf, eq_comm]
  | [v] => simp [limit, limitOf, eq_comm]
  | _ :: _ :: _ => simp [limit]

theorem tableFormats_eq_ok_iff {values : List String} {t fs : Formatting} :
    tableFormats t values = .ok fs ↔
      ((values.filterMap Format.ofToken?).Nodup ∧
        ∀ f ∈ values.filterMap Format.ofToken?, t.allows f = false) ∧
      fs = ⟨fun f => t.allows f || f.token ∈ values⟩ := by
  induction values generalizing t with
  | nil =>
    rw [tableFormats, Except.ok.injEq, eq_comm]
    simp
  | cons v values ih =>
    rw [tableFormats]
    cases named : Format.ofToken? v with
    | none =>
      have other (f : Format) : f.token ≠ v := by
        rintro rfl
        simp at named
      simp [ih, named, other]
    | some f =>
      have token (f' : Format) : f'.token = v ↔ f' = f := by
        rw [← Format.token_of_ofToken? named]
        exact ⟨fun same => by simpa using congrArg Format.ofToken? same, congrArg Format.token⟩
      rw [List.filterMap_cons_some named, List.nodup_cons, List.forall_mem_cons]
      cases allowed : t.allows f with
      | true => simp [allowed]
      | false =>
        have free : (∀ f' ∈ values.filterMap Format.ofToken?, (t.enable f).allows f' = false) ↔
            f ∉ values.filterMap Format.ofToken? ∧
              ∀ f' ∈ values.filterMap Format.ofToken?, t.allows f' = false := by
          simp only [Formatting.allows_enable, Bool.or_eq_false_iff, beq_eq_false_iff_ne]
          constructor
          · intro apart
            exact ⟨fun member => (apart f member).1 rfl, fun f' member => (apart f' member).2⟩
          · rintro ⟨absent, unused⟩ f' member
            exact ⟨fun same => absent (same ▸ member), unused f' member⟩
        have union (f' : Format) : ((t.enable f).allows f' || decide (f'.token ∈ values)) =
            (t.allows f' || decide (f'.token ∈ v :: values)) := by
          by_cases same : f' = f
          · simp [Formatting.allows_enable, token, same]
          · simp [Formatting.allows_enable, token, same, beq_eq_false_iff_ne.mpr same]
        simp only [allowed, Bool.false_eq_true, if_false, ih, free, union, true_and]
        tauto

theorem add_eq_ok_iff : s.add token c = .ok s' ↔ (s.Lacks c ∧ c.Sound) ∧ s' = s.extend c := by
  cases c with
  | required => cases free : s.required <;> simp [add, Lacks, Clause.Sound, extend, free, eq_comm]
  | images => cases free : s.images <;> simp [add, Lacks, Clause.Sound, extend, free, eq_comm]
  | range r => cases free : s.range <;> simp [add, Lacks, Clause.Sound, extend, free, eq_comm]
  | format f =>
    cases free : s.formatting.allows f <;>
      simp [add, Lacks, Clause.Sound, extend, free, eq_comm]
  | words values =>
    cases free : s.words <;>
      simp [add, Lacks, Clause.Sound, extend, free, map_eq_ok_iff, limit_eq_ok_iff, and_assoc]
  | characters values =>
    cases free : s.characters <;>
      simp [add, Lacks, Clause.Sound, extend, free, map_eq_ok_iff, limit_eq_ok_iff, and_assoc]
  | tables values =>
    cases free : s.tables <;>
      simp [add, Lacks, Clause.Sound, extend, free, map_eq_ok_iff, tableFormats_eq_ok_iff, formatsOf]
  | choice text => simp [add, Lacks, Clause.Sound, extend, eq_comm]

/-- What clauses supply one after the other. -/
def extendAll (s : Supply) (cs : List Clause) : Supply := cs.foldl extend s

theorem lacks_extendAll_iff :
    (s.extendAll cs).Lacks c ↔ s.Lacks c ∧ ∀ c' ∈ cs, ¬ c'.Clashes c := by
  induction cs generalizing s with
  | nil => simp [extendAll]
  | cons c' cs ih =>
    rw [List.forall_mem_cons, ← and_assoc, ← lacks_extend_iff]
    exact ih

theorem Has.extendAll (has : s.Has c) (apart : ∀ c' ∈ cs, ¬ c.Clashes c') :
    (s.extendAll cs).Has c := by
  induction cs generalizing s with
  | nil => exact has
  | cons c' cs ih =>
    rw [List.forall_mem_cons] at apart
    exact ih (has.extend apart.1) apart.2

/-- What has been said without a clash has been supplied. -/
theorem has_extendAll (apart : cs.Pairwise fun c c' => ¬ c.Clashes c') :
    ∀ c ∈ cs, (s.extendAll cs).Has c := by
  induction cs generalizing s with
  | nil => exact List.forall_mem_nil _
  | cons c cs ih =>
    rw [List.pairwise_cons] at apart
    exact List.forall_mem_cons.mpr ⟨has_extend_self.extendAll apart.1, ih apart.2⟩

theorem choices_extendAll : (s.extendAll cs).choices = s.choices ++
    cs.filterMap fun | .choice text => some text | _ => none := by
  induction cs generalizing s with
  | nil => simp [extendAll]
  | cons c cs ih =>
    have later := ih (s := s.extend c)
    rw [extendAll, List.foldl_cons]
    rw [extendAll] at later
    rw [later]
    cases c <;> simp [extend]

/-- What the options say. -/
def clauses (g : Grammar) (kind : Kind) (tokens : List String) : List Clause :=
  tokens.filterMap (Clause.said? g kind)

theorem addToken_eq_ok_iff : addToken g kind s token = .ok s' ↔
    (∀ e, Clause.ofToken g kind token ≠ .error e) ∧
      (∀ c ∈ Clause.said? g kind token, s.Lacks c ∧ c.Sound) ∧
      s' = s.extendAll (Clause.said? g kind token).toList := by
  rw [addToken, Clause.said?]
  cases said : Clause.ofToken g kind token with
  | error e => simp [bind, Except.bind]
  | ok clause =>
    cases clause with
    | none => simp [bind, Except.bind, pure, Except.pure, Except.toOption, extendAll, eq_comm]
    | some c => simp [bind, Except.bind, Except.toOption, extendAll, add_eq_ok_iff]

theorem foldlM_eq_ok_iff : tokens.foldlM (addToken g kind) s = .ok s' ↔
    (∀ t ∈ tokens, ∀ e, Clause.ofToken g kind t ≠ .error e) ∧
      (∀ c ∈ clauses g kind tokens, s.Lacks c ∧ c.Sound) ∧
      (clauses g kind tokens).Pairwise (fun c c' => ¬ c.Clashes c') ∧
      s' = s.extendAll (clauses g kind tokens) := by
  -- The supply is general: what the first clause adds, the others may no longer find supplied.
  induction tokens generalizing s with
  | nil => simp [clauses, extendAll, pure, Except.pure, eq_comm]
  | cons t tokens ih =>
    have steps : (t :: tokens).foldlM (addToken g kind) s = .ok s' ↔
        ∃ next, addToken g kind s t = .ok next ∧ tokens.foldlM (addToken g kind) next = .ok s' := by
      rw [List.foldlM_cons]
      cases addToken g kind s t <;> simp [bind, Except.bind]
    rw [steps, List.forall_mem_cons]
    simp only [addToken_eq_ok_iff, ih]
    cases said : Clause.said? g kind t with
    | none =>
      have same : clauses g kind (t :: tokens) = clauses g kind tokens :=
        List.filterMap_cons_none said
      simp [same, extendAll, and_assoc]
    | some c =>
      have more : clauses g kind (t :: tokens) = c :: clauses g kind tokens :=
        List.filterMap_cons_some said
      rw [more, List.forall_mem_cons, List.pairwise_cons]
      constructor
      · rintro ⟨next, ⟨reads, adds, rfl⟩, others, rest, apart, rfl⟩
        refine ⟨⟨reads, others⟩, ⟨adds c rfl, fun c' member => ⟨?_, (rest c' member).2⟩⟩,
          ⟨fun c' member => ?_, apart⟩, rfl⟩
        · exact (lacks_extend_iff.mp (rest c' member).1).1
        · exact (lacks_extend_iff.mp (rest c' member).1).2
      · rintro ⟨⟨reads, others⟩, ⟨adds, rest⟩, ⟨clashless, apart⟩, rfl⟩
        refine ⟨s.extend c, ⟨reads, fun c' same => ?_, rfl⟩, others, fun c' member => ?_, apart, rfl⟩
        · rw [← Option.some.inj same]
          exact adds
        · exact ⟨lacks_extend_iff.mpr ⟨(rest c' member).1, clashless c' member⟩,
            (rest c' member).2⟩

/-- Options supply something if each can be read, is sound, and clashes with no other one. -/
theorem ofTokens_eq_ok_iff : ofTokens g kind tokens = .ok s ↔
    (∀ t ∈ tokens, ∀ e, Clause.ofToken g kind t ≠ .error e) ∧
      (∀ c ∈ clauses g kind tokens, c.Sound) ∧
      (clauses g kind tokens).Pairwise (fun c c' => ¬ c.Clashes c') ∧
      s = extendAll {} (clauses g kind tokens) := by
  rw [ofTokens, foldlM_eq_ok_iff]
  simp only [lacks_empty, true_and]

theorem mem_clauses_iff :
    c ∈ clauses g kind tokens ↔ ∃ t ∈ tokens, Clause.Said g kind t c := by
  simp only [clauses, List.mem_filterMap, Clause.said?_eq_some_iff]

/-- What an option has said has been supplied. -/
theorem has_of_said (supplied : ofTokens g kind tokens = .ok s) (listed : token ∈ tokens)
    (said : Clause.Said g kind token c) : s.Has c := by
  obtain ⟨-, -, apart, rfl⟩ := ofTokens_eq_ok_iff.mp supplied
  exact has_extendAll apart c (mem_clauses_iff.mpr ⟨token, listed, said⟩)

/-- What no option has said is missing. -/
theorem lacks_iff_of_ofTokens (supplied : ofTokens g kind tokens = .ok s) :
    s.Lacks c ↔ ∀ t ∈ tokens, ∀ c', Clause.Said g kind t c' → ¬ c'.Clashes c := by
  obtain ⟨-, -, -, rfl⟩ := ofTokens_eq_ok_iff.mp supplied
  rw [lacks_extendAll_iff]
  simp only [lacks_empty, true_and, mem_clauses_iff]
  exact ⟨fun free t listed c' said => free c' ⟨t, listed, said⟩,
    fun free c' ⟨t, listed, said⟩ => free t listed c' said⟩

end Supply

/-! Why options are refused -/

/-- Some text cannot be read, two of them at different places clash, or the clause of one is not
sound. -/
inductive Broken (say : String → Except ParseError (Option Clause)) (tokens : List String) :
    Prop where
  | malformed {t : String} {e : ParseError} : t ∈ tokens → say t = .error e → Broken say tokens
  | clash {t t' : String} {c c' : Clause} : [t, t'].Sublist tokens → say t = .ok (some c) →
      say t' = .ok (some c') → c.Clashes c' → Broken say tokens
  | unsound {t : String} {c : Clause} : t ∈ tokens → say t = .ok (some c) → ¬ c.Sound →
      Broken say tokens

theorem Supply.exists_error_iff {g : Grammar} {kind : Kind} {tokens : List String} :
    (∃ e, ofTokens g kind tokens = .error e) ↔ Broken (Clause.ofToken g kind) tokens := by
  have refused : (∃ e, ofTokens g kind tokens = .error e) ↔
      ∀ s, ofTokens g kind tokens ≠ .ok s := by
    cases ofTokens g kind tokens <;> simp
  rw [refused]
  constructor
  · intro refused
    by_contra unbroken
    refine refused _ (ofTokens_eq_ok_iff.mpr ⟨fun t member e said => ?_, fun c member => ?_, ?_, rfl⟩)
    · exact unbroken (.malformed member said)
    · obtain ⟨t, listed, said⟩ := mem_clauses_iff.mp member
      by_contra unsound
      exact unbroken (.unsound listed said unsound)
    · refine List.pairwise_filterMap.mpr (List.pairwise_iff_forall_sublist.mpr ?_)
      intro t t' inside c said c' said' clash
      rw [Clause.said?_eq_some_iff] at said said'
      exact unbroken (.clash inside said said' clash)
  · intro broken s supplied
    obtain ⟨reads, sound, apart, -⟩ := ofTokens_eq_ok_iff.mp supplied
    cases broken with
    | malformed member said => exact reads _ member _ said
    | clash inside said said' clash =>
      exact (List.pairwise_filterMap.mp apart).forall_sublist inside _
        (Clause.said?_eq_some_iff.mpr said) _ (Clause.said?_eq_some_iff.mpr said') clash
    | unsound member said unsound => exact unsound (sound _ (mem_clauses_iff.mpr ⟨_, member, said⟩))

/-- Two of the texts, at different places, meet the condition. -/
def Twice (tokens : List String) (meets : String → Prop) : Prop :=
  ∃ t t', [t, t'].Sublist tokens ∧ meets t ∧ meets t'

namespace Broken

variable {say say' : String → Except ParseError (Option Clause)} {tokens : List String}

theorem congr (same : ∀ t ∈ tokens, say t = say' t) (broken : Broken say tokens) :
    Broken say' tokens := by
  cases broken with
  | malformed member said => exact .malformed member (same _ member ▸ said)
  | clash inside said said' clash =>
    have first := inside.subset List.mem_cons_self
    have second := inside.subset (List.mem_cons_of_mem _ (List.mem_singleton_self _))
    exact .clash inside (same _ first ▸ said) (same _ second ▸ said') clash
  | unsound member said unsound => exact .unsound member (same _ member ▸ said) unsound

theorem of_sublist {part : List String} (inside : part.Sublist tokens) (broken : Broken say part) :
    Broken say tokens := by
  cases broken with
  | malformed member said => exact .malformed (inside.subset member) said
  | clash pair said said' clash => exact .clash (pair.trans inside) said said' clash
  | unsound member said unsound => exact .unsound (inside.subset member) said unsound

/-- Flags clash with nothing but themselves and break nothing alone, so they can be set apart. -/
theorem iff_of_flags {flag : String → Bool}
    (alone : ∀ t, flag t → ∃ c, say t = .ok (some c) ∧ c.Sound ∧
      ∀ t' c', say t' = .ok (some c') → (c.Clashes c' ↔ t' = t)) :
    Broken say tokens ↔ (∃ t, flag t ∧ Twice tokens (· = t)) ∨
      Broken say (tokens.filter (!flag ·)) := by
  constructor
  · intro broken
    cases broken with
    | @malformed t e member said =>
      have other : flag t = false := by
        rw [Bool.eq_false_iff]
        intro flagged
        obtain ⟨c, known, -⟩ := alone t flagged
        simp [known] at said
      exact .inr (.malformed (List.mem_filter.mpr ⟨member, by simp [other]⟩) said)
    | @clash t t' c c' inside said said' clash =>
      by_cases flagged : flag t
      · obtain ⟨c₀, known, -, apart⟩ := alone t flagged
        cases known.symm.trans said
        exact .inl ⟨t, flagged, t, t', inside, rfl, (apart t' c' said').mp clash⟩
      · by_cases flagged' : flag t'
        · obtain ⟨c₀, known, -, apart⟩ := alone t' flagged'
          cases known.symm.trans said'
          have same := (apart t c said).mp clash.symm
          exact absurd (same ▸ flagged') flagged
        · have kept := inside.filter (!flag ·)
          rw [List.filter_eq_self.mpr (by simp [flagged, flagged'])] at kept
          exact .inr (.clash kept said said' clash)
    | @unsound t c member said unsound =>
      have other : flag t = false := by
        rw [Bool.eq_false_iff]
        intro flagged
        obtain ⟨c₀, known, sound, -⟩ := alone t flagged
        cases known.symm.trans said
        exact unsound sound
      exact .inr (.unsound (List.mem_filter.mpr ⟨member, by simp [other]⟩) said unsound)
  · rintro (⟨t, flagged, _, _, inside, rfl, rfl⟩ | broken)
    · obtain ⟨c, known, -, apart⟩ := alone _ flagged
      exact .clash inside known known ((apart _ c known).mpr rfl)
    · exact broken.of_sublist List.filter_sublist

end Broken

end ContentSchema
