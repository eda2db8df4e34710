import Mathlib.Data.List.Infix
import ContentSchema.Grammar.Standard
import ContentSchema.Proofs.Token.Detail
/-!
Where an option stops being a detail. What has been read of it begins some detail, and no more of it
does, but for a delimiter that no value follows (`Detail.stuck_of_read`). So an option that opens a
detail and is none is refused at one place, which its text alone determines
(`Detail.ofToken_by_parts`).
-/
namespace ContentSchema.Detail

variable {g : Grammar} {cs rest body name : List Char} {values : List (List Char)} {x : Char}

/-- The text is the beginning of some detail. -/
def Begins (g : Grammar) (cs : List Char) : Prop :=
  ∃ whole name values, Parts g whole name values ∧ cs <+: whole

/-- The text breaks off behind a delimiter of values. -/
def Dangles (g : Grammar) (cs : List Char) : Prop :=
  g.detailStart ∈ cs ∧ cs.getLast? = some g.arrayDelimiter

/-- No value stands at the front of the text. -/
def Valueless (g : Grammar) (cs : List Char) : Prop :=
  ∀ c, cs.head? = some c → c = g.arrayDelimiter ∨ isBracket g c

theorem valueless_nil : Valueless g [] := by
  simp [Valueless]

/-! Brackets and delimiters -/

/-- A text has one first bracket. -/
theorem eq_of_first_bracket {before before' after after' : List Char} {y : Char}
    (plain : ∀ c ∈ before, ¬ isBracket g c) (plain' : ∀ c ∈ before', ¬ isBracket g c)
    (bracket : isBracket g x) (bracket' : isBracket g y)
    (same : before ++ x :: after = before' ++ y :: after') :
    before = before' ∧ x = y ∧ after = after' := by
  obtain ⟨front, behind⟩ := cut_at_bracket plain bracket after
  obtain ⟨front', behind'⟩ := cut_at_bracket plain' bracket' after'
  rw [same] at front behind
  exact ⟨front.symm.trans front', List.cons.inj (behind.symm.trans behind')⟩

theorem plain_joined (valued : ∀ v ∈ values, IsValue g v) :
    ∀ c ∈ [g.arrayDelimiter].intercalate values, ¬ isBracket g c := by
  intro c member
  obtain rfl | ⟨v, listed, inside⟩ := Text.mem_intercalate member
  · have apart := g.apart
    grind [isBracket]
  · exact ((valued v listed).2 c inside).1

/-- Joined values begin with a value. -/
theorem not_valueless_joined {v : List Char} (valued : IsValue g v) :
    ¬ Valueless g ([g.arrayDelimiter].intercalate (v :: values)) := by
  intro valueless
  obtain ⟨full, plain⟩ := valued
  obtain ⟨c, v, rfl⟩ := List.exists_cons_of_ne_nil full
  have first : ([g.arrayDelimiter].intercalate ((c :: v) :: values)).head? = some c := by
    cases values with
    | nil => simp
    | cons w values => simp [List.intercalate_cons_cons]
  obtain ⟨unbracketed, other⟩ := plain c List.mem_cons_self
  exact (valueless c first).elim other unbracketed

/-- A delimiter between values has a value on either side. -/
theorem valued_around_delimiter (valued : ∀ v ∈ values, IsValue g v) {before after : List Char}
    (cut : [g.arrayDelimiter].intercalate values = before ++ g.arrayDelimiter :: after) :
    before ≠ [] ∧ ¬ Valueless g after := by
  induction values generalizing before with
  | nil => simp at cut
  | cons v values ih =>
    rw [List.forall_mem_cons] at valued
    obtain ⟨first, valued⟩ := valued
    have inside (l m : List Char) : v ≠ l ++ g.arrayDelimiter :: m := by
      rintro rfl
      exact (first.2 _ (List.mem_append_right l List.mem_cons_self)).2 rfl
    cases values with
    | nil => exact absurd (List.intercalate_singleton.symm.trans cut) (inside before after)
    | cons w values =>
      rw [List.intercalate_cons_cons, List.append_assoc, List.singleton_append] at cut
      obtain ⟨mid, rfl, same⟩ | ⟨mid, apart, same⟩ := List.append_eq_append_iff.mp cut
      · refine ⟨by simp [first.1], ?_⟩
        cases mid with
        | nil =>
          rw [List.nil_append, List.cons.injEq] at same
          exact same.2 ▸ not_valueless_joined (valued w List.mem_cons_self)
        | cons y mid => exact (ih valued (List.cons.inj same).2).2
      · cases mid with
        | nil =>
          rw [List.nil_append, List.cons.injEq] at same
          rw [List.append_nil] at apart
          exact ⟨apart ▸ first.1, same.2 ▸ not_valueless_joined (valued w List.mem_cons_self)⟩
        | cons y mid => exact absurd ((List.cons.inj same).1 ▸ apart) (inside before mid)

/-- A delimiter before the end of details is one between values. -/
theorem exists_between_delimiter {before joined after : List Char}
    (same : before ++ g.arrayDelimiter :: after = joined ++ [g.detailEnd]) :
    ∃ inner, after = inner ++ [g.detailEnd] ∧ joined = before ++ g.arrayDelimiter :: inner := by
  obtain rfl | ⟨inner, c, rfl⟩ := List.eq_nil_or_concat' after
  · have last : g.arrayDelimiter = g.detailEnd := by simpa using congrArg List.getLast? same
    exact absurd last g.apart.2.1.2.2.2.1
  · rw [← List.cons_append, ← List.append_assoc] at same
    obtain ⟨rfl, last⟩ := List.append_inj' same rfl
    exact ⟨inner, by rw [last], rfl⟩

/-! Beginnings of details -/

theorem begins_opened (named : name ≠ [] ∧ ∀ c ∈ name, ¬ isBracket g c)
    (valued : ∀ v ∈ values, IsValue g v)
    (front : body <+: [g.arrayDelimiter].intercalate values ++ [g.detailEnd]) :
    Begins g (name ++ g.detailStart :: body) := by
  refine ⟨_, name, values, ⟨rfl, named, valued⟩, ?_⟩
  rw [List.prefix_append_right_inj, List.cons_prefix_cons]
  exact ⟨rfl, front⟩

theorem begins_name (plain : ∀ c ∈ name, ¬ isBracket g c) : Begins g name := by
  have apart := g.apart
  by_cases empty : name = []
  · have spaced : ∀ c ∈ [g.space], ¬ isBracket g c := by grind [isBracket]
    rw [empty]
    exact ⟨_, [g.space], [], ⟨rfl, ⟨by simp, spaced⟩, by simp⟩, List.nil_prefix⟩
  · exact ⟨_, name, [], ⟨rfl, ⟨empty, plain⟩, by simp⟩, List.prefix_append name _⟩

/-- What the beginning of a detail holds from its first bracket on is fit for values. -/
theorem Begins.of_bracket (begins : Begins g (name ++ x :: body))
    (plain : ∀ c ∈ name, ¬ isBracket g c) (bracket : isBracket g x) :
    name ≠ [] ∧ x = g.detailStart ∧ ∃ values, (∀ v ∈ values, IsValue g v) ∧
      body <+: [g.arrayDelimiter].intercalate values ++ [g.detailEnd] := by
  obtain ⟨whole, name', values, parts, more, same⟩ := begins
  rw [parts.text, List.append_assoc, List.cons_append] at same
  obtain ⟨rfl, opens, joined⟩ :=
    eq_of_first_bracket plain parts.named.2 bracket (isBracket_start g) same
  exact ⟨parts.named.1, opens, values, parts.valued, more, joined⟩

/-! Where reading stops -/

/-- Nothing more of the rest can be taken: the text before it begins a detail, and with more of it the
text does not, or breaks off behind a delimiter. -/
structure Stuck (g : Grammar) (front rest : List Char) : Prop where
  begins : Begins g front
  settled : ¬ Dangles g front
  furthest : ∀ more, more ≠ [] → more <+: rest → Begins g (front ++ more) → Dangles g (front ++ more)

theorem stuck_name (plain : ∀ c ∈ name, ¬ isBracket g c)
    (stops : ∀ c tail, rest = c :: tail → isBracket g c ∧ (name = [] ∨ c ≠ g.detailStart)) :
    Stuck g name rest where
  begins := begins_name plain
  settled dangles := plain _ dangles.1 (isBracket_start g)
  furthest more full front begins := by
    obtain ⟨c, more, rfl⟩ := List.exists_cons_of_ne_nil full
    obtain ⟨tail, rfl⟩ := front
    obtain ⟨bracket, stops⟩ := stops c (more ++ tail) rfl
    obtain ⟨named, opens, -⟩ := begins.of_bracket plain bracket
    exact (stops.elim named fun other => other opens).elim

theorem stuck_values (named : name ≠ [] ∧ ∀ c ∈ name, ¬ isBracket g c)
    (valued : ∀ v ∈ values, IsValue g v)
    (stops : ∀ c tail, rest = c :: tail → c ≠ g.detailEnd ∧
      (isBracket g c ∨ c = g.arrayDelimiter ∧ (values = [] ∨ Valueless g tail))) :
    Stuck g (name ++ g.detailStart :: [g.arrayDelimiter].intercalate values) rest where
  begins := begins_opened named valued (List.prefix_append _ _)
  settled := by
    rintro ⟨-, last⟩
    rw [List.getLast?_append_of_ne_nil _ (List.cons_ne_nil _ _), List.getLast?_cons,
      Option.some.injEq] at last
    cases ends : ([g.arrayDelimiter].intercalate values).getLast? with
    | none =>
      rw [ends] at last
      exact g.apart.2.1.2.2.1 last.symm
    | some c =>
      rw [ends, Option.getD_some] at last
      obtain ⟨front, joined⟩ := List.getLast?_eq_some_iff.mp ends
      exact (valued_around_delimiter valued (last ▸ joined)).2 valueless_nil
  furthest more full front begins := by
    obtain ⟨c, more, rfl⟩ := List.exists_cons_of_ne_nil full
    obtain ⟨tail, rfl⟩ := front
    obtain ⟨unclosed, halts⟩ := stops c (more ++ tail) rfl
    rw [List.append_assoc, List.cons_append] at begins
    obtain ⟨-, -, values', valued', after, joined⟩ := begins.of_bracket named.2 (isBracket_start g)
    rw [List.append_assoc, List.cons_append] at joined
    obtain bracket | ⟨rfl, halts⟩ := halts
    · obtain ⟨-, closes, -⟩ := eq_of_first_bracket (plain_joined valued) (plain_joined valued')
        bracket (isBracket_end g) joined
      exact absurd closes unclosed
    · obtain ⟨inner, behind, same⟩ := exists_between_delimiter joined
      obtain ⟨before, follows⟩ := valued_around_delimiter valued' same
      have valueless : Valueless g (more ++ tail) := by
        refine halts.resolve_left fun empty => before ?_
        rw [empty, List.intercalate_nil]
      cases more with
      | nil => exact ⟨by simp, List.getLast?_concat⟩
      | cons z more =>
        -- Behind a delimiter in a detail a value begins, and here none does.
        have begun (y : Char) (first : inner.head? = some y) : z = y := by
          have first : (z :: more ++ after).head? = some y := by
            rw [behind, List.head?_append, first, Option.some_or]
          exact Option.some.inj first
        exact absurd (fun y first => valueless y (congrArg some (begun y first))) follows

theorem stuck_whole (parts : Parts g cs name values) : Stuck g cs rest where
  begins := ⟨cs, name, values, parts, List.prefix_refl cs⟩
  settled := by
    rintro ⟨-, last⟩
    have ends : cs = (name ++ g.detailStart :: [g.arrayDelimiter].intercalate values) ++
        [g.detailEnd] := by
      simp [parts.text]
    rw [ends, List.getLast?_concat, Option.some.injEq] at last
    exact g.apart.2.1.2.2.2.1 last.symm
  furthest more full front begins := by
    rw [parts.text, List.append_assoc, List.cons_append, List.append_assoc,
      List.singleton_append] at begins
    obtain ⟨-, -, values', valued, after, joined⟩ :=
      begins.of_bracket parts.named.2 (isBracket_start g)
    rw [List.append_assoc, List.cons_append] at joined
    obtain ⟨-, -, ended⟩ := eq_of_first_bracket (plain_joined parts.valued) (plain_joined valued)
      (isBracket_end g) (isBracket_end g) joined
    exact absurd (List.append_eq_nil_iff.mp ended).1 full

/-- Behind the values that are read stands a bracket, or a delimiter that no value follows. -/
theorem readValues_stops (g : Grammar) (back value cs : List Char) :
    (value = [] ∧ Valueless g cs ∧ readValues g back value cs = ([], back)) ∨
      ((readValues g back value cs).1 ≠ [] ∧ ∀ c tail, (readValues g back value cs).2 = c :: tail →
        isBracket g c ∨ c = g.arrayDelimiter ∧ Valueless g tail) := by
  induction cs generalizing back value with
  | nil =>
    rw [readValues]
    by_cases empty : value = []
    · exact .inl ⟨empty, valueless_nil, if_pos empty⟩
    · exact .inr (by simp [empty])
  | cons c cs ih =>
    rw [readValues]
    by_cases delimiter : c = g.arrayDelimiter
    · rw [if_pos delimiter]
      by_cases empty : value = []
      · exact .inl ⟨empty, by simp [Valueless, delimiter], if_pos empty⟩
      · rw [if_neg empty]
        obtain ⟨-, valueless, none⟩ | ⟨-, stops⟩ := ih (c :: cs) []
        · rw [none]
          exact .inr (by simp [delimiter, valueless])
        · exact .inr ⟨List.cons_ne_nil _ _, stops⟩
    · rw [if_neg delimiter]
      by_cases bracket : isBracket g c
      · rw [if_pos bracket]
        by_cases empty : value = []
        · exact .inl ⟨empty, by simp [Valueless, bracket], if_pos empty⟩
        · exact .inr (by simp [empty, bracket])
      · rw [if_neg bracket]
        obtain ⟨empty, -⟩ | stops := ih back (value ++ [c])
        · simp at empty
        · exact .inr stops

theorem stuck_of_readValues (named : name ≠ [] ∧ ∀ c ∈ name, ¬ isBracket g c)
    (taken : readValues g body [] body = (values, rest))
    (unclosed : ∀ tail, rest ≠ g.detailEnd :: tail) :
    Stuck g (name ++ g.detailStart :: [g.arrayDelimiter].intercalate values) rest := by
  refine stuck_values named (of_readValues taken).2 fun c tail same => ?_
  subst same
  refine ⟨fun closes => unclosed tail (closes ▸ rfl), ?_⟩
  obtain ⟨-, valueless, none⟩ | ⟨-, stops⟩ := readValues_stops g body [] body
  · obtain ⟨rfl, rfl⟩ := Prod.mk.inj (taken.symm.trans none)
    obtain delimiter | bracket := valueless c rfl
    · exact .inr ⟨delimiter, .inl rfl⟩
    · exact .inl bracket
  · rw [taken] at stops
    exact (stops c tail rfl).imp_right fun ⟨same, valueless⟩ => ⟨same, .inr valueless⟩

/-- Reading stops where a name is missing, behind the name, behind the values, or behind a whole
detail. -/
theorem stuck_of_read (failed : read g cs = .error rest) :
    ∃ front, cs = front ++ rest ∧ Stuck g front rest := by
  have text : cs.takeWhile (!isBracket g ·) ++ cs.dropWhile (!isBracket g ·) = cs :=
    List.takeWhile_append_dropWhile
  have plain : ∀ c ∈ cs.takeWhile (!isBracket g ·), ¬ isBracket g c := not_bracket_of_mem_takeWhile
  have bracket : ∀ c tail, cs.dropWhile (!isBracket g ·) = c :: tail → isBracket g c := by
    intro c tail opened
    have first := List.head?_dropWhile_not (!isBracket g ·) cs
    simpa [opened] using first
  rw [read] at failed
  split at failed
  next unnamed =>
    cases failed
    rw [unnamed, List.nil_append] at text
    exact ⟨[], rfl, stuck_name (by simp) fun c tail begins =>
      ⟨bracket c tail (text.trans begins), .inl rfl⟩⟩
  next nonempty =>
  split at failed
  next ended =>
    cases failed
    rw [ended, List.append_nil] at text
    exact ⟨cs, (List.append_nil cs).symm, stuck_name (text ▸ plain) (by simp)⟩
  next c body opened =>
  split at failed
  next unopened =>
    cases failed
    refine ⟨_, text.symm, stuck_name plain fun c' tail begins => ?_⟩
    obtain ⟨rfl, -⟩ := List.cons.inj (opened.symm.trans begins)
    exact ⟨bracket c body opened, .inr unopened⟩
  next opens =>
  rw [opened, Decidable.not_not.mp opens] at text
  cases taken : readValues g body [] body with
  | mk values rest' =>
    obtain ⟨joined, valued⟩ := of_readValues taken
    have whole : cs = cs.takeWhile (!isBracket g ·) ++
        g.detailStart :: [g.arrayDelimiter].intercalate values ++ rest' := by
      rw [List.append_assoc, List.cons_append, ← joined, text]
    simp only [taken] at failed
    split at failed
    next =>
      cases failed
      exact ⟨_, whole, stuck_of_readValues ⟨nonempty, plain⟩ taken (by simp)⟩
    next _ c tail =>
    split at failed
    next unclosed =>
      cases failed
      exact ⟨_, whole, stuck_of_readValues ⟨nonempty, plain⟩ taken (by simp [unclosed])⟩
    next closes =>
    split at failed
    · contradiction
    next longer =>
      cases failed
      refine ⟨_, ?_, stuck_whole ⟨rfl, ⟨nonempty, plain⟩, valued⟩⟩
      rw [Decidable.not_not.mp closes] at whole
      simpa using whole

/-! Where an option is refused -/

/-- Where a text stops being a detail: the characters before the index begin one, more of them do not
or break off behind a delimiter, and the character is the one at the index, or the last one where the
text ends there. -/
structure StopsAt (g : Grammar) (cs : List Char) (c : Char) (index : Nat) : Prop where
  inside : index ≤ cs.length
  begins : Begins g (cs.take index)
  settled : ¬ Dangles g (cs.take index)
  furthest : ∀ n ≤ cs.length, Begins g (cs.take n) → ¬ Dangles g (cs.take n) → n ≤ index
  blamed : cs[index]? = some c ∨ index = cs.length ∧ cs.getLast? = some c

theorem Stuck.stopsAt {front : List Char} {c : Char} (stuck : Stuck g front rest)
    (blamed : rest.head?.or (front ++ rest).getLast? = some c) :
    StopsAt g (front ++ rest) c front.length where
  inside := by simp
  begins := by
    rw [List.take_left]
    exact stuck.begins
  settled := by
    rw [List.take_left]
    exact stuck.settled
  furthest n inside begins settled := by
    by_contra beyond
    have cut : (front ++ rest).take n = front ++ rest.take (n - front.length) := by
      rw [List.take_append, List.take_of_length_le (by omega)]
    rw [cut] at begins settled
    refine settled (stuck.furthest _ (fun none => ?_) (List.take_prefix _ _) begins)
    have short := congrArg List.length none
    rw [List.length_take, List.length_nil] at short
    rw [List.length_append] at inside
    omega
  blamed := by
    cases rest with
    | nil => exact .inr ⟨by simp, by simpa using blamed⟩
    | cons x rest => exact .inl (by simpa using blamed)

/-- A text stops being a detail at one place only. -/
theorem StopsAt.unique {c c' : Char} {i i' : Nat} (stops : StopsAt g cs c i)
    (stops' : StopsAt g cs c' i') : c = c' ∧ i = i' := by
  have same : i = i' := Nat.le_antisymm
    (stops'.furthest i stops.inside stops.begins stops.settled)
    (stops.furthest i' stops'.inside stops'.begins stops'.settled)
  subst same
  refine ⟨?_, rfl⟩
  obtain found | ⟨rfl, last⟩ := stops.blamed <;> obtain found' | ⟨ended, last'⟩ := stops'.blamed
  · exact Option.some.inj (found.symm.trans found')
  · simp [ended] at found
  · simp at found'
  · exact Option.some.inj (last.symm.trans last')

theorem exists_stopsAt_of_error {token : String} {e : ParseError}
    (refused : ofToken g token = .error e) :
    ∃ c index, e = .malformedOption token c index ∧ StopsAt g token.toList c index := by
  rw [ofToken] at refused
  split at refused
  · contradiction
  next opened =>
  cases parsed : read g token.toList with
  | ok parts =>
    rw [parsed] at refused
    contradiction
  | error rest =>
    simp only [parsed, Except.error.injEq] at refused
    obtain ⟨front, text, stuck⟩ := stuck_of_read parsed
    obtain ⟨c, blamed⟩ : ∃ c, rest.head?.or token.toList.getLast? = some c := by
      refine Option.ne_none_iff_exists'.mp fun none => opened ?_
      rw [List.getLast?_eq_none_iff.mp (Option.or_eq_none_iff.mp none).2]
      exact List.not_mem_nil
    refine ⟨c, front.length, ?_, ?_⟩
    · rw [← refused, malformed, blamed, Option.getD_some]
      simp [text]
    · rw [text] at blamed ⊢
      exact stuck.stopsAt blamed

/-- An option without a start of details is no detail, one that has the form of a detail is that
detail, and any other is refused at the place where it stops being one. -/
theorem ofToken_by_parts (g : Grammar) (token : String) :
    (ofToken g token = .ok none ↔ g.detailStart ∉ token.toList) ∧
    (∀ d, ofToken g token = .ok (some d) ↔ Spells g token d) ∧
    ((∃ e, ofToken g token = .error e) ↔
      g.detailStart ∈ token.toList ∧ ∀ d, ¬ Spells g token d) ∧
    ∀ e, ofToken g token = .error e ↔
      (g.detailStart ∈ token.toList ∧ ∀ d, ¬ Spells g token d) ∧
        ∃ c index, e = .malformedOption token c index ∧ StopsAt g token.toList c index := by
  refine ⟨ofToken_eq_none_iff, fun d => ofToken_eq_some_iff, exists_error_iff,
    fun e => ⟨fun refused => ?_, ?_⟩⟩
  · exact ⟨exists_error_iff.mp ⟨e, refused⟩, exists_stopsAt_of_error refused⟩
  · rintro ⟨misfit, c, index, rfl, stops⟩
    obtain ⟨e, refused⟩ := exists_error_iff.mpr misfit
    obtain ⟨c', index', rfl, stops'⟩ := exists_stopsAt_of_error refused
    obtain ⟨rfl, rfl⟩ := stops.unique stops'
    exact refused

example :
    ofToken .standard "tables(p,)" = .error (.malformedOption "tables(p,)" ',' 8) := by
  decide +kernel

end ContentSchema.Detail
