import ContentSchema.Proofs.Line.Clean
import ContentSchema.Proofs.Line.Invariant
/-!
Labels, for any grammar. A label may hold the first characters of a comment mark, so what has been read
as a label is followed through the marks that break off. It is a label behind any other head of a line
as well, and so is each beginning of it (`Scan.labelText_of_read?`).
-/
namespace ContentSchema
namespace Scan
open Form Phase

variable {g : Grammar} {p : Phase} {d : Draft} {c : Char} {cs : List Char} {seen held : Seen}
  {matched : Nat}

/-! What a line holds before a comment or its end -/

/-- What the line holds has been seen, and nothing can be added to it. -/
def Phase.Past (g : Grammar) (held : Seen) : Phase → Prop
  | commentMark seen _ => seen = held ∧ held.Settled g
  | comment seen => seen = held
  | delimiter seen _ => seen = held
  | _ => False

theorem kept_past (g : Grammar) (held : Seen) : Kept g (Phase.Past g held) where
  take := by
    intro p q c past taken
    cases p <;> simp only [look] at taken
    case commentMark => grind [lookCommentMark, Phase.Past, Seen.Settled]
    case comment => grind [lookComment, Phase.Past]
    case delimiter => grind [lookDelimiter, Phase.Past]
    all_goals contradiction
  handOn := by
    intro p q c past handed
    cases p <;> simp only [look] at handed
    case commentMark => grind [lookCommentMark, Phase.Past, Seen.Settled]
    case comment => grind [lookComment, Phase.Past]
    case delimiter => grind [lookDelimiter]
    all_goals contradiction

theorem eq_of_past (past : p.Past g held) (h : p.read? g cs = some seen) : seen = held := by
  obtain ⟨q, past, concluded⟩ := (kept_past g held).of_read? past h
  cases q with
  | commentMark seen' matched =>
    obtain ⟨rfl, settled⟩ := past
    simp [conclude?, settled matched] at concluded
  | comment seen' => exact (Option.some.inj concluded).symm.trans past
  | delimiter seen' matched => exact (Option.some.inj concluded).symm.trans past
  | _ => contradiction

/-! Labels -/

/-- A draft with more text in its label. -/
def Draft.extend (d : Draft) (text : List Char) : Draft := { d with label := d.label ++ .ofList text }

theorem Draft.extend_nil (d : Draft) : d.extend [] = d := by
  rw [extend, append_ofList_nil]

theorem Draft.extend_extend (d : Draft) (first second : List Char) :
    (d.extend first).extend second = d.extend (first ++ second) := by
  simp [extend, String.append_assoc]

/-- The phase of a label behind which as many characters of a comment mark have been read. -/
def labelPhase (d : Draft) (matched : Nat) : Phase :=
  if matched = 0 then .label d else .commentMark (.tail d) matched

/-- The text goes on with a label that has been read so far, whatever else the line holds, and the
line may end after each of its characters. -/
def GoesOn (g : Grammar) (matched : Nat) (text : List Char) : Prop :=
  ∀ d : Draft, d.snippet = false → ∀ before, before <+: text →
    read? g (labelPhase d matched) before =
      some (.tail (d.extend (g.comment.toList.take matched ++ before)))

theorem goesOn_nil (g : Grammar) (matched : Nat) : GoesOn g matched [] := by
  intro d labelled before front
  rw [List.prefix_nil.mp front, List.append_nil]
  by_cases none : matched = 0
  · subst none
    rw [List.take_zero, Draft.extend_nil]
    rfl
  · simp [labelPhase, none, read?, conclude?, Seen.recover?, labelled, Draft.extend]

theorem goesOn_cons {text : List Char}
    (read : ∀ d : Draft, d.snippet = false → ∀ before, before <+: text →
      read? g (labelPhase d matched) (c :: before) =
        some (.tail (d.extend (g.comment.toList.take matched ++ c :: before)))) :
    GoesOn g matched (c :: text) := by
  intro d labelled before front
  cases before with
  | nil => exact goesOn_nil g matched d labelled [] List.nil_prefix
  | cons x before =>
    obtain ⟨rfl, inside⟩ := List.cons_prefix_cons.mp front
    exact read d labelled before inside

/-- The next character of a comment mark adds nothing to the label yet. -/
theorem read?_labelPhase_mark (here : g.comment.toList[matched]? = some c) :
    read? g (labelPhase d matched) (c :: cs) =
      if matched + 1 = g.comment.size then read? g (.comment (.tail d)) cs
      else read? g (labelPhase d (matched + 1)) cs := by
  have marked : read? g (.commentMark (.tail d) matched) (c :: cs) =
      if matched + 1 = g.comment.size then read? g (.comment (.tail d)) cs
      else read? g (labelPhase d (matched + 1)) cs := by
    by_cases last : matched + 1 = g.comment.size
    · rw [if_pos last, read?_of_take (q := .comment (.tail d))]
      simp only [look, lookCommentMark, if_pos here, if_pos last]
    · rw [if_neg last, read?_of_take (q := .commentMark (.tail d) (matched + 1))]
      · rfl
      · simp only [look, lookCommentMark, if_pos here, if_neg last]
  by_cases none : matched = 0
  · subst none
    have opens : c = g.comment.head := (Option.some.inj here).symm
    rw [← marked, labelPhase, if_pos rfl, read?_of_handOn (q := .commentMark (.tail d) 0)]
    simp [look, lookLabel, Grammar.opensComment, opens]
  · rwa [labelPhase, if_neg none]

/-- Where a comment mark breaks off, its characters belong to the label. -/
theorem read?_labelPhase_broken (labelled : d.snippet = false)
    (other : g.comment.toList[matched]? ≠ some c) :
    read? g (labelPhase d matched) (c :: cs) =
      read? g (.label (d.extend (g.comment.toList.take matched))) (c :: cs) := by
  by_cases none : matched = 0
  · subst none
    rw [List.take_zero, Draft.extend_nil]
    rfl
  · rw [labelPhase, if_neg none, read?_of_handOn]
    simp [look, lookCommentMark, other, none, Seen.recover?, labelled, Draft.extend]

theorem read?_label_plain (unopened : ¬ g.opensComment c) (inner : ¬ g.opensDelimiter c)
    (plain : ¬ g.isStructural c) :
    read? g (.label d) (c :: cs) = read? g (.label (d.extend [c])) cs := by
  apply read?_of_take
  simp only [look, lookLabel, unopened, inner, plain, Draft.extend, append_ofList_cons,
    append_ofList_nil]
  rfl

/-- The text holds a label up to a comment or the end of the line. -/
def Labels (g : Grammar) (matched : Nat) (d : Draft) (cs : List Char) (seen : Seen) : Prop :=
  seen = .tail d ∨ ∃ text, text <+: cs ∧ GoesOn g matched text ∧
    seen = .tail (d.extend (g.comment.toList.take matched ++ text))

section

variable (later : ∀ matched d, d.snippet = false → read? g (labelPhase d matched) cs = some seen →
  Labels g matched d cs seen)
include later

theorem labels_of_mark (labelled : d.snippet = false) (here : g.comment.toList[matched]? = some c)
    (h : read? g (labelPhase d matched) (c :: cs) = some seen) :
    Labels g matched d (c :: cs) seen := by
  rw [read?_labelPhase_mark here] at h
  split at h
  · exact .inl (eq_of_past (p := .comment (.tail d)) rfl h)
  · next more =>
    obtain rfl | ⟨text, inside, goesOn, rfl⟩ := later (matched + 1) d labelled h
    · exact .inl rfl
    have taken (rest : List Char) : g.comment.toList.take (matched + 1) ++ rest =
        g.comment.toList.take matched ++ c :: rest := by
      rw [List.take_add_one, here, Option.toList_some, List.append_assoc, List.singleton_append]
    refine .inr ⟨c :: text, List.cons_prefix_cons.mpr ⟨rfl, inside⟩, ?_, by rw [taken]⟩
    apply goesOn_cons
    intro d labelled before front
    rw [read?_labelPhase_mark here, if_neg more, goesOn d labelled before front, taken]

theorem labels_of_label (labelled : d.snippet = false)
    (h : read? g (.label d) (c :: cs) = some seen) : Labels g 0 d (c :: cs) seen := by
  by_cases opens : g.opensComment c
  · have here : g.comment.toList[0]? = some c := by
      rw [Grammar.opensComment, beq_iff_eq] at opens
      rw [opens]
      rfl
    exact labels_of_mark later labelled here h
  by_cases ends : g.opensDelimiter c
  · rw [read?_of_handOn (q := .delimiter (.tail d) 0)] at h
    · exact .inl (eq_of_past (p := .delimiter (.tail d) 0) rfl h)
    · simp [look, lookLabel, opens, ends]
  by_cases structural : g.isStructural c
  · rw [read?_of_refuse] at h
    · contradiction
    · simp [look, lookLabel, opens, ends, structural]
  have read (d : Draft) (cs : List Char) : read? g (.label d) (c :: cs) =
      read? g (.label (d.extend [c])) cs := read?_label_plain opens ends structural
  have goesOn {text : List Char} (goesOn : GoesOn g 0 text) : GoesOn g 0 (c :: text) := by
    apply goesOn_cons
    intro d labelled before front
    exact (read d before).trans
      ((goesOn (d.extend [c]) labelled before front).trans (by rw [Draft.extend_extend]; rfl))
  rw [read] at h
  obtain rfl | ⟨text, inside, more, rfl⟩ := later 0 (d.extend [c]) labelled h
  · exact .inr ⟨[c], ⟨cs, rfl⟩, goesOn (goesOn_nil g 0), rfl⟩
  · refine .inr ⟨c :: text, List.cons_prefix_cons.mpr ⟨rfl, inside⟩, goesOn more, ?_⟩
    rw [Draft.extend_extend]
    rfl

end

/-- What the reader accepts as a label can be read again. -/
theorem labels_of_read? (labelled : d.snippet = false)
    (h : read? g (labelPhase d matched) cs = some seen) : Labels g matched d cs seen := by
  induction cs generalizing d matched with
  | nil =>
    refine .inr ⟨[], List.nil_prefix, goesOn_nil g matched, ?_⟩
    rw [goesOn_nil g matched d labelled [] List.nil_prefix] at h
    exact (Option.some.inj h).symm
  | cons c cs ih =>
    have later (matched : Nat) (d : Draft) (labelled : d.snippet = false) :
        read? g (labelPhase d matched) cs = some seen → Labels g matched d cs seen := ih labelled
    by_cases here : g.comment.toList[matched]? = some c
    · exact labels_of_mark later labelled here h
    rw [read?_labelPhase_broken labelled here] at h
    right
    obtain rfl | ⟨text, inside, goesOn, rfl⟩ :=
      labels_of_label (d := d.extend _) later labelled h
    · exact ⟨[], List.nil_prefix, goesOn_nil g matched, by rw [List.append_nil]⟩
    · refine ⟨text, inside, ?_, by rw [Draft.extend_extend]; rfl⟩
      intro d labelled before front
      cases before with
      | nil => exact goesOn_nil g matched d labelled [] List.nil_prefix
      | cons x before =>
        obtain ⟨rfl, -⟩ := List.cons_prefix_cons.mp (front.trans inside)
        have read := goesOn (d.extend (g.comment.toList.take matched)) labelled (x :: before) front
        rw [Draft.extend_extend] at read
        rw [read?_labelPhase_broken labelled here]
        exact read

/-- The text is the label behind any head of a line, and so is each beginning of it. -/
def LabelText (g : Grammar) (text : List Char) : Prop :=
  ∀ d : Draft, d.snippet = false → ∀ before, before <+: text →
    read? g (.afterHead d) before = some (.tail (d.extend before))

/-- What the reader accepts behind the head of a line is its label, or nothing of it. -/
theorem labelText_of_read? (h : read? g (.afterHead d) cs = some seen) :
    seen = .tail d ∨ ∃ text, d.snippet = false ∧ (∀ c ∈ text, c ∈ cs) ∧ LabelText g text ∧
      seen = .tail (d.extend text) := by
  have apart := g.apart
  induction cs with
  | nil => exact .inl (Option.some.inj h).symm
  | cons c cs ih =>
    by_cases space : c = g.space
    · subst space
      rw [read?_of_take (q := .afterHead d)] at h
      · refine (ih h).imp_right fun ⟨text, labelled, inside, isText, same⟩ => ?_
        exact ⟨text, labelled, fun c member => List.mem_cons_of_mem _ (inside c member), isText, same⟩
      · simp only [look]
        grind [lookAfterHead, Grammar.opensComment]
    by_cases ends : g.opensDelimiter c
    · rw [read?_of_handOn (q := .delimiter (.tail d) 0)] at h
      · exact .inl (eq_of_past (p := .delimiter (.tail d) 0) rfl h)
      · simp only [look]
        grind [lookAfterHead, Grammar.opensComment, Grammar.opensDelimiter]
    cases snippet : d.snippet with
    | true =>
      rw [read?_of_handOn (q := .commentMark (.tail d) 0)] at h
      · exact .inl (eq_of_past (p := .commentMark (.tail d) 0) ⟨rfl, settled_tail snippet⟩ h)
      · have refused := look_ne_refuse h
        simp only [look] at refused ⊢
        grind [lookAfterHead]
    | false =>
      have inner : c ≠ g.delimiter.head := fun same => ends (beq_iff_eq.mpr same)
      have plain : ¬ g.isStructural c ∧ c ≠ g.snippetMark.head := by
        have refused := look_ne_refuse h
        simp only [look] at refused
        grind [lookAfterHead, Grammar.opensComment, Grammar.opensSnippet, Grammar.isStructural]
      rw [read?_afterHead_label inner space plain.1 plain.2 snippet] at h
      have labels : Labels g 0 d (c :: cs) seen := labels_of_read? snippet h
      obtain same | ⟨text, inside, goesOn, same⟩ := labels
      · exact .inl same
      refine .inr ⟨text, rfl, fun c member => inside.subset member, ?_, same⟩
      intro d labelled before front
      cases before with
      | nil =>
        rw [Draft.extend_nil]
        rfl
      | cons x before =>
        obtain ⟨rfl, -⟩ := List.cons_prefix_cons.mp (front.trans inside)
        rw [read?_afterHead_label inner space plain.1 plain.2 labelled]
        exact goesOn d labelled (x :: before) front

end Scan
end ContentSchema
