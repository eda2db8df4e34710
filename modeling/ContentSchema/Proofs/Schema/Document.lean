import ContentSchema.Proofs.Assembly.Restated
import ContentSchema.Proofs.Line.Language
import ContentSchema.Proofs.Schema.Line
/-!
The text of a schema, read line by line. Where each of its lines is read as the line of a property
(`Property.WrittenAs`), strict parsing gives back the schema (`Schema.parse_text`).
-/
namespace ContentSchema

/-- A text that stands on a line of its own, and is read as the line of the property. -/
structure Property.WrittenAs (g : Grammar) (text : String) (p : Property) : Prop where
  form : Form g text.toList (.named (p.line g))
  inline : ∀ c ∈ text.toList, g.Inline c

theorem forall₂_flatMap {α β γ : Type} {R : β → γ → Prop} {f : α → List β} {h : α → List γ}
    {l : List α} (related : ∀ a ∈ l, List.Forall₂ R (f a) (h a)) :
    List.Forall₂ R (l.flatMap f) (l.flatMap h) := by
  induction l with
  | nil => exact .nil
  | cons a l ih =>
    rw [List.forall_mem_cons] at related
    exact List.rel_append related.1 (ih related.2)

namespace ContentType

variable {g : Grammar} {t : ContentType}

theorem header_eq (labelled : t.label ≠ "") : t.header g = t.opening.text g := by
  apply String.toList_inj.mp
  simp [header, opening, labelled, Property.text, Property.identifier, Property.brackets,
    Property.tokens, Property.contentTokens, Property.kind, Content.kind]

theorem text_component (g : Grammar) (id : String) : (Property.component id).text g = id := by
  simp [Property.component, Property.text, Property.identifier, Property.brackets,
    Property.tokens, Property.contentTokens, Property.kind, Content.kind]

section

variable (mark : ∀ c ∈ g.snippetMark.toList, g.Inline c)
include mark

theorem writtenAs_indented {p : Property} (written : p.Written g) :
    p.WrittenAs g (indent g ++ p.text g) := by
  have indented : (indent g ++ p.text g).toList =
      List.replicate 2 g.space ++ (p.text g).toList := by
    simp [indent, List.replicate]
  constructor
  case form =>
    rw [indented]
    exact Property.form_text written 2
  case inline =>
    intro c member
    rw [indented, List.mem_append] at member
    obtain space | inside := member
    · rw [(List.mem_replicate.mp space).2]
      exact Grammar.inline_space
    · exact Property.inline_text mark written c inside

theorem writtenAs_texts (labelled : t.label ≠ "") (written : ∀ p ∈ t.stated, p.Written g) :
    List.Forall₂ (Property.WrittenAs g) (t.texts g) t.stated := by
  rw [stated, List.forall_mem_cons] at written
  rw [texts, stated, header_eq labelled]
  constructor
  · exact ⟨Property.form_text written.1 0, Property.inline_text mark written.1⟩
  · apply forall₂_flatMap
    intro p member
    have inside {q : Property} (listed : q ∈ p :: p.components.map Property.component) :
        q.Written g :=
      written.2 q (List.mem_flatMap.mpr ⟨p, member, listed⟩)
    rw [List.map_cons]
    apply List.Forall₂.cons (writtenAs_indented mark (inside List.mem_cons_self))
    rw [List.forall₂_map_left_iff, List.forall₂_map_right_iff, List.forall₂_same]
    intro id listed
    have component := writtenAs_indented mark
      (inside (List.mem_cons_of_mem p (List.mem_map_of_mem listed)))
    rwa [text_component] at component

end

end ContentType

theorem splitOn_lines {a : Char} {ls : List (List Char)} (inner : ∀ l ∈ ls, a ∉ l) :
    (ls.flatMap (· ++ [a])).splitOn a = ls ++ [[]] := by
  induction ls with
  | nil => rfl
  | cons l ls ih =>
    rw [List.forall_mem_cons] at inner
    rw [List.flatMap_cons, List.append_assoc, List.singleton_append,
      List.splitOn_append_cons_self_of_not_mem inner.1, ih inner.2, List.cons_append]

/-- A text of whole lines is cut into these lines, and an empty one behind the last delimiter. -/
theorem textLines_join {g : Grammar} (ends : g.EndsLines) {texts : List String}
    (inline : ∀ t ∈ texts, ∀ c ∈ t.toList, g.Inline c) :
    textLines g (String.join (texts.map (· ++ g.delimiter.text))) =
      texts.map String.toList ++ [[]] := by
  have written : (String.join (texts.map (· ++ g.delimiter.text))).toList =
      (texts.map String.toList).flatMap (· ++ [g.delimiter.head]) := by
    simp [List.flatMap_map, Marker.text, Marker.toList, ends.single]
  have kept : ∀ c ∈ (texts.map String.toList).flatMap (· ++ [g.delimiter.head]), c ∉ g.skip := by
    intro c member
    obtain ⟨l, listed, inside⟩ := List.mem_flatMap.mp member
    obtain ⟨t, isText, rfl⟩ := List.mem_map.mp listed
    rw [List.mem_append, List.mem_singleton] at inside
    obtain inText | rfl := inside
    · exact (inline t isText c inText).2
    · intro skipped
      apply g.not_reserved_of_skip _ skipped
      simp [Markup.reservedChars, Markup.reserved]
  rw [textLines, written, List.filter_eq_self.mpr (by simpa using kept)]
  apply splitOn_lines
  intro l listed ended
  obtain ⟨t, isText, rfl⟩ := List.mem_map.mp listed
  exact (inline t isText _ ended).1 rfl

section Read

variable {g : Grammar} {texts : List String} {ps : List Property}

theorem kept_named (g : Grammar) (number : Nat) (ps : List Property) :
    Held.kept number false (ps.map (fun p => .named (p.line g)) ++ [.blank]) =
      (ps.zipIdx number).map fun (p, i) => { p.line g with number := i, afterBlank := false } := by
  induction ps generalizing number with
  | nil => rfl
  | cons p ps ih => simp [Held.kept, ih]

/-- Written lines are read as the lines they were written for, each with its number. -/
theorem scan_written (ends : g.EndsLines) (two : g.comment.size = 2)
    (written : List.Forall₂ (Property.WrittenAs g) texts ps) :
    scan g (String.join (texts.map (· ++ g.delimiter.text))) =
      .ok ((ps.zipIdx 1).map fun (p, i) => { p.line g with number := i, afterBlank := false }) := by
  have inline : ∀ t ∈ texts, ∀ c ∈ t.toList, g.Inline c := by
    induction written with
    | nil => exact List.forall_mem_nil _
    | cons isWritten _ ih => exact List.forall_mem_cons.mpr ⟨isWritten.inline, ih⟩
  have forms : List.Forall₂ (Form g) (texts.map String.toList)
      (ps.map fun p => .named (p.line g)) := by
    rw [List.forall₂_map_left_iff, List.forall₂_map_right_iff]
    exact written.imp fun _ _ isWritten => isWritten.form
  rw [scan_iff_form ends two, textLines_join ends inline]
  -- Behind the last delimiter stands an empty line, which is not kept.
  refine ⟨ps.map (fun p => .named (p.line g)) ++ [.blank], ?_, ?_⟩
  · exact List.rel_append forms (.cons (.blank 0) .nil)
  · rw [← Held.kept_eq_records, kept_named]

theorem mapM_toEntry (legible : g.Legible) (telling : ∀ p ∈ ps, p.Telling g) (number : Nat) :
    ((ps.zipIdx number).map fun (p, i) =>
      { p.line g with number := i, afterBlank := false }).mapM (Line.toEntry g) =
      .ok ((ps.zipIdx number).map fun (p, i) => { Entry.ofLine p with line := i }) := by
  induction ps generalizing number with
  | nil => rfl
  | cons p ps ih =>
    rw [List.forall_mem_cons] at telling
    have entry : Line.toEntry g { p.line g with number, afterBlank := false } =
        .ok { Entry.ofLine p with line := number } :=
      congrArg (Except.map _) (Property.describe_line telling.1 (telling.1.said legible))
    rw [List.zipIdx_cons, List.map_cons, List.mapM_cons, entry, ih telling.2]
    rfl

end Read

/-- Strict parsing undoes writing, if every line tells its property. -/
theorem Schema.parse_text {g : Grammar} (ends : g.EndsLines) (two : g.comment.size = 2)
    (mark : ∀ c ∈ g.snippetMark.toList, g.Inline c) (legible : g.Legible) {s : Schema}
    (integral : s.Integral) (stats : s.stats = Chains.stats s.types)
    (statable : ∀ t ∈ s.types ++ s.snippetTypes, t.Statable)
    (written : ∀ t ∈ s.types ++ s.snippetTypes, ∀ p ∈ t.stated, p.Written g)
    (telling : ∀ t ∈ s.types ++ s.snippetTypes, ∀ p ∈ t.stated, p.Telling g)
    (fresh : Nat → String) : parse fresh .strict g (s.text g) = .ok s := by
  have told : ∀ p ∈ (s.types ++ s.snippetTypes).flatMap (·.stated), p.Telling g := by
    intro p listed
    obtain ⟨t, member, inside⟩ := List.mem_flatMap.mp listed
    exact telling t member p inside
  have lines : List.Forall₂ (Property.WrittenAs g)
      ((s.types ++ s.snippetTypes).flatMap (·.texts g))
      ((s.types ++ s.snippetTypes).flatMap (·.stated)) :=
    forall₂_flatMap fun t member =>
      ContentType.writtenAs_texts mark (statable t member).labelled (written t member)
  have read : entries g (s.text g) =
      .ok ((((s.types ++ s.snippetTypes).flatMap (·.stated)).zipIdx 1).map fun (p, i) =>
        { Entry.ofLine p with line := i }) := by
    rw [entries, text, scan_written ends two lines]
    exact mapM_toEntry legible told 1
  have unplaced (ps : List Property) : ((ps.zipIdx 1).map fun (p, i) =>
      { Entry.ofLine p with line := i }).map (·.unplaced) = ps.map Entry.ofLine := by
    rw [List.map_map]
    conv_rhs => rw [← List.zipIdx_map_fst 1 ps, List.map_map]
    rfl
  have assembled := Assembly.ofEntries_restated integral statable (unplaced _) fresh g.typeStart
  rw [parse, read]
  simp only [bind, Except.bind, assembled]
  rw [ofAssembly, ← stats]
  rfl

end ContentSchema
