import ContentSchema.Proofs.Schema.Described
/-!
Texts that are refused. Behind a name and a space a comma can stand in a comment only
(`Form.not_form_of_comma`), so that a type whose label has a comma cannot be read from its header
(`Schema.parse_text_of_comma`).
-/
namespace ContentSchema

open Canonical

namespace Form

variable {id label : String} {held : Held}

theorem eq_nil_of_isEnding {rest : List Char} (ending : IsEnding .standard rest)
    (uncommented : '/' ∉ rest) : rest = [] := by
  obtain empty | comment := ending
  · exact empty
  · exact absurd (comment.subset (List.mem_cons_self : '/' ∈ _)) uncommented

theorem front_eq_nil {whole rest : List Char} {n : Nat} {snippet : Bool}
    (cut : whole = front .standard n snippet ++ rest) (first : whole.head? ≠ some ' ')
    (unmarked : '.' ∉ whole) : front .standard n snippet = [] := by
  subst cut
  cases n with
  | succ n => exact absurd rfl first
  | zero =>
    cases snippet with
    | false => rfl
    | true => exact absurd (List.mem_append_left rest (by decide)) unmarked

/-- Behind the head of a line a comma can stand in a comment only. -/
theorem not_comma_of_isTail {snippet : Bool} {rest : List Char} {given : Option String}
    (tail : IsTail .standard snippet rest given) (uncommented : '/' ∉ rest) : ',' ∉ rest := by
  have spaces (n : Nat) : ',' ∉ List.replicate n Grammar.standard.space :=
    fun member => absurd (List.mem_replicate.mp member).2 (by decide)
  cases tail with
  | bare n ending =>
    rw [List.mem_append, not_or] at uncommented
    rw [eq_nil_of_isEnding ending uncommented.2, List.append_nil]
    exact spaces n
  | label n labelled isLabel ending =>
    rw [List.mem_append, List.mem_append, not_or, not_or] at uncommented
    rw [eq_nil_of_isEnding ending uncommented.2.2, List.append_nil, List.mem_append, not_or]
    exact ⟨spaces n, fun member => isLabel.plain ',' member (by decide)⟩

/-- Behind a name and a space no name with a comma can stand. -/
theorem not_form_of_comma (named : IsName id) (labelled : IsName label) (comma : ',' ∈ label.toList) :
    ¬ Form .standard (id.toList ++ ' ' :: label.toList) held := by
  have marks : ['/', '.', '['] ⊆ [' ', '\n', '\r', '/', '.', '[', ']', '(', ')'] := by decide
  have spaceless {name : String} (isName : IsName name) : ' ' ∉ name.toList :=
    fun member => isName.plain _ member List.mem_cons_self
  have absent {x : Char} (mark : x ∈ ['/', '.', '[']) : x ∉ id.toList ++ ' ' :: label.toList := by
    intro member
    rw [List.mem_append, List.mem_cons] at member
    obtain inId | rfl | inLabel := member
    · exact named.plain x inId (marks mark)
    · contradiction
    · exact labelled.plain x inLabel (marks mark)
  have first : (id.toList ++ ' ' :: label.toList).head? ≠ some ' ' := by
    rw [List.head?_append_of_ne_nil _ (by simpa using named.nonempty)]
    exact fun same => spaceless named (List.mem_of_head? same)
  intro form
  generalize whole : id.toList ++ ' ' :: label.toList = text at form absent first
  have space : ' ' ∈ text := by simp [← whole]
  cases form with
  | blank n =>
    cases n with
    | zero => contradiction
    | succ n => exact first rfl
  | @remark n rest comment =>
    have inside : '/' ∈ rest := comment.subset (List.mem_cons_self : '/' ∈ _)
    exact absent (by simp) (List.mem_append_right _ inside)
  | @bare n snippet id' rest isIdentifier ending =>
    have empty := front_eq_nil rfl first (absent (by simp))
    rw [empty, List.nil_append] at space absent
    have ended := eq_nil_of_isEnding ending fun member =>
      absent (by simp) (List.mem_append_right _ member)
    rw [ended, List.append_nil] at space
    exact (isIdentifier.plain ' ' space).elim (by decide) fun unreserved => unreserved (by decide)
  | @spaced n snippet id' rest given isIdentifier tail =>
    have empty := front_eq_nil rfl first (absent (by simp))
    rw [empty, List.nil_append] at whole absent
    obtain ⟨-, -, rfl⟩ :=
      (List.append_cons_inj_of_notMem (spaceless named) (spaceless labelled)).mp whole
    apply not_comma_of_isTail tail _ comma
    exact fun member => absent (by simp) (List.mem_append_right _ (List.mem_cons_of_mem _ member))
  | @bracketed n snippet id' inner rest options given isIdentifier isOptions tail =>
    have inside : '[' ∈ id' ++ '[' :: (inner ++ ']' :: rest) := by simp
    exact absent (by simp) (List.mem_append_right _ inside)

end Form

theorem mem_splitOn_lines {α : Type} [BEq α] [LawfulBEq α] {a : α} {l : List α} {ls : List (List α)}
    (listed : l ∈ ls) (inner : a ∉ l) : l ∈ (ls.flatMap (· ++ [a])).splitOn a := by
  induction ls with
  | nil => contradiction
  | cons first ls ih =>
    rw [List.flatMap_cons, List.append_assoc, List.singleton_append]
    obtain rfl | later := List.mem_cons.mp listed
    · rw [List.splitOn_append_cons_self_of_not_mem inner]
      exact List.mem_cons_self
    · rw [List.splitOn_append_cons_self]
      exact List.mem_append_right _ (ih later)

/-- A text with a line that has no form is refused, whatever its other lines are. -/
theorem scan_ne_ok_of_mem {g : Grammar} (ends : g.EndsLines) (two : g.comment.size = 2)
    {texts : List String} {t : String} (listed : t ∈ texts) (inline : ∀ c ∈ t.toList, g.Inline c)
    (formless : ∀ held, ¬ Form g t.toList held) (lines : List Line) :
    scan g (String.join (texts.map (· ++ g.delimiter.text))) ≠ .ok lines := by
  intro read
  obtain ⟨held, forms, _⟩ := (scan_iff_form ends two).mp read
  have delimits : g.delimiter.head ∉ g.skip := by
    intro skipped
    apply g.not_reserved_of_skip _ skipped
    simp [Markup.reservedChars, Markup.reserved]
  have cut : t.toList ∈ textLines g (String.join (texts.map (· ++ g.delimiter.text))) := by
    have kept : (String.join (texts.map (· ++ g.delimiter.text))).toList.filter (· ∉ g.skip) =
        (texts.map fun t => t.toList.filter (· ∉ g.skip)).flatMap (· ++ [g.delimiter.head]) := by
      simp [List.flatMap_map, Marker.text, Marker.toList, ends.single, List.filter_flatMap, delimits]
    rw [textLines, kept]
    apply mem_splitOn_lines
    · refine List.mem_map.mpr ⟨t, listed, ?_⟩
      rw [List.filter_eq_self]
      intro c member
      simpa using (inline c member).2
    · exact fun member => (inline _ member).1 rfl
  obtain ⟨held, form⟩ := exists_forall₂.mp ⟨held, forms⟩ _ cut
  exact formless held form

/-- A schema with a comma in a label, be the label a name, is written as a text that is refused. -/
theorem Schema.parse_text_of_comma {s : Schema} {t : ContentType}
    (member : t ∈ s.types ++ s.snippetTypes) (named : IsName t.id) (labelled : IsName t.label)
    (comma : ',' ∈ t.label.toList) (fresh : Nat → String) (mode : Mode) :
    ∃ e, parse fresh mode .standard (s.text .standard) = .error e := by
  have header : (t.header .standard).toList = t.id.toList ++ ' ' :: t.label.toList := by
    have space : Grammar.standard.space = ' ' := rfl
    simp [ContentType.header, labelled.nonempty, space]
  have listed : t.header .standard ∈ (s.types ++ s.snippetTypes).flatMap (·.texts .standard) :=
    List.mem_flatMap.mpr ⟨t, member, List.mem_cons_self⟩
  have inline : ∀ c ∈ (t.header .standard).toList, Grammar.standard.Inline c := by
    intro c inside
    rw [inline_standard]
    rw [header, List.mem_append, List.mem_cons] at inside
    obtain inId | rfl | inLabel := inside
    · have plain := named.plain c inId
      simp_all
    · decide
    · have plain := labelled.plain c inLabel
      simp_all
  have formless : ∀ held, ¬ Form .standard (t.header .standard).toList held := by
    intro held
    rw [header]
    exact Form.not_form_of_comma named labelled comma
  have refused := scan_ne_ok_of_mem Grammar.standard_endsLines rfl listed inline formless
  cases parsed : parse fresh mode .standard (s.text .standard) with
  | error e => exact ⟨e, rfl⟩
  | ok s' =>
    obtain ⟨es, read, _⟩ := of_bind_eq_ok parsed
    obtain ⟨lines, scanned, _⟩ := of_bind_eq_ok read
    exact absurd scanned (refused lines)

end ContentSchema
