import ReturnCaptures.Proofs.Sites

/-!
# Texts without carriage returns

Expanding a text without carriage returns gives another one: the characters of an expansion are
copied from the text, or belong to what is written around the copies, and a line end in front of a
declaration is a carriage return and a line feed only if the body has such line ends itself.
-/

namespace ReturnCaptures

section Texts

variable {text : List Char}

theorem not_mem_slice (h : '\r' ∉ text) (start stop : Nat) :
  '\r' ∉ slice text start stop
  := fun hmem => h (List.mem_of_mem_drop (List.mem_of_mem_take hmem))

/-- What holds of some texts, of what is written around them and of appended texts, holds of the texts
in parentheses, or of a single one alone. -/
theorem tupleText_of_append {P : List Char → Prop} (happend : ∀ u v, P u → P v → P (u ++ v))
    (hwritten : ∀ u ⊆ ['(', ',', ' ', ')'], P u) {texts : List (List Char)}
    (h : ∀ text ∈ texts, P text) :
  P (tupleText texts)
  := by
  have hcommas : P (commaList texts) := by
    rw [commaList]
    induction texts with
    | nil => exact hwritten [] (by simp)
    | cons text texts ih =>
        rw [List.forall_mem_cons] at h
        cases texts with
        | nil => simpa using h.1
        | cons next texts =>
            rw [List.intercalate_cons_cons]
            exact happend _ _ (happend _ _ h.1 (hwritten _ (by simp))) (ih h.2)
  unfold tupleText
  split
  case h_1 text => apply h text (List.mem_singleton_self text)
  case h_2 =>
    exact happend ['('] _ (hwritten _ (by simp)) (happend _ _ hcommas (hwritten _ (by simp)))

theorem not_mem_tupleText {texts : List (List Char)} (h : ∀ text ∈ texts, '\r' ∉ text) :
  '\r' ∉ tupleText texts
  := by
  apply tupleText_of_append _ _ h
  · intro u v hu hv
    rw [List.mem_append]
    exact not_or.mpr ⟨hu, hv⟩
  · intro u hu hmem
    exact absurd (hu hmem) (by decide)

/-- The texts of several stretches in parentheses, or of a single one. -/
theorem not_mem_tupleText_textIn {α : Type} (h : '\r' ∉ text) (span : α → Span) (as : List α) :
  '\r' ∉ tupleText (as.map fun a => (span a).textIn text)
  := by
  apply not_mem_tupleText
  rw [List.forall_mem_map]
  intro a _
  apply not_mem_slice h

theorem not_mem_withDeclaration {declaration lineEnd statements : List Char}
    (hdeclaration : '\r' ∉ declaration) (hlineEnd : '\r' ∉ lineEnd)
    (hstatements : '\r' ∉ statements) :
  '\r' ∉ withDeclaration declaration lineEnd statements
  := by
  have hindentation : '\r' ∉ indentation (statements.takeWhile isWhitespace) := by
    intro hmem
    rw [indentation, List.mem_reverse] at hmem
    have hmargin := List.mem_reverse.mp ((List.takeWhile_sublist _).subset hmem)
    apply hstatements ((List.takeWhile_sublist _).subset hmargin)
  have hrest : '\r' ∉ statements.dropWhile fun c => c == ' ' || c == '\t' :=
    fun hmem => hstatements ((List.dropWhile_sublist _).subset hmem)
  unfold withDeclaration
  simp only
  split
  · simp [hdeclaration]
  · split
    · simp [hdeclaration, hlineEnd, hindentation, hstatements]
    · simp [hdeclaration, hrest]

theorem not_mem_splice {edits : List Edit} (h : '\r' ∉ text)
    (hedits : ∀ edit ∈ edits, '\r' ∉ edit.replacement) (start stop : Nat) :
  '\r' ∉ splice text start stop edits
  := by
  induction edits generalizing start with
  | nil => apply not_mem_slice h
  | cons edit edits ih =>
      rw [List.forall_mem_cons] at hedits
      simp [splice, not_mem_slice h, hedits.1, ih hedits.2]

namespace Expansion

variable {edits : List Edit}

theorem not_mem_bodyText (h : '\r' ∉ text) (hedits : ∀ edit ∈ edits, '\r' ∉ edit.replacement)
    (x : Expansion) (body : Group) :
  '\r' ∉ bodyText text edits x body
  := by
  unfold bodyText
  simp only
  split
  · apply not_mem_splice h hedits
  · rw [hasCarriageReturns_eq_false (not_mem_slice h _ _), List.mem_append, not_or]
    use not_mem_slice h _ _
    apply not_mem_withDeclaration
    · simp [Declaration.textIn, not_mem_tupleText_textIn h]
    · decide
    · apply not_mem_splice h hedits

theorem not_mem_returnText (h : '\r' ∉ text) (x : Expansion) (start : Nat) :
  '\r' ∉ (returnText text x start).1
  := by
  unfold returnText
  split
  · simp
  · apply not_mem_slice h
  · split
    · split
      · simp
      · simp [not_mem_slice h, not_mem_tupleText_textIn h]
    · apply not_mem_slice h

/-- The text of an expanded item has no carriage return if the source has none, and what is put into
its body neither. -/
theorem not_mem_textWith (h : '\r' ∉ text) (hedits : ∀ edit ∈ edits, '\r' ∉ edit.replacement)
    (x : Expansion) :
  '\r' ∉ x.textWith text edits
  := by
  unfold textWith
  simp only
  split <;> simp [not_mem_slice h, not_mem_returnText h, not_mem_bodyText h hedits]

end Expansion

end Texts

namespace Source

variable {source : Source} {trees : List TokenTree} {edits : List Edit} {names : List String}

/-- The edits of a source without carriage returns have none. -/
theorem Marks.not_mem_replacement (h : source.Marks trees edits names)
    (htext : '\r' ∉ source.text) :
  ∀ edit ∈ edits, '\r' ∉ edit.replacement
  := by
  induction h with
  | nil => simp
  | called _ _ _ _ ihinner ih =>
      rw [List.forall_mem_cons]
      use Expansion.not_mem_textWith htext ihinner _
  | attributed _ _ _ _ ihinner ih =>
      rw [List.forall_mem_cons]
      use Expansion.not_mem_textWith htext ihinner _
  | token _ _ ih => apply ih
  | group _ _ _ ihinner ih =>
      intro edit hedit
      rcases List.mem_append.mp hedit with hedit | hedit
      · apply ihinner edit hedit
      · apply ih edit hedit

/-- Expanding a text without carriage returns gives another one. -/
theorem not_mem_of_expand {s s' : List String} {out : List Char}
    (h : source.expand.run s = .ok out s') (htext : '\r' ∉ source.text) :
  '\r' ∉ out
  := by
  obtain ⟨trees, edits, names, _, hmarks, _, rfl⟩ := expand_run_eq_ok.mp h
  apply not_mem_splice htext (hmarks.not_mem_replacement htext)

end Source

end ReturnCaptures
