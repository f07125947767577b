import ReturnCaptures.Proofs.ItemParts
import ReturnCaptures.Proofs.Slices

/-!
# Places of trees in a text

The tokens of a text stand one behind the other and take up at least one character each, so
its trees do, and so do the trees inside a group, between its delimiters. An item takes up the
text from the first of its trees to the last one.
-/

namespace ReturnCaptures

open TokenTree

/-- Tokens that stand one behind the other between two offsets. -/
inductive Token.Ordered : Nat → Nat → List Token → Prop
  | nil {m n : Nat} : m ≤ n → Ordered m n []
  | cons {m n : Nat} {t : Token} {tokens : List Token} :
      m ≤ t.span.start → t.span.start < t.span.stop → Ordered t.span.stop n tokens →
      Ordered m n (t :: tokens)

/-- Trees that stand one behind the other between two offsets, and so do the trees inside each
of their groups between its delimiters. -/
inductive TokenTree.Ordered : Nat → Nat → List TokenTree → Prop
  | nil {m n : Nat} : m ≤ n → Ordered m n []
  | token {m n : Nat} {t : Token} {trees : List TokenTree} :
      m ≤ t.span.start → t.span.start < t.span.stop → Ordered t.span.stop n trees →
      Ordered m n (.token t :: trees)
  | group {m n : Nat} {d : Delimiter} {inside trees : List TokenTree} {opening closing : Span} :
      m ≤ opening.start → opening.start < opening.stop →
      Ordered opening.stop closing.start inside → closing.start < closing.stop →
      Ordered closing.stop n trees → Ordered m n (.group d inside opening closing :: trees)

section Tokens

variable {m n k : Nat} {file : String} {source : List Char} {tokens before after : List Token}

theorem Token.Ordered.of_le (h : Token.Ordered m n tokens) (hk : k ≤ m) :
  Token.Ordered k n tokens
  := by
  cases h with
  | nil h => apply Token.Ordered.nil (Nat.le_trans hk h)
  | cons hm hlt h => apply Token.Ordered.cons (Nat.le_trans hk hm) hlt h

/-- Tokens one of which is at hand stand on both sides of it. -/
theorem Token.Ordered.split {t : Token} (h : Token.Ordered m n (before ++ t :: after)) :
  Token.Ordered m t.span.start before ∧ t.span.start < t.span.stop ∧
    Token.Ordered t.span.stop n after
  := by
  induction before generalizing m with
  | nil =>
      obtain _ | ⟨hm, hlt, hafter⟩ := h
      use .nil hm, hlt
  | cons s before ih =>
      obtain _ | ⟨hm, hlt, h⟩ := h
      obtain ⟨hbefore, hrest⟩ := ih h
      use .cons hm hlt hbefore

/-- Pieces lie one behind the other, and so do the tokens that they carry. -/
theorem ordered_tokensAt {p : Position} {ps : List Piece} (hps : ∀ q ∈ ps, q.text ≠ []) :
  Token.Ordered p.offset (p.offset + (textOf ps).length) (tokensAt file p ps)
  := by
  induction ps generalizing p with
  | nil => apply Token.Ordered.nil (Nat.le_add_right _ _)
  | cons q ps ih =>
      rw [List.forall_mem_cons] at hps
      have hq := List.length_pos_iff.mpr hps.1
      have hrest := @ih (p.after q.text) hps.2
      rw [Position.offset_after] at hrest
      rw [tokensAt_cons, textOf_cons, List.length_append, ← Nat.add_assoc]
      cases htoken : PlacedPiece.token? file ⟨p, p.after q.text, q⟩ with
      | none => apply hrest.of_le (Nat.le_add_right _ _)
      | some t =>
          have hspan : t.span = .between file p (p.after q.text) := by
            rw [PlacedPiece.token?] at htoken
            cases hreading : q.reading with
            | lexeme l =>
                rw [hreading] at htoken
                cases htoken
                rfl
            | trivia | fault =>
                rw [hreading] at htoken
                cases htoken
          have hstop : t.span.stop = p.offset + q.text.length := by
            rw [hspan, Span.between, Position.offset_after]
          have hstart : t.span.start = p.offset := by rw [hspan, Span.between]
          apply Token.Ordered.cons
          · apply Nat.le_of_eq hstart.symm
          · omega
          · rw [hstop]
            apply hrest

/-- The tokens of a text stand in it one behind the other. -/
theorem ordered_of_tokensOf (h : tokensOf file source = .ok tokens) :
  Token.Ordered 0 source.length tokens
  := by
  obtain ⟨_, rfl⟩ := tokensOf_eq_ok.mp h
  have hordered : Token.Ordered Position.origin.offset _ (tokensAt file .origin (pieces source)) :=
    ordered_tokensAt (text_ne_nil (cuts_pieces source))
  rwa [textOf_pieces, Position.origin, Nat.zero_add] at hordered

end Tokens

namespace TokenTree

section Trees

variable {m n k : Nat} {trees u v : List TokenTree}

theorem Ordered.le (h : Ordered m n trees) :
  m ≤ n
  := by
  induction h with
  | nil h => apply h
  | token hm hlt _ ih => omega
  | group hm hlt _ hlt' _ _ _ => omega

theorem Ordered.of_le (h : Ordered m n trees) (hk : k ≤ m) :
  Ordered k n trees
  := by
  cases h with
  | nil h => apply Ordered.nil (Nat.le_trans hk h)
  | token hm hlt h => apply Ordered.token (Nat.le_trans hk hm) hlt h
  | group hm hlt hinside hlt' h => apply Ordered.group (Nat.le_trans hk hm) hlt hinside hlt' h

/-- Trees stand where their tokens do. -/
theorem ordered_of_tokensAll (h : Token.Ordered m n (tokensAll trees)) :
  Ordered m n trees
  := by
  induction trees using induction_siblings generalizing m n with
  | nil =>
      obtain ⟨h⟩ := h
      apply Ordered.nil h
  | token t trees ih =>
      obtain _ | ⟨hm, hlt, h⟩ := h
      apply Ordered.token hm hlt (ih h)
  | group d inside opening closing trees ihinside ih =>
      rw [tokensAll, tokens, List.cons_append, List.append_assoc, List.singleton_append] at h
      obtain _ | ⟨hm, hlt, h⟩ := h
      obtain ⟨hinside, hlt', h⟩ := h.split
      apply Ordered.group hm hlt (ihinside hinside) hlt' (ih h)

/-- The trees of a text stand in it one behind the other. -/
theorem ordered_of_ofText {file : String} {source : List Char} (h : ofText file source = .ok trees) :
  Ordered 0 source.length trees
  := ordered_of_tokensAll (ordered_of_tokensOf (tokensOf_of_ofText h).1)

/-- The first of several trees starts in front of where the others stand. -/
theorem Ordered.of_cons {tree : TokenTree} (h : Ordered m n (tree :: trees)) :
  m ≤ tree.span.start ∧ tree.span.start < tree.span.stop ∧ Ordered tree.span.stop n trees
  := by
  cases h with
  | token hm hlt h => use hm, hlt, h
  | group hm hlt hinside hlt' h =>
      have hle := hinside.le
      use hm
      constructor
      · simp only [span, Span.through]
        omega
      · apply h

/-- What stands behind some trees stands where they do. -/
theorem Ordered.of_append_right (h : Ordered m n (u ++ v)) :
  Ordered m n v
  := by
  induction u generalizing m with
  | nil => exact h
  | cons tree u ih =>
      obtain ⟨hm, hlt, h⟩ := h.of_cons
      apply (ih h).of_le
      omega

/-- The trees of a group stand between its delimiters. -/
theorem Ordered.inside {g : Group} (h : Ordered m n trees) (hg : g.tree ∈ trees) :
  Ordered g.opening.stop g.closing.start g.trees
  := by
  obtain ⟨u, v, rfl⟩ := List.append_of_mem hg
  obtain _ | _ | ⟨_, _, hinside, _, _⟩ := h.of_append_right
  exact hinside

/-- Trees reach from the start of the first one to the end of the last one, and what follows them
stands behind that. -/
theorem Ordered.of_append {first last : TokenTree} (h : Ordered m n (u ++ v))
    (hfirst : u.head? = some first) (hlast : u.getLast? = some last) :
  m ≤ first.span.start ∧ first.span.start < last.span.stop ∧ Ordered last.span.stop n v
  := by
  induction u generalizing m first with
  | nil => cases hlast
  | cons tree u ih =>
      obtain rfl : tree = first := Option.some.inj hfirst
      obtain ⟨hm, hlt, h⟩ := h.of_cons
      cases u with
      | nil =>
          obtain rfl : tree = last := Option.some.inj hlast
          use hm, hlt, h
      | cons tree' u =>
          rw [List.getLast?_cons_cons] at hlast
          obtain ⟨hm', hlt', h'⟩ := ih h rfl hlast
          use hm, by omega, h'

/-- Trees in front of others reach from where the first of all of them starts to the end of the last
one in front. -/
theorem Ordered.of_extent {first last : TokenTree} (h : Ordered m n (first :: trees))
    (hu : first :: trees = u ++ v) (hlast : u.getLast? = some last) :
  m ≤ first.span.start ∧ first.span.start < last.span.stop ∧ Ordered last.span.stop n v
  := by
  cases u with
  | nil => cases hlast
  | cons tree u =>
      rw [hu] at h
      obtain ⟨rfl, -⟩ := List.cons_eq_cons.mp hu
      exact h.of_append rfl hlast

/-- Trees that others follow stand in front of the end of the last of them. -/
theorem Ordered.of_append_left {last : TokenTree} (h : Ordered m n (u ++ v))
    (hlast : u.getLast? = some last) :
  Ordered m last.span.stop u
  := by
  induction u generalizing m with
  | nil => cases hlast
  | cons tree u ih =>
      have hrest : Ordered tree.span.stop last.span.stop u := by
        cases u with
        | nil =>
            obtain rfl : tree = last := Option.some.inj hlast
            exact .nil (Nat.le_refl _)
        | cons tree' u =>
            rw [List.getLast?_cons_cons] at hlast
            exact ih h.of_cons.2.2 hlast
      cases h with
      | token hm hlt _ => exact .token hm hlt hrest
      | group hm hlt hinside hlt' _ => exact .group hm hlt hinside hlt' hrest

/-- What follows trees stands behind the end of the last of them. -/
theorem Ordered.of_getLast? {last : TokenTree} (h : Ordered m n (u ++ v))
    (hlast : u.getLast? = some last) :
  m < last.span.stop ∧ Ordered last.span.stop n v
  := by
  cases u with
  | nil => cases hlast
  | cons first u =>
      obtain ⟨hm, hlt, hv⟩ := h.of_append rfl hlast
      exact ⟨Nat.lt_of_le_of_lt hm hlt, hv⟩

end Trees

end TokenTree

namespace FunctionItem

variable {c d : Cursor} {item : FunctionItem}

/-- An item ends where the last of its trees does. -/
theorem stop_of_readEnding {ending : Ending} {stop : Span}
    (h : readEnding c = .ok (ending, stop, d)) :
  stop.stop = ending.tree.span.stop
  := by
  unfold readEnding at h
  split at h
  case h_1 =>
    cases h
    rfl
  case h_2 =>
    split at h
    case isTrue =>
      cases h
      rfl
    case isFalse => cases h
  case h_3 => cases h

/-- The trees that an item is read from end in its ending, where the item ends. -/
theorem exists_trees_of_read (h : read c = .ok (item, d)) :
  ∃ u, c.trees = (u ++ [item.ending.tree]) ++ d.trees ∧ u ≠ [] ∧
    item.span.stop = item.ending.tree.span.stop ∧ item.span.start = c.span.start
  := by
  obtain ⟨s⟩ := nonempty_steps h
  use Expansion.headTrees item ++ item.returns.trees ++ Expansion.tailTrees item, s.reads.trees
  constructor
  · simp [Expansion.headTrees]
  · rw [s.span_eq]
    constructor
    · apply stop_of_readEnding s.ending_eq
    · rfl

end FunctionItem

end ReturnCaptures
