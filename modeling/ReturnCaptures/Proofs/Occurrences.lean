import ReturnCaptures.Expansion.Text
import ReturnCaptures.Proofs.Lossless
import ReturnCaptures.Proofs.Places
import ReturnCaptures.Proofs.TreeTokens

/-!
# Places among trees

A place among trees, at any depth, is told by the siblings that stand there: the tree at the place
and those behind it. In a text no two places start at the same offset.
-/

namespace ReturnCaptures

open TokenTree

namespace TokenTree

/-- The siblings at a place among trees: the trees themselves, those at a place behind the first
of them, or those at a place inside of it. -/
inductive Occurs (place : List TokenTree) : List TokenTree → Prop
  | here : Occurs place place
  | behind {tree : TokenTree} {rest : List TokenTree} :
      Occurs place rest → Occurs place (tree :: rest)
  | inside {d : Delimiter} {inside rest : List TokenTree} {opening closing : Span} :
      Occurs place inside → Occurs place (.group d inside opening closing :: rest)

mutual

/-- Whether a condition holds at all places inside of a tree. -/
def everyInside (p : List TokenTree → Bool) : TokenTree → Bool
  | .token _ => true
  | .group _ inside _ _ => everyPlace p inside

/-- Whether a condition holds at all places among trees. -/
def everyPlace (p : List TokenTree → Bool) : List TokenTree → Bool
  | [] => p []
  | tree :: rest => p (tree :: rest) && everyInside p tree && everyPlace p rest

end

section Occurs

variable {m n : Nat} {place trees rest rest' u v w : List TokenTree} {tree tree' : TokenTree}

theorem Occurs.nil (trees : List TokenTree) :
  Occurs [] trees
  := by
  induction trees with
  | nil => exact .here
  | cons tree trees ih => exact .behind ih

/-- A condition that is checked at all places among trees holds at each of them. -/
theorem Occurs.of_everyPlace {p : List TokenTree → Bool} (h : Occurs place trees)
    (hall : everyPlace p trees) :
  p place
  := by
  induction h with
  | here =>
      cases place with
      | nil => exact hall
      | cons tree rest =>
          rw [everyPlace, Bool.and_eq_true, Bool.and_eq_true] at hall
          exact hall.1.1
  | behind _ ih =>
      rw [everyPlace, Bool.and_eq_true] at hall
      exact ih hall.2
  | inside _ ih =>
      rw [everyPlace, everyInside, Bool.and_eq_true, Bool.and_eq_true] at hall
      exact ih hall.1.2

theorem Occurs.trans (h : Occurs u v) (h' : Occurs v w) :
  Occurs u w
  := by
  induction h' with
  | here => exact h
  | behind _ ih => exact .behind ih
  | inside _ ih => exact .inside ih

theorem Occurs.of_isSuffix (h : u <:+ v) :
  Occurs u v
  := by
  obtain ⟨w, rfl⟩ := h
  induction w with
  | nil => exact .here
  | cons tree w ih => exact .behind ih

/-- The trees of a group occur among those around it. -/
theorem Occurs.of_group {g : Group} (hg : g.tree ∈ trees) :
  Occurs g.trees trees
  := by
  obtain ⟨u, v, rfl⟩ := List.append_of_mem hg
  exact (Occurs.inside .here).trans (.of_isSuffix (List.suffix_append u _))

/-- A place among trees with others behind them is behind them, or starts among them. -/
theorem Occurs.of_append (h : Occurs (tree :: rest) (u ++ v)) :
  Occurs (tree :: rest) v ∨ ∃ rest', Occurs (tree :: rest') u
  := by
  induction u with
  | nil => exact .inl h
  | cons first u ih =>
      rw [List.cons_append] at h
      cases h with
      | here => exact .inr ⟨u, .here⟩
      | behind h =>
          obtain h | ⟨rest', h⟩ := ih h
          · exact .inl h
          · exact .inr ⟨rest', .behind h⟩
      | inside h => exact .inr ⟨rest, .inside h⟩

theorem Occurs.tokensAll_isInfix (h : Occurs place trees) :
  tokensAll place <:+: tokensAll trees
  := by
  induction h with
  | here => exact List.infix_rfl
  | @behind tree rest _ ih => exact ih.trans (List.suffix_append _ _).isInfix
  | @inside d inside rest opening closing _ ih =>
      have hinside : tokensAll inside <:+: tokens (.group d inside opening closing) :=
        ⟨[⟨.punct d.opening false, opening⟩], [⟨.punct d.closing false, closing⟩], rfl⟩
      exact (ih.trans hinside).trans (List.prefix_append _ _).isInfix

/-- What occurs among trees stands where they do. -/
theorem Occurs.exists_ordered (h : Occurs place trees) (hplaces : Ordered m n trees) :
  ∃ k l, m ≤ k ∧ l ≤ n ∧ Ordered k l place
  := by
  induction h generalizing m n with
  | here => exact ⟨m, n, Nat.le_refl m, Nat.le_refl n, hplaces⟩
  | behind _ ih =>
      obtain ⟨hm, hlt, hrest⟩ := hplaces.of_cons
      obtain ⟨k, l, hk, hl, hplace⟩ := ih hrest
      exact ⟨k, l, by omega, hl, hplace⟩
  | inside _ ih =>
      obtain _ | _ | ⟨hm, hlt, hinside, hlt', hrest⟩ := hplaces
      obtain ⟨k, l, hk, hl, hplace⟩ := ih hinside
      have hn := hrest.le
      exact ⟨k, l, by omega, by omega, hplace⟩

theorem Occurs.start_mem (h : Occurs (tree :: rest) trees) (hplaces : Ordered m n trees) :
  m ≤ tree.span.start ∧ tree.span.start < n
  := by
  obtain ⟨k, l, hk, hl, hplace⟩ := h.exists_ordered hplaces
  obtain ⟨hstart, hlt, hrest⟩ := hplace.of_cons
  have hstop := hrest.le
  omega

/-- The places that start where the first of some trees does are those trees. -/
theorem Occurs.eq_of_le (h : Occurs (tree' :: rest') (tree :: rest))
    (hplaces : Ordered m n (tree :: rest)) (hle : tree'.span.start ≤ tree.span.start) :
  tree' :: rest' = tree :: rest
  := by
  cases h with
  | here => rfl
  | behind h =>
      obtain ⟨_, hlt, hrest⟩ := hplaces.of_cons
      have hstart := (h.start_mem hrest).1
      omega
  | @inside d inside _ opening closing h =>
      obtain _ | _ | ⟨_, hlt, hinside, _, _⟩ := hplaces
      have hstart := (h.start_mem hinside).1
      have hle : tree'.span.start ≤ opening.start := hle
      omega

/-- No two places start at the same offset. -/
theorem Occurs.eq_of_start_eq (h : Occurs (tree :: rest) trees)
    (h' : Occurs (tree' :: rest') trees) (hplaces : Ordered m n trees)
    (hstart : tree.span.start = tree'.span.start) :
  tree :: rest = tree' :: rest'
  := by
  induction h generalizing m n with
  | here => exact (h'.eq_of_le hplaces (Nat.le_of_eq hstart.symm)).symm
  | behind h ih =>
      cases h' with
      | here => exact h.behind.eq_of_le hplaces (Nat.le_of_eq hstart)
      | behind h' => exact ih h' hplaces.of_cons.2.2
      | inside h' =>
          obtain _ | _ | ⟨_, _, hinside, hlt, hrest⟩ := hplaces
          have hbefore := (h'.start_mem hinside).2
          have hbehind := (h.start_mem hrest).1
          omega
  | inside h ih =>
      cases h' with
      | here => exact h.inside.eq_of_le hplaces (Nat.le_of_eq hstart)
      | behind h' =>
          obtain _ | _ | ⟨_, _, hinside, hlt, hrest⟩ := hplaces
          have hbefore := (h.start_mem hinside).2
          have hbehind := (h'.start_mem hrest).1
          omega
      | inside h' =>
          obtain _ | _ | ⟨_, _, hinside, _, _⟩ := hplaces
          exact ih h' hinside

end Occurs

end TokenTree

/-- The trees of an item in which edits may stand occur where its ending does. -/
theorem Expansion.occurs_openTrees {item : FunctionItem} {trees : List TokenTree}
    (h : item.ending.tree ∈ trees) :
  Occurs (ofItem item).openTrees trees
  := by
  rw [openTrees, item_ofItem, FunctionItem.body?]
  cases hending : item.ending with
  | semicolon t => exact .nil trees
  | body body =>
      rw [hending] at h
      have hbody : Occurs body.trees trees := .of_group h
      cases (ofItem item).declaration with
      | none => exact hbody
      | some _ =>
          have hstatements : (splitInnerAttributes body.trees).2 <:+ body.trees :=
            ⟨_, append_splitInnerAttributes body.trees⟩
          exact (Occurs.of_isSuffix hstatements).trans hbody

end ReturnCaptures
