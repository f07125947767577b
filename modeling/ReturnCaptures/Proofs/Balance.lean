import ReturnCaptures.TokenTree.Cursor
import Mathlib.Tactic.Common

/-!
# Balanced runs

A run of trees is balanced if every `<` in it is closed by a `>`, the tip of an arrow
apart. Between angle brackets lone colons and commas may stand; outside of them colons
come in pairs, as path separators, and there are no commas. Groups count as single trees,
whatever they hold.

A strict run holds only what types are made of; in particular it ends in a word, a
lifetime, a group or in punctuation that nothing written after it can continue.

`skim` moves over balanced runs: what it finds first in a list of trees does not depend on
the balanced run in front, so that the place at which a balanced run ends is determined by
the trees alone.
-/

namespace ReturnCaptures

open TokenTree

/-- Whether a lexeme is punctuation that gives a balanced run its shape. -/
def Lexeme.isMark : Lexeme → Bool
  | .punct c _ => c == '<' || c == '>' || c == ':' || c == ',' || c == '-'
  | _ => false

/-- Whether a lexeme is a literal as it is written, the truth values apart. -/
def Lexeme.isQuoted : Lexeme → Bool
  | .literal _ _ => true
  | _ => false

/-- Whether a lexeme is a word or a lifetime. -/
def Lexeme.isWord : Lexeme → Bool
  | .ident _ => true
  | .keyword _ => true
  | .lifetime _ => true
  | _ => false

/-- Whether a lexeme may stand in a type, between its brackets, separators and arrows. -/
def Lexeme.inTypes : Lexeme → Bool
  | .doc _ _ => false
  | .punct c _ => ['!', '&', '*', '+', '?', '~', '='].contains c
  | _ => true

/-- Whether a lexeme may stand alone in a balanced run; in a strict run literals stand
alone only between angle brackets. -/
def Lexeme.isPlain (strict inner : Bool) (l : Lexeme) : Bool :=
  !l.isMark && (!strict || (l.inTypes && (inner || !l.isQuoted)))

theorem Lexeme.isPlain_of_isWord {strict inner : Bool} {l : Lexeme} (h : l.isWord) :
  l.isPlain strict inner
  := by
  cases l with
  | ident | keyword | lifetime => simp [isPlain, isMark, inTypes, isQuoted]
  | literal | punct | doc => simp [isWord] at h

namespace TokenTree

/-- Whether a tree may stand alone in a balanced run. -/
def isPlain (strict inner : Bool) : TokenTree → Bool
  | .group .. => true
  | .token t => t.lexeme.isPlain strict inner

/-- Whether a tree may stand in front of another that may stand alone. -/
def leads : TokenTree → Bool
  | .group .. => false
  | .token t => t.lexeme.isPunct '-' || t.lexeme.isQuoted

/-- Runs in which every angle bracket is closed; `inner` runs stand between angle
brackets. -/
inductive Balanced (strict : Bool) : (inner : Bool) → List TokenTree → Prop
  | nil {inner : Bool} : Balanced strict inner []
  | append {inner : Bool} {u v : List TokenTree} :
      Balanced strict inner u → Balanced strict inner v → Balanced strict inner (u ++ v)
  | plain {inner : Bool} {tree : TokenTree} :
      tree.isPlain strict inner → Balanced strict inner [tree]
  | led {inner : Bool} {first tree : TokenTree} :
      first.leads → tree.isPlain strict inner → Balanced strict inner [first, tree]
  | arrow {inner : Bool} {first second : TokenTree} :
      atOperator ['-', '>'] [first, second] → Balanced strict inner [first, second]
  | separator {inner : Bool} {first second : TokenTree} :
      atOperator [':', ':'] [first, second] → Balanced strict inner [first, second]
  | angle {inner : Bool} {first last : TokenTree} {u : List TokenTree} :
      atPunct '<' [first] → Balanced strict true u → atPunct '>' [last] →
        Balanced strict inner (first :: (u ++ [last]))
  | mark {tree : TokenTree} :
      atPunct ':' [tree] || atPunct ',' [tree] → Balanced strict true [tree]

/-- A run from an angle bracket to the one that closes it. -/
def IsAngled (strict : Bool) (trees : List TokenTree) : Prop :=
  ∃ first u last, trees = first :: (u ++ [last]) ∧ atPunct '<' [first] ∧
    Balanced strict true u ∧ atPunct '>' [last]

/-! ### Skimming -/

/-- Whether two trees are an arrow or a path separator. -/
def isPair (first second : TokenTree) : Bool :=
  atOperator ['-', '>'] [first, second] || atOperator [':', ':'] [first, second]

/-- The number of angle brackets open after a tree if `n` are open before it; `none` for a
`>` that closes nothing and, if `lone` is set, for a colon or comma outside of all angle
brackets. -/
def opensAfter (lone : Bool) (n : Nat) (tree : TokenTree) : Option Nat :=
  if atPunct '<' [tree] then some (n + 1)
  else if atPunct '>' [tree] then (if n = 0 then none else some (n - 1))
  else if lone && n == 0 && (atPunct ':' [tree] || atPunct ',' [tree]) then none
  else some n

/-- The trees from the first one on that does not belong to a balanced run, if `n` angle
brackets are open. -/
def skim (lone : Bool) : (n : Nat) → List TokenTree → List TokenTree
  | n, first :: second :: rest =>
    if isPair first second then skim lone n rest
    else
      match opensAfter lone n first with
      | some m => skim lone m (second :: rest)
      | none => first :: second :: rest
  | n, [tree] => if (opensAfter lone n tree).isSome then [] else [tree]
  | _, [] => []

theorem atPunct_token (c : Char) (t : Token) (trees : List TokenTree) :
  atPunct c (.token t :: trees) = t.lexeme.isPunct c
  := rfl

/-- What a look at the first tree sees does not depend on the trees after it. -/
theorem atLexeme_cons (p : Lexeme → Bool) (tree : TokenTree) (trees : List TokenTree) :
  atLexeme p (tree :: trees) = atLexeme p [tree]
  := by
  cases tree <;> rfl

theorem atPunct_cons (c : Char) (tree : TokenTree) (trees : List TokenTree) :
  atPunct c (tree :: trees) = atPunct c [tree]
  := atLexeme_cons _ tree trees

theorem atLifetime_cons (tree : TokenTree) (trees : List TokenTree) :
  atLifetime (tree :: trees) = atLifetime [tree]
  := atLexeme_cons _ tree trees

theorem atOperator_cons_cons (c d : Char) (first second : TokenTree) (trees : List TokenTree) :
  atOperator [c, d] (first :: second :: trees) = atOperator [c, d] [first, second]
  := by
  cases first with
  | group => rfl
  | token t => simp only [atOperator, atPunct_cons d second trees]

theorem isPlain_toInner {strict inner : Bool} {tree : TokenTree} (h : tree.isPlain strict inner) :
  tree.isPlain strict true
  := by
  cases tree with
  | group => rfl
  | token t =>
      simp only [isPlain, Lexeme.isPlain, Bool.and_eq_true, Bool.or_eq_true] at h ⊢
      use h.1
      apply h.2.imp_right
      intro hs
      use hs.1
      left
      trivial

theorem isPlain_toLoose {strict inner : Bool} {tree : TokenTree} (h : tree.isPlain strict inner) :
  tree.isPlain false inner
  := by
  cases tree with
  | group => rfl
  | token t =>
      simp only [isPlain, Lexeme.isPlain, Bool.and_eq_true] at h ⊢
      use h.1
      simp

/-- A lexeme that is no mark is none of the characters that are. -/
theorem isPunct_of_isMark_eq_false {l : Lexeme} (h : l.isMark = false) {c : Char}
    (hc : c ∈ ['<', '>', ':', ',', '-']) :
  l.isPunct c = false
  := by
  cases l with
  | punct symbol joint =>
      simp only [Lexeme.isMark, Bool.or_eq_false_iff, beq_eq_false_iff_ne] at h
      simp only [List.mem_cons, List.not_mem_nil, or_false] at hc
      simp only [Lexeme.isPunct, beq_eq_false_iff_ne]
      rcases hc with rfl | rfl | rfl | rfl | rfl <;> simp [h]
  | _ => rfl

/-- A tree that stands alone in a balanced run is no mark. -/
theorem atPunct_of_isPlain {strict inner : Bool} {tree : TokenTree}
    (h : tree.isPlain strict inner) {c : Char} (hc : c ∈ ['<', '>', ':', ',', '-']) :
  atPunct c [tree] = false
  := by
  cases tree with
  | group => rfl
  | token t =>
      simp only [isPlain, Lexeme.isPlain, Bool.and_eq_true, Bool.not_eq_true'] at h
      apply isPunct_of_isMark_eq_false h.1 hc

/-- A tree that may stand in front of another is a minus sign or a literal. -/
theorem atPunct_of_leads {tree : TokenTree} (h : tree.leads) {c : Char}
    (hc : c ∈ ['<', '>', ':', ',']) :
  atPunct c [tree] = false
  := by
  obtain ⟨⟨l, s⟩⟩ | _ := tree
  · simp only [List.mem_cons, List.not_mem_nil, or_false] at hc
    cases l with
    | punct symbol joint =>
        simp only [leads, Lexeme.isPunct, Lexeme.isQuoted, Bool.or_false, beq_iff_eq] at h
        subst h
        rcases hc with rfl | rfl | rfl | rfl <;> rfl
    | _ => rfl
  · rfl

theorem isPair_of_first {first : TokenTree} (second : TokenTree)
    (hm : atPunct '-' [first] = false) (hc : atPunct ':' [first] = false) :
  isPair first second = false
  := by
  obtain ⟨⟨l, s⟩⟩ | _ := first
  · cases l with
    | punct symbol joint =>
        simp only [atPunct, atLexeme, Lexeme.isPunct, beq_eq_false_iff_ne] at hm hc
        simp [isPair, atOperator, hm, hc]
    | _ => rfl
  · rfl

theorem isPair_of_second (first : TokenTree) {second : TokenTree}
    (ha : atPunct '>' [second] = false) (hc : atPunct ':' [second] = false) :
  isPair first second = false
  := by
  cases first with
  | group => rfl
  | token t => simp [isPair, atOperator, ha, hc]

/-- A tree is one punctuation character at most. -/
theorem atPunct_of_atPunct {tree : TokenTree} {c d : Char} (h : atPunct c [tree]) (hcd : c ≠ d) :
  atPunct d [tree] = false
  := by
  obtain ⟨⟨l, s⟩⟩ | _ := tree
  · cases l with
    | punct symbol joint =>
        simp only [atPunct, atLexeme, Lexeme.isPunct, beq_iff_eq] at h
        simp [atPunct, atLexeme, Lexeme.isPunct, h, hcd]
    | _ => rfl
  · rfl

theorem atOperator_of_atPunct {first second : TokenTree} {c d e : Char}
    (h : atPunct c [first]) (hcd : c ≠ d) :
  atOperator [d, e] [first, second] = false
  := by
  obtain ⟨⟨l, s⟩⟩ | _ := first
  · cases l with
    | punct symbol joint =>
        simp only [atPunct, atLexeme, Lexeme.isPunct, beq_iff_eq] at h
        simp [atOperator, h, hcd]
    | _ => rfl
  · rfl

theorem atPunct_first_of_atOperator {first second : TokenTree} {c d : Char}
    (h : atOperator [c, d] [first, second]) :
  atPunct c [first]
  := by
  cases first with
  | group => simp [atOperator] at h
  | token t =>
      simp only [atOperator, Bool.and_eq_true, beq_iff_eq] at h
      simp [atPunct, atLexeme, h.1, Lexeme.isPunct]

theorem atPunct_of_atOperator {first second : TokenTree} {c d : Char}
    (h : atOperator [c, d] [first, second]) :
  atPunct d [second]
  := by
  cases first with
  | group => simp [atOperator] at h
  | token t =>
      simp only [atOperator, Bool.and_eq_true] at h
      apply h.2

section Skim

variable {strict inner lone : Bool} {n m : Nat} {tree : TokenTree} {u r : List TokenTree}

/-- A tree that is no half of a pair is moved over if it may be. -/
theorem skim_cons (hp : ∀ next ∈ r.head?, isPair tree next = false)
    (ho : opensAfter lone n tree = some m) :
  skim lone n (tree :: r) = skim lone m r
  := by
  cases r with
  | nil => simp [skim, ho]
  | cons next r =>
      rw [skim, if_neg]
      · simp only [ho]
      · simp [hp next rfl]

/-- The two halves of a pair are moved over together. -/
theorem skim_pair {first second : TokenTree} (hp : isPair first second) :
  skim lone n (first :: second :: r) = skim lone n r
  := by
  rw [skim, if_pos hp]

/-- Skimming stops at a tree that may not be moved over. -/
theorem skim_stop (hp : ∀ next ∈ r.head?, isPair tree next = false)
    (ho : opensAfter lone n tree = none) :
  skim lone n (tree :: r) = tree :: r
  := by
  cases r with
  | nil => simp [skim, ho]
  | cons next r =>
      rw [skim, if_neg]
      · simp only [ho]
      · simp [hp next rfl]

/-- What is no angle bracket leaves the number of open ones as it is, unless skimming stops
at it. -/
theorem opensAfter_eq (ho : atPunct '<' [tree] = false) (hc : atPunct '>' [tree] = false)
    (hn : atPunct ':' [tree] || atPunct ',' [tree] → lone = true → 0 < n) :
  opensAfter lone n tree = some n
  := by
  rw [opensAfter, if_neg (by simp [ho]), if_neg (by simp [hc]), if_neg]
  simp only [Bool.and_eq_true, beq_iff_eq]
  rintro ⟨⟨hl, rfl⟩, hm⟩
  apply absurd (hn hm hl) (Nat.lt_irrefl 0)

/-- A tree that stands alone is moved over. -/
theorem skim_plain (h : tree.isPlain strict inner) :
  skim lone n (tree :: r) = skim lone n r
  := by
  apply skim_cons
  · intro next _
    apply isPair_of_first next (atPunct_of_isPlain h (by decide)) (atPunct_of_isPlain h (by decide))
  · apply opensAfter_eq (atPunct_of_isPlain h (by decide)) (atPunct_of_isPlain h (by decide))
    simp [atPunct_of_isPlain h]

/-- Where lone colons may stand, a colon is moved over whether it is half of a pair or
not. -/
theorem skim_colon (hc : atPunct ':' [tree]) (hn : lone = true → 0 < n) :
  skim lone n (tree :: r) = skim lone n r
  := by
  have ho {colon : TokenTree} (h : atPunct ':' [colon]) : opensAfter lone n colon = some n := by
    apply opensAfter_eq (atPunct_of_atPunct h (by decide)) (atPunct_of_atPunct h (by decide))
    intro _
    apply hn
  induction r generalizing tree with
  | nil =>
      apply skim_cons (by simp) (ho hc)
  | cons next r ih =>
      by_cases hp : isPair tree next
      · rw [skim_pair hp, ih]
        have ha : atOperator ['-', '>'] [tree, next] = false :=
          atOperator_of_atPunct hc (by decide)
        simp only [isPair, ha, Bool.false_or] at hp
        apply atPunct_of_atOperator hp
      · apply skim_cons (by simpa using hp) (ho hc)

/-- Skimming moves over a balanced run, also where it stops at lone colons, provided that
no lone colon of the run stands outside of all angle brackets. -/
theorem Balanced.skim_append (h : Balanced strict inner u) :
    ∀ {n : Nat} {r : List TokenTree}, (inner = true → lone = true → 0 < n) →
      skim lone n (u ++ r) = skim lone n r
  := by
  induction h with
  | nil =>
      intros
      rfl
  | append _ _ ihu ihv =>
      intro n r hn
      rw [List.append_assoc, ihu hn, ihv hn]
  | plain h =>
      intro n r _
      apply skim_plain h
  | @led _ first tree hf h =>
      intro n r _
      apply Eq.trans _ (skim_plain (r := r) h)
      apply skim_cons
      · rintro next ⟨⟩
        apply isPair_of_second _ (atPunct_of_isPlain h (by decide))
          (atPunct_of_isPlain h (by decide))
      · apply opensAfter_eq (atPunct_of_leads hf (by decide)) (atPunct_of_leads hf (by decide))
        simp [atPunct_of_leads hf]
  | arrow h =>
      intro n r _
      apply skim_pair
      simp [isPair, h]
  | separator h =>
      intro n r _
      apply skim_pair
      simp [isPair, h]
  | @angle _ first last u hf _ hl ih =>
      intro n r _
      have hu : skim lone (n + 1) (u ++ last :: r) = skim lone (n + 1) (last :: r) := by
        apply ih
        simp
      have hlast : skim lone (n + 1) (last :: r) = skim lone n r := by
        apply skim_cons
        · intro next _
          apply isPair_of_first next (atPunct_of_atPunct hl (by decide))
            (atPunct_of_atPunct hl (by decide))
        · simp [opensAfter, hl, atPunct_of_atPunct hl (d := '<') (by decide)]
      rw [List.cons_append, List.append_assoc, List.singleton_append, ← hlast, ← hu]
      apply skim_cons
      · intro next _
        apply isPair_of_first next (atPunct_of_atPunct hf (by decide))
          (atPunct_of_atPunct hf (by decide))
      · simp [opensAfter, hf]
  | @mark tree h =>
      intro n r hn
      by_cases hc : atPunct ':' [tree]
      · apply skim_colon hc (hn rfl)
      · have hcomma : atPunct ',' [tree] := by simpa [hc] using h
        apply skim_cons
        · intro next _
          apply isPair_of_first next (atPunct_of_atPunct hcomma (by decide)) (by simpa using hc)
        · apply opensAfter_eq (atPunct_of_atPunct hcomma (by decide))
            (atPunct_of_atPunct hcomma (by decide))
          intro _
          apply hn rfl

end Skim

/-! ### Weakening and the end of a strict run -/

namespace Balanced

variable {strict inner : Bool} {u v : List TokenTree}

/-- A run that is balanced outside of angle brackets is so between them. -/
theorem toInner (h : Balanced strict inner u) :
  Balanced strict true u
  := by
  induction h with
  | nil => apply nil
  | append _ _ ihu ihv => apply append ihu ihv
  | plain h => apply plain (isPlain_toInner h)
  | led hf h => apply led hf (isPlain_toInner h)
  | arrow h => apply arrow h
  | separator h => apply separator h
  | angle hf h hl => apply angle hf h hl
  | mark h => apply mark h

/-- A strict run is balanced. -/
theorem toLoose (h : Balanced strict inner u) :
  Balanced false inner u
  := by
  induction h with
  | nil => apply nil
  | append _ _ ihu ihv => apply append ihu ihv
  | plain h => apply plain (isPlain_toLoose h)
  | led hf h => apply led hf (isPlain_toLoose h)
  | arrow h => apply arrow h
  | separator h => apply separator h
  | angle hf _ hl ih => apply angle hf ih hl
  | mark h => apply mark h

/-- A balanced run in front of a tree at which skimming stops is determined by the trees:
two ways to read the same trees so agree. -/
theorem append_cons_inj {lone : Bool} {r s : List TokenTree}
    (hu : Balanced strict inner u) (hv : Balanced strict inner v)
    (hi : inner = true → lone = false)
    (hr : skim lone 0 r = r) (hs : skim lone 0 s = s) (h : u ++ r = v ++ s) :
  u = v ∧ r = s
  := by
  have hn : inner = true → lone = true → 0 < 0 := by simp_all
  have hrs : r = s := by
    calc
      r = skim lone 0 (u ++ r) := by rw [hu.skim_append hn, hr]
      _ = skim lone 0 (v ++ s) := by rw [h]
      _ = s := by rw [hv.skim_append hn, hs]
  subst hrs
  use List.append_cancel_right h

end Balanced

/-- Skimming stops where no angle bracket is open at a `>`. -/
theorem skim_of_closing {lone : Bool} {trees : List TokenTree} (h : atPunct '>' trees) :
  skim lone 0 trees = trees
  := by
  obtain _ | ⟨tree, r⟩ := trees
  · rfl
  · have hc : atPunct '>' [tree] := by rwa [atPunct_cons] at h
    apply skim_stop
    · intro next _
      apply isPair_of_first next (atPunct_of_atPunct hc (by decide))
        (atPunct_of_atPunct hc (by decide))
    · simp [opensAfter, hc, atPunct_of_atPunct hc (d := '<') (by decide)]

/-- Skimming that stops at lone colons and commas stops at a comma. -/
theorem skim_of_comma {trees : List TokenTree} (h : atPunct ',' trees) :
  skim true 0 trees = trees
  := by
  obtain _ | ⟨tree, r⟩ := trees
  · rfl
  · have hc : atPunct ',' [tree] := by rwa [atPunct_cons] at h
    apply skim_stop
    · intro next _
      apply isPair_of_first next (atPunct_of_atPunct hc (by decide))
        (atPunct_of_atPunct hc (by decide))
    · simp [opensAfter, hc, atPunct_of_atPunct hc (d := '<') (by decide),
        atPunct_of_atPunct hc (d := '>') (by decide)]

/-- Skimming that stops at lone colons and commas stops at a lone colon. -/
theorem skim_of_colon {trees : List TokenTree} (h : atColon trees) :
  skim true 0 trees = trees
  := by
  obtain _ | ⟨tree, r⟩ := trees
  · rfl
  · simp only [atColon, Bool.and_eq_true, Bool.not_eq_true'] at h
    have hc : atPunct ':' [tree] := by rw [← atPunct_cons]; apply h.1
    apply skim_stop
    · rintro next hnext
      obtain ⟨r, rfl⟩ : ∃ r', r = next :: r' := by
        cases r with
        | nil => simp at hnext
        | cons x r => exact ⟨r, by simp_all⟩
      have ha : atOperator ['-', '>'] [tree, next] = false := atOperator_of_atPunct hc (by decide)
      rw [isPair, ha, Bool.false_or, ← h.2]
      apply (atOperator_cons_cons ..).symm
    · simp [opensAfter, hc, atPunct_of_atPunct hc (d := '<') (by decide),
        atPunct_of_atPunct hc (d := '>') (by decide)]

end TokenTree

end ReturnCaptures
