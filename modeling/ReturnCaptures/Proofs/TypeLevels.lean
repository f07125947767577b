import ReturnCaptures.Proofs.TypeRuns

/-!
# Levels of the type grammar

The levels of the type grammar agree on every cursor whose trees are few enough. Every
reference from one production to another either moves over a tree or leads to a production
of lower rank, where paths have rank 0, types and single bounds rank 1, and lists of
arguments and of bounds rank 2. Three levels for each tree are therefore enough, and the
level that is used to read a type is as good as any higher one.
-/

namespace ReturnCaptures

open TokenTree Outcome Cursor

theorem TokenTree.sizeAll_append (u v : List TokenTree) :
  sizeAll (u ++ v) = sizeAll u + sizeAll v
  := by
  induction u with
  | nil => simp [sizeAll]
  | cons tree u ih => simp [sizeAll, ih, Nat.add_assoc]

theorem TokenTree.size_pos (tree : TokenTree) :
  0 < tree.size
  := by
  cases tree <;> simp [size]

namespace Cursor

variable {c d : Cursor}

/-- The number of levels that the trees at a cursor may take up. -/
def weight (c : Cursor) : Nat := 3 * sizeAll c.trees

theorem weight_le (h : d.trees <:+ c.trees) :
  d.weight ≤ c.weight
  := by
  obtain ⟨u, hu⟩ := h
  rw [weight, weight, ← hu, sizeAll_append]
  omega

/-- Moving over a tree takes three levels off. -/
theorem weight_skip (h : c.trees ≠ []) :
  (c.skip 1).weight + 3 ≤ c.weight
  := by
  obtain ⟨tree, r, hc⟩ := List.exists_cons_of_ne_nil h
  have hpos := tree.size_pos
  simp only [weight, trees_skip, hc, List.drop_one, List.tail_cons, sizeAll]
  omega

theorem weight_skip_le (c : Cursor) (n : Nat) :
  (c.skip n).weight ≤ c.weight
  := weight_le (List.drop_suffix n c.trees)

theorem weight_lt (h : d.trees <:+ (c.skip 1).trees) (hc : c.trees ≠ []) :
  d.weight + 3 ≤ c.weight
  := by
  have hd := weight_le h
  have hskip := weight_skip hc
  omega

theorem weight_lt_of_passes {strict inner : Bool} (h : c.Passes strict inner d) :
  d.weight + 3 ≤ c.weight
  := by
  obtain ⟨hne, hsuffix⟩ := h.isSuffix_skip
  apply weight_lt hsuffix hne

/-- Entering a group takes three levels off. -/
theorem weight_inside {delimiter : Delimiter} {inside r : List TokenTree} {opening closing : Span}
    (h : c.trees = .group delimiter inside opening closing :: r) :
  weight ⟨inside, closing⟩ + 3 ≤ c.weight
  := by
  simp only [weight, h, sizeAll, size]
  omega

theorem ne_nil_of_atLexeme {p : Lexeme → Bool} {trees : List TokenTree} (h : atLexeme p trees) :
  trees ≠ []
  := by
  obtain ⟨t, r, rfl, _⟩ := exists_of_atLexeme h
  simp

theorem ne_nil_of_atSingle {symbol : Char} {trees : List TokenTree} (h : atSingle symbol trees) :
  trees ≠ []
  := by
  rw [atSingle, Bool.and_eq_true] at h
  apply ne_nil_of_atLexeme h.1

/-- Items separated by commas are read alike by productions that agree behind the cursor. -/
theorem commaSeparatedAfter_congr {α : Type} {item item' : List α → Cursor → Outcome (α × Cursor)}
    {bound : Nat} {done : List α}
    (hitem : ∀ done d, d.trees <:+ c.trees → item done d = item' done d)
    (hsuffix : ∀ done d a e, item' done d = .ok (a, e) → e.trees <:+ d.trees) :
  c.commaSeparatedAfter item bound done = c.commaSeparatedAfter item' bound done
  := by
  induction bound generalizing c done with
  | zero => rfl
  | succ bound ih =>
      apply ite_congr rfl
      · intro _
        rfl
      · intro _
        apply bind_congr (hitem done c (List.suffix_refl _))
        rintro ⟨a, d⟩ hd
        apply ite_congr rfl
        · intro _
          rfl
        · intro _
          apply bind_congr rfl
          intro e he
          obtain ⟨-, rfl⟩ := expectPunct_eq_ok.mp he
          apply ih
          intro done f hf
          apply hitem
          apply hf.trans ((List.drop_suffix 1 d.trees).trans (hsuffix _ _ _ _ hd))

end Cursor

namespace TypeGrammar

/-- Grammars whose productions agree up to a weight. -/
structure Agree (w : Nat) (G H : TypeGrammar) : Prop where
  type : ∀ allowPlus {c}, c.weight + 1 < w → G.type allowPlus c = H.type allowPlus c
  segments : ∀ {c}, c.weight < w → G.segments c = H.segments c
  arguments : ∀ {c}, c.weight + 2 < w → G.arguments c = H.arguments c
  bound : ∀ {c}, c.weight + 1 < w → G.bound c = H.bound c
  bounds : ∀ {c}, c.weight + 2 < w → G.bounds c = H.bounds c

variable {w : Nat} {G H : TypeGrammar} {c d : Cursor}

theorem Agree.angleArguments (h : Agree w G H) (hc : c.weight ≤ w) :
  G.angleArguments c = H.angleArguments c
  := by
  apply bind_congr rfl
  intro d hd
  obtain ⟨hlt, rfl⟩ := expectPunct_eq_ok.mp hd
  apply h.arguments
  have hskip := weight_skip (ne_nil_of_atLexeme hlt)
  omega

theorem Agree.parenthesized (h : Agree w G H) (hH : H.Sound) (hc : c.weight + 1 < w) :
  G.parenthesized c = H.parenthesized c
  := by
  apply ite_congr rfl
  · intro _
    rfl
  · intro _
    apply bind_congr (h.type true hc)
    rintro ⟨kind, d⟩ hd
    apply ite_congr rfl
    · intro _
      rfl
    · intro _
      apply bind_congr rfl
      intro e he
      obtain ⟨-, rfl⟩ := expectPunct_eq_ok.mp he
      have hsuffix := (hH.type hd).crosses.isSuffix
      have hitems : (d.skip 1).commaSeparated (fun _ => G.type true) =
          (d.skip 1).commaSeparated fun _ => H.type true := by
        apply commaSeparatedAfter_congr
        · intro done f hf
          apply h.type
          have hle := weight_le (hf.trans ((List.drop_suffix 1 d.trees).trans hsuffix))
          omega
        · intro done f kind g hg
          apply (hH.type hg).crosses.isSuffix
      rw [hitems]

theorem Agree.bracketed (h : Agree w G H) (hc : c.weight + 1 < w) :
  G.bracketed c = H.bracketed c
  := by
  apply bind_congr (h.type true hc)
  intro _ _
  rfl

theorem Agree.resultType (h : Agree w G H) (hc : c.weight + 1 < w) :
  G.resultType c = H.resultType c
  := by
  unfold TypeGrammar.resultType
  rw [h.type]
  have hle := weight_skip_le c 2
  omega

theorem Agree.segmentArguments (h : Agree w G H) (hH : H.Sound) (hc : c.weight ≤ w) :
  G.segmentArguments c = H.segmentArguments c
  := by
  apply ite_congr rfl
  · intro _
    apply h.angleArguments
    have hle := weight_skip_le c 2
    omega
  · intro _
    apply ite_congr rfl
    · intro _
      apply h.angleArguments hc
    · intro _
      split
      case h_1 inside opening closing r hr =>
        have hinside := weight_inside hr
        apply bind_congr (h.parenthesized hH (by omega))
        intro _ _
        apply h.resultType
        have hskip := weight_skip (c := c) (by simp [hr])
        omega
      case h_2 => rfl

theorem Agree.path (h : Agree w G H) (hc : c.weight < w) :
  G.path c = H.path c
  := by
  apply h.segments
  have hcross : c.Crosses true true (skipSeparator c) := crosses_skipSeparator c
  have hle := weight_le hcross.isSuffix
  omega

theorem Agree.readSegments (h : Agree w G H) (hH : H.Sound) (hc : c.weight ≤ w) :
  G.readSegments c = H.readSegments c
  := by
  apply bind_congr rfl
  intro d hd
  obtain ⟨hstart, rfl⟩ := expect_eq_ok.mp hd
  have hskip := weight_skip (ne_nil_of_atLexeme hstart)
  apply bind_congr (h.segmentArguments hH (by omega))
  intro e he
  apply ite_congr rfl
  · intro _
    apply h.segments
    have hle := weight_le (hH.segmentArguments he).isSuffix
    have htwo := weight_skip_le e 2
    omega
  · intro _
    rfl

theorem Agree.readBounds (h : Agree w G H) (hH : H.Sound) (hc : c.weight + 2 ≤ w) :
  G.readBounds c = H.readBounds c
  := by
  apply bind_congr (h.bound (by omega))
  intro d hd
  apply ite_congr rfl
  · intro hplus
    apply ite_congr rfl
    · intro _
      apply h.bounds
      have hle := weight_le (hH.bound hd).isSuffix
      have hskip := weight_skip (ne_nil_of_atSingle hplus)
      omega
    · intro _
      rfl
  · intro _
    rfl

theorem Agree.readBound (h : Agree w G H) (hc : c.weight + 1 ≤ w) :
  G.readBound c = H.readBound c
  := by
  apply ite_congr rfl
  · intro _
    rfl
  · intro _
    split
    case h_1 inside opening closing r hr =>
      have hinside := weight_inside hr
      apply bind_congr (h.bound (by omega))
      intro _ _
      rfl
    case h_2 =>
      apply ite_congr rfl
      · intro _
        apply h.angleArguments
        have hle := weight_skip_le c 1
        omega
      · intro _
        apply bind_congr rfl
        intro d hd
        apply h.path
        have hle := weight_le (crosses_boundMarks hd).isSuffix
        omega

theorem Agree.argument (h : Agree w G H) (hc : c.weight + 2 ≤ w) :
  G.argument c = H.argument c
  := by
  have hle := weight_skip_le c 2
  apply ite_congr rfl
  · intro _
    rfl
  · intro _
    apply ite_congr rfl
    · intro _
      rw [h.type true (by omega)]
    · intro _
      apply ite_congr rfl
      · intro hcolon
        rw [Bool.and_eq_true] at hcolon
        apply h.bounds
        have hlt := weight_lt (skip_two_isSuffix c) (ne_nil_of_atLexeme hcolon.1)
        omega
      · intro _
        apply ite_congr rfl
        · intro _
          rfl
        · intro _
          rw [h.type true (by omega)]

theorem Agree.readArguments (h : Agree w G H) (hH : H.Sound) (hc : c.weight + 2 ≤ w) :
  G.readArguments c = H.readArguments c
  := by
  apply ite_congr rfl
  · intro _
    rfl
  · intro _
    apply bind_congr (h.argument hc)
    intro d hd
    apply ite_congr rfl
    · intro hcomma
      apply h.arguments
      have hle := weight_le (hH.argument hd).isSuffix
      have hskip := weight_skip (ne_nil_of_atLexeme hcomma)
      omega
    · intro _
      rfl

theorem Agree.qualifiedPath (h : Agree w G H) (hH : H.Sound) (hc : c.weight + 1 ≤ w) :
  G.qualifiedPath c = H.qualifiedPath c
  := by
  apply bind_congr rfl
  intro d hd
  obtain ⟨hlt, rfl⟩ := expectPunct_eq_ok.mp hd
  have hskip := weight_skip (ne_nil_of_atLexeme hlt)
  apply bind_congr (h.type true (by omega))
  rintro ⟨kind, e⟩ he
  have hle := weight_le (hH.type he).crosses.isSuffix
  have hlater (f : Cursor) (hf : f.weight ≤ e.weight) :
      (do
        let f ← f.expectPunct '>'
        if atOperator [':', ':'] f.trees then G.path (f.skip 2) else f.fail (ticked "::")) =
      (do
        let f ← f.expectPunct '>'
        if atOperator [':', ':'] f.trees then H.path (f.skip 2) else f.fail (ticked "::")) := by
    apply bind_congr rfl
    intro g hg
    obtain ⟨-, rfl⟩ := expectPunct_eq_ok.mp hg
    rw [h.path]
    have hone := weight_skip_le f 1
    have htwo := weight_skip_le (f.skip 1) 2
    omega
  apply ite_congr rfl
  · intro _
    have hone := weight_skip_le e 1
    apply bind_congr (h.path (by omega))
    intro f hf
    apply hlater
    have hpath := weight_le (hH.path hf).crosses.isSuffix
    omega
  · intro _
    rw [pure_bind, pure_bind]
    apply hlater e (Nat.le_refl _)

theorem Agree.bareFn (h : Agree w G H) (hc : c.weight + 1 ≤ w) :
  G.bareFn c = H.bareFn c
  := by
  apply bind_congr rfl
  intro d hd
  apply bind_congr rfl
  rintro ⟨g, e⟩ he
  apply h.resultType
  have hgroup : d.Passes true false e := Passes.expectGroup he
  have hlt := weight_lt_of_passes ((passes_fnWords hd).trans hgroup.crosses)
  omega

theorem Agree.addedBounds (h : Agree w G H) {allowPlus : Bool} {kind : TypeKind}
    (hc : c.weight ≤ w) :
  G.addedBounds allowPlus kind c = H.addedBounds allowPlus kind c
  := by
  apply ite_congr rfl
  · intro hplus
    rw [Bool.and_eq_true] at hplus
    have hskip := weight_skip (ne_nil_of_atSingle hplus.2)
    rw [h.bounds (by omega)]
  · intro _
    rfl

theorem Agree.readPlainType (h : Agree w G H) (hH : H.Sound) {allowPlus : Bool}
    (hc : c.weight + 1 ≤ w) :
  G.readPlainType allowPlus c = H.readPlainType allowPlus c
  := by
  apply ite_congr rfl
  · intro _
    rfl
  intro _
  apply ite_congr rfl
  · intro _
    rfl
  intro _
  apply ite_congr rfl
  · intro href
    have hskip := weight_skip (ne_nil_of_atLexeme href)
    have hlife : (c.skip 1).Crosses true false
        (if atLifetime (c.skip 1).trees then (c.skip 1).skip 1 else c.skip 1) :=
      Crosses.ite Crosses.lifetime
    have hle := weight_le (hlife.trans (Crosses.skipKeyword _ "mut")).isSuffix
    apply bind_congr (h.type false (by omega))
    intro _ _
    rfl
  intro _
  apply ite_congr rfl
  · intro hpointer
    have hskip := weight_skip (ne_nil_of_atLexeme hpointer)
    apply bind_congr rfl
    intro d hd
    obtain ⟨_, rfl⟩ := expect_eq_ok.mp hd
    have hle := weight_skip_le (c.skip 1) 1
    apply bind_congr (h.type false (by omega))
    intro _ _
    rfl
  intro _
  apply ite_congr rfl
  · intro himpl
    have hskip := weight_skip (ne_nil_of_atLexeme himpl)
    rw [h.bounds (by omega)]
  intro _
  apply ite_congr rfl
  · intro hdyn
    have hskip := weight_skip (ne_nil_of_atLexeme hdyn)
    rw [h.bounds (by omega)]
  intro _
  apply ite_congr rfl
  · intro hfor
    apply bind_congr rfl
    intro d hd
    have hbinder : c.Passes true false d := passes_forBinder hd
    have hlt := weight_lt_of_passes hbinder
    rw [h.bareFn (by omega), h.bounds (by omega)]
  intro _
  apply ite_congr rfl
  · intro _
    rw [h.bareFn hc]
  intro _
  apply ite_congr rfl
  · intro _
    rw [h.qualifiedPath hH hc]
  intro _
  apply ite_congr rfl
  · intro _
    apply bind_congr (h.path (by omega))
    intro d hd
    apply ite_congr rfl
    · intro _
      rfl
    · intro _
      apply h.addedBounds
      have hle := weight_le (hH.path hd).crosses.isSuffix
      omega
  intro _
  rfl

theorem Agree.readType (h : Agree w G H) (hH : H.Sound) {allowPlus : Bool}
    (hc : c.weight + 1 ≤ w) :
  G.readType allowPlus c = H.readType allowPlus c
  := by
  unfold TypeGrammar.readType
  split
  case h_1 inside opening closing r hr =>
    have hinside := weight_inside hr
    have hle := weight_skip_le c 1
    apply bind_congr (h.parenthesized hH (by omega))
    intro kind _
    apply h.addedBounds (by omega)
  case h_2 inside opening closing r hr =>
    have hinside := weight_inside hr
    rw [h.bracketed (by omega)]
  case h_3 => apply h.readPlainType hH hc

/-- Two levels agree on what both are high enough for. -/
theorem agree_level (n m : Nat) :
  Agree (min n m) (level n) (level m)
  := by
  induction n generalizing m with
  | zero => constructor <;> intros <;> omega
  | succ n ih =>
      cases m with
      | zero => constructor <;> intros <;> omega
      | succ m =>
          have h := ih m
          have hH := sound_level m
          rw [Nat.succ_min_succ]
          constructor
          · intro allowPlus c hc
            apply h.readType hH (by omega)
          · intro c hc
            apply h.readSegments hH (by omega)
          · intro c hc
            apply h.readArguments hH (by omega)
          · intro c hc
            apply h.readBound (by omega)
          · intro c hc
            apply h.readBounds hH (by omega)

/-- The level at which a type is read is high enough: no higher one reads it
differently. -/
theorem type_level_eq_upTo {n : Nat} (allowPlus : Bool) (c : Cursor) (hn : c.weight + 2 ≤ n) :
  (level n).type allowPlus c = (upTo c).type allowPlus c
  := by
  apply (agree_level _ _).type
  simp only [weight] at hn ⊢
  omega

end TypeGrammar

end ReturnCaptures
