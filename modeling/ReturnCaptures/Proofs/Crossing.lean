import ReturnCaptures.Grammar.Expect
import ReturnCaptures.Proofs.Balance

/-!
# Crossings

A cursor crosses a run of trees if it stands before the run and a later cursor after it,
among the same siblings. The primitive steps of which productions are made all cross
balanced runs, and so do chains of them.
-/

namespace ReturnCaptures

open TokenTree

namespace Outcome

variable {ε α β : Type}

/-- A chain of two steps succeeds if both do. -/
theorem bind_eq_ok {x : Except ε α} {f : α → Except ε β} {b : β} :
  x >>= f = .ok b ↔ ∃ a, x = .ok a ∧ f a = .ok b
  := by
  cases x with
  | error e => simp [bind, Except.bind]
  | ok a => simp [bind, Except.bind]

/-- A chain of two steps fails if the first one does, or the second one behind it. -/
theorem bind_eq_error {x : Except ε α} {f : α → Except ε β} {e : ε} :
  (x >>= f) = .error e ↔ x = .error e ∨ ∃ a, x = .ok a ∧ f a = .error e
  := by cases x <;> simp [bind, Except.bind]

/-- A step that depends on a condition, followed by another. -/
theorem ite_bind_eq_ok {p : Prop} [Decidable p] {x y : Except ε α} {f : α → Except ε β} {b : β} :
  (if p then x >>= f else y >>= f) = .ok b ↔ ∃ a, (if p then x else y) = .ok a ∧ f a = .ok b
  := by
  by_cases hp : p
  · rw [if_pos hp, if_pos hp, bind_eq_ok]
  · rw [if_neg hp, if_neg hp, bind_eq_ok]

theorem pure_eq_ok {a b : α} :
  (pure a : Except ε α) = .ok b ↔ a = b
  := by
  simp [pure, Except.pure]

theorem map_eq_ok {x : Except ε α} {f : α → β} {b : β} :
  Except.map f x = .ok b ↔ ∃ a, x = .ok a ∧ f a = b
  := by
  cases x with
  | error e => simp [Except.map]
  | ok a => simp [Except.map]

theorem map_eq_error {x : Except ε α} {f : α → β} {e : ε} :
  x.map f = .error e ↔ x = .error e
  := by cases x <;> simp [Except.map]

/-- An outcome that is checked to satisfy a condition is a success. -/
theorem exists_of_any {x : Except ε α} {p : α → Bool} (h : x.toOption.any p) :
  ∃ a, x = .ok a ∧ p a
  := by
  cases x with
  | error e => cases h
  | ok a => use a, rfl, h

/-- An outcome that is checked to fail in a certain way does so. -/
theorem exists_error_of_any {x : Except ε α} {p : ε → Bool}
    (h : (x.map fun _ => ()).mapError p = .error true) :
  ∃ e, x = .error e ∧ p e
  := by
  cases x with
  | error e => use e, rfl, Except.error.inj h
  | ok a => cases h

/-- Two chains agree if their first steps do, and their second steps after every success of
the first. -/
theorem bind_congr {x y : Except ε α} {f g : α → Except ε β} (hx : x = y)
    (hf : ∀ a, y = .ok a → f a = g a) :
  x >>= f = y >>= g
  := by
  subst hx
  cases x with
  | error e => rfl
  | ok a => apply hf a rfl

end Outcome

namespace Cursor

variable {strict inner : Bool} {c d e : Cursor} {α : Type}

/-- The cursor `d` stands behind `c`, after a balanced run. -/
structure Crosses (strict inner : Bool) (c d : Cursor) : Prop where
  stop : d.stop = c.stop
  run : ∃ u, c.trees = u ++ d.trees ∧ Balanced strict inner u

/-- The cursor `d` stands behind `c`, after a balanced run from between angle brackets and
a `>`. -/
structure Closes (strict : Bool) (c d : Cursor) : Prop where
  stop : d.stop = c.stop
  run : ∃ u last, c.trees = u ++ last :: d.trees ∧ Balanced strict true u ∧ atPunct '>' [last]

/-- The cursor `d` stands behind `c`, after a balanced run of one tree at least. -/
structure Passes (strict inner : Bool) (c d : Cursor) : Prop where
  crosses : c.Crosses strict inner d
  shorter : d.trees.length < c.trees.length

theorem Crosses.refl :
  c.Crosses strict inner c
  := ⟨rfl, [], rfl, .nil⟩

theorem Crosses.trans (h : c.Crosses strict inner d) (k : d.Crosses strict inner e) :
  c.Crosses strict inner e
  := by
  obtain ⟨u, hu, hbu⟩ := h.run
  obtain ⟨v, hv, hbv⟩ := k.run
  use k.stop.trans h.stop, u ++ v
  constructor
  · rw [hu, hv, List.append_assoc]
  · apply hbu.append hbv

theorem Crosses.toInner (h : c.Crosses strict inner d) :
  c.Crosses strict true d
  := by
  obtain ⟨hs, u, hu, hb⟩ := h
  use hs, u, hu, hb.toInner

theorem Crosses.toLoose (h : c.Crosses strict inner d) :
  c.Crosses false inner d
  := by
  obtain ⟨hs, u, hu, hb⟩ := h
  use hs, u, hu, hb.toLoose

theorem Passes.toLoose (h : c.Passes strict inner d) :
  c.Passes false inner d
  := ⟨h.crosses.toLoose, h.shorter⟩

theorem Passes.toInner (h : c.Passes strict inner d) :
  c.Passes strict true d
  := ⟨h.crosses.toInner, h.shorter⟩

/-- What stands behind a crossing is a part of what stood before it. -/
theorem Crosses.isSuffix (h : c.Crosses strict inner d) :
  d.trees <:+ c.trees
  := by
  obtain ⟨u, hu, _⟩ := h.run
  use u, hu.symm

theorem Closes.isSuffix (h : c.Closes strict d) :
  d.trees <:+ c.trees
  := by
  obtain ⟨u, last, hu, _⟩ := h.run
  use u ++ [last]
  simp [hu]

theorem Crosses.length_le (h : c.Crosses strict inner d) :
  d.trees.length ≤ c.trees.length
  := h.isSuffix.length_le

theorem Crosses.trans_passes (h : c.Crosses strict inner d) (k : d.Passes strict inner e) :
  c.Passes strict inner e
  := by
  use h.trans k.crosses
  apply Nat.lt_of_lt_of_le k.shorter h.length_le

theorem Passes.trans (h : c.Passes strict inner d) (k : d.Crosses strict inner e) :
  c.Passes strict inner e
  := by
  use h.crosses.trans k
  apply Nat.lt_of_le_of_lt k.length_le h.shorter

/-- The trees read between two cursors are those that the later one stands behind. -/
theorem readUpTo_of_append {u : List TokenTree} (h : c.trees = u ++ d.trees) :
  c.readUpTo d = u
  := by
  simp [readUpTo, h]

/-- Whatever is crossed is read. -/
theorem Crosses.readUpTo (h : c.Crosses strict inner d) :
  c.trees = c.readUpTo d ++ d.trees ∧ Balanced strict inner (c.readUpTo d)
  := by
  obtain ⟨u, hu, hb⟩ := h.run
  rw [readUpTo_of_append hu]
  use hu

/-- A closing after a crossing between angle brackets closes what the crossing started
in. -/
theorem Crosses.closes (h : c.Crosses strict inner d) (k : d.Closes strict e) :
  c.Closes strict e
  := by
  obtain ⟨u, hu, hbu⟩ := h.toInner.run
  obtain ⟨v, last, hv, hbv, hl⟩ := k.run
  use k.stop.trans h.stop, u ++ v, last
  constructor
  · rw [hu, hv, List.append_assoc]
  · use hbu.append hbv

/-! ### Steps -/

theorem skip_skip (c : Cursor) (m n : Nat) :
  (c.skip m).skip n = c.skip (m + n)
  := by
  simp [skip]

/-- Moving over a tree that may stand alone. -/
theorem Crosses.tree {tree : TokenTree} {r : List TokenTree} (h : c.trees = tree :: r)
    (hp : tree.isPlain strict inner) :
  c.Crosses strict inner (c.skip 1)
  := by
  use rfl, [tree]
  constructor
  · simp [h]
  · apply Balanced.plain hp

theorem trees_skip_one {tree : TokenTree} {r : List TokenTree} (h : c.trees = tree :: r) :
  (c.skip 1).trees = r
  := by
  simp [h]

theorem Passes.tree {tree : TokenTree} {r : List TokenTree} (h : c.trees = tree :: r)
    (hp : tree.isPlain strict inner) :
  c.Passes strict inner (c.skip 1)
  := by
  use Crosses.tree h hp
  simp [h]

/-- What a passage of one tree at least leads to stands behind that tree. -/
theorem Passes.isSuffix_skip (h : c.Passes strict inner d) :
  c.trees ≠ [] ∧ d.trees <:+ (c.skip 1).trees
  := by
  obtain ⟨tree, r, hc⟩ := List.exists_cons_of_length_pos (Nat.zero_lt_of_lt h.shorter)
  have hsuffix := h.crosses.isSuffix
  rw [hc] at hsuffix
  use by simp [hc]
  rw [trees_skip_one hc]
  apply (List.suffix_cons_iff.mp hsuffix).resolve_left
  intro heq
  have hlt := h.shorter
  rw [hc, heq] at hlt
  apply Nat.lt_irrefl _ hlt

/-- Moving over a tree that leads another, and over that one. -/
theorem Crosses.led {first tree : TokenTree} {r : List TokenTree} (h : c.trees = first :: tree :: r)
    (hf : first.leads) (hp : tree.isPlain strict inner) :
  c.Crosses strict inner (c.skip 2)
  := by
  use rfl, [first, tree]
  constructor
  · simp [h]
  · apply Balanced.led hf hp

/-- What a look at the first tree sees. -/
theorem exists_of_atLexeme {p : Lexeme → Bool} {trees : List TokenTree} (h : atLexeme p trees) :
  ∃ t r, trees = .token t :: r ∧ p t.lexeme
  := by
  obtain _ | ⟨t | _, r⟩ := trees
  · simp [atLexeme] at h
  · use t, r, rfl
    apply h
  · simp [atLexeme] at h

/-- Moving over a lexeme that may stand alone. -/
theorem Crosses.lexeme {p : Lexeme → Bool} (h : atLexeme p c.trees)
    (hp : ∀ l, p l → l.isPlain strict inner) :
  c.Crosses strict inner (c.skip 1)
  := by
  obtain ⟨t, r, hc, ht⟩ := exists_of_atLexeme h
  apply Crosses.tree hc
  apply hp _ ht

/-- A crossing of what stands behind a lexeme. -/
theorem Passes.ofLexeme {p : Lexeme → Bool} (h : atLexeme p c.trees)
    (k : c.Crosses strict inner d) (l : d.trees <:+ (c.skip 1).trees) :
  c.Passes strict inner d
  := by
  obtain ⟨t, r, hc, _⟩ := exists_of_atLexeme h
  use k
  apply Nat.lt_of_le_of_lt l.length_le
  simp [hc]

/-- A crossing that starts with a lexeme passes it. -/
theorem Passes.skip {p : Lexeme → Bool} (h : atLexeme p c.trees)
    (k : c.Crosses strict inner (c.skip 1)) (l : (c.skip 1).Crosses strict inner d) :
  c.Passes strict inner d
  := by
  apply Passes.ofLexeme h (k.trans l) l.isSuffix

/-- Moving over a word or a lifetime. -/
theorem Crosses.word {p : Lexeme → Bool} (h : atLexeme p c.trees) (hp : ∀ l, p l → l.isWord) :
  c.Crosses strict inner (c.skip 1)
  := by
  apply Crosses.lexeme h
  intro l hl
  apply Lexeme.isPlain_of_isWord (hp l hl)

theorem Crosses.lifetime (h : atLifetime c.trees) :
  c.Crosses strict inner (c.skip 1)
  := by
  apply Crosses.word h
  intro l
  cases l <;> simp [Lexeme.isWord]

theorem Crosses.ident (h : atIdent c.trees) :
  c.Crosses strict inner (c.skip 1)
  := by
  apply Crosses.word h
  intro l
  cases l <;> simp [Lexeme.isWord]

theorem Crosses.keyword {word : String} (h : atKeyword word c.trees) :
  c.Crosses strict inner (c.skip 1)
  := by
  apply Crosses.word h
  intro l
  cases l <;> simp [Lexeme.isWord, Lexeme.isKeyword]

theorem Crosses.pathStart (h : atPathStart c.trees) :
  c.Crosses strict inner (c.skip 1)
  := by
  apply Crosses.word h
  intro l
  cases l <;> simp [Lexeme.isWord, Lexeme.isPathWord]

/-- Moving over a literal, which may not stand alone in a strict run. -/
theorem Crosses.literal (h : atLiteral c.trees) (hs : strict = true → inner = true) :
  c.Crosses strict inner (c.skip 1)
  := by
  apply Crosses.lexeme h
  intro l hl
  cases l with
  | keyword word => apply Lexeme.isPlain_of_isWord rfl
  | literal kind text => cases strict <;> simp_all [Lexeme.isPlain, Lexeme.isMark, Lexeme.inTypes]
  | _ => simp [Lexeme.isLiteral] at hl

/-- Moving over punctuation that is no mark. -/
theorem Crosses.punct {symbol : Char} (h : atPunct symbol c.trees)
    (hp : (Lexeme.punct symbol false).isPlain strict inner) :
  c.Crosses strict inner (c.skip 1)
  := by
  apply Crosses.lexeme h
  intro l hl
  cases l with
  | punct _ _ =>
      simp only [Lexeme.isPunct, beq_iff_eq] at hl
      subst hl
      apply hp
  | _ => simp [Lexeme.isPunct] at hl

/-- Moving over punctuation that starts no operator. -/
theorem Crosses.single {symbol : Char} (h : atSingle symbol c.trees)
    (hp : (Lexeme.punct symbol false).isPlain strict inner) :
  c.Crosses strict inner (c.skip 1)
  := by
  simp only [atSingle, Bool.and_eq_true] at h
  apply Crosses.punct h.1 hp

/-- What a look at a punctuation character sees. -/
theorem exists_of_atPunct {symbol : Char} {trees : List TokenTree} (h : atPunct symbol trees) :
  ∃ tree r, trees = tree :: r ∧ atPunct symbol [tree]
  := by
  obtain _ | ⟨tree, r⟩ := trees
  · simp [atPunct, atLexeme] at h
  · use tree, r, rfl
    rwa [atPunct_cons] at h

/-- Punctuation is a token. -/
theorem exists_of_atPunct_singleton {symbol : Char} {tree : TokenTree}
    (h : atPunct symbol [tree]) :
  ∃ t : Token, tree = .token t
  := by
  obtain ⟨t, r, ht, _⟩ := exists_of_atLexeme h
  use t
  simpa using (List.cons_eq_cons.mp ht).1

/-- A token of punctuation is its symbol, joint to what follows it or not. -/
theorem exists_of_isPunct {symbol : Char} {t : Token} (h : t.lexeme.isPunct symbol) :
  ∃ joint span, t = ⟨.punct symbol joint, span⟩
  := by
  obtain ⟨l, span⟩ := t
  cases l with
  | punct symbol' joint =>
      obtain rfl : symbol' = symbol := eq_of_beq h
      exact ⟨joint, span, rfl⟩
  | _ => cases h

/-- Moving over a mark between angle brackets. -/
theorem Crosses.mark (h : atPunct ':' c.trees || atPunct ',' c.trees) :
  c.Crosses strict true (c.skip 1)
  := by
  rcases hc : c.trees with _ | ⟨tree, r⟩
  · simp [hc, atPunct, atLexeme] at h
  · use rfl, [tree]
    constructor
    · simp [hc]
    · apply Balanced.mark
      rwa [hc, atPunct_cons, atPunct_cons ','] at h

/-- What a look at a group sees. -/
theorem exists_of_atGroup {delimiter : Delimiter} {trees : List TokenTree}
    (h : atGroup delimiter trees) :
  ∃ g r, trees = Group.tree g :: r ∧ g.delimiter = delimiter
  := by
  obtain _ | ⟨_ | ⟨d, inside, opening, closing⟩, r⟩ := trees
  · cases h
  · cases h
  · exact ⟨⟨d, inside, opening, closing⟩, r, rfl, eq_of_beq h⟩

theorem Crosses.anyGroup (h : atAnyGroup c.trees) :
  c.Crosses strict inner (c.skip 1)
  := by
  rcases hc : c.trees with _ | ⟨_ | _, r⟩
  · simp [hc, atAnyGroup] at h
  · simp [hc, atAnyGroup] at h
  · apply Crosses.tree hc
    rfl

/-- What a look at an operator of two characters sees. -/
theorem exists_of_atOperator {a b : Char} {trees : List TokenTree}
    (h : atOperator [a, b] trees) :
  ∃ first second r, trees = first :: second :: r ∧ atOperator [a, b] [first, second]
  := by
  obtain _ | ⟨first, _ | ⟨second, r⟩⟩ := trees
  · simp [atOperator] at h
  · cases first <;> simp [atOperator, atPunct, atLexeme] at h
  · use first, second, r, rfl
    rwa [atOperator_cons_cons] at h

theorem Crosses.separator (h : atOperator [':', ':'] c.trees) :
  c.Crosses strict inner (c.skip 2)
  := by
  obtain ⟨first, second, r, hc, ho⟩ := exists_of_atOperator h
  use rfl, [first, second]
  constructor
  · simp [hc]
  · apply Balanced.separator ho

/-- What follows two trees follows the first of them. -/
theorem skip_two_isSuffix (c : Cursor) :
  (c.skip 2).trees <:+ (c.skip 1).trees
  := by
  rw [← skip_skip c 1 1]
  apply List.drop_suffix

theorem Crosses.arrow (h : atOperator ['-', '>'] c.trees) :
  c.Crosses strict inner (c.skip 2)
  := by
  obtain ⟨first, second, r, hc, ho⟩ := exists_of_atOperator h
  use rfl, [first, second]
  constructor
  · simp [hc]
  · apply Balanced.arrow ho

/-- Moving over the `>` itself. -/
theorem Closes.last (h : atPunct '>' c.trees) :
  c.Closes strict (c.skip 1)
  := by
  obtain ⟨tree, r, hc, ht⟩ := exists_of_atPunct h
  use rfl, [], tree
  constructor
  · rw [trees_skip_one hc, hc, List.nil_append]
  · use .nil

/-- A `<` and all up to the `>` that closes it. -/
theorem Closes.exists_isAngled (h : atPunct '<' c.trees) (k : (c.skip 1).Closes strict d) :
  ∃ u, c.trees = u ++ d.trees ∧ IsAngled strict u
  := by
  obtain ⟨first, r, hc, hf⟩ := exists_of_atPunct h
  obtain ⟨u, last, hu, hb, hl⟩ := k.run
  use first :: (u ++ [last])
  constructor
  · rw [hc, ← trees_skip_one hc, hu]
    simp
  · use first, u, last

theorem Closes.crosses (h : atPunct '<' c.trees) (k : (c.skip 1).Closes strict d) :
  c.Crosses strict inner d
  := by
  obtain ⟨_, hc, first, u, last, rfl, hf, hb, hl⟩ := Closes.exists_isAngled h k
  use k.stop, first :: (u ++ [last]), hc
  apply Balanced.angle hf hb hl

/-! ### Expectations -/

theorem expect_eq_ok {what : String} {seen : Bool} :
  c.expect what seen = .ok d ↔ seen = true ∧ c.skip 1 = d
  := by
  cases seen <;> simp [expect, fail, failWith]

theorem expectPunct_eq_ok {symbol : Char} :
  c.expectPunct symbol = .ok d ↔ atPunct symbol c.trees ∧ c.skip 1 = d
  := expect_eq_ok

theorem expectColon_eq_ok :
  c.expectColon = .ok d ↔ atColon c.trees ∧ c.skip 1 = d
  := expect_eq_ok

theorem expectKeyword_eq_ok {word : String} :
  c.expectKeyword word = .ok d ↔ atKeyword word c.trees ∧ c.skip 1 = d
  := expect_eq_ok

theorem expectLifetime_eq_ok :
  c.expectLifetime = .ok d ↔ atLifetime c.trees ∧ c.skip 1 = d
  := expect_eq_ok

/-- A token that was asked for comes next. -/
theorem expectToken_eq_ok {what : String} {p : Lexeme → Bool} {t : Token} :
  c.expectToken what p = .ok (t, d) ↔
    p t.lexeme ∧ c.trees = .token t :: d.trees ∧ d.stop = c.stop
  := by
  obtain ⟨trees, stop⟩ := c
  obtain ⟨rest, stop'⟩ := d
  obtain _ | ⟨s | _, r⟩ := trees
  · simp [expectToken, fail, failWith]
  · by_cases hs : p s.lexeme
    · simp only [expectToken, hs, if_true, Except.ok.injEq, Prod.mk.injEq, List.cons.injEq,
        TokenTree.token.injEq, skip, List.drop_one, List.tail_cons, Cursor.mk.injEq]
      constructor
      · rintro ⟨rfl, rfl, rfl⟩
        simp [hs]
      · rintro ⟨_, ⟨rfl, rfl⟩, rfl⟩
        simp
    · simp only [expectToken, hs, fail, failWith, if_false, reduceCtorEq, false_iff]
      rintro ⟨hp, ht, _⟩
      simp only [List.cons.injEq, TokenTree.token.injEq] at ht
      apply hs
      rw [ht.1]
      apply hp
  · simp [expectToken, fail, failWith]

/-- An identifier that was asked for comes next. -/
theorem expectIdent_eq_ok {role : String} {t : Token} :
  c.expectIdent role = .ok (t, d) ↔
    (∃ name, t.lexeme = .ident name) ∧ c.trees = .token t :: d.trees ∧ d.stop = c.stop
  := by
  rw [expectIdent, expectToken_eq_ok]
  cases t.lexeme <;> simp

/-- A group that was asked for comes next. -/
theorem expectGroup_eq_ok {delimiter : Delimiter} {g : Group} :
  c.expectGroup delimiter = .ok (g, d) ↔
    g.delimiter = delimiter ∧ c.trees = g.tree :: d.trees ∧ d.stop = c.stop
  := by
  obtain ⟨trees, stop⟩ := c
  obtain ⟨rest, stop'⟩ := d
  obtain ⟨gd, gi, go, gc⟩ := g
  obtain _ | ⟨_ | ⟨del, inside, opening, closing⟩, r⟩ := trees
  · simp [expectGroup, peek, fail, failWith]
  · simp [expectGroup, peek, group?, fail, failWith, Group.tree]
  · by_cases hd : del = delimiter
    · simp only [expectGroup, peek, List.head?_cons, Option.bind_some, group?, hd, if_true,
        Except.ok.injEq, Prod.mk.injEq, Group.mk.injEq, Group.tree, List.cons.injEq,
        TokenTree.group.injEq, skip, List.drop_one, List.tail_cons, Cursor.mk.injEq]
      constructor
      · rintro ⟨⟨rfl, rfl, rfl, rfl⟩, rfl, rfl⟩
        simp
      · rintro ⟨rfl, ⟨⟨_, rfl, rfl, rfl⟩, rfl⟩, rfl⟩
        simp
    · simp only [expectGroup, peek, List.head?_cons, Option.bind_some, group?, hd, if_false,
        fail, failWith, reduceCtorEq, Group.tree, List.cons.injEq, TokenTree.group.injEq, false_iff]
      rintro ⟨rfl, ⟨⟨rfl, _⟩, _⟩, _⟩
      apply hd rfl

/-- Reading an identifier that was asked for. -/
theorem Passes.expectIdent {role : String} {t : Token} (h : c.expectIdent role = .ok (t, d)) :
  c.Passes strict inner d
  := by
  obtain ⟨⟨name, ht⟩, hc, hs⟩ := expectIdent_eq_ok.mp h
  constructor
  · use hs, [.token t], hc
    apply Balanced.plain
    rw [isPlain, ht]
    apply Lexeme.isPlain_of_isWord rfl
  · simp [hc]

/-- Reading a group that was asked for. -/
theorem Passes.expectGroup {delimiter : Delimiter} {g : Group}
    (h : c.expectGroup delimiter = .ok (g, d)) :
  c.Passes strict inner d
  := by
  obtain ⟨_, hc, hs⟩ := expectGroup_eq_ok.mp h
  constructor
  · use hs, [g.tree], hc
    apply Balanced.plain rfl
  · simp [hc]

theorem Crosses.colon (h : atColon c.trees) :
  c.Crosses strict true (c.skip 1)
  := by
  simp only [atColon, Bool.and_eq_true] at h
  apply Crosses.mark
  simp [h.1]

theorem Crosses.skipKeyword (c : Cursor) (word : String) :
  c.Crosses strict inner (c.skipKeyword word)
  := by
  unfold Cursor.skipKeyword
  split
  case isTrue h => apply Crosses.keyword h
  case isFalse => apply Crosses.refl

/-- Moving over a tree that may stand alone, if it comes next. -/
theorem Crosses.ite {seen : Bool} (h : seen → c.Crosses strict inner d) :
  c.Crosses strict inner (if seen then d else c)
  := by
  split
  case isTrue hs => apply h hs
  case isFalse => apply Crosses.refl

end Cursor

end ReturnCaptures
