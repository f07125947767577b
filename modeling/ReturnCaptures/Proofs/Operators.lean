import ReturnCaptures.Proofs.Embedding
import ReturnCaptures.Proofs.Printing

/-!
# Operators in printed trees

Trees that are read again from their printed text have the operators that they had before. There is
one exception: a point and an equals sign start no operator, so they are printed together also if
they stood apart. Where a point that is joint stands in front of them, the three are read again as
the operator of an inclusive range.
-/

namespace ReturnCaptures

open Scan TokenTree

/-! ### Lexemes and the texts behind them -/

section Lexemes

variable {c : Char} {l : Lexeme} {b v : List Char}

theorem Lexeme.beq_punct {j : Bool} :
  (l == .punct c j) = (l.isPunct c && l.isJoint == j)
  := by
  rw [Bool.eq_iff_iff]
  cases l <;> simp [Lexeme.isPunct, Lexeme.isJoint]

/-- A lexeme as it is read in front of a text: punctuation is joint as this text tells. -/
def Lexeme.rejoined (v : List Char) : Lexeme → Lexeme
  | .punct c _ => .punct c (!Scan.isDelimiter c && joins v)
  | l => l

theorem Lexeme.plain_rejoined (v : List Char) (l : Lexeme) :
  (l.rejoined v).plain = l.plain
  := by
  cases l <;> rfl

/-- A lexeme that stands in front of a text is read there, and is joint as this text tells. -/
theorem Lexeme.Stands.pieces_append (h : l.Stands v) :
  pieces (l.text.toList ++ v) = ⟨l.text.toList, .lexeme (l.rejoined v)⟩ :: pieces v
  := by
  obtain ⟨c, r, hr, -, hreading, hlength⟩ := h.exists_start
  obtain ⟨l', hl', hplain⟩ := Reading.exists_of_plain hreading
  have hsame : l' = l.rejoined v := by
    cases l with
    | punct d j =>
        obtain ⟨rfl, rfl⟩ := List.cons_eq_cons.mp ((String.toList_singleton d).symm.trans hr)
        obtain ⟨i, rfl⟩ := exists_joint_of_plain hplain
        rw [(punct_of_start hl').2.2]
        rfl
    | _ => cases l' <;> first | exact hplain | cases hplain
  rw [hr]
  apply pieces_cons
  rw [← hsame, ← hl', ← hlength]

/-- Blanks in front of a text carry no tokens. -/
theorem exists_tokensAt_isBlank (hb : isBlank b) (file : String) (p : Position) (w : List Char) :
  ∃ p', tokensAt file p (pieces (b ++ w)) = tokensAt file p' (pieces w)
  := by
  obtain ⟨ps, hps, htrivia⟩ := exists_pieces_isBlank (u := w) hb
  use p.after (ReturnCaptures.textOf ps)
  rw [hps, tokensAt_append, tokensAt_of_trivia htrivia, List.nil_append]

end Lexemes

/-! ### Positions in trees -/

namespace TokenTree

/-- The trees inside of the group that a path leads to, which lists the positions of the groups around
it, the outermost first, and its own. -/
def siblingsAt : List Nat → List TokenTree → Option (List TokenTree)
  | [], trees => some trees
  | i :: path, trees => (trees[i]?.bind group?).bind fun g => siblingsAt path g.trees

/-- Whether two points and an equals sign follow each other, of which only the first is joint. -/
def startsLooseRange : List TokenTree → Bool
  | .token first :: .token second :: trees =>
    first.lexeme == .punct '.' true && second.lexeme == .punct '.' false && atPunct '=' trees
  | _ => false

mutual

/-- Whether two points and an equals sign, of which only the first is joint, follow each other inside
of a tree. -/
def holdsLooseRange : TokenTree → Bool
  | .token _ => false
  | .group _ trees _ _ => holdLooseRange trees

/-- Whether two points and an equals sign, of which only the first is joint, follow each other among
trees or inside of one. -/
def holdLooseRange : List TokenTree → Bool
  | [] => false
  | tree :: trees => startsLooseRange (tree :: trees) || tree.holdsLooseRange || holdLooseRange trees

end

section Paths

variable {u trees : List TokenTree} {tree : TokenTree} {i : Nat} {path : List Nat} {c d : Char}
  {op : List Char}

/-- The first character of an operator is joint, and its rest follows. -/
theorem atOperator_cons_token {t : Token} :
  atOperator (c :: d :: op) (.token t :: u) =
    (t.lexeme.isPunct c && t.lexeme.isJoint && atOperator (d :: op) u)
  := by
  have hfirst : (t.lexeme == .punct c true) = (t.lexeme.isPunct c && t.lexeme.isJoint) := by
    rw [Lexeme.beq_punct, beq_true]
  rw [← hfirst]
  rfl

theorem siblingsAt_succ :
  siblingsAt ((i + 1) :: path) (tree :: trees) = siblingsAt (i :: path) trees
  := by
  rw [siblingsAt, siblingsAt, List.getElem?_cons_succ]

theorem holdLooseRange_of_drop (h : holdLooseRange (trees.drop i)) :
  holdLooseRange trees
  := by
  induction trees generalizing i with
  | nil => simpa using h
  | cons tree trees ih =>
      cases i with
      | zero => exact h
      | succ i => rw [holdLooseRange, ih h, Bool.or_true]

theorem holdLooseRange_of_starts (h : startsLooseRange trees) :
  holdLooseRange trees
  := by
  cases trees with
  | nil => cases h
  | cons tree trees => rw [holdLooseRange, h, Bool.true_or, Bool.true_or]

/-- What stands inside of a group at some position stands inside of the trees. -/
theorem holdLooseRange_of_group {g : Group} (hg : trees[i]?.bind group? = some g)
    (h : holdLooseRange g.trees) :
  holdLooseRange trees
  := by
  obtain ⟨tree, htree, hgroup⟩ := Option.bind_eq_some_iff.mp hg
  apply holdLooseRange_of_drop (i := i)
  obtain ⟨rest, hrest⟩ := List.head?_eq_some_iff.mp ((List.head?_drop ..).trans htree)
  cases tree with
  | token t => cases hgroup
  | group d inside opening closing =>
      cases hgroup
      rw [hrest, holdLooseRange, holdsLooseRange, h, Bool.or_true, Bool.true_or]

/-- A place among trees is one among more trees as well. -/
theorem exists_place_cons
    (h : ∃ path i, ∃ v ∈ siblingsAt path trees, startsLooseRange (v.drop i)) (tree : TokenTree) :
  ∃ path i, ∃ v ∈ siblingsAt path (tree :: trees), startsLooseRange (v.drop i)
  := by
  obtain ⟨_ | ⟨k, path⟩, i, v, hv, hstarts⟩ := h
  · cases hv
    use [], i + 1, tree :: trees, rfl, hstarts
  · use (k + 1) :: path, i, v
    rw [siblingsAt_succ]
    use hv, hstarts

/-- To look for the two points and the equals sign is to look at every position in every group. -/
theorem holdLooseRange_iff :
  holdLooseRange trees ↔ ∃ path i, ∃ v ∈ siblingsAt path trees, startsLooseRange (v.drop i)
  := by
  constructor
  · intro h
    induction trees using induction_siblings with
    | nil => cases h
    | token t trees ih =>
        rw [holdLooseRange, holdsLooseRange, Bool.or_false, Bool.or_eq_true] at h
        rcases h with hstarts | hlater
        · use [], 0, .token t :: trees, rfl, hstarts
        · apply exists_place_cons (ih hlater)
    | group d inside opening closing trees ihinside ih =>
        rw [holdLooseRange, holdsLooseRange, Bool.or_eq_true, Bool.or_eq_true] at h
        obtain (hstarts | hinside) | hlater := h
        · cases hstarts
        · obtain ⟨path, i, v, hv, hstarts⟩ := ihinside hinside
          use 0 :: path, i, v, hv, hstarts
        · apply exists_place_cons (ih hlater)
  · rintro ⟨path, i, v, hv, hstarts⟩
    induction path generalizing trees with
    | nil =>
        cases hv
        exact holdLooseRange_of_drop (holdLooseRange_of_starts hstarts)
    | cons k path ih =>
        obtain ⟨g, hg, hv⟩ := Option.bind_eq_some_iff.mp hv
        exact holdLooseRange_of_group hg (ih hv)

end Paths

end TokenTree

namespace Printer

/-! ### Pairs of characters in operators -/

/-- The characters that follow each other in operators. -/
def operatorPairs : List (Char × Char) := operators.flatMap fun op => op.zip op.tail

/-- Whether two characters are printed together though they need not be joint: a point and an equals
sign, which start no operator. -/
def sticks (c d : Char) : Bool := c == '.' && d == '='

section Pairs

variable {before : Option Atom} {prev cur a : Atom} {rest : List Atom} {c d : Char} {j k : Bool}
  {w : List Char}

/-- The characters in an operator are no delimiters, and none but the first is a slash. -/
theorem class_of_mem_operatorPairs (h : (c, d) ∈ operatorPairs) :
  Scan.isDelimiter c = false ∧ Scan.isDelimiter d = false ∧ punctuation.contains d ∧ d ≠ '/'
  := by
  have hall : operatorPairs.all fun p =>
      !Scan.isDelimiter p.1 && !Scan.isDelimiter p.2 && punctuation.contains p.2 && p.2 != '/' := by
    decide
  simpa [and_assoc] using List.all_eq_true.mp hall _ h

/-- Two characters in an operator start one, unless they stick together. -/
theorem starts_of_mem_operatorPairs (h : (c, d) ∈ operatorPairs) :
  sticks c d ∨ operators.any [c, d].isPrefixOf
  := by
  have hall : operatorPairs.all fun p => sticks p.1 p.2 || operators.any [p.1, p.2].isPrefixOf := by
    decide
  exact Bool.or_eq_true_iff.mp (List.all_eq_true.mp hall _ h)

/-- Two characters in an operator are printed together if they are joint, and if they stick
together. -/
theorem separator_of_mem_operatorPairs (h : (c, d) ∈ operatorPairs) :
  separator before (.lexeme (.punct c j)) (.lexeme (.punct d k)) = blankUnless (j || sticks c d)
  := by
  cases j with
  | true => rfl
  | false =>
      by_cases hsticks : sticks c d
      · obtain ⟨rfl, rfl⟩ : c = '.' ∧ d = '=' := by simpa [sticks] using hsticks
        have hmerges : (Atom.lexeme (.punct '.' false)).merges (.lexeme (.punct '=' k)) = false := by
          cases k <;> decide
        rw [separator.eq_def]
        simp only [hmerges]
        rfl
      · have hmerges : (Atom.lexeme (.punct c false)).merges (.lexeme (.punct d k)) := by
          simpa [Atom.merges, Atom.text, Lexeme.text, String.toList_singleton] using
            (starts_of_mem_operatorPairs h).resolve_left hsticks
        rw [Bool.not_eq_true] at hsticks
        rw [separator.eq_def, hsticks]
        simp only [hmerges]
        rfl

/-- The first of two characters in an operator is read as joint exactly if they are printed
together. -/
theorem joins_of_mem_operatorPairs (h : (c, d) ∈ operatorPairs) :
  joins (blankUnless j ++ d :: w) = j
  := by
  obtain ⟨-, -, hpunctuation, hslash⟩ := class_of_mem_operatorPairs h
  cases j with
  | true =>
      rw [blankUnless, if_pos rfl, List.nil_append, joins_cons, hpunctuation,
        beq_eq_false_iff_ne.mpr hslash]
      rfl
  | false =>
      rw [blankUnless, if_neg Bool.false_ne_true, List.singleton_append, joins_cons]
      rfl

theorem Atom.exists_of_isPunct_toLexeme (h : a.toLexeme.isPunct c) (hc : Scan.isDelimiter c = false) :
  ∃ j, a = .lexeme (.punct c j)
  := by
  cases a with
  | lexeme l => exact Atom.exists_of_isPunct (a := .lexeme l) h
  | opening d =>
      obtain rfl : d.opening = c := eq_of_beq h
      cases d <;> cases hc
  | closing d =>
      obtain rfl : d.closing = c := eq_of_beq h
      cases d <;> cases hc

/-- Punctuation is joint in the printed text if it was, or if it sticks to what follows it. -/
theorem joins_textAfter (h : (c, d) ∈ operatorPairs) (hprev : prev.toLexeme.isPunct c)
    (hcur : cur.toLexeme.isPunct d) :
  joins (textAfter before prev (cur :: rest)) = (prev.toLexeme.isJoint || sticks c d)
  := by
  obtain ⟨hc, hd, -⟩ := class_of_mem_operatorPairs h
  obtain ⟨j, rfl⟩ := Atom.exists_of_isPunct_toLexeme hprev hc
  obtain ⟨k, rfl⟩ := Atom.exists_of_isPunct_toLexeme hcur hd
  have htext : (Atom.lexeme (.punct d k)).text = [d] := String.toList_singleton d
  rw [textAfter, separator_of_mem_operatorPairs h, htext, List.append_assoc]
  apply joins_of_mem_operatorPairs h

end Pairs

/-! ### Lexemes that are read again -/

/-- A lexeme `l'` is what `l` is read as where it is printed in front of `next`: it differs in nothing
but whether it is joint, and of two characters in an operator, the first is joint if it was, or if
the two stick together. -/
structure ReadAgain (l l' : Lexeme) (next : Option Lexeme) : Prop where
  plain_eq : l'.plain = l.plain
  isJoint_eq : ∀ {c d}, (c, d) ∈ operatorPairs → l.isPunct c → (∃ m ∈ next, m.isPunct d) →
    l'.isJoint = (l.isJoint || sticks c d)

/-- Lexemes in a row, and what they are read as where they are printed. -/
inductive ReadAgainAll : List Lexeme → List Lexeme → Prop
  | nil : ReadAgainAll [] []
  | cons {l l' : Lexeme} {lexemes lexemes' : List Lexeme} :
      ReadAgain l l' lexemes.head? → ReadAgainAll lexemes lexemes' →
      ReadAgainAll (l :: lexemes) (l' :: lexemes')

/-- An atom as it is read in front of a text. -/
def Atom.rejoined (v : List Char) : Atom → Atom
  | .lexeme l => .lexeme (l.rejoined v)
  | a => a

theorem Atom.toLexeme_rejoined (v : List Char) (a : Atom) :
  (a.rejoined v).toLexeme = a.toLexeme.rejoined v
  := by
  cases a with
  | lexeme l => rfl
  | opening d => cases d <;> rfl
  | closing d => cases d <;> rfl

/-- The atoms after `prev` as they are read from what is printed for them. -/
def rereadAfter (prev : Atom) : List Atom → List Atom
  | [] => []
  | cur :: rest => cur.rejoined (textAfter (some prev) cur rest) :: rereadAfter cur rest

/-- Atoms as they are read from what is printed for them. -/
def reread : List Atom → List Atom
  | [] => []
  | first :: rest => first.rejoined (textAfter none first rest) :: rereadAfter first rest

section Reread

variable {before : Option Atom} {prev : Atom} {rest : List Atom}

/-- Atoms are read again from what is printed for them after others. -/
theorem lexemes_textAfter (hstands : ∀ a ∈ prev :: rest, ∃ u, a.toLexeme.Stands u)
    (hchain : (prev :: rest).IsChain fun a b => SlashApart a.toLexeme b.toLexeme)
    (hfuses : fuses (prev :: rest) = false) (file : String) (p : Position) :
  (tokensAt file p (pieces (prev.text ++ textAfter before prev rest))).map (·.lexeme) =
    (prev.rejoined (textAfter before prev rest) :: rereadAfter prev rest).map Atom.toLexeme
  := by
  induction rest generalizing before prev p with
  | nil =>
      obtain ⟨u, hu⟩ := hstands prev List.mem_cons_self
      rw [textAfter, ← Atom.toList_text_toLexeme, hu.nil.pieces_append, rereadAfter, List.map_singleton,
        Atom.toLexeme_rejoined]
      rfl
  | cons cur rest ih =>
      rw [fuses, Bool.or_eq_false_iff] at hfuses
      rw [List.forall_mem_cons] at hstands
      rw [List.isChain_cons] at hchain
      obtain ⟨u, hu⟩ := hstands.1
      have hprev : prev.toLexeme.Stands (textAfter before prev (cur :: rest)) :=
        stands_textAfter hu hstands.2 hchain.1 hfuses.1
      rw [← Atom.toList_text_toLexeme, hprev.pieces_append, tokensAt_cons, List.map_append,
        List.map_cons, Atom.toLexeme_rejoined]
      apply congrArg (prev.toLexeme.rejoined _ :: ·)
      rw [textAfter, List.append_assoc]
      obtain ⟨p', hp'⟩ := exists_tokensAt_isBlank (isBlank_separator before prev cur) file
        (p.after prev.toLexeme.text.toList) (cur.text ++ textAfter (some prev) cur rest)
      rw [hp']
      apply ih hstands.2 hchain.2 hfuses.2

/-- Atoms are read again from what is printed for them. -/
theorem lexemes_textOf {atoms : List Atom} (hstands : ∀ a ∈ atoms, ∃ u, a.toLexeme.Stands u)
    (hchain : atoms.IsChain fun a b => SlashApart a.toLexeme b.toLexeme)
    (hfuses : fuses atoms = false) (file : String) (p : Position) :
  (tokensAt file p (pieces (textOf atoms))).map (·.lexeme) = (reread atoms).map Atom.toLexeme
  := by
  cases atoms with
  | nil => rfl
  | cons first rest => apply lexemes_textAfter hstands hchain hfuses

/-- What a lexeme is read as where it is printed in front of another one. -/
theorem readAgain_rejoined (prev : Atom) (rest : List Atom) :
  ReadAgain prev.toLexeme (prev.rejoined (textAfter before prev rest)).toLexeme
    (rest.map Atom.toLexeme).head?
  := by
  rw [Atom.toLexeme_rejoined]
  use Lexeme.plain_rejoined _ _
  rintro c d hpair hc ⟨m, hm, hd⟩
  obtain _ | ⟨cur, rest⟩ := rest
  · cases hm
  · obtain rfl := Option.some.inj hm
    obtain ⟨hc', -⟩ := class_of_mem_operatorPairs hpair
    obtain ⟨j, rfl⟩ := Atom.exists_of_isPunct_toLexeme hc hc'
    rw [Atom.toLexeme, Lexeme.rejoined, Lexeme.isJoint, hc', joins_textAfter hpair hc hd]
    rfl

/-- Atoms in a row are read again from what is printed for them after others. -/
theorem readAgainAll_rereadAfter (prev : Atom) (rest : List Atom) :
  ReadAgainAll ((prev :: rest).map Atom.toLexeme)
    ((prev.rejoined (textAfter before prev rest) :: rereadAfter prev rest).map Atom.toLexeme)
  := by
  induction rest generalizing before prev with
  | nil => exact .cons (readAgain_rejoined prev []) .nil
  | cons cur rest ih => exact .cons (readAgain_rejoined prev (cur :: rest)) (ih cur)

theorem readAgainAll_reread (atoms : List Atom) :
  ReadAgainAll (atoms.map Atom.toLexeme) ((reread atoms).map Atom.toLexeme)
  := by
  cases atoms with
  | nil => exact .nil
  | cons first rest => apply readAgainAll_rereadAfter

end Reread

/-! ### Trees that are read again -/

/-- The lexeme that trees start with, unless they start with a group. -/
def firstLexeme? (trees : List TokenTree) : Option Lexeme := trees.head?.bind TokenTree.lexeme?

/-- Trees that stand side by side, and what they are read as where they are printed. -/
inductive TreesReadAgain : List TokenTree → List TokenTree → Prop
  | nil : TreesReadAgain [] []
  | token {t t' : Token} {u u' : List TokenTree} :
      ReadAgain t.lexeme t'.lexeme (firstLexeme? u) → TreesReadAgain u u' →
      TreesReadAgain (.token t :: u) (.token t' :: u')
  | group {d : Delimiter} {inside inside' u u' : List TokenTree} {opening closing opening' closing' : Span} :
      TreesReadAgain inside inside' → TreesReadAgain u u' →
      TreesReadAgain (.group d inside opening closing :: u) (.group d inside' opening' closing' :: u')

section Trees

variable {u u' : List TokenTree} {lexemes lexemes' : List Lexeme} {op : List Char} {c d : Char}

theorem ReadAgain.of_next {l l' : Lexeme} {next next' : Option Lexeme} (h : ReadAgain l l' next)
    (hnext : ∀ m ∈ next', m ∈ next) :
  ReadAgain l l' next'
  := by
  use h.plain_eq
  rintro c d hpair hc ⟨m, hm, hd⟩
  exact h.isJoint_eq hpair hc ⟨m, hnext m hm, hd⟩

/-- A lexeme that trees start with is the first of their lexemes. -/
theorem mem_head?_of_firstLexeme? :
  ∀ m ∈ firstLexeme? u, m ∈ ((tokensAll u).map (·.lexeme) ++ lexemes).head?
  := by
  intro m hm
  obtain _ | ⟨⟨t⟩ | ⟨⟩, u⟩ := u
  · cases hm
  · exact hm
  · cases hm

/-- Trees whose tokens are read again, and which are built alike, are read again. -/
theorem treesReadAgain_of_tokens (hbare : bareAll u' = bareAll u)
    (h : ReadAgainAll ((tokensAll u).map (·.lexeme) ++ lexemes)
      ((tokensAll u').map (·.lexeme) ++ lexemes')) :
  TreesReadAgain u u' ∧ ReadAgainAll lexemes lexemes'
  := by
  induction u using induction_siblings generalizing u' lexemes lexemes' with
  | nil =>
      obtain _ | ⟨tree, u'⟩ := u'
      · use .nil, h
      · cases hbare
  | token t u ih =>
      obtain _ | ⟨⟨t'⟩ | ⟨⟩, u'⟩ := u'
      · cases hbare
      · rw [bareAll, bareAll] at hbare
        obtain _ | ⟨hfirst, hrest⟩ := h
        obtain ⟨hu, hlexemes⟩ := ih (List.cons_eq_cons.mp hbare).2 hrest
        use .token (hfirst.of_next mem_head?_of_firstLexeme?) hu, hlexemes
      · cases hbare
  | group d inside opening closing u ihinside ih =>
      obtain _ | ⟨⟨t'⟩ | ⟨d', inside', opening', closing'⟩, u'⟩ := u'
      · cases hbare
      · cases hbare
      · rw [bareAll, bareAll, bare, bare] at hbare
        obtain ⟨hgroup, hrest⟩ := List.cons_eq_cons.mp hbare
        obtain ⟨rfl, hinside, -, -⟩ := TokenTree.group.inj hgroup
        simp only [tokensAll, TokenTree.tokens, List.map_cons, List.map_append, List.cons_append,
          List.append_assoc, List.nil_append] at h
        obtain _ | ⟨-, h⟩ := h
        obtain ⟨hinside, _ | ⟨-, h⟩⟩ := ihinside hinside h
        obtain ⟨hu, hlexemes⟩ := ih hrest h
        use .group hinside hu, hlexemes

theorem TreesReadAgain.drop (h : TreesReadAgain u u') (i : Nat) :
  TreesReadAgain (u.drop i) (u'.drop i)
  := by
  induction h generalizing i with
  | nil => simpa using .nil
  | token ht hu ih =>
      cases i with
      | zero => exact .token ht hu
      | succ i => exact ih i
  | group hinside hu _ ih =>
      cases i with
      | zero => exact .group hinside hu
      | succ i => exact ih i

/-- The same paths lead to groups in trees that are read again, and what is inside is read again. -/
theorem TreesReadAgain.siblingsAt (h : TreesReadAgain u u') (path : List Nat) :
  Option.Rel TreesReadAgain (siblingsAt path u) (siblingsAt path u')
  := by
  induction path generalizing u u' with
  | nil => exact .some h
  | cons i path ih =>
      rw [TokenTree.siblingsAt, TokenTree.siblingsAt, ← List.head?_drop, ← List.head?_drop]
      have hdrop := h.drop i
      generalize u.drop i = v at hdrop
      generalize u'.drop i = v' at hdrop
      cases hdrop with
      | nil => exact .none
      | token => exact .none
      | group hinside => exact ih hinside

/-! ### Operators -/

/-- Whether the trees start with characters that are read as an operator where they are printed. -/
def printsOperator : List Char → List TokenTree → Bool
  | [], _ => true
  | [c], trees => atPunct c trees
  | c :: d :: op, .token t :: trees =>
    t.lexeme.isPunct c && (t.lexeme.isJoint || sticks c d) && printsOperator (d :: op) trees
  | _ :: _ :: _, _ => false

theorem TreesReadAgain.atPunct (h : TreesReadAgain u u') (c : Char) :
  atPunct c u' = atPunct c u
  := by
  cases h with
  | nil => rfl
  | token ht _ =>
      rw [TokenTree.atPunct, TokenTree.atPunct, atLexeme, atLexeme, ← Lexeme.isPunct_plain, ht.plain_eq,
        Lexeme.isPunct_plain]
  | group => rfl

theorem atPunct_of_printsOperator (h : printsOperator (c :: op) u) :
  TokenTree.atPunct c u
  := by
  obtain _ | ⟨d, op⟩ := op
  · exact h
  · obtain _ | ⟨⟨t⟩ | ⟨⟩, u⟩ := u
    · cases h
    · rw [printsOperator, Bool.and_eq_true, Bool.and_eq_true] at h
      exact h.1.1
    · cases h

theorem exists_firstLexeme? (h : TokenTree.atPunct c u) :
  ∃ m ∈ firstLexeme? u, m.isPunct c
  := by
  obtain _ | ⟨⟨t⟩ | ⟨⟩, u⟩ := u
  · cases h
  · exact ⟨t.lexeme, rfl, h⟩
  · cases h

/-- The operators of trees that are read again are those that are read where the trees are printed. -/
theorem TreesReadAgain.atOperator (h : TreesReadAgain u u')
    (hop : ∀ p ∈ op.zip op.tail, p ∈ operatorPairs) :
  atOperator op u' = printsOperator op u
  := by
  induction op generalizing u u' with
  | nil => cases u' <;> rfl
  | cons c op ih =>
      obtain _ | ⟨d, op⟩ := op
      · exact h.atPunct c
      rw [List.tail_cons, List.zip_cons_cons, List.forall_mem_cons] at hop
      cases h with
      | nil => rfl
      | group => rfl
      | @token t t' u u' ht hu =>
          have hpunct : t'.lexeme.isPunct c = t.lexeme.isPunct c := by
            rw [← Lexeme.isPunct_plain, ht.plain_eq, Lexeme.isPunct_plain]
          rw [atOperator_cons_token, printsOperator, ih hu hop.2, hpunct]
          -- Whether the first character is joint counts only if the second one follows.
          cases hlater : printsOperator (d :: op) u with
          | false => rw [Bool.and_false, Bool.and_false]
          | true =>
              cases hc : t.lexeme.isPunct c with
              | false => rfl
              | true =>
                  rw [ht.isJoint_eq hop.1 hc (exists_firstLexeme? (atPunct_of_printsOperator hlater))]

theorem printsOperator_of_not_sticks (hop : ∀ p ∈ op.zip op.tail, sticks p.1 p.2 = false) :
  printsOperator op u = atOperator op u
  := by
  induction op generalizing u with
  | nil => cases u <;> rfl
  | cons c op ih =>
      obtain _ | ⟨d, op⟩ := op
      · rfl
      rw [List.tail_cons, List.zip_cons_cons, List.forall_mem_cons] at hop
      obtain _ | ⟨⟨t⟩ | ⟨⟩, u⟩ := u
      · rfl
      · rw [printsOperator, atOperator_cons_token, ih hop.2, hop.1, Bool.or_false]
      · rfl

/-- The operator of an inclusive range is also read where its second point was not joint. -/
theorem printsOperator_range :
  printsOperator ['.', '.', '='] u = (atOperator ['.', '.', '='] u || startsLooseRange u)
  := by
  obtain _ | ⟨⟨first⟩ | ⟨⟩, _ | ⟨⟨second⟩ | ⟨⟩, u⟩⟩ := u
  case cons.token.cons.token =>
    have hapart : sticks '.' '.' = false := rfl
    have hsticks : sticks '.' '=' = true := rfl
    rw [printsOperator, printsOperator, printsOperator, atOperator_cons_token, atOperator_cons_token,
      startsLooseRange, Lexeme.beq_punct, Lexeme.beq_punct, hapart, hsticks, TokenTree.atOperator]
    cases second.lexeme.isJoint <;> simp [Bool.and_assoc]
  all_goals simp [printsOperator, TokenTree.atOperator, startsLooseRange]

theorem not_atOperator_of_startsLooseRange (h : startsLooseRange u) :
  atOperator ['.', '.', '='] u = false
  := by
  obtain _ | ⟨⟨first⟩ | ⟨⟩, _ | ⟨⟨second⟩ | ⟨⟩, u⟩⟩ := u
  case cons.token.cons.token =>
    rw [startsLooseRange, Bool.and_eq_true, Bool.and_eq_true, beq_iff_eq, beq_iff_eq] at h
    rw [atOperator_cons_token, atOperator_cons_token, h.1.2]
    simp [Lexeme.isJoint]
  all_goals cases h

/-- An operator is read where trees are printed if it was there, or if it is that of an inclusive
range whose second point was not joint. -/
theorem printsOperator_of_mem (h : op ∈ operators) :
  printsOperator op u = (atOperator op u || op == ['.', '.', '='] && startsLooseRange u)
  := by
  have hall : operators.all fun op =>
      op == ['.', '.', '='] || (op.zip op.tail).all fun p => !sticks p.1 p.2 := by
    decide
  by_cases hrange : op = ['.', '.', '=']
  · subst hrange
    exact printsOperator_range
  · have hop := List.all_eq_true.mp hall op h
    rw [beq_eq_false_iff_ne.mpr hrange, Bool.false_or] at hop
    rw [beq_eq_false_iff_ne.mpr hrange, Bool.false_and, Bool.or_false]
    apply printsOperator_of_not_sticks
    simpa using hop

/-- At every position in every group of trees that are read again, there are the operators that are
read where the trees are printed. -/
theorem TreesReadAgain.map_atOperator (h : TreesReadAgain u u') (hop : op ∈ operators)
    (path : List Nat) (i : Nat) :
  (TokenTree.siblingsAt path u').map (fun v => TokenTree.atOperator op (v.drop i)) =
    (TokenTree.siblingsAt path u).map fun v => printsOperator op (v.drop i)
  := by
  have hpairs : ∀ p ∈ op.zip op.tail, p ∈ operatorPairs :=
    fun p hp => List.mem_flatMap.mpr ⟨op, hop, hp⟩
  have hinside := h.siblingsAt path
  generalize TokenTree.siblingsAt path u = v at hinside
  generalize TokenTree.siblingsAt path u' = v' at hinside
  cases hinside with
  | none => rfl
  | some hv => exact congrArg some ((hv.drop i).atOperator hpairs)

end Trees

section Print

variable {file file' : String} {source : List Char} {trees trees' : List TokenTree}

/-- Trees that are read again from what is printed for them, token for token, are built as they were,
from the atoms as they are read there. -/
theorem reread_of_ofText (h : ofText file source = .ok trees)
    (h' : ofText file' (print trees) = .ok trees') (hflat : flatAll trees' = flatAll trees) :
  bareAll trees' = bareAll trees ∧
    (tokensAll trees').map (·.lexeme) = (reread (atomsAll trees)).map Atom.toLexeme
  := by
  have hfuses := fuses_of_ofText h h' hflat
  obtain ⟨_, hagain, hbare⟩ := exists_ofText_print h hfuses file'
  obtain rfl := Except.ok.inj (h'.symm.trans hagain)
  use hbare
  obtain ⟨hstands, hchain⟩ := stands_of_ofText h
  obtain ⟨-, htokens⟩ := tokensOf_eq_ok.mp (tokensOf_of_ofText h').1
  rw [← htokens]
  apply lexemes_textOf hstands hchain hfuses

/-- Trees that are read again from what is printed for them, token for token. -/
theorem treesReadAgain_of_ofText (h : ofText file source = .ok trees)
    (h' : ofText file' (print trees) = .ok trees') (hflat : flatAll trees' = flatAll trees) :
  TreesReadAgain trees trees'
  := by
  obtain ⟨hbare, htokens⟩ := reread_of_ofText h h' hflat
  have hread := readAgainAll_reread (atomsAll trees)
  rw [← htokens, map_toLexeme_atomsAll, ← List.append_nil ((tokensAll trees).map _),
    ← List.append_nil ((tokensAll trees').map _)] at hread
  exact (treesReadAgain_of_tokens hbare hread).1

/-- Trees that are read again from what is printed for them, token for token, have the same operators
at all positions in all groups, exactly if nowhere two points and an equals sign follow each other of
which only the first is joint. -/
theorem atOperator_print_iff (h : ofText file source = .ok trees)
    (h' : ofText file' (print trees) = .ok trees') (hflat : flatAll trees' = flatAll trees) :
  (∀ op ∈ operators, ∀ path i,
      (siblingsAt path trees').map (fun v => atOperator op (v.drop i)) =
        (siblingsAt path trees).map fun u => atOperator op (u.drop i)) ↔
    holdLooseRange trees = false
  := by
  have hagain := treesReadAgain_of_ofText h h' hflat
  constructor
  · intro hsame
    by_contra hloose
    rw [Bool.not_eq_false] at hloose
    obtain ⟨path, i, u, hu, hstarts⟩ := holdLooseRange_iff.mp hloose
    have hrange := hsame ['.', '.', '='] (by decide) path i
    rw [hagain.map_atOperator (by decide), Option.mem_def.mp hu, Option.map_some, Option.map_some,
      Option.some.injEq, printsOperator_range, hstarts, not_atOperator_of_startsLooseRange hstarts]
      at hrange
    cases hrange
  · intro hloose op hop path i
    rw [hagain.map_atOperator hop]
    cases hu : siblingsAt path trees with
    | none => rfl
    | some u =>
        have hstarts : startsLooseRange (u.drop i) = false := by
          by_contra hstarts
          rw [Bool.not_eq_false] at hstarts
          rw [holdLooseRange_iff.mpr ⟨path, i, u, hu, hstarts⟩] at hloose
          cases hloose
        rw [Option.map_some, Option.map_some, printsOperator_of_mem hop, hstarts, Bool.and_false,
          Bool.or_false]

theorem atOperator_print_iff_nested :
  ∃ trees trees',
    ofText "f.rs" "a<<=b..=c; { d < < e && !f :: g(x ->y) . .h }".toList = .ok trees ∧
    print trees = "a<<= b..= c; { d< <e && !f::g(x -> y). .h }".toList ∧
    ofText "f.rs" (print trees) = .ok trees' ∧ flatAll trees' = flatAll trees ∧
    holdLooseRange trees = false ∧
    ∀ op ∈ operators, ∀ path i,
      (siblingsAt path trees').map (fun v => atOperator op (v.drop i)) =
        (siblingsAt path trees).map fun u => atOperator op (u.drop i)
  := by
  obtain ⟨trees, h, htrees⟩ := Outcome.exists_of_any
    (x := ofText "f.rs" "a<<=b..=c; { d < < e && !f :: g(x ->y) . .h }".toList)
    (p := fun trees => !holdLooseRange trees &&
      print trees == "a<<= b..= c; { d< <e && !f::g(x -> y). .h }".toList &&
      (ofText "f.rs" (print trees)).toOption.any fun trees' => flatAll trees' == flatAll trees)
    (by decide +kernel)
  simp only [Bool.and_eq_true, Bool.not_eq_true', beq_iff_eq] at htrees
  obtain ⟨⟨hloose, hprint⟩, hany⟩ := htrees
  obtain ⟨trees', h', hflat⟩ := Outcome.exists_of_any hany
  rw [beq_iff_eq] at hflat
  exact ⟨trees, trees', h, hprint, h', hflat, hloose, (atOperator_print_iff h h' hflat).mpr hloose⟩

/-- A range and an equals sign behind a blank are printed as an inclusive range. -/
theorem not_atOperator_print_looseRange :
  ∃ trees trees', ofText "f.rs" "a.. =b".toList = .ok trees ∧
    ofText "f.rs" (print trees) = .ok trees' ∧ flatAll trees' = flatAll trees ∧
    ¬∀ op ∈ operators, ∀ path i,
      (siblingsAt path trees').map (fun v => atOperator op (v.drop i)) =
        (siblingsAt path trees).map fun u => atOperator op (u.drop i)
  := by
  obtain ⟨trees, h, htrees⟩ := Outcome.exists_of_any (x := ofText "f.rs" "a.. =b".toList)
    (p := fun trees => !atOperator ['.', '.', '='] (trees.drop 1) &&
      (ofText "f.rs" (print trees)).toOption.any fun trees' =>
        flatAll trees' == flatAll trees && atOperator ['.', '.', '='] (trees'.drop 1))
    (by decide +kernel)
  rw [Bool.and_eq_true, Bool.not_eq_true'] at htrees
  obtain ⟨trees', h', htrees'⟩ := Outcome.exists_of_any htrees.2
  rw [Bool.and_eq_true, beq_iff_eq] at htrees'
  refine ⟨trees, trees', h, h', htrees'.1, fun hsame => ?_⟩
  have hrange := hsame ['.', '.', '='] (by decide) [] 1
  rw [siblingsAt, siblingsAt, Option.map_some, Option.map_some, htrees.1, htrees'.2] at hrange
  cases hrange

end Print

end Printer

end ReturnCaptures
