import ReturnCaptures.Proofs.Lexing
import ReturnCaptures.TokenTree.Build

/-!
# The tokens of trees

Trees unfold to the tokens that they are built from: a group is its opening delimiter, the
tokens inside it, and its closing delimiter. Building trees undoes the unfolding, and looks at
nothing but the lexemes of the tokens.
-/

namespace ReturnCaptures

/-- Whether a lexeme opens or closes a group. -/
def Lexeme.isDelimiter : Lexeme → Bool
  | .punct c _ => (Delimiter.ofOpening? c).isSome || (Delimiter.ofClosing? c).isSome
  | _ => false

/-- A delimiter that trees hold is joint to nothing; other tokens are held as they are. -/
def Token.settled (t : Token) : Token :=
  if t.lexeme.isDelimiter then ⟨t.lexeme.plain, t.span⟩ else t

theorem Token.settled_eq_self {t : Token} (h : t.lexeme.isDelimiter → t.lexeme.isJoint = false) :
  t.settled = t
  := by
  rw [Token.settled]
  split
  case isTrue hdelimiter =>
    obtain ⟨l, span⟩ := t
    cases l with
    | punct c joint =>
        obtain rfl : joint = false := h hdelimiter
        rfl
    | _ => rfl
  case isFalse => rfl

namespace Delimiter

theorem opening_ofOpening? {c : Char} {d : Delimiter} (h : ofOpening? c = some d) :
  d.opening = c
  := by
  rw [ofOpening?.eq_def] at h
  split at h <;> cases h <;> rfl

theorem closing_ofClosing? {c : Char} {d : Delimiter} (h : ofClosing? c = some d) :
  d.closing = c
  := by
  rw [ofClosing?.eq_def] at h
  split at h <;> cases h <;> rfl

end Delimiter

namespace TokenTree

/-- Induction on trees that stand side by side, and on those inside the first of them. -/
theorem induction_siblings {motive : List TokenTree → Prop} (nil : motive [])
    (token : ∀ t trees, motive trees → motive (.token t :: trees))
    (group : ∀ d inside opening closing trees, motive inside → motive trees →
      motive (.group d inside opening closing :: trees)) :
    ∀ trees, motive trees
  | [] => nil
  | .token t :: trees => token t trees (induction_siblings nil token group trees)
  | .group d inside opening closing :: trees =>
    group d inside opening closing trees (induction_siblings nil token group inside)
      (induction_siblings nil token group trees)

mutual

/-- The tokens that a tree is built from. -/
def tokens : TokenTree → List Token
  | .token t => [t]
  | .group delimiter trees opening closing =>
    ⟨.punct delimiter.opening false, opening⟩ ::
      (tokensAll trees ++ [⟨.punct delimiter.closing false, closing⟩])

/-- The tokens that several trees are built from. -/
def tokensAll : List TokenTree → List Token
  | [] => []
  | tree :: trees => tree.tokens ++ tokensAll trees

end

mutual

/-- A tree without its spans, no matter whether its lexemes are joint. -/
def bare : TokenTree → TokenTree
  | .token t => .token ⟨t.lexeme.plain, .fileStart ""⟩
  | .group delimiter trees _ _ => .group delimiter (bareAll trees) (.fileStart "") (.fileStart "")

/-- Several trees without their spans. -/
def bareAll : List TokenTree → List TokenTree
  | [] => []
  | tree :: trees => tree.bare :: bareAll trees

end

/-- The lexemes of the tokens that trees are built from, no matter whether they are joint. -/
def lexemesAll (trees : List TokenTree) : List Lexeme :=
  (tokensAll trees).map (·.lexeme.plain)

section Unfold

variable {u v trees : List TokenTree} {tree : TokenTree}

theorem tokensAll_append :
  tokensAll (u ++ v) = tokensAll u ++ tokensAll v
  := by
  induction u with
  | nil => rfl
  | cons tree u ih => rw [List.cons_append, tokensAll, ih, tokensAll, List.append_assoc]

theorem tokensAll_singleton :
  tokensAll [tree] = tree.tokens
  := by
  rw [tokensAll, tokensAll, List.append_nil]

/-- The flat form of trees lists the texts of their tokens. -/
theorem flatAll_eq_map (trees : List TokenTree) :
  flatAll trees = (lexemesAll trees).map Lexeme.text
  := by
  rw [lexemesAll, List.map_map]
  induction trees using induction_siblings with
  | nil => rfl
  | token t trees ih =>
      rw [flatAll, ih, tokensAll, List.map_append]
      simp [flat, tokens, Token.text]
  | group d inside opening closing trees ihinside ih =>
      rw [flatAll, ih, tokensAll, List.map_append, flat, ihinside]
      simp [tokens, Lexeme.text, Lexeme.plain]

theorem flatAll_bareAll (trees : List TokenTree) :
  flatAll (bareAll trees) = flatAll trees
  := by
  induction trees using induction_siblings with
  | nil => rfl
  | token t trees ih =>
      rw [bareAll, flatAll, ih, flatAll, bare, flat, flat, Token.text, Token.text,
        Lexeme.text_plain]
  | group d inside opening closing trees ihinside ih =>
      rw [bareAll, flatAll, ih, flatAll, bare, flat, flat, ihinside]

end Unfold

/-! ### Building -/

mutual

/-- Whether no token of a tree is a delimiter. -/
def isProper : TokenTree → Bool
  | .token t => !t.lexeme.isDelimiter
  | .group _ trees _ _ => areProper trees

/-- Whether no token of several trees is a delimiter. -/
def areProper : List TokenTree → Bool
  | [] => true
  | tree :: trees => tree.isProper && areProper trees

end

section Read

variable {stack : List OpenGroup} {current trees u v : List TokenTree} {t : Token}
  {tokens : List Token} {d : Delimiter}

theorem areProper_iff :
  areProper trees ↔ ∀ tree ∈ trees, tree.isProper
  := by
  induction trees with
  | nil => simp [areProper]
  | cons tree trees ih => simp [areProper, ih]

theorem areProper_append :
  areProper (u ++ v) ↔ areProper u ∧ areProper v
  := by
  simp only [areProper_iff, List.forall_mem_append]

theorem read_token (ht : t.lexeme.isDelimiter = false) :
  read stack current (t :: tokens) = read stack (.token t :: current) tokens
  := by
  rw [read]
  split
  case h_1 symbol joint hl =>
    simp only [hl, Lexeme.isDelimiter, Bool.or_eq_false_iff, Option.isSome_eq_false_iff,
      Option.isNone_iff_eq_none] at ht
    simp only [ht]
  case h_2 => rfl

theorem read_opening {j : Bool} (ht : t.lexeme = .punct d.opening j) :
  read stack current (t :: tokens) = read (⟨d, t.span, current⟩ :: stack) [] tokens
  := by
  rw [read, ht]
  cases d <;> rfl

theorem read_closing {j : Bool} {opening : Span} {before : List TokenTree}
    (ht : t.lexeme = .punct d.closing j) :
  read (⟨d, opening, before⟩ :: stack) current (t :: tokens) =
    read stack (.group d current.reverse opening t.span :: before) tokens
  := by
  rw [read, ht]
  cases d <;> rfl

/-- A closing delimiter closes the innermost open group. -/
theorem exists_of_read_closing {j : Bool} (ht : t.lexeme = .punct d.closing j)
    (h : read stack current (t :: tokens) = .ok trees) :
  ∃ opening before outer, stack = ⟨d, opening, before⟩ :: outer ∧
    read outer (.group d current.reverse opening t.span :: before) tokens = .ok trees
  := by
  obtain _ | ⟨⟨e, opening, before⟩, outer⟩ := stack
  · rw [read.eq_def] at h
    simp only [ht] at h
    cases d <;> cases h
  · by_cases he : e = d
    · subst he
      rw [read_closing ht] at h
      use opening, before, outer
    · rw [read.eq_def] at h
      simp only [ht] at h
      cases d <;> cases e <;> contradiction

theorem exists_joint_of_plain {l : Lexeme} {c : Char} (h : l.plain = .punct c false) :
  ∃ j, l = .punct c j
  := by
  cases l with
  | punct symbol j =>
      use j
      rw [(Lexeme.punct.inj h).1]
  | _ => cases h

theorem isDelimiter_plain (l : Lexeme) :
  l.plain.isDelimiter = l.isDelimiter
  := by
  cases l <;> rfl

/-- Tokens with the lexemes of given trees are read as these trees, but for their spans. -/
theorem read_append (hu : areProper u) (h : tokens.map (·.lexeme.plain) = lexemesAll u) :
  ∃ v, bareAll v = bareAll u ∧ ∀ stack current rest,
    read stack current (tokens ++ rest) = read stack (v.reverse ++ current) rest
  := by
  induction u using induction_siblings generalizing tokens with
  | nil =>
      obtain rfl := List.map_eq_nil_iff.mp h
      use [], rfl
      simp
  | token t u ih =>
      obtain ⟨t', tokens, rfl, ht, htokens⟩ := List.map_eq_cons_iff.mp h
      rw [areProper, Bool.and_eq_true] at hu
      obtain ⟨v, hv, hread⟩ := ih hu.2 htokens
      have hno : t'.lexeme.isDelimiter = false := by
        rw [← isDelimiter_plain, ht, isDelimiter_plain]
        simpa [isProper] using hu.1
      use .token t' :: v
      constructor
      · rw [bareAll, bareAll, hv, bare, bare, ht]
      · intro stack current rest
        rw [List.cons_append, read_token hno, hread]
        simp
  | group d inside opening closing u ihinside ih =>
      rw [areProper, isProper, Bool.and_eq_true] at hu
      rw [lexemesAll, tokensAll, TokenTree.tokens, List.cons_append, List.append_assoc,
        List.singleton_append, List.map_cons, List.map_append, List.map_cons] at h
      obtain ⟨first, r, rfl, hfirst, hr⟩ := List.map_eq_cons_iff.mp h
      obtain ⟨within, r, rfl, hwithin, hr⟩ := List.map_eq_append_iff.mp hr
      obtain ⟨last, tokens, rfl, hlast, htokens⟩ := List.map_eq_cons_iff.mp hr
      obtain ⟨j, hfirst⟩ := exists_joint_of_plain hfirst
      obtain ⟨k, hlast⟩ := exists_joint_of_plain hlast
      obtain ⟨v, hv, hreadv⟩ := ihinside hu.1 hwithin
      obtain ⟨w, hw, hreadw⟩ := ih hu.2 htokens
      use .group d v first.span last.span :: w
      constructor
      · rw [bareAll, bareAll, hw, bare, bare, hv]
      · intro stack current rest
        rw [List.cons_append, read_opening hfirst, List.append_assoc, hreadv, List.append_nil,
          List.cons_append, read_closing hlast, List.reverse_reverse, hreadw]
        simp

/-- Tokens with the lexemes of given trees form these trees, but for their spans. -/
theorem exists_ofTokens (hu : areProper u) (h : tokens.map (·.lexeme.plain) = lexemesAll u) :
  ∃ v, ofTokens tokens = .ok v ∧ bareAll v = bareAll u
  := by
  obtain ⟨v, hv, hread⟩ := read_append hu h
  use v
  constructor
  · rw [ofTokens, ← List.append_nil tokens, hread, List.append_nil, read, List.reverse_reverse]
    rfl
  · apply hv

/-! ### What trees were built from -/

/-- The tokens of the groups that are open, up to the innermost of them. -/
def openTokens : List OpenGroup → List Token
  | [] => []
  | g :: outer =>
    openTokens outer ++ tokensAll g.before.reverse ++ [⟨.punct g.delimiter.opening false, g.opening⟩]

/-- A lexeme is no delimiter, or opens a group, or closes one. -/
theorem delimiter_cases (l : Lexeme) :
  l.isDelimiter = false ∨ (∃ d : Delimiter, l = .punct d.opening l.isJoint) ∨
    ∃ d : Delimiter, l = .punct d.closing l.isJoint
  := by
  cases l with
  | punct c j =>
      by_cases ho : (Delimiter.ofOpening? c).isSome
      · obtain ⟨d, hd⟩ := Option.isSome_iff_exists.mp ho
        right
        left
        use d
        rw [Delimiter.opening_ofOpening? hd]
        rfl
      · by_cases hc : (Delimiter.ofClosing? c).isSome
        · obtain ⟨d, hd⟩ := Option.isSome_iff_exists.mp hc
          right
          right
          use d
          rw [Delimiter.closing_ofClosing? hd]
          rfl
        · left
          simp [Lexeme.isDelimiter, ho, hc]
  | _ => left; rfl

/-- The tokens of the trees that are built are the tokens that were read. -/
theorem tokensAll_of_read (h : read stack current tokens = .ok trees) :
  tokensAll trees = openTokens stack ++ tokensAll current.reverse ++ tokens.map Token.settled
  := by
  induction tokens generalizing stack current with
  | nil =>
      cases stack with
      | nil =>
        cases h
        simp [openTokens]
      | cons => cases h
  | cons t tokens ih =>
      rw [List.map_cons]
      rcases delimiter_cases t.lexeme with hno | ⟨d, hopening⟩ | ⟨d, hclosing⟩
      · rw [read_token hno] at h
        rw [ih h, List.reverse_cons, tokensAll_append, tokensAll_singleton]
        simp [TokenTree.tokens, Token.settled, hno]
      · have hsettled : t.settled = ⟨.punct d.opening false, t.span⟩ := by
          rw [Token.settled, hopening]
          cases d <;> rfl
        rw [read_opening hopening] at h
        rw [ih h, openTokens, hsettled]
        simp [tokensAll]
      · have hsettled : t.settled = ⟨.punct d.closing false, t.span⟩ := by
          rw [Token.settled, hclosing]
          cases d <;> rfl
        obtain ⟨opening, before, outer, rfl, hrest⟩ := exists_of_read_closing hclosing h
        rw [ih hrest, openTokens, List.reverse_cons, tokensAll_append, tokensAll_singleton,
          TokenTree.tokens, hsettled]
        simp

/-- Tokens whose delimiters are joint to nothing are those of the trees built from them. -/
theorem tokensAll_eq_of_read (h : read [] [] tokens = .ok trees)
    (hd : ∀ t ∈ tokens, t.lexeme.isDelimiter → t.lexeme.isJoint = false) :
  tokensAll trees = tokens
  := by
  rw [tokensAll_of_read h]
  calc tokens.map Token.settled
    _ = tokens.map id := List.map_congr_left fun t ht => Token.settled_eq_self (hd t ht)
    _ = tokens := List.map_id tokens

/-- The trees that are built hold no delimiters among their tokens. -/
theorem areProper_of_read (h : read stack current tokens = .ok trees)
    (hcurrent : areProper current) (hstack : ∀ g ∈ stack, areProper g.before) :
  areProper trees
  := by
  have hreverse {u : List TokenTree} (hu : areProper u) : areProper u.reverse := by
    rw [areProper_iff] at hu ⊢
    simpa using hu
  induction tokens generalizing stack current with
  | nil =>
      cases stack with
      | nil =>
        cases h
        apply hreverse hcurrent
      | cons => cases h
  | cons t tokens ih =>
      rcases delimiter_cases t.lexeme with hno | ⟨d, hopening⟩ | ⟨d, hclosing⟩
      · rw [read_token hno] at h
        apply ih h _ hstack
        simp [areProper, isProper, hno, hcurrent]
      · rw [read_opening hopening] at h
        apply ih h rfl
        rw [List.forall_mem_cons]
        use hcurrent
      · obtain ⟨opening, before, outer, rfl, hrest⟩ := exists_of_read_closing hclosing h
        rw [List.forall_mem_cons] at hstack
        apply ih hrest _ hstack.2
        simp [areProper, isProper, hreverse hcurrent, hstack.1]

end Read

end TokenTree

end ReturnCaptures
