import ReturnCaptures.Proofs.Embedding
import ReturnCaptures.Proofs.Places

/-!
# Tokens and the gaps between them

The tokens of a text tile it. They stand one behind the other, each is spelled by the characters
that it covers, and in front of the first one, between two of them and behind the last one there
is a gap: whitespace, line comments up to the ends of their lines, and block comments with all
comments inside them closed, none of which documents anything.
-/

namespace ReturnCaptures

open Scan TokenTree

/-! ### Comments -/

/-- A text starts at the end of a line: with a line feed, perhaps behind a carriage return, or
with nothing. -/
def AtLineEnd (text : List Char) : Prop :=
  text = [] ∨ text.head? = some '\n' ∨ ∃ rest, text = '\r' :: '\n' :: rest

/-- What is left of a line in front of `rest`: the line ends there and not before. -/
structure LineRest (line rest : List Char) : Prop where
  atEnd : AtLineEnd rest
  inside : ∀ u v, line = u ++ v → v ≠ [] → ¬ AtLineEnd (v ++ rest)

/-- What is left of a block comment behind its opening slash and star, up to and with its closing
star and slash. Every comment that opens inside is closed inside. -/
inductive CommentRest : List Char → Prop
  | close : CommentRest ['*', '/']
  | nested {u v : List Char} :
      CommentRest u → CommentRest v → CommentRest ('/' :: '*' :: (u ++ v))
  | char {c : Char} {u : List Char} :
      ¬ (c = '/' ∧ u.head? = some '*') → ¬ (c = '*' ∧ u.head? = some '/') →
      CommentRest u → CommentRest (c :: u)

/-- Whether a line comment documents something, by what stands behind its two slashes. -/
def LineDocuments (text : List Char) : Prop :=
  text[0]? = some '!' ∨ text[0]? = some '/' ∧ text[1]? ≠ some '/'

/-- Whether a block comment documents something, by what stands behind its slash and star. -/
def BlockDocuments (comment : List Char) : Prop :=
  comment[0]? = some '!' ∨
    comment[0]? = some '*' ∧ comment[1]? ≠ some '*' ∧ comment[1]? ≠ some '/'

/-- A text in front of `rest` that is whitespace and comments that document nothing. -/
inductive Gap : (text rest : List Char) → Prop
  | nil {rest : List Char} : Gap [] rest
  | blank {c : Char} {w rest : List Char} : isWhitespace c → Gap w rest → Gap (c :: w) rest
  | line {line w rest : List Char} :
      LineRest line (w ++ rest) → ¬ LineDocuments line → Gap w rest →
      Gap ('/' :: '/' :: (line ++ w)) rest
  | block {comment w rest : List Char} :
      CommentRest comment → ¬ BlockDocuments comment → Gap w rest →
      Gap ('/' :: '*' :: (comment ++ w)) rest

section Comments

variable {c : Char} {r w u v s rest line comment : List Char} {n : Nat}

theorem lineLength_eq_zero_iff :
  lineLength w = 0 ↔ AtLineEnd w
  := by
  obtain _ | ⟨c, w⟩ := w
  · simp [lineLength, AtLineEnd]
  · rw [lineLength_cons, AtLineEnd]
    by_cases hfeed : c = '\n'
    · simp [hfeed]
    · by_cases hreturn : c = '\r' ∧ w.head? = some '\n'
      · obtain ⟨rfl, hw⟩ := hreturn
        obtain ⟨rest, rfl⟩ := List.head?_eq_some_iff.mp hw
        simp
      · have hne : ∀ rest, c :: w ≠ '\r' :: '\n' :: rest := by
          rintro rest heq
          obtain ⟨rfl, rfl⟩ := List.cons_eq_cons.mp heq
          exact hreturn ⟨rfl, rfl⟩
        simp [hfeed, hreturn, hne]

/-- The measured rest of a line ends the line. -/
theorem lineRest_of_lineLength (h : lineLength (line ++ rest) = line.length) :
  LineRest line rest
  := by
  constructor
  · apply lineLength_eq_zero_iff.mp (lineLength_of_append h)
  · rintro u v rfl hv hend
    rw [← lineLength_eq_zero_iff] at hend
    have hpos := List.length_pos_iff.mpr hv
    -- the line would end where `v` starts
    have hle : lineLength (u ++ (v ++ rest)) ≤ u.length := by
      clear h
      induction u with
      | nil =>
          rw [List.nil_append, hend]
          apply Nat.zero_le
      | cons c u ih =>
          rw [List.cons_append, lineLength_cons]
          split
          case isTrue => apply Nat.zero_le
          case isFalse => apply Nat.succ_le_succ ih
    rw [List.append_assoc, List.length_append] at h
    omega

/-- What is left of several block comments that stand inside of each other. -/
inductive CommentRests : Nat → List Char → Prop
  | none : CommentRests 0 []
  | more {depth : Nat} {u v : List Char} :
      CommentRest u → CommentRests depth v → CommentRests (depth + 1) (u ++ v)

theorem CommentRest.ne_nil (h : CommentRest u) :
  u ≠ []
  := by
  cases h <;> simp

theorem CommentRest.getLast?_eq (h : CommentRest u) :
  u.getLast? = some '/'
  := by
  induction h with
  | close => rfl
  | nested _ _ _ ih => simp [List.getLast?_cons, List.getLast?_append, ih]
  | char _ _ _ ih => simp [List.getLast?_cons, ih]

/-- The measured rest of block comments closes them. -/
theorem commentRests_of_blockLength? {depth : Nat} (h : blockLength? depth s = some n) :
  CommentRests depth (s.take n)
  := by
  fun_induction blockLength? depth s generalizing n with
  | case1 =>
      cases h
      apply CommentRests.none
  | case2 => cases h
  | case3 depth s ih =>
      obtain ⟨m, hm, rfl⟩ := Option.map_eq_some_iff.mp h
      rw [List.take_succ_cons, List.take_succ_cons]
      -- the rest of the inner comment and that of the outer one are one rest of the outer one
      have hrests := ih hm
      generalize s.take m = t at hrests
      obtain _ | ⟨hu, _ | ⟨hv, hrests⟩⟩ := hrests
      rw [← List.append_assoc, ← List.cons_append, ← List.cons_append]
      apply CommentRests.more (.nested hu hv) hrests
  | case4 depth s ih =>
      obtain ⟨m, hm, rfl⟩ := Option.map_eq_some_iff.mp h
      rw [List.take_succ_cons, List.take_succ_cons]
      apply CommentRests.more .close (ih hm)
  | case5 depth c s hopening hclosing ih =>
      obtain ⟨m, hm, rfl⟩ := Option.map_eq_some_iff.mp h
      have hrests := ih hm
      rw [List.take_succ_cons]
      generalize ht : s.take m = t at hrests
      obtain _ | @⟨_, u, v, hu, hrests⟩ := hrests
      have hhead (d : Char) (hd : u.head? = some d) : s.head? = some d := by
        obtain ⟨u, rfl⟩ := List.head?_eq_some_iff.mp hd
        have hhead := congrArg List.head? ht
        rw [List.head?_take] at hhead
        split at hhead
        case isTrue => cases hhead
        case isFalse => apply hhead
      rw [← List.cons_append]
      refine .more (.char ?_ ?_ hu) hrests
      · rintro ⟨rfl, hstar⟩
        obtain ⟨s, rfl⟩ := List.head?_eq_some_iff.mp (hhead _ hstar)
        exact hopening s rfl rfl
      · rintro ⟨rfl, hslash⟩
        obtain ⟨s, rfl⟩ := List.head?_eq_some_iff.mp (hhead _ hslash)
        exact hclosing s rfl rfl

theorem commentRest_of_blockLength? (h : blockLength? 1 s = some n) :
  CommentRest (s.take n)
  := by
  generalize ht : s.take n = t
  have hrests := commentRests_of_blockLength? h
  rw [ht] at hrests
  obtain _ | ⟨hu, _ | _⟩ := hrests
  rwa [List.append_nil]

/-- A line comment that is trivia ends its line and documents nothing. -/
theorem lineRest_of_trivia (h : start '/' ('/' :: (line ++ rest)) = ⟨.trivia, line.length + 2⟩) :
  LineRest line rest ∧ ¬ LineDocuments line
  := by
  rw [start_slashes] at h
  have hlength := congrArg Scan.length h
  rw [length_lineComment, Nat.add_right_cancel_iff] at hlength
  use lineRest_of_lineLength hlength
  have hcomment := lineComment_of_lineLength (lineLength_of_append hlength) hlength
  rw [List.cons_append, List.cons_append] at hcomment
  rw [hcomment] at h
  rintro (hmark | ⟨hslash, hnext⟩)
  · simp [hmark, ofLexeme] at h
  · simp [hslash, hnext, ofLexeme] at h

/-- A block comment that is trivia is closed and documents nothing. -/
theorem commentRest_of_trivia
    (h : start '/' ('*' :: (comment ++ rest)) = ⟨.trivia, comment.length + 2⟩) :
  CommentRest comment ∧ ¬ BlockDocuments comment
  := by
  rw [start_star, blockComment, List.drop_succ_cons, List.drop_succ_cons, List.drop_zero] at h
  split at h
  case h_1 => cases h
  case h_2 n hn =>
    have hlength : n = comment.length := by
      have hlength := congrArg Scan.length h
      split_ifs at hlength
      all_goals
        simp only [ofLexeme] at hlength
        omega
    subst hlength
    have hrest := commentRest_of_blockLength? hn
    rw [List.take_left] at hrest
    use hrest
    -- a rest of a comment has two characters at least, which are those of the text
    have htwo : ∀ i < 2, ('/' :: '*' :: (comment ++ rest))[i + 2]? = comment[i]? := by
      intro i hi
      have hlength : 2 ≤ comment.length := blockLength?_ge hn (by decide)
      rw [List.getElem?_cons_succ, List.getElem?_cons_succ, List.getElem?_append_left (by omega)]
    rw [htwo 0 (by decide), htwo 1 (by decide)] at h
    rintro (hmark | ⟨hstar, hnext, hslash⟩)
    · simp [hmark, ofLexeme] at h
    · simp [hstar, hnext, hslash, ofLexeme] at h

/-- Trivia in front of a gap is a part of the gap. -/
theorem Gap.of_trivia (h : start c (r ++ (w ++ rest)) = ⟨.trivia, r.length + 1⟩) (hw : Gap w rest) :
  Gap (c :: (r ++ w)) rest
  := by
  by_cases hspace : isWhitespace c
  · rw [start, if_pos hspace] at h
    have hlength : 1 = r.length + 1 := congrArg Scan.length h
    obtain rfl : r = [] := List.length_eq_zero_iff.mp (by omega)
    apply Gap.blank hspace hw
  obtain rfl : c = '/' := (first_of_trivia (congrArg Scan.reading h)).resolve_left hspace
  -- the comment takes its second character as well
  have hcons : ∀ d ∈ (r ++ (w ++ rest)).head?, 2 ≤ (start '/' (r ++ (w ++ rest))).length →
      ∃ r', r = d :: r' := by
    intro d hd hle
    rw [h] at hle
    cases r with
    | nil => simp at hle
    | cons e r =>
        cases hd
        use r
  by_cases hslash : (r ++ (w ++ rest)).head? = some '/'
  · obtain ⟨line, rfl⟩ := hcons '/' hslash (by
      obtain ⟨u, hu⟩ := List.head?_eq_some_iff.mp hslash
      rw [hu, start_slashes, length_lineComment]
      omega)
    obtain ⟨hline, hplain⟩ := lineRest_of_trivia h
    apply Gap.line hline hplain hw
  by_cases hstar : (r ++ (w ++ rest)).head? = some '*'
  · obtain ⟨comment, rfl⟩ := hcons '*' hstar (by
      obtain ⟨u, hu⟩ := List.head?_eq_some_iff.mp hstar
      rw [hu, start_star] at h ⊢
      apply two_le_blockComment
      rw [h]
      rfl)
    obtain ⟨hcomment, hplain⟩ := commentRest_of_trivia h
    apply Gap.block hcomment hplain hw
  rw [start_slash hslash hstar] at h
  cases h

end Comments

/-! ### Tokens -/

/-- Tokens that tile a text from an offset on: in front of each one there is a gap, it covers
characters of the text that spell it, one at least, and behind the last one there is a gap up to
the end of the text. -/
inductive Tiles (source : List Char) : Nat → List Token → Prop
  | nil {m : Nat} : m ≤ source.length → Gap (source.drop m) [] → Tiles source m []
  | cons {m : Nat} {t : Token} {tokens : List Token} :
      m ≤ t.span.start → t.span.start < t.span.stop → t.span.stop ≤ source.length →
      Gap (slice source m t.span.start) (source.drop t.span.start) →
      t.span.textIn source = t.text.toList → Tiles source t.span.stop tokens →
      Tiles source m (t :: tokens)

section Tiles

variable {file : String} {source before w : List Char} {tokens : List Token} {p : Piece}
  {m n : Nat}

/-- Tokens that tile a text from behind trivia do so from in front of it. -/
theorem Tiles.of_trivia {c : Char} {r u : List Char}
    (h : start c (r ++ u) = ⟨.trivia, r.length + 1⟩)
    (htiles : Tiles (before ++ c :: (r ++ u)) (before.length + (r.length + 1)) tokens) :
  Tiles (before ++ c :: (r ++ u)) before.length tokens
  := by
  have hdrop : (before ++ c :: (r ++ u)).drop (before.length + (r.length + 1)) = u := by
    rw [← List.drop_drop, List.drop_left, List.drop_succ_cons, List.drop_left]
  obtain ⟨hm, hgap⟩ | @⟨_, t, _, hm, hlt, hle, hgap, htext, htokens⟩ := htiles
  · rw [hdrop] at hgap
    apply Tiles.nil
    · rw [List.length_append]
      omega
    · rw [List.drop_left]
      apply Gap.of_trivia _ hgap
      rwa [List.append_nil]
  · refine .cons (by omega) hlt hle ?_ htext htokens
    have hslice : slice (before ++ c :: (r ++ u)) before.length (before.length + (r.length + 1)) =
        c :: r := by
      rw [slice, List.drop_left, Nat.add_sub_cancel_left, List.take_succ_cons, List.take_left]
    rw [← slice_append_slice (Nat.le_add_right _ _) hm, hslice]
    apply Gap.of_trivia _ hgap
    rw [slice_append_drop hm, hdrop, h]

/-- The tokens of the rest of a text without faults tile it. -/
theorem tiles_tokensAt (hclean : ∀ p ∈ pieces w, p.isClean) :
  Tiles (before ++ w) before.length (tokensAt file (Position.origin.after before) (pieces w))
  := by
  generalize hps : pieces w = ps at hclean
  induction ps generalizing before w with
  | nil =>
      have htext := textOf_pieces w
      rw [hps, textOf_nil] at htext
      subst htext
      apply Tiles.nil
      · simp
      · rw [List.append_nil, List.drop_length]
        apply Gap.nil
  | cons p ps ih =>
      obtain ⟨c, r, u, rfl, rfl, hlength, rfl⟩ := exists_of_pieces hps
      rw [List.forall_mem_cons] at hclean
      have hrest := @ih (before ++ c :: r) u rfl hclean.2
      rw [List.append_assoc, List.cons_append, List.length_append, List.length_cons,
        Position.after_append] at hrest
      rw [tokensAt_cons]
      cases hreading : (start c (r ++ u)).reading with
      | fault =>
          rw [Piece.isClean, hreading] at hclean
          cases hclean.1
      | trivia =>
          apply Tiles.of_trivia _ hrest
          rw [← hreading, ← hlength]
      | lexeme l =>
          have hspells := spells_start c (r ++ u) l hreading
          rw [hlength, leading, List.take_succ_cons, List.take_left] at hspells
          have hoffset : (Position.origin.after before).offset = before.length := by
            rw [Position.offset_after, Position.origin, Nat.zero_add]
          have hstop : ((Position.origin.after before).after (c :: r)).offset =
              before.length + (r.length + 1) := by
            rw [Position.offset_after, hoffset, List.length_cons]
          apply Tiles.cons
          · simp only [Span.between, hoffset, Nat.le_refl]
          · simp only [Span.between, hoffset, hstop]
            omega
          · simp only [Span.between, hstop, List.length_append, List.length_cons]
            omega
          · simp only [Span.between, hoffset, slice, Nat.sub_self, List.take_zero]
            apply Gap.nil
          · simp only [Span.textIn, Span.between, hoffset, hstop, slice, List.drop_left,
              Nat.add_sub_cancel_left, List.take_succ_cons, List.take_left, Token.text, hspells,
              String.toList_ofList]
          · simp only [Span.between, hstop]
            apply hrest

/-- Tokens that tile a text cover the characters that spell them. -/
theorem Tiles.textIn_eq {t : Token} (h : Tiles source m tokens) (ht : t ∈ tokens) :
  t.span.textIn source = t.text.toList
  := by
  induction h with
  | nil => cases ht
  | cons _ _ _ _ htext _ ih =>
      rcases List.mem_cons.mp ht with rfl | ht
      · exact htext
      · exact ih ht

/-- The tokens of a text that lexes tile it from its start to its end, where its end is
reported. -/
theorem tiles_of_tokensOf (h : tokensOf file source = .ok tokens) :
  Tiles source 0 tokens ∧ (endOfText file source).start = source.length ∧
    (endOfText file source).stop = source.length
  := by
  obtain ⟨hclean, rfl⟩ := tokensOf_eq_ok.mp h
  have hend : (Position.origin.after source).offset = source.length := by
    rw [Position.offset_after, Position.origin, Nat.zero_add]
  use @tiles_tokensAt file [] source hclean, hend, hend

theorem tiles_of_tokensOf_commented :
  ∃ source tokens,
    source = "/* a /* b */ */fn//// c\r\n/// d\r\nr#\"e\"#/**/1.5 // f".toList ∧
    tokensOf "f.rs" source = .ok tokens ∧
    tokens.map Token.text = ["fn", "/// d", "r#\"e\"#", "1.5"] ∧
    Tiles source 0 tokens ∧ (endOfText "f.rs" source).start = source.length ∧
    (endOfText "f.rs" source).stop = source.length
  := by
  obtain ⟨tokens, h, htokens⟩ := Outcome.exists_of_any
    (x := tokensOf "f.rs" "/* a /* b */ */fn//// c\r\n/// d\r\nr#\"e\"#/**/1.5 // f".toList)
    (p := fun tokens => tokens.map Token.text == ["fn", "/// d", "r#\"e\"#", "1.5"])
    (by decide +kernel)
  exact ⟨_, tokens, rfl, h, eq_of_beq htokens, tiles_of_tokensOf h⟩

end Tiles

end ReturnCaptures
