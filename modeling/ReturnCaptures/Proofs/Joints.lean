import ReturnCaptures.Proofs.Embedding
import ReturnCaptures.Proofs.Literals
import ReturnCaptures.Proofs.Places
import ReturnCaptures.Proofs.Standing

/-!
# Joint punctuation

Whether punctuation is joint is decided by the characters behind it, before the next token is read.
It comes to the same as to look at that token: punctuation is joint exactly if other punctuation, a
lifetime or a character literal directly follows it. Delimiters and other lexemes are never joint.
-/

namespace ReturnCaptures

open Scan TokenTree

/-- Whether a lexeme is punctuation other than a delimiter. -/
def Lexeme.isPunctuation : Lexeme → Bool
  | .punct c _ => !Scan.isDelimiter c
  | _ => false

/-- Whether punctuation directly in front of a lexeme is joint to it. -/
def Lexeme.adheres : Lexeme → Bool
  | .lifetime _ => true
  | .literal kind _ => kind == .char
  | l => l.isPunctuation

/-! ### Lexemes that adhere to punctuation -/

section First

variable {c : Char} {l : Lexeme} {u w : List Char} {text : String} {kind kind' : LiteralKind} {n : Nat}

theorem kind_of_literal (h : (literal kind n w).reading = .lexeme (.literal kind' text)) :
  kind' = kind
  := by
  cases h
  rfl

theorem kind_of_string (h : (string kind n w).reading = .lexeme (.literal kind' text)) :
  kind' = kind
  := by
  rw [string] at h
  split at h
  case h_1 => cases h
  case h_2 => apply kind_of_literal h

theorem kind_of_rawString {hashes : Nat}
    (h : (rawString kind hashes n w).reading = .lexeme (.literal kind' text)) :
  kind' = kind
  := by
  rw [rawString] at h
  split at h
  case h_1 => cases h
  case h_2 => apply kind_of_literal h

/-- No letters open a character literal. -/
theorem kind_of_opened {opening : Opening} (hopening : opening? w = some opening)
    (h : (opened opening w).reading = .lexeme (.literal kind text)) :
  kind ≠ .char
  := by
  have hraw {kind' : LiteralKind} {letters : Nat} {s : List Char} (hkind : kind' ≠ .char)
      (hs : (hashesBeforeQuote? s).map (.raw kind' letters) = some opening) : kind ≠ .char := by
    obtain ⟨hashes, -, rfl⟩ := Option.map_eq_some_iff.mp hs
    rwa [kind_of_rawString h]
  rw [opening?.eq_def] at hopening
  split at hopening
  case h_1 =>
    cases hopening
    simp only [opened, char] at h
    split at h
    case isTrue =>
      rw [kind_of_literal h]
      decide
    case isFalse => cases h
  case h_2 =>
    cases hopening
    rw [kind_of_string h]
    decide
  case h_3 =>
    cases hopening
    rw [kind_of_string h]
    decide
  case h_4 => apply hraw (by decide) hopening
  case h_5 => apply hraw (by decide) hopening
  case h_6 => apply hraw (by decide) hopening
  case h_7 => cases hopening

/-- A character literal starts with an apostrophe. -/
theorem first_of_char (h : (start c w).reading = .lexeme (.literal .char text)) :
  c = '\''
  := by
  have hc := opensWith_of_start h
  simp only [Lexeme.opensWith, Bool.or_eq_true, List.contains_iff_mem, List.mem_cons,
    List.not_mem_nil, or_false] at hc
  rcases hc with hdigit | rfl | rfl | hletter
  · rw [start_of_isDigit hdigit] at h
    simp only [number] at h
    split at h
    case h_1 => cases h
    case h_2 =>
      simp only [ofLexeme, Reading.lexeme.injEq, Lexeme.literal.injEq] at h
      split_ifs at h <;> cases h.1
  · rw [start_quote] at h
    cases kind_of_string h
  · rfl
  · cases hopening : opening? (c :: w) with
    | some opening =>
        rw [start_of_opening hopening] at h
        exact absurd rfl (kind_of_opened hopening h)
    | none =>
        have hword : start c w = word (c :: w) := by
          rcases hletter with rfl | rfl | rfl <;>
            rw [start_of_ne (by decide) (by decide), hopening] <;> rfl
        rw [hword, word] at h
        simp only [ofLexeme, wordLexeme] at h
        split at h <;> cases h

/-- What adheres to punctuation starts with a character that makes the punctuation joint. -/
theorem joins_of_adheres (h : (start c w).reading = .lexeme l) (hl : l.adheres) :
  joins (c :: w)
  := by
  have hc := opensWith_of_start h
  rw [joins_cons]
  cases l with
  | lifetime =>
      obtain rfl : c = '\'' := eq_of_beq hc
      rfl
  | literal kind text =>
      obtain rfl : kind = .char := eq_of_beq hl
      obtain rfl := first_of_char h
      rfl
  | punct d j =>
      simp only [Lexeme.opensWith, Bool.and_eq_true, beq_iff_eq] at hc
      obtain ⟨rfl, hmark⟩ := hc
      have hdelimiter : Scan.isDelimiter c = false := by
        simpa [Lexeme.adheres, Lexeme.isPunctuation] using hl
      rw [isMarkChar, hdelimiter, Bool.false_or] at hmark
      rw [hmark, Bool.true_or, Bool.true_and, Bool.not_eq_true']
      by_cases hslash : c = '/'
      · subst hslash
        obtain ⟨hno, hno', -⟩ := start_of_slash h
        simp [hno, hno']
      · rw [beq_eq_false_iff_ne.mpr hslash, Bool.false_and]
  | ident | keyword | doc => cases hl

/-- What makes punctuation joint is the start of a lexeme that adheres to it, or a fault. -/
theorem exists_adheres_of_joins (h : joins (c :: w)) (hclean : (start c w).reading.isFault = false) :
  ∃ l, (start c w).reading = .lexeme l ∧ l.adheres
  := by
  rw [joins_cons, Bool.and_eq_true, Bool.or_eq_true, Bool.not_eq_true'] at h
  obtain ⟨hmark | hquote, hcomment⟩ := h
  · have hdelimiter : Scan.isDelimiter c = false := by
      have hall : punctuation.all fun c => !Scan.isDelimiter c := by decide
      simpa using List.all_eq_true.mp hall c (List.contains_iff_mem.mp hmark)
    have hadheres (j : Bool) : (Lexeme.punct c j).adheres := by
      simp [Lexeme.adheres, Lexeme.isPunctuation, hdelimiter]
    by_cases hslash : c = '/'
    · subst hslash
      simp only [beq_self_eq_true, Bool.true_and, Bool.or_eq_false_iff, beq_eq_false_iff_ne] at hcomment
      rw [start_slash hcomment.1 hcomment.2]
      exact ⟨_, rfl, hadheres _⟩
    · rw [start_of_isMarkChar_eq (by rw [isMarkChar, hmark, Bool.or_true]) hslash]
      exact ⟨_, rfl, hadheres _⟩
  · obtain rfl := eq_of_beq hquote
    rw [start_apostrophe, apostrophe] at hclean ⊢
    split at hclean
    case isTrue hlifetime =>
      rw [if_pos hlifetime]
      exact ⟨_, rfl, rfl⟩
    case isFalse hlifetime =>
      rw [if_neg hlifetime]
      rw [char] at hclean ⊢
      split at hclean
      case isTrue hclose =>
        rw [if_pos hclose]
        exact ⟨_, rfl, rfl⟩
      case isFalse => cases hclean

end First

/-! ### The token behind punctuation -/

section Next

variable {file : String} {source : List Char} {before after : List Token} {t : Token}

/-- Punctuation in front of a text without faults is joint exactly if the first token of the text
stands at its start and adheres. -/
theorem joins_iff {u : List Char} (hclean : ∀ q ∈ pieces u, q.isClean) (file : String) (p : Position) :
  joins u ↔ ∃ next ∈ (tokensAt file p (pieces u)).head?,
    next.span.start = p.offset ∧ next.lexeme.adheres
  := by
  cases hps : pieces u with
  | nil =>
      obtain rfl : u = [] := by rw [← textOf_pieces u, hps, textOf_nil]
      simp [joins, tokensAt, placedFrom]
  | cons q qs =>
      rw [hps] at hclean
      obtain ⟨c, r, v, rfl, rfl, -, rfl⟩ := exists_of_pieces hps
      rw [List.forall_mem_cons, Piece.isClean, Bool.not_eq_true'] at hclean
      rw [tokensAt_cons, PlacedPiece.token?]
      constructor
      · intro h
        obtain ⟨l, hl, hadheres⟩ := exists_adheres_of_joins h hclean.1
        rw [hl]
        exact ⟨_, rfl, rfl, hadheres⟩
      · rintro ⟨next, hnext, hstart, hadheres⟩
        cases hreading : (start c (r ++ v)).reading with
        | lexeme l =>
            rw [hreading] at hnext
            obtain rfl := Option.some.inj hnext
            exact joins_of_adheres hreading hadheres
        | fault cause =>
            rw [hreading] at hclean
            cases hclean.1
        | trivia =>
            -- The token would stand behind the trivia.
            rw [hreading] at hnext
            obtain ⟨rest, hrest⟩ := List.head?_eq_some_iff.mp hnext
            have hordered := @ordered_tokensAt file (p.after (c :: r)) (pieces v)
              (text_ne_nil (cuts_pieces v))
            simp only [Option.toList_none, List.nil_append] at hrest
            rw [hrest] at hordered
            obtain _ | ⟨hle, -, -⟩ := hordered
            rw [Position.offset_after, List.length_cons] at hle
            omega

theorem length_of_punct {c d : Char} {j : Bool} {w : List Char}
    (h : (start c w).reading = .lexeme (.punct d j)) :
  (start c w).length = 1
  := by
  rw [← length_text_of_start h, Lexeme.text, String.toList_singleton]
  rfl

/-- A token is joint exactly if it is punctuation other than a delimiter, and the next token directly
follows it and is other punctuation, a lifetime or a character literal. -/
theorem isJoint_iff (h : tokensOf file source = .ok (before ++ t :: after)) :
  t.lexeme.isJoint ↔ t.lexeme.isPunctuation ∧
    ∃ next ∈ after.head?, next.span.start = t.span.stop ∧ next.lexeme.adheres
  := by
  obtain ⟨hclean, htokens⟩ := tokensOf_eq_ok.mp h
  obtain ⟨ps, q, qs, hpieces, -, hreading, hspan, rfl⟩ := exists_piece htokens
  have hoffset : (Position.origin.after (textOf (ps ++ [q]))).offset = t.span.stop := by
    rw [Position.offset_after, (lengths_of_span hspan).2]
    exact Nat.zero_add _
  generalize Position.origin.after (textOf (ps ++ [q])) = p at hoffset ⊢
  obtain ⟨c, r, u, -, rfl, hlength, rfl⟩ := exists_of_pieces (pieces_textOf hpieces)
  have hcleanu : ∀ q ∈ pieces u, q.isClean := by
    intro q hq
    apply hclean
    rw [hpieces]
    exact List.mem_append_right _ (List.mem_cons_of_mem _ hq)
  cases hl : t.lexeme with
  | punct d j =>
      rw [hl] at hreading
      obtain rfl : r = [] := by
        rw [length_of_punct hreading] at hlength
        exact List.length_eq_zero_iff.mp (Nat.succ.inj hlength).symm
      obtain ⟨rfl, -, hjoint⟩ := punct_of_start hreading
      rw [List.nil_append] at hjoint
      rw [Lexeme.isJoint, hjoint, Bool.and_eq_true, joins_iff hcleanu file p, hoffset]
      rfl
  | _ => simp [Lexeme.isJoint, Lexeme.isPunctuation]

theorem isJoint_iff_slash :
  tokensOf "f.rs" "a/'b'".toList =
      .ok ([⟨.ident "a", ⟨"f.rs", 1, 1, 1, 1, 0, 1⟩⟩] ++
        ⟨.punct '/' true, ⟨"f.rs", 1, 2, 1, 2, 1, 2⟩⟩ ::
          [⟨.literal .char "'b'", ⟨"f.rs", 1, 3, 1, 5, 2, 5⟩⟩]) ∧
    (Lexeme.punct '/' true).isPunctuation ∧
    ∃ next ∈ [(⟨.literal .char "'b'", ⟨"f.rs", 1, 3, 1, 5, 2, 5⟩⟩ : Token)].head?,
      next.span.start = 2 ∧ next.lexeme.adheres
  := by
  have htokens : tokensOf "f.rs" "a/'b'".toList =
      .ok ([⟨.ident "a", ⟨"f.rs", 1, 1, 1, 1, 0, 1⟩⟩] ++
        ⟨.punct '/' true, ⟨"f.rs", 1, 2, 1, 2, 1, 2⟩⟩ ::
          [⟨.literal .char "'b'", ⟨"f.rs", 1, 3, 1, 5, 2, 5⟩⟩]) := by
    decide
  exact ⟨htokens, (isJoint_iff htokens).mp rfl⟩

end Next

end ReturnCaptures
