import ReturnCaptures.Proofs.Lexing

/-!
# Quoted literals

A string or a raw string that is written as it should be is one token, and so is a character or
byte literal, whatever text follows that does not go on with a suffix; lexing then goes on at that
text. There is one exception: a character or byte given by two hexadecimal digits is no token.
-/

namespace ReturnCaptures

open Scan

/-! ### Lexing from a position -/

/-- The tokens of a text that starts at the position `p`, or the diagnostics of all its faults. -/
def tokensFrom (file : String) (p : Position) (text : List Char) : Except Rejection (List Token) :=
  let pieces := placedFrom p (pieces text)
  match pieces.filterMap (·.diagnostic? file) with
  | [] => .ok (pieces.filterMap (·.token? file))
  | faults => .error faults

/-- In front of `rest`, a scan takes all of `text` and reads it as the lexeme `l`. -/
def Lexeme.Scans (l : Lexeme) (text rest : List Char) : Prop :=
  ∃ c w, text ++ rest = c :: w ∧ start c w = ⟨.lexeme l, text.length⟩

section Position

variable {file : String} {p : Position} {l : Lexeme} {text rest : List Char}

theorem tokensOf_eq_tokensFrom (file : String) (text : List Char) :
  tokensOf file text = tokensFrom file .origin text
  := rfl

theorem tokensFrom_nil (file : String) (p : Position) :
  tokensFrom file p [] = .ok []
  := rfl

theorem pieces_of_scans (h : l.Scans text rest) :
  pieces (text ++ rest) = ⟨text, .lexeme l⟩ :: pieces rest
  := by
  obtain ⟨c, w, hw, hstart⟩ := h
  cases text with
  | nil =>
      have hfits := (fits_start c w).1
      rw [hstart] at hfits
      cases hfits
  | cons d r =>
      obtain ⟨rfl, rfl⟩ := List.cons_eq_cons.mp hw
      apply pieces_cons hstart

/-- Lexing goes on behind a lexeme at the position that it ends at. -/
theorem tokensFrom_append (h : l.Scans text rest) (file : String) (p : Position) :
  tokensFrom file p (text ++ rest) =
    (tokensFrom file (p.after text) rest).map (⟨l, .between file p (p.after text)⟩ :: ·)
  := by
  have hplaced : placedFrom p (pieces (text ++ rest)) =
      ⟨p, p.after text, ⟨text, .lexeme l⟩⟩ :: placedFrom (p.after text) (pieces rest) := by
    rw [pieces_of_scans h]
    rfl
  have htoken : PlacedPiece.token? file ⟨p, p.after text, ⟨text, .lexeme l⟩⟩ =
      some ⟨l, .between file p (p.after text)⟩ := rfl
  simp only [tokensFrom, hplaced]
  rw [List.filterMap_cons_none rfl, List.filterMap_cons_some htoken]
  generalize (placedFrom (p.after text) (pieces rest)).filterMap (·.diagnostic? file) = faults
  cases faults <;> rfl

/-- A text that is scanned whole is one token. -/
theorem tokensOf_of_scans (h : l.Scans text []) (file : String) :
  tokensOf file text = .ok [⟨l, .between file .origin (Position.origin.after text)⟩]
  := by
  have happend := tokensFrom_append h file .origin
  rw [List.append_nil, tokensFrom_nil] at happend
  rw [tokensOf_eq_tokensFrom, happend]
  rfl

end Position

/-- A literal that is measured to end where `text` does has no suffix if no word follows. -/
theorem scans_of_literal {kind : LiteralKind} {n : Nat} {text rest : List Char}
    (hrest : startsWith isWordStart rest = false) (hn : n = text.length)
    (h : ∃ c w, text ++ rest = c :: w ∧ start c w = literal kind n (text ++ rest)) :
  (Lexeme.literal kind (String.ofList text)).Scans text rest
  := by
  obtain ⟨c, w, hw, hstart⟩ := h
  use c, w, hw
  rw [hstart, hn, literal, List.drop_left, suffixLength_eq_zero.mpr hrest, ofLexeme, leading,
    Nat.add_zero, List.take_left]

/-! ### Openings -/

section Opening

variable {c : Char} {w : List Char} {n : Nat}

theorem start_quote (w : List Char) :
  start '"' w = string .string 1 ('"' :: w)
  := by
  rw [start_of_ne (by decide) (by decide), opening?_eq_none (by decide) (by decide) (by decide)]
  rfl

theorem start_apostrophe (w : List Char) :
  start '\'' w = apostrophe ('\'' :: w)
  := by
  rw [start_of_ne (by decide) (by decide), opening?_eq_none (by decide) (by decide) (by decide)]
  rfl

/-- Letters in front of an opening delimiter start the literal that they open. -/
theorem start_of_opening {opening : Opening} (h : opening? (c :: w) = some opening) :
  start c w = opened opening (c :: w)
  := by
  have hletter : c = 'b' ∨ c = 'c' ∨ c = 'r' := by
    by_contra hne
    simp only [not_or] at hne
    rw [opening?_eq_none hne.1 hne.2.1 hne.2.2] at h
    cases h
  have hspace : isWhitespace c = false := by rcases hletter with rfl | rfl | rfl <;> decide
  have hslash : c ≠ '/' := by rcases hletter with rfl | rfl | rfl <;> decide
  rw [start_of_ne hspace hslash, h]

theorem hashesBeforeQuote?_replicate (n : Nat) (w : List Char) :
  hashesBeforeQuote? (List.replicate n '#' ++ '"' :: w) = some n
  := by
  induction n with
  | zero => rfl
  | succ n ih => rw [List.replicate_succ, List.cons_append, hashesBeforeQuote?, ih, Option.map_some]

end Opening

/-! ### Strings -/

/-- What may stand between the quotes of a string: characters other than quotes and backslashes, and
backslashes, each with the character after it. -/
inductive StringBody : List Char → Prop
  | nil : StringBody []
  | plain {c : Char} {body : List Char} :
      c ≠ '"' → c ≠ '\\' → StringBody body → StringBody (c :: body)
  | escape {c : Char} {body : List Char} : StringBody body → StringBody ('\\' :: c :: body)

/-- The letters in front of a string, and the kind of literal that they make it. -/
def stringPrefixes : List (List Char × LiteralKind) :=
  [([], .string), (['b'], .byteString), (['c'], .cString)]

/-- The letters in front of a raw string, and the kind of literal that they make it. -/
def rawPrefixes : List (List Char × LiteralKind) :=
  [(['r'], .rawString), (['b', 'r'], .byteString), (['c', 'r'], .cString)]

/-- The string literals of each kind. The body of a raw string with hash signs holds no quote that
is followed by as many of them. -/
inductive StringLiteral : LiteralKind → List Char → Prop
  | escaped {letters body : List Char} {kind : LiteralKind} :
      (letters, kind) ∈ stringPrefixes → StringBody body →
        StringLiteral kind (letters ++ ['"'] ++ body ++ ['"'])
  | raw {letters body : List Char} {kind : LiteralKind} {hashes : Nat} :
      (letters, kind) ∈ rawPrefixes → ¬ '"' :: List.replicate hashes '#' <:+: body →
        StringLiteral kind (letters ++ List.replicate hashes '#' ++ ['"'] ++ body ++ ['"'] ++
          List.replicate hashes '#')

section Strings

variable {kind : LiteralKind} {letters opening body rest text : List Char} {hashes : Nat}

/-- A quote behind the letters of a prefix opens a string of the kind that they stand for. -/
theorem exists_start_of_stringPrefix (h : (letters, kind) ∈ stringPrefixes) (w : List Char) :
  ∃ c u, letters ++ '"' :: w = c :: u ∧
    start c u = string kind (letters.length + 1) (letters ++ '"' :: w)
  := by
  simp only [stringPrefixes, List.mem_cons, Prod.mk.injEq, List.not_mem_nil, or_false] at h
  rcases h with ⟨rfl, rfl⟩ | ⟨rfl, rfl⟩ | ⟨rfl, rfl⟩
  · exact ⟨'"', w, rfl, start_quote w⟩
  · exact ⟨'b', '"' :: w, rfl, @start_of_opening _ _ (.quoted .byteString) rfl⟩
  · exact ⟨'c', '"' :: w, rfl, @start_of_opening _ _ (.quoted .cString) rfl⟩

/-- Hash signs and a quote behind the letters of a prefix open a raw string of its kind. -/
theorem exists_start_of_rawPrefix (h : (letters, kind) ∈ rawPrefixes) (hashes : Nat)
    (w : List Char) :
  ∃ c u, letters ++ (List.replicate hashes '#' ++ '"' :: w) = c :: u ∧
    start c u = rawString kind hashes (letters.length + hashes + 1)
      (letters ++ (List.replicate hashes '#' ++ '"' :: w))
  := by
  have hraw {c : Char} {u : List Char} {n : Nat}
      (h : opening? (c :: u) =
        (hashesBeforeQuote? (List.replicate hashes '#' ++ '"' :: w)).map (.raw kind n)) :
      start c u = opened (.raw kind n hashes) (c :: u) := by
    rw [hashesBeforeQuote?_replicate] at h
    apply start_of_opening h
  simp only [rawPrefixes, List.mem_cons, Prod.mk.injEq, List.not_mem_nil, or_false] at h
  rcases h with ⟨rfl, rfl⟩ | ⟨rfl, rfl⟩ | ⟨rfl, rfl⟩
  · exact ⟨'r', _, rfl, hraw rfl⟩
  · exact ⟨'b', _, rfl, hraw rfl⟩
  · exact ⟨'c', _, rfl, hraw rfl⟩

/-- The rest of a string ends at the first quote that is no part of its body. -/
theorem stringLength?_append (h : StringBody body) (rest : List Char) :
  stringLength? (body ++ '"' :: rest) = some (body.length + 1)
  := by
  induction h with
  | nil => rfl
  | @plain c body hquote hbackslash _ ih =>
      rw [List.cons_append, stringLength?.eq_def]
      split <;> simp_all
  | escape _ ih => rw [List.cons_append, List.cons_append, stringLength?, ih]; rfl

/-- Hash signs in front of a quote are not counted together with those behind it. -/
theorem replicate_isPrefix_of_take
    (h : (body ++ '"' :: rest).take hashes = List.replicate hashes '#') :
  List.replicate hashes '#' <+: body
  := by
  have hnot {u : List Char} (hu : u <+: List.replicate hashes '#') : '"' ∉ u := by
    intro hmem
    cases List.eq_of_mem_replicate (hu.subset hmem)
  have hprefix : List.replicate hashes '#' <+: (body ++ ['"']) ++ rest := by
    rw [← h, List.append_assoc]
    apply List.take_prefix
  rcases List.prefix_or_prefix_of_prefix hprefix (List.prefix_append ..) with hle | hge
  · rcases List.prefix_concat_iff.mp hle with heq | hle
    · apply absurd _ (hnot (List.prefix_refl _))
      rw [heq]
      simp
    · apply hle
  · apply absurd _ (hnot hge)
    simp

/-- The rest of a raw string ends at the first quote with enough hash signs. -/
theorem rawLength?_append (h : ¬ ('"' :: List.replicate hashes '#') <:+: body) (rest : List Char) :
  rawLength? hashes (body ++ '"' :: (List.replicate hashes '#' ++ rest)) =
    some (body.length + 1 + hashes)
  := by
  induction body with
  | nil =>
      rw [List.nil_append, rawLength?, if_pos]
      · simp [Nat.add_comm]
      · simp
  | cons c body ih =>
      -- For a quote in the body the hash signs behind the closing quote do not count.
      have hopen : ¬ (c = '"' ∧ (body ++ '"' :: (List.replicate hashes '#' ++ rest)).take hashes =
          List.replicate hashes '#') := by
        rintro ⟨rfl, htake⟩
        apply h
        apply List.IsPrefix.isInfix
        apply List.cons_prefix_cons.mpr ⟨rfl, replicate_isPrefix_of_take htake⟩
      have hlater : ¬ ('"' :: List.replicate hashes '#') <:+: body := by
        intro hinside
        apply h (hinside.trans (List.suffix_cons ..).isInfix)
      rw [List.cons_append, rawLength?, if_neg (by simpa using hopen), ih hlater, Option.map_some,
        List.length_cons]
      congr 1
      omega

/-- A string that is written as it should be is scanned whole, with the kind of its prefix. -/
theorem scans_of_stringLiteral (h : StringLiteral kind text)
    (hrest : startsWith isWordStart rest = false) :
  (Lexeme.literal kind (String.ofList text)).Scans text rest
  := by
  cases h with
  | @escaped letters body _ hletters hbody =>
      have htext : letters ++ ['"'] ++ body ++ ['"'] ++ rest =
          letters ++ '"' :: (body ++ '"' :: rest) := by simp
      have hdrop : (letters ++ '"' :: (body ++ '"' :: rest)).drop (letters.length + 1) =
          body ++ '"' :: rest := by simp
      obtain ⟨c, u, hu, hstart⟩ := exists_start_of_stringPrefix hletters (body ++ '"' :: rest)
      apply scans_of_literal hrest (n := letters.length + 1 + (body.length + 1))
      · simp only [List.length_append, List.length_singleton]
        omega
      · use c, u
        rw [htext, hstart, string, hdrop, stringLength?_append hbody]
        use hu
  | @raw letters body _ hashes hletters hbody =>
      have htext : letters ++ List.replicate hashes '#' ++ ['"'] ++ body ++ ['"'] ++
          List.replicate hashes '#' ++ rest = letters ++ (List.replicate hashes '#' ++
            '"' :: (body ++ '"' :: (List.replicate hashes '#' ++ rest))) := by simp
      have hdrop (w : List Char) : (letters ++ (List.replicate hashes '#' ++ '"' :: w)).drop
          (letters.length + hashes + 1) = w := by
        rw [Nat.add_assoc, ← List.drop_drop, List.drop_left]
        simp [List.drop_append]
      obtain ⟨c, u, hu, hstart⟩ := exists_start_of_rawPrefix hletters hashes
        (body ++ '"' :: (List.replicate hashes '#' ++ rest))
      apply scans_of_literal hrest (n := letters.length + hashes + 1 + (body.length + 1 + hashes))
      · simp only [List.length_append, List.length_singleton, List.length_replicate]
        omega
      · use c, u
        rw [htext, hstart, rawString, hdrop, rawLength?_append hbody]
        use hu

/-- A string literal in front of a text that does not prolong it is lexed as one token, and lexing
goes on at that text. -/
theorem tokensOf_append_of_stringLiteral (h : StringLiteral kind text)
    (hrest : startsWith isWordStart rest = false) (file : String) :
  tokensOf file (text ++ rest) =
    (tokensFrom file (Position.origin.after text) rest).map
      (⟨.literal kind (String.ofList text), .between file .origin (Position.origin.after text)⟩ :: ·)
  := by
  rw [tokensOf_eq_tokensFrom]
  apply tokensFrom_append (scans_of_stringLiteral h hrest)

theorem tokensOf_append_of_stringLiteral_hashes :
  StringLiteral .byteString "br##\"a\"#\\\"##".toList ∧
    startsWith isWordStart "#b".toList = false ∧
    tokensOf "f.rs" ("br##\"a\"#\\\"##".toList ++ "#b".toList) =
      (tokensFrom "f.rs" (Position.origin.after "br##\"a\"#\\\"##".toList) "#b".toList).map
        (⟨.literal .byteString (String.ofList "br##\"a\"#\\\"##".toList),
          .between "f.rs" .origin (Position.origin.after "br##\"a\"#\\\"##".toList)⟩ :: ·)
  := by
  have hliteral : StringLiteral .byteString "br##\"a\"#\\\"##".toList := by
    apply @StringLiteral.raw ['b', 'r'] "a\"#\\".toList _ 2
    · decide
    · decide
  have hrest : startsWith isWordStart "#b".toList = false := by decide
  exact ⟨hliteral, hrest, tokensOf_append_of_stringLiteral hliteral hrest "f.rs"⟩

end Strings

/-! ### Characters and bytes -/

/-- How a character or a byte is written between apostrophes: as itself, as a backslash and a letter
or mark, by two hexadecimal digits, or by the digits of its code point. -/
inductive CharForm where
  | plain (c : Char)
  | escape (c : Char)
  | hex (first second : Char)
  | codePoint (digits : List Char)

/-- A hexadecimal digit. -/
def isHexDigit (c : Char) : Bool :=
  ('0' ≤ c && c ≤ '9') || ('a' ≤ c && c ≤ 'f') || ('A' ≤ c && c ≤ 'F')

/-- What a backslash may stand in front of. -/
def escapes : List Char := ['n', 'r', 't', '\\', '0', '\'', '"']

namespace CharForm

/-- What is written between the apostrophes. -/
def text : CharForm → List Char
  | plain c => [c]
  | escape c => ['\\', c]
  | hex first second => ['\\', 'x', first, second]
  | codePoint digits => ['\\', 'u', '{'] ++ digits ++ ['}']

/-- Whether the form consists of two hexadecimal digits. -/
def isHex : CharForm → Bool
  | hex _ _ => true
  | _ => false

/-- The forms that a character may have. -/
def IsChar : CharForm → Prop
  | plain c => c ∉ ['\'', '\\', '\n', '\r', '\t']
  | escape c => c ∈ escapes
  | hex first second => isHexDigit first ∧ isHexDigit second
  | codePoint digits =>
    digits.all (fun c => isHexDigit c || c == '_') ∧ 1 ≤ digits.countP isHexDigit ∧
      digits.countP isHexDigit ≤ 6

/-- The forms that a byte may have. -/
def IsByte : CharForm → Prop
  | plain c => c.toNat < 128 ∧ c ∉ ['\'', '\\']
  | escape c => c ∈ escapes
  | hex first second => isHexDigit first ∧ isHexDigit second
  | codePoint _ => False

instance : DecidablePred IsChar
  | plain _ | escape _ | hex _ _ | codePoint _ => by dsimp only [IsChar]; infer_instance

instance : DecidablePred IsByte
  | plain _ | escape _ | hex _ _ | codePoint _ => by dsimp only [IsByte]; infer_instance

end CharForm

/-- The character and byte literals with a given form between their apostrophes. -/
inductive CharLiteral (form : CharForm) : LiteralKind → List Char → Prop
  | char : form.IsChar → CharLiteral form .char (['\''] ++ form.text ++ ['\''])
  | byte : form.IsByte → CharLiteral form .byte (['b', '\''] ++ form.text ++ ['\''])

namespace CharForm

/-- What characters and bytes have in common: nothing in the form is taken for its end. -/
def IsEnclosed : CharForm → Prop
  | plain c => c ≠ '\'' ∧ c ≠ '\\'
  | escape _ => True
  | hex first _ => first ≠ '\''
  | codePoint digits => '}' ∉ digits

variable {form : CharForm}

theorem isEnclosed_of_isChar (h : form.IsChar) :
  form.IsEnclosed
  := by
  cases form with
  | plain c =>
      simp only [IsChar, List.mem_cons, not_or] at h
      exact ⟨h.1, h.2.1⟩
  | escape => trivial
  | hex first second =>
      rintro rfl
      cases h.1
  | codePoint digits =>
      intro hmem
      cases List.all_eq_true.mp h.1 _ hmem

theorem isEnclosed_of_isByte (h : form.IsByte) :
  form.IsEnclosed
  := by
  cases form with
  | plain c =>
      simp only [IsByte, List.mem_cons, not_or] at h
      exact ⟨h.2.1, h.2.2.1⟩
  | escape => trivial
  | hex first second =>
      rintro rfl
      cases h.1
  | codePoint => cases h

/-- The measure of a form that is not two digits is its length. -/
theorem charLength_text (h : form.IsEnclosed) (hhex : form.isHex = false) (w : List Char) :
  charLength (form.text ++ '\'' :: w) = form.text.length
  := by
  cases form with
  | plain c => simp [text, charLength, h.1, h.2]
  | escape c =>
      apply charLength_escape
      rintro ⟨_, hbrace⟩
      cases hbrace
  | hex => cases hhex
  | codePoint digits =>
      have hall : ∀ c ∈ digits, (c != '}') = true := by
        intro c hc
        simp only [bne_iff_ne]
        rintro rfl
        exact h hc
      have hrun : runLength (· != '}') (digits ++ '}' :: '\'' :: w) = digits.length := by
        rw [runLength, List.takeWhile_append_of_pos hall]
        simp
      have htext : (codePoint digits).text ++ '\'' :: w =
          '\\' :: 'u' :: '{' :: (digits ++ '}' :: '\'' :: w) := by simp [text]
      rw [htext, charLength, hrun]
      simp only [text, List.length_append, List.length_cons, List.length_nil]
      omega

/-- No form is taken for a lifetime. -/
theorem apostrophe_text (form : CharForm) (w : List Char) :
  apostrophe ('\'' :: (form.text ++ '\'' :: w)) = char .char 1 ('\'' :: (form.text ++ '\'' :: w))
  := by
  have hbackslash : isWordStart '\\' = false := by decide
  cases form <;> simp [apostrophe, text, startsWith, hbackslash]

end CharForm

section Chars

variable {form : CharForm} {kind : LiteralKind} {text rest : List Char}

theorem CharLiteral.isEnclosed (h : CharLiteral form kind text) :
  form.IsEnclosed
  := by
  cases h with
  | char h => apply CharForm.isEnclosed_of_isChar h
  | byte h => apply CharForm.isEnclosed_of_isByte h

/-- A character literal is measured from behind its opening apostrophe. -/
theorem CharLiteral.exists_start (h : CharLiteral form kind text) (rest : List Char) :
  ∃ c w n, text ++ rest = c :: w ∧ start c w = Scan.char kind n (text ++ rest) ∧
    (text ++ rest).drop n = form.text ++ '\'' :: rest ∧ text.length = n + form.text.length + 1
  := by
  cases h with
  | char h =>
      have htext : ['\''] ++ form.text ++ ['\''] ++ rest = '\'' :: (form.text ++ '\'' :: rest) := by
        simp
      use '\'', form.text ++ '\'' :: rest, 1, htext
      rw [htext, start_apostrophe, form.apostrophe_text]
      refine ⟨rfl, rfl, ?_⟩
      simp only [List.length_append, List.length_singleton]
  | byte h =>
      have htext : ['b', '\''] ++ form.text ++ ['\''] ++ rest =
          'b' :: '\'' :: (form.text ++ '\'' :: rest) := by simp
      use 'b', '\'' :: (form.text ++ '\'' :: rest), 2, htext
      rw [htext, start_of_opening rfl]
      refine ⟨rfl, rfl, ?_⟩
      simp only [List.length_append, List.length_cons, List.length_nil]

/-- A character literal that is not given by two digits is scanned whole. -/
theorem scans_of_charLiteral (h : CharLiteral form kind text) (hhex : form.isHex = false)
    (hrest : startsWith isWordStart rest = false) :
  (Lexeme.literal kind (String.ofList text)).Scans text rest
  := by
  obtain ⟨c, w, n, hw, hstart, hdrop, hlength⟩ := h.exists_start rest
  apply scans_of_literal hrest hlength.symm
  use c, w, hw
  have hclose : ((text ++ rest).drop (n + form.text.length)).head? = some '\'' := by
    rw [← List.drop_drop, hdrop, List.drop_left]
    rfl
  simp only [hstart, char, hdrop, CharForm.charLength_text h.isEnclosed hhex, hclose, if_true]

/-- Of two digits behind a backslash and an `x` none is read, so that the apostrophe is missed. -/
theorem exists_start_eq_fault (h : CharLiteral form kind text) (hhex : form.isHex = true) :
  ∃ c w n, text = c :: w ∧ start c w = ⟨.fault .unterminatedChar, n⟩
  := by
  obtain ⟨c, w, n, hw, hstart, hdrop, -⟩ := h.exists_start []
  rw [List.append_nil] at hw hstart hdrop
  use c, w, n + 2, hw
  cases form with
  | hex first second =>
      have hmeasure : charLength ((CharForm.hex first second).text ++ ['\'']) = 2 := by
        apply charLength_escape
        rintro ⟨hx, _⟩
        cases hx
      have hmiss : (text.drop (n + 2)).head? = some first := by
        rw [← List.drop_drop, hdrop]
        rfl
      have hne : some first ≠ some '\'' := by
        rw [ne_eq, Option.some.injEq]
        apply h.isEnclosed
      simp only [hstart, char, hdrop, hmeasure, hmiss, if_neg hne]
  | _ => cases hhex

/-- A text that starts with a fault has no tokens. -/
theorem tokensOf_ne_ok_of_fault {c : Char} {w : List Char} {cause : LexicalFault} {n : Nat}
    (h : start c w = ⟨.fault cause, n⟩) (file : String) (tokens : List Token) :
  tokensOf file (c :: w) ≠ .ok tokens
  := by
  intro htokens
  obtain ⟨hclean, -⟩ := tokensOf_eq_ok.mp htokens
  have hfirst : ⟨c :: w.take (n - 1), .fault cause⟩ ∈ pieces (c :: w) := by
    simp [pieces, piecesFrom, h]
  cases hclean _ hfirst

/-- A character or byte literal is lexed as one token, unless it is given by two hexadecimal
digits. -/
theorem tokensOf_charLiteral_iff (h : CharLiteral form kind text) (file : String) :
  tokensOf file text = .ok [⟨.literal kind (String.ofList text),
      .between file .origin (Position.origin.after text)⟩] ↔
    form.isHex = false
  := by
  constructor
  · intro htokens
    by_contra hhex
    obtain ⟨c, w, n, rfl, hstart⟩ := exists_start_eq_fault h (eq_true_of_ne_false hhex)
    apply tokensOf_ne_ok_of_fault hstart file _ htokens
  · intro hhex
    apply tokensOf_of_scans (scans_of_charLiteral h hhex rfl)

theorem tokensOf_charLiteral_codePoint :
  CharLiteral (.codePoint "1F_600".toList) .char "'\\u\x7b1F_600\x7d'".toList ∧
    tokensOf "f.rs" "'\\u\x7b1F_600\x7d'".toList = .ok [⟨.literal .char "'\\u\x7b1F_600\x7d'",
      .between "f.rs" .origin (Position.origin.after "'\\u\x7b1F_600\x7d'".toList)⟩]
  := by
  have hliteral : CharLiteral (.codePoint "1F_600".toList) .char "'\\u\x7b1F_600\x7d'".toList := by
    apply CharLiteral.char
    decide
  use hliteral
  apply (tokensOf_charLiteral_iff hliteral "f.rs").mpr rfl

theorem tokensOf_charLiteral_hex :
  CharLiteral (.hex '4' '1') .char "'\\x41'".toList ∧
    (tokensOf "f.rs" "'\\x41'".toList).isOk = false ∧
    CharLiteral (.hex '4' '1') .byte "b'\\x41'".toList ∧
    (tokensOf "f.rs" "b'\\x41'".toList).isOk = false
  := by
  have hchar : CharLiteral (.hex '4' '1') .char "'\\x41'".toList := by
    apply CharLiteral.char
    decide
  have hbyte : CharLiteral (.hex '4' '1') .byte "b'\\x41'".toList := by
    apply CharLiteral.byte
    decide
  exact ⟨hchar, by decide, hbyte, by decide⟩

end Chars

end ReturnCaptures
