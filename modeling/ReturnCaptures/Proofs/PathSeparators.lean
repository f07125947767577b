import ReturnCaptures.Proofs.Joints

/-!
# Path separators in a text

Of what is joint among the lexemes of a text, it is the halves of path separators that decide where
marked items are found. A text with another one behind it *shows* lexemes if it lexes to them and a
colon among them is joint exactly if another colon follows it directly. Texts that show lexemes one
in front of the other show the lexemes of both, and a stretch of a text shows the lexemes of its
tokens.
-/

namespace ReturnCaptures

open Scan TokenTree

/-! ### Lexemes with their path separators -/

/-- A lexeme that is joint only if it is a colon and `paired` holds. -/
def Lexeme.pairedIf (paired : Bool) : Lexeme → Lexeme
  | .punct ':' _ => .punct ':' paired
  | l => l.plain

/-- Lexemes of which only the colons with another colon behind them stay joint; behind the last one
stands `next`. -/
def pairedBefore (next : Option Lexeme) : List Lexeme → List Lexeme
  | [] => []
  | l :: lexemes =>
    l.pairedIf (l.isJoint && (lexemes.head?.or next).any (·.isPunct ':')) ::
      pairedBefore next lexemes

section Pairs

variable {l : Lexeme} {next next' : Option Lexeme} {lexemes lexemes' : List Lexeme} {b b' : Bool}

theorem Lexeme.pairedIf_of_not (h : l.isPunct ':' = false) :
  l.pairedIf b = l.plain
  := by
  rw [pairedIf.eq_def]
  split
  case h_1 => simp [isPunct] at h
  case h_2 => rfl

@[simp]
theorem Lexeme.plain_pairedIf :
  (l.pairedIf b).plain = l.plain
  := by
  rw [pairedIf.eq_def]
  split
  · rfl
  · cases l <;> rfl

theorem Lexeme.pairedIf_plain :
  l.plain.pairedIf b = l.pairedIf b
  := by
  cases l with
  | punct symbol j =>
      by_cases h : symbol = ':'
      · subst h
        rfl
      · have hno (j : Bool) : (punct symbol j).isPunct ':' = false := beq_eq_false_iff_ne.mpr h
        rw [pairedIf_of_not (hno j)]
        exact pairedIf_of_not (hno false)
  | _ => rfl

@[simp]
theorem Lexeme.pairedIf_false :
  l.pairedIf false = l.plain
  := by
  rw [pairedIf.eq_def]
  split <;> rfl

theorem Lexeme.pairedIf_congr (h : l.isPunct ':' → b = b') :
  l.pairedIf b = l.pairedIf b'
  := by
  cases hl : l.isPunct ':' with
  | true => rw [h hl]
  | false => rw [pairedIf_of_not hl, pairedIf_of_not hl]

@[simp]
theorem length_pairedBefore :
  (pairedBefore next lexemes).length = lexemes.length
  := by
  induction lexemes with
  | nil => rfl
  | cons l lexemes ih => rw [pairedBefore, List.length_cons, ih, List.length_cons]

theorem pairedBefore_singleton :
  pairedBefore next [l] = [l.pairedIf (l.isJoint && next.any (·.isPunct ':'))]
  := rfl

theorem pairedBefore_append :
  pairedBefore next (lexemes ++ lexemes') =
    pairedBefore (lexemes'.head?.or next) lexemes ++ pairedBefore next lexemes'
  := by
  induction lexemes with
  | nil => rfl
  | cons l lexemes ih =>
      rw [List.cons_append, pairedBefore, pairedBefore, ih, List.cons_append, List.head?_append,
        Option.or_assoc]

/-- What follows lexemes pairs none of them unless it is a colon. -/
theorem pairedBefore_of_not (h : ∀ l ∈ next, l.isPunct ':' = false) :
  pairedBefore next lexemes = pairedBefore none lexemes
  := by
  induction lexemes with
  | nil => rfl
  | cons l lexemes ih =>
      rw [pairedBefore, pairedBefore, ih]
      congr 3
      cases lexemes with
      | nil =>
          cases next with
          | none => rfl
          | some l' => exact h l' rfl
      | cons l' lexemes => rfl

/-- What follows lexemes pairs none of them unless the last one is a colon. -/
theorem pairedBefore_of_getLast (h : ∀ l ∈ lexemes.getLast?, l.isPunct ':' = false) :
  pairedBefore next lexemes = pairedBefore none lexemes
  := by
  rcases List.eq_nil_or_concat lexemes with rfl | ⟨init, last, rfl⟩
  · rfl
  · rw [List.concat_eq_append] at h ⊢
    rw [List.getLast?_concat] at h
    rw [pairedBefore_append, pairedBefore_append]
    congr 1
    have hlast := h last rfl
    simp only [pairedBefore, Lexeme.pairedIf_of_not hlast]

theorem map_plain_pairedBefore :
  (pairedBefore next lexemes).map Lexeme.plain = lexemes.map Lexeme.plain
  := by
  induction lexemes with
  | nil => rfl
  | cons l lexemes ih => rw [pairedBefore, List.map_cons, List.map_cons, ih, Lexeme.plain_pairedIf]

end Pairs

/-! ### What pieces show -/

/-- The lexemes that pieces carry; a colon is joint if a colon stands behind its piece, and `u`
stands behind all of them. -/
def shownIn (u : List Char) : List Piece → List Lexeme
  | [] => []
  | p :: ps =>
    match p.reading with
    | .lexeme l => l.pairedIf ((textOf ps ++ u).head? == some ':') :: shownIn u ps
    | _ => shownIn u ps

section Pieces

variable {c : Char} {u v w : List Char} {p : Piece} {ps qs : List Piece} {l : Lexeme}

theorem shownIn_cons (h : p.reading = .lexeme l) :
  shownIn u (p :: ps) = l.pairedIf ((textOf ps ++ u).head? == some ':') :: shownIn u ps
  := by
  rw [shownIn, h]

theorem shownIn_trivia (h : p.reading = .trivia) :
  shownIn u (p :: ps) = shownIn u ps
  := by
  rw [shownIn, h]

theorem shownIn_append :
  shownIn u (ps ++ qs) = shownIn (textOf qs ++ u) ps ++ shownIn u qs
  := by
  induction ps with
  | nil => rfl
  | cons p ps ih =>
      rw [List.cons_append, shownIn, shownIn, ih, textOf_append, List.append_assoc]
      cases p.reading <;> rfl

/-- What stands behind pieces has a say in what they show only by whether it starts with a colon. -/
theorem shownIn_congr (h : u.head? = some ':' ↔ v.head? = some ':') :
  shownIn u ps = shownIn v ps
  := by
  induction ps with
  | nil => rfl
  | cons p ps ih =>
      have hhead : ((textOf ps ++ u).head? == some ':') = ((textOf ps ++ v).head? == some ':') := by
        cases textOf ps with
        | nil => rwa [List.nil_append, List.nil_append, Bool.eq_iff_iff, beq_iff_eq, beq_iff_eq]
        | cons c w => rfl
      rw [shownIn, shownIn, ih, hhead]

/-- Pieces that differ only in what is joint show the same. -/
theorem shownIn_of_plain (h : ps.map Piece.plain = qs.map Piece.plain) :
  shownIn u ps = shownIn u qs
  := by
  induction ps generalizing qs with
  | nil =>
      obtain rfl : qs = [] := List.map_eq_nil_iff.mp h.symm
      rfl
  | cons p ps ih =>
      obtain ⟨q, qs, rfl, hpq, hrest⟩ := List.map_eq_cons_iff.mp h.symm
      obtain ⟨-, hreading⟩ := Piece.mk.inj hpq
      have htext {ps : List Piece} : textOf (ps.map Piece.plain) = textOf ps := by
        simp [textOf, List.flatMap_map, Piece.plain]
      have hrest' : textOf ps = textOf qs := by rw [← htext, ← hrest, htext]
      rw [shownIn, shownIn, ih hrest.symm, hrest']
      cases hp : p.reading with
      | lexeme l =>
          rw [hp] at hreading
          obtain ⟨l', hq, hl⟩ := Reading.exists_of_plain hreading
          rw [hq]
          dsimp only
          rw [← Lexeme.pairedIf_plain (l := l'), hl, Lexeme.pairedIf_plain]
      | trivia | fault =>
          rw [hp] at hreading
          cases hq : q.reading with
          | trivia | fault => rfl
          | lexeme =>
              rw [hq] at hreading
              cases hreading

/-- A text without faults starts with a colon exactly if it makes punctuation in front of it joint
and its first token is a colon. -/
theorem head?_eq_colon_iff (hclean : ∀ q ∈ pieces u, q.isClean) (file : String) (at' : Position) :
  u.head? = some ':' ↔
    joins u ∧ ((tokensAt file at' (pieces u)).map (·.lexeme)).head?.any (·.isPunct ':')
  := by
  cases hps : pieces u with
  | nil =>
      obtain rfl : u = [] := by rw [← textOf_pieces u, hps, textOf_nil]
      simp [joins]
  | cons q qs =>
      rw [hps] at hclean
      obtain ⟨c, r, v, rfl, rfl, -, rfl⟩ := exists_of_pieces hps
      rw [List.forall_mem_cons, Piece.isClean, Bool.not_eq_true'] at hclean
      rw [tokensAt_cons, PlacedPiece.token?, List.head?_cons]
      constructor
      · rintro ⟨⟩
        rw [start_of_isMarkChar_eq (by decide) (by decide)]
        use by rw [joins_cons]; rfl
        rfl
      · rintro ⟨hjoins, hcolon⟩
        obtain ⟨l, hl, -⟩ := exists_adheres_of_joins hjoins hclean.1
        rw [hl] at hcolon
        cases l with
        | punct d j =>
            obtain rfl : d = ':' := eq_of_beq hcolon
            rw [(punct_of_start hl).1]
        | _ => cases hcolon

/-- The pieces of a text without faults show the lexemes of its tokens. -/
theorem shownIn_pieces (hclean : ∀ q ∈ pieces w, q.isClean) (file : String) (at' : Position) :
  shownIn [] (pieces w) = pairedBefore none ((tokensAt file at' (pieces w)).map (·.lexeme))
  := by
  induction hps : pieces w generalizing w at' with
  | nil => rfl
  | cons p ps ih =>
      rw [hps] at hclean
      obtain ⟨c, r, u, rfl, rfl, hlength, rfl⟩ := exists_of_pieces hps
      rw [List.forall_mem_cons] at hclean
      have hrest := ih hclean.2 (at'.after (c :: r)) rfl
      rw [tokensAt_cons, PlacedPiece.token?]
      cases hreading : (start c (r ++ u)).reading with
      | lexeme l =>
          rw [shownIn_cons rfl, hrest, textOf_pieces, List.append_nil]
          rw [Option.toList_some, List.singleton_append, List.map_cons, pairedBefore, Option.or_none]
          congr 1
          apply Lexeme.pairedIf_congr
          intro hcolon
          cases l with
          | punct d j =>
              obtain rfl : d = ':' := eq_of_beq hcolon
              obtain rfl : r = [] := by
                rw [length_of_punct hreading] at hlength
                exact List.length_eq_zero_iff.mp (Nat.succ.inj hlength).symm
              obtain ⟨rfl, -, rfl⟩ := punct_of_start hreading
              rw [Bool.eq_iff_iff, beq_iff_eq, head?_eq_colon_iff hclean.2 file (at'.after [':']),
                Bool.and_eq_true]
              rfl
          | _ => cases hcolon
      | trivia => rw [shownIn_trivia rfl, hrest]; rfl
      | fault cause =>
          have hp := hclean.1
          rw [Piece.isClean, hreading] at hp
          cases hp

theorem length_shownIn (file : String) (at' : Position) :
  (shownIn u ps).length = (tokensAt file at' ps).length
  := by
  induction ps generalizing at' with
  | nil => rfl
  | cons p ps ih =>
      rw [shownIn, tokensAt_cons, PlacedPiece.token?, List.length_append,
        ← ih (at'.after p.text)]
      cases p.reading with
      | lexeme l =>
          rw [List.length_cons, Option.toList_some, List.length_singleton, Nat.add_comm]
      | _ => rw [Option.toList_none, List.length_nil, Nat.zero_add]

end Pieces

/-! ### Texts that show lexemes -/

/-- A text with another one behind it is cut into pieces without a fault that show the given
lexemes. -/
def Shows (w u : List Char) (lexemes : List Lexeme) : Prop :=
  ∃ ps, textOf ps = w ∧ Cuts ps u ∧ (∀ p ∈ ps, p.isClean) ∧ shownIn u ps = lexemes

section Shows

variable {c : Char} {u v w w' : List Char} {lexemes lexemes' : List Lexeme} {file : String}
  {tokens : List Token}

theorem Shows.nil :
  Shows [] u []
  := ⟨[], rfl, .nil, by simp, rfl⟩

/-- Texts that show lexemes one in front of the other show them together. -/
theorem Shows.append (h : Shows w (w' ++ u) lexemes) (h' : Shows w' u lexemes') :
  Shows (w ++ w') u (lexemes ++ lexemes')
  := by
  obtain ⟨ps, rfl, hcuts, hclean, rfl⟩ := h
  obtain ⟨qs, rfl, hcuts', hclean', rfl⟩ := h'
  use ps ++ qs, textOf_append ps qs, cuts_append.mpr ⟨hcuts, hcuts'⟩
  constructor
  · intro p hp
    rcases List.mem_append.mp hp with hp | hp
    · apply hclean p hp
    · apply hclean' p hp
  · apply shownIn_append

/-- What a text shows it also lexes to. -/
theorem Shows.lexes (h : Shows w u lexemes) :
  Lexes w u (lexemes.map Lexeme.plain)
  := by
  obtain ⟨ps, rfl, hcuts, hclean, rfl⟩ := h
  use ps, rfl, hcuts, hclean
  clear hcuts hclean
  induction ps with
  | nil => rfl
  | cons p ps ih =>
      rw [shownIn, List.filterMap_cons, Piece.lexeme?, ih]
      cases p.reading with
      | lexeme l => rw [List.map_cons, Lexeme.plain_pairedIf]
      | _ => rfl

theorem shows_isBlank (hw : isBlank w) :
  Shows w u []
  := by
  obtain ⟨ps, hps, htrivia⟩ := exists_pieces_isBlank (u := []) hw
  obtain ⟨ps', htext, hcuts, hclean, hlexemes⟩ := lexes_isBlank (u := u) hw
  use ps', htext, hcuts, hclean
  clear htext hcuts
  induction ps' with
  | nil => rfl
  | cons p ps ih =>
      rw [List.forall_mem_cons, Piece.isClean] at hclean
      rw [List.filterMap_cons, Piece.lexeme?] at hlexemes
      cases hp : p.reading with
      | lexeme l =>
          rw [hp] at hlexemes
          cases hlexemes
      | trivia =>
          rw [hp] at hlexemes
          rw [shownIn_trivia hp, ih hclean.2 hlexemes]
      | fault cause =>
          rw [hp] at hclean
          cases hclean.1

/-- A text that starts with a colon shows a colon first. -/
theorem Shows.isPunct_head? (h : Shows (':' :: w) u lexemes) :
  lexemes.head?.any (·.isPunct ':')
  := by
  obtain ⟨_ | ⟨p, ps⟩, htext, hcuts, -, rfl⟩ := h
  · cases htext
  · obtain _ | ⟨⟨c, r, hr, hscan⟩, -⟩ := hcuts
    rw [textOf_cons, hr] at htext
    obtain ⟨rfl, -⟩ := List.cons_eq_cons.mp htext
    rw [start_of_isMarkChar_eq (by decide) (by decide)] at hscan
    obtain ⟨l, hp, hl⟩ := Reading.exists_of_plain (Scan.mk.inj hscan).1.symm
    rw [shownIn_cons hp, List.head?_cons, Option.any_some, ← Lexeme.isPunct_plain,
      Lexeme.plain_pairedIf, hl]
    rfl

/-- Blanks in front of a text make no difference to what it shows. -/
theorem Shows.of_isBlank (h : Shows (w ++ w') u lexemes) (hw : isBlank w) :
  Shows w' u lexemes
  := by
  induction w with
  | nil => exact h
  | cons c w ih =>
      rw [isBlank, List.all_cons, Bool.and_eq_true] at hw
      apply ih _ hw.2
      obtain ⟨_ | ⟨p, ps⟩, htext, hcuts, hclean, rfl⟩ := h
      · cases htext
      · obtain _ | ⟨⟨d, r, hr, hscan⟩, hps⟩ := hcuts
        rw [textOf_cons, hr] at htext
        obtain ⟨rfl, hrest⟩ := List.cons_eq_cons.mp htext
        rw [start, if_pos hw.1] at hscan
        obtain ⟨hreading, hlength⟩ := Scan.mk.inj hscan
        obtain rfl : r = [] := List.length_eq_zero_iff.mp (Nat.succ.inj hlength).symm
        have hp : p.reading = .trivia := Reading.eq_trivia_of_plain hreading.symm
        use ps, hrest, hps, fun q hq => hclean q (List.mem_cons_of_mem _ hq)
        rw [shownIn_trivia hp]

/-- A text shows the same in front of every text that resembles the one behind it. -/
theorem Shows.of_alike (h : Shows w u lexemes) (halike : Alike u v)
    (hcolon : u.head? = some ':' → v.head? = some ':') :
  Shows w v lexemes
  := by
  obtain ⟨ps, rfl, hcuts, hclean, rfl⟩ := h
  use ps, rfl, hcuts.of_alike hclean halike, hclean
  apply shownIn_congr
  exact ⟨halike.head?, hcolon⟩

/-- A text that shows lexemes has tokens that show them. -/
theorem Shows.exists_tokensOf (h : Shows w [] lexemes) (file : String) :
  ∃ tokens, tokensOf file w = .ok tokens ∧ pairedBefore none (tokens.map (·.lexeme)) = lexemes
  := by
  obtain ⟨tokens, htokens, -⟩ := h.lexes.exists_tokensOf file
  use tokens, htokens
  obtain ⟨hclean, rfl⟩ := tokensOf_eq_ok.mp htokens
  obtain ⟨ps, rfl, hcuts, -, rfl⟩ := h
  rw [tokensAt, ← tokensAt, ← shownIn_pieces hclean]
  apply shownIn_of_plain
  have hplain := hcuts.pieces_append
  rw [List.append_nil] at hplain
  rw [hplain]
  exact List.append_nil _

/-- A text shows nothing else in front of the same text. -/
theorem Shows.unique (h : Shows w u lexemes) (h' : Shows w u lexemes') :
  lexemes = lexemes'
  := by
  obtain ⟨ps, rfl, hcuts, -, rfl⟩ := h
  obtain ⟨qs, htext, hcuts', -, rfl⟩ := h'
  have hplain := hcuts'.pieces_append
  rw [htext, hcuts.pieces_append] at hplain
  exact shownIn_of_plain (List.append_cancel_right hplain)

/-- A text that ends in a lexeme shows the same in front of every text in front of which its pieces
are cut alike; the lexeme is joint if it is a colon and the text starts with one. -/
theorem Shows.of_cuts {ls : List Lexeme} {l l' : Lexeme} (h : Shows w u (lexemes ++ [l']))
    (hto : LexesTo w u ls l.plain)
    (hcut : ∀ {ps p}, Cuts (ps ++ [p]) u → (∀ q ∈ ps, q.isClean) →
      p.reading.plain = .lexeme l.plain → Cuts (ps ++ [p]) v) :
  Shows w v (lexemes ++ [l.pairedIf (v.head? == some ':')])
  := by
  obtain ⟨ps, p, rfl, hcuts, hclean, -, hlast⟩ := hto
  obtain ⟨lp, hlp, hlpl⟩ := Reading.exists_of_plain hlast
  have hall : ∀ q ∈ ps ++ [p], q.isClean := by
    rw [List.forall_mem_append]
    use hclean
    simpa using Piece.isClean_of_lexeme hlast
  have hshown := Shows.unique ⟨ps ++ [p], rfl, hcuts, hall, rfl⟩ h
  use ps ++ [p], rfl, hcut hcuts hclean hlast, hall
  rw [shownIn_append, shownIn_cons hlp] at hshown ⊢
  obtain ⟨hinit, -⟩ := List.append_inj' hshown rfl
  rw [← hinit]
  congr 1
  · apply shownIn_congr
    obtain ⟨c, r, hr⟩ := List.exists_cons_of_ne_nil (text_ne_nil hcuts p (by simp))
    rw [textOf_cons, hr]
    rfl
  · rw [← Lexeme.pairedIf_plain, hlpl, Lexeme.pairedIf_plain]
    rfl

/-- A text that ends in a lexeme shows the same in front of every text in front of which its pieces
are cut alike and that does not pair a colon at its end. -/
theorem Shows.of_last {ls : List Lexeme} {l l' : Lexeme} (h : Shows w u (lexemes ++ [l']))
    (hto : LexesTo w u ls l.plain)
    (hcut : ∀ {ps p}, Cuts (ps ++ [p]) u → (∀ q ∈ ps, q.isClean) →
      p.reading.plain = .lexeme l.plain → Cuts (ps ++ [p]) v)
    (hcolon : l.isPunct ':' → v.head? ≠ some ':') :
  Shows w v (lexemes ++ [l.plain])
  := by
  rw [← l.pairedIf_false, ← Lexeme.pairedIf_congr (b := v.head? == some ':')]
  · exact h.of_cuts hto hcut
  · exact fun hl => beq_eq_false_iff_ne.mpr (hcolon hl)

/-- A text that ends in a lexeme shows the same in front of every text that does not go on with that
lexeme. -/
theorem Shows.of_lexesTo {ls : List Lexeme} {l l' : Lexeme} (h : Shows w u (lexemes ++ [l']))
    (hto : LexesTo w u ls l.plain) (hend : l.plain.EndsBefore v)
    (hcolon : l.isPunct ':' → v.head? ≠ some ':') :
  Shows w v (lexemes ++ [l.plain])
  := h.of_last hto (fun hcuts hclean hlast => hcuts.of_endsBefore hclean hlast hend) hcolon

/-- A text that ends in a documentation comment shows the same in front of every text that starts
with nothing to go on with, and that ends a comment that takes up its line. -/
theorem Shows.of_doc {ls : List Lexeme} {l' : Lexeme} {inner : Bool} {text : String}
    (h : Shows w u (lexemes ++ [l'])) (hto : LexesTo w u ls (.doc inner text))
    (hv : startsWith isActive v = false)
    (hline : ['/', '/'].isPrefixOf text.toList → lineLength u = 0 → EndsLine u v) :
  Shows w v (lexemes ++ [.doc inner text])
  := by
  apply h.of_last (l := .doc inner text) hto
  · intro ps p hcuts hclean hlast
    obtain _ | ⟨hstarts, -⟩ := (cuts_append.mp hcuts).2
    rw [textOf_nil, List.nil_append] at hstarts
    have htext : p.text = text.toList := by
      rw [← String.toList_ofList (l := p.text), hstarts.text_eq hlast]
      rfl
    have hstands : (Lexeme.doc inner text).Stands u := by
      obtain ⟨c, r, hr, hscan⟩ := hstarts
      rw [hlast] at hscan
      exact ⟨c, r, htext ▸ hr, hscan⟩
    obtain ⟨r, hr, hne⟩ : ∃ r, text.toList = '/' :: r ∧ r ≠ [] := by
      rcases hstands.comment_cases with ⟨r, hr, -⟩ | ⟨r, hr⟩
      · exact ⟨_, hr, by simp⟩
      · exact ⟨_, hr, by simp⟩
    rw [hr] at htext
    apply hcuts.of_last hclean
    · apply hstarts.of_milder (Piece.isClean_of_lexeme hlast) (milder_of_startsWith hv)
      · intro hslash
        rw [htext, List.cons_eq_cons] at hslash
        cases hne hslash.2
      · intro hu htake
        apply hline _ hu
        rw [hr, ← htext, List.isPrefixOf_iff_prefix, List.prefix_iff_eq_take]
        exact htake.symm
    · rw [htext]
      apply alike_cons (by decide) fun hsign => absurd hsign (by decide)
  · intro hpunct
    cases hpunct

end Shows

/-! ### Stretches of a text -/

section Stretches

variable {file : String} {source v : List Char} {before mid after : List Token} {t : Token}
  {m n : Nat} {trees : List TokenTree} {tree : TokenTree}

/-- A stretch of a text from one offset between its pieces to another one shows the lexemes of the
tokens in between. -/
theorem Seam.shows_between (htokens : tokensOf file source = .ok (before ++ (mid ++ after)))
    (h : Seam file source before m) (h' : Seam file source (before ++ mid) n) (hmn : m ≤ n) :
  Shows (slice source m n) (source.drop n)
    (pairedBefore (after.map (·.lexeme)).head? (mid.map (·.lexeme)))
  := by
  obtain ⟨hclean, htoks⟩ := tokensOf_eq_ok.mp htokens
  obtain ⟨ps, qs, hpieces, rfl, hps⟩ := h
  obtain ⟨ps', rs, hpieces', rfl, hps'⟩ := h'
  obtain ⟨qs, rfl⟩ := exists_append_of_length hpieces hpieces' hmn
  rw [List.append_assoc] at hpieces'
  obtain ⟨hslice, hcuts⟩ := slice_of_pieces hpieces' rfl rfl
  have hrest : source.drop (textOf (ps ++ qs)).length = textOf rs := by
    rw [← List.append_assoc] at hpieces'
    apply (drop_of_pieces hpieces').1
  rw [hrest] at hcuts
  rw [hslice, hrest]
  use qs, rfl, hcuts
  constructor
  · intro p hp
    apply hclean
    simp [hpieces', hp]
  · rw [tokensAt_append, hps, List.append_cancel_left_eq] at hps'
    rw [hpieces', tokensAt_append, hps, List.append_cancel_left_eq, tokensAt_append, hps',
      List.append_cancel_left_eq] at htoks
    have hboth := shownIn_pieces (w := textOf (qs ++ rs))
      (fun q hq => hclean q (by
        rw [pieces_textOf hpieces'] at hq
        rw [hpieces']
        exact List.mem_append_right _ hq))
      file (Position.origin.after (textOf ps))
    rw [pieces_textOf hpieces', shownIn_append, tokensAt_append, hps', List.map_append,
      pairedBefore_append, List.append_nil, Option.or_none, htoks] at hboth
    apply (List.append_inj hboth _).1
    rw [length_shownIn file (Position.origin.after (textOf ps)), hps',
      length_pairedBefore, List.length_map]

/-- The first of some tokens starts between two pieces, in front of the last of them. -/
theorem seam_of_head? {s : Token} (htokens : tokensOf file source = .ok (before ++ (mid ++ t :: after)))
    (hs : (mid ++ [t]).head? = some s) :
  Seam file source before s.span.start ∧ s.span.start ≤ t.span.start
  := by
  cases mid with
  | nil =>
      obtain rfl : t = s := Option.some.inj hs
      use (seams_of_token htokens).1
  | cons first mid =>
      obtain rfl : first = s := Option.some.inj hs
      have hseam := (seams_of_token htokens).1
      use hseam
      rw [← List.append_assoc] at htokens
      apply hseam.le (seams_of_token htokens).1
      simp

/-- A stretch of a text that ends in a token shows the lexemes of its tokens in front of what follows
it there. -/
theorem Seam.shows_to (htokens : tokensOf file source = .ok (before ++ (mid ++ t :: after)))
    (h : Seam file source before m) (hm : m ≤ t.span.start) :
  ∃ b, Shows (slice source m t.span.stop) (source.drop t.span.stop)
    (pairedBefore (some t.lexeme) (mid.map (·.lexeme)) ++ [t.lexeme.pairedIf b])
  := by
  rw [← List.append_assoc] at htokens
  obtain ⟨-, hstop, hle⟩ := seams_of_token htokens
  rw [List.append_assoc] at hstop
  rw [List.append_assoc, ← List.singleton_append, ← List.append_assoc mid] at htokens
  have hshows := h.shows_between htokens hstop (hm.trans hle)
  rw [List.map_append, pairedBefore_append, List.map_singleton, pairedBefore_singleton] at hshows
  exact ⟨_, hshows⟩

/-- A stretch of a text that ends in a token shows the lexemes of its tokens in front of every text
that does not go on with the last of them. -/
theorem Seam.shows (htokens : tokensOf file source = .ok (before ++ (mid ++ t :: after)))
    (h : Seam file source before m) (hm : m ≤ t.span.start) (hend : t.lexeme.plain.EndsBefore v)
    (hcolon : t.lexeme.isPunct ':' → v.head? ≠ some ':') :
  Shows (slice source m t.span.stop) v (pairedBefore none ((mid ++ [t]).map (·.lexeme)))
  := by
  obtain ⟨b, hshows⟩ := h.shows_to htokens hm
  rw [List.map_append, pairedBefore_append, List.map_singleton, pairedBefore_singleton,
    Option.any_none, Bool.and_false, Lexeme.pairedIf_false]
  apply hshows.of_lexesTo (h.lexesTo htokens hm) hend hcolon

end Stretches

/-! ### Trees -/

/-- The lexemes of the tokens that trees are built from, of which only the colons with another colon
behind them stay joint. -/
def shownAll (trees : List TokenTree) : List Lexeme :=
  pairedBefore none ((tokensAll trees).map (·.lexeme))

section Trees

variable {file : String} {source u v w w' : List Char} {before after : List Token}
  {trees trees' : List TokenTree} {tree : TokenTree} {m n : Nat}

theorem map_text_pairedBefore (next : Option Lexeme) (lexemes : List Lexeme) :
  (pairedBefore next lexemes).map Lexeme.text = lexemes.map Lexeme.text
  := by
  have htext (ls : List Lexeme) : (ls.map Lexeme.plain).map Lexeme.text = ls.map Lexeme.text := by
    rw [List.map_map]
    apply List.map_congr_left
    intro l _
    apply Lexeme.text_plain
  rw [← htext, map_plain_pairedBefore, htext]

theorem map_text_shownAll (trees : List TokenTree) :
  (shownAll trees).map Lexeme.text = flatAll trees
  := by
  rw [shownAll, map_text_pairedBefore, flatAll_eq_map, lexemesAll, List.map_map, List.map_map]
  simp [Function.comp_def]

/-- A text that shows trees lexes to the texts of their tokens. -/
theorem Shows.exists_texts (h : Shows w [] (shownAll trees)) (file : String) :
  ∃ tokens, tokensOf file w = .ok tokens ∧ tokens.map Token.text = flatAll trees
  := by
  obtain ⟨tokens, htokens, hshown⟩ := h.exists_tokensOf file
  use tokens, htokens
  rw [← map_text_shownAll, ← hshown, map_text_pairedBefore, List.map_map]
  rfl

/-- A text that shows trees is read again as them, but for their spans. -/
theorem Shows.exists_ofText (h : Shows w [] (shownAll trees)) (hproper : areProper trees)
    (file : String) :
  ∃ v, ofText file w = .ok v ∧ bareAll v = bareAll trees ∧ shownAll v = shownAll trees
  := by
  obtain ⟨tokens, htokens, hshown⟩ := h.exists_tokensOf file
  have hlexemes : tokens.map (·.lexeme.plain) = lexemesAll trees := by
    have hplain := congrArg (List.map Lexeme.plain) hshown
    rw [shownAll, map_plain_pairedBefore, map_plain_pairedBefore, List.map_map, List.map_map] at hplain
    exact hplain
  obtain ⟨v, hv, hbare⟩ := exists_ofTokens hproper hlexemes
  have htext : ofText file w = .ok v := by
    rw [ofText, htokens]
    exact hv
  use v, htext, hbare
  rw [← hshown, shownAll, ← Except.ok.inj (htokens.symm.trans (tokensOf_of_ofText htext).1)]

theorem isPunct_of_head? (h : atPunct ':' trees = false) :
  ∀ l ∈ ((tokensAll trees).map (·.lexeme)).head?, l.isPunct ':' = false
  := by
  match trees with
  | [] => simp [tokensAll]
  | .token t :: trees =>
      intro l hl
      obtain rfl : t.lexeme = l := Option.some.inj hl
      exact h
  | .group d inside opening closing :: trees =>
      intro l hl
      obtain rfl : .punct d.opening false = l := Option.some.inj hl
      cases d <;> rfl

theorem isPunct_of_getLast? (h : ∀ tree ∈ trees.getLast?, (lastLexeme tree).isPunct ':' = false) :
  ∀ l ∈ ((tokensAll trees).map (·.lexeme)).getLast?, l.isPunct ':' = false
  := by
  rcases List.eq_nil_or_concat trees with rfl | ⟨init, last, rfl⟩
  · simp [tokensAll]
  · rw [List.concat_eq_append] at h ⊢
    rw [List.getLast?_concat] at h
    obtain ⟨r, t, htokens, -, hlexeme⟩ := exists_last last
    intro l hl
    rw [tokensAll_append, tokensAll_singleton, htokens, ← List.append_assoc, List.map_append,
      List.map_singleton, List.getLast?_concat] at hl
    obtain rfl : t.lexeme = l := Option.some.inj hl
    rw [← Lexeme.isPunct_plain, hlexeme]
    apply h last rfl

/-- Trees show each for themselves unless a colon stands on both sides between them. -/
theorem shownAll_append
    (h : (∀ tree ∈ trees.getLast?, (lastLexeme tree).isPunct ':' = false) ∨
      atPunct ':' trees' = false) :
  shownAll (trees ++ trees') = shownAll trees ++ shownAll trees'
  := by
  rw [shownAll, tokensAll_append, List.map_append, pairedBefore_append, Option.or_none]
  congr 1
  rcases h with h | h
  · rw [pairedBefore_of_getLast (isPunct_of_getLast? h), shownAll]
  · rw [pairedBefore_of_not (isPunct_of_head? h), shownAll]

/-- The text of a run of trees shows their lexemes in front of every text that does not go on with
the last of them. -/
theorem shows_run (h : tokensOf file source = .ok (before ++ (tokensAll trees ++ after)))
    (hs : Spans trees m n) (hlast : trees.getLast? = some tree)
    (hend : (lastLexeme tree).EndsBefore v)
    (hcolon : (lastLexeme tree).isPunct ':' → v.head? ≠ some ':') :
  Shows (slice source m n) v (shownAll trees)
  := by
  obtain ⟨first, mid, last, hhead, htokens, rfl, rfl, hlexeme⟩ := hs.exists_tokens hlast
  rw [htokens, List.append_assoc, List.singleton_append] at h
  rw [← hlexeme] at hend hcolon
  rw [Lexeme.isPunct_plain] at hcolon
  obtain ⟨hseam, hle⟩ := seam_of_head? h hhead
  rw [shownAll, htokens]
  apply hseam.shows h hle hend hcolon

end Trees

end ReturnCaptures
