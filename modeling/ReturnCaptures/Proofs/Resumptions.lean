import ReturnCaptures.Proofs.Signatures
import ReturnCaptures.Proofs.UnmarkedTrees

/-!
# Texts that go on alike

What stands in front of a text is read alike in front of another one that goes on as it does. It is
also read alike in front of an item, if it ends in whitespace, in a comment, or in punctuation that the
item does not go on. A text renders trees at an offset of another text if it shows them and may stand
there in this sense; then it does so as well with the tokens that are copied from in front of the
offset.
-/

namespace ReturnCaptures

open Scan TokenTree

/-! ### Two texts -/

/-- The text `v` goes on as `u` does: it resembles `u`, and it starts with a colon if `u` does. -/
structure Resumes (u v : List Char) : Prop where
  alike : Alike u v
  colon : u.head? = some ':' → v.head? = some ':'

section Resumes

variable {u v : List Char}

theorem Resumes.refl (u : List Char) :
  Resumes u u
  := by
  refine ⟨?_, id⟩
  rw [← List.append_nil u]
  exact (Alike.ends rfl).append

theorem Resumes.append (h : Resumes u v) (w : List Char) :
  Resumes (w ++ u) (w ++ v)
  := by
  use h.alike.append
  cases w with
  | nil => exact h.colon
  | cons c w => exact id

/-- A closing delimiter in front of two texts makes them go on alike. -/
theorem resumes_closing (d : Delimiter) (u v : List Char) :
  Resumes (d.closing :: u) (d.closing :: v)
  := by
  refine ⟨.shared ?_ ?_, id⟩
  · cases d <;> rfl
  · cases d <;> exact fun h => absurd h (by decide)

end Resumes

/-! ### Gaps without tokens -/

/-- Whether a text starts with a character other than whitespace. -/
def startsVisibly (w : List Char) : Bool :=
  startsWith (!isWhitespace ·) w

/-- Whether a text starts with a character that an item may start with: no whitespace, no digit and no
colon. -/
def startsItem (w : List Char) : Bool :=
  startsWith (fun c => !isWhitespace c && !isDigit c && c != ':') w

section Gaps

variable {p : Piece} {u v w : List Char} {file : String} {text : List Char}
  {before tokens : List Token} {m n : Nat}

theorem exists_of_startsVisibly (h : startsVisibly w) :
  ∃ c r, w = c :: r ∧ isWhitespace c = false
  := by
  cases w with
  | nil => cases h
  | cons c r =>
      rw [startsVisibly, startsWith, Bool.not_eq_true'] at h
      exact ⟨c, r, rfl, h⟩

theorem startsVisibly_of_startsItem (h : startsItem w) :
  startsVisibly w
  := by
  cases w with
  | nil => cases h
  | cons c w =>
      rw [startsItem, startsWith, Bool.and_eq_true, Bool.and_eq_true] at h
      exact h.1.1

theorem head?_ne_of_startsVisibly {c : Char} (h : startsVisibly w) (hc : isWhitespace c) :
  w.head? ≠ some c
  := by
  obtain ⟨d, r, rfl, hd⟩ := exists_of_startsVisibly h
  rintro ⟨⟩
  rw [hc] at hd
  cases hd

theorem startsWith_isDigit_of_startsItem (h : startsItem w) :
  startsWith isDigit w = false ∧ w.head? ≠ some ':'
  := by
  cases w with
  | nil => cases h
  | cons c w =>
      rw [startsItem, startsWith, Bool.and_eq_true, Bool.and_eq_true, Bool.not_eq_true',
        Bool.not_eq_true', bne_iff_ne] at h
      use h.1.2
      rintro ⟨⟩
      exact h.2 rfl

/-- No line ends in front of a visible character. -/
theorem lineLength_ne_zero (h : startsVisibly w) :
  lineLength w ≠ 0
  := by
  obtain ⟨c, r, rfl, hc⟩ := exists_of_startsVisibly h
  rw [lineLength_cons, if_neg]
  · exact Nat.succ_ne_zero _
  · rintro (rfl | ⟨rfl, -⟩) <;> cases hc

/-- A comment has two characters at least. -/
theorem two_le_length_of_trivia (h : (start '/' w).reading = .trivia) :
  2 ≤ (start '/' w).length
  := by
  by_cases hslash : w.head? = some '/'
  · obtain ⟨r, rfl⟩ := List.head?_eq_some_iff.mp hslash
    rw [start_slashes, length_lineComment]
    apply Nat.le_add_left
  by_cases hstar : w.head? = some '*'
  · obtain ⟨r, rfl⟩ := List.head?_eq_some_iff.mp hstar
    rw [start_star] at h ⊢
    apply two_le_blockComment
    rw [h]
    rfl
  rw [start_slash hslash hstar] at h
  cases h

/-- Trivia in front of a visible character is the same in front of every other one. -/
theorem Piece.Starts.of_startsVisibly (h : p.Starts u) (hp : p.reading = .trivia)
    (hu : startsVisibly u) (hv : startsVisibly v) :
  p.Starts v ∧ Alike (p.text ++ u) (p.text ++ v)
  := by
  obtain ⟨c, r, hr, hscan⟩ := h
  obtain ⟨hreading, hlength⟩ := Scan.mk.inj hscan
  rw [hp] at hreading
  replace hreading := Reading.eq_trivia_of_plain hreading
  rw [hr]
  rcases first_of_trivia hreading with hspace | rfl
  · rw [start, if_pos hspace] at hlength
    obtain rfl : r = [] := List.length_eq_zero_iff.mp (Nat.succ.inj hlength).symm
    constructor
    · use c, [], hr
      rw [start, if_pos hspace, hp]
      rfl
    · by_cases hreturn : c = '\r'
      · subst hreturn
        exact .carriage (head?_ne_of_startsVisibly hu rfl) (head?_ne_of_startsVisibly hv rfl)
      · have hne {d : Char} (hd : isWhitespace d = false) : c ≠ d := by
          rintro rfl
          rw [hspace] at hd
          cases hd
        have hpoint := hne (d := '.') (by decide)
        have hhash := hne (d := '#') (by decide)
        have hplus := hne (d := '+') (by decide)
        have hminus := hne (d := '-') (by decide)
        exact .shared (by simp [hpoint, hhash, hreturn]) (by simp [hplus, hminus])
  · constructor
    · use '/', r, hr
      rw [← hscan]
      apply slash_append (by rw [hreading]; rfl) hlength
      · rintro rfl
        have hle := two_le_length_of_trivia hreading
        rw [hlength] at hle
        cases Nat.le_of_succ_le_succ hle
      · intro hhead
        obtain ⟨r, rfl⟩ := List.head?_eq_some_iff.mp hhead
        rw [List.cons_append, start_slashes, length_lineComment, List.length_cons] at hlength
        exact absurd (lineLength_of_append (Nat.add_right_cancel hlength)) (lineLength_ne_zero hu)
    · exact alike_cons (by decide) fun hsign => absurd hsign (by decide)

/-- A stretch of a text without tokens shows nothing in front of every text that starts as visibly as
what follows it. -/
theorem Seam.shows_gap (htokens : tokensOf file text = .ok tokens) (h : Seam file text before m)
    (h' : Seam file text before n) (hmn : m ≤ n) (hu : startsVisibly (text.drop n))
    (hv : startsVisibly v) :
  Shows (slice text m n) v [] ∧ (m = n ∨ Resumes (text.drop m) (slice text m n ++ v))
  := by
  obtain ⟨hclean, -⟩ := tokensOf_eq_ok.mp htokens
  have hdrop := slice_append_drop (u := text) hmn
  obtain ⟨ps, qs, hpieces, rfl, hps⟩ := h
  obtain ⟨ps', rs, hpieces', rfl, hps'⟩ := h'
  obtain ⟨qs, rfl⟩ := exists_append_of_length hpieces hpieces' hmn
  rw [List.append_assoc] at hpieces'
  obtain ⟨hslice, hcuts⟩ := slice_of_pieces hpieces' rfl rfl
  rw [tokensAt_append, hps, List.append_right_eq_self] at hps'
  have hshown : shownIn v qs = [] := by
    rw [← List.length_eq_zero_iff, length_shownIn file (Position.origin.after (textOf ps)), hps',
      List.length_nil]
  have hclean' : ∀ q ∈ qs, q.isClean := fun q hq => hclean q (by simp [hpieces', hq])
  rw [← hdrop, hslice]
  rcases List.eq_nil_or_concat qs with rfl | ⟨qs, q, rfl⟩
  · rw [List.append_nil]
    exact ⟨.nil, .inl rfl⟩
  · rw [List.concat_eq_append] at *
    rw [List.forall_mem_append, List.forall_mem_singleton] at hclean'
    obtain _ | ⟨hstarts, -⟩ := (cuts_append.mp hcuts).2
    rw [textOf_nil, List.nil_append] at hstarts
    rw [tokensAt_append, List.append_eq_nil_iff] at hps'
    obtain ⟨c, r, hr, -⟩ := id hstarts
    obtain ⟨hstarts, halike⟩ :=
      hstarts.of_startsVisibly (reading_of_no_tokens hclean'.2 hps'.2) hu hv
    constructor
    · use qs ++ [q], rfl, hcuts.of_last hclean'.1 hstarts halike
      exact ⟨List.forall_mem_append.mpr ⟨hclean'.1, by simpa using hclean'.2⟩, hshown⟩
    · right
      rw [textOf_append, textOf_cons, textOf_nil, List.append_nil, List.append_assoc, List.append_assoc]
      apply Resumes.append
      use halike
      rw [hr]
      exact id

end Gaps

/-! ### What meets at an offset -/

/-- Whether a lexeme is punctuation that at most a digit goes on. -/
def Lexeme.standsAlone : Lexeme → Bool
  | .punct symbol _ => !(['/', '.', '#'].contains symbol)
  | _ => false

/-- Tokens that end at an offset are punctuation that stands alone. -/
def EndsApart (tokens : List Token) (offset : Nat) : Prop :=
  ∀ t ∈ tokens, t.span.stop = offset → t.lexeme.standsAlone

/-- At an offset of a text with some tokens another text `w` that shows trees may go on: it goes on as the
text does, or it starts an item that nothing in front of the offset goes on into. -/
inductive Meets (tokens : List Token) (text : List Char) (offset : Nat) (w : List Char)
    (trees : List TokenTree) : Prop
  | resumes : Resumes (text.drop offset) w → Meets tokens text offset w trees
  | item : startsItem w → EndsApart tokens offset → atPunct ':' trees = false →
      Meets tokens text offset w trees

section Meets

variable {file : String} {text v w s : List Char} {before after : List Token} {t : Token}
  {trees : List TokenTree} {symbol : Char} {joint : Bool} {span : Span} {m : Nat}

/-- Punctuation that stands alone does not go on into an item. -/
theorem endsBefore_of_standsAlone {l : Lexeme} (hl : l.standsAlone) (hw : startsItem w) :
  l.plain.EndsBefore w
  := by
  cases l with
  | punct symbol joint =>
      rw [Lexeme.standsAlone, Bool.not_eq_true'] at hl
      exact ⟨hl, fun _ => (startsWith_isDigit_of_startsItem hw).1⟩
  | _ => cases hl

/-- A token shows itself in front of every text that meets it. -/
theorem Seam.shows_token (htokens : tokensOf file text = .ok (before ++ t :: after))
    (h : Seam file text before m) (hm : m ≤ t.span.start)
    (hw : Meets (before ++ t :: after) text t.span.stop w trees) :
  Shows (slice text m t.span.stop) w [t.lexeme.pairedIf (w.head? == some ':')]
  := by
  have htokens' : tokensOf file text = .ok (before ++ ([] ++ t :: after)) := htokens
  obtain ⟨b, hshows⟩ : ∃ b, Shows (slice text m t.span.stop) (text.drop t.span.stop)
    ([] ++ [t.lexeme.pairedIf b]) := h.shows_to htokens' hm
  apply Shows.of_cuts hshows (h.lexesTo htokens' hm)
  intro ps p hcuts hclean hlast
  cases hw with
  | resumes hw =>
      apply hcuts.of_alike _ hw.alike
      rw [List.forall_mem_append, List.forall_mem_singleton]
      exact ⟨hclean, Piece.isClean_of_lexeme hlast⟩
  | item hw hapart =>
      have ht := hapart t (by simp) rfl
      exact hcuts.of_endsBefore hclean hlast (endsBefore_of_standsAlone ht hw)

/-- A colon directly follows another one exactly if that one is joint and the next token is a colon. -/
theorem head?_drop_iff (htokens : tokensOf file text = .ok (before ++ t :: after))
    (ht : t.lexeme.isPunct ':') :
  (text.drop t.span.stop).head? = some ':' ↔
    t.lexeme.isJoint ∧ (after.map (·.lexeme)).head?.any (·.isPunct ':')
  := by
  obtain ⟨hstart, hstop, hle⟩ := seams_of_token htokens
  have hmeets : Meets (before ++ t :: after) text t.span.stop (text.drop t.span.stop) [] :=
    .resumes (.refl _)
  have hshows := hstart.shows_token htokens (Nat.le_refl _) hmeets
  have htokens' : tokensOf file text = .ok (before ++ ([t] ++ after)) := htokens
  have hshows' := hstart.shows_between htokens' hstop hle
  rw [List.map_singleton, pairedBefore_singleton] at hshows'
  obtain ⟨hlexeme, -⟩ := List.cons_eq_cons.mp (hshows.unique hshows')
  obtain ⟨joint, span, rfl⟩ := Cursor.exists_of_isPunct ht
  have hjoint := (Lexeme.punct.inj hlexeme).2
  rw [← beq_iff_eq, hjoint, Bool.and_eq_true]

/-- Punctuation tells how the text in front of it goes on, with few exceptions. -/
theorem resumes_punct (htokens : tokensOf file text = .ok (before ++ ⟨.punct symbol joint, span⟩ :: after))
    (hm : m ≤ span.start) (hsymbol : ['/', '.', '#'].contains symbol = false)
    (hw : symbol == '+' || symbol == '-' → startsWith isDigit w = false) :
  Resumes (text.drop m) (slice text m span.stop ++ w)
  := by
  obtain ⟨u, hstands⟩ := stands_of_tokensOf htokens ⟨.punct symbol joint, span⟩ (by simp)
  obtain ⟨c, r, -, hopens, -⟩ := hstands.exists_start
  rw [Lexeme.opensWith, Bool.and_eq_true, beq_iff_eq] at hopens
  obtain ⟨rfl, hmark⟩ := hopens
  have hreturn : c ≠ '\r' := by
    rintro rfl
    revert hmark
    decide
  obtain ⟨hslice, hle⟩ := slice_punct htokens
  rw [← slice_append_slice hm hle, hslice, ← slice_append_drop hm, drop_punct htokens,
    List.append_assoc, List.singleton_append]
  simp only [List.contains_cons, List.contains_nil, Bool.or_eq_false_iff, beq_eq_false_iff_ne]
    at hsymbol
  have hresumes : Resumes (c :: text.drop span.stop) (c :: w) :=
    ⟨.shared (by simp [hsymbol, hreturn]) hw, id⟩
  exact hresumes.append _

/-- A text with a token in front of it goes on as it does where the token stands. -/
theorem Meets.resumes_cons (htokens : tokensOf file text = .ok (before ++ t :: after))
    (hm : m ≤ t.span.start) (hw : Meets (before ++ t :: after) text t.span.stop w trees) :
  Resumes (text.drop m) (slice text m t.span.stop ++ w)
  := by
  cases hw with
  | resumes hw =>
      rw [← slice_append_drop (hm.trans (seams_of_token htokens).2.2)]
      exact hw.append _
  | item hw hapart =>
      have ht := hapart t (by simp) rfl
      obtain ⟨l, span⟩ := t
      cases l with
      | punct symbol joint =>
          rw [Lexeme.standsAlone, Bool.not_eq_true'] at ht
          exact resumes_punct htokens hm ht fun _ => (startsWith_isDigit_of_startsItem hw).1
      | _ => cases ht

theorem head?_shownAll (trees : List TokenTree) :
  (shownAll trees).head?.any (·.isPunct ':') = atPunct ':' trees
  := by
  rw [← head?_tokensAll_eq, shownAll]
  cases (tokensAll trees).map (·.lexeme) with
  | nil => rfl
  | cons l lexemes =>
      rw [pairedBefore, List.head?_cons, List.head?_cons, Option.any_some, Option.any_some,
        ← Lexeme.isPunct_plain, Lexeme.plain_pairedIf, Lexeme.isPunct_plain]

/-- A token in front of a text that shows trees shows itself with them. -/
theorem Seam.shows_cons (htokens : tokensOf file text = .ok (before ++ t :: after))
    (h : Seam file text before m) (hm : m ≤ t.span.start)
    (hw : Meets (before ++ t :: after) text t.span.stop (s ++ v) trees)
    (hs : Shows s v (shownAll trees)) (hv : v.head? ≠ some ':')
    (hnext : atPunct ':' trees → (after.map (·.lexeme)).head?.any (·.isPunct ':')) :
  Shows (slice text m t.span.stop ++ s) v (shownAll (.token t :: trees))
  := by
  have hshownAll : shownAll (.token t :: trees) =
      [t.lexeme.pairedIf ((s ++ v).head? == some ':')] ++ shownAll trees := by
    rw [shownAll, tokensAll, tokens, List.singleton_append, List.map_cons, pairedBefore, Option.or_none,
      head?_tokensAll_eq]
    congr 1
    apply Lexeme.pairedIf_congr
    intro ht
    rw [Bool.eq_iff_iff, Bool.and_eq_true, beq_iff_eq]
    constructor
    · rintro ⟨hjoint, htrees⟩
      have hdrop := (head?_drop_iff htokens ht).mpr ⟨hjoint, hnext htrees⟩
      cases hw with
      | resumes hw => exact hw.colon hdrop
      | item _ _ hno =>
          rw [hno] at htrees
          cases htrees
    · intro hhead
      cases hw with
      | item hw => exact absurd hhead (startsWith_isDigit_of_startsItem hw).2
      | resumes hw =>
          use ((head?_drop_iff htokens ht).mp (hw.alike.head? hhead)).1
          rw [← head?_shownAll]
          cases s with
          | nil => exact absurd hhead hv
          | cons c s =>
              obtain rfl := Option.some.inj hhead
              exact hs.isPunct_head?
  rw [hshownAll]
  exact (h.shows_token htokens hm hw).append hs

end Meets

/-- In front of `w`, a text shows trees, and it may stand at an offset of another text. -/
structure Renders (tokens : List Token) (text : List Char) (offset : Nat) (s w : List Char)
    (trees : List TokenTree) : Prop where
  shows : Shows s w (shownAll trees)
  meets : Meets tokens text offset (s ++ w) trees

section Renders

variable {file : String} {text s s' w : List Char} {tokens before mid after : List Token} {t : Token}
  {trees front inside : List TokenTree} {d : Delimiter} {opening closing : Span} {m n : Nat}

theorem Renders.nil (htokens : tokensOf file text = .ok (before ++ after)) (h : Seam file text before m)
    (h' : Seam file text before n) (hmn : m ≤ n) (hw : Resumes (text.drop n) w) :
  Renders tokens text m (slice text m n) w []
  := by
  have htokens' : tokensOf file text = .ok (before ++ ([] ++ after)) := htokens
  have hshows := h.shows_between htokens' (by rwa [List.append_nil]) hmn
  use hshows.of_alike hw.alike hw.colon
  apply Meets.resumes
  rw [← slice_append_drop hmn]
  exact hw.append _

/-- A token in front of a text that renders trees. -/
theorem Renders.token (htokens : tokensOf file text = .ok (before ++ t :: after))
    (hseam : Seam file text before m) (hm : m ≤ t.span.start)
    (h : Renders (before ++ t :: after) text t.span.stop s w trees) (hw : w.head? ≠ some ':')
    (hnext : atPunct ':' trees → (after.map (·.lexeme)).head?.any (·.isPunct ':')) :
  Renders (before ++ t :: after) text m (slice text m t.span.stop ++ s) w (.token t :: trees)
  := by
  use hseam.shows_cons htokens hm h.meets h.shows hw hnext
  rw [List.append_assoc]
  exact .resumes (h.meets.resumes_cons htokens hm)

/-- A group in front of a text that shows trees. -/
theorem Renders.group
    (htokens : tokensOf file text = .ok (before ++ ⟨.punct d.opening false, opening⟩ ::
      (mid ++ ⟨.punct d.closing false, closing⟩ :: after)))
    (hseam : Seam file text before m) (hm : m ≤ opening.start)
    (hinside : Shows s (d.closing :: (s' ++ w)) (shownAll inside)) (h : Shows s' w (shownAll trees)) :
  Renders tokens text m
    (slice text m opening.stop ++ (s ++ (slice text closing.start closing.stop ++ s'))) w
    (.group d inside opening closing :: trees)
  := by
  have hclosing : tokensOf file text = .ok ((before ++ ⟨.punct d.opening false, opening⟩ :: mid) ++
      ⟨.punct d.closing false, closing⟩ :: after) := by rw [htokens]; simp
  have hopening {v : List Char} : Shows (slice text m opening.stop) v [.punct d.opening false] := by
    have hends : (Lexeme.punct d.opening false).plain.EndsBefore v := by
      cases d <;> exact ⟨rfl, fun h => absurd h (by decide)⟩
    have htokens' : tokensOf file text = .ok (before ++ ([] ++ ⟨.punct d.opening false, opening⟩ ::
        (mid ++ ⟨.punct d.closing false, closing⟩ :: after))) := htokens
    have hcolon : ¬ (Lexeme.punct d.opening false).isPunct ':' := by cases d <;> decide
    have hshows := hseam.shows htokens' hm hends fun h => absurd h hcolon
    cases d <;> exact hshows
  constructor
  · rw [(slice_punct hclosing).1, shownAll_group]
    apply hopening.append
    apply hinside.append
    exact (shows_mark (by cases d <;> decide) (by cases d <;> decide)).append h
  · apply Meets.resumes
    rw [List.append_assoc]
    exact resumes_punct htokens hm (by cases d <;> rfl)
      fun h => by cases d <;> exact absurd h (by decide)

/-- An item behind a stretch without tokens and in front of a text that shows trees. -/
theorem Renders.item (htokens : tokensOf file text = .ok tokens) (hm : Seam file text before m)
    (hn : Seam file text before n) (hmn : m ≤ n) (hvisible : startsVisibly (text.drop n))
    (hapart : EndsApart tokens n) (hitem : startsItem (s ++ (s' ++ w)))
    (hs : Shows s (s' ++ w) (shownAll front)) (h : Shows s' w (shownAll trees))
    (hfirst : atPunct ':' (front ++ trees) = false)
    (hlast : ∀ tree ∈ front.getLast?, (lastLexeme tree).isPunct ':' = false) :
  Renders tokens text m (slice text m n ++ (s ++ s')) w (front ++ trees)
  := by
  obtain ⟨hgap, hmeets⟩ := hm.shows_gap htokens hn hmn hvisible (startsVisibly_of_startsItem hitem)
  constructor
  · rw [shownAll_append (.inl hlast), ← List.nil_append (shownAll front ++ _)]
    apply Shows.append _ (hs.append h)
    rwa [List.append_assoc]
  · rw [List.append_assoc, List.append_assoc]
    rcases hmeets with rfl | hmeets
    · apply Meets.item _ hapart hfirst
      rwa [slice, Nat.sub_self, List.take_zero, List.nil_append]
    · exact .resumes hmeets

end Renders

end ReturnCaptures
