import ReturnCaptures.Proofs.Standing

/-!
# Printed trees read again

The printed text of trees lexes to their tokens, except in two places. A whole number that a
point follows turns into a floating-point number with it, unless the point is followed by a
word or, directly, by a second point. A documentation comment that takes up its line and ends
in a carriage return loses this character to the end of its line.
-/

namespace ReturnCaptures

open Scan TokenTree

namespace Printer

/-! ### Atoms and tokens -/

namespace Atom

/-- An atom as the lexeme that it is the text of. -/
def toLexeme : Atom → Lexeme
  | .lexeme l => l
  | .opening d => .punct d.opening false
  | .closing d => .punct d.closing false

variable {a : Atom} {c : Char}

theorem toList_text_toLexeme (a : Atom) :
  a.toLexeme.text.toList = a.text
  := by
  cases a with
  | lexeme l => rfl
  | opening d => apply String.toList_singleton
  | closing d => apply String.toList_singleton

theorem exists_of_isPunct (h : a.isPunct c) :
  ∃ j, a = .lexeme (.punct c j)
  := by
  cases a with
  | lexeme l =>
      cases l with
      | punct symbol j =>
          use j
          rw [eq_of_beq h]
      | _ => cases h
  | opening d => cases h
  | closing d => cases h

theorem text_of_isPunct (h : a.isPunct c) :
  a.text = [c]
  := by
  obtain ⟨j, rfl⟩ := exists_of_isPunct h
  apply String.toList_singleton

end Atom

/-- The atoms of trees are their tokens. -/
theorem map_toLexeme_atomsAll (trees : List TokenTree) :
  (atomsAll trees).map Atom.toLexeme = (tokensAll trees).map (·.lexeme)
  := by
  induction trees using induction_siblings with
  | nil => rfl
  | token t trees ih =>
      rw [atomsAll, List.map_append, ih, tokensAll, List.map_append]
      rfl
  | group d inside opening closing trees ihinside ih =>
      rw [atomsAll, List.map_append, ih, tokensAll, List.map_append, atoms, tokens]
      simp only [List.map_cons, List.map_append, ihinside]
      rfl

/-! ### What is printed after an atom -/

section Separator

variable {before : Option Atom} {cur : Atom} {l : Lexeme}

/-- The characters of which some atom is printed directly after a word. -/
def attaching : List Char := [',', ';', ':', '(', ')', '[', ']', '.', '?', '!', '<', '>']

/-- Whether the atom `cur` is a character that is printed directly after words, and that a number
in front of it does not end in. -/
def Attaches (prev cur : Atom) : Prop :=
  ∃ c, attaching.contains c ∧ cur.text = [c] ∧ (c = '.' → endsInPoint prev = false)

theorem attaches_of_text {prev : Atom} {c : Char} (h : cur.text = [c]) (hc : attaching.contains c)
    (hpoint : c ≠ '.') :
  Attaches prev cur
  := ⟨c, hc, h, fun h => absurd h hpoint⟩

theorem glues_cases (hpunct : ∀ c, c ≠ '/' → l.isPunct c = false) :
  glues before (.lexeme l) cur = false ∨ Attaches (.lexeme l) cur
  := by
  have hno {c : Char} (hc : c ≠ '/') : (Atom.lexeme l).isPunct c = false := hpunct c hc
  cases cur with
  | opening d =>
      cases d with
      | brace => left; rfl
      | paren => right; apply attaches_of_text (c := '(') rfl (by decide) (by decide)
      | bracket => right; apply attaches_of_text (c := '[') rfl (by decide) (by decide)
  | closing d =>
      cases d with
      | brace => left; rfl
      | paren => right; apply attaches_of_text (c := ')') rfl (by decide) (by decide)
      | bracket => right; apply attaches_of_text (c := ']') rfl (by decide) (by decide)
  | lexeme m =>
      have hplain : glues before (.lexeme l) (.lexeme m) = gluesPlain before (.lexeme l) (.lexeme m) :=
        rfl
      rw [hplain, gluesPlain]
      split_ifs with hpoint hprev hquestion hbang hless hprev' hgreater
      · cases hend : endsInPoint (.lexeme l) with
        | true => left; rfl
        | false => right; exact ⟨'.', rfl, Atom.text_of_isPunct hpoint, fun _ => hend⟩
      · rw [hno (by decide)] at hprev
        cases hprev
      · right; apply attaches_of_text (Atom.text_of_isPunct hquestion) (by decide) (by decide)
      · right; apply attaches_of_text (Atom.text_of_isPunct hbang) (by decide) (by decide)
      · right; apply attaches_of_text (Atom.text_of_isPunct hless) (by decide) (by decide)
      · rw [hno (by decide)] at hprev'
        cases hprev'
      · right; apply attaches_of_text (Atom.text_of_isPunct hgreater) (by decide) (by decide)
      · left; rfl
      · left
        simp [isPrefixOperator, hno]

/-- After a word, a literal or a slash stands a blank, unless what follows is directly joined to
it or a character that is printed directly after words. -/
theorem separator_cases (hdoc : ∀ inner text, l ≠ .doc inner text)
    (hpunct : ∀ c, c ≠ '/' → l.isPunct c = false) :
  separator before (.lexeme l) cur = [' '] ∨ separator before (.lexeme l) cur = [] ∧
    (l.isJoint ∧ (cur.isAnyPunct || cur.isLifetime) ∨ Attaches (.lexeme l) cur)
  := by
  have hseparator : separator before (.lexeme l) cur =
      if l.isJoint && (cur.isAnyPunct || cur.isLifetime) then []
      else if (Atom.lexeme l).isAnyPunct && cur.isAnyPunct && (Atom.lexeme l).merges cur then [' ']
      else if cur.isPunct ',' || cur.isPunct ';' then []
      else if (Atom.lexeme l).isPunct ':' then blankUnless (endsSeparator before)
      else if cur.isPunct ':' then blankUnless (gluesColon (.lexeme l))
      else blankUnless (glues before (.lexeme l) cur) := by
    cases l <;> first | rfl | exact absurd rfl (hdoc _ _)
  have hblank {g : Bool} (hg : g = false ∨ Attaches (.lexeme l) cur) :
      blankUnless g = [' '] ∨ blankUnless g = [] ∧
        (l.isJoint ∧ (cur.isAnyPunct || cur.isLifetime) ∨ Attaches (.lexeme l) cur) := by
    cases g with
    | false => left; rfl
    | true =>
        right
        use rfl
        right
        exact hg.resolve_left (by decide)
  rw [hseparator]
  split_ifs with hjoint hmerge hcomma hcolon hcolon'
  · right
    use rfl
    left
    rwa [Bool.and_eq_true] at hjoint
  · left; rfl
  · right
    use rfl
    right
    rw [Bool.or_eq_true] at hcomma
    rcases hcomma with hcomma | hcomma
    · apply attaches_of_text (Atom.text_of_isPunct hcomma) (by decide) (by decide)
    · apply attaches_of_text (Atom.text_of_isPunct hcomma) (by decide) (by decide)
  · rw [Atom.isPunct, hpunct ':' (by decide)] at hcolon
    cases hcolon
  · apply hblank
    right
    apply attaches_of_text (Atom.text_of_isPunct hcolon') (by decide) (by decide)
  · apply hblank (glues_cases hpunct)

theorem isBlank_separator (before : Option Atom) (prev cur : Atom) :
  isBlank (separator before prev cur)
  := by
  have hblank (g : Bool) : isBlank (blankUnless g) := by cases g <;> decide
  rw [separator.eq_def]
  split
  case h_1 text =>
    rw [afterDoc]
    split_ifs <;> decide
  case h_2 =>
    split_ifs
    · rfl
    · decide
    · rfl
    · apply hblank
    · apply hblank
    · apply hblank

end Separator

/-! ### Points after numbers -/

/-- Whether a point takes no part in a number in front of it: a word follows, or directly a
second point. -/
def keepsPoint (point : Atom) : List Atom → Bool
  | [] => false
  | next :: _ => point.isJoint && next.isPunct '.' || startsWith isWordStart next.text

section Point

variable {before : Option Atom} {j : Bool} {next : Atom} {rest : List Atom} {c : Char} {r : List Char}

/-- A lexeme that starts with a letter is no punctuation, no lifetime and no comment. -/
theorem separator_of_isWordStart {l : Lexeme} (hl : l.opensWith c) (hc : isWordStart c) :
  separator before (.lexeme (.punct '.' j)) (.lexeme l) = []
  := by
  have hne {d : Char} (hd : isWordStart d = false) : c ≠ d := by
    rintro rfl
    rw [hc] at hd
    cases hd
  cases l with
  | lifetime => exact absurd (eq_of_beq hl) (hne (by decide))
  | doc => exact absurd (eq_of_beq hl) (hne (by decide))
  | punct d k =>
      simp only [Lexeme.opensWith, Bool.and_eq_true] at hl
      rw [(class_of_isMarkChar hl.2).2] at hc
      cases hc
  | ident => cases j <;> rfl
  | keyword => cases j <;> rfl
  | literal => cases j <;> rfl

/-- Two points that are not joint are printed apart. -/
theorem separator_points {k : Bool} :
  separator before (.lexeme (.punct '.' j)) (.lexeme (.punct '.' k)) = if j then [] else [' ']
  := by
  have hmerges : (Atom.lexeme (.punct '.' j)).merges (.lexeme (.punct '.' k)) := by
    cases j <;> cases k <;> decide
  cases j with
  | true => rfl
  | false =>
      rw [separator.eq_def]
      simp only [hmerges]
      rfl

theorem exists_point {a : Atom} (h : a.toLexeme.opensWith '.') :
  ∃ k, a = .lexeme (.punct '.' k)
  := by
  have hword : isWordStart '.' = false := by decide
  have hdigit : isDigit '.' = false := by decide
  cases a with
  | opening d => cases d <;> cases h
  | closing d => cases d <;> cases h
  | lexeme l =>
      cases l with
      | punct d k =>
          simp only [Atom.toLexeme, Lexeme.opensWith, Bool.and_eq_true] at h
          use k
          rw [eq_of_beq h.1]
      | ident | keyword => simp [Atom.toLexeme, Lexeme.opensWith, hword] at h
      | literal => simp [Atom.toLexeme, Lexeme.opensWith, hdigit] at h
      | lifetime | doc => cases h

/-- Blanks in front of a text do not make it start with an active character. -/
theorem startsWith_isBlank_append {p : Char → Bool} {b w : List Char} (hb : isBlank b)
    (hp : ∀ c, p c → isActive c) (hw : startsWith p w = false) :
  startsWith p (b ++ w) = false
  := by
  cases b with
  | nil => apply hw
  | cons d b =>
      rw [isBlank, List.all_cons, Bool.and_eq_true] at hb
      by_contra h
      rw [Bool.not_eq_false] at h
      have hactive := hp d h
      rw [isActive_of_isWhitespace hb.1] at hactive
      cases hactive

/-- What is printed after a point starts with a second point, or with a word, as what follows
the point tells. -/
theorem startsWith_textAfter_point (hrest : ∀ a ∈ rest, ∃ u, a.toLexeme.Stands u) :
  startsWith (fun c => c == '.' || isWordStart c)
      (textAfter before (.lexeme (.punct '.' j)) rest) =
    keepsPoint (.lexeme (.punct '.' j)) rest
  := by
  cases rest with
  | nil => rfl
  | cons next rest =>
      obtain ⟨u, hstands⟩ := hrest next List.mem_cons_self
      obtain ⟨c, r, hr, hopens, _⟩ := hstands.exists_start
      rw [Atom.toList_text_toLexeme] at hr
      rw [textAfter, keepsPoint, hr]
      by_cases hpoint : c = '.'
      · subst hpoint
        obtain ⟨k, rfl⟩ := exists_point hopens
        rw [separator_points]
        cases j <;> rfl
      by_cases hword : isWordStart c
      · have hseparator : separator before (.lexeme (.punct '.' j)) next = [] := by
          cases next with
          | lexeme l => apply separator_of_isWordStart hopens hword
          | opening d | closing d =>
              simp only [Atom.toLexeme, Lexeme.opensWith, Bool.and_eq_true] at hopens
              rw [(class_of_isMarkChar hopens.2).2] at hword
              cases hword
        simp [hseparator, startsWith, hword]
      · have hstart (s : List Char) :
            startsWith (fun c => c == '.' || isWordStart c) (c :: s) = false := by
          simp [startsWith, hpoint, hword]
        have hnext : next.isPunct '.' = false := by
          by_contra hnext
          rw [Bool.not_eq_false] at hnext
          apply hpoint
          have htext := hr.symm.trans (Atom.text_of_isPunct hnext)
          apply (List.cons_eq_cons.mp htext).1
        rw [List.append_assoc, List.cons_append, startsWith_isBlank_append (isBlank_separator _ _ _) _ (hstart _), hnext,
          Bool.and_false, Bool.false_or]
        · simp [startsWith, hword]
        · intro d hd
          rcases Bool.or_eq_true_iff.mp hd with hd | hd
          · obtain rfl := eq_of_beq hd
            decide
          · apply isActive_of_isWordChar (isWordChar_of_isWordStart hd)

end Point

/-! ### Printed atoms where they stand -/

/-- Whether `prev` would not be read again in front of the text that is printed for `rest`. -/
def fusesWith (prev : Atom) : List Atom → Bool
  | [] => false
  | cur :: rest =>
    prev.toLexeme.endsInReturn || prev.toLexeme.isWhole && cur.isPunct '.' && !keepsPoint cur rest

/-- Whether some atom is not read again in front of the text that is printed after it. -/
def fuses : List Atom → Bool
  | [] => false
  | prev :: rest => fusesWith prev rest || fuses rest

section Read

variable {before : Option Atom} {prev cur : Atom} {rest : List Atom} {u : List Char}

theorem fractionLength_point (s : List Char) :
  fractionLength ('.' :: s) = 0 ↔ startsWith (fun c => c == '.' || isWordStart c) s
  := by
  rw [fractionLength]
  split
  case isTrue h => simp [h]
  case isFalse h =>
    constructor
    · intro hzero
      omega
    · intro hstart
      exact absurd hstart h

/-- A word, a lifetime or a literal is read again in front of what is printed after it. -/
theorem stands_of_isSpelled {l : Lexeme} (h : l.Stands u) (hl : l.isSpelled)
    (hrest : ∀ a ∈ cur :: rest, ∃ u, a.toLexeme.Stands u)
    (hfuses : (l.isWhole && cur.isPunct '.' && !keepsPoint cur rest) = false) :
  l.Stands (textAfter before (.lexeme l) (cur :: rest))
  := by
  have hdoc (inner : Bool) (text : String) : l ≠ .doc inner text := by
    rintro rfl
    cases hl
  have hpunct (c : Char) : l.isPunct c = false := by
    cases l <;> first | rfl | cases hl
  rw [textAfter, List.append_assoc]
  rcases separator_cases hdoc fun c _ => hpunct c with
    hblank | ⟨hnone, ⟨hjoint, _⟩ | ⟨c, hc, htext, hpoint⟩⟩
  · rw [hblank]
    apply h.of_isSpelled hl
    exact (by decide : isActive ' ' = false)
  · cases l with
    | punct => cases hl
    | _ => cases hjoint
  · rw [hnone, htext, List.nil_append, List.singleton_append]
    by_cases hdot : c = '.'
    · subst hdot
      obtain ⟨v, hcur⟩ := hrest cur List.mem_cons_self
      obtain ⟨d, r, hr, hopens, _⟩ := hcur.exists_start
      rw [Atom.toList_text_toLexeme, htext] at hr
      obtain ⟨rfl, _⟩ := List.cons_eq_cons.mp hr
      obtain ⟨j, rfl⟩ := exists_point hopens
      apply h.of_point hl (hpoint rfl)
      intro hwhole
      rw [fractionLength_point,
        startsWith_textAfter_point fun a ha => hrest a (List.mem_cons_of_mem _ ha)]
      simpa [hwhole, Atom.isPunct, Lexeme.isPunct] using hfuses
    · have hall : attaching.all fun c => c == '.' || !isActive c := by decide
      have hactive := List.all_eq_true.mp hall c (List.contains_iff_mem.mp hc)
      apply h.of_isSpelled hl
      simpa [hdot, startsWith] using hactive

/-- No slash and no star is printed directly after a slash. -/
theorem head?_textAfter_slash {c : Char} {j : Bool} (hc : c = '/' ∨ c = '*')
    (hcur : cur.toLexeme.Stands u) (hslash : SlashApart (.punct '/' j) cur.toLexeme) :
  (textAfter before (.lexeme (.punct '/' j)) (cur :: rest)).head? ≠ some c
  := by
  have hpunct (c : Char) (h : c ≠ '/') : (Lexeme.punct '/' j).isPunct c = false :=
    beq_false_of_ne h.symm
  rw [textAfter, List.append_assoc]
  rcases separator_cases (fun _ _ => by simp) hpunct with
    hblank | ⟨hnone, ⟨hjoint, _⟩ | ⟨d, hd, htext, _⟩⟩
  · rw [hblank]
    rcases hc with rfl | rfl <;> simp
  · obtain ⟨d, r, hr, _⟩ := hcur.exists_start
    obtain rfl : j = true := hjoint
    have hapart := hslash rfl
    rw [hr] at hapart
    rw [Atom.toList_text_toLexeme] at hr
    rw [hnone, hr]
    rcases hc with rfl | rfl
    · apply hapart.1
    · apply hapart.2
  · rw [hnone, htext]
    rintro ⟨⟩
    rcases hc with rfl | rfl <;> revert hd <;> decide

/-- An atom is read again in front of what is printed after it, unless they fuse. -/
theorem stands_textAfter (h : prev.toLexeme.Stands u) (hrest : ∀ a ∈ rest, ∃ u, a.toLexeme.Stands u)
    (hslash : ∀ a ∈ rest.head?, SlashApart prev.toLexeme a.toLexeme)
    (hfuses : fusesWith prev rest = false) :
  prev.toLexeme.Stands (textAfter before prev rest)
  := by
  obtain _ | ⟨cur, rest⟩ := rest
  · apply h.nil
  rw [fusesWith, Bool.or_eq_false_iff] at hfuses
  cases prev with
  | opening d => apply h.of_punct (by cases d <;> decide)
  | closing d => apply h.of_punct (by cases d <;> decide)
  | lexeme l =>
      cases l with
      | doc inner text =>
          rw [textAfter, List.append_assoc]
          apply h.of_doc hfuses.1
      | punct c j =>
          by_cases hc : c = '/'
          · subst hc
            obtain ⟨v, hcur⟩ := hrest cur List.mem_cons_self
            apply stands_slash
            · apply head?_textAfter_slash (.inl rfl) hcur (hslash cur rfl)
            · apply head?_textAfter_slash (.inr rfl) hcur (hslash cur rfl)
          · apply h.of_punct hc
      | _ => apply stands_of_isSpelled h rfl hrest hfuses.2

/-- Atoms of which none fuses with what is printed after it are read again. -/
theorem lexes_textAfter (hstands : ∀ a ∈ prev :: rest, ∃ u, a.toLexeme.Stands u)
    (hchain : (prev :: rest).IsChain fun a b => SlashApart a.toLexeme b.toLexeme)
    (hfuses : fuses (prev :: rest) = false) :
  Lexes (prev.text ++ textAfter before prev rest) [] ((prev :: rest).map (·.toLexeme.plain))
  := by
  induction rest generalizing before prev with
  | nil =>
      obtain ⟨u, hu⟩ := hstands prev List.mem_cons_self
      rw [textAfter, List.append_nil, ← Atom.toList_text_toLexeme]
      apply hu.nil.lexes
  | cons cur rest ih =>
      rw [fuses, Bool.or_eq_false_iff] at hfuses
      rw [List.forall_mem_cons] at hstands
      rw [List.isChain_cons] at hchain
      obtain ⟨u, hu⟩ := hstands.1
      have hprev : prev.toLexeme.Stands (textAfter before prev (cur :: rest)) :=
        stands_textAfter hu hstands.2 hchain.1 hfuses.1
      have hrest : Lexes (cur.text ++ textAfter (some prev) cur rest) [] _ :=
        ih hstands.2 hchain.2 hfuses.2
      have hblank : Lexes (separator before prev cur) (cur.text ++ textAfter (some prev) cur rest ++ [])
          [] := lexes_isBlank (isBlank_separator _ _ _)
      have hlexes := hprev.lexes
      rw [Atom.toList_text_toLexeme, ← List.append_nil (textAfter before prev (cur :: rest))] at hlexes
      apply hlexes.append
      rw [textAfter, List.append_assoc]
      apply hblank.append hrest

/-- A point is printed directly after a number of digits. -/
theorem separator_of_isWhole {kind : LiteralKind} {text : String} {j : Bool}
    (h : (Lexeme.literal kind text).isWhole) :
  separator before (.lexeme (.literal kind text)) (.lexeme (.punct '.' j)) = []
  := by
  have hend : endsInPoint (.lexeme (.literal kind text)) = false := by
    cases kind with
    | float =>
        by_contra hend
        rw [Bool.not_eq_false] at hend
        have hlast := List.mem_of_getLast? (eq_of_beq hend)
        exact absurd (List.all_eq_true.mp h '.' hlast) (by decide)
    | _ => rfl
  have hseparator : separator before (.lexeme (.literal kind text)) (.lexeme (.punct '.' j)) =
      blankUnless (!endsInPoint (.lexeme (.literal kind text))) := by
    cases j <;> rfl
  rw [hseparator, hend]
  rfl

/-- An atom that fuses with what is printed after it is read as another lexeme. -/
theorem exists_start_of_fusesWith (h : prev.toLexeme.Stands u) (hfuses : fusesWith prev rest)
    (hrest : ∀ a ∈ rest, ∃ u, a.toLexeme.Stands u) :
  ∃ c w l, prev.text ++ textAfter before prev rest = c :: w ∧ (start c w).reading = .lexeme l ∧
    l.text ≠ prev.toLexeme.text
  := by
  obtain _ | ⟨cur, rest⟩ := rest
  · cases hfuses
  rw [fusesWith, Bool.or_eq_true] at hfuses
  rcases hfuses with hreturn | hwhole
  · obtain ⟨inner, text, rfl⟩ : ∃ inner text, prev = .lexeme (.doc inner text) := by
      cases prev with
      | lexeme l =>
          cases l with
          | doc inner text => use inner, text
          | _ => cases hreturn
      | _ => cases hreturn
    obtain ⟨hafter, r, l', hr, hreading, hlt⟩ :=
      h.of_endsInReturn (v := cur.text ++ textAfter (some (.lexeme (.doc inner text))) cur rest) hreturn
    refine ⟨'/', _, l', ?_, hreading, ?_⟩
    · have hseparator : separator before (.lexeme (.doc inner text)) cur = ['\n'] := hafter
      rw [textAfter, hseparator, Atom.text, Lexeme.text, hr]
      simp
    · intro htext
      have hlength := length_text_of_start hreading
      rw [htext] at hlength
      exact absurd hlength (Nat.ne_of_gt hlt)
  · rw [Bool.and_eq_true, Bool.and_eq_true, Bool.not_eq_true'] at hwhole
    obtain ⟨⟨hwhole, hcur⟩, hpoint⟩ := hwhole
    obtain ⟨kind, text, rfl⟩ : ∃ kind text, prev = .lexeme (.literal kind text) := by
      cases prev with
      | lexeme l =>
          cases l with
          | literal kind text => use kind, text
          | _ => cases hwhole
      | _ => cases hwhole
    obtain ⟨j, rfl⟩ := Atom.exists_of_isPunct hcur
    obtain ⟨c, r, hr, hopens, _⟩ := h.exists_start
    have hall : (c :: r).all isDigitOrUnderscore := by
      rw [← hr]
      apply hwhole
    have hdigit : isDigit c := by
      rw [List.all_cons, Bool.and_eq_true] at hall
      simp only [Atom.toLexeme, Lexeme.opensWith, Bool.or_eq_true, List.contains_iff_mem,
        List.mem_cons, List.not_mem_nil, or_false] at hopens
      rcases hopens with hdigit | rfl | rfl | rfl | rfl | rfl
      · exact hdigit
      all_goals exact absurd hall.1 (by decide)
    have hfraction : fractionLength ('.' :: textAfter (some (.lexeme (.literal kind text)))
        (.lexeme (.punct '.' j)) rest) ≠ 0 := by
      rw [ne_eq, fractionLength_point,
        startsWith_textAfter_point fun a ha => hrest a (List.mem_cons_of_mem _ ha), hpoint]
      decide
    obtain ⟨⟨l, hl⟩, hlt⟩ := start_of_whole hdigit hall hfraction
    refine ⟨c, _, l, ?_, hl, ?_⟩
    · rw [textAfter, separator_of_isWhole hwhole, ← Atom.toList_text_toLexeme, hr,
        Atom.text_of_isPunct hcur]
      simp
    · intro htext
      have hlength := length_text_of_start hl
      rw [htext, hr, List.length_cons] at hlength
      exact absurd hlength (Nat.ne_of_lt hlt)

/-- Atoms that are read again from what is printed for them do not fuse. -/
theorem fuses_of_lexes {lexemes : List Lexeme} (hstands : ∀ a ∈ prev :: rest, ∃ u, a.toLexeme.Stands u)
    (hchain : (prev :: rest).IsChain fun a b => SlashApart a.toLexeme b.toLexeme)
    (h : Lexes (prev.text ++ textAfter before prev rest) [] lexemes)
    (htexts : lexemes.map Lexeme.text = (prev :: rest).map (·.toLexeme.text)) :
  fuses (prev :: rest) = false
  := by
  induction rest generalizing before prev lexemes with
  | nil => rfl
  | cons cur rest ih =>
      rw [List.forall_mem_cons] at hstands
      rw [List.isChain_cons] at hchain
      obtain ⟨u, hu⟩ := hstands.1
      have hprev : fusesWith prev (cur :: rest) = false := by
        by_contra hfuses
        rw [Bool.not_eq_false] at hfuses
        obtain ⟨c, w, l, htext, hreading, hne⟩ :=
          @exists_start_of_fusesWith before _ _ _ hu hfuses hstands.2
        rw [htext] at h
        obtain ⟨lexemes, rfl⟩ := h.exists_rest hreading
        rw [List.map_cons, List.map_cons] at htexts
        apply hne
        rw [← (List.cons_eq_cons.mp htexts).1, Lexeme.text_plain]
      have hstand : prev.toLexeme.Stands (textAfter before prev (cur :: rest)) :=
        stands_textAfter hu hstands.2 hchain.1 hprev
      have hlexes := hstand.lexes
      rw [Atom.toList_text_toLexeme] at hlexes
      obtain ⟨lexemes, rfl, hrest⟩ := hlexes.of_append h
      rw [textAfter, List.append_assoc] at hrest
      obtain ⟨_, rfl, hrest⟩ := (lexes_isBlank (isBlank_separator before prev cur)).of_append hrest
      rw [fuses, hprev, Bool.false_or]
      apply ih hstands.2 hchain.2 hrest
      exact (List.cons_eq_cons.mp htexts).2

end Read

section Print

variable {file : String} {source : List Char} {trees : List TokenTree}

theorem map_plain_atomsAll (trees : List TokenTree) :
  (atomsAll trees).map (·.toLexeme.plain) = lexemesAll trees
  := by
  have hmap := congrArg (List.map Lexeme.plain) (map_toLexeme_atomsAll trees)
  rw [List.map_map, List.map_map] at hmap
  apply hmap

/-- The atoms of the trees of a text are read from their own texts. -/
theorem stands_of_ofText (h : ofText file source = .ok trees) :
  (∀ a ∈ atomsAll trees, ∃ u, a.toLexeme.Stands u) ∧
    (atomsAll trees).IsChain fun a b => SlashApart a.toLexeme b.toLexeme
  := by
  have htokens := (tokensOf_of_ofText h).1
  constructor
  · intro a ha
    have hmem := List.mem_map_of_mem (f := Atom.toLexeme) ha
    rw [map_toLexeme_atomsAll] at hmem
    obtain ⟨t, ht, htoken⟩ := List.mem_map.mp hmem
    rw [← htoken]
    apply stands_of_tokensOf htokens t ht
  · rw [← List.isChain_map Atom.toLexeme, map_toLexeme_atomsAll]
    obtain ⟨hclean, htokens⟩ := tokensOf_eq_ok.mp htokens
    rw [← htokens]
    apply isChain_tokensAt hclean

/-- Trees of a text of which no atom fuses with what is printed after it are read again from
what is printed for them. -/
theorem exists_ofText_print (h : ofText file source = .ok trees)
    (hfuses : fuses (atomsAll trees) = false) (file' : String) :
  ∃ trees', ofText file' (print trees) = .ok trees' ∧ bareAll trees' = bareAll trees
  := by
  obtain ⟨hstands, hchain⟩ := stands_of_ofText h
  have hlexes : Lexes (print trees) [] (lexemesAll trees) := by
    rw [← map_plain_atomsAll, print]
    cases hatoms : atomsAll trees with
    | nil => apply Lexes.nil
    | cons first rest =>
        rw [hatoms] at hstands hchain hfuses
        apply lexes_textAfter hstands hchain hfuses
  obtain ⟨tokens, htokens, hlexemes⟩ := hlexes.exists_tokensOf file'
  obtain ⟨trees', htrees', hbare⟩ := exists_ofTokens (tokensOf_of_ofText h).2 hlexemes
  use trees'
  rw [ofText, htokens]
  use htrees'

/-- Trees that are read again from what is printed for them, token for token, have no atom that
fuses with what is printed after it. -/
theorem fuses_of_ofText {file' : String} {trees' : List TokenTree} (h : ofText file source = .ok trees)
    (h' : ofText file' (print trees) = .ok trees') (hflat : flatAll trees' = flatAll trees) :
  fuses (atomsAll trees) = false
  := by
  obtain ⟨hstands, hchain⟩ := stands_of_ofText h
  have hlexes := lexes_of_tokensOf (tokensOf_of_ofText h').1
  rw [flatAll_eq_map, flatAll_eq_map, ← map_plain_atomsAll trees, List.map_map] at hflat
  rw [print] at hlexes
  cases hatoms : atomsAll trees with
  | nil => rfl
  | cons first rest =>
      rw [hatoms] at hstands hchain hlexes hflat
      apply @fuses_of_lexes none _ _ _ hstands hchain hlexes
      rw [lexemesAll] at hflat
      simpa only [List.map_map, Function.comp_def, Lexeme.text_plain] using hflat

/-- The trees of a text are read again from what is printed for them, token for token, exactly
if no whole number is followed by a point that it fuses with, and no comment that ends in a
carriage return is followed by anything. -/
theorem exists_ofText_print_iff (h : ofText file source = .ok trees) (file' : String) :
  (∃ trees', ofText file' (print trees) = .ok trees' ∧ flatAll trees' = flatAll trees) ↔
    fuses (atomsAll trees) = false
  := by
  constructor
  · rintro ⟨trees', htrees', hflat⟩
    apply fuses_of_ofText h htrees' hflat
  · intro hfuses
    obtain ⟨trees', htrees', hbare⟩ := exists_ofText_print h hfuses file'
    use trees', htrees'
    rw [← flatAll_bareAll trees', hbare, flatAll_bareAll]

theorem exists_ofText_print_members :
  ∃ trees trees',
    ofText "f.rs" "a.0 . b, 1..2, -> 'x', // end\n/// Docs.\nx / /* y */ &'a z".toList = .ok trees ∧
    print trees = "a.0.b, 1..2, -> 'x', /// Docs.\nx / &'a z".toList ∧
    ofText "f.rs" (print trees) = .ok trees' ∧ flatAll trees' = flatAll trees
  := by
  obtain ⟨trees, h, htrees⟩ := Outcome.exists_of_any
    (x := ofText "f.rs" "a.0 . b, 1..2, -> 'x', // end\n/// Docs.\nx / /* y */ &'a z".toList)
    (p := fun trees => !fuses (atomsAll trees) &&
      print trees == "a.0.b, 1..2, -> 'x', /// Docs.\nx / &'a z".toList)
    (by decide +kernel)
  simp only [Bool.and_eq_true, Bool.not_eq_true', beq_iff_eq] at htrees
  obtain ⟨trees', h', hflat⟩ := (exists_ofText_print_iff h "f.rs").mpr htrees.1
  use trees, trees', h, htrees.2

/-- The members `0` and `1` of a tuple are printed as one floating-point number. -/
theorem not_exists_ofText_print_member :
  ∃ trees, ofText "f.rs" "t.0 .1".toList = .ok trees ∧
    ¬∃ trees', ofText "f.rs" (print trees) = .ok trees' ∧ flatAll trees' = flatAll trees
  := by
  obtain ⟨trees, h, htrees⟩ := Outcome.exists_of_any (x := ofText "f.rs" "t.0 .1".toList)
    (p := fun trees => (ofText "f.rs" (print trees)).toOption.all fun trees' =>
      flatAll trees' != flatAll trees)
    (by decide +kernel)
  use trees, h
  rintro ⟨trees', h', hflat⟩
  rw [h'] at htrees
  simp [Except.toOption, hflat] at htrees

end Print

end Printer

end ReturnCaptures
