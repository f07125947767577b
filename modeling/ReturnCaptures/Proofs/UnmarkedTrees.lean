import ReturnCaptures.Proofs.CapturedTexts
import ReturnCaptures.Proofs.CheckedSites
import ReturnCaptures.Proofs.Composition
import ReturnCaptures.Proofs.CopyThrough
import ReturnCaptures.Proofs.ExpansionErrors
import ReturnCaptures.Proofs.Occurrences

/-!
# Trees without marks

Trees hold no marked item exactly if nowhere among them stands the name of a marker macro in front of
an exclamation mark and a group, or a hash in front of brackets around the name of a marker attribute.
So it is decided by at most three trees, wherever the path starts that the name ends. Trees that are
read again from a text that shows them hold no marked item either.
-/

namespace ReturnCaptures

open TokenTree

/-- Whether trees start with the name of a marker macro, an exclamation mark and a group. -/
def atMarkerCall (markers : Markers) : List TokenTree → Bool
  | .token t :: bang :: tree :: _ =>
    t.lexeme.isPathWord && markers.macros.has? (some t.text) == some true && atPunct '!' [bang] &&
      atAnyGroup [tree]
  | _ => false

/-- Whether trees start with what marks an item, no matter which path it ends. -/
def atMark (markers : Markers) (trees : List TokenTree) : Bool :=
  atMarkerCall markers trees || atMarkerAttribute? markers trees == some true

/-- Nothing marks an item at any place among trees. -/
def Clear (markers : Markers) (trees : List TokenTree) : Prop :=
  ∀ place, Occurs place trees → atMark markers place = false

/-! ### Marks where they stand -/

section Marks

variable {markers : Markers} {trees rest inside u w : List TokenTree} {tree bang : TokenTree}
  {t : Token} {d : Delimiter} {opening closing : Span} {name name' : String}

theorem atMark_group :
  atMark markers (.group d inside opening closing :: rest) = false
  := by
  rw [atMark, atMarkerCall, Bool.false_or, atMarkerAttribute?.eq_def]
  · split
    case h_1 heq =>
      obtain ⟨rfl, -⟩ := List.cons_eq_cons.mp heq
      rfl
    case h_2 => rfl
  · simp

theorem clear_nil :
  Clear markers []
  := by
  rintro _ ⟨⟩
  rfl

theorem clear_token :
  Clear markers (.token t :: rest) ↔ atMark markers (.token t :: rest) = false ∧ Clear markers rest
  := by
  constructor
  · intro h
    exact ⟨h _ .here, fun place hplace => h place hplace.behind⟩
  · rintro ⟨hhere, hrest⟩ place hplace
    cases hplace with
    | here => exact hhere
    | behind hplace => exact hrest place hplace

theorem clear_group :
  Clear markers (.group d inside opening closing :: rest) ↔ Clear markers inside ∧ Clear markers rest
  := by
  constructor
  · intro h
    exact ⟨fun place hplace => h place hplace.inside, fun place hplace => h place hplace.behind⟩
  · rintro ⟨hinside, hrest⟩ place hplace
    cases hplace with
    | here => exact atMark_group
    | behind hplace => exact hrest place hplace
    | inside hplace => exact hinside place hplace

/-- A path that is read further has a word at its end. -/
theorem exists_of_pathEnd (h : pathEnd name trees = (name', rest)) :
  (name' = name ∧ rest = trees) ∨
    ∃ u t, trees = u ++ .token t :: rest ∧ t.text = name' ∧ t.lexeme.isPathWord
  := by
  fun_induction pathEnd name trees with
  | case1 name colon colon' t trees hsegment ih =>
      right
      rcases ih h with ⟨rfl, rfl⟩ | ⟨u, s, rfl, hs, hword⟩
      · exact ⟨[colon, colon'], t, rfl, rfl, (Bool.and_eq_true_iff.mp hsegment).2⟩
      · exact ⟨colon :: colon' :: .token t :: u, s, rfl, hs, hword⟩
  | case2 =>
      cases h
      exact .inl ⟨rfl, rfl⟩
  | case3 =>
      cases h
      exact .inl ⟨rfl, rfl⟩

/-- A path ends in a word, which it names. -/
theorem exists_word_of_pathName? (h : pathName? trees = some (name, rest)) :
  ∃ u t, trees = u ++ .token t :: rest ∧ t.text = name ∧ t.lexeme.isPathWord
  := by
  obtain ⟨u, hu⟩ : ∃ u, trees = u ++
      (if atOperator [':', ':'] trees then trees.drop 2 else trees) := by
    split
    · exact ⟨_, (List.take_append_drop 2 trees).symm⟩
    · exact ⟨[], rfl⟩
  rw [pathName?] at h
  split at h
  case h_1 t r hstart =>
    rw [hstart] at hu
    split at h
    case isTrue hword =>
      rcases exists_of_pathEnd (Option.some.inj h) with ⟨rfl, rfl⟩ | ⟨w, s, rfl, hs, hword'⟩
      · exact ⟨u, t, hu, rfl, hword⟩
      · refine ⟨u ++ .token t :: w, s, ?_, hs, hword'⟩
        rw [hu, List.append_assoc, List.cons_append]
    case isFalse => cases h
  case h_2 => cases h

/-- A word in front of an exclamation mark is a path of its own. -/
theorem pathName?_of_word (hword : t.lexeme.isPathWord) (hbang : atPunct '!' [bang]) :
  pathName? (.token t :: bang :: rest) = some (t.text, bang :: rest)
  := by
  have hno : atOperator [':', ':'] (.token t :: bang :: rest) = false := by
    obtain ⟨l, span⟩ := t
    cases l <;> first | rfl | cases hword
  have hno' : atOperator [':', ':'] (bang :: rest) = false := by
    obtain ⟨s, rfl⟩ := Cursor.exists_of_atPunct_singleton hbang
    obtain ⟨joint, span, rfl⟩ := Cursor.exists_of_isPunct hbang
    cases rest <;> rfl
  rw [pathName?, hno, if_neg Bool.false_ne_true]
  dsimp only
  rw [if_pos hword, pathEnd_of_not (by rw [hno', Bool.false_and]; exact Bool.false_ne_true)]

theorem atSingle_of_group (hbang : atPunct '!' [bang]) :
  atSingle '!' (bang :: .group d inside opening closing :: rest)
  := by
  obtain ⟨t, rfl⟩ := Cursor.exists_of_atPunct_singleton hbang
  have hequals : atPunct '=' (.group d inside opening closing :: rest) = false := rfl
  have hpunct : atPunct '!' (.token t :: .group d inside opening closing :: rest) := hbang
  simp [atSingle, operators, atOperator, hpunct, hequals]

/-- The name of a marker macro in front of an exclamation mark and a group is a call of the macro. -/
theorem exists_leads_of_atMarkerCall (h : atMarkerCall markers trees) :
  ∃ call : Invocation, call.Leads markers trees
  := by
  rw [atMarkerCall.eq_def] at h
  split at h
  case h_1 t bang tree rest =>
    rw [Bool.and_eq_true, Bool.and_eq_true, Bool.and_eq_true] at h
    obtain ⟨⟨⟨hword, hmarks⟩, hbang⟩, hgroup⟩ := h
    cases tree with
    | token => cases hgroup
    | group d inside opening closing =>
        obtain ⟨harguments, hends⟩ :=
          Invocation.ends_ofArguments ⟨d, inside, opening, closing⟩ rest
        use .ofArguments ⟨d, inside, opening, closing⟩ rest, t.text, [.token t], bang, rest
        rw [harguments]
        exact ⟨rfl, pathName?_of_word hword hbang, eq_of_beq hmarks, atSingle_of_group hbang, hends⟩
  case h_2 => cases h

/-- A call of a marker macro has the name of the macro in front of an exclamation mark and a group. -/
theorem Invocation.Leads.exists_occurs {call : Invocation} (h : call.Leads markers trees) :
  ∃ place, Occurs place trees ∧ atMarkerCall markers place
  := by
  obtain ⟨name, path, bang, rest, htrees, hpath, hmarks, hbang, -⟩ := h
  obtain ⟨u, t, hword, rfl, hpathWord⟩ := exists_word_of_pathName? hpath
  use .token t :: bang :: call.arguments.tree :: rest
  constructor
  · rw [hword]
    exact .of_isSuffix (List.suffix_append _ _)
  · have hpunct : atPunct '!' [bang] := by
      rw [atSingle, Bool.and_eq_true] at hbang
      cases bang with
      | token => exact hbang.1
      | group => cases hbang.1
    rw [atMarkerCall, hpathWord, hmarks, hpunct]
    rfl

/-- What stands where nothing is marked is no mark. -/
theorem not_atMark_of_unmarked (h : site? markers trees = some .unmarked) :
  atMark markers trees = false
  := by
  rw [atMark, Bool.or_eq_false_iff]
  constructor
  · by_contra hcall
    obtain ⟨call, hleads⟩ := exists_leads_of_atMarkerCall (Bool.not_eq_false _ ▸ hcall)
    rw [site?_eq_invocation.mpr hleads] at h
    cases h
  · rw [site?] at h
    cases hcall : invocation? markers trees with
    | none =>
        rw [hcall] at h
        cases h
    | some call =>
        rw [hcall] at h
        cases call with
        | some call => cases h
        | none =>
            cases hattribute : atMarkerAttribute? markers trees with
            | none => rfl
            | some marked =>
                rw [hattribute] at h
                cases marked with
                | true => cases h
                | false => rfl

/-- No marked item starts where no mark stands at any place. -/
theorem site?_of_clear (hmarkers : markers.areLists) (h : Clear markers trees) :
  site? markers trees = some .unmarked
  := by
  obtain ⟨site, hsite⟩ := exists_site?_eq hmarkers trees
  rw [hsite]
  cases site with
  | unmarked => rfl
  | invocation call =>
      obtain ⟨place, hplace, hcall⟩ := (site?_eq_invocation.mp hsite).exists_occurs
      have hno := h place hplace
      rw [atMark, hcall, Bool.true_or] at hno
      cases hno
  | _ =>
      obtain ⟨hash, inside, opening, closing, rest, rfl, hhash, hmarks⟩ := exists_of_attribute hsite
      have hno := h _ .here
      rw [atMark, atMarkerAttribute?, if_pos hhash, hmarks, Bool.or_eq_false_iff] at hno
      cases hno.2

/-- Trees without marked items are those among which no mark stands at any place. -/
theorem unmarked_iff (hmarkers : markers.areLists) :
  Source.Unmarked markers trees ↔ Clear markers trees
  := by
  constructor
  · intro h
    induction h with
    | nil => exact clear_nil
    | token hsite _ ih => exact clear_token.mpr ⟨not_atMark_of_unmarked hsite, ih⟩
    | group _ _ _ ihinside ih => exact clear_group.mpr ⟨ihinside, ih⟩
  · intro h
    induction trees using induction_siblings with
    | nil => exact .nil
    | token t trees ih => exact .token (site?_of_clear hmarkers h) (ih (clear_token.mp h).2)
    | group d inside opening closing trees ihinside ih =>
        obtain ⟨hinside, htrees⟩ := clear_group.mp h
        exact .group (site?_of_clear hmarkers h) (ihinside hinside) (ih htrees)

end Marks

/-! ### Trees that look alike -/

/-- Trees look alike if they are the same but for the insides of groups, for the spans, and for what is
joint other than path separators. -/
inductive Resembles : List TokenTree → List TokenTree → Prop
  | nil : Resembles [] []
  | token {t t' : Token} {rest rest' : List TokenTree} :
      t.lexeme.plain = t'.lexeme.plain →
      atOperator [':', ':'] (.token t :: rest) = atOperator [':', ':'] (.token t' :: rest') →
      Resembles rest rest' → Resembles (.token t :: rest) (.token t' :: rest')
  | group {d : Delimiter} {inside inside' rest rest' : List TokenTree}
      {opening opening' closing closing' : Span} :
      Resembles rest rest' →
      Resembles (.group d inside opening closing :: rest) (.group d inside' opening' closing' :: rest')

section Resembles

variable {markers : Markers} {trees trees' inside inside' : List TokenTree} {t t' : Token}
  {tree tree' : TokenTree} {l l' : Lexeme}

theorem Lexeme.isPathWord_plain :
  l.plain.isPathWord = l.isPathWord
  := by
  cases l <;> rfl

theorem Lexeme.isPathWord_congr (h : l.plain = l'.plain) :
  l.isPathWord = l'.isPathWord
  := by rw [← isPathWord_plain, h, isPathWord_plain]

theorem Lexeme.text_congr (h : l.plain = l'.plain) :
  l.text = l'.text
  := by rw [← text_plain, h, text_plain]

theorem Lexeme.isPunct_congr {symbol : Char} (h : l.plain = l'.plain) :
  l.isPunct symbol = l'.isPunct symbol
  := by rw [← isPunct_plain, h, isPunct_plain]

theorem Resembles.atOperator_eq (h : Resembles trees trees') :
  atOperator [':', ':'] trees = atOperator [':', ':'] trees'
  := by
  cases h with
  | nil => rfl
  | token _ hoperator _ => exact hoperator
  | group => rfl

theorem Resembles.atPathStart_eq (h : Resembles trees trees') :
  atPathStart trees = atPathStart trees'
  := by
  cases h with
  | nil => rfl
  | token hplain _ _ => exact Lexeme.isPathWord_congr hplain
  | group => rfl

theorem Resembles.drop (h : Resembles trees trees') (n : Nat) :
  Resembles (trees.drop n) (trees'.drop n)
  := by
  induction n generalizing trees trees' with
  | zero => exact h
  | succ n ih =>
      cases h with
      | nil => exact .nil
      | token _ _ h => exact ih h
      | group h => exact ih h

theorem Resembles.refl (trees : List TokenTree) :
  Resembles trees trees
  := by
  induction trees with
  | nil => exact .nil
  | cons tree trees ih =>
      cases tree with
      | token => exact .token rfl rfl ih
      | group => exact .group ih

theorem Resembles.atPunct_eq (h : Resembles trees trees') (symbol : Char) :
  atPunct symbol trees = atPunct symbol trees'
  := by
  cases h with
  | nil => rfl
  | token hplain _ _ => exact Lexeme.isPunct_congr hplain
  | group => rfl

/-- A token in front of trees that look alike. -/
theorem Resembles.token_cons (h : Resembles trees trees') (t : Token) :
  Resembles (.token t :: trees) (.token t :: trees')
  := by
  apply Resembles.token rfl _ h
  change (t.lexeme == .punct ':' true && atPunct ':' trees) =
    (t.lexeme == .punct ':' true && atPunct ':' trees')
  rw [h.atPunct_eq]

theorem Resembles.append_left (h : Resembles trees trees') (u : List TokenTree) :
  Resembles (u ++ trees) (u ++ trees')
  := by
  induction u with
  | nil => exact h
  | cons tree u ih =>
      cases tree with
      | token t => exact ih.token_cons t
      | group => exact .group ih

theorem Resembles.exists_cons (h : Resembles (tree :: trees) trees') :
  ∃ tree' rest', trees' = tree' :: rest' ∧ Resembles trees rest'
  := by
  cases h with
  | token _ _ h => exact ⟨_, _, rfl, h⟩
  | group h => exact ⟨_, _, rfl, h⟩

/-- Paths in trees that look alike end in the same name, and what follows them looks alike. -/
theorem Resembles.rel_pathEnd (h : Resembles trees trees') (name : String) :
  (pathEnd name trees).1 = (pathEnd name trees').1 ∧
    Resembles (pathEnd name trees).2 (pathEnd name trees').2
  := by
  have hsegment {trees trees' : List TokenTree} (h : Resembles trees trees') :=
    congrArg₂ (· && ·) h.atOperator_eq (h.drop 2).atPathStart_eq
  fun_induction pathEnd name trees generalizing trees' with
  | case1 name colon colon' t trees hgoes ih =>
      have hgoes' := (hsegment h).symm
      obtain ⟨first, _, rfl, hsecond⟩ := h.exists_cons
      obtain ⟨second, _, rfl, hthird⟩ := hsecond.exists_cons
      cases hthird with
      | @token _ t' _ rest' hplain _ hrest =>
          have htext : t.text = t'.text := Lexeme.text_congr hplain
          rw [pathEnd, if_pos, ← htext]
          · exact ih hrest
          · rw [← atOperator_cons_cons] at hgoes ⊢
            exact hgoes'.trans hgoes
  | case2 name colon colon' t trees hends =>
      rw [pathEnd_of_not]
      · exact ⟨rfl, h⟩
      · rwa [← hsegment h, atOperator_cons_cons]
  | case3 name trees hshort =>
      rw [pathEnd_of_not]
      · exact ⟨rfl, h⟩
      · rw [← hsegment h]
        intro hgoes
        obtain ⟨colon, colon', t, rest, rfl, -⟩ := exists_of_atSegment hgoes
        exact hshort _ _ _ _ rfl

/-- The paths that trees start with end in the same name if the trees look alike. -/
theorem Resembles.rel_pathName? (h : Resembles trees trees') :
  Option.Rel (fun path path' => path.1 = path'.1 ∧ Resembles path.2 path'.2)
    (pathName? trees) (pathName? trees')
  := by
  have hstart : Resembles (if atOperator [':', ':'] trees then trees.drop 2 else trees)
      (if atOperator [':', ':'] trees' then trees'.drop 2 else trees') := by
    rw [← h.atOperator_eq]
    split
    · exact h.drop 2
    · exact h
  rw [pathName?, pathName?]
  generalize (if atOperator [':', ':'] trees then trees.drop 2 else trees) = u at hstart ⊢
  generalize (if atOperator [':', ':'] trees' then trees'.drop 2 else trees') = u' at hstart ⊢
  cases hstart with
  | nil => exact .none
  | group => exact .none
  | @token t t' rest rest' hplain _ hrest =>
      have htext : t.text = t'.text := Lexeme.text_congr hplain
      dsimp only
      rw [← Lexeme.isPathWord_congr hplain, ← htext]
      split
      · exact .some (hrest.rel_pathEnd t.text)
      · exact .none

/-- The insides of attributes that look alike name the same marker, if any. -/
theorem Resembles.namesMarker?_eq (h : Resembles inside inside') :
  namesMarker? markers inside = namesMarker? markers inside'
  := by
  have hpath := h.rel_pathName?
  rw [namesMarker?, namesMarker?]
  generalize pathName? inside = path at hpath ⊢
  generalize pathName? inside' = path' at hpath ⊢
  cases hpath with
  | none => rfl
  | @some path path' hpaths =>
      obtain ⟨hname, hrest⟩ := hpaths
      have hends : (if atGroup .paren path.2 then path.2.drop 1 else path.2).isEmpty =
          (if atGroup .paren path'.2 then path'.2.drop 1 else path'.2).isEmpty := by
        generalize path.2 = rest at hrest ⊢
        generalize path'.2 = rest' at hrest ⊢
        cases hrest with
        | nil => rfl
        | token => rfl
        | @group d _ _ _ _ _ _ _ _ hrest =>
            cases d with
            | paren => cases hrest <;> rfl
            | _ => rfl
      simp only [Option.map_some, hname, Option.any_some, hends]

/-- Trees that look alike both start with a call of a marker macro, or none of them does. -/
theorem Resembles.atMarkerCall_eq (h : Resembles trees trees') :
  atMarkerCall markers trees = atMarkerCall markers trees'
  := by
  cases h with
  | nil => rfl
  | group => rfl
  | @token t t' _ _ hplain _ hrest =>
      have htext : t.text = t'.text := Lexeme.text_congr hplain
      cases hrest with
      | nil => rfl
      | token hbang _ hrest =>
          cases hrest with
          | nil => rfl
          | token | group =>
              simp [atMarkerCall, Lexeme.isPathWord_congr hplain, htext, atPunct, atLexeme, atAnyGroup,
                Lexeme.isPunct_congr hbang]
      | group hrest =>
          cases hrest <;>
            simp [atMarkerCall, atPunct, atLexeme]

/-- Trees start with a mark if others do that look alike, and that name no other marker in brackets at
the second place. -/
theorem Resembles.atMark (h : Resembles trees trees')
    (hinside : ∀ t inside opening closing rest t' inside' opening' closing' rest',
      trees = .token t :: .group .bracket inside opening closing :: rest →
      trees' = .token t' :: .group .bracket inside' opening' closing' :: rest' →
      namesMarker? markers inside' = some true → namesMarker? markers inside = some true)
    (hmark : ReturnCaptures.atMark markers trees') :
  ReturnCaptures.atMark markers trees
  := by
  rw [ReturnCaptures.atMark, Bool.or_eq_true] at hmark ⊢
  rcases hmark with hcall | hattribute
  · exact .inl (h.atMarkerCall_eq.trans hcall)
  · right
    replace hattribute := eq_of_beq hattribute
    rw [atMarkerAttribute?.eq_def] at hattribute
    split at hattribute
    case h_1 hash' inside' opening' closing' rest' =>
      split at hattribute
      case isTrue hhash' =>
        cases h with
        | group => cases hhash'
        | @token t t' _ _ hplain _ hrest =>
            cases hrest with
            | @group _ inside =>
                have hhash : atPunct '#' [.token t] := (Lexeme.isPunct_congr hplain).trans hhash'
                rw [atMarkerAttribute?, if_pos hhash,
                  hinside _ _ _ _ _ _ _ _ _ _ rfl rfl hattribute]
                rfl
      case isFalse => cases Option.some.inj hattribute
    case h_2 => cases Option.some.inj hattribute

end Resembles

/-! ### Trees that are read again -/

section Shown

variable {markers : Markers} {v w inside inside' : List TokenTree} {t t' : Token}
  {d : Delimiter} {opening closing opening' closing' : Span}

theorem length_shownAll (trees : List TokenTree) :
  (shownAll trees).length = (flatAll trees).length
  := by rw [← map_text_shownAll, List.length_map]

theorem head?_tokensAll_eq (trees : List TokenTree) :
  ((tokensAll trees).map (·.lexeme)).head?.any (·.isPunct ':') = atPunct ':' trees
  := by
  match trees with
  | [] => rfl
  | .token t :: trees => rfl
  | .group d inside opening closing :: trees => cases d <;> rfl

/-- Trees that start with a colon do so in front of all other tokens. -/
theorem head?_tokensAll_append {trees : List TokenTree} (h : atPunct ':' trees) (after : List Token) :
  ((tokensAll trees ++ after).map (·.lexeme)).head?.any (·.isPunct ':')
  := by
  rw [← head?_tokensAll_eq] at h
  cases htokens : tokensAll trees with
  | nil =>
      rw [htokens] at h
      cases h
  | cons => rwa [htokens] at h

/-- A path separator is shown by its first colon. -/
theorem atOperator_iff_shownAll :
  atOperator [':', ':'] (.token t :: v) ↔ (shownAll (.token t :: v)).head? = some (.punct ':' true)
  := by
  have hoperator : atOperator [':', ':'] (.token t :: v) =
      (t.lexeme == .punct ':' true && atPunct ':' v) := rfl
  rw [hoperator, shownAll, tokensAll, tokens, List.singleton_append, List.map_cons,
    pairedBefore, List.head?_cons, Option.or_none, head?_tokensAll_eq, Option.some_inj]
  cases hl : t.lexeme.isPunct ':' with
  | true =>
      obtain ⟨joint, span, rfl⟩ := Cursor.exists_of_isPunct hl
      simp [Lexeme.pairedIf, Lexeme.isJoint]
  | false =>
      have hne : t.lexeme ≠ .punct ':' true := by
        intro hcolon
        rw [hcolon] at hl
        cases hl
      rw [Lexeme.pairedIf_of_not hl, beq_eq_false_iff_ne.mpr hne, Bool.false_and]
      constructor
      · intro hno
        cases hno
      · intro hplain
        rw [← Lexeme.isPunct_plain, hplain] at hl
        cases hl

/-- Tokens in front of trees that show the same show the same themselves. -/
theorem shownAll_token_inj (h : shownAll (.token t :: v) = shownAll (.token t' :: w)) :
  atOperator [':', ':'] (.token t :: v) = atOperator [':', ':'] (.token t' :: w) ∧
    shownAll v = shownAll w
  := by
  constructor
  · rw [Bool.eq_iff_iff, atOperator_iff_shownAll, h, ← atOperator_iff_shownAll]
  · exact (List.cons_eq_cons.mp h).2

/-- Groups in front of trees that show the same hold trees that show the same, if they are built
alike. -/
theorem shownAll_group_inj (hbare : bareAll inside = bareAll inside')
    (h : shownAll (.group d inside opening closing :: v) =
      shownAll (.group d inside' opening' closing' :: w)) :
  shownAll inside = shownAll inside' ∧ shownAll v = shownAll w
  := by
  have hlength : (shownAll inside).length = (shownAll inside').length := by
    rw [length_shownAll, length_shownAll, ← flatAll_bareAll, hbare, flatAll_bareAll]
  rw [shownAll_group, shownAll_group] at h
  obtain ⟨hinside, hrest⟩ := List.append_inj (List.cons_eq_cons.mp h).2 hlength
  exact ⟨hinside, (List.cons_eq_cons.mp hrest).2⟩

/-- Trees that are built alike and show the same look alike. -/
theorem resembles_of_shownAll (hbare : bareAll v = bareAll w) (hshown : shownAll v = shownAll w) :
  Resembles v w
  := by
  induction v generalizing w with
  | nil =>
      obtain _ | ⟨tree, w⟩ := w
      · exact .nil
      · cases hbare
  | cons tree v ih =>
      obtain _ | ⟨tree', w⟩ := w
      · cases hbare
      · obtain ⟨htree, hrest⟩ := List.cons_eq_cons.mp hbare
        cases tree <;> cases tree'
        case token.token t t' =>
          obtain ⟨hoperator, hshown'⟩ := shownAll_token_inj hshown
          exact .token (Token.mk.inj (TokenTree.token.inj htree)).1 hoperator (ih hrest hshown')
        case group.group d inside opening closing d' inside' opening' closing' =>
          obtain ⟨rfl, hinside, -, -⟩ := TokenTree.group.inj htree
          exact .group (ih hrest (shownAll_group_inj hinside hshown).2)
        all_goals cases htree

/-- No mark stands among trees that are built as others are and show the same, if none stands among
these. -/
theorem Clear.of_shownAll (h : Clear markers w) (hbare : bareAll v = bareAll w)
    (hshown : shownAll v = shownAll w) :
  Clear markers v
  := by
  induction v using induction_siblings generalizing w with
  | nil => exact clear_nil
  | token t v ih =>
      obtain _ | ⟨⟨t'⟩ | ⟨⟩, w⟩ := w
      · cases hbare
      · rw [clear_token] at h ⊢
        obtain ⟨-, hrest⟩ := List.cons_eq_cons.mp hbare
        have hshown' := (shownAll_token_inj hshown).2
        use ?_, ih h.2 hrest hshown'
        have hlook := resembles_of_shownAll hbare.symm hshown.symm
        rw [← Bool.not_eq_true] at h ⊢
        intro hmark
        apply h.1 (hlook.atMark _ hmark)
        intro _ inside opening closing u _ inside' opening' closing' u' heq heq'
        obtain ⟨-, rfl⟩ := List.cons_eq_cons.mp heq
        obtain ⟨-, rfl⟩ := List.cons_eq_cons.mp heq'
        obtain ⟨hgroup, -⟩ := List.cons_eq_cons.mp hrest
        obtain ⟨-, hinside, -, -⟩ := TokenTree.group.inj hgroup
        have hshown'' := (shownAll_group_inj hinside hshown').1
        rw [(resembles_of_shownAll hinside hshown'').namesMarker?_eq]
        exact id
      · cases hbare
  | group d inside opening closing v ihinside ih =>
      obtain _ | ⟨⟨t'⟩ | ⟨d', inside', opening', closing'⟩, w⟩ := w
      · cases hbare
      · cases hbare
      · obtain ⟨htree, hrest⟩ := List.cons_eq_cons.mp hbare
        obtain ⟨rfl, hinside, -, -⟩ := TokenTree.group.inj htree
        obtain ⟨hshown', hshown''⟩ := shownAll_group_inj hinside hshown
        rw [clear_group] at h ⊢
        exact ⟨ihinside h.1 hinside hshown', ih h.2 hrest hshown''⟩

end Shown

end ReturnCaptures
