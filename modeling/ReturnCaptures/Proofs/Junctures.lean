import ReturnCaptures.Grammar.TypeExpr
import ReturnCaptures.Proofs.Crossing

/-!
# Junctures

Two lists of trees are *endings* if nothing that is read goes on with either of them, since it is
empty or starts with a comma, a semicolon or a block. They form a *juncture* if either both or none
start with a block. Two cursors are *swapped* if the same trees stand at both, in front of the two
lists.

The questions that the grammar asks have the same answers at swapped cursors, but for those after a
comma, a semicolon or a block. A step that is taken at two cursors *follows* if from swapped cursors
it gives the same and leads to swapped cursors again, whenever it ends in front of the endings;
and so do chains of such steps. Steps may be excepted that end at a cursor that *strays*.
-/

namespace ReturnCaptures

open TokenTree Outcome

/-! ### Junctures -/

/-- Whether nothing that is read goes on with the trees: there are none, or a comma, a semicolon or
a block comes first. -/
def TokenTree.atEnding (trees : List TokenTree) : Bool :=
  trees.isEmpty || atPunct ',' trees || atPunct ';' trees || atGroup .brace trees

/-- Trees neither of which goes on with what is read. -/
structure Endings (r r' : List TokenTree) : Prop where
  left : atEnding r
  right : atEnding r'

/-- Trees either of which may stand behind what is read: a block at both or at none. -/
structure Juncture (r r' : List TokenTree) : Prop extends Endings r r' where
  block : atGroup .brace r = atGroup .brace r'

/-- A question about trees to which it makes no difference which of the endings they have. -/
def Unseen (r r' : List TokenTree) (look : List TokenTree → Bool) : Prop :=
  ∀ u, look (u ++ r) = look (u ++ r')

section Endings

variable {r r' : List TokenTree} {look look' : List TokenTree → Bool} {p : Lexeme → Bool}

/-- Trees at which reading ends start with no lexeme but a comma or a semicolon. -/
theorem TokenTree.atLexeme_of_atEnding (h : atEnding r) (hcomma : ∀ j, p (.punct ',' j) = false)
    (hsemicolon : ∀ j, p (.punct ';' j) = false) :
  atLexeme p r = false
  := by
  obtain _ | ⟨⟨l, s⟩ | _, r⟩ := r
  · rfl
  · cases l with
    | punct symbol j =>
        simp only [atEnding, atPunct_token, atGroup, List.isEmpty_cons, Lexeme.isPunct,
          Bool.or_false, Bool.false_or, Bool.or_eq_true, beq_iff_eq] at h
        obtain rfl | rfl := h
        · apply hcomma
        · apply hsemicolon
    | _ => cases h
  · rfl

/-- Trees at which reading ends start with no group but a block. -/
theorem TokenTree.atGroup_of_atEnding {d : Delimiter} (hd : d ≠ .brace) (h : atEnding r) :
  atGroup d r = false
  := by
  obtain _ | ⟨_ | ⟨d', _, _, _⟩, _⟩ := r
  · rfl
  · rfl
  · cases d' with
    | brace => simpa [atGroup] using hd.symm
    | _ => cases h

/-- A group at which reading ends is a block. -/
theorem TokenTree.atAnyGroup_of_atEnding (h : atEnding r) :
  atAnyGroup r = atGroup .brace r
  := by
  obtain _ | ⟨_ | ⟨d, _, _, _⟩, _⟩ := r
  · rfl
  · rfl
  · cases d with
    | brace => rfl
    | _ => cases h

theorem Unseen.and (h : Unseen r r' look) (h' : Unseen r r' look') :
  Unseen r r' fun trees => look trees && look' trees
  := fun u => congrArg₂ Bool.and (h u) (h' u)

theorem Unseen.or (h : Unseen r r' look) (h' : Unseen r r' look') :
  Unseen r r' fun trees => look trees || look' trees
  := fun u => congrArg₂ Bool.or (h u) (h' u)

theorem Unseen.not (h : Unseen r r' look) :
  Unseen r r' fun trees => !look trees
  := fun u => congrArg _ (h u)

/-- A question about what stands behind a tree that does not stand at the ending. -/
theorem Unseen.behind (h : Unseen r r' look) (hr : look r = false) (h' : Unseen r r' look') :
  Unseen r r' fun trees => look trees && look' (trees.drop 1)
  := by
  rintro (_ | ⟨tree, u⟩)
  · have hr' : look r' = false := by
      rw [← hr]
      apply (h []).symm
    simp only [List.nil_append, hr, hr', Bool.false_and]
  · apply congrArg₂ Bool.and (h (tree :: u)) (h' u)

namespace Endings

variable (hs : Endings r r')

include hs

theorem lexeme (hcomma : ∀ j, p (.punct ',' j) = false)
    (hsemicolon : ∀ j, p (.punct ';' j) = false) :
  Unseen r r' (atLexeme p)
  := by
  rintro (_ | ⟨_ | _, u⟩)
  · rw [List.nil_append, atLexeme_of_atEnding hs.left hcomma hsemicolon, List.nil_append,
      atLexeme_of_atEnding hs.right hcomma hsemicolon]
  · rfl
  · rfl

theorem punct {symbol : Char} (hcomma : (',' == symbol) = false)
    (hsemicolon : (';' == symbol) = false) :
  Unseen r r' (atPunct symbol)
  := hs.lexeme (fun _ => hcomma) fun _ => hsemicolon

theorem keyword (word : String) :
  Unseen r r' (atKeyword word)
  := hs.lexeme (fun _ => rfl) fun _ => rfl

theorem lifetime :
  Unseen r r' atLifetime
  := hs.lexeme (fun _ => rfl) fun _ => rfl

theorem integer :
  Unseen r r' atInteger
  := hs.lexeme (fun _ => rfl) fun _ => rfl

theorem pathStart :
  Unseen r r' atPathStart
  := hs.lexeme (fun _ => rfl) fun _ => rfl

theorem group {d : Delimiter} (hd : d ≠ .brace) :
  Unseen r r' (atGroup d)
  := by
  rintro (_ | ⟨_ | _, u⟩)
  · rw [List.nil_append, atGroup_of_atEnding hd hs.left, List.nil_append,
      atGroup_of_atEnding hd hs.right]
  · rfl
  · rfl

/-- A question about what stands behind a lexeme. -/
theorem behind (hcomma : ∀ j, p (.punct ',' j) = false)
    (hsemicolon : ∀ j, p (.punct ';' j) = false) (h : Unseen r r' look) :
  Unseen r r' fun trees => atLexeme p trees && look (trees.drop 1)
  := (hs.lexeme hcomma hsemicolon).behind (atLexeme_of_atEnding hs.left hcomma hsemicolon) h

/-- A question about what stands behind the first character of an operator. -/
theorem behind_joint {symbol : Char} (hsymbol : symbol ≠ ',' ∧ symbol ≠ ';')
    (h : Unseen r r' look) :
  Unseen r r' fun trees => atLexeme (· == .punct symbol true) trees && look (trees.drop 1)
  := by
  apply hs.behind _ _ h
  all_goals
    intro j
    rw [beq_eq_false_iff_ne]
    rintro ⟨⟩
  · apply hsymbol.1 rfl
  · apply hsymbol.2 rfl

/-- No operator is made of commas and semicolons. -/
theorem operator {op : List Char} (hop : op.all fun c => c != ',' && c != ';') :
  Unseen r r' (atOperator op)
  := by
  induction op with
  | nil =>
      intro u
      rfl
  | cons c cs ih =>
      rw [List.all_cons, Bool.and_eq_true, Bool.and_eq_true, bne_iff_ne, bne_iff_ne] at hop
      obtain ⟨hc, hcs⟩ := hop
      cases cs with
      | nil =>
          apply hs.punct (beq_eq_false_iff_ne.mpr hc.1.symm)
          apply beq_eq_false_iff_ne.mpr hc.2.symm
      | cons c' cs =>
          have hfirst (trees : List TokenTree) : atOperator (c :: c' :: cs) trees =
              (atLexeme (· == .punct c true) trees && atOperator (c' :: cs) (trees.drop 1)) := by
            obtain _ | ⟨_ | _, _⟩ := trees <;> rfl
          rw [funext hfirst]
          apply hs.behind_joint hc
          apply ih hcs

/-- A question about what stands behind an operator of two characters. -/
theorem behind_operator {a b : Char} (ha : a ≠ ',' ∧ a ≠ ';') (hb : b ≠ ',' ∧ b ≠ ';')
    (h : Unseen r r' look) :
  Unseen r r' fun trees => atOperator [a, b] trees && look (trees.drop 2)
  := by
  have hpair (trees : List TokenTree) : (atOperator [a, b] trees && look (trees.drop 2)) =
      (atLexeme (· == .punct a true) trees &&
        (atPunct b (trees.drop 1) && look ((trees.drop 1).drop 1))) := by
    obtain _ | ⟨_ | _, _⟩ := trees <;> simp [atOperator, atLexeme, Bool.and_assoc]
  have hsecond : Unseen r r' fun trees => atPunct b trees && look (trees.drop 1) :=
    hs.behind (fun _ => beq_eq_false_iff_ne.mpr hb.1.symm)
      (fun _ => beq_eq_false_iff_ne.mpr hb.2.symm) h
  intro u
  simp only [hpair]
  apply hs.behind_joint ha hsecond u

theorem single {symbol : Char} (hsymbol : symbol ≠ ',' ∧ symbol ≠ ';') :
  Unseen r r' (atSingle symbol)
  := by
  apply Unseen.and
  · apply hs.punct (beq_eq_false_iff_ne.mpr hsymbol.1.symm)
    apply beq_eq_false_iff_ne.mpr hsymbol.2.symm
  · apply Unseen.not
    intro u
    have hops : operators.all fun op => op.all fun c => c != ',' && c != ';' := by decide
    rw [List.all_eq_true] at hops
    rw [Bool.eq_iff_iff, List.any_eq_true, List.any_eq_true]
    apply exists_congr
    intro op
    apply and_congr_right
    intro hop
    rw [hs.operator (hops op hop) u]

theorem colon :
  Unseen r r' atColon
  := (hs.punct rfl rfl).and (hs.operator (by decide)).not

theorem atBound :
  Unseen r r' ReturnCaptures.atBound
  := by
  have hseparator : Unseen r r' (atOperator [':', ':']) := hs.operator (by decide)
  have hask : Unseen r r' (atPunct '?') := hs.punct rfl rfl
  have htilde : Unseen r r' (atPunct '~') := hs.punct rfl rfl
  have hpath := (hs.lifetime.or hs.pathStart).or hseparator
  have hmark := (hpath.or hask).or htilde
  have hword := ((hmark.or (hs.keyword "for")).or (hs.keyword "const")).or (hs.keyword "async")
  apply (hword.or (hs.keyword "use")).or (hs.group (by decide))

theorem moreSegments :
  Unseen r r' TypeGrammar.moreSegments
  := hs.behind_operator (by decide) (by decide) hs.pathStart

theorem abiName :
  Unseen r r' TypeGrammar.atAbiName
  := hs.lexeme (fun _ => rfl) fun _ => rfl

theorem bareFn :
  Unseen r r' TypeGrammar.atBareFn
  := ((hs.keyword "fn").or (hs.keyword "unsafe")).or (hs.keyword "extern")

end Endings

end Endings

/-! ### Swapped cursors -/

/-- The same trees stand at two cursors, in front of `r` at the one and of `r'` at the other. -/
def Cursor.Swaps (r r' : List TokenTree) (c c' : Cursor) : Prop :=
  ∃ u, c.trees = u ++ r ∧ c'.trees = u ++ r'

/-- A move from `c` to `d`, and one from `c'` to `d'` that is the same if `c` and `c'` are
swapped. -/
structure Cursor.Moves (r r' : List TokenTree) (c c' d d' : Cursor) : Prop where
  isSuffix : d.trees <:+ c.trees
  swaps : c.Swaps r r' c' → d.Swaps r r' d'

/-- The outcome `y` follows `x`: whatever `x` gives stands behind `c`, and if `x` and `y` start at
swapped cursors and `x` ends in front of `r` or earlier, and does not stray, then `y` gives the same
and ends at a cursor that is swapped again. A result `a` ends at `place a`. -/
structure Outcome.Follows {α : Type} (r r' : List TokenTree) (strays : Cursor → Prop)
    (place : α → Cursor) (same : α → α → Prop) (c c' : Cursor) (x y : Outcome α) : Prop where
  isSuffix : ∀ a, x = .ok a → (place a).trees <:+ c.trees
  carries : c.Swaps r r' c' → ∀ a, x = .ok a → r <:+ (place a).trees → ¬ strays (place a) →
    ∃ b, y = .ok b ∧ same a b ∧ (place a).Swaps r r' (place b)

/-- A result that is a cursor follows another, wherever it ends. -/
abbrev Outcome.FollowsTo (r r' : List TokenTree) (c c' : Cursor) (x y : Outcome Cursor) : Prop :=
  Follows r r' (fun _ => False) (fun d => d) (fun _ _ => True) c c' x y

/-- A result with the cursor behind it follows another, which gives the same result, wherever it
ends. -/
abbrev Outcome.FollowsWith {α : Type} (r r' : List TokenTree) (c c' : Cursor)
    (x y : Outcome (α × Cursor)) : Prop :=
  Follows r r' (fun _ => False) Prod.snd (fun a b => a.1 = b.1) c c' x y

section Swaps

variable {r r' : List TokenTree} {c c' d d' e e' : Cursor} {seen : List TokenTree → Bool}

theorem Cursor.Swaps.look (h : c.Swaps r r' c') (hseen : Unseen r r' seen) :
  seen c.trees = seen c'.trees
  := by
  obtain ⟨u, hu, hu'⟩ := h
  rw [hu, hu', hseen u]

/-- A tree that does not stand at the ending is moved over. -/
theorem Cursor.Swaps.skip (h : c.Swaps r r' c') (hseen : seen c.trees) (hr : seen r = false) :
  (c.skip 1).Swaps r r' (c'.skip 1)
  := by
  obtain ⟨_ | ⟨tree, u⟩, hu, hu'⟩ := h
  · rw [hu, List.nil_append, hr] at hseen
    cases hseen
  · use u, trees_skip_one hu, trees_skip_one hu'

/-- Trees stand in front of the ending if reading does not end there. -/
theorem Cursor.Swaps.length_lt (hs : Endings r r') (h : c.Swaps r r' c')
    (hc : ¬ atEnding c.trees) :
  r.length < c.trees.length
  := by
  obtain ⟨_ | ⟨tree, u⟩, hu, -⟩ := h
  · rw [hu] at hc
    apply absurd hs.left hc
  · rw [hu, List.cons_append, List.length_cons, List.length_append]
    omega

/-- A tree stands in front of the ending if reading goes on behind it. -/
theorem Cursor.Swaps.passes (h : c.Swaps r r' c') (hc : c.trees ≠ [])
    (hr : r <:+ (c.skip 1).trees) :
  ∃ tree rest rest', c.trees = tree :: rest ∧ c'.trees = tree :: rest' ∧
    (c.skip 1).Swaps r r' (c'.skip 1)
  := by
  obtain ⟨_ | ⟨tree, u⟩, hu, hu'⟩ := h
  · have hlength := hr.length_le
    have hpos := List.length_pos_iff.mpr hc
    rw [trees_skip, List.length_drop, hu, List.nil_append] at hlength
    rw [hu, List.nil_append] at hpos
    omega
  · use tree, u ++ r, u ++ r', hu, hu', u, trees_skip_one hu, trees_skip_one hu'

/-- A group other than a block does not stand at the ending. -/
theorem Cursor.Swaps.group (hs : Endings r r') (h : c.Swaps r r' c') {delimiter : Delimiter}
    (hd : delimiter ≠ .brace) (hseen : atGroup delimiter c.trees) :
  ∃ inside opening closing rest rest', c.trees = .group delimiter inside opening closing :: rest ∧
    c'.trees = .group delimiter inside opening closing :: rest' ∧
    (c.skip 1).Swaps r r' (c'.skip 1)
  := by
  have hskip := h.skip hseen (atGroup_of_atEnding hd hs.left)
  obtain ⟨_ | ⟨tree, u⟩, hu, hu'⟩ := h
  · rw [hu, List.nil_append, atGroup_of_atEnding hd hs.left] at hseen
    cases hseen
  · rw [hu] at hseen
    obtain _ | ⟨d, inside, opening, closing⟩ := tree
    · cases hseen
    · obtain rfl : d = delimiter := eq_of_beq hseen
      use inside, opening, closing, u ++ r, u ++ r', hu, hu'

namespace Cursor.Moves

theorem refl :
  Moves r r' c c' c c'
  := ⟨List.suffix_refl _, id⟩

theorem trans (h : Moves r r' c c' d d') (k : Moves r r' d d' e e') :
  Moves r r' c c' e e'
  := ⟨k.isSuffix.trans h.isSuffix, fun hc => k.swaps (h.swaps hc)⟩

/-- A move over a tree that does not stand at the ending. -/
theorem skip (hseen : seen c.trees) (hr : seen r = false) :
  Moves r r' c c' (c.skip 1) (c'.skip 1)
  := ⟨List.drop_suffix 1 c.trees, fun hc => hc.skip hseen hr⟩

/-- A move that depends on what is seen. -/
theorem ite {p q : Bool} (hpq : c.Swaps r r' c' → p = q) (h : p → Moves r r' c c' d d') :
  Moves r r' c c' (if p then d else c) (if q then d' else c')
  := by
  constructor
  · cases p with
    | true => apply (h rfl).isSuffix
    | false => apply List.suffix_refl
  · intro hc
    rw [← hpq hc]
    cases p with
    | true => apply (h rfl).swaps hc
    | false => apply hc

end Cursor.Moves

variable {α β : Type} {strays strays' : Cursor → Prop} {place : α → Cursor}
  {same : α → α → Prop} {place' : β → Cursor} {same' : β → β → Prop}

namespace Outcome.Follows

theorem error {failure : Failure} {y : Outcome α} :
  Follows r r' strays place same c c' (.error failure) y
  := by
  constructor
  · rintro _ ⟨⟩
  · rintro _ _ ⟨⟩

/-- What follows wherever it ends, or but for fewer cursors, follows. -/
theorem mono {x y : Outcome α} (h : Follows r r' strays place same c c' x y)
    (hstrays : ∀ d, strays d → strays' d) :
  Follows r r' strays' place same c c' x y
  := ⟨h.isSuffix, fun hc a ha hr hno => h.carries hc a ha hr fun hs => hno (hstrays _ hs)⟩

/-- What follows wherever it ends. -/
theorem everywhere {x y : Outcome α} (h : Follows r r' (fun _ => False) place same c c' x y) :
  Follows r r' strays place same c c' x y
  := h.mono fun _ => False.elim

/-- A cursor that is moved to. -/
theorem arrive (h : Cursor.Moves r r' c c' d d') :
  Follows r r' strays (fun d => d) (fun _ _ => True) c c' (.ok d) (.ok d')
  := by
  constructor
  · rintro _ ⟨⟩
    apply h.isSuffix
  · rintro hc _ ⟨⟩ _ _
    exact ⟨d', rfl, trivial, h.swaps hc⟩

/-- A result that is given at a cursor that is moved to. -/
theorem give {a : α} (h : Cursor.Moves r r' c c' d d') :
  Follows r r' strays Prod.snd (fun a b => a.1 = b.1) c c' (.ok (a, d)) (.ok (a, d'))
  := by
  constructor
  · rintro _ ⟨⟩
    apply h.isSuffix
  · rintro hc _ ⟨⟩ _ _
    exact ⟨(a, d'), rfl, rfl, h.swaps hc⟩

/-- A step after one from which no way leads back if it strays. -/
theorem bind {x y : Outcome α} {f g : α → Outcome β}
    (hx : Follows r r' strays place same c c' x y) (hrefl : ∀ a, same a a)
    (hstrays : ∀ a, strays (place a) → ∀ b, f a = .ok b → r <:+ (place' b).trees →
      strays' (place' b))
    (hf : ∀ a b, same a b → Follows r r' strays' place' same' (place a) (place b) (f a) (g b)) :
  Follows r r' strays' place' same' c c' (x >>= f) (y >>= g)
  := by
  constructor
  · intro e he
    obtain ⟨a, ha, he⟩ := bind_eq_ok.mp he
    apply ((hf a a (hrefl a)).isSuffix e he).trans (hx.isSuffix a ha)
  · intro hc e he hr hno
    obtain ⟨a, ha, he⟩ := bind_eq_ok.mp he
    obtain ⟨b, hb, hab, hswaps⟩ :=
      hx.carries hc a ha (hr.trans ((hf a a (hrefl a)).isSuffix e he)) fun ha =>
        hno (hstrays a ha e he hr)
    obtain ⟨e', he', hee⟩ := (hf a b hab).carries hswaps e he hr hno
    exact ⟨e', bind_eq_ok.mpr ⟨b, hb, he'⟩, hee⟩

/-- A step after one that gives a cursor, from which no way leads back if it strays. -/
theorem bind_to_of {x y : Outcome Cursor} {f g : Cursor → Outcome β}
    (hx : Follows r r' strays (fun d => d) (fun _ _ => True) c c' x y)
    (hstrays : ∀ d, strays d → ∀ b, f d = .ok b → r <:+ (place' b).trees → strays' (place' b))
    (hf : ∀ d d', Follows r r' strays' place' same' d d' (f d) (g d')) :
  Follows r r' strays' place' same' c c' (x >>= f) (y >>= g)
  := hx.bind (fun _ => trivial) hstrays fun d d' _ => hf d d'

/-- A step after one that gives a cursor. -/
theorem bind_to {x y : Outcome Cursor} {f g : Cursor → Outcome β} (hx : FollowsTo r r' c c' x y)
    (hf : ∀ d d', Follows r r' strays place' same' d d' (f d) (g d')) :
  Follows r r' strays place' same' c c' (x >>= f) (y >>= g)
  := hx.bind_to_of (fun _ => False.elim) hf

/-- A step after one that gives a result and a cursor, from which no way leads back if it
strays. -/
theorem bind_with_of {x y : Outcome (α × Cursor)} {f g : α × Cursor → Outcome β}
    (hx : Follows r r' strays Prod.snd (fun a b => a.1 = b.1) c c' x y)
    (hstrays : ∀ a d, strays d → ∀ b, f (a, d) = .ok b → r <:+ (place' b).trees →
      strays' (place' b))
    (hf : ∀ a d d', Follows r r' strays' place' same' d d' (f (a, d)) (g (a, d'))) :
  Follows r r' strays' place' same' c c' (x >>= f) (y >>= g)
  := by
  apply hx.bind (fun _ => rfl) fun a => hstrays a.1 a.2
  rintro ⟨a, d⟩ ⟨_, d'⟩ rfl
  apply hf

/-- A step after one that gives a result and a cursor. -/
theorem bind_with {x y : Outcome (α × Cursor)} {f g : α × Cursor → Outcome β}
    (hx : FollowsWith r r' c c' x y)
    (hf : ∀ a d d', Follows r r' strays place' same' d d' (f (a, d)) (g (a, d'))) :
  Follows r r' strays place' same' c c' (x >>= f) (y >>= g)
  := hx.bind_with_of (fun _ _ => False.elim) hf

/-- A result that is given where a step has led. -/
theorem give_to {x y : Outcome Cursor} (b : β)
    (hx : Follows r r' strays (fun d => d) (fun _ _ => True) c c' x y) :
  Follows r r' strays Prod.snd (fun a b => a.1 = b.1) c c'
    (x >>= fun d => .ok (b, d)) (y >>= fun d => .ok (b, d))
  := by
  apply hx.bind_to_of
  · rintro d hd _ ⟨⟩ -
    apply hd
  · intro d d'
    apply give .refl

/-- A result that is given where a step with another result has led. -/
theorem give_with {x y : Outcome (α × Cursor)} (b : β)
    (hx : Follows r r' strays Prod.snd (fun a b => a.1 = b.1) c c' x y) :
  Follows r r' strays Prod.snd (fun a b => a.1 = b.1) c c'
    (x >>= fun a => .ok (b, a.2)) (y >>= fun a => .ok (b, a.2))
  := by
  apply hx.bind_with_of
  · rintro a d hd _ ⟨⟩ -
    apply hd
  · intro a d d'
    apply give .refl

/-- A step after one that is taken elsewhere. -/
theorem bind_elsewhere {z : Outcome β} {f g : β → Outcome α}
    (hf : ∀ b, Follows r r' strays place same c c' (f b) (g b)) :
  Follows r r' strays place same c c' (z >>= f) (z >>= g)
  := by
  cases z with
  | error failure => apply error
  | ok b => apply hf b

theorem ite {p q : Bool} {x y x' y' : Outcome α} (hpq : c.Swaps r r' c' → p = q)
    (htrue : p → Follows r r' strays place same c c' x y)
    (hfalse : p = false → Follows r r' strays place same c c' x' y') :
  Follows r r' strays place same c c' (if p then x else x') (if q then y else y')
  := by
  cases p with
  | true =>
      constructor
      · intro a
        apply (htrue rfl).isSuffix a
      · intro hc
        rw [← hpq hc]
        intro a
        apply (htrue rfl).carries hc a
  | false =>
      constructor
      · intro a
        apply (hfalse rfl).isSuffix a
      · intro hc
        rw [← hpq hc]
        intro a
        apply (hfalse rfl).carries hc a

/-- An outcome after a move. -/
theorem behind {x y : Outcome α} (hd : Cursor.Moves r r' c c' d d')
    (h : Follows r r' strays place same d d' x y) :
  Follows r r' strays place same c c' x y
  := by
  constructor
  · intro a ha
    apply (h.isSuffix a ha).trans hd.isSuffix
  · intro hc
    apply h.carries (hd.swaps hc)

/-- An outcome of which it is known where it ends. -/
theorem of_swaps {x y : Outcome α} (hsuffix : ∀ a, x = .ok a → (place a).trees <:+ c.trees)
    (h : c.Swaps r r' c' → Follows r r' strays place same c c' x y) :
  Follows r r' strays place same c c' x y
  := ⟨hsuffix, fun hc => (h hc).carries hc⟩

/-- An outcome that moves over a tree starts in front of the ending. -/
theorem of_passes {x y : Outcome α}
    (hpasses : ∀ a, x = .ok a → c.trees ≠ [] ∧ (place a).trees <:+ (c.skip 1).trees)
    (h : ∀ tree rest rest', c.trees = tree :: rest → c'.trees = tree :: rest' →
      (c.skip 1).Swaps r r' (c'.skip 1) → Follows r r' strays place same c c' x y) :
  Follows r r' strays place same c c' x y
  := by
  constructor
  · intro a ha
    apply (hpasses a ha).2.trans (List.drop_suffix 1 c.trees)
  · intro hc a ha hr
    obtain ⟨hne, hsuffix⟩ := hpasses a ha
    obtain ⟨tree, rest, rest', hrest, hrest', hskip⟩ := hc.passes hne (hr.trans hsuffix)
    apply (h tree rest rest' hrest hrest' hskip).carries hc a ha hr

/-- An outcome from a cursor that does not stray, or from which no way leads back. -/
theorem of_not {x y : Outcome α} (hsuffix : ∀ a, x = .ok a → (place a).trees <:+ c.trees)
    (hstrays : strays c → ∀ a, x = .ok a → r <:+ (place a).trees → strays' (place a))
    (h : ¬ strays c → Follows r r' strays' place same c c' x y) :
  Follows r r' strays' place same c c' x y
  := by
  use hsuffix
  intro hc a ha hr hno
  apply (h fun hs => hno (hstrays hs a ha hr)).carries hc a ha hr hno

/-- Where a result ends, without the result. -/
theorem map_snd {x y : Outcome (α × Cursor)}
    (h : Follows r r' strays Prod.snd (fun a b => a.1 = b.1) c c' x y) :
  Follows r r' strays (fun d => d) (fun _ _ => True) c c' (x.map (·.2)) (y.map (·.2))
  := by
  constructor
  · intro d hd
    obtain ⟨a, ha, rfl⟩ := map_eq_ok.mp hd
    apply h.isSuffix a ha
  · intro hc d hd hr hno
    obtain ⟨a, ha, rfl⟩ := map_eq_ok.mp hd
    obtain ⟨b, hb, -, hswaps⟩ := h.carries hc a ha hr hno
    exact ⟨b.2, map_eq_ok.mpr ⟨b, hb, rfl⟩, trivial, hswaps⟩

end Outcome.Follows

/-- A tree that is asked for, which does not stand at the ending. -/
theorem Cursor.follows_expect_of_cons {what what' : String}
    (hseen : c.Swaps r r' c' → ∀ {tree rest rest'}, c.trees = tree :: rest →
      c'.trees = tree :: rest' → seen c.trees = seen c'.trees)
    (hnil : seen [] = false) :
  FollowsTo r r' c c' (c.expect what (seen c.trees)) (c'.expect what' (seen c'.trees))
  := by
  constructor
  · intro d hd
    obtain ⟨-, rfl⟩ := expect_eq_ok.mp hd
    apply List.drop_suffix
  · intro hc d hd hr _
    obtain ⟨hat, rfl⟩ := expect_eq_ok.mp hd
    have hne : c.trees ≠ [] := by
      intro hempty
      rw [hempty, hnil] at hat
      cases hat
    obtain ⟨tree, rest, rest', hrest, hrest', hskip⟩ := hc.passes hne hr
    rw [hseen hc hrest hrest'] at hat
    exact ⟨c'.skip 1, expect_eq_ok.mpr ⟨hat, rfl⟩, trivial, hskip⟩

/-- A tree that is asked for. -/
theorem Cursor.follows_expect {what what' : String} (hseen : Unseen r r' seen)
    (hnil : seen [] = false) :
  FollowsTo r r' c c' (c.expect what (seen c.trees)) (c'.expect what' (seen c'.trees))
  := Cursor.follows_expect_of_cons (fun hc _ _ _ _ _ => hc.look hseen) hnil

end Swaps

/-! ### Steps -/

section Steps

variable {r r' : List TokenTree} {c c' d : Cursor}

namespace Endings

variable (hs : Endings r r')

include hs

/-- A lexeme that ends nothing is moved over. -/
theorem moves_lexeme {p : Lexeme → Bool} (hseen : atLexeme p c.trees)
    (hcomma : ∀ j, p (.punct ',' j) = false) (hsemicolon : ∀ j, p (.punct ';' j) = false) :
  Cursor.Moves r r' c c' (c.skip 1) (c'.skip 1)
  := .skip hseen (atLexeme_of_atEnding hs.left hcomma hsemicolon)

theorem moves_keyword {word : String} (hseen : atKeyword word c.trees) :
  Cursor.Moves r r' c c' (c.skip 1) (c'.skip 1)
  := hs.moves_lexeme hseen (fun _ => rfl) fun _ => rfl

theorem moves_lifetime (hseen : atLifetime c.trees) :
  Cursor.Moves r r' c c' (c.skip 1) (c'.skip 1)
  := hs.moves_lexeme hseen (fun _ => rfl) fun _ => rfl

theorem moves_punct {symbol : Char} (hseen : atPunct symbol c.trees)
    (hcomma : (',' == symbol) = false) (hsemicolon : (';' == symbol) = false) :
  Cursor.Moves r r' c c' (c.skip 1) (c'.skip 1)
  := hs.moves_lexeme hseen (fun _ => hcomma) fun _ => hsemicolon

/-- Two lexemes that end nothing are moved over. -/
theorem moves_lexemes {p q : Lexeme → Bool} (hfirst : atLexeme p c.trees)
    (hsecond : atLexeme q (c.trees.drop 1))
    (hcomma : ∀ j, p (.punct ',' j) = false ∧ q (.punct ',' j) = false)
    (hsemicolon : ∀ j, p (.punct ';' j) = false ∧ q (.punct ';' j) = false) :
  Cursor.Moves r r' c c' (c.skip 2) (c'.skip 2)
  := by
  rw [← Cursor.skip_skip c 1 1, ← Cursor.skip_skip c' 1 1]
  have hone : Cursor.Moves r r' c c' (c.skip 1) (c'.skip 1) :=
    hs.moves_lexeme hfirst (fun j => (hcomma j).1) fun j => (hsemicolon j).1
  apply hone.trans
  apply hs.moves_lexeme hsecond (fun j => (hcomma j).2) fun j => (hsemicolon j).2

/-- An operator of two characters is moved over. -/
theorem moves_operator {a b : Char} (hseen : atOperator [a, b] c.trees)
    (ha : a ≠ ',' ∧ a ≠ ';') (hb : b ≠ ',' ∧ b ≠ ';') :
  Cursor.Moves r r' c c' (c.skip 2) (c'.skip 2)
  := by
  have hpair : atLexeme (·.isPunct a) c.trees ∧ atLexeme (·.isPunct b) (c.trees.drop 1) := by
    obtain ⟨_ | _, second, rest, hc, ho⟩ := Cursor.exists_of_atOperator hseen
    · simp only [atOperator, Bool.and_eq_true, beq_iff_eq] at ho
      rw [hc]
      constructor
      · rw [atLexeme, ho.1, Lexeme.isPunct, beq_iff_eq]
      · rw [List.drop_one, List.tail_cons]
        have hsecond := ho.2
        rwa [← atPunct_cons b second rest] at hsecond
    · cases ho
  have hcomma (j : Bool) : Lexeme.isPunct a (.punct ',' j) = false ∧
      Lexeme.isPunct b (.punct ',' j) = false := by
    simp [Lexeme.isPunct, ha.1.symm, hb.1.symm]
  have hsemicolon (j : Bool) : Lexeme.isPunct a (.punct ';' j) = false ∧
      Lexeme.isPunct b (.punct ';' j) = false := by
    simp [Lexeme.isPunct, ha.2.symm, hb.2.symm]
  apply hs.moves_lexemes hpair.1 hpair.2 hcomma hsemicolon

theorem moves_single {symbol : Char} (hseen : atSingle symbol c.trees)
    (hcomma : (',' == symbol) = false) (hsemicolon : (';' == symbol) = false) :
  Cursor.Moves r r' c c' (c.skip 1) (c'.skip 1)
  := by
  rw [atSingle, Bool.and_eq_true] at hseen
  apply hs.moves_punct hseen.1 hcomma hsemicolon

theorem moves_skipKeyword (word : String) :
  Cursor.Moves r r' c c' (c.skipKeyword word) (c'.skipKeyword word)
  := .ite (fun hc => hc.look (hs.keyword word)) hs.moves_keyword

variable (c c' : Cursor)

theorem expectPunct {symbol : Char} (hcomma : (',' == symbol) = false)
    (hsemicolon : (';' == symbol) = false) :
  FollowsTo r r' c c' (c.expectPunct symbol) (c'.expectPunct symbol)
  := Cursor.follows_expect (hs.punct hcomma hsemicolon) rfl

theorem expectKeyword (word : String) :
  FollowsTo r r' c c' (c.expectKeyword word) (c'.expectKeyword word)
  := Cursor.follows_expect (hs.keyword word) rfl

theorem expectLifetime :
  FollowsTo r r' c c' c.expectLifetime c'.expectLifetime
  := Cursor.follows_expect hs.lifetime rfl

/-- A group other than a block that is asked for. -/
theorem expectGroup {delimiter : Delimiter} (hd : delimiter ≠ .brace) :
  FollowsWith r r' c c' (c.expectGroup delimiter) (c'.expectGroup delimiter)
  := by
  constructor
  · rintro ⟨g, d⟩ h
    obtain ⟨-, hc, -⟩ := Cursor.expectGroup_eq_ok.mp h
    use [g.tree], hc.symm
  · rintro hc ⟨g, d⟩ h - -
    obtain ⟨rfl, hg, -⟩ := Cursor.expectGroup_eq_ok.mp h
    have hseen : atGroup g.delimiter c.trees := by
      rw [hg]
      apply beq_self_eq_true
    obtain ⟨inside, opening, closing, rest, rest', hr, hr', hskip⟩ := hc.group hs hd hseen
    rw [hg] at hr
    obtain ⟨hgroup, rfl⟩ := List.cons_eq_cons.mp hr
    rw [← hgroup] at hr'
    use ⟨g, c'.skip 1⟩
    constructor
    · apply Cursor.expectGroup_eq_ok.mpr
      use rfl, by rwa [Cursor.trees_skip_one hr']
      rfl
    · use rfl
      obtain ⟨u, hu, hu'⟩ := hskip
      use u, by rwa [Cursor.trees_skip_one hg] at hu

end Endings

/-- An operator of two characters does not stand at the ending. -/
theorem Cursor.Swaps.operator (hs : Endings r r') (h : c.Swaps r r' c') {a b : Char}
    (hseen : atOperator [a, b] c.trees) (ha : a ≠ ',' ∧ a ≠ ';') (hb : b ≠ ',' ∧ b ≠ ';') :
  ∃ first second rest rest', c.trees = first :: second :: rest ∧
    c'.trees = first :: second :: rest' ∧ atOperator [a, b] [first, second]
  := by
  obtain ⟨v, hv, -⟩ := (hs.moves_operator hseen ha hb).swaps h
  obtain ⟨first, second, rest, hc, hpair⟩ := exists_of_atOperator hseen
  rw [trees_skip, hc] at hv
  have hr : r <:+ rest := ⟨v, hv.symm⟩
  have hfirst : (c.skip 1).trees = second :: rest := trees_skip_one hc
  have hsecond : ((c.skip 1).skip 1).trees = rest := trees_skip_one hfirst
  obtain ⟨_, _, rest', htree, htree', hskip⟩ := h.passes (by rw [hc]; simp)
    (by rw [hfirst]; apply hr.trans (List.suffix_cons ..))
  obtain ⟨_, _, rest'', hnext, hnext', -⟩ := hskip.passes (by rw [hfirst]; simp)
    (by rw [hsecond]; apply hr)
  rw [hc] at htree
  rw [hfirst] at hnext
  cases htree
  cases hnext
  rw [trees_skip_one htree'] at hnext'
  use first, second, rest, rest'', hc
  rw [htree', hnext']
  use rfl

end Steps

end ReturnCaptures
