import ReturnCaptures.Proofs.Signatures

/-!
# The text of a body

The text of an expanded item is read again as its signature and, if it has one, its body. The body
holds the trees of the expansion: the inner attributes of the item, the declaration, and the
statements. The declaration stands behind the last inner attribute, on the same line unless the
statements start on another one. A documentation comment that takes up its line, with no statement
and no comment behind it, would therefore swallow the declaration and the closing brace with it.
-/

namespace ReturnCaptures

open Scan TokenTree

/-! ### Inner attributes -/

/-- Whether the last of several trees is a documentation comment that takes up its line. -/
def endsInLineDoc (trees : List TokenTree) : Bool :=
  match trees.getLast? with
  | some (.token ⟨.doc _ text, _⟩) => ['/', '/'].isPrefixOf text.toList
  | _ => false

/-- Inner attributes end in a documentation comment or in a bracket. -/
theorem InnerRun.last_cases {inner : List TokenTree} (h : InnerRun inner) {last : TokenTree}
    (hlast : inner.getLast? = some last) :
  (∃ text span, last = .token ⟨.doc true text, span⟩) ∨
    ∃ arguments opening closing, last = .group .bracket arguments opening closing
  := by
  induction h with
  | nil => cases hlast
  | @doc text span trees h ih =>
      cases trees with
      | nil =>
          left
          use text, span, (Option.some.inj hlast).symm
      | cons tree trees =>
          rw [List.getLast?_cons_cons] at hlast
          apply ih hlast
  | @attr j k s t opening closing arguments trees h ih =>
      cases trees with
      | nil =>
          right
          use arguments, opening, closing, (Option.some.inj hlast).symm
      | cons tree trees =>
          rw [List.getLast?_cons_cons, List.getLast?_cons_cons, List.getLast?_cons_cons] at hlast
          apply ih hlast

section Inner

variable {file : String} {text v : List Char} {before after : List Token}
  {inner statements : List TokenTree} {last : TokenTree} {m n : Nat}

/-- The text of inner attributes shows them in front of every text that starts with a blank, and
that ends their last line if a documentation comment takes it up. -/
theorem Seam.shows_inner (h : Seam file text before m)
    (htokens : tokensOf file text = .ok (before ++ (tokensAll inner ++ after)))
    (hordered : Ordered m n (inner ++ statements)) (hinner : InnerRun inner)
    (hlast : inner.getLast? = some last) (hv : startsWith isActive v = false)
    (hline : endsInLineDoc inner → lineLength (text.drop last.span.stop) = 0 →
      EndsLine (text.drop last.span.stop) v) :
  Shows (slice text m last.span.stop) v (shownAll inner)
  := by
  obtain ⟨init, rfl⟩ := List.getLast?_eq_some_iff.mp hlast
  obtain ⟨r, t, hr, hstop, hlexeme⟩ := exists_last last
  have hall : tokensAll (init ++ [last]) = (tokensAll init ++ r) ++ [t] := by
    rw [tokensAll_append, tokensAll_singleton, hr, List.append_assoc]
  rw [hall, List.append_assoc, List.singleton_append] at htokens
  have hm : m ≤ t.span.start := by
    obtain ⟨first, rest, hfirst⟩ := List.exists_cons_of_ne_nil
      (List.append_ne_nil_of_right_ne_nil init (List.cons_ne_nil last []))
    obtain ⟨s, r', hs, hstart⟩ := exists_first first
    have hhead : (tokensAll init ++ r ++ [t]).head? = some s := by
      rw [← hall, hfirst, tokensAll, hs]
      rfl
    rw [hfirst] at hordered
    have hle := hordered.of_cons.1
    rw [← hstart] at hle
    exact hle.trans (seam_of_head? htokens hhead).2
  rw [shownAll, hall, ← hstop]
  rcases hinner.last_cases hlast with ⟨comment, span, rfl⟩ | ⟨arguments, opening, closing, rfl⟩
  · rw [← hstop] at hline
    have hdoc : t.lexeme.plain = .doc true comment := hlexeme
    obtain ⟨b, hshows⟩ := h.shows_to htokens hm
    have hto := h.lexesTo htokens hm
    rw [hdoc] at hto
    have hno (x : Option Lexeme) : pairedBefore x [t.lexeme] = [.doc true comment] := by
      rw [pairedBefore_singleton, ← Lexeme.pairedIf_plain, hdoc]
      rfl
    rw [List.map_append, List.map_singleton, pairedBefore_append, hno]
    apply hshows.of_doc hto hv
    intro hprefix
    apply hline
    rw [endsInLineDoc, hlast]
    exact hprefix
  · apply h.shows htokens hm
    · rw [hlexeme]
      apply endsBefore_lastLexeme_group
    · rw [← Lexeme.isPunct_plain, hlexeme, isPunct_lastLexeme_group]
      exact fun hcolon => absurd hcolon Bool.false_ne_true

end Inner

/-! ### Ends of lines -/

section LineEnds

variable {declaration lineEnd inside statements u v w : List Char}

theorem hasCarriageReturns_append (h : hasCarriageReturns v) :
  hasCarriageReturns (u ++ v)
  := by
  induction u with
  | nil => exact h
  | cons c u ih => rw [List.cons_append, hasCarriageReturns, ih, Bool.or_true]

/-- What directly follows a comment that takes up its line ends the line: a line feed, or a carriage
return and a line feed. It is whitespace in front of the statements, unless there are none. -/
theorem feed_of_lineLength (inside : List Char) (hline : lineLength (statements ++ u) = 0)
    (hblank : isBlank statements = false) :
  '\n' ∈ statements.takeWhile isWhitespace ∧
    (hasCarriageReturns (inside ++ statements) = false → (statements ++ u).head? = some '\n')
  := by
  have hspace : isWhitespace '\n' = true ∧ isWhitespace '\r' = true := by decide
  cases statements with
  | nil => cases hblank
  | cons c r =>
      rw [List.cons_append, lineLength_cons] at hline
      split at hline
      case isFalse => cases hline
      case isTrue hc =>
        rcases hc with rfl | ⟨rfl, hfeed⟩
        · simp [hspace]
        · cases r with
          | nil =>
              simp [isBlank, hspace] at hblank
          | cons d r =>
              obtain rfl : d = '\n' := by simpa using hfeed
              constructor
              · simp [hspace]
              · intro hno
                have hyes : hasCarriageReturns ('\r' :: '\n' :: r) := by simp [hasCarriageReturns]
                rw [hasCarriageReturns_append hyes] at hno
                cases hno

/-- The line end that is chosen for a declaration ends a line that a line feed or a carriage return
and a line feed end. -/
theorem endsLine_lineEnd
    (hfeed : hasCarriageReturns inside = false → u.head? = some '\n') :
  EndsLine u ((if hasCarriageReturns inside then ['\r', '\n'] else ['\n']) ++ v)
  := by
  cases hcarriage : hasCarriageReturns inside with
  | true =>
      use rfl
      intro h
      cases h
  | false =>
      use rfl
      intro _
      exact hfeed hcarriage

/-- A declaration in front of statements on a line of their own starts with a line end. -/
theorem exists_withDeclaration_append (declaration lineEnd : List Char)
    (hblank : isBlank statements = false) (hfeed : '\n' ∈ statements.takeWhile isWhitespace) :
  ∃ rest, withDeclaration declaration lineEnd statements = lineEnd ++ rest
  := by
  have hcontains : (statements.takeWhile isWhitespace).contains '\n' := by simpa using hfeed
  rw [withDeclaration, if_neg (by simp [hblank]), if_pos hcontains]
  exact ⟨_, by simp only [List.append_assoc]; rfl⟩

/-- A declaration starts with a blank. -/
theorem startsWith_withDeclaration (hlineEnd : ∀ u, startsWith isActive (lineEnd ++ u) = false) :
  startsWith isActive (withDeclaration declaration lineEnd statements ++ u) = false
  := by
  rw [withDeclaration]
  split
  · rfl
  · split
    · rw [List.append_assoc, List.append_assoc, List.append_assoc]
      apply hlineEnd
    · rfl

end LineEnds

/-! ### Bodies -/

theorem ReturnClause.Follows.exists_captures {c d : Cursor} {returns : ReturnClause}
    (h : Follows c returns d) (hbounds : returns.bounds ≠ []) :
  ∃ arrow items g span, returns = .captures arrow items g span ∧ Capture.readList g = .ok items
  := by
  cases h with
  | absent | plain => cases hbounds rfl
  | captures _ _ _ _ _ hitems => exact ⟨_, _, _, _, rfl, hitems⟩

theorem TokenTree.bareAll_eq_map (trees : List TokenTree) :
  bareAll trees = trees.map bare
  := by
  induction trees with
  | nil => rfl
  | cons tree trees ih => rw [bareAll, ih, List.map_cons]

namespace Expansion

/-- The trees of the body of an expansion in front of those in which edits may stand: its inner
attributes and the declaration, if it has one. -/
def closedTrees (x : Expansion) (body : Group) : List TokenTree :=
  match x.declaration with
  | none => []
  | some declaration => (splitInnerAttributes body.trees).1 ++ declaration.trees

/-- The offset behind which edits may stand in the body of an expansion. -/
def openStart (x : Expansion) (body : Group) : Nat :=
  match x.declaration with
  | none => body.opening.stop
  | some _ => statementsStart body

theorem body?_eq (x : Expansion) :
  x.body? = x.item.body?.map fun body => { body with trees := x.closedTrees body ++ x.openTrees }
  := by
  rw [body?]
  cases hbody : x.item.body? <;> cases hdeclaration : x.declaration <;>
    simp [closedTrees, openTrees, hbody, hdeclaration]

section Text

variable {file : String} {text v : List Char} {before after : List Token} {c d : Cursor}
  {item : FunctionItem} {body : Group} {trees : List TokenTree} {edits : List Edit} {x : Expansion}
  {m n : Nat}

/-- Behind a line that inner documentation takes up, statements with edits start on a line of their
own, as those of the text do. -/
def StartsOnLine (text : List Char) (edits : List Edit) (body : Group) : Prop :=
  endsInLineDoc (splitInnerAttributes body.trees).1 →
    lineLength (text.drop (statementsStart body)) = 0 →
    isBlank (splice text (statementsStart body) body.closing.start edits) = false ∧
      '\n' ∈ (splice text (statementsStart body) body.closing.start edits).takeWhile isWhitespace ∧
      (hasCarriageReturns (slice text body.opening.stop body.closing.start) = false →
        (text.drop (statementsStart body)).head? = some '\n')

/-- The statements of a body start between two pieces, behind its inner attributes. -/
theorem seam_statementsStart (hseam : Seam file text before body.opening.stop)
    (htokens : tokensOf file text = .ok (before ++ (tokensAll body.trees ++ after))) :
  Seam file text (before ++ tokensAll (splitInnerAttributes body.trees).1) (statementsStart body)
  := by
  rw [statementsStart]
  rw [← append_splitInnerAttributes body.trees, tokensAll_append, List.append_assoc] at htokens
  cases hinner : (splitInnerAttributes body.trees).1.getLast? with
  | none =>
      rw [List.getLast?_eq_none_iff.mp hinner, tokensAll, List.append_nil]
      exact hseam
  | some last =>
      obtain ⟨init, hinit⟩ := List.getLast?_eq_some_iff.mp hinner
      obtain ⟨r, t, hr, hstop, -⟩ := exists_last last
      have hall : tokensAll (splitInnerAttributes body.trees).1 = (tokensAll init ++ r) ++ [t] := by
        rw [hinit, tokensAll_append, tokensAll_singleton, hr, List.append_assoc]
      rw [hall, List.append_assoc (tokensAll init ++ r), ← List.append_assoc before,
        List.singleton_append] at htokens
      rw [hall, ← List.append_assoc]
      dsimp only
      rw [← hstop]
      exact (seams_of_token htokens).2.1

/-- The text of a body up to its statements shows its inner attributes. -/
theorem shows_innerAttributes (hseam : Seam file text before body.opening.stop)
    (htokens : tokensOf file text = .ok (before ++ (tokensAll body.trees ++ after)))
    (hordered : Ordered body.opening.stop n body.trees) (hv : startsWith isActive v = false)
    (hline : endsInLineDoc (splitInnerAttributes body.trees).1 →
      lineLength (text.drop (statementsStart body)) = 0 →
      EndsLine (text.drop (statementsStart body)) v) :
  Shows (slice text body.opening.stop (statementsStart body)) v
    (shownAll (splitInnerAttributes body.trees).1)
  := by
  rw [statementsStart] at hline ⊢
  rw [← append_splitInnerAttributes body.trees] at hordered htokens
  cases hinner : (splitInnerAttributes body.trees).1.getLast? with
  | none =>
      have hslice : slice text body.opening.stop body.opening.stop = [] := by simp [slice]
      rw [List.getLast?_eq_none_iff.mp hinner]
      dsimp only
      rw [hslice]
      apply Shows.nil
  | some last =>
      rw [hinner] at hline
      rw [tokensAll_append, List.append_assoc] at htokens
      exact hseam.shows_inner htokens hordered (innerRun_split _) hinner hv hline

/-- The text of the body of an expansion shows its trees, if the text of those in which edits may
stand does. -/
theorem shows_bodyText (hseam : Seam file text before body.opening.stop)
    (htokens : tokensOf file text = .ok (before ++ (tokensAll body.trees ++ after)))
    (hordered : Ordered body.opening.stop n body.trees)
    (hdeclaration : ∀ d ∈ x.declaration, (∀ v, Shows (d.textIn text) v (shownAll d.trees)) ∧
      ∀ tree ∈ d.trees.getLast?, (lastLexeme tree).isPunct ':' = false)
    (hline : x.declaration.isSome → StartsOnLine text edits body)
    (hopen : Shows (splice text (x.openStart body) body.closing.start edits) v (shownAll trees)) :
  Shows (x.bodyText text edits body) v (shownAll (x.closedTrees body ++ trees))
  := by
  rw [bodyText, closedTrees]
  rw [openStart] at hopen
  cases hd : x.declaration with
  | none =>
      rw [hd] at hopen
      exact hopen
  | some declaration =>
      rw [hd] at hopen hdeclaration hline
      obtain ⟨hshows, hlast⟩ := hdeclaration declaration rfl
      have hstatements : Shows (withDeclaration (declaration.textIn text)
          (if hasCarriageReturns (slice text body.opening.stop body.closing.start) then ['\r', '\n']
            else ['\n'])
          (splice text (statementsStart body) body.closing.start edits)) v
          (shownAll declaration.trees ++ shownAll trees) := by
        have hlineEnd : isBlank (if hasCarriageReturns
            (slice text body.opening.stop body.closing.start) then ['\r', '\n'] else ['\n']) := by
          split <;> decide
        obtain ⟨margin, after, left, rest, htext, hmargin, hafter, hsplit, hleft⟩ :=
          exists_withDeclaration hlineEnd (declaration.textIn text)
            (splice text (statementsStart body) body.closing.start edits)
        rw [htext]
        dsimp only at hopen
        rw [hsplit] at hopen
        have hrest := (shows_isBlank (u := rest ++ v) hafter).append (hopen.of_isBlank hleft)
        rw [List.append_assoc, List.append_assoc]
        exact (shows_isBlank hmargin).append ((hshows _).append hrest)
      have hcolon : ∀ tree ∈ (splitInnerAttributes body.trees).1.getLast?,
          (lastLexeme tree).isPunct ':' = false := by
        intro tree htree
        rcases (innerRun_split body.trees).last_cases htree with ⟨_, _, rfl⟩ | ⟨_, _, _, rfl⟩
        · rfl
        · apply isPunct_lastLexeme_group
      rw [List.append_assoc, shownAll_append (.inl hcolon), shownAll_append (.inl hlast)]
      apply (shows_innerAttributes hseam htokens hordered _ _).append hstatements
      · apply startsWith_withDeclaration
        intro u
        split <;> rfl
      · intro hdoc hfirst
        obtain ⟨hblank, hmargin, hfeed⟩ := hline rfl hdoc hfirst
        obtain ⟨rest, hrest⟩ := exists_withDeclaration_append (declaration.textIn text)
          (if hasCarriageReturns (slice text body.opening.stop body.closing.start) then
            ['\r', '\n'] else ['\n']) hblank hmargin
        rw [hrest, List.append_assoc]
        apply endsLine_lineEnd hfeed

/-- What the expansion of an item ends in, with other trees in the place of those in which edits may
stand. -/
def endTree (x : Expansion) (trees : List TokenTree) : TokenTree :=
  match x.item.ending with
  | .semicolon t => .token t
  | .body body => .group .brace (x.closedTrees body ++ trees) body.opening body.closing

theorem ending_of_mem_body? (hbody : body ∈ item.body?) :
  item.ending = .body body
  := by
  rw [FunctionItem.body?] at hbody
  cases hcase : item.ending <;> rw [hcase] at hbody <;> cases hbody
  rfl

/-- A declaration is that of the bound captures of a capture list. -/
theorem exists_captures_of_declaration (s : FunctionItem.Steps c item d) {declaration : Declaration}
    (h : declaration ∈ (ofItem item).declaration) :
  ∃ arrow items g span span', item.returns = .captures arrow items g span ∧
    Capture.readList g = .ok items ∧ declaration = .ofBound span' (Capture.bounds items)
  := by
  obtain ⟨span', hdeclaration⟩ := exists_declaration_eq item
  rw [hdeclaration] at h
  split at h
  case isTrue => cases h
  case isFalse hbounds =>
    obtain rfl := Option.some.inj h
    rw [Bool.or_eq_true, not_or, List.isEmpty_iff] at hbounds
    obtain ⟨arrow, items, g, span, hreturns, hitems⟩ :=
      (ReturnClause.follows_read s.returns_eq).exists_captures hbounds.1
    rw [hreturns]
    exact ⟨arrow, items, g, span, span', rfl, hitems, rfl⟩

section Item

variable (s : FunctionItem.Steps c item d)
  (htokens : tokensOf file text = .ok (before ++ (tokensAll c.trees ++ after)))
  (hordered : Ordered m n c.trees)

include s htokens

/-- The text of the declaration of an item shows its trees, of which the last one is no colon. -/
theorem shows_declaration :
  ∀ d ∈ (ofItem item).declaration, (∀ v, Shows (d.textIn text) v (shownAll d.trees)) ∧
    ∀ tree ∈ d.trees.getLast?, (lastLexeme tree).isPunct ':' = false
  := by
  intro d hd
  obtain ⟨arrow, items, g, span, span', hreturns, hitems, rfl⟩ :=
    exists_captures_of_declaration s hd
  constructor
  · intro v
    obtain ⟨_, _, hinside⟩ := exists_tokens_captures s htokens hreturns
    exact Declaration.shows_textIn hinside hitems
  · rw [Declaration.ofBound]
    intro tree htree
    rw [← List.cons_append, List.getLast?_concat] at htree
    obtain rfl := Option.some.inj htree
    rfl

/-- The tokens of the body of an item, which starts between two pieces. -/
theorem exists_tokens_body (hending : item.ending = .body body) :
  ∃ u v, tokensOf file text =
      .ok (u ++ (tokensAll body.trees ++ ⟨.punct '}' false, body.closing⟩ :: v)) ∧
    Seam file text u body.opening.stop
  := by
  obtain ⟨rest, hall⟩ := s.exists_tokens htokens
  have hbrace : body.delimiter = .brace := by
    rcases s.ending_cases with ⟨body', hending', hbrace⟩ | ⟨t, hending', -⟩
    · rw [hending] at hending'
      cases hending'
      exact hbrace
    · rw [hending] at hending'
      cases hending'
  rw [← List.append_assoc, ← List.append_assoc, ← List.append_assoc, hending, Ending.tree,
    Group.tree, tokens, hbrace, List.cons_append] at hall
  obtain ⟨-, hstop, -⟩ := seams_of_token hall
  refine ⟨_, rest, ?_, hstop⟩
  rw [hall]
  simp [Delimiter.closing]

include hordered

omit htokens in
theorem ordered_body (hending : item.ending = .body body) :
  Ordered body.opening.stop body.closing.start body.trees
  := by
  rw [s.reads.trees, hending] at hordered
  exact hordered.inside (by simp [Ending.tree])

/-- The text of an expansion with edits in its body shows the trees in front of its ending and what
it ends in, in front of every text. -/
theorem shows_textWith {stem : List TokenTree}
    (hstem : Shows ((ofItem item).stemText text) [item.ending.mark] (shownAll stem))
    (hline : ∀ body ∈ item.body?, (ofItem item).declaration.isSome → StartsOnLine text edits body)
    (hopen : ∀ body ∈ item.body?, ∀ v,
      Shows (splice text ((ofItem item).openStart body) body.closing.start edits) ('}' :: v)
        (shownAll trees))
    (v : List Char) :
  Shows ((ofItem item).textWith text edits) v (shownAll (stem ++ [(ofItem item).endTree trees]))
  := by
  rw [textWith_eq s htokens hordered, signatureText, blockText, endTree, item_ofItem]
  have hstem' (w : List Char) := hstem.of_alike (item.ending.alike_mark [] w) id
  rcases s.ending_cases with ⟨body, hending, -⟩ | ⟨t, hending, ht⟩
  · rw [FunctionItem.body?, hending] at hopen hline ⊢
    rw [hending] at hstem'
    obtain ⟨u, w, hinside, hseam⟩ := exists_tokens_body s htokens hending
    have hshows := shows_bodyText hseam hinside (ordered_body s hordered hending)
      (shows_declaration s htokens) (hline body rfl) (hopen body rfl v)
    have hclosing : Shows ['}'] v [.punct '}' false] := shows_mark (by decide) (by decide)
    dsimp only [Ending.body?]
    rw [Ending.semicolonText, List.append_nil, shownAll_append (.inr rfl), shownAll_group]
    apply (hstem' _).append
    exact (shows_mark (by decide) (by decide)).append (hshows.append hclosing)
  · obtain ⟨joint, span, rfl⟩ := Cursor.exists_of_isPunct ht
    rw [hending] at hstem' ⊢
    rw [FunctionItem.body?, hending]
    dsimp only [Ending.body?]
    rw [Ending.semicolonText, List.append_nil, shownAll_append (.inr rfl), shownAll_token rfl]
    exact (hstem' v).append (shows_mark (by decide) (by decide))

/-- The trees of a body in which edits may stand are the last of its trees, and the offset behind which
edits may stand is the start of them. -/
theorem exists_openStart (hbody : body ∈ item.body?) :
  ∃ u v, tokensOf file text =
      .ok (u ++ (tokensAll (ofItem item).openTrees ++ ⟨.punct '}' false, body.closing⟩ :: v)) ∧
    Seam file text u ((ofItem item).openStart body) ∧
    Seam file text (u ++ tokensAll (ofItem item).openTrees) body.closing.start ∧
    (ofItem item).openStart body ≤ body.closing.start
  := by
  have hending := ending_of_mem_body? hbody
  obtain ⟨u, v, hinside, hseam⟩ := exists_tokens_body s htokens hending
  have hplaces := ordered_body s hordered hending
  obtain ⟨-, hstatements⟩ := ordered_statements hplaces
  have hstart := seam_statementsStart hseam hinside
  have hclosing : Seam file text (u ++ tokensAll body.trees) body.closing.start := by
    rw [← List.append_assoc] at hinside
    exact (seams_of_token hinside).1
  rw [openTrees, item_ofItem, Option.mem_def.mp hbody, openStart]
  cases (ofItem item).declaration with
  | none => exact ⟨u, v, hinside, hseam, hclosing, hplaces.le⟩
  | some declaration =>
      refine ⟨u ++ tokensAll (splitInnerAttributes body.trees).1, v, ?_, hstart, ?_, hstatements.le⟩
      · have hsplit : tokensAll body.trees = tokensAll (splitInnerAttributes body.trees).1 ++
            tokensAll (splitInnerAttributes body.trees).2 := by
          rw [← tokensAll_append, append_splitInnerAttributes]
        rw [hinside, hsplit]
        simp
      · rwa [List.append_assoc, ← tokensAll_append, append_splitInnerAttributes]

/-- The text between the offset behind which edits may stand and the end of the body shows the trees
there. -/
theorem shows_openTrees (hbody : body ∈ item.body?) (v : List Char) :
  Shows (slice text ((ofItem item).openStart body) body.closing.start) ('}' :: v)
    (shownAll (ofItem item).openTrees)
  := by
  obtain ⟨u, w, hall, hstart, hstop, hle⟩ := exists_openStart s htokens hordered hbody
  have hshows := hstart.shows_between hall hstop hle
  rw [pairedBefore_of_not (by rintro _ ⟨⟩; rfl)] at hshows
  rw [← List.append_assoc] at hall
  rw [drop_punct hall] at hshows
  exact hshows.of_alike (.shared (by decide) fun h => absurd h (by decide)) fun h => h

omit htokens in
/-- Statements start on a line of their own behind a line of documentation, unless there are none and
no comment either. -/
theorem startsOnLine (hbody : body ∈ item.body?)
    (hblank : endsInLineDoc (splitInnerAttributes body.trees).1 →
      isBlank (slice text (statementsStart body) body.closing.start) = false) :
  StartsOnLine text [] body
  := by
  intro hdoc hline
  obtain ⟨hstart, hstatements⟩ :=
    ordered_statements (ordered_body s hordered (ending_of_mem_body? hbody))
  rw [← slice_append_drop hstatements.le] at hline ⊢
  obtain ⟨hmargin, hfeed⟩ := feed_of_lineLength
    (slice text body.opening.stop (statementsStart body)) hline (hblank hdoc)
  rw [slice_append_slice hstart hstatements.le] at hfeed
  exact ⟨hblank hdoc, hmargin, hfeed⟩

end Item

/-! ### Trees that are read again -/

section Proper

variable (s : FunctionItem.Steps c item d) (hproper : areProper c.trees)

include s hproper

theorem areProper_parts :
  areProper (headTrees item) ∧ areProper item.returns.trees ∧ areProper (tailTrees item) ∧
    item.ending.tree.isProper
  := by
  rw [s.reads.trees, areProper_append, areProper_append, areProper_append, areProper_append,
    areProper, Bool.and_eq_true] at hproper
  exact ⟨hproper.1.1.1.1, hproper.1.1.1.2, hproper.1.1.2, hproper.1.2.1⟩

/-- The trees of an expansion in front of its ending have no delimiters among their tokens. -/
theorem areProper_stemTrees :
  areProper (ofItem item).stemTrees
  := by
  obtain ⟨hhead, hreturns, htail, -⟩ := areProper_parts s hproper
  rw [stemTrees, item_ofItem, areProper_append, areProper_append]
  refine ⟨⟨hhead, ?_⟩, htail⟩
  rcases clause_cases (ReturnClause.follows_read s.returns_eq) with
    ⟨-, htrees⟩ | ⟨arrow, items, g, span, hcaptures, -, hitems, -, htype⟩
  · rwa [htrees]
  · rw [hcaptures, ReturnClause.trees, areProper_append] at hreturns
    have hinside : areProper g.trees := by simpa [areProper, Group.tree, isProper] using hreturns.2
    rcases htype with ⟨-, htype⟩ | ⟨type, -, htype, -, htype'⟩
    · rw [htype]
      rfl
    · rw [htype, areProper_append, htype']
      use hreturns.1
      apply Declaration.areProper_side
      intro run hrun
      obtain ⟨capture, hmem, rfl⟩ := List.mem_map.mp hrun
      exact (Capture.standsIn_of_mem hitems hmem).areProper hinside

/-- What an expansion ends in has no delimiters among its tokens. -/
theorem isProper_endTree (htrees : areProper trees) :
  ((ofItem item).endTree trees).isProper
  := by
  obtain ⟨-, hreturns, -, hending⟩ := areProper_parts s hproper
  rw [endTree, item_ofItem]
  cases hcase : item.ending with
  | semicolon t =>
      rw [hcase] at hending
      exact hending
  | body body =>
      rw [hcase, Ending.tree, Group.tree, isProper, ← append_splitInnerAttributes body.trees,
        areProper_append] at hending
      dsimp only
      rw [isProper, areProper_append, closedTrees]
      refine ⟨?_, htrees⟩
      cases hd : (ofItem item).declaration with
      | none => rfl
      | some declaration =>
          dsimp only
          rw [areProper_append]
          obtain ⟨arrow, items, g, span, span', hcaptures, hitems, rfl⟩ :=
            exists_captures_of_declaration s hd
          rw [hcaptures, ReturnClause.trees, areProper_append] at hreturns
          have hinside : areProper g.trees := by
            simpa [areProper, Group.tree, isProper] using hreturns.2
          exact ⟨hending.1, Declaration.areProper_ofBound hinside hitems span'⟩

theorem areProper_openTrees :
  areProper (ofItem item).openTrees
  := by
  obtain ⟨-, -, -, hending⟩ := areProper_parts s hproper
  rw [openTrees, item_ofItem, FunctionItem.body?]
  cases hcase : item.ending with
  | semicolon t => rfl
  | body body =>
      rw [hcase, Ending.tree, Group.tree, isProper] at hending
      dsimp only [Ending.body?]
      cases (ofItem item).declaration with
      | none => exact hending
      | some declaration =>
          rw [← append_splitInnerAttributes body.trees, areProper_append] at hending
          exact hending.2

end Proper

/-- The last tree of an expansion. -/
theorem getLast?_trees (s : FunctionItem.Steps c item d) :
  (ofItem item).trees.getLast? = some ((ofItem item).endTree (ofItem item).openTrees)
  := by
  rw [trees_eq, ← List.append_assoc, ← List.append_assoc, List.getLast?_concat, endTree, ending,
    body?_eq, item_ofItem, FunctionItem.body?]
  rcases s.ending_cases with ⟨body, hending, hbrace⟩ | ⟨t, hending, -⟩
  · rw [hending]
    simp [Ending.body?, Ending.tree, Group.tree, hbrace]
  · rw [hending]
    rfl

/-- Whether the declaration of an expansion, and the brace that closes its body, are written on a
line that an inner documentation comment takes up. -/
def swallowsBody (source : List Char) (x : Expansion) : Bool :=
  match x.item.body?, x.declaration with
  | some body, some _ =>
    endsInLineDoc (splitInnerAttributes body.trees).1 &&
      isBlank (slice source (statementsStart body) body.closing.start)
  | _, _ => false

/-- The text of an expanded item is read as trees. The last of them is a group between braces if and
only if the item has a body, and inside of it stand the tokens of the body of the expansion. -/
theorem exists_ofText_textIn (h : FunctionItem.ofText file text = .ok item)
    (hswallows : (ofItem item).swallowsBody text = false) (file' : String) :
  ∃ v, ofText file' ((ofItem item).textIn text) = .ok v ∧
    (v.getLast?.any fun tree => atGroup .brace [tree]) = item.body?.isSome ∧
    ∀ body ∈ (ofItem item).body?, (ofItem item).trees.getLast? = some body.tree ∧
      ∃ inside opening closing, v.getLast? = some (.group .brace inside opening closing) ∧
        flatAll inside = flatAll body.trees
  := by
  obtain ⟨trees, htrees, hitem⟩ := Outcome.bind_eq_ok.mp h
  obtain ⟨d, hread, -⟩ := FunctionItem.exists_read_of_ofTrees hitem
  obtain ⟨s⟩ := FunctionItem.nonempty_steps hread
  obtain ⟨htokens, hproper⟩ := tokensOf_of_ofText htrees
  have hall : tokensOf file text = .ok ([] ++ (tokensAll trees ++ [])) := by
    rw [htokens, List.nil_append, List.append_nil]
  have hordered := ordered_of_ofText htrees
  -- The trees in front of the ending, with a longer word if the return type goes on.
  obtain ⟨stem, hstem, hstem'⟩ : ∃ stem,
      Shows ((ofItem item).stemText text) [item.ending.mark] (shownAll stem) ∧ areProper stem := by
    have hstem := areProper_stemTrees s hproper
    cases hruns : (ofItem item).runsIntoWhere with
    | false => exact ⟨_, shows_stem s hall hordered hruns [], hstem⟩
    | true =>
        obtain ⟨u, t, t', w, longer, hsplit, hword, -, hshows⟩ := shows_longer s hall hordered hruns []
        refine ⟨_, hshows, ?_⟩
        rw [hsplit, areProper_append, areProper, areProper, Bool.and_eq_true, Bool.and_eq_true] at hstem
        rw [areProper_append, areProper, Bool.and_eq_true]
        refine ⟨hstem.1, ?_, hstem.2.2.2⟩
        cases longer <;> first | rfl | cases hword
  have hline : ∀ body ∈ item.body?, (ofItem item).declaration.isSome → StartsOnLine text [] body := by
    intro body hbody hsome
    apply startsOnLine s hordered hbody
    intro hdoc
    obtain ⟨declaration, hd⟩ := Option.isSome_iff_exists.mp hsome
    rw [swallowsBody, item_ofItem, Option.mem_def.mp hbody, hd] at hswallows
    simpa [hdoc] using hswallows
  have hshows := shows_textWith s hall hordered hstem hline
    (fun body hbody v => shows_openTrees s hall hordered hbody v) []
  have hend := isProper_endTree s hproper (areProper_openTrees s hproper)
  obtain ⟨v, hv, hbare, -⟩ := hshows.exists_ofText
    (areProper_append.mpr ⟨hstem', by rw [areProper, hend]; rfl⟩) file'
  use v, hv
  obtain ⟨last, hlast, hbare'⟩ : ∃ last, v.getLast? = some last ∧
      last.bare = ((ofItem item).endTree (ofItem item).openTrees).bare := by
    have hmap := congrArg List.getLast? hbare
    rw [bareAll_eq_map, bareAll_eq_map, List.getLast?_map, List.map_append, List.map_singleton,
      List.getLast?_concat] at hmap
    exact Option.map_eq_some_iff.mp hmap
  rw [hlast]
  rcases s.ending_cases with ⟨body, hending, hbrace⟩ | ⟨t, hending, ht⟩
  · have hlast' := getLast?_trees s
    rw [endTree, item_ofItem, hending] at hbare' hlast'
    rw [body?_eq, item_ofItem, FunctionItem.body?, hending]
    cases last with
    | token => cases hbare'
    | group delimiter inside opening closing =>
        obtain ⟨rfl, hinside, -⟩ := TokenTree.group.inj hbare'
        use rfl
        rintro _ ⟨⟩
        rw [hlast', Group.tree, hbrace]
        refine ⟨rfl, inside, opening, closing, rfl, ?_⟩
        rw [← flatAll_bareAll, hinside, flatAll_bareAll]
  · rw [endTree, item_ofItem, hending] at hbare'
    rw [body?_eq, item_ofItem, FunctionItem.body?, hending]
    cases last with
    | token =>
        use rfl
        rintro _ ⟨⟩
    | group => cases hbare'

/-- A declaration gets a line of its own behind a line of documentation. -/
theorem exists_ofText_textIn_documented :
  ∃ item v, FunctionItem.ofText "f.rs" "fn f() -> (a: u8) \x7b\r\n  //! D\r\n  a \x7d".toList = .ok item ∧
    (ofItem item).textIn "fn f() -> (a: u8) \x7b\r\n  //! D\r\n  a \x7d".toList =
      "fn f() -> u8 \x7b\r\n  //! D\r\n  let a: u8;\r\n  a \x7d".toList ∧
    ofText "f.rs" "fn f() -> u8 \x7b\r\n  //! D\r\n  let a: u8;\r\n  a \x7d".toList = .ok v ∧
    ∀ body ∈ (ofItem item).body?, ∃ inside opening closing,
      v.getLast? = some (.group .brace inside opening closing) ∧ flatAll inside = flatAll body.trees
  := by
  obtain ⟨item, hitem, hp⟩ := Outcome.exists_of_any
    (x := FunctionItem.ofText "f.rs" "fn f() -> (a: u8) \x7b\r\n  //! D\r\n  a \x7d".toList)
    (p := fun item =>
      !(ofItem item).swallowsBody "fn f() -> (a: u8) \x7b\r\n  //! D\r\n  a \x7d".toList &&
      (ofItem item).textIn "fn f() -> (a: u8) \x7b\r\n  //! D\r\n  a \x7d".toList ==
        "fn f() -> u8 \x7b\r\n  //! D\r\n  let a: u8;\r\n  a \x7d".toList)
    (by decide +kernel)
  rw [Bool.and_eq_true, Bool.not_eq_true', beq_iff_eq] at hp
  obtain ⟨v, hv, -, hbody⟩ := exists_ofText_textIn hitem hp.1 "f.rs"
  rw [hp.2] at hv
  exact ⟨item, v, hitem, hp.2, hv, fun body hmem => (hbody body hmem).2⟩

/-- A line of documentation that nothing follows in the body swallows the declaration. -/
theorem not_exists_ofText_textIn_documented :
  ∃ item, FunctionItem.ofText "f.rs" "fn f() -> (a: u8) \x7b\n    //! Docs.\n\x7d".toList = .ok item ∧
    (ofItem item).textIn "fn f() -> (a: u8) \x7b\n    //! Docs.\n\x7d".toList =
      "fn f() -> u8 \x7b\n    //! Docs. let a: u8; \x7d".toList ∧
    ¬ ∃ v, ofText "f.rs" "fn f() -> u8 \x7b\n    //! Docs. let a: u8; \x7d".toList = .ok v
  := by
  obtain ⟨item, hitem, hp⟩ := Outcome.exists_of_any
    (x := FunctionItem.ofText "f.rs" "fn f() -> (a: u8) \x7b\n    //! Docs.\n\x7d".toList)
    (p := fun item => (ofItem item).textIn "fn f() -> (a: u8) \x7b\n    //! Docs.\n\x7d".toList ==
      "fn f() -> u8 \x7b\n    //! Docs. let a: u8; \x7d".toList)
    (by decide +kernel)
  refine ⟨item, hitem, eq_of_beq hp, ?_⟩
  rintro ⟨v, hv⟩
  have hnone : (ofText "f.rs" "fn f() -> u8 \x7b\n    //! Docs. let a: u8; \x7d".toList).toOption =
      none := Option.isNone_iff_eq_none.mp (by decide +kernel)
  rw [hv] at hnone
  cases hnone

end Text

end Expansion

end ReturnCaptures
