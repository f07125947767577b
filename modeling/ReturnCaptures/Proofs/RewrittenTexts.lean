import ReturnCaptures.Proofs.CheckedTexts
import ReturnCaptures.Proofs.Resumptions
import ReturnCaptures.Proofs.RewrittenTrees

/-!
# Texts with their marked items rewritten

The text of an expansion shows the trees of the source with their marked items rewritten, if nothing
in front of a marked item goes on into what the item becomes, and if every item is written as its own
trees. If no marks are left among these, nothing is left to expand: the expansion of the text is the
text itself.
-/

namespace ReturnCaptures

open Scan TokenTree

/-! ### Where marked items start -/

theorem Lexeme.isPunct_of_startsItem {l : Lexeme} (hl : l.startsItem) :
  l.isPunct ':' = false
  := by
  cases l with
  | punct symbol joint =>
      obtain rfl : symbol = '#' := eq_of_beq hl
      rfl
  | _ => rfl

/-- A stretch of a text starts as the text does at its start. -/
theorem exists_slice_cons {text r : List Char} {c : Char} {m n : Nat} (h : text.drop m = c :: r)
    (hmn : m < n) :
  ∃ r', slice text m n = c :: r'
  := by
  obtain ⟨k, rfl⟩ := Nat.exists_eq_add_of_lt hmn
  rw [slice, h, Nat.add_assoc, Nat.add_sub_cancel_left, List.take_succ_cons]
  exact ⟨_, rfl⟩

theorem Lexeme.of_startsItem {l : Lexeme} {c : Char} (hl : l.startsItem) (hc : l.opensWith c) :
  isDigit c = false ∧ c ≠ ':'
  := by
  cases l with
  | doc inner text =>
      obtain rfl : c = '/' := eq_of_beq hc
      decide
  | keyword word =>
      rw [Lexeme.opensWith, Bool.and_eq_true, Bool.not_eq_true'] at hc
      use hc.2
      rintro rfl
      revert hc
      decide
  | punct symbol joint =>
      obtain rfl : symbol = '#' := eq_of_beq hl
      rw [Lexeme.opensWith, Bool.and_eq_true, beq_iff_eq] at hc
      rw [hc.1]
      decide
  | _ => cases hl

section Starts

variable {file : String} {text : List Char} {before after : List Token} {t : Token} {c d : Cursor}
  {item : FunctionItem} {m n : Nat}

/-- A token starts with a visible character that tells what it is. -/
theorem exists_drop_start (h : tokensOf file text = .ok (before ++ t :: after)) :
  ∃ c r, text.drop t.span.start = c :: r ∧ t.lexeme.opensWith c ∧ isWhitespace c = false
  := by
  obtain ⟨u, hstands⟩ := stands_of_tokensOf h t (by simp)
  obtain ⟨c, r, hr, hopens, hreading, -⟩ := hstands.exists_start
  rw [drop_start h, Token.text, hr]
  refine ⟨c, _, rfl, hopens, ?_⟩
  rw [Bool.eq_false_iff]
  intro hspace
  rw [start, if_pos hspace] at hreading
  cases hreading

/-- The text of an expansion starts as an item does. -/
theorem Expansion.startsItem_textWith (s : FunctionItem.Steps c item d)
    (htokens : tokensOf file text = .ok (before ++ (tokensAll c.trees ++ after)))
    (hordered : Ordered m n c.trees) (edits : List Edit) (w : List Char) :
  startsItem ((ofItem item).textWith text edits ++ w)
  := by
  obtain ⟨t, rest, hhead, ht⟩ := s.exists_first
  obtain ⟨rest', hall⟩ := s.exists_tokens htokens
  have hstart : t.span.start = item.span.start := by
    have hspans := s.spans_front.1.1
    rw [hhead] at hspans
    exact Option.some.inj hspans
  rw [hhead, tokensAll, tokens] at hall
  obtain ⟨first, r, hdrop, hopens, hspace⟩ := exists_drop_start hall
  rw [hstart] at hdrop
  obtain ⟨hdigit, hcolon⟩ := Lexeme.of_startsItem ht hopens
  obtain ⟨clause, ending, htext, -⟩ := exists_textWith text edits item
  obtain ⟨r', hslice⟩ := exists_slice_cons hdrop (s.ordered hordered).1
  rw [htext, hslice]
  simp [startsItem, startsWith, hspace, hdigit, hcolon]

end Starts

section Splice

variable {text : List Char} {edits edits' : List Edit} {m n k k' l : Nat}

/-- What stands in front of edits is copied. -/
theorem splice_behind (h : Edit.Ordered k n edits) (hmk : m ≤ k) :
  splice text m n edits = slice text m k ++ splice text k n edits
  := splice_append (.nil hmk) h

/-- What stands in front of some edits, and between them and others, is copied. -/
theorem splice_between (h : Edit.Ordered k l edits) (h' : Edit.Ordered k' n edits') (hmk : m ≤ k)
    (hlk : l ≤ k') :
  splice text m n (edits ++ edits') =
    slice text m k ++ (splice text k l edits ++ (slice text l k' ++ splice text k' n edits'))
  := by
  have hbehind := h'.of_le hlk
  rw [splice_behind (h.append hbehind) hmk, splice_append h hbehind, splice_behind h' hlk]

end Splice

namespace Expansion

section Body

variable {text : List Char} {c d : Cursor} {item : FunctionItem} {body : Group} {edits : List Edit}
  {m n : Nat}

variable (s : FunctionItem.Steps c item d) (hordered : Ordered m n c.trees)
  (hbody : body ∈ item.body?)

include s hordered hbody

/-- The trees of a body in which edits may stand do so between the offset behind which edits may stand
and the end of the body. -/
theorem ordered_openTrees :
  Ordered ((ofItem item).openStart body) body.closing.start (ofItem item).openTrees
  := by
  have hplaces := ordered_body s hordered (ending_of_mem_body? hbody)
  rw [openTrees, item_ofItem, Option.mem_def.mp hbody, openStart]
  cases (ofItem item).declaration with
  | none => exact hplaces
  | some declaration => exact (ordered_statements hplaces).2

/-- Statements with edits start on a line of their own behind a line of documentation, as they do
without. -/
theorem startsOnLine_edits
    (hblank : endsInLineDoc (splitInnerAttributes body.trees).1 →
      isBlank (slice text (statementsStart body) body.closing.start) = false)
    (hedits : Edit.Ordered (statementsStart body) body.closing.start edits)
    (hfirst : ∀ edit ∈ edits,
      startsVisibly edit.replacement ∧ startsVisibly (text.drop edit.start)) :
  StartsOnLine text edits body
  := by
  intro hdoc hline
  have hstarts := startsOnLine s hordered hbody hblank hdoc hline
  cases hedits with
  | nil => exact hstarts
  | @cons _ _ edit edits hm hlt hrest =>
      obtain ⟨-, hmargin, hfeed⟩ := hstarts
      rw [List.forall_mem_cons] at hfirst
      obtain ⟨⟨hnew, hold⟩, -⟩ := hfirst
      obtain ⟨first, r, hreplacement, hspace⟩ := exists_of_startsVisibly hnew
      obtain ⟨first', r', hdrop, hspace'⟩ := exists_of_startsVisibly hold
      have hlt' : edit.start < body.closing.start := Nat.lt_of_lt_of_le hlt hrest.le
      obtain ⟨r', hslice⟩ := exists_slice_cons hdrop hlt'
      rw [splice_nil, ← slice_append_slice hm (Nat.le_of_lt hlt'), hslice,
        takeWhile_append_cons hspace'] at hmargin
      rw [splice, hreplacement, List.append_assoc, List.cons_append, takeWhile_append_cons hspace]
      refine ⟨?_, hmargin, hfeed⟩
      rw [isBlank, List.all_append, List.all_cons, hspace, Bool.false_and, Bool.and_false]

end Body

end Expansion

open MarkedItem

/-! ### Texts of rewritten trees -/

/-- A marked item leaves nothing behind that is to be expanded: apart from the statements of its body, no
mark stands among the trees of its expansion. Its text is read as these trees: no line of documentation
swallows the body, and the return type does not go on into a where clause. And what directly stands in
front of it does not go on into it. -/
structure MarkedItem.Dissolves (x : MarkedItem) (source : Source) (tokens : List Token) : Prop where
  unmarked : Source.Unmarked source.markers ((Expansion.ofItem x.item).treesAround [])
  written : (Expansion.ofItem x.item).swallowsBody source.text = false
  separate : (Expansion.ofItem x.item).runsIntoWhere = false
  apart : EndsApart tokens x.start

namespace MarkedItem

variable {file : String} {source : Source} {before after : List Token} {trees : List TokenTree}
  {x : MarkedItem} {m n : Nat}

/-- Where a marked item starts, the text starts visibly, and the text of its expansion starts as an item
does. -/
theorem StandsAmong.starts (h : x.StandsAmong source trees)
    (htokens : tokensOf file source.text = .ok (before ++ (tokensAll trees ++ after)))
    (hordered : Ordered m n trees) (edits : List Edit) (w : List Char) :
  startsVisibly (source.text.drop x.start) ∧
    startsItem ((Expansion.ofItem x.item).textWith source.text edits ++ w)
  := by
  obtain ⟨u, v, hoccurs, htakes⟩ := h
  have hlocate {place : List TokenTree} (hplace : Occurs place trees) :
      ∃ p q, tokensOf file source.text = .ok (p ++ (tokensAll place ++ q)) := by
    obtain ⟨p, q, hsplit⟩ := hplace.tokensAll_isInfix
    use before ++ p, q ++ after
    rw [htokens, ← hsplit]
    simp
  constructor
  · obtain ⟨first, u, rfl, hstart, -⟩ := htakes.exists_cons
    obtain ⟨p, q, hall⟩ := hlocate hoccurs
    obtain ⟨t, r, hfirst, ht⟩ := exists_first first
    rw [List.cons_append, tokensAll, hfirst, List.cons_append, List.cons_append] at hall
    obtain ⟨c, r, hdrop, -, hspace⟩ := exists_drop_start hall
    rw [← hstart, ← ht, hdrop, startsVisibly, startsWith, hspace]
    rfl
  · obtain ⟨c, d, ⟨s⟩, hc⟩ := htakes.exists_steps
    obtain ⟨p, q, hall⟩ := hlocate (hc.trans hoccurs)
    obtain ⟨k, l, -, -, hplaces⟩ := (hc.trans hoccurs).exists_ordered hordered
    exact Expansion.startsItem_textWith s hall hplaces edits w

end MarkedItem

namespace Source

variable {file : String} {source : Source} {all before after : List Token}
  {trees rest opened u v : List TokenTree} {x : MarkedItem} {found : List MarkedItem}
  {w : List Char} {m n : Nat}

theorem Rewrites.holds (h : source.Rewrites trees found rest) :
  source.Holds trees found
  := by
  induction h with
  | nil => exact .nil
  | marked htakes _ _ ihopen ih => exact .marked htakes ihopen ih
  | token hsite _ ih => exact .token hsite ih
  | group hsite _ _ ihinside ih => exact .group hsite ihinside ih

/-- The edits of marked items stand one behind the other where the trees do. -/
theorem Holds.ordered_edits (h : source.Holds trees found) (hordered : TokenTree.Ordered m n trees) :
  Edit.Ordered m n (editAll source.text found)
  := by
  induction h generalizing m n with
  | nil => exact .nil hordered.le
  | marked htakes _ _ _ ih =>
      obtain ⟨hm, hlt, -, hafter, -⟩ := htakes.ordered hordered
      rw [editAll_cons]
      exact .cons hm hlt (ih hafter)
  | token _ _ ih => exact ih (hordered.of_append_right (u := [_]))
  | group _ _ _ ihinside ih =>
      cases hordered with
      | group hm hopening hinside hclosing hrest =>
          rw [editAll_append]
          exact ((ihinside hinside).of_le (by omega)).append ((ih hrest).of_le (Nat.le_of_lt hclosing))

/-- What a marked item becomes starts with no colon. -/
theorem not_atPunct_treesAround (htakes : x.TakesUp source u v) (opened after : List TokenTree) :
  TokenTree.atPunct ':' ((Expansion.ofItem x.item).treesAround opened ++ after) = false
  := by
  obtain ⟨t, r, htrees, ht⟩ := exists_of_takesUp htakes opened
  rw [htrees]
  exact Lexeme.isPunct_of_startsItem ht

/-- What a marked item becomes ends in no colon. -/
theorem not_isPunct_treesAround (htakes : x.TakesUp source u v) (opened : List TokenTree) :
  ∀ tree ∈ ((Expansion.ofItem x.item).treesAround opened).getLast?, (lastLexeme tree).isPunct ':' = false
  := by
  obtain ⟨c, d, ⟨s⟩, -⟩ := htakes.exists_steps
  obtain ⟨last, hlast, hending⟩ := Expansion.closed_treesAround s opened
  rw [hlast]
  rintro _ ⟨⟩
  cases last with
  | group => exact isPunct_lastLexeme_group
  | token t =>
      obtain ⟨joint, span, rfl⟩ := Cursor.exists_of_isPunct hending
      rfl

/-- Rewritten trees start with a colon only if the trees themselves do. -/
theorem Rewrites.atPunct (h : source.Rewrites trees found rest)
    (hcolon : TokenTree.atPunct ':' rest) :
  TokenTree.atPunct ':' trees
  := by
  cases h with
  | nil => exact hcolon
  | marked htakes =>
      rw [not_atPunct_treesAround htakes] at hcolon
      cases hcolon
  | token => exact hcolon
  | group => exact hcolon

/-- The text of an expansion, with the marked items in its body expanded, shows its trees. -/
theorem shows_of_takesUp (htakes : x.TakesUp source u v)
    (htokens : tokensOf file source.text = .ok (before ++ (tokensAll (u ++ v) ++ after)))
    (hordered : TokenTree.Ordered m n (u ++ v)) (hx : x.Dissolves source all)
    (hinner : source.Holds x.openTrees x.inner)
    (hopened : ∀ {p q k l w},
      tokensOf file source.text = .ok (p ++ (tokensAll x.openTrees ++ q)) →
      TokenTree.Ordered k l x.openTrees → Seam file source.text p k →
      Seam file source.text (p ++ tokensAll x.openTrees) l → Resumes (source.text.drop l) w →
      w.head? ≠ some ':' →
      Shows (splice source.text k l (editAll source.text x.inner)) w (shownAll opened))
    (w : List Char) :
  Shows ((Expansion.ofItem x.item).textWith source.text (editAll source.text x.inner)) w
    (shownAll ((Expansion.ofItem x.item).treesAround opened))
  := by
  obtain ⟨c, d, ⟨s⟩, hc⟩ := htakes.exists_steps
  obtain ⟨p, q, hsplit⟩ := hc.tokensAll_isInfix
  rw [← hsplit, List.append_assoc, List.append_assoc, ← List.append_assoc before] at htokens
  obtain ⟨k, l, -, -, hplaces⟩ := hc.exists_ordered hordered
  apply Expansion.shows_textWith s htokens hplaces
    (Expansion.shows_stem s htokens hplaces hx.separate [])
  · intro body hbody hsome
    have hopen := Expansion.ordered_openTrees s hplaces hbody
    obtain ⟨p, q, hinside, -⟩ := Expansion.exists_openStart s htokens hplaces hbody
    obtain ⟨declaration, hdeclaration⟩ := Option.isSome_iff_exists.mp hsome
    apply Expansion.startsOnLine_edits s hplaces hbody
    · intro hdoc
      have hwritten := hx.written
      rw [Expansion.swallowsBody, Expansion.item_ofItem, Option.mem_def.mp hbody, hdeclaration]
        at hwritten
      simpa [hdoc] using hwritten
    · rw [Expansion.openStart, hdeclaration] at hopen
      exact hinner.ordered_edits hopen
    · intro edit hedit
      obtain ⟨y, hy, rfl⟩ := exists_of_mem_editAll hedit
      obtain ⟨hold, hnew⟩ :=
        (hinner.standsAmong y (mem_listedAll_of_mem hy)).starts hinside hopen _ []
      rw [List.append_nil] at hnew
      exact ⟨startsVisibly_of_startsItem hnew, hold⟩
  · intro body hbody w
    obtain ⟨p, q, hinside, hstart, hstop, -⟩ := Expansion.exists_openStart s htokens hplaces hbody
    apply hopened hinside (Expansion.ordered_openTrees s hplaces hbody) hstart hstop
    · rw [← List.append_assoc] at hinside
      rw [drop_punct hinside]
      exact resumes_closing .brace _ _
    · simp

/-- The text of a source with edits for its marked items shows the trees with the marked items rewritten,
and it goes on what stands in front of it as the text of the source does, or with an item. -/
theorem Rewrites.renders (h : source.Rewrites trees found rest)
    (hall : tokensOf file source.text = .ok all) (hfound : ∀ x ∈ listedAll found, x.Dissolves source all)
    (hat : all = before ++ (tokensAll trees ++ after)) (hordered : TokenTree.Ordered m n trees)
    (hm : Seam file source.text before m) (hn : Seam file source.text (before ++ tokensAll trees) n)
    (hw : Resumes (source.text.drop n) w) (hcolon : w.head? ≠ some ':') :
  Renders all source.text m (splice source.text m n (editAll source.text found)) w rest
  := by
  -- The tokens `all` of the source stay fixed, and with them what the marked items dissolve in. The
  -- induction moves over the stretch of them that the trees are, between two seams of the text.
  induction h generalizing before after m n w with
  | nil =>
      subst hat
      rw [tokensAll, List.append_nil] at hn
      exact .nil hall hm hn hordered.le hw
  | @token t trees rest found _ hrest ih =>
      cases hordered with
      | token hstart hlt hplaces =>
          have hsplit : before ++ (tokensAll (.token t :: trees) ++ after) =
              before ++ t :: (tokensAll trees ++ after) := rfl
          rw [hsplit] at hat
          subst hat
          obtain ⟨-, hseam, -⟩ := seams_of_token hall
          have hedits := hrest.holds.ordered_edits hplaces
          rw [splice_behind hedits (Nat.le_of_lt (Nat.lt_of_le_of_lt hstart hlt))]
          have hrenders := ih hfound (List.append_assoc before [t] _).symm hplaces hseam
            (by simpa [tokensAll, tokens] using hn) hw hcolon
          apply Renders.token hall hm hstart hrenders hcolon
          intro htrees
          exact head?_tokensAll_append (hrest.atPunct htrees) after
  | @group d inside inside' trees rest opening closing inner found _ hinside hrest ihinside ih =>
      cases hordered with
      | group hstart hopening hplaces hclosing hplaces' =>
          have hsplit : before ++ (tokensAll (.group d inside opening closing :: trees) ++ after) =
              before ++ ⟨.punct d.opening false, opening⟩ ::
                (tokensAll inside ++ ⟨.punct d.closing false, closing⟩ :: (tokensAll trees ++ after)) := by
            simp [tokensAll, tokens]
          have hsplit' (v : List Token) : before ++ ⟨.punct d.opening false, opening⟩ ::
                (tokensAll inside ++ ⟨.punct d.closing false, closing⟩ :: v) =
              (before ++ ⟨.punct d.opening false, opening⟩ :: tokensAll inside) ++
                ⟨.punct d.closing false, closing⟩ :: v := by simp
          rw [hsplit] at hat
          subst hat
          have hall' := hall
          rw [hsplit'] at hall'
          obtain ⟨-, hseam, -⟩ := seams_of_token hall
          obtain ⟨hseam', hseam'', -⟩ := seams_of_token hall'
          rw [listedAll_append] at hfound
          have hshows' := (ih (fun x hx => hfound x (List.mem_append_right _ hx))
            ((hsplit' _).trans (List.append_assoc _ [_] _).symm) hplaces' hseam''
            (by simpa [tokensAll, tokens] using hn) hw hcolon).shows
          -- Whatever follows the group, its inside stands in front of the closing delimiter.
          have hresumes (w : List Char) :
              Resumes (source.text.drop closing.start) (d.closing :: w) := by
            rw [drop_punct hall']
            exact resumes_closing d _ _
          have hshows := (ihinside (fun x hx => hfound x (List.mem_append_left _ hx))
            (List.append_assoc before [_] _).symm hplaces hseam (by simpa using hseam')
            (hresumes (splice source.text closing.stop n (editAll source.text found) ++ w))
            (by cases d <;> simp [Delimiter.closing])).shows
          rw [editAll_append, splice_between (hinside.holds.ordered_edits hplaces)
            (hrest.holds.ordered_edits hplaces') (by omega) (Nat.le_of_lt hclosing)]
          exact .group hall hm hstart hshows hshows'
  | @marked u after' opened rest x found htakes hopened hrest ihopened ih =>
      subst hat
      obtain ⟨hstart, hlt, -, hplaces, -⟩ := htakes.ordered hordered
      have hsplit : before ++ (tokensAll (u ++ after') ++ after) =
          before ++ (tokensAll u ++ (tokensAll after' ++ after)) := by
        rw [tokensAll_append, List.append_assoc]
      obtain ⟨hseam, hseam', -⟩ := seams_of_run (hsplit ▸ hall) htakes.spans
      have hx := hfound x (mem_listedAll_of_mem List.mem_cons_self)
      have hfound' := fun y hy => hfound y (mem_listedAll_cons.mpr (.inr hy))
      have hshows' := (ih (fun y hy => hfound' y (.inr hy))
        (hsplit.trans (List.append_assoc before _ _).symm) hplaces hseam'
        (by rwa [tokensAll_append, ← List.append_assoc] at hn) hw hcolon).shows
      have hshows := shows_of_takesUp htakes hall hordered hx hopened.holds
        (fun htokens hplaces hseam hseam' hw hcolon => (ihopened (fun y hy => hfound' y (.inl hy))
          (Except.ok.inj (hall.symm.trans htokens)) hplaces hseam hseam' hw hcolon).shows)
        (splice source.text x.stop n (editAll source.text found) ++ w)
      obtain ⟨hvisible, hitem⟩ := StandsAmong.starts ⟨u, after', .here, htakes⟩ hall hordered
        (editAll source.text x.inner) (splice source.text x.stop n (editAll source.text found) ++ w)
      rw [editAll_cons, splice, List.append_assoc]
      exact .item hall hm hseam hstart hvisible hx.apart hitem hshows hshows'
        (not_atPunct_treesAround htakes opened rest) (not_isPunct_treesAround htakes opened)

/-! ### Expansions of expansions -/

/-- Whether the marked item at a place among trees, if there is one, leaves nothing behind that is to be
expanded. -/
def dissolvesAt (source : Source) (tokens : List Token) (place : List TokenTree) : Bool :=
  match source.itemAt place with
  | .ok (some (item, _)) =>
    let x := Expansion.ofItem item
    everyPlace (fun place => !atMark source.markers place) (x.treesAround []) &&
      !x.swallowsBody source.text && !x.runsIntoWhere &&
      tokens.all fun t => !(place.head?.map (·.span.start) == some t.span.stop) ||
        t.lexeme.standsAlone
  | _ => true

/-- Marked items leave nothing behind if this is checked at all places among the trees. -/
theorem dissolves_of_everyPlace (hmarkers : source.markers.areLists) (hx : x.StandsAmong source trees)
    (hall : everyPlace (source.dissolvesAt all) trees) :
  x.Dissolves source all
  := by
  obtain ⟨u, v, hoccurs, htakes⟩ := hx
  have hplace := hoccurs.of_everyPlace hall
  rw [dissolvesAt, htakes.read] at hplace
  simp only [Bool.and_eq_true, Bool.not_eq_true'] at hplace
  obtain ⟨⟨⟨hclear, hwritten⟩, hseparate⟩, hapart⟩ := hplace
  refine ⟨(unmarked_iff hmarkers).mpr ?_, hwritten, hseparate, ?_⟩
  · intro place hplace
    simpa using hplace.of_everyPlace hclear
  · intro t ht hstop
    have hstart : (u ++ v).head?.map (·.span.start) = some t.span.stop := by
      obtain ⟨first, r, rfl, hfirst, -⟩ := htakes.exists_cons
      rw [hstop, ← hfirst]
      rfl
    have halone := List.all_eq_true.mp hapart t ht
    rw [hstart] at halone
    simpa using halone

/-- An expansion is its own expansion, if the marked items of the source leave nothing behind that is to be
expanded. -/
theorem expand_expanded {names names' : List String} {out : List Char}
    (h : source.expand.run names = .ok out names') (hmarkers : source.markers.areLists)
    (htrees : TokenTree.ofText source.file source.text = .ok trees)
    (hfound : source.Holds trees found)
    (hdissolves : ∀ x ∈ listedAll found, x.Dissolves source (tokensAll trees))
    (names'' : List String) :
  (∃ v, TokenTree.ofText source.file out = .ok v ∧ Unmarked source.markers v) ∧
    (Source.mk source.file out source.markers).expand.run names'' = .ok out names''
  := by
  obtain ⟨_, edits, _, htrees', hmarks, -, rfl⟩ := expand_run_eq_ok.mp h
  obtain rfl := Except.ok.inj (htrees.symm.trans htrees')
  obtain ⟨_, hfound', rfl, -⟩ := hmarks.exists_holds
  obtain rfl := hfound'.unique hfound
  obtain ⟨rest, hrewrites⟩ := hfound.exists_rewrites
  obtain ⟨htokens, hproper⟩ := tokensOf_of_ofText htrees
  have hclear : Clear source.markers rest :=
    hrewrites.clear fun x hx => (unmarked_iff hmarkers).mp (hdissolves x hx).unmarked
  have hstart : Seam source.file source.text [] 0 := ⟨[], _, rfl, rfl, rfl⟩
  have hstop : Seam source.file source.text ([] ++ tokensAll trees) source.text.length :=
    ⟨pieces source.text, [], by simp, by rw [textOf_pieces], (tokensOf_eq_ok.mp htokens).2⟩
  have hall : tokensAll trees = [] ++ (tokensAll trees ++ []) := by simp
  have hshows := (hrewrites.renders htokens hdissolves hall (ordered_of_ofText htrees) hstart hstop
    (by rw [List.drop_length]; exact .refl []) (by simp)).shows
  obtain ⟨v, hv, hbare, hshown⟩ := hshows.exists_ofText (hrewrites.areProper hproper) source.file
  have hunmarked := (unmarked_iff hmarkers).mpr (hclear.of_shownAll hbare hshown)
  use ⟨v, hv, hunmarked⟩
  apply expand_run_eq_ok.mpr
  refine ⟨v, [], [], hv, marks_of_unmarked hunmarked, by simp, ?_⟩
  rw [splice_nil, slice, List.drop_zero, Nat.sub_zero, List.take_length]

theorem expand_expanded_nested :
  ∃ (source : Source) (out : List Char) (trees : List TokenTree) (found : List MarkedItem),
    source.text =
      "#[named_return]\nfn f() -> (a: u8) \x7b named_return! \x7b fn g() -> () \x7b \x7d \x7d a \x7d".toList ∧
    source.expand.run [] = .ok out ["f", "g"] ∧ source.markers.areLists ∧
    out = "fn f() -> u8 \x7b let a: u8; fn g() \x7b \x7d a \x7d".toList ∧
    TokenTree.ofText source.file source.text = .ok trees ∧ source.Holds trees found ∧
    (∀ x ∈ listedAll found, x.Dissolves source (tokensAll trees)) ∧
    (∃ v, TokenTree.ofText source.file out = .ok v ∧ Unmarked source.markers v) ∧
    (Source.mk source.file out source.markers).expand.run [] = .ok out []
  := by
  obtain ⟨out, names, hrun, hout⟩ := Recording.exists_of_any
    (x := (Source.mk "f.rs"
      "#[named_return]\nfn f() -> (a: u8) \x7b named_return! \x7b fn g() -> () \x7b \x7d \x7d a \x7d".toList
      .standard).expand)
    (s := [])
    (p := fun out names =>
      out == "fn f() -> u8 \x7b let a: u8; fn g() \x7b \x7d a \x7d".toList && names == ["f", "g"])
    (by decide +kernel)
  simp only [Bool.and_eq_true, beq_iff_eq] at hout
  obtain ⟨rfl, rfl⟩ := hout
  obtain ⟨trees, _, _, htrees, hmarks, -⟩ := expand_run_eq_ok.mp hrun
  obtain ⟨found, hfound, -⟩ := hmarks.exists_holds
  obtain ⟨trees', htrees', hall⟩ := Outcome.exists_of_any
    (x := TokenTree.ofText "f.rs"
      "#[named_return]\nfn f() -> (a: u8) \x7b named_return! \x7b fn g() -> () \x7b \x7d \x7d a \x7d".toList)
    (p := fun trees => everyPlace ((Source.mk "f.rs"
      "#[named_return]\nfn f() -> (a: u8) \x7b named_return! \x7b fn g() -> () \x7b \x7d \x7d a \x7d".toList
      .standard).dissolvesAt (tokensAll trees)) trees)
    (by decide +kernel)
  obtain rfl := Except.ok.inj (htrees.symm.trans htrees')
  have hdissolves : ∀ x ∈ listedAll found, x.Dissolves _ (tokensAll trees) :=
    fun x hx => dissolves_of_everyPlace rfl (hfound.standsAmong x hx) hall
  obtain ⟨hunmarked, hagain⟩ := expand_expanded hrun rfl htrees hfound hdissolves []
  exact ⟨_, _, trees, found, rfl, hrun, rfl, rfl, htrees, hfound, hdissolves, hunmarked, hagain⟩

/-- A marker attribute that stands twice in front of an item is left behind once, and is expanded away
the next time. -/
theorem not_expand_expanded_repeated :
  ∃ out,
    (Source.mk "f.rs" "#[named_return]\n#[named_return]\nfn f() -> (a: u8) \x7b a \x7d".toList
      .standard).expand.run [] = .ok out ["f"] ∧
    out = "#[named_return]\nfn f() -> u8 \x7b let a: u8; a \x7d".toList ∧
    ¬ ∃ names, (Source.mk "f.rs" out .standard).expand.run [] = .ok out names
  := by
  obtain ⟨out, names, hrun, hout⟩ := Recording.exists_of_any
    (x := (Source.mk "f.rs" "#[named_return]\n#[named_return]\nfn f() -> (a: u8) \x7b a \x7d".toList
      .standard).expand)
    (s := [])
    (p := fun out names =>
      out == "#[named_return]\nfn f() -> u8 \x7b let a: u8; a \x7d".toList && names == ["f"])
    (by decide +kernel)
  simp only [Bool.and_eq_true, beq_iff_eq] at hout
  obtain ⟨rfl, rfl⟩ := hout
  refine ⟨_, hrun, rfl, ?_⟩
  rintro ⟨names, hagain⟩
  obtain ⟨out, names', hagain', hout⟩ := Recording.exists_of_any
    (x := (Source.mk "f.rs" "#[named_return]\nfn f() -> u8 \x7b let a: u8; a \x7d".toList
      .standard).expand)
    (s := [])
    (p := fun out _ => out == "fn f() -> u8 \x7b let a: u8; a \x7d".toList)
    (by decide +kernel)
  rw [hagain] at hagain'
  cases hagain'
  revert hout
  decide

end Source

end ReturnCaptures
