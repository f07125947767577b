import ReturnCaptures.Proofs.CheckedTexts
import ReturnCaptures.Proofs.CopyThrough
import ReturnCaptures.Proofs.ItemTexts
import ReturnCaptures.Proofs.LineFeeds
import ReturnCaptures.Proofs.LinesAndColumns
import ReturnCaptures.Proofs.Occurrences
import ReturnCaptures.Proofs.RecordedParts

/-!
# Texts whose lines end in a carriage return and a line feed

If every line feed of a text stands directly behind a carriage return, so does every line feed of
its expansion. What is copied starts at the start or behind the end of a token, and neither a
carriage return and its line feed nor a token are cut there: a token starts with no whitespace,
and it ends in no carriage return in front of a line feed. A declaration gets a line of its own
only if there is whitespace with a line feed in front of the statements. It comes from the text of
the body, even where edits are applied in between, so that the body has carriage returns to tell
how its lines end.
-/

namespace ReturnCaptures

open Scan TokenTree

/-! ### Line feeds behind carriage returns -/

/-- Every line feed of a text stands directly behind a carriage return. -/
def HasFullLineEnds (text : List Char) : Prop :=
  ∀ before after, text = before ++ '\n' :: after → before.getLast? = some '\r'

section Texts

variable {text u v : List Char} {m n : Nat} {c : Char}

theorem hasFullLineEnds_iff :
  HasFullLineEnds text ↔
    ∀ i < text.length, text[i]? = some '\n' → (text.take i).getLast? = some '\r'
  := by
  constructor
  · intro h i _ hfeed
    obtain ⟨hlt, hget⟩ := List.getElem?_eq_some_iff.mp hfeed
    apply h (text.take i) (text.drop (i + 1))
    rw [← hget, List.getElem_cons_drop, List.take_append_drop]
  · rintro h before after rfl
    have hlast := h before.length (by simp) (by simp)
    rwa [List.take_left] at hlast

instance (text : List Char) : Decidable (HasFullLineEnds text) :=
  decidable_of_iff' _ hasFullLineEnds_iff

namespace HasFullLineEnds

theorem of_not_mem (h : '\n' ∉ text) :
  HasFullLineEnds text
  := by
  rintro before after rfl
  simp at h

theorem append (hu : HasFullLineEnds u) (hv : HasFullLineEnds v) :
  HasFullLineEnds (u ++ v)
  := by
  intro before after h
  rcases List.append_eq_append_iff.mp h with ⟨r, rfl, hr⟩ | ⟨r, hr, hfeed⟩
  · rw [List.getLast?_append, hv r after hr, Option.some_or]
  · cases r with
    | nil =>
        rw [List.nil_append] at hfeed
        cases hv [] after hfeed.symm
    | cons d r =>
        obtain ⟨rfl, rfl⟩ := List.cons_eq_cons.mp hfeed
        apply hu before r hr

theorem cons (hc : c ≠ '\n') (h : HasFullLineEnds text) :
  HasFullLineEnds (c :: text)
  := append (u := [c]) (of_not_mem (by simpa using hc.symm)) h

/-- A stretch that does not start with a line feed. -/
theorem slice (h : HasFullLineEnds text) (hm : (text.drop m).head? ≠ some '\n') :
  HasFullLineEnds (slice text m n)
  := by
  intro before after hsplit
  have htext : text = (text.take m ++ before) ++ '\n' :: (after ++ (text.drop m).drop (n - m)) := by
    rw [List.append_assoc, ← List.cons_append, ← List.append_assoc before, ← hsplit,
      ReturnCaptures.slice, List.take_append_drop, List.take_append_drop]
  cases before using List.reverseRecOn with
  | nil =>
      rw [List.append_nil] at htext
      have hdrop := List.append_cancel_left ((List.take_append_drop m text).trans htext)
      rw [hdrop] at hm
      exact absurd rfl hm
  | append_singleton before d =>
      have hlast := h _ _ htext
      rwa [← List.append_assoc, List.getLast?_concat, ← List.getLast?_concat (l := before)] at hlast

/-- A text that has line feeds has carriage returns in front of them. -/
theorem hasCarriageReturns (h : HasFullLineEnds text) (hmem : '\n' ∈ text) :
  hasCarriageReturns text
  := by
  obtain ⟨before, after, rfl⟩ := List.append_of_mem hmem
  obtain ⟨r, rfl⟩ := List.getLast?_eq_some_iff.mp (h before after rfl)
  rw [List.append_assoc]
  clear h hmem
  induction r with
  | nil => rfl
  | cons c r ih => rw [List.cons_append, ReturnCaptures.hasCarriageReturns, ih, Bool.or_true]

theorem tupleText {texts : List (List Char)} (h : ∀ text ∈ texts, HasFullLineEnds text) :
  HasFullLineEnds (tupleText texts)
  := by
  apply tupleText_of_append (fun u v => append) _ h
  intro u hu
  apply of_not_mem
  intro hmem
  exact absurd (hu hmem) (by decide)

theorem withDeclaration {declaration lineEnd statements : List Char}
    (hdeclaration : HasFullLineEnds declaration) (hstatements : HasFullLineEnds statements)
    (hlineEnd : '\n' ∈ statements.takeWhile isWhitespace → lineEnd = ['\r', '\n']) :
  HasFullLineEnds (withDeclaration declaration lineEnd statements)
  := by
  unfold ReturnCaptures.withDeclaration
  simp only
  split
  case isTrue => exact cons (by decide) (hdeclaration.append (of_not_mem (by decide)))
  case isFalse =>
    split
    case isTrue hfeed =>
      rw [hlineEnd (List.contains_iff_mem.mp hfeed)]
      have hindentation : '\n' ∉ indentation (statements.takeWhile isWhitespace) := by
        rw [indentation, List.mem_reverse]
        intro hmem
        cases List.all_eq_true.mp List.all_takeWhile _ hmem
      exact ((append (by decide) (of_not_mem hindentation)).append hdeclaration).append hstatements
    case isFalse =>
      apply cons (by decide) (hdeclaration.append (cons (by decide) _))
      generalize hq : (fun c => c == ' ' || c == '\t') = q
      -- what is left out in front are blanks, none of which a line feed may stand behind
      intro before after hrest
      have hlast := hstatements (statements.takeWhile q ++ before) after
        (by rw [List.append_assoc, ← hrest, List.takeWhile_append_dropWhile])
      cases before using List.reverseRecOn with
      | append_singleton before d =>
          rwa [← List.append_assoc, List.getLast?_concat,
            ← List.getLast?_concat (l := before)] at hlast
      | nil =>
          rw [List.append_nil] at hlast
          have hblank := List.all_eq_true.mp List.all_takeWhile _ (List.mem_of_getLast? hlast)
          rw [← hq] at hblank
          cases hblank

end HasFullLineEnds

end Texts

/-! ### Where tokens start and end -/

/-- A stretch that starts with a character other than whitespace, and directly behind which no line
feed stands. -/
structure Span.StandsApart (s : Span) (text : List Char) : Prop where
  start : ∃ c rest, text.drop s.start = c :: rest ∧ isWhitespace c = false
  stop : (text.drop s.stop).head? ≠ some '\n'

theorem Span.StandsApart.head?_ne {s : Span} {text : List Char} (h : s.StandsApart text) :
  (text.drop s.start).head? ≠ some '\n'
  := by
  obtain ⟨c, rest, hdrop, hc⟩ := h.start
  rw [hdrop]
  rintro ⟨⟩
  cases hc

/-- Trees all of whose tokens stand apart. -/
def TokenTree.StandApart (trees : List TokenTree) (text : List Char) : Prop :=
  ∀ t ∈ tokensAll trees, t.span.StandsApart text

section Tokens

variable {file : String} {source : List Char} {tokens : List Token} {t : Token}

/-- A line comment does not end between a carriage return and its line feed. -/
theorem getLast?_line {s : List Char} (h : (s.drop (lineLength s)).head? = some '\n') :
  (s.take (lineLength s)).getLast? ≠ some '\r'
  := by
  induction s with
  | nil => simp
  | cons c s ih =>
      rw [lineLength_cons] at h ⊢
      split
      case isTrue => simp
      case isFalse hc =>
        rw [if_neg hc, List.drop_succ_cons] at h
        rw [List.take_succ_cons, List.getLast?_cons]
        cases hlast : (s.take (lineLength s)).getLast? with
        | some d =>
            rw [hlast] at ih
            exact ih h
        | none =>
            -- the line ends directly behind its only character
            rw [List.getLast?_eq_none_iff, List.take_eq_nil_iff] at hlast
            have hdrop : s.drop (lineLength s) = s := by
              rcases hlast with hzero | rfl
              · rw [hzero, List.drop_zero]
              · rfl
            rw [hdrop] at h
            rintro ⟨⟩
            exact hc (.inr ⟨rfl, h⟩)

/-- The tokens of a text stand apart if all of its line feeds stand behind carriage returns. -/
theorem standsApart_of_tokensOf (hfull : HasFullLineEnds source)
    (h : tokensOf file source = .ok tokens) (ht : t ∈ tokens) :
  t.span.StandsApart source
  := by
  obtain ⟨before, after, rfl⟩ := List.append_of_mem ht
  obtain ⟨hclean, htokens⟩ := tokensOf_eq_ok.mp h
  obtain ⟨ps, q, qs, hpieces, -, hreading, hspan, -⟩ := exists_piece htokens
  obtain ⟨hstart, hstop⟩ := lengths_of_span hspan
  obtain ⟨c, r, u, -, rfl, hlength, hqs⟩ := exists_of_pieces (pieces_textOf hpieces)
  have hsource : source = textOf ps ++ ((c :: r) ++ u) := by
    rw [← textOf_pieces source, hpieces, textOf_append, textOf_cons, hqs, textOf_pieces]
  constructor
  · use c, r ++ u
    rw [← hstart, hsource, List.drop_left]
    use rfl
    rw [Bool.eq_false_iff]
    intro hspace
    rw [start, if_pos hspace] at hreading
    cases hreading
  · rw [textOf_append, textOf_cons, textOf_nil, List.append_nil] at hstop
    rw [← hstop, hsource, ← List.append_assoc, List.drop_left]
    intro hfeed
    obtain ⟨u, rfl⟩ := List.head?_eq_some_iff.mp hfeed
    have hreturn := hfull _ _ (hsource.trans (List.append_assoc _ _ _).symm)
    have hlast : ((c :: (r ++ '\n' :: u)).take (start c (r ++ '\n' :: u)).length).getLast? ≠
        some '\r' := by
      apply endsWithout_start (by decide) _ _ _ _ hreading
      intro hcomment
      apply endsWithout_lineComment
      apply getLast?_line
      have hline (s : List Char) : (lineComment s).length = lineLength s := by
        simp only [lineComment]
        split_ifs <;> rfl
      rw [← hline, ← hcomment, hlength, List.drop_succ_cons, List.drop_left]
      rfl
    rw [hlength, List.take_succ_cons, List.take_left] at hlast
    rw [List.getLast?_append, List.getLast?_eq_some_getLast (List.cons_ne_nil c r),
      Option.some_or, ← List.getLast?_eq_some_getLast (List.cons_ne_nil c r)] at hreturn
    exact hlast hreturn

end Tokens

namespace TokenTree

variable {file : String} {text : List Char} {trees u v : List TokenTree} {tree : TokenTree}

theorem standApart_of_ofText (hfull : HasFullLineEnds text) (h : ofText file text = .ok trees) :
  StandApart trees text
  := fun _ ht => standsApart_of_tokensOf hfull (tokensOf_of_ofText h).1 ht

theorem standApart_append :
  StandApart (u ++ v) text ↔ StandApart u text ∧ StandApart v text
  := by rw [StandApart, tokensAll_append, List.forall_mem_append, StandApart, StandApart]

theorem StandApart.of_isSuffix (h : StandApart trees text) (hu : u <:+ trees) :
  StandApart u text
  := by
  obtain ⟨v, rfl⟩ := hu
  exact (standApart_append.mp h).2

/-- Trees that stand apart start and end at places where a text can be cut. -/
theorem StandApart.of_spans {s : Span} (h : StandApart trees text)
    (hs : Spans trees s.start s.stop) :
  s.StandsApart text
  := by
  obtain ⟨tree, hlast, -⟩ := Option.map_eq_some_iff.mp hs.2
  obtain ⟨first, mid, last, hfirst, htokens, hstart, hstop, -⟩ := hs.exists_tokens hlast
  rw [StandApart, htokens] at h
  constructor
  · rw [← hstart]
    exact (h first (List.mem_of_head? hfirst)).start
  · rw [← hstop]
    exact (h last (by simp)).stop

theorem StandApart.of_mem (h : StandApart trees text) (ht : tree ∈ trees) :
  tree.span.StandsApart text
  := by
  obtain ⟨u, v, rfl⟩ := List.append_of_mem ht
  rw [← List.singleton_append, standApart_append, standApart_append] at h
  exact h.2.1.of_spans ⟨rfl, rfl⟩

theorem StandApart.of_group {g : Group} (h : StandApart trees text) (hg : g.tree ∈ trees) :
  g.opening.StandsApart text ∧ StandApart g.trees text ∧ g.closing.StandsApart text
  := by
  obtain ⟨u, v, rfl⟩ := List.append_of_mem hg
  have hgroup := (standApart_append.mp h).2
  rw [StandApart, tokensAll, Group.tree, tokens, List.forall_mem_append, List.forall_mem_cons,
    List.forall_mem_append, List.forall_mem_singleton] at hgroup
  exact ⟨hgroup.1.1, hgroup.1.2.1, hgroup.1.2.2⟩

theorem StandApart.of_isExcerpt {part : Part} (h : StandApart trees text)
    (hpart : part.IsExcerpt trees) :
  part.span.StandsApart text
  := by
  obtain ⟨run, rfl, hspans, r, hstands, -⟩ := hpart
  obtain ⟨before, after, htokens, -⟩ := hstands.exists_tokens
  have hrun : StandApart run.trees text := by
    intro t ht
    apply h
    simp [htokens, ht]
  exact hrun.of_spans hspans

end TokenTree

/-! ### What an expansion writes -/

section Items

variable {text : List Char} {c d : Cursor} {item : FunctionItem}

namespace FunctionItem

/-- The parameters of an item stand among its trees. -/
theorem Steps.params_mem (s : Steps c item d) :
  item.params.group.tree ∈ c.trees
  := by
  rw [s.reads.trees]
  simp [Expansion.headTrees]

theorem Steps.ending_mem (s : Steps c item d) :
  item.ending.tree ∈ c.trees
  := by
  rw [s.reads.trees]
  simp

/-- A text can be cut behind the parameters and behind the return clause of an item. -/
theorem Steps.standApart_stops (s : Steps c item d) (hapart : StandApart c.trees text) :
  (text.drop item.paramsStop).head? ≠ some '\n' ∧ (text.drop item.returnsStop).head? ≠ some '\n'
  := by
  have hparams := (hapart.of_mem s.params_mem).stop
  use hparams
  have hreturns : StandApart item.returns.trees text := by
    rw [s.reads.trees] at hapart
    simp only [standApart_append] at hapart
    exact hapart.1.1.1.2
  have hfollows := ReturnClause.follows_read s.returns_eq
  rw [returnsStop]
  generalize item.returns = returns, s.afterReturns = e at hreturns hfollows ⊢
  cases hfollows with
  | absent => exact hparams
  | @plain arrow type _ _ _ htype _ =>
      have hspans := (TypeExpr.standsIn_of_read htype (List.suffix_refl _)).spans
      exact ((standApart_append.mp hreturns).2.of_spans hspans).stop
  | @captures arrow items g _ _ _ _ _ _ _ =>
      have hg : g.tree ∈ arrow.trees ++ [g.tree] := by simp
      exact (hreturns.of_mem hg).stop

end FunctionItem

namespace Expansion

/-- The types of captures are parts of an item, and the patterns of bound ones. -/
theorem mem_parts_of_capture {arrow : Arrow} {items : List Capture} {g : Group} {span : Span}
    {capture : Capture} (h : item.returns = .captures arrow items g span) (hc : capture ∈ items) :
  capture.type.run.part ∈ item.parts ∧ ∀ p ∈ capture.pattern?, p.run.part ∈ item.parts
  := by
  have hparts : ∀ part ∈ capture.parts, part ∈ item.parts := by
    intro part hpart
    rw [FunctionItem.parts, h]
    exact List.mem_append_right _ (List.mem_flatMap.mpr ⟨capture, hc, hpart⟩)
  constructor
  · apply hparts
    simp [Capture.parts]
  · rintro ⟨kind, run, parts⟩ hp
    apply hparts
    simp [Capture.parts, Option.mem_def.mp hp, Pattern.runs, Pattern.run]

variable (hfull : HasFullLineEnds text) (hparts : ∀ part ∈ item.parts, part.span.StandsApart text)
include hfull hparts

theorem hasFullLineEnds_returnText (hparams : (text.drop item.paramsStop).head? ≠ some '\n') :
  HasFullLineEnds (returnText text (ofItem item) item.paramsStop).1
  := by
  rw [returnText, item_ofItem]
  cases hreturns : item.returns with
  | absent => exact .of_not_mem (by simp)
  | plain arrow type span => exact hfull.slice hparams
  | captures arrow items g span =>
      dsimp only
      split
      case isFalse => exact hfull.slice hparams
      case isTrue =>
        split
        case isTrue => exact .of_not_mem (by simp)
        case isFalse =>
          apply (hfull.slice hparams).append (.cons (by decide) (.tupleText _))
          rw [List.forall_mem_map]
          intro capture hcapture
          exact hfull.slice (hparts _ (mem_parts_of_capture hreturns hcapture).1).head?_ne

/-- The patterns and types of a declaration are copied. -/
theorem hasFullLineEnds_declaration {declaration : Declaration}
    (h : (ofItem item).declaration = some declaration) :
  HasFullLineEnds (declaration.textIn text)
  := by
  obtain ⟨span, hdeclaration⟩ := exists_declaration_eq item
  rw [hdeclaration] at h
  split at h
  case isTrue => cases h
  case isFalse =>
    cases h
    have hbounds : ∀ bound ∈ item.returns.bounds,
        bound.1.span.StandsApart text ∧ bound.2.run.span.StandsApart text := by
      rintro ⟨p, type⟩ hbound
      cases hreturns : item.returns with
      | captures arrow items g span =>
          rw [hreturns] at hbound
          obtain ⟨htype, hpattern⟩ := mem_parts_of_capture hreturns (Capture.mem_bounds hbound)
          exact ⟨hparts _ (hpattern p rfl), hparts _ htype⟩
      | _ =>
          rw [hreturns] at hbound
          cases hbound
    have hpatterns : HasFullLineEnds
        (tupleText ((item.returns.bounds.map (·.1)).map (·.span.textIn text))) := by
      apply HasFullLineEnds.tupleText
      rw [List.forall_mem_map, List.forall_mem_map]
      exact fun bound hbound => hfull.slice (hbounds bound hbound).1.head?_ne
    have htypes : HasFullLineEnds
        (tupleText ((item.returns.bounds.map (·.2)).map (·.run.span.textIn text))) := by
      apply HasFullLineEnds.tupleText
      rw [List.forall_mem_map, List.forall_mem_map]
      exact fun bound hbound => hfull.slice (hbounds bound hbound).2.head?_ne
    exact ((((HasFullLineEnds.append (by decide) hpatterns).append (by decide)).append
      htypes).append (by decide))

end Expansion

end Items

/-! ### Bodies with edits -/

/-- An edit puts a text that starts with no whitespace in a place behind which the source can be
cut. -/
structure Edit.Fits (edit : Edit) (text : List Char) : Prop where
  fullLineEnds : HasFullLineEnds edit.replacement
  start : ∃ c rest, edit.replacement = c :: rest ∧ isWhitespace c = false
  stop : (text.drop edit.stop).head? ≠ some '\n'

section Bodies

variable {text : List Char} {edits : List Edit} {m n : Nat} {c : Char}

theorem HasFullLineEnds.splice (hfull : HasFullLineEnds text)
    (hm : (text.drop m).head? ≠ some '\n') (hedits : ∀ edit ∈ edits, edit.Fits text) :
  HasFullLineEnds (splice text m n edits)
  := by
  induction edits generalizing m with
  | nil => exact hfull.slice hm
  | cons edit edits ih =>
      rw [List.forall_mem_cons] at hedits
      rw [ReturnCaptures.splice]
      exact ((hfull.slice hm).append hedits.1.fullLineEnds).append (ih hedits.1.stop hedits.2)

theorem mem_slice_of_le {k l : Nat} (h : c ∈ slice text k l) (hmk : m ≤ k) (hkl : k ≤ l)
    (hln : l ≤ n) :
  c ∈ slice text m n
  := by
  rw [← slice_append_slice (Nat.le_trans hmk hkl) hln, ← slice_append_slice hmk hkl]
  simp [h]

/-- The whitespace at the start of a spliced text is that of the source. -/
theorem mem_slice_of_margin (hedits : ∀ edit ∈ edits, edit.Fits text)
    (hordered : Edit.Ordered m n edits) (h : c ∈ (splice text m n edits).takeWhile isWhitespace) :
  c ∈ slice text m n
  := by
  cases hordered with
  | nil hle => exact (List.takeWhile_sublist _).subset h
  | @cons _ _ edit edits hm hlt hordered =>
      obtain ⟨d, rest, hreplacement, hd⟩ := (hedits edit (List.mem_cons_self ..)).start
      rw [ReturnCaptures.splice, hreplacement, List.append_assoc, List.cons_append,
        takeWhile_append_cons hd] at h
      have hle := hordered.le
      exact mem_slice_of_le ((List.takeWhile_sublist _).subset h) (Nat.le_refl _) hm (by omega)

/-- The inside of a body with its declaration. The declaration gets a line of its own only if the
body has line feeds, which tell how its line ends. -/
theorem Expansion.hasFullLineEnds_bodyText {body : Group} {x : Expansion}
    (hfull : HasFullLineEnds text) (hopening : body.opening.StandsApart text)
    (hbody : StandApart body.trees text) (hstart : body.opening.stop ≤ statementsStart body)
    (hdeclaration : ∀ d ∈ x.declaration, HasFullLineEnds (d.textIn text))
    (hedits : ∀ edit ∈ edits, edit.Fits text)
    (hordered : x.declaration.isSome →
      Edit.Ordered (statementsStart body) body.closing.start edits) :
  HasFullLineEnds (bodyText text edits x body)
  := by
  have hstatements : (text.drop (statementsStart body)).head? ≠ some '\n' := by
    rw [statementsStart]
    cases hlast : (splitInnerAttributes body.trees).1.getLast? with
    | none => exact hopening.stop
    | some last =>
        apply (hbody.of_mem _).stop
        rw [← append_splitInnerAttributes body.trees]
        exact List.mem_append_left _ (List.mem_of_getLast? hlast)
  rw [bodyText]
  cases hx : x.declaration with
  | none => exact hfull.splice hopening.stop hedits
  | some d =>
      dsimp only
      rw [hx] at hdeclaration hordered
      apply (hfull.slice hopening.stop).append
      apply (hdeclaration d rfl).withDeclaration (hfull.splice hstatements hedits)
      intro hmargin
      have hfeed := mem_slice_of_margin hedits (hordered rfl) hmargin
      have hmem := mem_slice_of_le hfeed hstart (hordered rfl).le (Nat.le_refl _)
      rw [if_pos ((hfull.slice hopening.stop).hasCarriageReturns hmem)]

end Bodies

/-! ### Items with edits -/

section Items

variable {text : List Char} {c d : Cursor} {item : FunctionItem} {edits : List Edit} {m n : Nat}

theorem FunctionItem.Steps.standsApart (s : Steps c item d) (hapart : StandApart c.trees text) :
  item.span.StandsApart text
  := by
  obtain ⟨first, rest, hfirst⟩ := List.exists_cons_of_ne_nil (List.ne_nil_of_mem s.ending_mem)
  have hspan : item.span.start = first.span.start := by
    rw [s.span_eq, Cursor.span, hfirst]
    rfl
  have hending := stop_of_readEnding s.ending_eq
  have hstop : item.span.stop = item.ending.tree.span.stop :=
    (congrArg Span.stop s.span_eq).trans hending
  constructor
  · rw [hspan]
    apply (hapart.of_mem _).start
    rw [hfirst]
    exact List.mem_cons_self
  · rw [hstop]
    exact (hapart.of_mem s.ending_mem).stop

/-- The trees of an item in which edits may stand. -/
theorem FunctionItem.Steps.openTrees (s : Steps c item d) (hapart : StandApart c.trees text)
    (hplaces : Ordered m n c.trees) :
  StandApart (Expansion.ofItem item).openTrees text ∧
    ∃ k l, Ordered k l (Expansion.ofItem item).openTrees
  := by
  have hopen := Expansion.occurs_openTrees s.ending_mem
  obtain ⟨k, l, -, -, hordered⟩ := hopen.exists_ordered hplaces
  exact ⟨fun t ht => hapart t (hopen.tokensAll_isInfix.subset ht), k, l, hordered⟩

/-- An item with edits in its body is written as a text that starts with no whitespace. -/
theorem Expansion.fits_textWith (s : FunctionItem.Steps c item d)
    (hparams : s.params = item.generics.params) (hfull : HasFullLineEnds text)
    (hapart : StandApart c.trees text) (hplaces : Ordered m n c.trees)
    (hedits : ∀ edit ∈ edits, edit.Fits text)
    (hordered : ∀ {k l}, Ordered k l (ofItem item).openTrees → Edit.Ordered k l edits) :
  HasFullLineEnds ((ofItem item).textWith text edits) ∧
    ∃ c rest, (ofItem item).textWith text edits = c :: rest ∧ isWhitespace c = false
  := by
  have hparts : ∀ part ∈ item.parts, part.span.StandsApart text :=
    fun part hpart => hapart.of_isExcerpt (s.isExcerpt hparams part hpart)
  obtain ⟨hhead, htail⟩ := s.standApart_stops hapart
  obtain ⟨hlt, -, hending⟩ := s.ordered hplaces
  obtain ⟨clause, ending, htext, hreturn, -, hsemicolon, hbody⟩ := exists_textWith text edits item
  have hclause := hasFullLineEnds_returnText hfull hparts hhead
  rw [hreturn] at hclause
  obtain ⟨first, rest, hdrop, hfirst⟩ := (s.standsApart hapart).start
  rw [htext, List.append_assoc]
  constructor
  · apply (hfull.slice (s.standsApart hapart).head?_ne).append (hclause.append _)
    have hmem := s.ending_mem
    cases hcase : item.ending with
    | semicolon t =>
        rw [hsemicolon t hcase]
        exact hfull.slice htail
    | body body =>
        rw [hcase] at hmem
        rw [hbody body hcase]
        obtain ⟨hopening, hinside, hclosing⟩ := hapart.of_group (g := body) hmem
        obtain ⟨hstart, hstatements⟩ := ordered_statements (hplaces.inside (g := body) hmem)
        apply ((hfull.slice htail).append _).append (hfull.slice hclosing.head?_ne)
        apply hasFullLineEnds_bodyText hfull hopening hinside hstart
          (fun _ => hasFullLineEnds_declaration hfull hparts) hedits
        intro hsome
        apply hordered
        obtain ⟨declaration, hdeclaration⟩ := Option.isSome_iff_exists.mp hsome
        rw [openTrees, item_ofItem, FunctionItem.body?, hcase, hdeclaration]
        exact hstatements
  · obtain ⟨k, hk⟩ := Nat.exists_eq_add_of_lt hlt
    have hslice : slice text item.span.start item.paramsStop = first :: rest.take k := by
      rw [slice, hdrop, hk, Nat.add_assoc, Nat.add_sub_cancel_left, List.take_succ_cons]
    rw [hslice]
    exact ⟨first, _, rfl, hfirst⟩

end Items

/-! ### Expansions of a source -/

namespace Source

variable {source : Source} {trees : List TokenTree} {edits : List Edit} {names : List String}
  {m n : Nat}

theorem Marks.fits (h : source.Marks trees edits names) (hfull : HasFullLineEnds source.text)
    (hapart : StandApart trees source.text) (hplaces : TokenTree.Ordered m n trees) :
  ∀ edit ∈ edits, edit.Fits source.text
  := by
  induction h generalizing m n with
  | nil => simp
  | @called tree rest call item inner _ _ _ hsite hitem hinner _ ihinner ih =>
      obtain ⟨_, path, bang, rest', htrees, -⟩ := id hsite
      have harguments : call.arguments.tree ∈ tree :: rest := by simp [htrees]
      obtain ⟨u, last, hextent, hlast, hstop⟩ := hsite.exists_extent
      obtain ⟨d, hread, -⟩ := FunctionItem.ofTrees_eq_ok.mp hitem
      obtain ⟨s, hparams⟩ := FunctionItem.exists_steps hread
      have hinside := (hapart.of_group harguments).2.1
      have hordered := hplaces.inside harguments
      obtain ⟨hopen, k, l, hopen'⟩ := s.openTrees hinside hordered
      obtain ⟨htext, hstart⟩ := Expansion.fits_textWith s hparams hfull hinside hordered
        (ihinner hopen hopen') hinner.ordered
      rw [List.forall_mem_cons]
      constructor
      · use htext, hstart
        rw [← hstop]
        apply (hapart.of_mem _).stop
        rw [hextent]
        exact List.mem_append_left _ (List.mem_of_getLast? hlast)
      · rw [hextent] at hapart hplaces
        exact ih (standApart_append.mp hapart).2 hplaces.of_append_right
  | @attributed tree rest item next inner _ _ _ hsite hitem hinner _ ihinner ih =>
      obtain ⟨d, hread, -⟩ := FunctionItem.readAt_eq_ok.mp hitem
      obtain ⟨s, hparams⟩ := FunctionItem.exists_steps hread
      have hbehind (k : Nat) : StandApart ((tree :: rest).drop k) source.text ∧
          TokenTree.Ordered m n ((tree :: rest).drop k) := by
        rw [← List.take_append_drop k (tree :: rest)] at hapart hplaces
        exact ⟨(standApart_append.mp hapart).2, hplaces.of_append_right⟩
      obtain ⟨hinside, hordered⟩ := hbehind 2
      obtain ⟨hopen, k, l, hopen'⟩ := s.openTrees hinside hordered
      obtain ⟨htext, hstart⟩ := Expansion.fits_textWith s hparams hfull hinside hordered
        (ihinner hopen hopen') hinner.ordered
      rw [List.forall_mem_cons]
      constructor
      · use htext, hstart
        exact (s.standsApart hinside).stop
      · exact ih (hbehind next).1 (hbehind next).2
  | @token t rest _ _ _ _ ih =>
      exact ih (hapart.of_isSuffix (List.suffix_cons _ _)) (hplaces.of_append_right (u := [_]))
  | @group d inside rest opening closing _ _ _ _ _ _ _ ihinner ih =>
      have hmem : Group.tree ⟨d, inside, opening, closing⟩ ∈
          .group d inside opening closing :: rest := List.mem_cons_self
      rw [List.forall_mem_append]
      constructor
      · exact ihinner (hapart.of_group hmem).2.1 (hplaces.inside hmem)
      · exact ih (hapart.of_isSuffix (List.suffix_cons _ _)) (hplaces.of_append_right (u := [_]))

/-- The expansion of a text whose line feeds all stand directly behind carriage returns is another
such text, no matter which macros and attributes mark items. -/
theorem hasFullLineEnds_of_expand {s s' : List String} {out : List Char}
    (h : source.expand.run s = .ok out s') (hfull : HasFullLineEnds source.text) :
  HasFullLineEnds out
  := by
  obtain ⟨trees, edits, names, htrees, hmarks, -, rfl⟩ := expand_run_eq_ok.mp h
  apply hfull.splice _ (hmarks.fits hfull (standApart_of_ofText hfull htrees)
    (ordered_of_ofText htrees))
  intro hfeed
  obtain ⟨rest, hrest⟩ := List.head?_eq_some_iff.mp hfeed
  cases hfull [] rest hrest

/-- Declarations get their own lines in an item and in another one inside it, behind a documentation
comment. -/
theorem hasFullLineEnds_of_expand_nested :
  ∃ source out,
    source = Source.mk "f.rs"
      ("named_return! \x7b\r\n  fn f() -> (a: u8) \x7b\r\n    /// c\r\n    " ++
        "named_return! \x7b fn g() -> (b: u8) \x7b\r\n      b \x7d \x7d\r\n  \x7d\r\n\x7d").toList .standard ∧
    source.expand.run [] = .ok out ["f", "g"] ∧
    out = ("fn f() -> u8 \x7b\r\n    let a: u8;\r\n    /// c\r\n    " ++
      "fn g() -> u8 \x7b\r\n      let b: u8;\r\n      b \x7d\r\n  \x7d").toList ∧
    HasFullLineEnds source.text ∧ HasFullLineEnds out
  := by
  obtain ⟨out, names, hrun, hout⟩ := Recording.exists_of_any
    (x := (Source.mk "f.rs"
      ("named_return! \x7b\r\n  fn f() -> (a: u8) \x7b\r\n    /// c\r\n    " ++
        "named_return! \x7b fn g() -> (b: u8) \x7b\r\n      b \x7d \x7d\r\n  \x7d\r\n\x7d").toList .standard).expand)
    (s := [])
    (p := fun out names =>
      out == ("fn f() -> u8 \x7b\r\n    let a: u8;\r\n    /// c\r\n    " ++
        "fn g() -> u8 \x7b\r\n      let b: u8;\r\n      b \x7d\r\n  \x7d").toList && names == ["f", "g"])
    (by decide +kernel)
  simp only [Bool.and_eq_true, beq_iff_eq] at hout
  obtain ⟨rfl, rfl⟩ := hout
  have hfull : HasFullLineEnds
      ("named_return! \x7b\r\n  fn f() -> (a: u8) \x7b\r\n    /// c\r\n    " ++
        "named_return! \x7b fn g() -> (b: u8) \x7b\r\n      b \x7d \x7d\r\n  \x7d\r\n\x7d").toList := by
    decide +kernel
  exact ⟨_, _, rfl, hrun, rfl, hfull, hasFullLineEnds_of_expand hrun hfull⟩

end Source

end ReturnCaptures
