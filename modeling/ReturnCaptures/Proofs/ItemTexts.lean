import ReturnCaptures.Expansion.Text
import ReturnCaptures.Proofs.Declarations
import ReturnCaptures.Proofs.Places

/-!
# The text of an expanded item

The text of an expanded item differs from that of the item in two places: its return clause, which
stays as it is unless it is replaced, and the place where the declaration is inserted, behind the
inner attributes of the body. A declaration takes the place of whitespace at most, and stands
between whitespace. Everything else is copied, comments included.
-/

namespace ReturnCaptures

open TokenTree Outcome

/-! ### Declarations in front of statements -/

/-- Statements with a declaration in front of them start with it, set off by whitespace, and go on
with the statements, of which at most some whitespace at the start is left out. -/
theorem exists_withDeclaration {lineEnd : List Char} (h : isBlank lineEnd)
    (declaration statements : List Char) :
  ∃ before after left rest,
    withDeclaration declaration lineEnd statements = before ++ declaration ++ after ++ rest ∧
    isBlank before ∧ isBlank after ∧ statements = left ++ rest ∧ isBlank left
  := by
  have hindentation : isBlank (indentation (statements.takeWhile isWhitespace)) := by
    rw [isBlank, indentation, List.all_reverse, List.all_eq_true]
    intro c hc
    have hmem := List.mem_reverse.mp ((List.takeWhile_sublist _).subset hc)
    apply List.all_eq_true.mp List.all_takeWhile c hmem
  unfold withDeclaration
  simp only
  split
  case isTrue hblank =>
    use [' '], [' '], statements, []
    simp only [List.append_nil, List.nil_append, List.cons_append, true_and]
    exact ⟨rfl, rfl, hblank⟩
  case isFalse =>
    split
    case isTrue =>
      use lineEnd ++ indentation (statements.takeWhile isWhitespace), [], [], statements
      simp only [List.append_nil, List.nil_append, true_and]
      rw [isBlank, List.all_append, Bool.and_eq_true]
      exact ⟨⟨h, hindentation⟩, rfl, rfl⟩
    case isFalse =>
      use [' '], [' '], statements.takeWhile (fun c => c == ' ' || c == '\t'),
        statements.dropWhile (fun c => c == ' ' || c == '\t')
      simp only [List.cons_append, List.nil_append, List.append_assoc,
        List.takeWhile_append_dropWhile, true_and]
      refine ⟨rfl, rfl, ?_⟩
      rw [isBlank, List.all_eq_true]
      intro c hc
      have hspace := List.all_eq_true.mp List.all_takeWhile c hc
      rw [Bool.or_eq_true, beq_iff_eq, beq_iff_eq] at hspace
      rcases hspace with rfl | rfl <;> decide

/-- A stretch of a text that consists of two parts is two stretches, one behind the other. -/
theorem exists_slice_of_append {text u v : List Char} {m n : Nat} (hmn : m ≤ n)
    (h : slice text m n = u ++ v) :
  ∃ k, m ≤ k ∧ k ≤ n ∧ slice text m k = u ∧ slice text k n = v
  := by
  have hlength : (u ++ v).length ≤ n - m := by
    rw [← h, slice]
    apply List.length_take_le
  rw [List.length_append] at hlength
  use m + u.length, by omega, by omega
  constructor
  · have htake := congrArg (List.take u.length) h
    rw [slice, List.take_take, Nat.min_eq_left (by omega), List.take_left] at htake
    rwa [slice, Nat.add_sub_cancel_left]
  · have hdrop := congrArg (List.drop u.length) h
    rw [slice, List.drop_take, List.drop_drop, List.drop_left] at hdrop
    rwa [slice, Nat.sub_add_eq]

/-! ### Where the parts of an item end -/

/-- The offset at which a return clause ends; where there is none, its place is at `start`. -/
def ReturnClause.stop (start : Nat) : ReturnClause → Nat
  | absent => start
  | plain _ _ span => span.stop
  | captures _ _ _ span => span.stop

namespace FunctionItem

/-- The offset at which the parameters of an item end. -/
def paramsStop (item : FunctionItem) : Nat := item.params.group.closing.stop

/-- The offset at which the return clause of an item ends, or its parameters if it has none. -/
def returnsStop (item : FunctionItem) : Nat := item.returns.stop item.paramsStop

/-- The offset at which the statements of the body of an item start, or at which the item ends if it
has no body. -/
def statementsStart (item : FunctionItem) : Nat :=
  match item.ending with
  | .body body => Expansion.statementsStart body
  | .semicolon t => t.span.stop

end FunctionItem

/-! ### Items -/

section Items

variable {c d : Cursor} {item : FunctionItem} {file : String} {text : List Char} {m n : Nat}

/-- A return clause ends where the last of its trees does, and the trees behind it stand behind
that. -/
theorem ReturnClause.Follows.ordered {returns : ReturnClause} {v : List TokenTree}
    (h : Follows c returns d) (hordered : Ordered m n (returns.trees ++ v)) :
  m ≤ returns.stop m ∧ Ordered (returns.stop m) n v
  := by
  cases h with
  | absent => exact ⟨Nat.le_refl _, hordered⟩
  | @plain arrow type _ _ _ htype _ =>
      obtain ⟨_, hlast⟩ := (TypeExpr.standsIn_of_read htype (List.suffix_refl _)).spans
      obtain ⟨last, hlast, hstop⟩ := Option.map_eq_some_iff.mp hlast
      have hlast' : (arrow.trees ++ type.run.trees).getLast? = some last := by
        rw [List.getLast?_append, hlast, Option.some_or]
      obtain ⟨hlt, hv⟩ := hordered.of_getLast? hlast'
      rw [hstop] at hlt hv
      exact ⟨Nat.le_of_lt hlt, hv⟩
  | captures _ _ _ _ _ _ =>
      obtain ⟨hlt, hv⟩ := hordered.of_getLast? List.getLast?_concat
      exact ⟨Nat.le_of_lt hlt, hv⟩

/-- The statements of a body stand behind where they start, which is behind the opening brace. -/
theorem Expansion.ordered_statements {body : Group} (h : Ordered body.opening.stop n body.trees) :
  body.opening.stop ≤ statementsStart body ∧
    Ordered (statementsStart body) n (splitInnerAttributes body.trees).2
  := by
  rw [statementsStart]
  rw [← append_splitInnerAttributes body.trees] at h
  cases hlast : (splitInnerAttributes body.trees).1.getLast? with
  | none => exact ⟨Nat.le_refl _, h.of_append_right⟩
  | some last =>
      obtain ⟨hlt, hstatements⟩ := h.of_getLast? hlast
      exact ⟨Nat.le_of_lt hlt, hstatements⟩

namespace FunctionItem

/-- The parameters, the return clause and the ending of an item stand one behind the other. -/
theorem Steps.ordered (s : Steps c item d) (h : Ordered m n c.trees) :
  item.span.start < item.paramsStop ∧ item.paramsStop ≤ item.returnsStop ∧
    Ordered item.returnsStop n (item.ending.tree :: d.trees)
  := by
  have htrees := s.reads.trees
  rw [List.append_assoc, List.append_assoc, List.append_assoc] at htrees
  have hhead : (Expansion.headTrees item).getLast? = some item.params.group.tree :=
    List.getLast?_concat
  obtain ⟨first, rest, hfirst⟩ := List.exists_cons_of_ne_nil
    (List.ne_nil_of_mem (List.mem_of_getLast? hhead))
  have hstart : item.span.start = first.span.start := by
    rw [s.span_eq, Cursor.span, htrees, hfirst]
    rfl
  rw [htrees] at h
  obtain ⟨_, hlt, h⟩ := h.of_append (by rw [hfirst, List.head?_cons]) hhead
  rw [← hstart] at hlt
  obtain ⟨hreturns, h⟩ := (ReturnClause.follows_read s.returns_eq).ordered h
  exact ⟨hlt, hreturns, h.of_append_right⟩

end FunctionItem

namespace Expansion

/-- An item without a body declares nothing. -/
theorem declaration_eq_none {t : Token} (h : item.ending = .semicolon t) :
  (ofItem item).declaration = none
  := by
  obtain ⟨span, hdeclaration⟩ := exists_declaration_eq item
  rw [hdeclaration, if_pos]
  rw [FunctionItem.body?, h, Ending.body?, Option.isNone_none, Bool.or_true]

/-- The return clause of an expansion is put in the place of that of the item, and is the same
unless it is replaced. -/
theorem exists_returnText (text : List Char) (item : FunctionItem) :
  ∃ clause, returnText text (ofItem item) item.paramsStop = (clause, item.returnsStop) ∧
    ((ofItem item).replaced = false → clause = slice text item.paramsStop item.returnsStop)
  := by
  rw [returnText, item_ofItem, FunctionItem.returnsStop]
  cases item.returns with
  | absent => simp [ReturnClause.stop, slice]
  | plain arrow type span => simp [ReturnClause.stop]
  | captures arrow items g span => cases (ofItem item).replaced <;> simp [ReturnClause.stop]

/-- The text of an expansion: that of the item up to its return clause, the return clause, and the
ending of the item with what stands in front of it. -/
theorem exists_textWith (text : List Char) (edits : List Edit) (item : FunctionItem) :
  ∃ clause ending,
    (ofItem item).textWith text edits =
      slice text item.span.start item.paramsStop ++ clause ++ ending ∧
    returnText text (ofItem item) item.paramsStop = (clause, item.returnsStop) ∧
    ((ofItem item).replaced = false → clause = slice text item.paramsStop item.returnsStop) ∧
    (∀ t, item.ending = .semicolon t → ending = slice text item.returnsStop t.span.stop) ∧
    ∀ body, item.ending = .body body →
      ending =
        slice text item.returnsStop body.opening.stop ++ bodyText text edits (ofItem item) body ++
          slice text body.closing.start body.closing.stop
  := by
  obtain ⟨clause, hreturn, hclause⟩ := exists_returnText text item
  rw [textWith, item_ofItem, ← FunctionItem.paramsStop, hreturn]
  cases item.ending with
  | semicolon t =>
      use clause, slice text item.returnsStop t.span.stop, rfl, rfl, hclause
      constructor
      · rintro _ ⟨⟩
        rfl
      · rintro _ ⟨⟩
  | body body =>
      use clause, slice text item.returnsStop body.opening.stop ++
        bodyText text edits (ofItem item) body ++ slice text body.closing.start body.closing.stop
      use rfl, rfl, hclause
      constructor
      · rintro _ ⟨⟩
      · rintro _ ⟨⟩
        rfl

/-- The inside of a body with the declaration inserted, in the place of whitespace at most. -/
theorem exists_bodyText (text : List Char) {body : Group} (x : Expansion)
    (hstart : body.opening.stop ≤ statementsStart body)
    (hstop : statementsStart body ≤ body.closing.start) :
  ∃ inserted next,
    x.bodyText text [] body =
      slice text body.opening.stop (statementsStart body) ++ inserted ++
        slice text next body.closing.start ∧
    statementsStart body ≤ next ∧ next ≤ body.closing.start ∧
    (x.declaration = none → inserted = [] ∧ next = statementsStart body) ∧
    ∀ d ∈ x.declaration, isBlank (slice text (statementsStart body) next) ∧
      ∃ before after, inserted = before ++ d.textIn text ++ after ∧ isBlank before ∧ isBlank after
  := by
  rw [bodyText]
  cases x.declaration with
  | none =>
      use [], statementsStart body
      dsimp only
      rw [splice_nil, List.append_nil, slice_append_slice hstart hstop]
      simp [hstop]
  | some declaration =>
      dsimp only
      generalize hlineEnd : (if hasCarriageReturns (slice text body.opening.stop body.closing.start)
        then ['\r', '\n'] else ['\n']) = lineEnd
      have hblank : isBlank lineEnd := by
        rw [← hlineEnd]
        split <;> decide
      obtain ⟨before, after, left, rest, htext, hbefore, hafter, hstatements, hleft⟩ :=
        exists_withDeclaration hblank (declaration.textIn text)
          (slice text (statementsStart body) body.closing.start)
      obtain ⟨next, hle, hle', hleft', hrest⟩ := exists_slice_of_append hstop hstatements
      use before ++ declaration.textIn text ++ after, next
      rw [splice_nil, htext, hrest, hleft']
      use by simp, hle, hle', by simp
      rintro _ ⟨⟩
      exact ⟨hleft, before, after, rfl, hbefore, hafter⟩

/-- The text of an expanded item consists of the text of the item up to its return clause, of a
return clause, of the text up to the statements of the body, of what is inserted there, and of the
rest of the item. The return clause is that of the item unless it is replaced. Nothing is inserted
without a declaration; otherwise it is the declaration between whitespace, in the place of
whitespace. -/
theorem textIn_ofItem (h : FunctionItem.ofText file text = .ok item) :
  ∃ clause inserted next,
    (ofItem item).textIn text =
      slice text item.span.start item.paramsStop ++ clause ++
        slice text item.returnsStop item.statementsStart ++ inserted ++
        slice text next item.span.stop ∧
    item.span.start ≤ item.paramsStop ∧ item.paramsStop ≤ item.returnsStop ∧
    item.returnsStop ≤ item.statementsStart ∧ item.statementsStart ≤ next ∧
    next ≤ item.span.stop ∧ item.span.stop ≤ text.length ∧
    ((ofItem item).replaced = false → clause = slice text item.paramsStop item.returnsStop) ∧
    ((ofItem item).declaration = none → inserted = [] ∧ next = item.statementsStart) ∧
    ∀ d ∈ (ofItem item).declaration,
      item.body?.isSome ∧ isBlank (slice text item.statementsStart next) ∧
      ∃ before after, inserted = before ++ d.textIn text ++ after ∧ isBlank before ∧ isBlank after
  := by
  obtain ⟨trees, htrees, hitem⟩ := Outcome.bind_eq_ok.mp h
  obtain ⟨d, hread, hd⟩ := FunctionItem.exists_read_of_ofTrees hitem
  obtain ⟨s⟩ := FunctionItem.nonempty_steps hread
  obtain ⟨_, _, _, hstop, _⟩ := FunctionItem.exists_trees_of_read hread
  obtain ⟨hparams, hreturns, hending⟩ := s.ordered (ordered_of_ofText htrees)
  obtain ⟨clause, ending, htext, _, hclause, hsemicolon, hbody⟩ := exists_textWith text [] item
  rw [textIn, htext, FunctionItem.statementsStart, FunctionItem.body?]
  cases hcase : item.ending with
  | semicolon t =>
      obtain rfl := hsemicolon t hcase
      have hnone := declaration_eq_none hcase
      rw [hcase] at hstop hending
      obtain ⟨hle, hlt, hrest⟩ := hending.of_cons
      have hend : item.span.stop = t.span.stop := hstop
      use clause, [], t.span.stop
      simp only [Ending.tree, TokenTree.span] at hle hlt hrest
      dsimp only
      rw [hend]
      use by simp [slice], Nat.le_of_lt hparams, hreturns, by omega, Nat.le_refl _, Nat.le_refl _,
        hrest.le, hclause
      use fun _ => ⟨rfl, rfl⟩
      rintro _ hsome
      rw [hnone] at hsome
      cases hsome
  | body body =>
      rw [hcase] at hstop hending
      obtain _ | _ | ⟨hle, hlt, hinside, hlt', hrest⟩ := hending
      have hend : item.span.stop = body.closing.stop := hstop
      obtain ⟨hstart, hstatements⟩ := ordered_statements hinside
      obtain ⟨inserted, next, hinserted, hnext, hnext', hnone, hsome⟩ :=
        exists_bodyText text (ofItem item) hstart hstatements.le
      use clause, inserted, next
      dsimp only
      rw [hend, hbody body hcase, hinserted,
        ← slice_append_slice (by omega : item.returnsStop ≤ body.opening.stop) hstart,
        ← slice_append_slice hnext' (Nat.le_of_lt hlt')]
      use by simp, Nat.le_of_lt hparams, hreturns, by omega, hnext, by omega, hrest.le, hclause,
        hnone
      intro d hd
      exact ⟨rfl, hsome d hd⟩

/-- Comments around the return clause and the statements stay, and so does an inner attribute. -/
theorem textIn_ofItem_commented :
  ∃ text item clause inserted next,
    text = "fn f() /* p */ -> (a: u8) where u8: Copy \x7b\n  #![allow(x)] // i\n  /* s */ a\n\x7d".toList ∧
    FunctionItem.ofText "f.rs" text = .ok item ∧
    (ofItem item).textIn text =
      "fn f() /* p */ -> u8 where u8: Copy \x7b\n  #![allow(x)] let a: u8; // i\n  /* s */ a\n\x7d".toList ∧
    (ofItem item).textIn text =
      slice text item.span.start item.paramsStop ++ clause ++
        slice text item.returnsStop item.statementsStart ++ inserted ++
        slice text next item.span.stop ∧
    item.statementsStart ≤ next ∧
    ∀ d ∈ (ofItem item).declaration,
      isBlank (slice text item.statementsStart next) ∧
      ∃ before after, inserted = before ++ d.textIn text ++ after ∧ isBlank before ∧ isBlank after
  := by
  obtain ⟨item, hitem, htext⟩ := Outcome.exists_of_any
    (x := FunctionItem.ofText "f.rs"
      "fn f() /* p */ -> (a: u8) where u8: Copy \x7b\n  #![allow(x)] // i\n  /* s */ a\n\x7d".toList)
    (p := fun item => (ofItem item).textIn
      "fn f() /* p */ -> (a: u8) where u8: Copy \x7b\n  #![allow(x)] // i\n  /* s */ a\n\x7d".toList ==
        "fn f() /* p */ -> u8 where u8: Copy \x7b\n  #![allow(x)] let a: u8; // i\n  /* s */ a\n\x7d".toList)
    (by decide +kernel)
  rw [beq_iff_eq] at htext
  obtain ⟨clause, inserted, next, hparts, _, _, _, hnext, _, _, _, _, hdeclared⟩ :=
    textIn_ofItem hitem
  exact ⟨_, item, clause, inserted, next, rfl, hitem, htext, hparts, hnext,
    fun d hd => (hdeclared d hd).2⟩

end Expansion

end Items

end ReturnCaptures
