import ReturnCaptures.Expansion.Trees
import ReturnCaptures.Proofs.CapturedTexts
import ReturnCaptures.Proofs.Collapse
import ReturnCaptures.Proofs.ItemTexts
import ReturnCaptures.Proofs.LongerWords
import ReturnCaptures.Proofs.RecordedParts

/-!
# The text of a signature

The signature of an expanded item is its text in front of the body, or up to the semicolon. It is
put together from the text in front of the return clause, the new return clause and the text behind
the old one. It is read as the trees of the expansion in front of its body, for every layout of the
item, with one exception: the type of a single capture takes the place of its parentheses, and if it
ends in a word and the where clause directly follows the parentheses, then this word goes on into the
keyword of the where clause.
-/

namespace ReturnCaptures

open Scan TokenTree

/-! ### Signatures -/

/-- The first character of what an item ends in. -/
def Ending.mark : Ending → Char
  | .body _ => '{'
  | .semicolon _ => ';'

theorem Ending.isActive_mark (ending : Ending) :
  isActive ending.mark = false
  := by
  cases ending <;> rfl

theorem Ending.alike_mark (ending : Ending) (u v : List Char) :
  Alike (ending.mark :: u) (ending.mark :: v)
  := by
  cases ending with
  | body => exact .shared rfl fun h => absurd h Bool.false_ne_true
  | semicolon => exact .shared rfl fun h => absurd h Bool.false_ne_true

/-- The text of the semicolon of an item that ends in one. -/
def Ending.semicolonText : Ending → List Char
  | .body _ => []
  | .semicolon _ => [';']

/-- The semicolon of an item that ends in one. -/
def Ending.semicolonTrees : Ending → List TokenTree
  | .body _ => []
  | .semicolon t => [.token t]

namespace Expansion

/-- The text of an expanded item in front of its ending. -/
def stemText (source : List Char) (x : Expansion) : List Char :=
  let (returns, tail) := returnText source x x.item.paramsStop
  slice source x.item.span.start x.item.paramsStop ++ returns ++
    slice source tail x.item.ending.tree.span.start

/-- The trees of an expanded item in front of its ending. -/
def stemTrees (x : Expansion) : List TokenTree :=
  headTrees x.item ++ x.returnTrees ++ tailTrees x.item

/-- The text of an expanded item in front of its body, or up to its semicolon. -/
def signatureText (source : List Char) (x : Expansion) : List Char :=
  x.stemText source ++ x.item.ending.semicolonText

/-- The trees of an expanded item in front of its body, or up to its semicolon. -/
def signatureTrees (x : Expansion) : List TokenTree :=
  x.stemTrees ++ x.item.ending.semicolonTrees

/-- The text of an expanded item behind its signature, with edits applied: the body in its braces, or
nothing. -/
def blockText (source : List Char) (edits : List Edit) (x : Expansion) : List Char :=
  match x.item.body? with
  | none => []
  | some body => '{' :: (bodyText source edits x body ++ ['}'])

/-- The body of an expanded item, if there is one. -/
def blockTrees (x : Expansion) : List TokenTree := x.body?.toList.map Group.tree

/-- Whether the new return type goes on into the where clause: it is the type of a single capture,
it ends in a word, and the where clause directly follows the captures. -/
def runsIntoWhere (x : Expansion) : Bool :=
  match x.item.returns with
  | .captures _ [capture] _ span =>
    x.replaced && capture.type.run.trees.getLast?.any (fun tree => (lastLexeme tree).isWord) &&
      x.item.generics.whereClause.any fun clause => clause.run.span.start == span.stop
  | _ => false

end Expansion

/-! ### Items in a text -/

section Items

variable {file : String} {text u v : List Char} {before after : List Token} {c d : Cursor}
  {item : FunctionItem} {trees : List TokenTree} {m n : Nat}

/-- A run of trees reaches from one offset between pieces to another one. -/
theorem seams_of_run (h : tokensOf file text = .ok (before ++ (tokensAll trees ++ after)))
    (hs : Spans trees m n) :
  Seam file text before m ∧ Seam file text (before ++ tokensAll trees) n ∧ m ≤ n
  := by
  obtain ⟨tree, hlast, -⟩ := Option.map_eq_some_iff.mp hs.2
  obtain ⟨first, mid, last, hhead, htokens, rfl, rfl, -⟩ := hs.exists_tokens hlast
  rw [htokens, List.append_assoc, List.singleton_append] at h
  obtain ⟨hfirst, hle⟩ := seam_of_head? h hhead
  rw [← List.append_assoc] at h
  obtain ⟨-, hstop, hle'⟩ := seams_of_token h
  rw [htokens, ← List.append_assoc]
  exact ⟨hfirst, hstop, hle.trans hle'⟩

/-- What follows a run of trees directly and could go on a lexeme is the next token. -/
theorem Spans.stop_eq_start {t : Token} (hs : Spans trees m n)
    (h : tokensOf file text = .ok (before ++ (tokensAll trees ++ t :: after)))
    (hactive : startsWith isActive (text.drop n)) :
  n = t.span.start
  := by
  obtain ⟨tree, hlast, -⟩ := Option.map_eq_some_iff.mp hs.2
  obtain ⟨first, mid, last, -, htokens, -, rfl, -⟩ := hs.exists_tokens hlast
  rw [htokens, List.append_assoc, List.singleton_append, ← List.append_assoc] at h
  apply ReturnCaptures.stop_eq_start h hactive

/-- Punctuation takes up its character. -/
theorem slice_punct {symbol : Char} {j : Bool} {span : Span}
    (h : tokensOf file text = .ok (before ++ ⟨.punct symbol j, span⟩ :: after)) :
  slice text span.start span.stop = [symbol] ∧ span.start ≤ span.stop
  := by
  obtain ⟨-, -, hle⟩ := seams_of_token h
  have hsplit := slice_append_drop (u := text) hle
  rw [drop_punct h, ← List.singleton_append] at hsplit
  exact ⟨List.append_cancel_right hsplit, hle⟩

namespace ReturnClause

/-- A return clause ends where the last of its trees does, and where it is expected to start if it
has none. -/
theorem Follows.stop_eq {returns : ReturnClause} (h : Follows c returns d) (m : Nat) :
  (returns.trees = [] ∧ returns.stop m = m) ∨
    ∃ last ∈ returns.trees.getLast?, last.span.stop = returns.stop m
  := by
  cases h with
  | absent => exact .inl ⟨rfl, rfl⟩
  | @plain arrow type _ _ _ htype _ =>
      obtain ⟨_, hlast⟩ := (TypeExpr.standsIn_of_read htype (List.suffix_refl _)).spans
      obtain ⟨last, hlast, hstop⟩ := Option.map_eq_some_iff.mp hlast
      right
      use last
      rw [trees, List.getLast?_append, hlast, Option.some_or]
      exact ⟨rfl, hstop⟩
  | @captures arrow items g d _ _ _ _ _ _ =>
      right
      use g.tree, List.getLast?_concat
      rfl

end ReturnClause

namespace FunctionItem

/-- The trees of an item in front of its return clause, and with it, reach up to where the parameters
and the return clause end. -/
theorem Steps.spans_front (s : Steps c item d) :
  Spans (Expansion.headTrees item) item.span.start item.paramsStop ∧
    Spans (Expansion.headTrees item ++ item.returns.trees) item.span.start item.returnsStop
  := by
  have htrees := s.reads.trees
  rw [List.append_assoc, List.append_assoc, List.append_assoc] at htrees
  have hlast : (Expansion.headTrees item).getLast? = some item.params.group.tree :=
    List.getLast?_concat
  obtain ⟨first, rest, hfirst⟩ := List.exists_cons_of_ne_nil
    (List.ne_nil_of_mem (List.mem_of_getLast? hlast))
  have hstart : first.span.start = item.span.start := by
    rw [s.span_eq, Cursor.span, htrees, hfirst]
    rfl
  have hspans : Spans (Expansion.headTrees item) item.span.start item.paramsStop := by
    constructor
    · rw [hfirst, List.head?_cons, Option.map_some, hstart]
    · rw [hlast]
      rfl
  use hspans
  rcases (ReturnClause.follows_read s.returns_eq).stop_eq item.paramsStop with
    ⟨hnil, hstop⟩ | ⟨last, hlast', hstop⟩
  · rw [hnil, List.append_nil, returnsStop, hstop]
    exact hspans
  · constructor
    · rw [hfirst, List.cons_append, List.head?_cons, Option.map_some, hstart]
    · rw [List.getLast?_append, hlast', Option.some_or, Option.map_some, hstop]
      rfl

/-- An item ends in a block or in a semicolon. -/
theorem Steps.ending_cases (s : Steps c item d) :
  (∃ body, item.ending = .body body ∧ body.delimiter = .brace) ∨
    ∃ t, item.ending = .semicolon t ∧ t.lexeme.isPunct ';'
  := by
  have hending := (reads_readEnding s.ending_eq).2
  cases hbody : item.ending with
  | body body =>
      rw [hbody] at hending
      left
      use body, rfl
      simpa [Ending.tree, Group.tree, atGroup, atPunct, atLexeme] using hending
  | semicolon t =>
      rw [hbody] at hending
      right
      use t, rfl
      simpa [Ending.tree, atGroup, atPunct, atLexeme] using hending

/-- What an item ends in starts with a semicolon or with a brace. -/
theorem Steps.exists_mark (s : Steps c item d) :
  ∃ j span r, item.ending.tree.tokens = ⟨.punct item.ending.mark j, span⟩ :: r ∧
    span.start = item.ending.tree.span.start
  := by
  rcases s.ending_cases with ⟨body, hending, hbrace⟩ | ⟨t, hending, ht⟩
  · rw [hending, Ending.tree, Group.tree, hbrace]
    exact ⟨false, body.opening, _, rfl, rfl⟩
  · obtain ⟨joint, span, rfl⟩ := Cursor.exists_of_isPunct ht
    rw [hending]
    exact ⟨joint, span, [], rfl, rfl⟩

section Text

variable (s : Steps c item d)
  (htokens : tokensOf file text = .ok (before ++ (tokensAll c.trees ++ after)))
  (hordered : Ordered m n c.trees)

include s htokens

/-- The tokens of an item, part by part. -/
theorem Steps.exists_tokens :
  ∃ rest, tokensOf file text = .ok (before ++ (tokensAll (Expansion.headTrees item) ++
    (tokensAll item.returns.trees ++ (tokensAll (Expansion.tailTrees item) ++
      (item.ending.tree.tokens ++ rest)))))
  := by
  use tokensAll d.trees ++ after
  rw [htokens, s.reads.trees]
  simp only [tokensAll_append, tokensAll_singleton, List.append_assoc]

/-- The text from the ending of an item on. -/
theorem Steps.drop_ending :
  ∃ w, text.drop item.ending.tree.span.start = item.ending.mark :: w
  := by
  obtain ⟨rest, hall⟩ := s.exists_tokens htokens
  obtain ⟨j, span, r, hmark, hspan⟩ := s.exists_mark
  rw [hmark, ← List.append_assoc, ← List.append_assoc, ← List.append_assoc] at hall
  use text.drop span.stop
  rw [← hspan]
  apply drop_punct hall

include hordered

/-- The parts of an item start and end between the pieces of its text, one behind the other. -/
theorem Steps.seams :
  Seam file text before item.span.start ∧
  Seam file text (before ++ tokensAll (Expansion.headTrees item)) item.paramsStop ∧
  Seam file text (before ++ tokensAll (Expansion.headTrees item ++ item.returns.trees))
    item.returnsStop ∧
  Seam file text
    (before ++ tokensAll (Expansion.headTrees item ++ item.returns.trees ++ Expansion.tailTrees item))
    item.ending.tree.span.start ∧
  item.span.start ≤ item.paramsStop ∧ item.paramsStop ≤ item.returnsStop ∧
  item.returnsStop ≤ item.ending.tree.span.start
  := by
  obtain ⟨rest, hall⟩ := s.exists_tokens htokens
  obtain ⟨hhead, hfront⟩ := s.spans_front
  obtain ⟨hle, hle', htail⟩ := s.ordered hordered
  obtain ⟨hstart, hparams, -⟩ := seams_of_run hall hhead
  rw [← List.append_assoc (tokensAll _) (tokensAll _) _, ← tokensAll_append] at hall
  obtain ⟨-, hreturns, -⟩ := seams_of_run hall hfront
  obtain ⟨t, r, hfirst, hspan⟩ := exists_first item.ending.tree
  rw [← List.append_assoc (tokensAll _) (tokensAll _) _, ← tokensAll_append, hfirst,
    ← List.append_assoc] at hall
  have hending := (seams_of_token hall).1
  rw [hspan] at hending
  exact ⟨hstart, hparams, hreturns, hending, Nat.le_of_lt hle, hle', htail.of_cons.1⟩

/-- The text of an item in front of its ending shows the trees there, and so does the text behind its
return clause. -/
theorem Steps.shows_tail (v : List Char) :
  Shows (slice text item.span.start item.ending.tree.span.start) (item.ending.mark :: v)
    (shownAll (Expansion.headTrees item ++ item.returns.trees ++ Expansion.tailTrees item)) ∧
  Shows (slice text item.returnsStop item.ending.tree.span.start) (item.ending.mark :: v)
    (shownAll (Expansion.tailTrees item))
  := by
  obtain ⟨rest, hall⟩ := s.exists_tokens htokens
  obtain ⟨hstart, -, hreturns, hending, hle, hle', hle''⟩ := s.seams htokens hordered
  obtain ⟨w, hdrop⟩ := s.drop_ending htokens
  have halike := item.ending.alike_mark w v
  have hcolon : (item.ending.mark :: w).head? = some ':' → (item.ending.mark :: v).head? = some ':' :=
    id
  have hnext : ∀ l ∈ ((item.ending.tree.tokens ++ rest).map (·.lexeme)).head?, l.isPunct ':' = false := by
    obtain ⟨j, span, r, hmark, -⟩ := s.exists_mark
    rw [hmark]
    rintro _ ⟨⟩
    cases item.ending <;> rfl
  constructor
  · have hall' : tokensOf file text = .ok (before ++ (tokensAll (Expansion.headTrees item ++
        item.returns.trees ++ Expansion.tailTrees item) ++ (item.ending.tree.tokens ++ rest))) := by
      rw [hall]
      simp only [tokensAll_append, List.append_assoc]
    have hshows := hstart.shows_between hall' hending (by omega)
    rw [hdrop, pairedBefore_of_not hnext, ← shownAll] at hshows
    apply hshows.of_alike halike hcolon
  · have hall' : tokensOf file text = .ok ((before ++ tokensAll (Expansion.headTrees item ++
        item.returns.trees)) ++ (tokensAll (Expansion.tailTrees item) ++
          (item.ending.tree.tokens ++ rest))) := by
      rw [hall]
      simp only [tokensAll_append, List.append_assoc]
    have hending' : Seam file text (before ++ tokensAll (Expansion.headTrees item ++
        item.returns.trees) ++ tokensAll (Expansion.tailTrees item)) item.ending.tree.span.start := by
      rwa [List.append_assoc, ← tokensAll_append]
    have hshows := hreturns.shows_between hall' hending' hle''
    rw [hdrop, pairedBefore_of_not hnext, ← shownAll] at hshows
    apply hshows.of_alike halike hcolon

end Text

end FunctionItem

/-! ### Where clauses -/

theorem toList_text_where (span : Span) :
  (Token.mk (.keyword "where") span).text.toList = ['w', 'h', 'e', 'r', 'e']
  := by
  change "where".toList = _
  decide

theorem shownAll_word {t : Token} (h : t.lexeme.isWord) :
  shownAll (.token t :: trees) = t.lexeme :: shownAll trees
  := by
  rw [shownAll_token (by rw [Lexeme.isPunct_of_isWord h, Bool.false_and])]
  cases hl : t.lexeme <;> rw [hl] at h <;> first | rfl | cases h

/-- A where clause starts with its keyword. -/
theorem WhereClause.exists_of_read {clause : Option WhereClause}
    (h : WhereClause.read c = .ok (clause, d)) :
  clause = none ∨ ∃ span w r, clause = some w ∧ w.run.trees = .token ⟨.keyword "where", span⟩ :: r ∧
    w.run.span.start = span.start
  := by
  rcases ite_eq_iff.mp h with ⟨-, h⟩ | ⟨hsome, h⟩
  · cases h
    exact .inl rfl
  · obtain ⟨⟨runs, e⟩, hpredicates, ⟨⟩⟩ := Outcome.bind_eq_ok.mp h
    have hword : atKeyword "where" c.trees := by simpa using hsome
    obtain ⟨⟨l, span⟩, r, hc, ht⟩ := Cursor.exists_of_atLexeme hword
    obtain ⟨u, hu, -⟩ := (crosses_readPredicates hpredicates).run
    rw [Cursor.trees_skip_one hc] at hu
    right
    use span, ⟨runs, c.runUpTo d⟩, u, rfl
    constructor
    · have hl : l = .keyword "where" := by
        cases l with
        | keyword word => rw [eq_of_beq ht]
        | _ => cases ht
      rw [← hl]
      apply Cursor.readUpTo_of_append
      rw [hc, hu]
      rfl
    · rw [Cursor.runUpTo, Cursor.span, hc]
      rfl

namespace FunctionItem

/-- Behind the return clause of an item stands nothing or a where clause. -/
theorem Steps.tailTrees_cases (s : Steps c item d) :
  Expansion.tailTrees item = [] ∨
  ∃ clause span r, item.generics.whereClause = some clause ∧
    Expansion.tailTrees item = .token ⟨.keyword "where", span⟩ :: r ∧
    clause.run.span.start = span.start
  := by
  rcases WhereClause.exists_of_read s.where_eq with hnone | ⟨span, clause, r, hclause, hr, hspan⟩
  · left
    rw [Expansion.tailTrees, hnone]
    rfl
  · right
    refine ⟨clause, span, r, hclause, ?_, hspan⟩
    simp [Expansion.tailTrees, hclause, hr]

theorem Steps.atPunct_tailTrees (s : Steps c item d) :
  atPunct ':' (Expansion.tailTrees item) = false
  := by
  rcases s.tailTrees_cases with hnil | ⟨clause, span, r, -, hr, -⟩
  · rw [hnil]
    rfl
  · rw [hr]
    rfl

section Text

variable (s : Steps c item d)
  (htokens : tokensOf file text = .ok (before ++ (tokensAll c.trees ++ after)))
  (hordered : Ordered m n c.trees)

include s htokens hordered

/-- A where clause that directly follows the return clause starts with the letters of its keyword. -/
theorem Steps.exists_where {clause : WhereClause} (hclause : item.generics.whereClause = some clause)
    (hstart : clause.run.span.start = item.returnsStop) :
  ∃ w span r, slice text item.returnsStop item.ending.tree.span.start =
      ['w', 'h', 'e', 'r', 'e'] ++ w ∧
    Expansion.tailTrees item = .token ⟨.keyword "where", span⟩ :: r
  := by
  obtain ⟨rest, hall⟩ := s.exists_tokens htokens
  obtain ⟨-, -, -, -, -, -, hle⟩ := s.seams htokens hordered
  obtain ⟨u, hdrop⟩ := s.drop_ending htokens
  rcases WhereClause.exists_of_read s.where_eq with hnone | ⟨span, clause', r, hclause', hr, hspan⟩
  · rw [hnone] at hclause
    cases hclause
  obtain rfl := Option.some.inj (hclause.symm.trans hclause')
  have htail : Expansion.tailTrees item = .token ⟨.keyword "where", span⟩ :: r := by
    simp [Expansion.tailTrees, hclause, hr]
  rw [htail, tokensAll, tokens, List.singleton_append, List.cons_append, ← List.append_assoc,
    ← List.append_assoc] at hall
  have hword := drop_start hall
  rw [toList_text_where, ← hspan, hstart, ← slice_append_drop hle, hdrop] at hword
  rcases List.append_eq_append_iff.mp hword with ⟨r', hr', hmark⟩ | ⟨w, hw, -⟩
  · cases r' with
    | nil =>
        refine ⟨[], span, r, ?_, htail⟩
        rw [hr', List.append_nil, List.append_nil]
    | cons e r' =>
        -- No mark is a letter of the keyword.
        have hmem : item.ending.mark ∈ ['w', 'h', 'e', 'r', 'e'] := by
          rw [hr', (List.cons_eq_cons.mp hmark).1]
          apply List.mem_append_right _ List.mem_cons_self
        cases hending : item.ending <;> rw [hending] at hmem <;> simp [Ending.mark] at hmem
  · exact ⟨w, span, r, hw, htail⟩

/-- What follows the return clause of an item goes on no word and no colon, unless it is a where
clause that follows it directly. -/
theorem Steps.tail_cases (v : List Char) :
  (startsWith isActive (slice text item.returnsStop item.ending.tree.span.start ++
      item.ending.mark :: v) = false ∧
    (slice text item.returnsStop item.ending.tree.span.start ++
      item.ending.mark :: v).head? ≠ some ':') ∨
  ∃ clause, item.generics.whereClause = some clause ∧ clause.run.span.start = item.returnsStop
  := by
  obtain ⟨rest, hall⟩ := s.exists_tokens htokens
  obtain ⟨-, -, -, -, -, -, hle⟩ := s.seams htokens hordered
  obtain ⟨u, hdrop⟩ := s.drop_ending htokens
  have hsplit := slice_append_drop (u := text) hle
  rw [hdrop] at hsplit
  have hhead : startsWith isActive (text.drop item.returnsStop) =
      startsWith isActive (slice text item.returnsStop item.ending.tree.span.start ++
        item.ending.mark :: v) := by
    rw [← hsplit]
    cases slice text item.returnsStop item.ending.tree.span.start <;> rfl
  rw [← hhead]
  cases hactive : startsWith isActive (text.drop item.returnsStop) with
  | false =>
      left
      use rfl
      have hshows := (s.shows_tail htokens hordered v).2
      cases hslice : slice text item.returnsStop item.ending.tree.span.start with
      | nil => cases item.ending <;> simp [Ending.mark]
      | cons c w =>
          rintro ⟨⟩
          rw [hslice] at hshows
          have hcolon := hshows.isPunct_head?
          rcases s.tailTrees_cases with hnil | ⟨clause, span, r, -, hr, -⟩
          · rw [hnil] at hcolon
            cases hcolon
          · rw [hr, shownAll_token rfl] at hcolon
            cases hcolon
  | true =>
      right
      rw [← List.append_assoc (tokensAll _) (tokensAll _) _, ← tokensAll_append] at hall
      rcases s.tailTrees_cases with hnil | ⟨clause, span, r, hclause, htail, hspan⟩
      · -- The ending follows directly, but nothing goes on with it.
        obtain ⟨j, span, r, hmark, hspan⟩ := s.exists_mark
        rw [hnil, hmark] at hall
        have hstart : item.returnsStop = span.start := s.spans_front.2.stop_eq_start hall hactive
        rw [hstart, hspan, hdrop, startsWith, item.ending.isActive_mark] at hactive
        cases hactive
      · rw [htail, tokensAll, tokens, List.singleton_append, List.cons_append] at hall
        exact ⟨clause, hclause, hspan.trans (s.spans_front.2.stop_eq_start hall hactive).symm⟩

end Text

end FunctionItem

/-! ### New return clauses -/

theorem lastLexeme_of_atPunct {tree : TokenTree} {symbol : Char} (h : atPunct symbol [tree]) :
  lastLexeme tree = .punct symbol false
  := by
  obtain ⟨t, rfl⟩ := Cursor.exists_of_atPunct_singleton h
  obtain ⟨joint, span, rfl⟩ := Cursor.exists_of_isPunct h
  rfl

namespace Expansion

/-- The return clause of an expansion is the old one, or it replaces a capture list by nothing, by the
type of the only capture or by the tuple of all types. -/
theorem clause_cases (h : ReturnClause.Follows c item.returns d) :
  ((ofItem item).replaced = false ∧ (ofItem item).returnTrees = item.returns.trees) ∨
  ∃ arrow items g span, item.returns = .captures arrow items g span ∧ (ofItem item).replaced ∧
    Capture.readList g = .ok items ∧ atOperator ['-', '>'] arrow.trees ∧
    (items = [] ∧ (ofItem item).returnTrees = [] ∨
      ∃ type, items ≠ [] ∧ (ofItem item).returnTrees = arrow.trees ++ type ∧
        shownAll type = shownAll (Declaration.side g.opening (items.map (·.type.run))) ∧
        areProper type = areProper (Declaration.side g.opening (items.map (·.type.run))))
  := by
  have hkept := returnTrees_of_kept h
  generalize hreturns : item.returns = returns at h
  cases h with
  | absent =>
      left
      have hreplaced : (ofItem item).replaced = false := by rw [ofItem, hreturns]
      exact ⟨hreplaced, hreturns ▸ hkept hreplaced⟩
  | plain =>
      left
      have hreplaced : (ofItem item).replaced = false := by rw [ofItem, hreturns]
      exact ⟨hreplaced, hreturns ▸ hkept hreplaced⟩
  | @captures arrow items g d _ ha _ _ _ hitems =>
      have hcaptures := ofItem_captures hreturns
      split at hcaptures
      case isTrue => exact .inl ⟨hcaptures.1, hreturns ▸ hkept hcaptures.1⟩
      case isFalse =>
        right
        use arrow, items, g, arrow.shaft.span.through g.closing, rfl, hcaptures.1, hitems, ha
        rw [returnTrees, item_ofItem, hreturns, ReturnClause.arrow?, hcaptures.2]
        rcases items with _ | ⟨first, _ | ⟨second, rest⟩⟩
        · exact .inl ⟨rfl, rfl⟩
        · exact .inr ⟨_, by simp, rfl, rfl, rfl⟩
        · right
          use [tupleOf g.opening g.closing ((first :: second :: rest).map (·.type.run))], by simp, rfl
          rw [Declaration.side, tupleOf, tupleOf, shownAll_group, shownAll_group]
          · exact ⟨rfl, rfl⟩
          · simp

theorem returnTrees_single {arrow : Arrow} {capture : Capture} {g : Group} {span : Span}
    (hreturns : item.returns = .captures arrow [capture] g span) (hreplaced : (ofItem item).replaced) :
  (ofItem item).returnTrees = arrow.trees ++ capture.type.run.trees
  := by
  have hcaptures := ofItem_captures hreturns
  split at hcaptures
  case isTrue =>
    rw [hreplaced] at hcaptures
    cases hcaptures.1
  case isFalse =>
    have harrow : (ofItem item).item.returns.arrow? = some arrow := by
      rw [item_ofItem, hreturns]
      rfl
    exact (returns_of_returnType harrow hcaptures.2).2

/-- The text of an item in front of its ending if captures have been replaced in it. -/
theorem stemText_captures {arrow : Arrow} {items : List Capture} {g : Group} {span : Span}
    (hreturns : item.returns = .captures arrow items g span) (hreplaced : (ofItem item).replaced) :
  (ofItem item).stemText text = slice text item.span.start item.paramsStop ++
    (if items.isEmpty then []
      else slice text item.paramsStop arrow.tip.span.stop ++
        ' ' :: tupleText (items.map (·.type.run.span.textIn text))) ++
    slice text item.returnsStop item.ending.tree.span.start
  := by
  obtain ⟨clause, hclause, -⟩ := exists_returnText text item
  rw [stemText, item_ofItem, hclause]
  rw [returnText, item_ofItem, hreturns] at hclause
  dsimp only at hclause ⊢
  rw [if_pos hreplaced, Prod.mk.injEq] at hclause
  rw [hclause.1]

/-- No arrow ends in a colon. -/
theorem isPunct_getLast?_arrow {arrow : Arrow} (ha : atOperator ['-', '>'] arrow.trees) :
  ∀ tree ∈ (trees ++ arrow.trees).getLast?, (lastLexeme tree).isPunct ':' = false
  := by
  rw [List.getLast?_append]
  rintro _ ⟨⟩
  change (lastLexeme (.token arrow.tip)).isPunct ':' = false
  rw [lastLexeme_of_atPunct (atPunct_of_atOperator ha)]
  rfl

section Text

variable (s : FunctionItem.Steps c item d)
  (htokens : tokensOf file text = .ok (before ++ (tokensAll c.trees ++ after)))
  (hordered : Ordered m n c.trees)

include s htokens hordered

/-- An arrow behind the parameters of an item shows itself with what stands in front of it. -/
theorem shows_arrow {arrow : Arrow} {items : List Capture} {g : Group} {span : Span}
    (hreturns : item.returns = .captures arrow items g span)
    (ha : atOperator ['-', '>'] arrow.trees) (v : List Char) :
  item.paramsStop ≤ arrow.tip.span.stop ∧
    Shows (slice text item.span.start arrow.tip.span.stop) v
      (shownAll (headTrees item ++ arrow.trees))
  := by
  obtain ⟨rest, hall⟩ := s.exists_tokens htokens
  have hspans : Spans (headTrees item ++ arrow.trees) item.span.start arrow.tip.span.stop :=
    s.spans_front.1.append (v := [.token arrow.tip]) ⟨rfl, rfl⟩ [.token arrow.shaft]
  have hall' : tokensOf file text = .ok (before ++ (tokensAll (headTrees item ++ arrow.trees) ++
      (tokensAll [g.tree] ++ (tokensAll (tailTrees item) ++ (item.ending.tree.tokens ++ rest))))) := by
    rw [hall, hreturns, ReturnClause.trees]
    simp only [tokensAll_append, List.append_assoc]
  constructor
  · have hlast : (headTrees item).getLast? = some item.params.group.tree := List.getLast?_concat
    rw [s.reads.trees, hreturns, ReturnClause.trees, List.append_assoc, List.append_assoc,
      List.append_assoc, List.append_assoc] at hordered
    obtain ⟨hle, hlt, htip⟩ := (hordered.of_getLast? hlast).2.of_cons
    obtain ⟨hle', hlt', -⟩ := htip.of_cons
    exact (hle.trans hlt.le).trans (hle'.trans hlt'.le)
  · have htip : lastLexeme (.token arrow.tip) = .punct '>' false :=
      lastLexeme_of_atPunct (atPunct_of_atOperator ha)
    have hlast : (headTrees item ++ arrow.trees).getLast? = some (.token arrow.tip) := by
      rw [List.getLast?_append]
      rfl
    apply shows_run hall' hspans hlast
    · rw [htip]
      exact ⟨rfl, by simp⟩
    · rw [htip]
      simp [Lexeme.isPunct]

omit hordered in
/-- The tokens between the parentheses of a capture list. -/
theorem exists_tokens_captures {arrow : Arrow} {items : List Capture} {g : Group} {span : Span}
    (hreturns : item.returns = .captures arrow items g span) :
  ∃ u v, tokensOf file text = .ok (u ++ (tokensAll g.trees ++ v))
  := by
  obtain ⟨rest, hall⟩ := s.exists_tokens htokens
  rw [hreturns, ReturnClause.trees, tokensAll_append, tokensAll_singleton, Group.tree, tokens] at hall
  refine ⟨before ++ tokensAll (headTrees item) ++ tokensAll arrow.trees ++
      [⟨.punct g.delimiter.opening false, g.opening⟩],
    ⟨.punct g.delimiter.closing false, g.closing⟩ :: (tokensAll (tailTrees item) ++
      (item.ending.tree.tokens ++ rest)), ?_⟩
  rw [hall]
  simp

omit hordered in
/-- The text in front of the return clause shows the trees there. -/
theorem shows_head (v : List Char) :
  Shows (slice text item.span.start item.paramsStop) v (shownAll (headTrees item))
  := by
  obtain ⟨rest, hall⟩ := s.exists_tokens htokens
  have hlast : (headTrees item).getLast? = some item.params.group.tree := List.getLast?_concat
  apply shows_run hall s.spans_front.1 hlast endsBefore_lastLexeme_group
  rw [Group.tree, isPunct_lastLexeme_group]
  exact fun h => absurd h Bool.false_ne_true

/-- The type of a single capture shows itself in front of what follows the return clause, unless it
goes on into a where clause. -/
theorem shows_single {arrow : Arrow} {capture : Capture} {g : Group} {span : Span}
    (hreturns : item.returns = .captures arrow [capture] g span)
    (hreplaced : (ofItem item).replaced) (hread : Capture.readList g = .ok [capture])
    (hruns : (ofItem item).runsIntoWhere = false) (v : List Char) :
  Shows (capture.type.run.span.textIn text)
    (slice text item.returnsStop item.ending.tree.span.start ++ item.ending.mark :: v)
    (shownAll capture.type.run.trees)
  := by
  have hstands := Capture.standsIn_of_mem hread (List.mem_singleton_self capture)
  obtain ⟨u, w, hall⟩ := exists_tokens_captures s htokens hreturns
  rcases s.tail_cases htokens hordered v with ⟨hactive, hcolon⟩ | ⟨clause, hclause, hstart⟩
  · exact hstands.isCopied hall _ hactive hcolon
  · have hstop : item.returnsStop = span.stop := by
      rw [FunctionItem.returnsStop, hreturns, ReturnClause.stop]
    obtain ⟨r, _, _, hslice, -⟩ := s.exists_where htokens hordered hclause hstart
    rw [hslice]
    apply hstands.shows hall rfl
    intro tree htree
    constructor
    · intro hword
      rw [runsIntoWhere, item_ofItem, hreturns] at hruns
      dsimp only at hruns
      rw [hreplaced, Option.mem_def.mp htree, Option.any_some, hword, hclause, Option.any_some, hstart,
        hstop, beq_self_eq_true] at hruns
      cases hruns
    · simp

/-- The new return type shows the types of all captures in front of what follows the return clause,
unless it goes on into a where clause. -/
theorem shows_types {arrow : Arrow} {items : List Capture} {g : Group} {span : Span}
    (hreturns : item.returns = .captures arrow items g span) (hreplaced : (ofItem item).replaced)
    (hitems : Capture.readList g = .ok items) (hruns : (ofItem item).runsIntoWhere = false)
    (v : List Char) :
  Shows (tupleText (items.map (·.type.run.span.textIn text)))
    (slice text item.returnsStop item.ending.tree.span.start ++ item.ending.mark :: v)
    (shownAll (Declaration.side g.opening (items.map (·.type.run))))
  := by
  obtain ⟨u, w, hinside⟩ := exists_tokens_captures s htokens hreturns
  have htypes : items.map (·.type.run.span.textIn text) =
      (items.map (·.type.run)).map (·.span.textIn text) := by rw [List.map_map]; rfl
  rw [htypes]
  apply shows_tupleText
  · intro run hrun
    obtain ⟨capture, hmem, rfl⟩ := List.mem_map.mp hrun
    exact (Capture.standsIn_of_mem hitems hmem).isCopied hinside
  · intro run hrun
    obtain ⟨capture, rfl, rfl⟩ := List.map_eq_singleton_iff.mp hrun
    exact shows_single s htokens hordered hreturns hreplaced hitems hruns v

/-- The text in front of the ending shows the trees there, unless the new return type goes on into
the where clause. -/
theorem shows_stem (hruns : (ofItem item).runsIntoWhere = false) (v : List Char) :
  Shows ((ofItem item).stemText text) (item.ending.mark :: v) (shownAll (ofItem item).stemTrees)
  := by
  obtain ⟨-, -, -, -, hle, hle', hle''⟩ := s.seams htokens hordered
  obtain ⟨hall, htail⟩ := s.shows_tail htokens hordered v
  rw [stemTrees, item_ofItem]
  rcases clause_cases (ReturnClause.follows_read s.returns_eq) with
    ⟨hreplaced, htrees⟩ | ⟨arrow, items, g, span, hreturns, hreplaced, hitems, ha, htype⟩
  · obtain ⟨clause, hclause, hkept⟩ := exists_returnText text item
    rw [stemText, item_ofItem, hclause]
    dsimp only
    rw [hkept hreplaced, slice_append_slice hle hle', slice_append_slice (hle.trans hle') hle'', htrees]
    exact hall
  · rw [stemText_captures hreturns hreplaced]
    rcases htype with ⟨rfl, htype⟩ | ⟨type, hne, htype, hshown, -⟩
    · have hcolon : ∀ tree ∈ (headTrees item).getLast?, (lastLexeme tree).isPunct ':' = false := by
        have hlast : (headTrees item).getLast? = some item.params.group.tree := List.getLast?_concat
        rw [hlast]
        rintro _ ⟨⟩
        apply isPunct_lastLexeme_group
      rw [htype, List.append_nil, shownAll_append (.inl hcolon), List.isEmpty_nil, if_pos rfl,
        List.append_nil]
      exact (shows_head s htokens _).append htail
    · obtain ⟨hstop, harrow⟩ := shows_arrow s htokens hordered hreturns ha
        (' ' :: (tupleText (items.map (·.type.run.span.textIn text)) ++
          slice text item.returnsStop item.ending.tree.span.start) ++ item.ending.mark :: v)
      rw [if_neg (by simpa using hne), ← List.append_assoc, slice_append_slice hle hstop, htype,
        ← List.append_assoc, shownAll_append (.inr s.atPunct_tailTrees),
        shownAll_append (.inl (isPunct_getLast?_arrow ha)), hshown]
      rw [List.append_assoc, List.append_assoc, List.cons_append]
      apply harrow.append
      rw [← List.singleton_append, ← List.nil_append (shownAll _ ++ _)]
      apply (shows_isBlank (by decide)).append
      exact (shows_types s htokens hordered hreturns hreplaced hitems hruns v).append htail

omit s htokens hordered in
theorem exists_of_runsIntoWhere {x : Expansion} (h : x.runsIntoWhere) :
  ∃ arrow capture g span tree clause, x.item.returns = .captures arrow [capture] g span ∧
    x.replaced ∧ capture.type.run.trees.getLast? = some tree ∧ (lastLexeme tree).isWord ∧
    x.item.generics.whereClause = some clause ∧ clause.run.span.start = span.stop
  := by
  rw [runsIntoWhere] at h
  split at h
  case h_1 arrow capture g span hreturns =>
    rw [Bool.and_eq_true, Bool.and_eq_true, Option.any_eq_true, Option.any_eq_true] at h
    obtain ⟨⟨hreplaced, tree, htree, hword⟩, clause, hclause, hstart⟩ := h
    exact ⟨arrow, capture, g, span, tree, clause, hreturns, hreplaced, htree, hword, hclause,
      eq_of_beq hstart⟩
  case h_2 => cases h

/-- If the new return type goes on into the where clause, then the text in front of the ending shows
the trees there with one longer word in the place of two. -/
theorem shows_longer (hruns : (ofItem item).runsIntoWhere) (v : List Char) :
  ∃ trees t t' trees' longer,
    (ofItem item).stemTrees = trees ++ .token t :: .token t' :: trees' ∧
    longer.isWord ∧ longer.text.toList = t.text.toList ++ t'.text.toList ∧
    Shows ((ofItem item).stemText text) (item.ending.mark :: v)
      (shownAll (trees ++ .token ⟨longer, t.span⟩ :: trees'))
  := by
  obtain ⟨-, -, -, -, hle, hle', hle''⟩ := s.seams htokens hordered
  obtain ⟨arrow, capture, g, span, tree, clause, hreturns, hreplaced, hlast, hword, hclause, hstart⟩ :=
    exists_of_runsIntoWhere hruns
  rw [item_ofItem] at hreturns hclause
  have hstop : item.returnsStop = span.stop := by
    rw [FunctionItem.returnsStop, hreturns, ReturnClause.stop]
  rw [← hstop] at hstart
  obtain ⟨w, keyword, r, hslice, htrees⟩ := s.exists_where htokens hordered hclause hstart
  -- What stands behind the keyword of the where clause.
  obtain ⟨-, htail⟩ := s.shows_tail htokens hordered v
  rw [hslice, htrees, shownAll_token rfl] at htail
  obtain ⟨hrest, htail⟩ := htail.of_where
  rcases clause_cases (ReturnClause.follows_read s.returns_eq) with
    ⟨hno, -⟩ | ⟨arrow', items, g', span', hreturns', -, hitems, ha, -⟩
  · rw [hreplaced] at hno
    cases hno
  obtain ⟨rfl, rfl, rfl, rfl⟩ := ReturnClause.captures.inj (hreturns.symm.trans hreturns')
  -- The type with the letters of the keyword behind it.
  have hstands := Capture.standsIn_of_mem hitems (List.mem_singleton_self capture)
  obtain ⟨_, _, hinside⟩ := exists_tokens_captures s htokens hreturns
  obtain ⟨_, _, htype⟩ := hstands.exists_tokens hinside
  obtain ⟨lexemes, longer, hshown, hlonger, htext, hshows⟩ :=
    exists_longer htype hstands.spans hlast hword (w := ['w', 'h', 'e', 'r', 'e']) (by decide)
      (by simp) (by simp) hrest
  obtain ⟨init, hinit⟩ := List.getLast?_eq_some_iff.mp hlast
  obtain ⟨t, rfl⟩ : ∃ t, tree = .token t := by
    cases tree with
    | token t => use t
    | group d => cases hword
  have ht : t.lexeme.isWord := by rwa [lastLexeme, Lexeme.isWord_plain] at hword
  have hlexemes : lexemes = shownAll init := by
    have hcolon : atPunct ':' [.token t] = false := Lexeme.isPunct_of_isWord ht
    rw [hinit, shownAll_append (.inr hcolon)] at hshown
    exact (List.append_inj' hshown.symm rfl).1
  refine ⟨headTrees item ++ arrow.trees ++ init, t, ⟨.keyword "where", keyword⟩, r, longer, ?_, hlonger,
    ?_, ?_⟩
  · rw [stemTrees, item_ofItem, htrees, returnTrees_single hreturns hreplaced, hinit]
    simp
  · rw [htext, lastLexeme, Lexeme.text_plain, toList_text_where]
    rfl
  · obtain ⟨harrow, hfront⟩ := shows_arrow s htokens hordered hreturns ha
      ([' '] ++ (capture.type.run.span.textIn text ++ ['w', 'h', 'e', 'r', 'e'] ++ w) ++
        item.ending.mark :: v)
    have htexts : (ofItem item).stemText text = slice text item.span.start arrow.tip.span.stop ++
        ([' '] ++ (capture.type.run.span.textIn text ++ ['w', 'h', 'e', 'r', 'e'] ++ w)) := by
      rw [stemText_captures hreturns hreplaced, hslice, ← slice_append_slice hle harrow]
      simp [tupleText]
    have hcolon : atPunct ':' (.token ⟨longer, t.span⟩ :: r) = false := Lexeme.isPunct_of_isWord hlonger
    have hshownAll : shownAll (headTrees item ++ arrow.trees ++ init ++ .token ⟨longer, t.span⟩ :: r) =
        shownAll (headTrees item ++ arrow.trees) ++ ([] ++ (lexemes ++ [longer] ++ shownAll r)) := by
      rw [shownAll_append (.inr hcolon), shownAll_append (.inl (isPunct_getLast?_arrow ha)),
        shownAll_word hlonger, hlexemes]
      simp
    rw [htexts, hshownAll]
    apply hfront.append
    apply (shows_isBlank (by decide)).append
    exact hshows.append htail

/-- The text of an expansion is its signature and its body. -/
theorem textWith_eq (edits : List Edit) :
  (ofItem item).textWith text edits =
    (ofItem item).signatureText text ++ (ofItem item).blockText text edits
  := by
  obtain ⟨rest, hall⟩ := s.exists_tokens htokens
  obtain ⟨-, -, -, -, -, -, hle⟩ := s.seams htokens hordered
  obtain ⟨clause, ending, htext, hclause, -, hsemicolon, hbody⟩ := exists_textWith text edits item
  rw [htext, signatureText, stemText, item_ofItem, hclause, blockText, item_ofItem, FunctionItem.body?]
  rw [← List.append_assoc, ← List.append_assoc, ← List.append_assoc] at hall
  rcases s.ending_cases with ⟨body, hending, hbrace⟩ | ⟨t, hending, ht⟩
  · rw [hending] at hall hle ⊢
    rw [hbody body hending]
    rw [Ending.tree, Group.tree, tokens, hbrace, List.cons_append] at hall
    obtain ⟨hopening, hle'⟩ := slice_punct hall
    rw [List.append_assoc (tokensAll body.trees), ← List.cons_append, ← List.append_assoc,
      List.singleton_append] at hall
    obtain ⟨hclosing, -⟩ := slice_punct hall
    rw [hclosing, ← slice_append_slice (n := body.opening.start) hle hle', hopening]
    simp [Ending.tree, Ending.semicolonText, Ending.body?, Group.tree, TokenTree.span]
    rfl
  · rw [hending] at hall hle ⊢
    rw [hsemicolon _ hending]
    obtain ⟨joint, span, rfl⟩ := Cursor.exists_of_isPunct ht
    obtain ⟨hslice, hle'⟩ := slice_punct hall
    rw [← slice_append_slice (n := span.start) hle hle', hslice]
    simp [Ending.tree, Ending.semicolonText, Ending.body?, TokenTree.span]

end Text

theorem trees_eq_signature (item : FunctionItem) :
  (ofItem item).trees = (ofItem item).signatureTrees ++ (ofItem item).blockTrees
  := by
  rw [trees_eq, signatureTrees, stemTrees, blockTrees, item_ofItem]
  have hbody : (ofItem item).body?.isSome = item.body?.isSome := by
    rw [body?, item_ofItem]
    split
    · rfl
    · exact Option.isSome_map
  cases hending : item.ending with
  | semicolon t =>
      rw [FunctionItem.body?, hending] at hbody
      rw [ending, Option.isNone_iff_eq_none.mp (Option.isSome_eq_false_iff.mp hbody), item_ofItem, hending]
      simp [Ending.semicolonTrees, Ending.tree]
  | body body =>
      rw [FunctionItem.body?, hending] at hbody
      obtain ⟨body', hbody'⟩ := Option.isSome_iff_exists.mp hbody
      rw [ending, hbody']
      simp [Ending.semicolonTrees, Ending.tree]

/-- What an item ends in goes on nothing in front of it. -/
theorem shows_ending (s : FunctionItem.Steps c item d)
    (h : Shows u [item.ending.mark] (shownAll trees)) :
  Shows (u ++ item.ending.semicolonText) [] (shownAll (trees ++ item.ending.semicolonTrees))
  := by
  rcases s.ending_cases with ⟨body, hending, -⟩ | ⟨t, hending, ht⟩
  · rw [hending] at h ⊢
    rw [Ending.semicolonText, Ending.semicolonTrees, List.append_nil, List.append_nil]
    apply h.of_alike (.ends rfl)
    simp [Ending.mark]
  · rw [hending] at h ⊢
    obtain ⟨joint, span, rfl⟩ := Cursor.exists_of_isPunct ht
    rw [Ending.semicolonText, Ending.semicolonTrees, shownAll_append (.inr rfl), shownAll_token rfl]
    exact h.append (shows_mark (by decide) (by decide))

/-- The text of an expanded item is its signature and its body, and so are its trees. The signature
lexes to the tokens of its trees unless the new return type goes on into the where clause. -/
theorem tokensOf_signatureText_iff (h : FunctionItem.ofText file text = .ok item) (file' : String) :
  (ofItem item).textIn text =
    (ofItem item).signatureText text ++ (ofItem item).blockText text [] ∧
  (ofItem item).trees = (ofItem item).signatureTrees ++ (ofItem item).blockTrees ∧
  ((∃ tokens, tokensOf file' ((ofItem item).signatureText text) = .ok tokens ∧
      tokens.map Token.text = flatAll (ofItem item).signatureTrees) ↔
    (ofItem item).runsIntoWhere = false)
  := by
  obtain ⟨trees, htrees, hitem⟩ := Outcome.bind_eq_ok.mp h
  obtain ⟨d, hread, -⟩ := FunctionItem.exists_read_of_ofTrees hitem
  obtain ⟨s⟩ := FunctionItem.nonempty_steps hread
  have htokens : tokensOf file text = .ok ([] ++ (tokensAll trees ++ [])) := by
    rw [(tokensOf_of_ofText htrees).1, List.nil_append, List.append_nil]
  have hordered := ordered_of_ofText htrees
  use textWith_eq s htokens hordered [], trees_eq_signature item
  rw [signatureText, signatureTrees, item_ofItem]
  constructor
  · rintro ⟨tokens, htokens', htexts⟩
    by_contra hruns
    rw [Bool.not_eq_false] at hruns
    obtain ⟨u, t, t', v, longer, hstem, -, -, hshows⟩ := shows_longer s htokens hordered hruns []
    obtain ⟨tokens', htokens'', htexts'⟩ := (shows_ending s hshows).exists_texts file'
    obtain rfl := Except.ok.inj (htokens'.symm.trans htokens'')
    rw [htexts, hstem, flatAll_append, flatAll_append, flatAll_append, flatAll_append] at htexts'
    have hlengths := congrArg List.length htexts'
    simp [flatAll, flat] at hlengths
  · intro hruns
    exact (shows_ending s (shows_stem s htokens hordered hruns [])).exists_texts file'

/-- A comment keeps the new return type apart from the where clause. -/
theorem tokensOf_signatureText_commented :
  ∃ item, FunctionItem.ofText "f.rs" "fn f<T>() ->(a: T)/* w */where T: Copy \x7b a \x7d".toList =
      .ok item ∧
    (ofItem item).textIn "fn f<T>() ->(a: T)/* w */where T: Copy \x7b a \x7d".toList =
      "fn f<T>() -> T/* w */where T: Copy ".toList ++
        (ofItem item).blockText "fn f<T>() ->(a: T)/* w */where T: Copy \x7b a \x7d".toList [] ∧
    ∃ tokens, tokensOf "f.rs" "fn f<T>() -> T/* w */where T: Copy ".toList = .ok tokens ∧
      tokens.map Token.text = flatAll (ofItem item).signatureTrees
  := by
  obtain ⟨item, hitem, hp⟩ := Outcome.exists_of_any
    (x := FunctionItem.ofText "f.rs" "fn f<T>() ->(a: T)/* w */where T: Copy \x7b a \x7d".toList)
    (p := fun item => !(ofItem item).runsIntoWhere &&
      (ofItem item).signatureText "fn f<T>() ->(a: T)/* w */where T: Copy \x7b a \x7d".toList ==
        "fn f<T>() -> T/* w */where T: Copy ".toList)
    (by decide +kernel)
  rw [Bool.and_eq_true, Bool.not_eq_true', beq_iff_eq] at hp
  obtain ⟨htext, -, hiff⟩ := tokensOf_signatureText_iff hitem "f.rs"
  rw [hp.2] at htext hiff
  exact ⟨item, hitem, htext, hiff.mpr hp.1⟩

/-- A where clause directly behind the captures takes the new return type up into its first word. -/
theorem not_tokensOf_signatureText_joined :
  ∃ item, FunctionItem.ofText "f.rs" "fn f<T>() -> (a: T)where T: Copy \x7b a \x7d".toList = .ok item ∧
    (ofItem item).textIn "fn f<T>() -> (a: T)where T: Copy \x7b a \x7d".toList =
      "fn f<T>() -> Twhere T: Copy ".toList ++ "\x7b let a: T; a \x7d".toList ∧
    ¬ ∃ tokens, tokensOf "f.rs" "fn f<T>() -> Twhere T: Copy ".toList = .ok tokens ∧
      tokens.map Token.text = flatAll (ofItem item).signatureTrees
  := by
  obtain ⟨item, hitem, hp⟩ := Outcome.exists_of_any
    (x := FunctionItem.ofText "f.rs" "fn f<T>() -> (a: T)where T: Copy \x7b a \x7d".toList)
    (p := fun item =>
      (ofItem item).textIn "fn f<T>() -> (a: T)where T: Copy \x7b a \x7d".toList ==
        "fn f<T>() -> Twhere T: Copy ".toList ++ "\x7b let a: T; a \x7d".toList &&
      !(tokensOf "f.rs" "fn f<T>() -> Twhere T: Copy ".toList).toOption.any fun tokens =>
        tokens.map Token.text == flatAll (ofItem item).signatureTrees)
    (by decide +kernel)
  rw [Bool.and_eq_true, beq_iff_eq, Bool.not_eq_true', Option.any_eq_false] at hp
  refine ⟨item, hitem, hp.1, ?_⟩
  rintro ⟨tokens, htokens, htexts⟩
  have hne := hp.2 tokens (by rw [htokens]; rfl)
  rw [htexts, beq_self_eq_true] at hne
  cases hne

end Expansion

end Items

end ReturnCaptures
