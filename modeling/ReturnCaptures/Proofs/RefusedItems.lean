import ReturnCaptures.Proofs.FailedStages
import ReturnCaptures.Proofs.FailurePlaces
import ReturnCaptures.Proofs.LinesAndColumns
import ReturnCaptures.Proofs.Nesting
import ReturnCaptures.Proofs.Places

/-!
# Where items are refused

No part of a function item is refused anywhere but at a place of the cursor that the item is read
from. In a text these are the spans of tokens, those from one token to a later one, and the empty
span behind the last token; all of them lie in the text, and their lines and columns are those that
the text tells about their offsets.
-/

namespace ReturnCaptures

open TokenTree Outcome Cursor

variable {P : Span → Prop}

/-! ### Parts of an item -/

section Parts

variable {c : Cursor}

theorem Cursor.Within.outerAttributes (h : c.Within P) :
  (outerAttributes c).2.Within P
  := h.of_isSuffix rfl (isSuffix_outerAttributes c)

theorem Cursor.Within.optionalBounds (h : c.Within P) :
  StaysWithin P (optionalBounds c)
  := .ite (fun _ => (TypeGrammar.staysWithin_level _).bounds h) fun _ => .ok h

theorem Cursor.Within.afterType (h : c.Within P) (allowPlus : Bool) :
  StaysWithin P ((TypeExpr.read allowPlus c).map (·.2))
  := (h.readType allowPlus).map fun _ hd => hd.2

end Parts

namespace GenericParam

variable {c : Cursor}

theorem within_readConst (h : c.Within P) :
  Ensures P (fun found => found.2.2.Within P) (readConst c)
  := by
  apply ((h.skip 1).expectIdent _).bind
  rintro ⟨t, d⟩ hd
  apply hd.expectColon.bind
  intro e he
  apply (he.readType true).bind
  rintro ⟨_, f⟩ ⟨-, hf⟩
  exact .ite_bind (hf.skip 1).constArgument (.ok hf) fun _ hg => .ok hg

theorem within_readType (h : c.Within P) (name : String) :
  Ensures P (fun found => found.2.2.Within P) (readType name c)
  := by
  refine .ite_bind (h.skip 1).optionalBounds (.ok h) fun d hd => ?_
  exact .ite_bind ((hd.skip 1).afterType true) (.ok hd) fun _ he => .ok he

theorem within_read (h : c.Within P) :
  ReadsWithin P (GenericParam.read c)
  := by
  have hplain {d : Cursor} (hd : d.Within P) :
      Ensures P (fun found => found.2.2.Within P) (readPlain d) := by
    rw [readPlain]
    split
    · exact .ok (.ite ((hd.skip 1).skip 1).lifetimeBounds (hd.skip 1))
    · exact within_readConst hd
    · exact within_readType (hd.skip 1) _
    · exact hd.fail _
  exact (hplain h.outerAttributes).bind fun _ hd => .ok hd

end GenericParam

theorem Generics.within_read {c : Cursor} (h : c.Within P) :
  ReadsWithin P (Generics.read c)
  := by
  have hparams (bound : Nat) {d : Cursor} (hd : d.Within P) :
      ReadsWithin P (readParams bound d) := by
    induction bound generalizing d with
    | zero => exact hd.failWith _
    | succ bound ih =>
        rw [readParams]
        refine .ite (fun _ => .ok (hd.skip 1)) fun _ => ?_
        apply (GenericParam.within_read hd).bind
        rintro ⟨_, e⟩ he
        apply Ensures.ite
        · exact fun _ => (ih (he.skip 1)).bind fun _ hf => .ok hf
        · exact fun _ => (he.expect _ _).bind fun _ hf => .ok hf
  rw [Generics.read]
  refine .ite (fun _ => .ok h) fun _ => ?_
  exact (hparams _ (h.skip 1)).bind fun _ hd => .ok hd

namespace WhereClause

variable {c : Cursor}

theorem within_predicate (h : c.Within P) :
  StaysWithin P (predicate c)
  := by
  apply Ensures.ite
  · exact fun _ => (h.skip 1).expectColon.bind fun _ hd => .ok hd.lifetimeBounds
  · intro _
    refine .ite_bind h.forBinder (.ok h) fun d hd => ?_
    apply (hd.readType false).bind
    rintro ⟨_, e⟩ ⟨-, he⟩
    exact he.expectColon.bind fun _ hf => hf.optionalBounds

theorem within_read (h : c.Within P) :
  ReadsWithin P (WhereClause.read c)
  := by
  have hpredicates (bound : Nat) {d : Cursor} (hd : d.Within P) :
      ReadsWithin P (readPredicates bound d) := by
    induction bound generalizing d with
    | zero => exact hd.failWith _
    | succ bound ih =>
        rw [readPredicates]
        refine .ite (fun _ => .ok hd) fun _ => ?_
        apply (within_predicate hd).bind
        intro e he
        refine .ite (fun _ => ?_) fun _ => .ok he
        exact (ih (he.skip 1)).bind fun _ hf => .ok hf
  rw [WhereClause.read]
  refine .ite (fun _ => .ok h) fun _ => ?_
  exact (hpredicates _ (h.skip 1)).bind fun _ hd => .ok hd

end WhereClause

namespace ParamList

variable {c : Cursor}

/-- The three dots of an entry, if it is made of them, are at a place with the property. -/
def Entry.DotsHave (P : Span → Prop) : Entry → Prop
  | .param _ => True
  | .variadic run => P run.span

/-- An entry that leaves a cursor without new places, and whose dots have theirs within. -/
abbrev EntersWithin (P : Span → Prop) (x : Outcome (Entry × Cursor)) : Prop :=
  x.Ensures P fun found => found.1.DotsHave P ∧ found.2.Within P

theorem within_readReceiver (h : c.Within P) :
  Ensures P (fun found => ∀ receiver ∈ found, receiver.2.Within P) (readReceiver c)
  := by
  have hmarked : Within P
      (if atPunct '&' c.trees then
        if atLifetime (c.skip 1).trees then (c.skip 1).skip 1 else c.skip 1
      else c) :=
    .ite (.ite ((h.skip 1).skip 1) (h.skip 1)) h
  have hbare := hmarked.skipKeyword "mut"
  refine .ite (fun _ => .ok (by simp)) fun _ => ?_
  exact .ite_bind (((hbare.skip 1).skip 1).afterType true) (.ok (hbare.skip 1))
    fun d hd => .ok (by simpa using hd)

theorem within_readPlainEntry {start : Cursor} (hstart : start.Within P) (attributes : List Run)
    (h : c.Within P) :
  EntersWithin P (readPlainEntry start attributes c)
  := by
  refine .ite (fun _ => .ok ⟨hstart.run _, h.skip 3⟩) fun _ => ?_
  apply h.readPattern.bind
  rintro ⟨pattern, d⟩ ⟨-, hd⟩
  apply hd.expectColon.bind
  intro e he
  refine .ite (fun _ => .ok ⟨hstart.run _, he.skip 3⟩) fun _ => ?_
  exact (he.readType true).bind fun _ hf => .ok ⟨trivial, hf.2⟩

theorem within_readEntry {done : List Entry} (hdone : ∀ entry ∈ done, entry.DotsHave P)
    (h : c.Within P) :
  EntersWithin P (readEntry done c)
  := by
  rw [readEntry.eq_def]
  split
  case h_1 run rest => exact hdone (.variadic run) (List.mem_cons_self ..)
  case h_2 =>
    have hattributes := h.outerAttributes
    generalize outerAttributes c = attributed at hattributes ⊢
    apply Ensures.ite_bind (within_readReceiver hattributes) (.ok fun _ hnone => by cases hnone)
    intro receiver hreceiver
    dsimp only
    split
    · exact .ok ⟨trivial, hreceiver _ rfl⟩
    · exact within_readPlainEntry h _ hattributes

theorem within_read (h : c.Within P) :
  ReadsWithin P (ParamList.read c)
  := by
  apply (h.expectGroup .paren).bind
  rintro ⟨group, d⟩ ⟨hgroup, hd⟩
  have hentries := hgroup.commaSeparated fun _ _ => within_readEntry
  exact hentries.bind fun _ _ => .ok hd

end ParamList

/-! ### Captures and return clauses -/

namespace Capture

variable {c : Cursor}

/-- The patterns of a capture have their places where the property holds. -/
def PatternHas (P : Span → Prop) (capture : Capture) : Prop :=
  ∀ p ∈ capture.pattern?, p.SpansHave P

mutual

theorem within_checkPattern (p : Pattern) (hp : p.SpansHave P) :
  Ensures P (fun _ => True) (checkPattern p)
  := by
  obtain ⟨kind, run, parts⟩ := p
  rw [checkPattern]
  apply Ensures.ite
  · exact fun _ => within_checkParts parts fun r hr => hp r (List.mem_cons_of_mem _ hr)
  · exact fun _ => hp run (List.mem_cons_self ..)

theorem within_checkParts (ps : List Pattern) (hps : ∀ run ∈ Pattern.runsAll ps, P run.span) :
  Ensures P (fun _ => True) (checkParts ps)
  := by
  cases ps with
  | nil => exact .ok trivial
  | cons p ps =>
      have hp := within_checkPattern p fun r hr => hps r (List.mem_append_left _ hr)
      have hrest := within_checkParts ps fun r hr => hps r (List.mem_append_right _ hr)
      rw [checkParts]
      exact .ite (fun _ => hp.bind fun _ _ => hrest) fun _ => hrest

end

theorem within_checkDistinct {seen : List String} {bindings : List (String × Span)}
    (h : ∀ binding ∈ bindings, P binding.2) :
  Ensures P (fun _ => True) (checkDistinct seen bindings)
  := by
  induction bindings generalizing seen with
  | nil => exact .ok trivial
  | cons binding bindings ih =>
      obtain ⟨hbinding, hrest⟩ := List.forall_mem_cons.mp h
      exact .ite (fun _ => hbinding) fun _ => ih hrest

theorem within_expectEnd (h : c.Within P) :
  Ensures P (fun _ => True) (expectEnd c)
  := .ite (fun _ => .ok trivial) fun _ => h.fail _

/-- A capture that can be read in neither way is refused where it starts. -/
theorem within_read (index : Nat) (h : c.Within P) :
  Ensures P (fun found => found.1.PatternHas P ∧ found.2.Within P) (Capture.read index c)
  := by
  have hbound : Ensures P (fun found => found.1.SpansHave P ∧ found.2.2.Within P)
      (readBound c) := by
    apply h.readPattern.bind
    rintro ⟨p, d⟩ ⟨hp, hd⟩
    apply hd.expectColon.bind
    intro e he
    apply (he.readType true).bind
    rintro ⟨type, f⟩ ⟨-, hf⟩
    exact (within_expectEnd hf).bind fun _ _ => .ok ⟨hp, hf⟩
  have hunbound : ReadsWithin P (readUnbound c) := by
    apply (h.readType true).bind
    rintro ⟨type, d⟩ ⟨-, hd⟩
    exact (within_expectEnd hd).bind fun _ _ => .ok hd
  rw [Capture.read]
  split
  case h_1 p type d hread =>
    rw [hread] at hbound
    apply (within_checkPattern p hbound.1).bind
    exact fun _ _ => .ok ⟨by simpa [PatternHas, pattern?] using hbound.1, hbound.2⟩
  case h_2 =>
    split
    case h_1 type d hread =>
      rw [hread] at hunbound
      exact .ok ⟨by simp [PatternHas, pattern?], hunbound⟩
    case h_2 => exact h.failWith _

theorem within_readList {group : Group} (h : (Cursor.into group).Within P) :
  Ensures P (fun _ => True) (readList group)
  := by
  have hcaptures : Ensures P (fun captures => ∀ capture ∈ captures, PatternHas P capture)
      ((Cursor.into group).commaSeparated fun done : List Capture => Capture.read done.length) :=
    h.commaSeparated fun _ _ _ => within_read _
  apply hcaptures.bind
  intro captures hpatterns
  have hdistinct : Ensures P (fun _ => True) (checkDistinct [] (bindings captures)) := by
    apply within_checkDistinct
    intro binding hbinding
    obtain ⟨p, hp, hbinding⟩ := List.mem_flatMap.mp hbinding
    obtain ⟨capture, hcapture, hp⟩ := List.mem_filterMap.mp hp
    obtain ⟨run, hrun, hspan⟩ := p.exists_run_of_mem_bindings hbinding
    rw [← hspan]
    exact hpatterns capture hcapture p hp run hrun
  exact hdistinct.bind fun _ _ => .ok trivial

end Capture

namespace ReturnClause

variable {c : Cursor}

theorem within_readAfter (arrow : Arrow) (h : c.Within P) :
  ReadsWithin P (readAfter arrow c)
  := by
  rw [readAfter.eq_def]
  split
  case h_1 inner opening closing rest hc =>
    dsimp only
    have hlist : Ensures P (fun _ => True) (Capture.readList ⟨.paren, inner, opening, closing⟩) :=
      Capture.within_readList (h.inside hc)
    split
    · exact .ok (h.skip 1)
    · rename_i failure hfailure
      have htype := h.readType true
      split
      case h_1 hread =>
        rw [hread] at htype
        exact .ok htype.2
      case h_2 => exact hlist.of_error hfailure
  case h_2 => exact (h.readType true).bind fun _ hd => .ok hd.2

theorem within_read (h : c.Within P) :
  ReadsWithin P (ReturnClause.read c)
  := by
  rw [ReturnClause.read.eq_def]
  split
  case h_1 => exact .ite (fun _ => within_readAfter _ (h.skip 2)) fun _ => .ok h
  case h_2 => exact .ok h

end ReturnClause

/-! ### Items -/

namespace Stage

variable {stages : List Stage} {c d : Cursor} {diagnostic : Diagnostic}

theorem within_readPart (stage : Stage) (h : c.Within P) :
  StaysWithin P (stage.readPart c)
  := by
  cases stage with
  | item => exact .ok h
  | attributes => exact .ok h.outerAttributes
  | visibility =>
      have hreads := (FunctionItem.reads_visibility (c := c) rfl).1
      exact .ok (h.of_isSuffix hreads.stop hreads.isSuffix)
  | qualifiers =>
      have hreads := (FunctionItem.reads_qualifiers (c := c) rfl).1
      exact .ok (h.of_isSuffix hreads.stop hreads.isSuffix)
  | functionKeyword => exact (h.expectToken _ _).map fun _ hd => hd
  | functionName => exact (h.expectIdent _).map fun _ hd => hd
  | generics => exact (Generics.within_read h).map fun _ hd => hd
  | params => exact (ParamList.within_read h).map fun _ hd => hd
  | returnClause => exact (ReturnClause.within_read h).map fun _ hd => hd
  | whereClause => exact (WhereClause.within_read h).map fun _ hd => hd
  | body =>
      rw [readPart]
      have hending : Ensures P (fun found => found.2.2.Within P) (FunctionItem.readEnding c) := by
        rw [FunctionItem.readEnding.eq_def]
        split
        · exact .ok (h.skip 1)
        · exact .ite (fun _ => .ok (h.skip 1)) fun _ => h.failWith _
        · exact h.failWith _
      exact hending.map fun _ hd => hd

/-- Parts that are read one after the other stay within the cursor they start at. -/
theorem within_of_readParts (h : c.Within P) (hread : readParts stages c = .ok d) :
  d.Within P
  := by
  induction stages generalizing c with
  | nil =>
      cases hread
      exact h
  | cons stage stages ih =>
      obtain ⟨e, he, hread⟩ := bind_eq_ok.mp hread
      have hpart := stage.within_readPart h
      rw [FunctionItem.during_eq_ok.mp he] at hpart
      exact ih hpart hread

/-- Parts that cannot be read one after the other fail at a place of the cursor they start at. -/
theorem exists_failure_of_readParts (h : c.Within P)
    (hread : readParts stages c = .error diagnostic) :
  ∃ (stage : Stage) (failure : Failure), diagnostic = failure.diagnostic stage ∧ P failure.span
  := by
  induction stages generalizing c with
  | nil => cases hread
  | cons stage stages ih =>
      have hpart := stage.within_readPart h
      rcases bind_eq_error.mp hread with hread | ⟨e, he, hread⟩
      · obtain ⟨failure, hfailure, rfl⟩ := FunctionItem.during_eq_error.mp hread
        exact ⟨stage, failure, rfl, hpart.of_error hfailure⟩
      · rw [FunctionItem.during_eq_ok.mp he] at hpart
        exact ih hpart hread

end Stage

namespace FunctionItem

variable {c : Cursor} {file : String} {trees : List TokenTree} {diagnostic : Diagnostic}
  {rejection : Rejection}

/-- What is not a function item is refused at a place of the cursor. -/
theorem exists_failure_of_read (h : c.Within P) (hread : FunctionItem.read c = .error diagnostic) :
  ∃ (stage : Stage) (failure : Failure), diagnostic = failure.diagnostic stage ∧ P failure.span
  := by
  have hparts := map_read c
  rw [hread] at hparts
  exact Stage.exists_failure_of_readParts h hparts.symm

/-- Trees that are not a function item, or more than one, are refused at a place of theirs. -/
theorem exists_failure_of_ofTrees_within (h : (Cursor.ofTrees file trees).Within P)
    (hitem : ofTrees file trees = .error rejection) :
  ∃ (stage : Stage) (failure : Failure), rejection = [failure.diagnostic stage] ∧ P failure.span
  := by
  rw [ofTrees.eq_def] at hitem
  split at hitem
  case h_1 item d hread =>
    have hparts := map_read (Cursor.ofTrees file trees)
    rw [hread] at hparts
    have hd := Stage.within_of_readParts h hparts.symm
    rcases ite_eq_iff.mp hitem with ⟨-, hitem⟩ | ⟨-, hitem⟩
    · cases hitem
    · cases hitem
      exact ⟨.body, ⟨.afterItem d.peek, d.span⟩, rfl, hd.span⟩
  case h_2 diagnostic hread =>
    cases hitem
    obtain ⟨stage, failure, rfl, hspan⟩ := exists_failure_of_read h hread
    exact ⟨stage, failure, rfl, hspan⟩

end FunctionItem

/-! ### Places in a text -/

/-- A span of a text, which may be empty: its first line and column are those of the offset at which
it starts, and its last ones are those of its last character, if it has any. -/
structure Span.LiesIn (s : Span) (text : List Char) : Prop where
  start_le : s.start ≤ s.stop
  stop_le : s.stop ≤ text.length
  startLine : s.startLine = lineAt text s.start
  startColumn : s.startColumn = columnAt text s.start
  endLine : s.start < s.stop → s.endLine = lineAt text (s.stop - 1)
  endColumn : s.start < s.stop → s.endColumn = columnAt text (s.stop - 1)

section Texts

variable {file : String} {text : List Char} {tokens : List Token} {trees : List TokenTree}
  {rejection : Rejection} {s s' : Span} {t : Token}

/-- A span that covers characters, or reaches from some to others behind them. -/
theorem Span.Covers.through (hs : s.Covers text) (hs' : s'.Covers text) (hle : s.start ≤ s'.start) :
  (s.through s').LiesIn text
  := by
  have hlt := hs'.start_lt
  constructor
  · show s.start ≤ s'.stop
    omega
  · exact hs'.stop_le
  · exact hs.startLine
  · exact hs.startColumn
  · exact fun _ => hs'.endLine
  · exact fun _ => hs'.endColumn

/-- A token reaches over characters of the text that do not end in a line feed. -/
theorem exists_of_mem_tokensOf (h : tokensOf file text = .ok tokens) (ht : t ∈ tokens) :
  ∃ u v w, text = u ++ (v ++ w) ∧ v ≠ [] ∧ v.getLast? ≠ some '\n' ∧
    t.span = .between file (Position.origin.after u) (Position.origin.after (u ++ v))
  := by
  obtain ⟨before, after, rfl⟩ := List.append_of_mem ht
  obtain ⟨-, htokens⟩ := tokensOf_eq_ok.mp h
  obtain ⟨ps, q, qs, hpieces, -, hreading, hspan, -⟩ := exists_piece htokens
  obtain ⟨c, r, w, -, rfl, hlength, hqs⟩ := exists_of_pieces (pieces_textOf hpieces)
  have hlast := endsOnLine_start c (r ++ w) _ hreading
  rw [hlength, List.take_succ_cons, List.take_left] at hlast
  refine ⟨textOf ps, c :: r, w, ?_, List.cons_ne_nil _ _, hlast, ?_⟩
  · rw [← textOf_pieces text, hpieces, textOf_append, textOf_cons, hqs, textOf_pieces]
  · rw [hspan, textOf_append, textOf_cons, textOf_nil, List.append_nil]

/-- The empty span behind a token lies in the text. -/
theorem liesIn_past (h : tokensOf file text = .ok tokens) (ht : t ∈ tokens) :
  { t.span.past with file := file }.LiesIn text
  := by
  obtain ⟨u, v, w, rfl, hv, hlast, hspan⟩ := exists_of_mem_tokensOf h ht
  obtain ⟨v, c, rfl⟩ := (List.eq_nil_or_concat v).resolve_left hv
  rw [List.concat_eq_append] at hlast hspan ⊢
  have hc : c ≠ '\n' := by simpa using hlast
  have hcolumn : 2 ≤ (Position.origin.after (u ++ (v ++ [c]))).column := by
    rw [← List.append_assoc, after_concat, after_origin, Position.advance, if_neg hc]
    dsimp only
    omega
  have hend := after_origin_append (u ++ (v ++ [c])) w
  rw [List.append_assoc u] at hend
  rw [hspan, Span.past, Span.between]
  rw [hend] at hcolumn ⊢
  dsimp only at hcolumn ⊢
  have hmax : max 1 (columnAt (u ++ (v ++ [c] ++ w)) (u ++ (v ++ [c])).length - 1) + 1 =
      columnAt (u ++ (v ++ [c] ++ w)) (u ++ (v ++ [c])).length := by
    omega
  constructor
  · exact Nat.le_refl _
  · simp
  · rfl
  · exact hmax
  · exact fun hlt => absurd hlt (Nat.lt_irrefl _)
  · exact fun hlt => absurd hlt (Nat.lt_irrefl _)

theorem Token.Ordered.le_start {m n : Nat} (h : Token.Ordered m n tokens) (ht : t ∈ tokens) :
  m ≤ t.span.start
  := by
  induction h with
  | nil => cases ht
  | cons hm hlt _ ih =>
      rcases List.mem_cons.mp ht with rfl | ht
      · exact hm
      · have hle := ih ht
        omega

theorem Token.Ordered.start_lt {m n : Nat} (h : Token.Ordered m n tokens) (ht : t ∈ tokens) :
  t.span.start < t.span.stop
  := by
  obtain ⟨before, after, rfl⟩ := List.append_of_mem ht
  exact h.split.2.1

theorem Token.Ordered.pairwise {m n : Nat} (h : Token.Ordered m n tokens) :
  tokens.Pairwise fun s t => s.span.stop ≤ t.span.start
  := by
  induction h with
  | nil => exact .nil
  | cons _ _ hrest ih => exact .cons (fun _ ht => hrest.le_start ht) ih

/-- All places among the tokens of a text lie in it. -/
theorem spansHave_of_tokensOf (h : tokensOf file text = .ok tokens) :
  Token.SpansHave (fun s => s.file = file ∧ s.LiesIn text) tokens
  := by
  have hcovers (t : Token) (ht : t ∈ tokens) : t.span.file = file ∧ t.span.Covers text := by
    obtain ⟨u, v, w, rfl, hv, hlast, hspan⟩ := exists_of_mem_tokensOf h ht
    rw [hspan]
    exact ⟨rfl, covers_between hv hlast⟩
  constructor
  · intro t ht
    obtain ⟨hfile, hspan⟩ := hcovers t ht
    exact ⟨hfile, hspan.through hspan (Nat.le_refl _)⟩
  · apply (ordered_of_tokensOf h).pairwise.imp_of_mem
    intro s t hs ht hle
    obtain ⟨hfile, hspan⟩ := hcovers s hs
    have hlt := hspan.start_lt
    exact ⟨hfile, hspan.through (hcovers t ht).2 (by omega)⟩

/-- The places of trees are those among their tokens, and the empty span behind the last of them, or
at the start of the file if there is none. -/
theorem Cursor.within_ofTrees (htokens : Token.SpansHave P (tokensAll trees))
    (hpast : ∀ t ∈ tokensAll trees, P { t.span.past with file := file })
    (hnil : trees = [] → P (.fileStart file)) :
  (Cursor.ofTrees file trees).Within P
  := by
  refine ⟨?_, htokens⟩
  rw [Cursor.ofTrees]
  dsimp only
  split
  case h_1 last hlast =>
    obtain ⟨init, rfl⟩ := List.getLast?_eq_some_iff.mp hlast
    obtain ⟨first, t, -, ht, hspan⟩ := last.exists_ends
    rw [hspan]
    apply hpast t
    rw [tokensAll_append, tokensAll_singleton]
    exact List.mem_append_right _ (List.mem_of_getLast? ht)
  case h_2 hnone => exact hnil (List.getLast?_eq_none_iff.mp hnone)

/-- Some of the trees of a text have all their places in it. -/
theorem within_of_isInfix (h : tokensOf file text = .ok tokens)
    (htrees : tokensAll trees <:+: tokens) :
  (Cursor.ofTrees file trees).Within fun s => s.file = file ∧ s.LiesIn text
  := by
  apply Cursor.within_ofTrees
  · exact (spansHave_of_tokensOf h).sublist htrees.sublist
  · exact fun t ht => ⟨rfl, liesIn_past h (htrees.mem ht)⟩
  · rintro -
    refine ⟨rfl, Nat.le_refl _, Nat.zero_le _, rfl, rfl, ?_, ?_⟩
    · exact fun hlt => absurd hlt (Nat.lt_irrefl _)
    · exact fun hlt => absurd hlt (Nat.lt_irrefl _)

/-- Tokens that form no trees are refused at one of them. -/
theorem exists_fault_of_ofTokens (h : TokenTree.ofTokens tokens = .error rejection) :
  ∃ (t : Token) (fault : DelimiterFault), t ∈ tokens ∧ rejection = [fault.diagnostic t.span]
  := by
  rcases nested_or_blamed tokens with hnested | ⟨t, fault, hblamed, hread⟩
  · obtain ⟨trees, htrees, -⟩ := exists_ofTokens_of_nested hnested
    cases htrees.symm.trans h
  · refine ⟨t, fault, ?_, ?_⟩
    · cases hblamed with
      | stray htokens => simp [htokens]
      | unclosed hopen =>
          cases hopen with
          | opening => simp
    · rw [TokenTree.ofTokens, hread] at h
      cases h
      rfl

/-- Tokens of a text that form no trees are refused for one problem, at one place in the text. -/
theorem liesIn_of_ofTokens (htokens : tokensOf file text = .ok tokens)
    (h : TokenTree.ofTokens tokens = .error rejection) :
  ∃ d label, rejection = [d] ∧ d.labels = [label] ∧ d.code = "E101" ∧ label.span.file = file ∧
    label.span.LiesIn text
  := by
  obtain ⟨t, fault, ht, rfl⟩ := exists_fault_of_ofTokens h
  obtain ⟨hcode, hspans⟩ := diagnostic_located fault t.span
  obtain ⟨label, hlabel, hspan⟩ := List.map_eq_singleton_iff.mp hspans
  refine ⟨_, label, rfl, hlabel, hcode, ?_⟩
  rw [hspan]
  exact (spansHave_of_tokensOf htokens).alone t ht

theorem Failure.code_mem (failure : Failure) (stage : Stage) :
  (failure.diagnostic stage).code ∈ ["E200", "E210", "E220"]
  := by
  show (failure.problem.kind stage).code ∈ _
  rw [Problem.kind_eq]
  split_ifs <;> simp [ErrorKind.code]

namespace FunctionItem

/-- Some of the trees of a text that are not a function item are refused for one problem, at one
place in the text. -/
theorem liesIn_of_ofTrees (htokens : tokensOf file text = .ok tokens)
    (htrees : tokensAll trees <:+: tokens) (h : ofTrees file trees = .error rejection) :
  ∃ d label, rejection = [d] ∧ d.labels = [label] ∧ d.code ∈ ["E200", "E210", "E220"] ∧
    label.span.file = file ∧ label.span.LiesIn text
  := by
  obtain ⟨stage, failure, rfl, hspan⟩ :=
    exists_failure_of_ofTrees_within (within_of_isInfix htokens htrees) h
  exact ⟨_, _, rfl, rfl, failure.code_mem stage, hspan⟩

/-- Some of the trees of a text that no function item starts with, behind the first `start`, are
refused for one problem, at one place in the text. -/
theorem liesIn_of_readAt {start : Nat} (htokens : tokensOf file text = .ok tokens)
    (htrees : tokensAll trees <:+: tokens) (h : readAt file trees start = .error rejection) :
  ∃ d label, rejection = [d] ∧ d.labels = [label] ∧ d.code ∈ ["E200", "E210", "E220"] ∧
    label.span.file = file ∧ label.span.LiesIn text
  := by
  rw [readAt] at h
  split at h
  case h_1 => cases h
  case h_2 diagnostic hread =>
    cases h
    obtain ⟨stage, failure, rfl, hspan⟩ :=
      exists_failure_of_read ((within_of_isInfix htokens htrees).skip start) hread
    exact ⟨_, _, rfl, rfl, failure.code_mem stage, hspan⟩

/-- A text that consists of tokens and is not a function item is refused for one problem, at one
place. It lies in the text, and its lines and columns are those that the text tells about its
offsets, also where the problem is that the text ends, or a group does. -/
theorem liesIn_of_ofText (htokens : tokensOf file text = .ok tokens)
    (h : ofText file text = .error rejection) :
  ∃ d label, rejection = [d] ∧ d.labels = [label] ∧ d.code ∈ ["E101", "E200", "E210", "E220"] ∧
    label.span.file = file ∧ label.span.LiesIn text
  := by
  rw [ofText] at h
  rcases Outcome.bind_eq_error.mp h with h | ⟨trees, htrees, h⟩
  · rw [TokenTree.ofText, htokens] at h
    obtain ⟨d, label, hone, hlabel, hcode, hlies⟩ := liesIn_of_ofTokens htokens h
    exact ⟨d, label, hone, hlabel, by simp [hcode], hlies⟩
  · obtain ⟨d, label, hone, hlabel, hcode, hlies⟩ :=
      liesIn_of_ofTrees (tokensOf_of_ofText htrees).1 List.infix_rfl h
    exact ⟨d, label, hone, hlabel, List.mem_cons_of_mem _ hcode, hlies⟩

/-- What is missing at the end of a text is reported behind its last token. -/
theorem liesIn_of_ofText_truncated :
  ∃ tokens d label, tokensOf "f.rs" "fn f()\n -> (a: u8) // {}\n".toList = .ok tokens ∧
    ofText "f.rs" "fn f()\n -> (a: u8) // {}\n".toList = .error [d] ∧ d.labels = [label] ∧
    label.span = ⟨"f.rs", 2, 12, 2, 12, 18, 18⟩ ∧
    label.span.LiesIn "fn f()\n -> (a: u8) // {}\n".toList
  := by
  obtain ⟨tokens, htokens, -⟩ := Outcome.exists_of_any
    (x := tokensOf "f.rs" "fn f()\n -> (a: u8) // {}\n".toList) (p := fun _ => true)
    (by decide +kernel)
  have herror : (ofText "f.rs" "fn f()\n -> (a: u8) // {}\n".toList).map (fun _ => ()) =
      .error [⟨"E200", "expected `\x7b` or `;`, found end of input",
        [⟨⟨"f.rs", 2, 12, 2, 12, 18, 18⟩, "expected the function body"⟩],
        ["while parsing the body"]⟩] := by
    decide +kernel
  have hitem := Outcome.map_eq_error.mp herror
  obtain ⟨d, label, hone, hlabel, -, -, hspan⟩ := liesIn_of_ofText htokens hitem
  cases hone
  cases hlabel
  exact ⟨tokens, _, _, htokens, hitem, rfl, rfl, hspan⟩

end FunctionItem

end Texts

end ReturnCaptures
