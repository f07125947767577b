import ReturnCaptures.Proofs.CopyThrough
import ReturnCaptures.Proofs.Embedding
import ReturnCaptures.Proofs.Locality
import ReturnCaptures.Proofs.Tiling

/-!
# Expanding two texts at once

A text that ends a line behind a semicolon or a block is expanded by itself, whatever text follows
it: no lexeme, path, call, attribute or item reaches over the juncture. The expansion of two such
texts put together is the two expansions put together, and the names of the first one are recorded
before those of the second one.
-/

namespace ReturnCaptures

open Scan TokenTree

/-! ### Marked items in front of other trees -/

/-- Whether trees end as an item does. -/
def TokenTree.Closed (trees : List TokenTree) : Prop :=
  ∃ last ∈ trees.getLast?, last.isEnding

/-- A call with more trees behind it. -/
def Invocation.followedBy (v : List TokenTree) (call : Invocation) : Invocation :=
  ⟨call.arguments, call.stop, call.after ++ v⟩

/-- What stands where a scan has arrived, with more trees behind it. -/
def Site.followedBy (v : List TokenTree) : Site → Site
  | .invocation call => .invocation (call.followedBy v)
  | .attribute => .attribute
  | .unmarked => .unmarked

section Closed

variable {tree : TokenTree} {trees u : List TokenTree} (v : List TokenTree)

/-- Closed trees are the same in front of others for whoever does not look behind a juncture. -/
theorem TokenTree.Closed.same {look : List TokenTree → Bool} (h : Closed trees)
    (hlook : ∀ {r r'}, Juncture r r' → Unseen r r' look) :
  look (trees ++ v) = look trees
  := by
  obtain ⟨last, hlast, hending⟩ := h
  obtain ⟨u, rfl⟩ := List.getLast?_eq_some_iff.mp hlast
  rw [List.append_assoc]
  exact (hlook (.ofEnding hending) u).symm

theorem TokenTree.Closed.of_isSuffix (h : Closed trees) (hu : u <:+ trees) (hne : u ≠ []) :
  Closed u
  := by
  obtain ⟨last, hlast, hending⟩ := h
  obtain ⟨v, rfl⟩ := hu
  use last
  constructor
  · rwa [List.getLast?_append, List.getLast?_eq_some_getLast hne, Option.some_or,
      ← List.getLast?_eq_some_getLast hne] at hlast
  · apply hending

/-- Behind a tree that ends no item there are more. -/
theorem TokenTree.Closed.tail (h : Closed (tree :: trees)) (htree : tree.isEnding = false) :
  Closed trees
  := by
  apply h.of_isSuffix (List.suffix_cons ..)
  rintro rfl
  obtain ⟨last, hlast, hending⟩ := h
  obtain rfl : tree = last := Option.some.inj hlast
  rw [htree] at hending
  cases hending

theorem TokenTree.not_closed_nil :
  ¬ Closed []
  := by
  rintro ⟨last, hlast, -⟩
  cases hlast

/-- A character other than a semicolon ends no item. -/
theorem TokenTree.not_isEnding_of_atPunct {symbol : Char} (h : atPunct symbol [tree])
    (hsymbol : (symbol == ';') = false) :
  tree.isEnding = false
  := by
  obtain ⟨t, rfl⟩ := Cursor.exists_of_atPunct_singleton h
  obtain ⟨joint, span, rfl⟩ := Cursor.exists_of_isPunct h
  apply hsymbol

/-- Both characters of an operator end no item. -/
theorem TokenTree.Closed.tail_operator {first second : TokenTree} {a b : Char}
    (h : Closed (first :: second :: trees)) (hoperator : atOperator [a, b] [first, second])
    (ha : (a == ';') = false) (hb : (b == ';') = false) :
  Closed trees
  := by
  have hsecond := not_isEnding_of_atPunct (atPunct_of_atOperator hoperator) hb
  apply (h.tail (not_isEnding_of_atPunct (atPunct_first_of_atOperator hoperator) ha)).tail hsecond

/-- What a path in closed trees names, and what stands behind it, which is closed again. -/
theorem pathEnd_append (name : String) (h : Closed trees) :
  pathEnd name (trees ++ v) = ((pathEnd name trees).1, (pathEnd name trees).2 ++ v) ∧
    Closed (pathEnd name trees).2
  := by
  fun_induction pathEnd name trees with
  | case1 name colon colon' t trees hsegment ih =>
      have hparts := Bool.and_eq_true_iff.mp hsegment
      have hword : (TokenTree.token t).isEnding = false := by
        obtain ⟨l, span⟩ := t
        cases l <;> first | rfl | cases hparts.2
      rw [List.cons_append, List.cons_append, List.cons_append, pathEnd, if_pos hsegment]
      apply ih ((h.tail_operator hparts.1 rfl rfl).tail hword)
  | case2 name colon colon' t trees hsegment =>
      rw [List.cons_append, List.cons_append, List.cons_append, pathEnd, if_neg hsegment]
      use rfl
  | case3 name trees hshort =>
      refine ⟨(pathEnd.eq_def ..).trans ?_, h⟩
      split
      case h_1 colon colon' t rest heq =>
        -- the trees are too few to go on with another segment
        rw [if_neg, ← heq]
        intro hsegment
        have hoperator := (Bool.and_eq_true_iff.mp hsegment).1
        obtain _ | ⟨first, _ | ⟨second, _ | ⟨third, trees⟩⟩⟩ := trees
        · apply not_closed_nil h
        · obtain ⟨rfl, -⟩ := List.cons_eq_cons.mp heq
          apply not_closed_nil
          apply h.tail (not_isEnding_of_atPunct (atPunct_first_of_atOperator hoperator) rfl)
        · cases heq
          apply not_closed_nil (h.tail_operator hoperator rfl rfl)
        · cases heq
          apply hshort _ _ _ _ rfl
      case h_2 => rfl

/-- The path in closed trees is the one in front of others. -/
theorem pathName?_append (h : Closed trees) :
  pathName? (trees ++ v) = (pathName? trees).map (fun path => (path.1, path.2 ++ v)) ∧
    ∀ path ∈ pathName? trees, Closed path.2
  := by
  have hoperator : atOperator [':', ':'] (trees ++ v) = atOperator [':', ':'] trees :=
    h.same v fun hs => hs.operator (by decide)
  obtain ⟨rest, hrest, hstart, hstart'⟩ : ∃ rest, Closed rest ∧
      (if atOperator [':', ':'] trees then trees.drop 2 else trees) = rest ∧
      (if atOperator [':', ':'] (trees ++ v) then (trees ++ v).drop 2 else trees ++ v) =
        rest ++ v := by
    rw [hoperator]
    by_cases hpair : atOperator [':', ':'] trees
    · obtain ⟨first, second, rest, rfl, hfirst⟩ := Cursor.exists_of_atOperator hpair
      use rest, h.tail_operator hfirst rfl rfl, if_pos hpair
      rw [if_pos hpair]
      rfl
    · use trees, h, if_neg hpair
      rw [if_neg hpair]
  rw [pathName?, pathName?, hstart, hstart']
  obtain _ | ⟨⟨l, span⟩ | _, rest⟩ := rest
  · apply absurd hrest not_closed_nil
  · by_cases hword : l.isPathWord
    · have htree : (TokenTree.token ⟨l, span⟩).isEnding = false := by
        cases l <;> first | rfl | cases hword
      obtain ⟨hend, hclosed⟩ := pathEnd_append v (Token.text ⟨l, span⟩) (hrest.tail htree)
      simp only [List.cons_append, hword, if_true, Option.map_some, hend, true_and]
      rintro path ⟨⟩
      apply hclosed
    · simp only [List.cons_append, hword, Bool.false_eq_true, if_false, Option.map_none, true_and]
      rintro path ⟨⟩
  · use rfl
    rintro path ⟨⟩

/-- A call ends where it does in front of other trees, if there are trees behind its arguments or
these stand in braces. -/
theorem Invocation.Ends.append {arguments : Group} {stop : Nat} {rest after : List TokenTree}
    (h : Ends arguments rest stop after) (hrest : rest ≠ [] ∨ arguments.delimiter = .brace) :
  Ends arguments (rest ++ v) stop (after ++ v)
  := by
  cases h with
  | closing hends =>
      apply Ends.closing
      rcases hrest with hrest | hbrace
      · obtain ⟨tree, u, rfl⟩ := List.exists_cons_of_ne_nil hrest
        rwa [List.cons_append, atPunct_cons, ← atPunct_cons ';' tree u]
      · apply Or.inl hbrace
  | semicolon hbrace hsemicolon => apply Ends.semicolon hbrace hsemicolon

/-- A call in closed trees is the one in front of others. -/
theorem Invocation.after?_append (h : Closed trees) :
  after? (trees ++ v) = (after? trees).map (followedBy v)
  := by
  have hbang : atSingle '!' (trees ++ v) = atSingle '!' trees :=
    h.same v fun hs => hs.single (by decide)
  rw [after?.eq_def, after?.eq_def, hbang]
  by_cases hseen : atSingle '!' trees
  · rw [if_pos hseen, if_pos hseen]
    obtain ⟨bang, rest, rfl, htree⟩ := Cursor.exists_of_atPunct (Bool.and_eq_true_iff.mp hseen).1
    have hrest := h.tail (not_isEnding_of_atPunct htree rfl)
    obtain _ | ⟨_ | ⟨d, inside, opening, closing⟩, after⟩ := rest
    · apply absurd hrest not_closed_nil
    · rfl
    · obtain ⟨harguments, hends⟩ := ends_ofArguments ⟨d, inside, opening, closing⟩ after
      have hafter : after ≠ [] ∨ d = .brace := by
        rcases List.eq_nil_or_concat after with rfl | ⟨u, last, rfl⟩
        · obtain ⟨last, hlast, hending⟩ := hrest
          obtain rfl : _ = last := Option.some.inj hlast
          right
          cases d <;> first | rfl | cases hending
        · left
          simp
      simp only [List.cons_append, Option.map_some, Option.some.injEq]
      rw [(hends.append v hafter).eq_ofArguments, followedBy, harguments]
  · rw [if_neg hseen, if_neg hseen]
    rfl

theorem invocation?_append (markers : Markers) (h : Closed trees) :
  invocation? markers (trees ++ v) =
    (invocation? markers trees).map (Option.map (Invocation.followedBy v))
  := by
  obtain ⟨hpath, hclosed⟩ := pathName?_append v h
  simp only [invocation?, hpath, Option.map_map, Function.comp_def]
  congr 1
  funext marked
  cases marked with
  | false => rfl
  | true =>
      rw [if_pos rfl, if_pos rfl]
      cases hname : pathName? trees with
      | none => rfl
      | some path => apply Invocation.after?_append v (hclosed path hname)

theorem atMarkerAttribute?_append (markers : Markers) (h : Closed trees) :
  atMarkerAttribute? markers (trees ++ v) = atMarkerAttribute? markers trees
  := by
  obtain _ | ⟨hash, _ | ⟨next, rest⟩⟩ := trees
  · apply absurd h not_closed_nil
  · have hhash : atPunct '#' [hash] = false := by
      rw [Bool.eq_false_iff]
      intro hhash
      apply not_closed_nil (h.tail (not_isEnding_of_atPunct hhash rfl))
    obtain _ | ⟨_ | ⟨_ | _ | _, inside, opening, closing⟩, v⟩ := v
    case cons.group.bracket =>
      rw [List.singleton_append, atMarkerAttribute?, hhash, if_neg Bool.false_ne_true]
      rfl
    all_goals
      rfl
  · obtain _ | ⟨_ | _ | _, inside, opening, closing⟩ := next <;> rfl

/-- What stands in front of closed trees stands there also in front of others. -/
theorem site?_append (markers : Markers) (h : Closed trees) :
  site? markers (trees ++ v) = (site? markers trees).map (Site.followedBy v)
  := by
  simp only [site?, invocation?_append v markers h, atMarkerAttribute?_append v markers h]
  obtain _ | _ | call := invocation? markers trees
  · rfl
  · obtain _ | _ | _ := atMarkerAttribute? markers trees <;> rfl
  · rfl

end Closed

namespace Source

/-- The marked items of closed trees and those of the trees behind them are those of both. -/
theorem Marks.append {source : Source} {u v : List TokenTree} {edits edits' : List Edit}
    {names names' : List String} (h : source.Marks u edits names)
    (h' : source.Marks v edits' names') (hu : u ≠ [] → Closed u) :
  source.Marks (u ++ v) (edits ++ edits') (names ++ names')
  := by
  induction h with
  | nil => apply h'
  | @called tree rest call item inner edits within names hcall hitem hinner _ _ ih =>
      have hclosed := hu (List.cons_ne_nil _ _)
      have hsite := site?_append v source.markers hclosed
      rw [site?_eq_invocation.mpr hcall, Option.map_some, Site.followedBy, List.cons_append,
        site?_eq_invocation] at hsite
      obtain ⟨w, last, hw, -⟩ := hcall.exists_extent
      rw [List.cons_append, List.cons_append, List.cons_append, List.append_assoc]
      apply Marks.called hsite hitem hinner (ih _)
      apply hclosed.of_isSuffix ⟨w, hw.symm⟩
  | @attributed tree rest item next inner edits within names hattribute hitem hinner _ _ ih =>
      have hclosed := hu (List.cons_ne_nil _ _)
      have hsite := site?_append v source.markers hclosed
      rw [hattribute, Option.map_some, Site.followedBy, List.cons_append] at hsite
      have hle : next ≤ (tree :: rest).length := by
        obtain ⟨d, -, rfl⟩ := FunctionItem.readAt_eq_ok.mp hitem
        apply Nat.sub_le
      have hlater : source.Marks ((tree :: rest ++ v).drop next) (edits ++ edits')
          (names ++ names') := by
        rw [List.drop_append_of_le_length hle]
        apply ih (hclosed.of_isSuffix (List.drop_suffix ..))
      rw [List.cons_append, List.cons_append, List.cons_append, List.append_assoc]
      apply Marks.attributed hsite (FunctionItem.readAt_append hitem v) hinner hlater
  | @token t rest edits names hunmarked _ ih =>
      have hclosed := hu (List.cons_ne_nil _ _)
      have hsite := site?_append v source.markers hclosed
      rw [hunmarked, Option.map_some, Site.followedBy, List.cons_append] at hsite
      rw [List.cons_append]
      apply Marks.token hsite (ih _)
      apply hclosed.of_isSuffix (List.suffix_cons ..)
  | @group d inside rest opening closing inner edits within names hunmarked hinner _ _ ih =>
      have hclosed := hu (List.cons_ne_nil _ _)
      have hsite := site?_append v source.markers hclosed
      rw [hunmarked, Option.map_some, Site.followedBy, List.cons_append] at hsite
      rw [List.cons_append, List.append_assoc, List.append_assoc]
      apply Marks.group hsite hinner (ih _)
      apply hclosed.of_isSuffix (List.suffix_cons ..)

end Source

/-! ### A text that ends a line -/

section Lines

variable {file file' : String} {c : Char} {w q r line : List Char} {p : Piece}
  {trees : List TokenTree}

/-- Trivia that ends in a line feed at the end of a text is that line feed. -/
theorem eq_nil_of_trivia (h : start c r = ⟨.trivia, r.length + 1⟩)
    (hfeed : (c :: r).getLast? = some '\n') :
  r = []
  := by
  rcases first_of_trivia (congrArg Scan.reading h) with hspace | rfl
  · rw [start, if_pos hspace] at h
    have hlength : 1 = r.length + 1 := congrArg Scan.length h
    apply List.length_eq_zero_iff.mp
    omega
  obtain _ | ⟨d, line⟩ := r
  · rfl
  rw [List.getLast?_cons_cons, List.getLast?_cons] at hfeed
  by_cases hslash : d = '/'
  · subst hslash
    have hline : LineRest line [] := (lineRest_of_trivia (by rwa [List.append_nil])).1
    -- a line comment stops in front of the line feed
    cases hlast : line.getLast? with
    | none =>
        rw [hlast] at hfeed
        cases hfeed
    | some e =>
        rw [hlast] at hfeed
        obtain rfl : e = '\n' := Option.some.inj hfeed
        obtain ⟨u, hu⟩ := List.getLast?_eq_some_iff.mp hlast
        apply absurd _ (hline.inside u ['\n'] hu (List.cons_ne_nil _ _))
        exact .inr (.inl rfl)
  by_cases hstar : d = '*'
  · subst hstar
    have hcomment : CommentRest line :=
      (commentRest_of_trivia (by rw [List.append_nil]; apply h)).1
    rw [hcomment.getLast?_eq] at hfeed
    cases hfeed
  · rw [start_slash (by simpa using hslash) (by simpa using hstar)] at h
    cases h

/-- The last piece of a text is what starts with its first character. -/
theorem exists_of_getLast?_pieces (h : (pieces w).getLast? = some p) :
  ∃ c r, p = ⟨c :: r, (start c r).reading⟩ ∧ (start c r).length = r.length + 1 ∧
    ∃ u, w = u ++ (c :: r)
  := by
  generalize hps : pieces w = ps at h
  induction ps generalizing w with
  | nil => cases h
  | cons q ps ih =>
      obtain ⟨c, r, u, rfl, rfl, hlength, rfl⟩ := exists_of_pieces hps
      cases hrest : pieces u with
      | nil =>
          obtain rfl : u = [] := by rw [← textOf_pieces u, hrest, textOf_nil]
          rw [hrest] at h
          obtain rfl := Option.some.inj h
          rw [List.append_nil] at hlength ⊢
          exact ⟨c, r, rfl, hlength, [], rfl⟩
      | cons q qs =>
          rw [hrest, List.getLast?_cons_cons, ← hrest] at h
          obtain ⟨d, s, hp, hscan, v, hv⟩ := ih rfl h
          use d, s, hp, hscan, c :: (r ++ v)
          rw [hv, List.cons_append, List.append_assoc]

/-- What an item ends with ends in a semicolon or a brace. -/
theorem exists_of_isEnding {tree : TokenTree} (h : tree.isEnding) :
  ∃ d, (d = ';' ∨ d = '}') ∧ lastLexeme tree = .punct d false
  := by
  cases tree with
  | token t =>
      obtain ⟨joint, span, rfl⟩ := Cursor.exists_of_isPunct h
      use ';', .inl rfl
      rfl
  | group delimiter inside opening closing =>
      cases delimiter with
      | brace =>
          use '}', .inr rfl
          rfl
      | _ => cases h

/-- The last piece of a text that ends in a line feed behind a semicolon or a block is that line
feed. -/
theorem getLast?_pieces (htrees : TokenTree.ofText file w = .ok trees) (hclosed : Closed trees)
    (hfeed : w.getLast? = some '\n') :
  (pieces w).getLast? = some ⟨['\n'], .trivia⟩
  := by
  obtain ⟨htokens, -⟩ := ofText_eq_ok.mp htrees
  obtain ⟨hclean, htokens⟩ := tokensOf_eq_ok.mp htokens
  have hne : pieces w ≠ [] := by
    intro hnil
    rw [← textOf_pieces w, hnil] at hfeed
    cases hfeed
  obtain ⟨p, hlast⟩ := List.getLast?_isSome.mpr hne |> Option.isSome_iff_exists.mp
  obtain ⟨ps, hps⟩ := List.getLast?_eq_some_iff.mp hlast
  obtain ⟨c, r, rfl, hlength, v, hv⟩ := exists_of_getLast?_pieces hlast
  rw [hv, List.getLast?_append, List.getLast?_cons, Option.some_or, ← List.getLast?_cons] at hfeed
  cases hreading : (start c r).reading with
  | fault =>
      have hp := hclean _ (List.mem_of_getLast? hlast)
      rw [Piece.isClean, hreading] at hp
      cases hp
  | trivia =>
      have hscan : start c r = ⟨.trivia, r.length + 1⟩ := by rw [← hreading, ← hlength]
      obtain rfl := eq_nil_of_trivia hscan hfeed
      obtain rfl : c = '\n' := Option.some.inj hfeed
      rw [hlast, hreading]
  | lexeme l =>
      -- the last token would be one that ends in a line feed
      obtain ⟨tree, htree, hending⟩ := hclosed
      obtain ⟨u, rfl⟩ := List.getLast?_eq_some_iff.mp htree
      obtain ⟨s, last, hs, -, hl⟩ := exists_last tree
      rw [tokensAll_append, tokensAll_singleton, hs, hps, tokensAt_append, tokensAt_cons,
        PlacedPiece.token?, hreading, ← List.append_assoc (tokensAll u)] at htokens
      obtain ⟨-, htoken⟩ := List.append_inj' htokens rfl
      rw [← (List.cons_eq_cons.mp htoken).1] at hl
      have hspells := spells_start c r l hreading
      rw [hlength, leading, List.take_succ_cons, List.take_length, ← Lexeme.text_plain, hl]
        at hspells
      obtain ⟨d, hd, hmark⟩ := exists_of_isEnding hending
      rw [hmark] at hspells
      have htext : c :: r = [d] := by
        have htext := congrArg String.toList hspells
        rw [String.toList_ofList, Lexeme.text, String.toList_singleton] at htext
        exact htext.symm
      rw [htext] at hfeed
      obtain rfl : d = '\n' := Option.some.inj hfeed
      rcases hd with hd | hd <;> cases hd

/-- A text that ends in a line feed resembles itself with more text behind it. -/
theorem alike_append (u q : List Char) :
  Alike (u ++ ['\n']) (u ++ ['\n'] ++ q)
  := by
  rw [List.append_assoc]
  apply Alike.append
  apply Alike.shared (by decide)
  rintro (_ | _)

/-- The pieces of a text that ends in a line feed stand in front of those of any other text. -/
theorem pieces_append (hclean : ∀ p ∈ pieces w, p.isClean)
    (hlast : (pieces w).getLast? = some ⟨['\n'], .trivia⟩) (q : List Char) :
  pieces (w ++ q) = pieces w ++ pieces q
  := by
  generalize hps : pieces w = ps at hclean hlast
  induction ps generalizing w with
  | nil => cases hlast
  | cons p ps ih =>
      obtain ⟨c, r, u, rfl, rfl, hlength, rfl⟩ := exists_of_pieces hps
      rw [List.forall_mem_cons] at hclean
      have hscan : start c (r ++ u) = ⟨(start c (r ++ u)).reading, r.length + 1⟩ := by
        rw [← hlength]
      cases hrest : pieces u with
      | nil =>
          obtain rfl : u = [] := by rw [← textOf_pieces u, hrest, textOf_nil]
          rw [hrest] at hlast
          obtain ⟨⟨⟩, -⟩ := Piece.mk.inj (Option.some.inj hlast)
          apply pieces_cons (r := [])
          rfl
      | cons p' qs =>
          rw [hrest, List.getLast?_cons_cons, ← hrest] at hlast
          rw [← hrest, List.cons_append, List.append_assoc, List.cons_append,
            ← ih rfl hclean.2 hlast]
          apply pieces_cons
          -- what stands in front of a line feed is the same whatever stands behind that
          obtain ⟨d, s, hd, -, v, rfl⟩ := exists_of_getLast?_pieces hlast
          obtain ⟨⟨⟩, -⟩ := Piece.mk.inj hd
          have hstarts : Piece.Starts ⟨c :: r, (start c (r ++ (v ++ ['\n']))).reading⟩
              (v ++ ['\n']) := by
            use c, r, rfl
            rw [hscan]
            rfl
          have halike := alike_append v q
          obtain ⟨c', r', htext, hplain⟩ := hstarts.of_milder hclean.1 halike.milder
            (fun _ d hd _ => halike.head? hd) fun hend _ => halike.endsLine hend
          obtain ⟨rfl, rfl⟩ := List.cons_eq_cons.mp htext
          apply Eq.trans _ hscan
          apply start_eq_of_plain
          · rw [hplain, hscan]
            rfl
          · rw [List.append_assoc, ← List.append_assoc r, ← List.append_assoc r]
            apply Eq.trans (joins_append (by decide) (by decide))
            apply Eq.symm (joins_append (by decide) (by decide))

/-- The trees of a text that ends a line behind an item, with another text behind it. -/
theorem exists_trees_append {v : List TokenTree} (hw : TokenTree.ofText file w = .ok trees)
    (hq : TokenTree.ofText file' q = .ok v) (hclosed : Closed trees)
    (hfeed : w.getLast? = some '\n') (file'' : String) :
  ∃ trees' v', TokenTree.ofText file'' (w ++ q) = .ok (trees' ++ v') ∧
    Copies (shifted 0 w.length) trees' trees ∧ Copies (shifted w.length q.length) v' v
  := by
  have hclean := (tokensOf_eq_ok.mp (ofText_eq_ok.mp hw).1).1
  have hclean' := (tokensOf_eq_ok.mp (ofText_eq_ok.mp hq).1).1
  obtain ⟨trees', htrees', hproper, hcopies⟩ := exists_copies_of_pieces hw file'' .origin
  obtain ⟨v', hv', hproper', hcopies'⟩ :=
    exists_copies_of_pieces hq file'' (Position.origin.after w)
  have hoffset : (Position.origin.after w).offset = w.length := by
    rw [Position.offset_after, Position.origin, Nat.zero_add]
  rw [hoffset] at hcopies'
  have hpieces := pieces_append hclean (getLast?_pieces hw hclosed hfeed) q
  use trees', v'
  constructor
  · apply ofText_eq_ok.mpr
    constructor
    · apply tokensOf_eq_ok.mpr
      rw [hpieces, List.forall_mem_append, tokensAt_append, textOf_pieces, htrees', hv',
        tokensAll_append]
      use ⟨hclean, hclean'⟩
    · rw [areProper_iff] at hproper hproper' ⊢
      rw [List.forall_mem_append]
      use hproper
  · use hcopies

/-- Copies of closed trees are closed. -/
theorem TokenTree.Copies.closed {φ : Nat → Nat} {trees' : List TokenTree}
    (h : Copies φ trees' trees) (hclosed : Closed trees) :
  Closed trees'
  := by
  have hrelocate (ψ : Nat → Nat) (tree : TokenTree) :
      (tree.relocate ψ).isEnding = tree.isEnding := by
    cases tree <;> simp [TokenTree.isEnding, atPunct, atLexeme, atGroup]
  obtain ⟨last, hlast, hending⟩ := hclosed
  have hsame := congrArg List.getLast? h
  rw [getLast?_relocateAll, getLast?_relocateAll, hlast, Option.map_some,
    Option.map_eq_some_iff] at hsame
  obtain ⟨last', hlast', hsame⟩ := hsame
  use last', hlast'
  rw [← hrelocate id, hsame, hrelocate, hending]

end Lines

/-! ### Edits of two texts -/

section Edits

variable {text : List Char} {m n k : Nat} {edits edits' : List Edit}

/-- Edits in the front of a text and edits behind it are made one by one. -/
theorem splice_append (h : Edit.Ordered m k edits) (h' : Edit.Ordered k n edits') :
  splice text m n (edits ++ edits') = splice text m k edits ++ splice text k n edits'
  := by
  induction h with
  | nil hle =>
      rw [List.nil_append, splice]
      cases h' with
      | nil hle' => rw [splice, splice, slice_append_slice hle hle']
      | cons hm _ _ =>
          rw [splice, splice, ← slice_append_slice hle hm, List.append_assoc, List.append_assoc,
            List.append_assoc]
  | cons hm hlt hrest ih =>
      rw [List.cons_append, splice, splice, ih h', ← List.append_assoc]

/-- Edits that stand one behind the other do so where their text is put. -/
theorem Edit.Ordered.shifted (h : Edit.Ordered m n edits) (hn : n ≤ k) (l : Nat) :
  Edit.Ordered (shifted l k m) (shifted l k n) (edits.map (Edit.relocate (shifted l k)))
  := by
  induction h with
  | nil hle =>
      apply Edit.Ordered.nil
      simp only [ReturnCaptures.shifted]
      omega
  | cons hm hlt hrest ih =>
      have hle := hrest.le
      apply Edit.Ordered.cons _ _ (ih hn)
      · simp only [Edit.relocate, ReturnCaptures.shifted]
        omega
      · simp only [Edit.relocate, ReturnCaptures.shifted]
        omega

end Edits

namespace Source

variable {file file' : String} {text text' out out' : List Char} {markers : Markers}
  {names names' : List String} {trees : List TokenTree}

/-- A text that ends a line behind a semicolon or a block, and any text behind it, expand to their
expansions, one behind the other, if both can be expanded. The names of the first text are recorded
first. -/
theorem expand_append
    (h : (Source.mk file text markers).expand.run [] = .ok out names)
    (h' : (Source.mk file' text' markers).expand.run [] = .ok out' names')
    (htrees : TokenTree.ofText file text = .ok trees) (hclosed : Closed trees)
    (hfeed : text.getLast? = some '\n') (file'' : String) (before : List String) :
  (Source.mk file'' (text ++ text') markers).expand.run before =
    .ok (out ++ out') (before ++ (names ++ names'))
  := by
  obtain ⟨_, edits, _, htrees', hedits, rfl, rfl⟩ := expand_run_eq_ok.mp h
  obtain rfl := Except.ok.inj (htrees.symm.trans htrees')
  obtain ⟨v, edits', _, hv, hedits', rfl, rfl⟩ := expand_run_eq_ok.mp h'
  obtain ⟨u, v', htrees'', hu, hv'⟩ := exists_trees_append htrees hv hclosed hfeed file''
  have hslice (m n : Nat) : slice (text ++ text') (shifted 0 text.length m)
      (shifted 0 text.length n) = slice text m n := slice_shifted [] text text' m n
  have hslice' (m n : Nat) : slice (text ++ text') (shifted text.length text'.length m)
      (shifted text.length text'.length n) = slice text' m n := by
    rw [← slice_shifted text text' [], List.append_nil]
  have hmarks : (Source.mk file'' (text ++ text') markers).Marks u _ names :=
    hedits.of_copies rfl hslice hu
  have hmarks' : (Source.mk file'' (text ++ text') markers).Marks v' _ names' :=
    hedits'.of_copies rfl hslice' hv'
  apply expand_run_eq_ok.mpr
  refine ⟨_, _, _, htrees'', hmarks.append hmarks' fun _ => hu.closed hclosed, rfl, ?_⟩
  -- the edits of the first text end where those of the second one start
  have hordered := (hedits.ordered (ordered_of_ofText htrees)).shifted (Nat.le_refl _) 0
  have hordered' := (hedits'.ordered (ordered_of_ofText hv)).shifted (Nat.le_refl _) text.length
  have hstart : shifted 0 text.length 0 = 0 := by simp [shifted]
  have hmiddle : shifted 0 text.length text.length = text.length := by simp [shifted]
  have hmiddle' : shifted text.length text'.length 0 = text.length := by simp [shifted]
  have hstop : shifted text.length text'.length text'.length = (text ++ text').length := by
    simp [shifted]
  have hfirst := Expansion.splice_relocate hslice 0 text.length edits
  have hsecond := Expansion.splice_relocate hslice' 0 text'.length edits'
  rw [hstart, hmiddle] at hordered hfirst
  rw [hmiddle', hstop] at hordered' hsecond
  rw [splice_append hordered hordered', hfirst, hsecond]

theorem expand_append_called :
  ∃ (text text' out out' : List Char) (trees : List TokenTree),
    text = "f!();\nnamed_return! { fn f() -> (a: u8) { a } } // ;\n".toList ∧
    text' = "; #[named_return] fn g() -> (); fn h() {}".toList ∧
    (Source.mk "f.rs" text .standard).expand.run [] = .ok out ["f"] ∧
    (Source.mk "g.rs" text' .standard).expand.run [] = .ok out' ["g"] ∧
    TokenTree.ofText "f.rs" text = .ok trees ∧ Closed trees ∧ text.getLast? = some '\n' ∧
    (Source.mk "h.rs" (text ++ text') .standard).expand.run ["e"] =
      .ok (out ++ out') ["e", "f", "g"]
  := by
  obtain ⟨out, names, h, hnames⟩ := Recording.exists_of_any
    (x := (Source.mk "f.rs"
      "f!();\nnamed_return! { fn f() -> (a: u8) { a } } // ;\n".toList .standard).expand)
    (s := []) (p := fun _ names => names == ["f"]) (by decide +kernel)
  obtain ⟨out', names', h', hnames'⟩ := Recording.exists_of_any
    (x := (Source.mk "g.rs" "; #[named_return] fn g() -> (); fn h() {}".toList .standard).expand)
    (s := []) (p := fun _ names => names == ["g"]) (by decide +kernel)
  obtain ⟨trees, htrees, hlast⟩ := Outcome.exists_of_any
    (x := TokenTree.ofText "f.rs"
      "f!();\nnamed_return! { fn f() -> (a: u8) { a } } // ;\n".toList)
    (p := fun trees => trees.getLast?.any TokenTree.isEnding) (by decide +kernel)
  obtain rfl : names = ["f"] := eq_of_beq hnames
  obtain rfl : names' = ["g"] := eq_of_beq hnames'
  have hclosed : Closed trees := (Option.any_eq_true ..).mp hlast
  exact ⟨_, _, out, out', trees, rfl, rfl, h, h', htrees, hclosed, rfl,
    expand_append h h' htrees hclosed rfl "h.rs" ["e"]⟩

end Source

end ReturnCaptures
