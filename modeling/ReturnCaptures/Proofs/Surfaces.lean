import ReturnCaptures.Proofs.Embedding
import ReturnCaptures.Proofs.Locality

/-!
# An item alone, in a call and behind an attribute

A function item can be expanded as a text of its own, as the arguments of a call of the marker
macro, or behind the marker attribute. The three ways give the same text and record the same
names; behind an attribute, what follows the item is copied.
-/

namespace ReturnCaptures

open Scan TokenTree

/-! ### The marker in front of a text -/

section Marker

variable {w : List Char}

/-- The characters of the marker's name, but for the first one. -/
def nameTail : List Char := ['a', 'm', 'e', 'd', '_', 'r', 'e', 't', 'u', 'r', 'n']

/-- What stands in front of the arguments of a call of the marker macro. -/
def callOpening : List Char := 'n' :: (nameTail ++ ['!', ' ', '{'])

/-- The marker attribute on a line of its own. -/
def attributeLine : List Char := '#' :: '[' :: 'n' :: (nameTail ++ [']', '\n'])

theorem toList_callOpening :
  "named_return! \x7b".toList = callOpening
  := rfl

theorem toList_attributeLine :
  "#[named_return]\n".toList = attributeLine
  := rfl

/-- The piece that names the marker. -/
def namePiece : Piece := ⟨'n' :: nameTail, .lexeme (.ident "named_return")⟩

theorem pieces_name (h : start 'n' (nameTail ++ w) =
    ⟨.lexeme (wordLexeme (String.ofList ('n' :: nameTail))), 12⟩) :
  pieces ('n' :: (nameTail ++ w)) = namePiece :: pieces w
  := pieces_cons h

/-- The pieces in front of the arguments of a call. -/
def callPieces : List Piece :=
  [namePiece, ⟨['!'], .lexeme (.punct '!' false)⟩, ⟨[' '], .trivia⟩,
    ⟨['{'], .lexeme (.punct '{' false)⟩]

/-- The pieces of the marker attribute. -/
def attributePieces : List Piece :=
  [⟨['#'], .lexeme (.punct '#' false)⟩, ⟨['['], .lexeme (.punct '[' false)⟩, namePiece,
    ⟨[']'], .lexeme (.punct ']' false)⟩, ⟨['\n'], .trivia⟩]

theorem pieces_callOpening :
  pieces (callOpening ++ w) = callPieces ++ pieces w
  := by
  have hname : pieces ('n' :: (nameTail ++ '!' :: ' ' :: '{' :: w)) = _ := pieces_name rfl
  have hbang : pieces ('!' :: ' ' :: '{' :: w) = _ := pieces_cons (r := []) rfl
  have hblank : pieces (' ' :: '{' :: w) = _ := pieces_cons (r := []) rfl
  have hopening : pieces ('{' :: w) = _ := pieces_cons (r := []) rfl
  rw [hbang, hblank, hopening] at hname
  apply hname

theorem pieces_attributeLine :
  pieces (attributeLine ++ w) = attributePieces ++ pieces w
  := by
  have hhash : pieces ('#' :: '[' :: 'n' :: (nameTail ++ ']' :: '\n' :: w)) = _ :=
    pieces_cons (r := []) rfl
  have hopening : pieces ('[' :: 'n' :: (nameTail ++ ']' :: '\n' :: w)) = _ :=
    pieces_cons (r := []) rfl
  have hname : pieces ('n' :: (nameTail ++ ']' :: '\n' :: w)) = _ := pieces_name rfl
  have hclosing : pieces (']' :: '\n' :: w) = _ := pieces_cons (r := []) rfl
  have hblank : pieces ('\n' :: w) = _ := pieces_cons (r := []) rfl
  rw [hopening, hname, hclosing, hblank] at hhash
  apply hhash

end Marker

namespace Source

section Surfaces

variable {file : String} {text : List Char} {trees : List TokenTree} {item : FunctionItem}
  {inner : List Edit} {within : List String}

/-- A text that is an item ends in no documentation comment. -/
theorem last_of_item (htrees : TokenTree.ofText file text = .ok trees)
    (hitem : FunctionItem.ofTrees file trees = .ok item) :
  ∀ p ∈ (pieces text).getLast?, ∀ inner comment, p.reading ≠ .lexeme (.doc inner comment)
  := by
  intro p hp inner comment hdoc
  obtain ⟨ps, hps⟩ := List.getLast?_eq_some_iff.mp hp
  obtain ⟨d, hread, hd⟩ := FunctionItem.ofTrees_eq_ok.mp hitem
  obtain ⟨s⟩ := FunctionItem.nonempty_steps hread
  obtain ⟨_, hending⟩ := FunctionItem.reads_readEnding s.ending_eq
  obtain ⟨u, hu, _⟩ := FunctionItem.exists_trees_of_read hread
  rw [hd, List.append_nil] at hu
  obtain rfl : trees = u ++ [item.ending.tree] := hu
  generalize item.ending.tree = tree at htrees hending
  obtain ⟨r, last, hlast, _, hlexeme⟩ := exists_last tree
  have htokens := (tokensOf_eq_ok.mp (ofText_eq_ok.mp htrees).1).2
  rw [tokensAll_append, tokensAll_singleton, hlast, hps, tokensAt_append, tokensAt_cons,
    PlacedPiece.token?, hdoc, ← List.append_assoc (tokensAll u)] at htokens
  obtain ⟨_, hlast⟩ := List.append_inj' htokens rfl
  rw [← (List.cons_eq_cons.mp hlast).1] at hlexeme
  rw [Bool.or_eq_true] at hending
  cases tree with
  | group => cases hlexeme
  | token t =>
      rcases hending with hending | hending
      · cases hending
      · obtain ⟨l, span⟩ := t
        cases l <;> first | cases hending | cases hlexeme

/-- The trees of a call of the marker macro whose arguments are a text. -/
theorem exists_trees_call (htrees : TokenTree.ofText file text = .ok trees)
    (hlast : ∀ p ∈ (pieces text).getLast?, ∀ inner comment, p.reading ≠ .lexeme (.doc inner comment))
    (file' : String) :
  ∃ φ trees' name bang opening closing,
    TokenTree.ofText file' (callOpening ++ (text ++ ['\n', '}'])) =
      .ok [.token ⟨.ident "named_return", name⟩, .token ⟨.punct '!' false, bang⟩,
        .group .brace trees' opening closing] ∧
    Copies φ trees' trees ∧
    (∀ m n, slice (callOpening ++ (text ++ ['\n', '}'])) (φ m) (φ n) = slice text m n) ∧
    name.start = 0 ∧ closing.stop = (callOpening ++ (text ++ ['\n', '}'])).length
  := by
  have hclean := (tokensOf_eq_ok.mp (ofText_eq_ok.mp htrees).1).1
  obtain ⟨ps, hps, hcleanps, htokens⟩ := exists_pieces_append hclean hlast ['}']
  have htext : textOf ps = text ++ ['\n'] := by
    have htext := congrArg textOf hps
    rw [textOf_append, textOf_pieces, textOf_pieces, List.append_cons] at htext
    apply (List.append_cancel_right htext).symm
  have hpieces : pieces (callOpening ++ (text ++ ['\n', '}'])) =
      callPieces ++ (ps ++ [⟨['}'], .lexeme (.punct '}' false)⟩]) := by
    rw [pieces_callOpening, hps]
    rfl
  obtain ⟨trees', htokens', hproper, hcopies⟩ :=
    exists_copies_of_pieces htrees file' (Position.origin.after callOpening)
  obtain ⟨name, bang, opening, closing, hall, hname, hclosing⟩ : ∃ name bang opening closing,
      tokensAt file' .origin (pieces (callOpening ++ (text ++ ['\n', '}']))) =
        [⟨.ident "named_return", name⟩, ⟨.punct '!' false, bang⟩, ⟨.punct '{' false, opening⟩] ++
          (tokensAll trees' ++ [⟨.punct '}' false, closing⟩]) ∧
      name.start = 0 ∧ closing.stop = (callOpening ++ (text ++ ['\n', '}'])).length := by
    rw [hpieces, tokensAt_append, tokensAt_append, htokens, ← htokens']
    refine ⟨_, _, _, _, rfl, rfl, ?_⟩
    simp only [Span.between, Position.offset_after, htext, List.length_append]
    rfl
  use shifted callOpening.length text.length, trees', name, bang, opening, closing
  constructor
  · apply ofText_eq_ok.mpr
    constructor
    · apply tokensOf_eq_ok.mpr
      constructor
      · rw [hpieces, List.forall_mem_append, List.forall_mem_append]
        use by decide, hcleanps
        decide
      · rw [hall, tokensAll, tokensAll, tokensAll_singleton]
        rfl
    · rw [areProper, areProper, areProper, TokenTree.isProper, TokenTree.isProper,
        TokenTree.isProper, hproper]
      rfl
  · use hcopies, slice_shifted callOpening text _, hname, hclosing

/-- The trees of the marker attribute and of a text behind it. -/
theorem exists_trees_attribute (htrees : TokenTree.ofText file text = .ok trees) (file' : String) :
  ∃ φ trees' hash name opening closing,
    TokenTree.ofText file' (attributeLine ++ text) =
      .ok (.token ⟨.punct '#' false, hash⟩ ::
        .group .bracket [.token ⟨.ident "named_return", name⟩] opening closing :: trees') ∧
    Copies φ trees' trees ∧
    (∀ m n, slice (attributeLine ++ text) (φ m) (φ n) = slice text m n) ∧
    (∀ m, (attributeLine ++ text).drop (φ m) = text.drop m) ∧ hash.start = 0
  := by
  have hclean := (tokensOf_eq_ok.mp (ofText_eq_ok.mp htrees).1).1
  obtain ⟨trees', htokens', hproper, hcopies⟩ :=
    exists_copies_of_pieces htrees file' (Position.origin.after attributeLine)
  obtain ⟨hash, opening, name, closing, hall, hhash⟩ : ∃ hash opening name closing,
      tokensAt file' .origin (pieces (attributeLine ++ text)) =
        [⟨.punct '#' false, hash⟩, ⟨.punct '[' false, opening⟩, ⟨.ident "named_return", name⟩,
          ⟨.punct ']' false, closing⟩] ++ tokensAll trees' ∧
      hash.start = 0 := by
    rw [pieces_attributeLine, tokensAt_append, ← htokens']
    exact ⟨_, _, _, _, rfl, rfl⟩
  have hslice := slice_shifted attributeLine text []
  have hdrop := drop_shifted attributeLine text []
  simp only [List.append_nil] at hslice hdrop
  use shifted attributeLine.length text.length, trees', hash, name, opening, closing
  constructor
  · apply ofText_eq_ok.mpr
    constructor
    · apply tokensOf_eq_ok.mpr
      constructor
      · rw [pieces_attributeLine, List.forall_mem_append]
        use by decide, hclean
      · rw [hall, tokensAll, tokensAll]
        rfl
    · rw [areProper, areProper, TokenTree.isProper, TokenTree.isProper, hproper]
      rfl
  · use hcopies, hslice, hdrop, hhash

theorem leads_call (trees : List TokenTree) (name bang opening closing : Span) :
  Invocation.Leads ⟨⟨.brace, trees, opening, closing⟩, closing.stop, []⟩ .standard
    [.token ⟨.ident "named_return", name⟩, .token ⟨.punct '!' false, bang⟩,
      .group .brace trees opening closing]
  := ⟨"named_return", [_], _, [], rfl, rfl, rfl, rfl, .closing (.inl rfl)⟩

theorem site?_attribute (trees : List TokenTree) (hash name opening closing : Span) :
  site? .standard (.token ⟨.punct '#' false, hash⟩ ::
    .group .bracket [.token ⟨.ident "named_return", name⟩] opening closing :: trees) =
      some .attribute
  := rfl

/-- An item in a call of the marker macro is expanded as if it stood alone. -/
theorem expand_call (htrees : TokenTree.ofText file text = .ok trees)
    (hitem : FunctionItem.ofTrees file trees = .ok item)
    (hinner : (Source.mk file text .standard).Marks (Expansion.ofItem item).openTrees inner within)
    (file' : String) (before : List String) :
  (Source.mk file' (callOpening ++ (text ++ ['\n', '}'])) .standard).expand.run before =
    .ok ((Expansion.ofItem item).textWith text inner) (before ++ item.name :: within)
  := by
  obtain ⟨φ, trees', name, bang, opening, closing, htrees', hcopies, hslice, hname, hclosing⟩ :=
    exists_trees_call htrees (last_of_item htrees hitem) file'
  generalize callOpening ++ (text ++ ['\n', '}']) = text' at *
  obtain ⟨item', hitem', hcopy⟩ := FunctionItem.exists_ofTrees_of_copies file' hcopies hitem
  have hmarks : (Source.mk file' text' .standard).Marks _ _ _ :=
    .called (leads_call trees' name bang opening closing) hitem'
      (hinner.of_copies rfl hslice hcopy.openTrees) .nil
  rw [hcopy.textWith hslice, hcopy.name_eq, List.append_nil] at hmarks
  apply expand_run_eq_ok.mpr
  refine ⟨_, _, _, htrees', hmarks, rfl, ?_⟩
  simp [splice, slice, hname, hclosing, TokenTree.span]

/-- An item behind the marker attribute is expanded as if it stood alone, and what follows it is
copied. -/
theorem expand_attribute (htrees : TokenTree.ofText file text = .ok trees)
    (hitem : FunctionItem.ofTrees file trees = .ok item)
    (hinner : (Source.mk file text .standard).Marks (Expansion.ofItem item).openTrees inner within)
    (file' : String) (before : List String) :
  (Source.mk file' (attributeLine ++ text) .standard).expand.run before =
    .ok ((Expansion.ofItem item).textWith text inner ++ text.drop item.span.stop)
      (before ++ item.name :: within)
  := by
  obtain ⟨φ, trees', hash, name, opening, closing, htrees', hcopies, hslice, hdrop, hhash⟩ :=
    exists_trees_attribute htrees file'
  generalize attributeLine ++ text = text' at *
  obtain ⟨item', hitem', hcopy⟩ := FunctionItem.exists_ofTrees_of_copies file' hcopies hitem
  have hnone (trees : List TokenTree) :
      (Source.mk file' text' .standard).Marks (trees.drop trees.length) [] [] := by
    rw [List.drop_length]
    apply Marks.nil
  have hmarks : (Source.mk file' text' .standard).Marks _ _ _ :=
    .attributed (site?_attribute trees' hash name opening closing)
      (FunctionItem.readAt_of_ofTrees hitem' [_, _]) (hinner.of_copies rfl hslice hcopy.openTrees) (hnone _)
  rw [hcopy.textWith hslice, hcopy.name_eq, List.append_nil] at hmarks
  apply expand_run_eq_ok.mpr
  refine ⟨_, _, _, htrees', hmarks, rfl, ?_⟩
  have hrest : slice text' item'.span.stop text'.length = text'.drop item'.span.stop := by
    rw [slice, ← List.length_drop, List.take_length]
  rw [← hdrop, ← hcopy.stop_eq, splice, splice_nil, hrest]
  simp [slice, hhash, TokenTree.span]

/-- An item that is expanded alone is expanded in the same way as the arguments of a call of the
marker macro, and behind the marker attribute, where what follows the item is copied. All three
record the same names. -/
theorem expand_of_expandItem {out : List Char} {before after : List String}
    (h : (Source.mk file text .standard).expandItem.run before = .ok out after) (file' : String) :
  (Source.mk file' ("named_return! \x7b".toList ++ text ++ "\n\x7d".toList) .standard).expand.run before =
      .ok out after ∧
    ∃ item, FunctionItem.ofText file text = .ok item ∧
      (Source.mk file' ("#[named_return]\n".toList ++ text) .standard).expand.run before =
        .ok (out ++ text.drop item.span.stop) after
  := by
  obtain ⟨item, inner, within, hitem, hinner, rfl, rfl⟩ := expandItem_run_eq_ok.mp h
  obtain ⟨trees, htrees, hofTrees⟩ := Outcome.bind_eq_ok.mp hitem
  constructor
  · rw [toList_callOpening, List.append_assoc]
    apply expand_call htrees hofTrees hinner
  · use item, hitem
    rw [toList_attributeLine]
    apply expand_attribute htrees hofTrees hinner

theorem expand_of_expandItem_nested :
  ∃ text out item,
    text = "fn f() -> (a: u8) { named_return! { fn g() -> (b: u8) { b } } a } // end".toList ∧
    out = "fn f() -> u8 { let a: u8; fn g() -> u8 { let b: u8; b } a }".toList ∧
    (Source.mk "f.rs" text .standard).expandItem.run [] = .ok out ["f", "g"] ∧
    (Source.mk "f.rs" ("named_return! \x7b".toList ++ text ++ "\n\x7d".toList) .standard).expand.run [] =
      .ok out ["f", "g"] ∧
    FunctionItem.ofText "f.rs" text = .ok item ∧
    (Source.mk "f.rs" ("#[named_return]\n".toList ++ text) .standard).expand.run [] =
      .ok (out ++ text.drop item.span.stop) ["f", "g"]
  := by
  obtain ⟨out, names, hrun, hout⟩ := Recording.exists_of_any
    (x := (Source.mk "f.rs"
      "fn f() -> (a: u8) { named_return! { fn g() -> (b: u8) { b } } a } // end".toList
      .standard).expandItem)
    (s := [])
    (p := fun out names =>
      out == "fn f() -> u8 { let a: u8; fn g() -> u8 { let b: u8; b } a }".toList &&
        names == ["f", "g"])
    (by decide +kernel)
  simp only [Bool.and_eq_true, beq_iff_eq] at hout
  obtain ⟨rfl, rfl⟩ := hout
  obtain ⟨hcall, item, hitem, hattribute⟩ := expand_of_expandItem hrun "f.rs"
  exact ⟨_, _, item, rfl, rfl, hrun, hcall, hitem, hattribute⟩

end Surfaces

end Source

end ReturnCaptures
