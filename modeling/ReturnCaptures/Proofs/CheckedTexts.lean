import Mathlib.Data.List.TakeWhile
import ReturnCaptures.Expansion.Source
import ReturnCaptures.Proofs.CheckedItems
import ReturnCaptures.Proofs.Slices
import ReturnCaptures.Proofs.Standing

/-!
# Texts are cut and written without a slip

A text is cut into pieces, none of which takes characters behind its end. The documentation comments
among its tokens have a third character, which tells on which side they document. Where a
declaration is written in front of statements that start on a line of their own, one of the lines
has an indentation to take.
-/

namespace ReturnCaptures

open TokenTree Scan Checked

variable {ε : Type} {c : Char} {u v w : List Char}

/-! ### Cutting a text -/

/-- The pieces of a text of which the first `skip` characters belong to an earlier piece. -/
def checkedPieces : (skip : Nat) → List Char → Checked ε (List Piece)
  | 0, [] => .ok []
  | _ + 1, [] => slip .pastText
  | skip + 1, _ :: rest => checkedPieces skip rest
  | 0, c :: rest => do
    let scan := Scan.start c rest
    if scan.length = 0 then slip .emptyPiece
    let later ← checkedPieces (scan.length - 1) rest
    return ⟨c :: rest.take (scan.length - 1), scan.reading⟩ :: later

theorem checkedPieces_eq {skip : Nat} (h : skip ≤ u.length) :
  (checkedPieces skip u : Checked ε _) = .ok (piecesFrom skip u)
  := by
  induction u generalizing skip with
  | nil =>
      obtain rfl : skip = 0 := Nat.le_zero.mp h
      rfl
  | cons c u ih =>
      cases skip with
      | succ skip => apply ih (Nat.le_of_succ_le_succ h)
      | zero =>
          have hfits := fits_start c u
          simp only [Fits, List.length_cons] at hfits
          rw [checkedPieces]
          dsimp only
          rw [if_neg (by omega)]
          apply ok_bind_eq (ih (by omega)) rfl

/-- The tokens of a text, or the diagnostics of all its faults. -/
def checkedTokens (file : String) (text : List Char) : Checked Rejection (List Token) := do
  let pieces ← checkedPieces 0 text
  let placed := placedFrom .origin pieces
  match placed.filterMap (·.diagnostic? file) with
  | [] => return placed.filterMap (·.token? file)
  | faults => of (.error faults)

theorem checkedTokens_eq (file : String) (text : List Char) :
  checkedTokens file text = of (tokensOf file text)
  := by
  apply ok_bind_eq (checkedPieces_eq (Nat.zero_le _))
  dsimp only
  rw [tokensOf, placed, pieces]
  cases (placedFrom .origin (piecesFrom 0 text)).filterMap (·.diagnostic? file) <;> rfl

/-- The trees of a text. -/
def checkedTrees (file : String) (text : List Char) : Checked Rejection (List TokenTree) := do
  of (TokenTree.ofTokens (← checkedTokens file text))

theorem checkedTrees_eq (file : String) (text : List Char) :
  checkedTrees file text = of (TokenTree.ofText file text)
  := by
  apply bind_eq_of (checkedTokens_eq file text)
  intro _ _
  rfl

/-! ### Documentation comments -/

theorem getElem?_toList_leading {n i : Nat} (h : i < n) :
  (leading n u).toList[i]? = u[i]?
  := by
  rw [leading, String.toList_ofList, List.getElem?_take_of_lt h]

/-- A comment of two slashes that documents has a third character that tells. -/
theorem isTold_lineComment {l : Lexeme} (h : (lineComment ('/' :: '/' :: w)).reading = .lexeme l) :
  l.isTold
  := by
  have hlength (hd : ∃ d ∈ w.head?, d ≠ '\n' ∧ d ≠ '\r') :
      2 < lineLength ('/' :: '/' :: w) := by
    obtain ⟨d, hd, hfeed, hreturn⟩ := hd
    obtain ⟨r, rfl⟩ := List.head?_eq_some_iff.mp hd
    simp [lineLength_cons, hfeed, hreturn]
  simp only [lineComment, ofLexeme] at h
  split_ifs at h with hinner houter
  · cases h
    rw [Lexeme.isTold, getElem?_toList_leading, hinner]
    · rfl
    · apply hlength
      use '!', by simpa [List.head?_eq_getElem?] using hinner
      decide
  · cases h
    rw [Bool.and_eq_true, decide_eq_true_iff] at houter
    rw [Lexeme.isTold, getElem?_toList_leading, houter.1]
    · rfl
    · apply hlength
      use '/', by simpa [List.head?_eq_getElem?] using houter.1
      decide

/-- A block comment that documents has a third character that tells. -/
theorem isTold_blockComment {l : Lexeme} (h : (blockComment w).reading = .lexeme l) :
  l.isTold
  := by
  simp only [blockComment, ofLexeme] at h
  split at h
  case h_1 => cases h
  case h_2 n hn =>
    have hlength : 2 < n + 2 := by
      have hge := blockLength?_ge hn (by decide)
      omega
    split_ifs at h with hinner houter
    · cases h
      rw [Lexeme.isTold, getElem?_toList_leading hlength, hinner]
      rfl
    · cases h
      rw [Bool.and_eq_true, Bool.and_eq_true, decide_eq_true_iff] at houter
      rw [Lexeme.isTold, getElem?_toList_leading hlength, houter.1.1]
      rfl

theorem isTold_of_start {l : Lexeme} (h : (start c w).reading = .lexeme l) :
  l.isTold
  := by
  have hopens := opensWith_of_start h
  cases l with
  | doc inner text =>
      obtain rfl : c = '/' := eq_of_beq hopens
      by_cases hslash : w.head? = some '/'
      · obtain ⟨r, rfl⟩ := List.head?_eq_some_iff.mp hslash
        rw [start_slashes] at h
        apply isTold_lineComment h
      by_cases hstar : w.head? = some '*'
      · obtain ⟨r, rfl⟩ := List.head?_eq_some_iff.mp hstar
        rw [start_star] at h
        apply isTold_blockComment h
      rw [start_slash hslash hstar] at h
      cases h
  | _ => rfl

/-- The documentation comments of a text tell on which side they document. -/
theorem areTold_of_ofText {file : String} {trees : List TokenTree}
    (h : TokenTree.ofText file u = .ok trees) :
  AreTold trees
  := by
  intro t ht
  obtain ⟨_, htokens⟩ := tokensOf_eq_ok.mp (tokensOf_of_ofText h).1
  rw [← htokens] at ht
  obtain ⟨p, hp, hreading⟩ := exists_lexeme_of_mem ht
  obtain ⟨c, r, hstart⟩ := exists_start_of_mem hp
  apply isTold_of_start (hstart.symm.trans hreading)

/-! ### Indentations -/

/-- The statements of a body with a declaration in front of them. If they start on a line of their
own, the declaration gets another, with the indentation of the first line that is not blank. -/
def checkedWithDeclaration (declaration lineEnd statements : List Char) : Checked ε (List Char) :=
  if isBlank statements then .ok (' ' :: (declaration ++ [' ']))
  else if statements.contains '\n' && isBlank (statements.takeWhile (· != '\n')) then
    match (statements.splitOn '\n').tail.find? (!isBlank ·) with
    | some line => .ok (lineEnd ++ line.takeWhile isWhitespace ++ declaration ++ statements)
    | none => slip .noIndentation
  else
    .ok (' ' :: (declaration ++ ' ' :: statements.dropWhile (fun c => c == ' ' || c == '\t')))

theorem takeWhile_append_cons {p : Char → Bool} (hc : p c = false) (u v : List Char) :
  (u ++ c :: v).takeWhile p = u.takeWhile p
  := by
  induction u with
  | nil => rw [List.nil_append, List.takeWhile_cons_of_neg (by simp [hc]), List.takeWhile_nil]
  | cons d u ih => simp only [List.cons_append, List.takeWhile_cons, ih]

theorem indentation_append_feed (u v : List Char) :
  indentation (u ++ '\n' :: v) = indentation v
  := by
  rw [indentation, indentation, List.reverse_append, List.reverse_cons, List.append_assoc,
    List.singleton_append, takeWhile_append_cons (by decide)]

theorem takeWhile_of_not_mem (h : '\n' ∉ u) :
  u.takeWhile (· != '\n') = u
  := by
  rw [List.takeWhile_eq_self_iff]
  intro d hd
  rw [bne_iff_ne]
  rintro rfl
  apply h hd

theorem indentation_of_not_mem (h : '\n' ∉ u) :
  indentation u = u
  := by
  rw [indentation, takeWhile_of_not_mem, List.reverse_reverse]
  rwa [List.mem_reverse]

/-- A text without a line feed stands at the start of the first line. -/
theorem exists_splitOn_append (hu : '\n' ∉ u) (v : List Char) :
  ∃ line rest, (u ++ v).splitOn '\n' = (u ++ line) :: rest
  := by
  induction u with
  | nil => apply List.exists_cons_of_ne_nil (List.splitOn_ne_nil _ _)
  | cons d u ih =>
      rw [List.mem_cons, not_or] at hu
      obtain ⟨line, rest, hsplit⟩ := ih hu.2
      use line, rest
      rw [List.cons_append, List.splitOn_cons_eq_if_modifyHead, if_neg (by simp [Ne.symm hu.1]),
        hsplit]
      rfl

/-- The first line that is not blank has the indentation of the margin in front of it. -/
theorem exists_find?_splitOn {u : List Char} (hu : isBlank u) (hc : isWhitespace c = false)
    (v : List Char) :
  ∃ line, ((u ++ c :: v).splitOn '\n').find? (!isBlank ·) = some line ∧
    line.takeWhile isWhitespace = indentation u
  := by
  by_cases hfeed : '\n' ∈ u
  · obtain ⟨first, rest, rfl, hfirst⟩ := List.eq_append_cons_of_mem hfeed
    rw [isBlank, List.all_append, List.all_cons, Bool.and_eq_true, Bool.and_eq_true] at hu
    obtain ⟨line, hline, hmargin⟩ := exists_find?_splitOn (u := rest) hu.2.2 hc v
    use line
    constructor
    · rw [List.append_assoc, List.cons_append, List.splitOn_append_cons_self_of_not_mem hfirst,
        List.find?_cons_of_neg (by simp [isBlank, hu.1]), hline]
    · rw [hmargin, indentation_append_feed]
  · have hfeed' : '\n' ∉ u ++ [c] := by
      rw [List.mem_append, List.mem_singleton, not_or]
      use hfeed
      rintro rfl
      cases hc
    obtain ⟨line, rest, hsplit⟩ := exists_splitOn_append hfeed' v
    simp only [List.append_assoc, List.singleton_append] at hsplit
    use u ++ c :: line
    constructor
    · rw [hsplit, List.find?_cons_of_pos (by simp [isBlank, hc])]
    · rw [takeWhile_append_cons hc, List.takeWhile_eq_self_iff.mpr (List.all_eq_true.mp hu),
        indentation_of_not_mem hfeed]
termination_by u.length

/-- A text that is not blank is a margin and what starts behind it. -/
theorem exists_margin (h : ¬ isBlank w) :
  ∃ u c v, w = u ++ c :: v ∧ isBlank u ∧ isWhitespace c = false
  := by
  induction w with
  | nil => apply absurd rfl h
  | cons d w ih =>
      by_cases hd : isWhitespace d
      · rw [isBlank, List.all_cons, hd, Bool.true_and] at h
        obtain ⟨u, c, v, rfl, hu, hc⟩ := ih h
        use d :: u, c, v, rfl
        rw [isBlank, List.all_cons, hd, Bool.true_and]
        use hu
      · use [], d, w, rfl, rfl
        rwa [Bool.not_eq_true] at hd

theorem checkedWithDeclaration_eq (declaration lineEnd statements : List Char) :
  (checkedWithDeclaration declaration lineEnd statements : Checked ε _) =
    .ok (withDeclaration declaration lineEnd statements)
  := by
  rw [checkedWithDeclaration, withDeclaration]
  split
  case isTrue => rfl
  case isFalse hblank =>
    obtain ⟨u, c, v, rfl, hu, hc⟩ := exists_margin hblank
    rw [takeWhile_append_cons hc, List.takeWhile_eq_self_iff.mpr (List.all_eq_true.mp hu)]
    by_cases hfeed : '\n' ∈ u
    · obtain ⟨first, rest, rfl, hfirst⟩ := List.eq_append_cons_of_mem hfeed
      rw [isBlank, List.all_append, List.all_cons, Bool.and_eq_true, Bool.and_eq_true] at hu
      obtain ⟨line, hline, hmargin⟩ := exists_find?_splitOn hu.2.2 hc v
      have htext : first ++ '\n' :: rest ++ c :: v = first ++ '\n' :: (rest ++ c :: v) := by
        rw [List.append_assoc, List.cons_append]
      have hstart : (first ++ '\n' :: (rest ++ c :: v)).takeWhile (· != '\n') = first := by
        rw [takeWhile_append_cons (by decide), takeWhile_of_not_mem hfirst]
      rw [htext, hstart, List.splitOn_append_cons_self_of_not_mem hfirst, List.tail_cons, hline]
      rw [if_pos (by simp [isBlank, hu.1]), if_pos (by simp)]
      dsimp only
      rw [hmargin, indentation_append_feed]
    · have hstart : ¬ isBlank ((u ++ c :: v).takeWhile (· != '\n')) := by
        rw [List.takeWhile_append_of_pos, List.takeWhile_cons_of_pos]
        · simp [isBlank, hc]
        · rw [bne_iff_ne]
          rintro rfl
          cases hc
        · intro d hd
          rw [bne_iff_ne]
          rintro rfl
          apply hfeed hd
      rw [if_neg (by simp [hstart]), if_neg (by simpa using hfeed)]

/-! ### Expansions -/

/-- The last of some trees. -/
def checkedLast (trees : List TokenTree) : Checked ε TokenTree :=
  match trees.getLast? with
  | some last => .ok last
  | none => slip .emptyRun

namespace Expansion

/-- The offset at which the statements of a body start: after its inner attributes, or after its
opening brace. -/
def checkedStart (body : Group) : Checked ε Nat := do
  let (inner, _) ← checkedSplit body.trees
  if inner.isEmpty then return body.opening.stop
  let last ← checkedLast inner
  return last.span.stop

theorem checkedStart_eq {body : Group} (h : AreTold body.trees) :
  (checkedStart body : Checked ε _) = .ok (statementsStart body)
  := by
  apply ok_bind_eq (checkedSplit_eq h)
  rw [statementsStart]
  dsimp only
  rcases List.eq_nil_or_concat (splitInnerAttributes body.trees).1 with hinner | ⟨r, last, hinner⟩
  · rw [hinner]
    rfl
  · have hlast : (splitInnerAttributes body.trees).1.getLast? = some last := by simp [hinner]
    rw [if_neg (by simp [hinner]), checkedLast, hlast]
    rfl

/-- The trees of the body in which edits may stand. -/
def checkedOpenTrees (x : Expansion) : Checked ε (List TokenTree) :=
  match x.item.body?, x.declaration with
  | none, _ => .ok []
  | some body, none => .ok body.trees
  | some body, some _ => do
    let (_, statements) ← checkedSplit body.trees
    return statements

/-- The text of the inside of the body, with edits applied. -/
def checkedBodyText (source : List Char) (edits : List Edit) (x : Expansion) (body : Group) :
    Checked ε (List Char) :=
  let start := body.opening.stop
  let stop := body.closing.start
  match x.declaration with
  | none => .ok (splice source start stop edits)
  | some declaration => do
    let first ← checkedStart body
    let lineEnd := if hasCarriageReturns (slice source start stop) then ['\r', '\n'] else ['\n']
    let statements ← checkedWithDeclaration (declaration.textIn source) lineEnd
      (splice source first stop edits)
    return slice source start first ++ statements

/-- The text from the offset `tail` to the end of an item, with edits applied inside its body. -/
def checkedEndingText (source : List Char) (edits : List Edit) (x : Expansion) (tail : Nat) :
    Checked ε (List Char) :=
  match x.item.ending with
  | .semicolon mark => .ok (slice source tail mark.span.stop)
  | .body body => do
    let inside ← checkedBodyText source edits x body
    return slice source tail body.opening.stop ++ inside ++
      slice source body.closing.start body.closing.stop

/-- The text of an expanded item, with edits applied inside its body. -/
def checkedTextWith (source : List Char) (edits : List Edit) (x : Expansion) :
    Checked ε (List Char) := do
  let head := x.item.params.group.closing.stop
  let (returns, tail) := returnText source x head
  return slice source x.item.span.start head ++ returns ++ (← checkedEndingText source edits x tail)

section

variable {x : Expansion}

theorem checkedOpenTrees_eq (h : ∀ body ∈ x.item.body?, AreTold body.trees) :
  (x.checkedOpenTrees : Checked ε _) = .ok x.openTrees
  := by
  rw [checkedOpenTrees, openTrees]
  cases hbody : x.item.body? with
  | none => rfl
  | some body =>
      cases x.declaration with
      | none => rfl
      | some declaration => apply ok_bind_eq (checkedSplit_eq (h body hbody)) rfl

theorem checkedBodyText_eq {body : Group} (h : AreTold body.trees) (source : List Char)
    (edits : List Edit) :
  (x.checkedBodyText source edits body : Checked ε _) = .ok (x.bodyText source edits body)
  := by
  rw [checkedBodyText, bodyText]
  cases x.declaration with
  | none => rfl
  | some declaration =>
      apply ok_bind_eq (checkedStart_eq h)
      apply ok_bind_eq (checkedWithDeclaration_eq _ _ _)
      rfl

theorem checkedTextWith_eq (h : ∀ body ∈ x.item.body?, AreTold body.trees) (source : List Char)
    (edits : List Edit) :
  (x.checkedTextWith source edits : Checked ε _) = .ok (x.textWith source edits)
  := by
  rw [FunctionItem.body?] at h
  rw [checkedTextWith, textWith]
  dsimp only
  rw [checkedEndingText]
  cases hending : x.item.ending with
  | semicolon mark => rfl
  | body body =>
      rw [hending] at h
      dsimp only
      rw [checkedBodyText_eq (h body rfl)]
      rfl

end

end Expansion

end ReturnCaptures
