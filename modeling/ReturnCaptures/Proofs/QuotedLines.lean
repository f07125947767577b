import ReturnCaptures.Diagnostic.Report
import ReturnCaptures.Proofs.BlamedCalls
import ReturnCaptures.Proofs.LexicalFaults

/-!
# The lines that are shown

A report shows a line of the text beside the number of the line at which a label starts. The numbers
count line feeds, but a text that is shown is broken at other characters, too. Up to a given number
the lines that are shown are those that the number counts exactly if the text is broken nowhere but
at the ends of lines. Then the carets below a line stand under the characters of the label.
-/

namespace ReturnCaptures

open Scan TokenTree

/-! ### Lines that line feeds end -/

/-- The characters `line` are the `n`th line of a text, counted by its line feeds, and start at
offset `k`. What ends the line is left out. -/
structure IsLine (text : List Char) (n k : Nat) (line : List Char) : Prop where
  exists_split : ∃ before after, text = before ++ (line ++ after) ∧ before.length = k ∧
    LineRest line after
  lineAt_eq : lineAt text k = n
  columnAt_eq : columnAt text k = 1

/-- Whether the first `n` lines of a text are broken nowhere but at their ends when they are
shown. -/
def breaksAtLineEnds : Nat → List Char → Bool
  | 0, _ => true
  | _, [] => true
  | n + 1, c :: text =>
    (!isLineBreak c || lineLength (c :: text) == 0) &&
      breaksAtLineEnds (if c = '\n' then n else n + 1) text

/-- What ends the first line of a text that is shown, and the text behind it: a line feed, perhaps
with a carriage return in front of it, or another character that does not end a line, or the end of
the text. -/
inductive ShownEnd : List Char → List Char → Prop
  | none : ShownEnd [] []
  | feed {after : List Char} : ShownEnd ('\n' :: after) after
  | returned {after : List Char} : ShownEnd ('\r' :: '\n' :: after) after
  | other {c : Char} {after : List Char} :
      isLineBreak c → ¬ AtLineEnd (c :: after) → ShownEnd (c :: after) after

section Lines

variable {text q line tail after : List Char} {n k o : Nat} {c : Char}

/-- The first line of a text that is shown, and what ends it. -/
theorem exists_of_lines (h : text ≠ []) :
  ∃ line tail after, text = line ++ tail ∧ ShownEnd tail after ∧
    (∀ c ∈ line, isLineBreak c = false) ∧ lines text = line :: lines after
  := by
  fun_induction lines text with
  | case1 => exact absurd rfl h
  | case2 text ih => exact ⟨[], _, text, rfl, .returned, by simp, rfl⟩
  | case3 c text hreturn hbreak ih =>
      refine ⟨[], _, text, rfl, ?_, by simp, rfl⟩
      by_cases hc : c = '\n'
      · subst hc
        exact .feed
      · apply ShownEnd.other hbreak
        rintro (hnil | hfeed | ⟨rest, hrest⟩)
        · cases hnil
        · exact hc (Option.some.inj hfeed)
        · obtain ⟨rfl, rfl⟩ := List.cons_eq_cons.mp hrest
          exact hreturn rest rfl rfl
  | case4 c text _ hbreak hnone ih =>
      obtain rfl : text = [] := by
        by_contra hne
        obtain ⟨_, _, _, _, _, _, hlines⟩ := ih hne
        rw [hnone] at hlines
        cases hlines
      exact ⟨[c], [], [], rfl, .none, by simpa using hbreak, rfl⟩
  | case5 c text _ hbreak line rest hsome ih =>
      have hne : text ≠ [] := by
        rintro rfl
        cases hsome
      obtain ⟨line', tail, after, rfl, hend, hline, hlines⟩ := ih hne
      rw [hsome] at hlines
      obtain ⟨rfl, rfl⟩ := List.cons_eq_cons.mp hlines
      refine ⟨c :: line, tail, after, rfl, hend, ?_, rfl⟩
      exact List.forall_mem_cons.mpr ⟨by simpa using hbreak, hline⟩

theorem breaksAtLineEnds_append (h : ∀ c ∈ line, isLineBreak c = false) :
  breaksAtLineEnds (n + 1) (line ++ tail) = breaksAtLineEnds (n + 1) tail
  := by
  induction line with
  | nil => rfl
  | cons c line ih =>
      obtain ⟨hc, hline⟩ := List.forall_mem_cons.mp h
      have hfeed : c ≠ '\n' := by
        rintro rfl
        cases hc
      rw [List.cons_append, breaksAtLineEnds, hc, if_neg hfeed, ih hline]
      rfl

theorem isLine_first (h : LineRest line tail) :
  IsLine (line ++ tail) 1 0 line
  := ⟨⟨[], tail, rfl, rfl, h⟩, rfl, rfl⟩

theorem take_append_feed (q text : List Char) (k : Nat) :
  (q ++ '\n' :: text).take (q.length + 1 + k) = q ++ '\n' :: text.take k
  := by
  rw [Nat.add_assoc, List.take_length_add_append, Nat.add_comm, List.take_succ_cons]

/-- A line feed starts a new count of columns. -/
theorem rtakeWhile_append_feed (q u : List Char) :
  (q ++ '\n' :: u).rtakeWhile (· != '\n') = u.rtakeWhile (· != '\n')
  := by
  induction u using List.reverseRecOn with
  | nil => rw [List.rtakeWhile_concat_neg _ _ _ (by simp), List.rtakeWhile_nil]
  | append_singleton u c ih =>
      rw [← List.cons_append, ← List.append_assoc]
      by_cases hc : (c != '\n') = true
      · rw [List.rtakeWhile_concat_pos (· != '\n') _ _ hc,
          List.rtakeWhile_concat_pos (· != '\n') _ _ hc, ih]
      · rw [List.rtakeWhile_concat_neg (· != '\n') _ _ hc,
          List.rtakeWhile_concat_neg (· != '\n') _ _ hc]

theorem lineAt_append_feed (hq : '\n' ∉ q) (k : Nat) :
  lineAt (q ++ '\n' :: text) (q.length + 1 + k) = lineAt text k + 1
  := by
  rw [lineAt, lineAt, take_append_feed, List.count_append, List.count_eq_zero.mpr hq,
    List.count_cons_self, Nat.zero_add]

theorem columnAt_append_feed (q text : List Char) (k : Nat) :
  columnAt (q ++ '\n' :: text) (q.length + 1 + k) = columnAt text k
  := by
  rw [columnAt, columnAt, take_append_feed, rtakeWhile_append_feed]

/-- The lines behind the first one are those of the text behind its line feed. -/
theorem exists_isLine_append_feed (hq : '\n' ∉ q) (hn : n ≠ 0) :
  (∃ k, IsLine (q ++ '\n' :: text) (n + 1) k line) ↔ ∃ k, IsLine text n k line
  := by
  constructor
  · rintro ⟨_, ⟨before, after, htext, rfl, hline⟩, hlineAt, hcolumnAt⟩
    have hfeed : '\n' ∈ before := by
      rw [← List.one_le_count_iff]
      rw [lineAt, htext, List.take_left] at hlineAt
      omega
    rcases List.append_eq_append_iff.mp htext with ⟨u, rfl, hu⟩ | ⟨u, rfl, -⟩
    · cases u with
      | nil => simp [hq] at hfeed
      | cons c u =>
          obtain ⟨rfl, rfl⟩ := List.cons_eq_cons.mp hu
          have hlength : (q ++ '\n' :: u).length = q.length + 1 + u.length := by
            rw [List.length_append, List.length_cons]
            omega
          rw [hlength, lineAt_append_feed hq] at hlineAt
          rw [hlength, columnAt_append_feed] at hcolumnAt
          exact ⟨u.length, ⟨u, after, rfl, rfl, hline⟩, by omega, hcolumnAt⟩
    · exact absurd (List.mem_append_left _ hfeed) hq
  · rintro ⟨_, ⟨before, after, rfl, rfl, hline⟩, hlineAt, hcolumnAt⟩
    refine ⟨q.length + 1 + before.length, ⟨q ++ '\n' :: before, after, by simp, ?_, hline⟩, ?_, ?_⟩
    · rw [List.length_append, List.length_cons]
      omega
    · rw [lineAt_append_feed hq, hlineAt]
    · rw [columnAt_append_feed, hcolumnAt]

/-- A line without a character that breaks it ends where the text is at the end of a line. -/
theorem lineRest_of_not_break (h : ∀ c ∈ line, isLineBreak c = false) (ht : AtLineEnd tail) :
  LineRest line tail
  := by
  refine ⟨ht, ?_⟩
  rintro u (_ | ⟨c, v⟩) rfl hv hend
  · exact hv rfl
  · have hc : isLineBreak c = false := h c (by simp)
    rcases hend with hnil | hfeed | ⟨rest, hrest⟩
    · cases hnil
    · cases Option.some.inj hfeed
      cases hc
    · cases (List.cons_eq_cons.mp hrest).1
      cases hc

theorem breaksAtLineEnds_feed :
  breaksAtLineEnds (n + 1) ('\n' :: text) = breaksAtLineEnds n text
  := by
  rw [breaksAtLineEnds, if_pos rfl, lineLength]
  rfl

/-- The first line starts at the start of the text. -/
theorem IsLine.offset_first (h : IsLine text 1 k line) :
  k = 0
  := by
  obtain ⟨⟨before, after, htext, rfl, -⟩, hlineAt, hcolumnAt⟩ := h
  have hle : before.length ≤ text.length := by simp [htext]
  exact (eq_of_lineAt_of_columnAt (Nat.zero_le _) hle hlineAt.symm hcolumnAt.symm).symm

/-- Up to the `n`th, the lines of a text that are shown are those that its line feeds end, exactly
if the text is broken nowhere else up to there. -/
theorem isLine_of_lines_iff :
  (∀ m line, m < n → (lines text)[m]? = some line → ∃ k, IsLine text (m + 1) k line) ↔
    breaksAtLineEnds n text
  := by
  induction n generalizing text with
  | zero =>
      exact iff_of_true (fun _ _ hm => absurd hm (Nat.not_lt_zero _)) (by rw [breaksAtLineEnds])
  | succ n ih =>
      by_cases hnil : text = []
      · subst hnil
        exact iff_of_true (fun _ _ _ hline => by cases hline) rfl
      obtain ⟨line, tail, after, rfl, hend, hbreak, hlines⟩ := exists_of_lines hnil
      rw [breaksAtLineEnds_append hbreak, hlines]
      have hfirst (ht : AtLineEnd tail) : IsLine (line ++ tail) 1 0 line :=
        isLine_first (lineRest_of_not_break hbreak ht)
      -- A line feed ends the first line. What is shown behind it is shown of the text behind it.
      have hstep {q : List Char} (ht : AtLineEnd tail) (hq : '\n' ∉ q)
          (htext : line ++ tail = q ++ '\n' :: after) :
          (∀ m line', m < n + 1 → (line :: lines after)[m]? = some line' →
            ∃ k, IsLine (line ++ tail) (m + 1) k line') ↔ breaksAtLineEnds n after := by
        rw [← ih]
        constructor
        · intro h m line' hm hline
          apply (exists_isLine_append_feed hq (Nat.succ_ne_zero m)).mp
          rw [← htext]
          exact h (m + 1) line' (by omega) hline
        · rintro h (_ | m) line' hm hline
          · cases hline
            exact ⟨0, hfirst ht⟩
          · rw [htext]
            apply (exists_isLine_append_feed hq (Nat.succ_ne_zero m)).mpr
            exact h m line' (by omega) hline
      have hfeed : '\n' ∉ line := fun hmem => by cases hbreak _ hmem
      cases hend with
      | none =>
          apply iff_of_true _ rfl
          rintro (_ | m) line' - hline
          · cases hline
            exact ⟨0, hfirst (.inl rfl)⟩
          · cases hline
      | feed =>
          rw [breaksAtLineEnds_feed]
          exact hstep (.inr (.inl rfl)) hfeed rfl
      | returned =>
          rw [breaksAtLineEnds, if_neg (by decide), breaksAtLineEnds_feed, lineLength]
          apply hstep (.inr (.inr ⟨after, rfl⟩)) (q := line ++ ['\r'])
          · simp [hfeed]
          · simp
      | @other c _ hc hend =>
          apply iff_of_false
          · intro h
            obtain ⟨k, hk⟩ := h 0 line (Nat.succ_pos n) rfl
            cases hk.offset_first
            obtain ⟨⟨before, after', htext, hbefore, hrest⟩, -, -⟩ := hk
            obtain rfl := List.length_eq_zero_iff.mp hbefore
            rw [List.nil_append, List.append_cancel_left_eq] at htext
            rw [htext] at hend
            exact hend hrest.atEnd
          · rw [← lineLength_eq_zero_iff] at hend
            simp [breaksAtLineEnds, hc, hend]

/-- A line starts as many characters in front of one of its own as the column of that one tells. -/
theorem IsLine.offset_eq (h : IsLine text n k line) (ho : o ≤ text.length)
    (hn : lineAt text o = n) :
  k + columnAt text o = o + 1
  := by
  obtain ⟨⟨before, after, htext, rfl, -⟩, hlineAt, hcolumnAt⟩ := h
  have hbefore : before.length ≤ text.length := by simp [htext]
  -- The text up to `o` is one that ends in a line feed, and more characters of the same line.
  have hsplit : (text.take o).rdropWhile (· != '\n') ++ (text.take o).rtakeWhile (· != '\n') =
    text.take o := List.rdropWhile_append_rtakeWhile
  have hlast := List.rdropWhile_last_not (· != '\n') (text.take o)
  have hcolumn : columnAt text o = ((text.take o).rtakeWhile (· != '\n')).length + 1 := rfl
  have hnone : '\n' ∉ (text.take o).rtakeWhile (· != '\n') :=
    fun hmem => absurd (List.mem_rtakeWhile_imp hmem) (by simp)
  generalize (text.take o).rdropWhile (· != '\n') = u, (text.take o).rtakeWhile (· != '\n') = v
    at hsplit hlast hcolumn hnone
  have hlength := congrArg List.length hsplit
  rw [List.length_append, List.length_take, Nat.min_eq_left ho] at hlength
  have htake : text.take u.length = u :=
    calc text.take u.length = (text.take o).take u.length := by
          rw [List.take_take, Nat.min_eq_left (by omega)]
      _ = u := by rw [← hsplit, List.take_left]
  have hlineu : lineAt text u.length = lineAt text o := by
    rw [lineAt, lineAt, htake, ← hsplit, List.count_append, List.count_eq_zero.mpr hnone,
      Nat.add_zero]
  have hcolumnu : columnAt text u.length = 1 := by
    rw [columnAt, htake, List.rtakeWhile_eq_nil_iff.mpr hlast]
    rfl
  have hline : lineAt text before.length = lineAt text u.length := by rw [hlineAt, hlineu, hn]
  have hsame : columnAt text before.length = columnAt text u.length := by rw [hcolumnAt, hcolumnu]
  have hoffset : before.length = u.length := by
    rcases Nat.le_total before.length u.length with hle | hle
    · exact eq_of_lineAt_of_columnAt hle (by omega) hline hsame
    · exact (eq_of_lineAt_of_columnAt hle hbefore hline.symm hsame.symm).symm
  omega

end Lines

/-! ### Labels -/

/-- The carets that are written below a line which starts at offset `k` stand under the characters
of a span: as many blanks are written in front of them as there are characters of the line in front
of the span, and as many carets as the span has characters, if it has any and they are on one
line. -/
structure Span.CaretsBelow (s : Span) (k : Nat) : Prop where
  le_start : k ≤ s.start
  blanks : s.startColumn - 1 = s.start - k
  carets : s.start < s.stop → s.startLine = s.endLine →
    max 1 (s.endColumn + 1 - s.startColumn) = s.stop - s.start

section Labels

variable {file file' : String} {text : List Char} {tokens : List Token} {rejection : Rejection}
  {markers : Markers} {before before' : List String} {d : Diagnostic} {label : Label} {s : Span}
  {n k : Nat}

theorem IsLine.caretsBelow {line : List Char} (h : IsLine text s.startLine k line)
    (hs : s.LiesIn text) :
  s.CaretsBelow k
  := by
  have hle := hs.start_le
  have hstop := hs.stop_le
  have hcolumn : 1 ≤ columnAt text s.start := Nat.succ_pos _
  have hstart := h.offset_eq (by omega) hs.startLine.symm
  have hstartColumn := hs.startColumn
  refine ⟨by omega, by omega, ?_⟩
  intro hlt hone
  have hend := h.offset_eq (o := s.stop - 1) (by omega) (by rw [hone, hs.endLine hlt])
  rw [← hs.endColumn hlt] at hend
  omega

/-- Where a character starts no token, its diagnostic has the span of that character. -/
theorem liesIn_of_unexpected (h : tokensOf file text = .error rejection) (hd : d ∈ rejection)
    (hmessage : ∃ c, d.message = (LexicalFault.unexpected c).message) (hlabel : label ∈ d.labels) :
  label.span.LiesIn text
  := by
  obtain ⟨before, piece, after, cause, rfl, hpiece, rfl⟩ := exists_fault_of_mem h hd
  have hpos := List.length_pos_iff.mpr hpiece
  obtain ⟨offset, hoffset, hspan⟩ := cause.span_eq file (Position.origin.after before)
    (Position.origin.after (before ++ piece))
  rw [if_pos (cause.isUnexpected_iff.mpr hmessage)] at hoffset
  rw [List.mem_singleton.mp hlabel, hspan, hoffset, after_origin_append before (piece ++ after)]
  constructor
  · exact Nat.le_succ _
  · simp only [List.length_append]
    omega
  · rfl
  · rfl
  · exact fun _ => rfl
  · exact fun _ => rfl

/-- The diagnostics of a text that is no token list are lexical. -/
theorem code_of_tokensOf (h : tokensOf file text = .error rejection) (hd : d ∈ rejection) :
  d.code = "E100"
  := by
  obtain ⟨_, _, _, _, -, -, rfl⟩ := exists_fault_of_mem h hd
  rfl

/-- The one label of a rejection is every label of every diagnostic. -/
theorem Rejection.eq_of_mem_labels {d' : Diagnostic} {label' : Label} (h : rejection = [d'])
    (hlabels : d'.labels = [label']) (hd : d ∈ rejection) (hlabel : label ∈ d.labels) :
  label = label'
  := by
  rw [h] at hd
  cases List.mem_singleton.mp hd
  rw [hlabels] at hlabel
  exact List.mem_singleton.mp hlabel

/-- The labels of a text that cannot be read into trees lie in it, but for literals and comments
without an end. -/
theorem liesIn_of_ofText_trees (h : TokenTree.ofText file text = .error rejection)
    (hd : d ∈ rejection)
    (hcode : d.code ≠ "E100" ∨ ∃ c, d.message = (LexicalFault.unexpected c).message)
    (hlabel : label ∈ d.labels) :
  label.span.LiesIn text
  := by
  rcases Outcome.bind_eq_error.mp h with h | ⟨tokens, htokens, h⟩
  · rcases hcode with hcode | hmessage
    · exact absurd (code_of_tokensOf h hd) hcode
    · exact liesIn_of_unexpected h hd hmessage hlabel
  · obtain ⟨_, _, hone, hlabels, -, -, hlies⟩ := liesIn_of_ofTokens htokens h
    rw [Rejection.eq_of_mem_labels hone hlabels hd hlabel]
    exact hlies

/-- The labels of a text that cannot be expanded lie in it, but for literals and comments without an
end. -/
theorem liesIn_of_expand {source : Source}
    (h : source.expand.run before = .error (.rejected rejection) before') (hd : d ∈ rejection)
    (hcode : d.code ≠ "E100" ∨ ∃ c, d.message = (LexicalFault.unexpected c).message)
    (hlabel : label ∈ d.labels) :
  label.span.LiesIn source.text
  := by
  rcases Source.expand_run_eq_error.mp h with ⟨_, h, ⟨⟩, -⟩ |
    ⟨trees, stop, names, htrees, hstops, -, hcause⟩
  · exact liesIn_of_ofText_trees h hd hcode hlabel
  · have htokens := (tokensOf_of_ofText htrees).1
    cases hstops.arises with
    | @called call _ t hitem hstands =>
        cases hcause
        have hgroup := (List.suffix_cons t _).isInfix.trans hstands
        have hinside := call.arguments.tokensAll_isInfix_tokens.trans hgroup
        obtain ⟨_, _, hone, hlabels, -, -, hlies⟩ :=
          FunctionItem.liesIn_of_ofTrees htokens hinside hitem
        rw [Rejection.eq_of_mem_labels hone hlabels hd hlabel]
        exact hlies
    | attributed hitem hstands =>
        cases hcause
        obtain ⟨_, _, hone, hlabels, -, -, hlies⟩ :=
          FunctionItem.liesIn_of_readAt htokens hstands hitem
        rw [Rejection.eq_of_mem_labels hone hlabels hd hlabel]
        exact hlies
    | unanswered => cases hcause

namespace Report

/-- The source line with a number is that of the lines of the text that are shown. -/
theorem lines_of_sourceLine? {color : Bool} {line : String}
    (h : (Style.ofTexts color [(file, String.ofList text)]).sourceLine? file' n = some line) :
  ∃ m, n = m + 1 ∧ (lines text)[m]? = some line.toList
  := by
  rw [Style.sourceLine?] at h
  split at h
  case isTrue => cases h
  case isFalse hn =>
    obtain ⟨m, rfl⟩ := Nat.exists_eq_succ_of_ne_zero hn
    refine ⟨m, rfl, ?_⟩
    rw [Style.ofTexts] at h
    dsimp only at h
    split at h
    case h_1 found hfound =>
      cases List.mem_singleton.mp (List.mem_of_find?_eq_some hfound)
      rw [String.toList_ofList, Nat.succ_sub_one, List.getElem?_map] at h
      obtain ⟨shown, hshown, rfl⟩ := Option.map_eq_some_iff.mp h
      rw [hshown, String.toList_ofList]
    case h_2 => cases h

/-- The line that is shown beside the number of the line at which a label of a text that was refused
starts is the one that this number counts, if the text is broken nowhere but at the ends of lines up
to there. The carets below it stand under the characters of the label, but for those of literals and
comments without an end, whose offsets do not tell where they start. -/
theorem isLine_of_sourceLine? {color : Bool} {line : String}
    (h : FunctionItem.ofText file text = .error rejection ∨ ∃ markers before before',
      (Source.mk file text markers).expand.run before = .error (.rejected rejection) before')
    (hd : d ∈ rejection) (hlabel : label ∈ d.labels)
    (hbreaks : breaksAtLineEnds label.span.startLine text)
    (hline : (Style.ofTexts color [(file, String.ofList text)]).sourceLine? label.span.file
      label.span.startLine = some line) :
  ∃ k, IsLine text label.span.startLine k line.toList ∧
    ((d.code ≠ "E100" ∨ ∃ c, d.message = (LexicalFault.unexpected c).message) →
      label.span.CaretsBelow k)
  := by
  obtain ⟨m, hm, hshown⟩ := lines_of_sourceLine? hline
  obtain ⟨k, hk⟩ := isLine_of_lines_iff.mpr hbreaks m line.toList (by omega) hshown
  rw [← hm] at hk
  refine ⟨k, hk, ?_⟩
  intro hcode
  apply hk.caretsBelow
  rcases h with h | ⟨markers, before, before', h⟩
  · rcases Outcome.bind_eq_error.mp h with h | ⟨trees, htrees, h⟩
    · exact liesIn_of_ofText_trees h hd hcode hlabel
    · obtain ⟨_, _, hone, hlabels, -, -, hlies⟩ :=
        FunctionItem.liesIn_of_ofTrees (tokensOf_of_ofText htrees).1 List.infix_rfl h
      rw [Rejection.eq_of_mem_labels hone hlabels hd hlabel]
      exact hlies
  · exact liesIn_of_expand h hd hcode hlabel

/-- A form feed behind the line that is shown does not matter, and no carriage return in front of a
line feed does. -/
theorem isLine_of_sourceLine?_returned :
  ∃ d label line k,
    FunctionItem.ofText "f.rs" "// x\r\nfn f\n\x0c".toList = .error [d] ∧ d.labels = [label] ∧
    (Style.ofTexts false [("f.rs", String.ofList "// x\r\nfn f\n\x0c".toList)]).sourceLine?
      label.span.file label.span.startLine = some line ∧
    IsLine "// x\r\nfn f\n\x0c".toList 2 k line.toList ∧ label.span.CaretsBelow k
  := by
  have herror : (FunctionItem.ofText "f.rs" "// x\r\nfn f\n\x0c".toList).map (fun _ => ()) =
      .error [⟨"E200", "expected `(`, found end of input", [⟨⟨"f.rs", 2, 5, 2, 5, 10, 10⟩, ""⟩],
        ["while parsing the parameter list"]⟩] := by
    decide +kernel
  have hitem := Outcome.map_eq_error.mp herror
  have hline :
      (Style.ofTexts false [("f.rs", String.ofList "// x\r\nfn f\n\x0c".toList)]).sourceLine?
        "f.rs" 2 = some "fn f" := by
    decide +kernel
  obtain ⟨k, hk, hcarets⟩ := isLine_of_sourceLine? (.inl hitem) (List.mem_cons_self ..)
    (List.mem_cons_self ..) (by decide +kernel) hline
  exact ⟨_, _, _, k, hitem, rfl, hline, hk, hcarets (.inl (by decide))⟩

/-- What stands behind a form feed in a comment is shown as if it were the next line. -/
theorem not_isLine_of_sourceLine?_formFeed :
  ∃ d label line,
    FunctionItem.ofText "f.rs" "// a\x0cb\nfn f".toList = .error [d] ∧ d.labels = [label] ∧
    (Style.ofTexts false [("f.rs", String.ofList "// a\x0cb\nfn f".toList)]).sourceLine?
      label.span.file label.span.startLine = some line ∧
    ¬ ∃ k, IsLine "// a\x0cb\nfn f".toList label.span.startLine k line.toList
  := by
  have herror : (FunctionItem.ofText "f.rs" "// a\x0cb\nfn f".toList).map (fun _ => ()) =
      .error [⟨"E200", "expected `(`, found end of input", [⟨⟨"f.rs", 2, 5, 2, 5, 11, 11⟩, ""⟩],
        ["while parsing the parameter list"]⟩] := by
    decide +kernel
  have hline : (Style.ofTexts false [("f.rs", String.ofList "// a\x0cb\nfn f".toList)]).sourceLine?
      "f.rs" 2 = some "b" := by
    decide +kernel
  refine ⟨_, _, _, Outcome.map_eq_error.mp herror, rfl, hline, ?_⟩
  rintro ⟨k, hk⟩
  have hoffset := hk.offset_eq (o := 7) (by decide) (by decide)
  have hcolumn : columnAt "// a\x0cb\nfn f".toList 7 = 1 := by decide
  obtain ⟨⟨before, after, htext, hbefore, -⟩, -, -⟩ := hk
  have hletter := congrArg (fun text => text[before.length]?) htext
  obtain rfl : k = 7 := by omega
  simp [hbefore] at hletter

end Report

end Labels

end ReturnCaptures
