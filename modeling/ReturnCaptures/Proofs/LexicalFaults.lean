import ReturnCaptures.Proofs.LinesAndColumns

/-!
# Where lexical faults are reported

The diagnostic of a fault names the line and the column at which the faulty piece of text starts.
Its offsets are those of the same place only for a character that starts no token. For a literal or
comment without an end they lie behind what was read of it, so that line, column and offset never
agree, and where the text ends there, the offsets lie past its end.
-/

namespace ReturnCaptures

open Scan

/-- A span of characters of a text that tells the line and the column of the first of them. -/
structure Span.PointsAt (s : Span) (text : List Char) : Prop where
  start_lt : s.start < s.stop
  stop_le : s.stop ≤ text.length
  startLine : s.startLine = lineAt text s.start
  startColumn : s.startColumn = columnAt text s.start

section Offsets

variable {text u v : List Char} {m n : Nat}

/-- Of two texts of which one goes on the other, the longer one has another column at its end, or
more lines. -/
theorem eq_nil_of_rtakeWhile (hcount : (u ++ v).count '\n' = u.count '\n')
    (hlength : ((u ++ v).rtakeWhile (· != '\n')).length = (u.rtakeWhile (· != '\n')).length) :
  v = []
  := by
  have hnone : '\n' ∉ v := by
    rw [← List.count_eq_zero]
    rw [List.count_append] at hcount
    omega
  have hv : ∀ c ∈ v.reverse, (c != '\n') = true := by
    intro c hc
    rw [bne_iff_ne]
    rintro rfl
    exact hnone (List.mem_reverse.mp hc)
  rw [List.rtakeWhile, List.reverse_append, List.takeWhile_append_of_pos hv] at hlength
  simp only [List.rtakeWhile, List.length_reverse, List.length_append] at hlength
  apply List.eq_nil_of_length_eq_zero
  omega

/-- The line and the column tell the offset. -/
theorem eq_of_lineAt_of_columnAt (hmn : m ≤ n) (hn : n ≤ text.length)
    (hline : lineAt text m = lineAt text n) (hcolumn : columnAt text m = columnAt text n) :
  m = n
  := by
  have hsplit : text.take n = text.take m ++ slice text m n := by
    simpa [slice] using (slice_append_slice (u := text) (Nat.zero_le m) hmn).symm
  rw [lineAt, lineAt, hsplit] at hline
  rw [columnAt, columnAt, hsplit] at hcolumn
  have hnil : slice text m n = [] :=
    eq_nil_of_rtakeWhile (Nat.add_right_cancel hline).symm (Nat.add_right_cancel hcolumn).symm
  rw [hnil, List.append_nil] at hsplit
  have hlength := congrArg List.length hsplit
  rw [List.length_take, List.length_take] at hlength
  omega

end Offsets

/-! ### Faults of a text -/

section Faults

variable {file : String} {text : List Char} {rejection : Rejection} {d : Diagnostic}

/-- A placed piece stands behind the text of the pieces in front of it. -/
theorem exists_of_mem_placedFrom {p : Position} {ps : List Piece} {q : PlacedPiece}
    (h : q ∈ placedFrom p ps) :
  ∃ us vs, ps = us ++ q.piece :: vs ∧ q.first = p.after (textOf us) ∧
    q.last = p.after (textOf us ++ q.piece.text)
  := by
  induction ps generalizing p with
  | nil => cases h
  | cons r ps ih =>
      rcases List.mem_cons.mp h with rfl | h
      · exact ⟨[], ps, rfl, rfl, rfl⟩
      · obtain ⟨us, vs, rfl, hfirst, hlast⟩ := ih h
        use r :: us, vs, rfl
        rw [textOf_cons, List.append_assoc, Position.after_append, Position.after_append p]
        exact ⟨hfirst, hlast⟩

/-- Whether a fault is a character that starts no token. -/
def LexicalFault.isUnexpected : LexicalFault → Bool
  | unexpected _ => true
  | _ => false

/-- A fault is reported on the line and in the column where it starts. The offset is that of the
same place only for a character that starts no token. -/
theorem LexicalFault.span_eq (cause : LexicalFault) (file : String) (first last : Position) :
  ∃ offset, offset = (if cause.isUnexpected then first.offset else last.offset) ∧
    cause.span file first last =
      ⟨file, first.line, first.column, first.line, first.column, offset, offset + 1⟩
  := by
  cases cause with
  | unexpected c => exact ⟨first.offset, rfl, rfl⟩
  | _ => exact ⟨last.offset, rfl, rfl⟩

/-- The message tells whether a fault is a character that starts no token. -/
theorem LexicalFault.isUnexpected_iff (cause : LexicalFault) :
  cause.isUnexpected ↔ ∃ c, cause.message = (unexpected c).message
  := by
  -- The messages part at their third letter: `unexpected` and `unterminated`.
  have hletter (c : Char) : (unexpected c).message.toList[2]? = some 'e' := by
    have hmessage : (unexpected c).message = "unexpected character: " ++ Quoted.encode [c] := rfl
    rw [hmessage, String.toList_append]
    rfl
  cases cause with
  | unexpected c => exact iff_of_true rfl ⟨c, rfl⟩
  | _ =>
      apply iff_of_false Bool.false_ne_true
      rintro ⟨c, hc⟩
      have hother := hletter c
      rw [← hc] at hother
      revert hother
      decide

/-- Every diagnostic of a text that cannot be cut into tokens is that of a fault, whose text starts
at some offset. -/
theorem exists_fault_of_mem (h : tokensOf file text = .error rejection) (hd : d ∈ rejection) :
  ∃ before piece after cause, text = before ++ (piece ++ after) ∧ piece ≠ [] ∧
    d = .located .lexical (LexicalFault.message cause)
      (cause.span file (Position.origin.after before)
        (Position.origin.after (before ++ piece))) "" []
  := by
  have hrejection : (placed text).filterMap (·.diagnostic? file) = rejection := by
    rw [tokensOf] at h
    split at h
    · cases h
    · cases h
      rfl
  rw [← hrejection] at hd
  obtain ⟨q, hq, hdiagnostic⟩ := List.mem_filterMap.mp hd
  obtain ⟨us, vs, hpieces, hfirst, hlast⟩ := exists_of_mem_placedFrom hq
  rw [PlacedPiece.diagnostic?] at hdiagnostic
  split at hdiagnostic
  case h_2 => cases hdiagnostic
  case h_1 cause hreading =>
    rw [hfirst, hlast] at hdiagnostic
    use textOf us, q.piece.text, textOf vs, cause
    constructor
    · rw [← textOf_cons, ← textOf_append, ← hpieces, textOf_pieces]
    · use text_ne_nil (cuts_pieces text) _ (by simp [hpieces])
      exact (Option.some.inj hdiagnostic).symm

/-- The diagnostics of a text that cannot be cut into tokens tell the line and the column at which
the fault starts. They point there, with offsets to match, exactly if the fault is a character that
starts no token; the offsets of all other faults lie behind that place, and possibly past the end of
the text. -/
theorem pointsAt_of_tokensOf_iff (h : tokensOf file text = .error rejection) (hd : d ∈ rejection) :
  ∃ label fault, d.labels = [label] ∧ fault < text.length ∧
    label.span.startLine = lineAt text fault ∧ label.span.startColumn = columnAt text fault ∧
    fault ≤ label.span.start ∧ label.span.start ≤ text.length ∧
    label.span.stop = label.span.start + 1 ∧
    (label.span.PointsAt text ↔ ∃ c, d.message = (LexicalFault.unexpected c).message)
  := by
  obtain ⟨before, piece, after, cause, htext, hpiece, rfl⟩ := exists_fault_of_mem h hd
  have hpos := List.length_pos_iff.mpr hpiece
  have hlength : text.length = before.length + (piece.length + after.length) := by simp [htext]
  obtain ⟨offset, hoffset, hspan⟩ := cause.span_eq file (Position.origin.after before)
    (Position.origin.after (before ++ piece))
  have hfirst := after_origin_append before (piece ++ after)
  rw [← htext] at hfirst
  rw [after_origin (before ++ piece), hfirst, List.length_append] at hoffset
  dsimp only at hoffset
  refine ⟨_, before.length, rfl, ?_⟩
  rw [Diagnostic.located, ← LexicalFault.isUnexpected_iff, hspan, hfirst]
  dsimp only
  cases hcause : cause.isUnexpected with
  | true =>
      rw [hcause, if_pos rfl] at hoffset
      subst hoffset
      refine ⟨by omega, rfl, rfl, Nat.le_refl _, by omega, rfl, ?_⟩
      apply iff_of_true _ rfl
      exact ⟨Nat.lt_succ_self _, by dsimp only; omega, rfl, rfl⟩
  | false =>
      rw [hcause, if_neg Bool.false_ne_true] at hoffset
      refine ⟨by omega, rfl, rfl, by omega, by omega, rfl, ?_⟩
      apply iff_of_false _ Bool.false_ne_true
      rintro ⟨-, hstop, hline, hcolumn⟩
      dsimp only at hstop hline hcolumn
      have heq := eq_of_lineAt_of_columnAt (by omega) (by omega) hline hcolumn
      omega

/-- The first character that starts no token is pointed at, the string without an end is not. -/
theorem pointsAt_of_tokensOf_unexpected :
  ∃ rejection d label, tokensOf "f.rs" "a\n § \"b".toList = .error rejection ∧ d ∈ rejection ∧
    d.message = (LexicalFault.unexpected '§').message ∧ d.labels = [label] ∧
    label.span.PointsAt "a\n § \"b".toList
  := by
  have hfaults : tokensOf "f.rs" "a\n § \"b".toList = .error
      [.located .lexical "unexpected character: '§'" ⟨"f.rs", 2, 2, 2, 2, 3, 4⟩ "" [],
        .located .lexical "unterminated string literal" ⟨"f.rs", 2, 4, 2, 4, 7, 8⟩ "" []] := by
    decide +kernel
  have hmessage : "unexpected character: '§'" = (LexicalFault.unexpected '§').message := by
    decide +kernel
  obtain ⟨label, _, hlabel, _, _, _, _, _, _, hpoints⟩ :=
    pointsAt_of_tokensOf_iff hfaults (List.mem_cons_self ..)
  exact ⟨_, _, label, hfaults, List.mem_cons_self .., hmessage, hlabel, hpoints.mpr ⟨'§', hmessage⟩⟩

/-- A string without an end is blamed on a character past the end of the text. -/
theorem not_pointsAt_of_tokensOf_unterminated :
  ∃ rejection, tokensOf "f.rs" "\"b".toList = .error rejection ∧
    ¬ ∀ d ∈ rejection, ∀ label ∈ d.labels, label.span.PointsAt "\"b".toList
  := by
  have hfaults : tokensOf "f.rs" "\"b".toList = .error
      [.located .lexical "unterminated string literal" ⟨"f.rs", 1, 1, 1, 1, 2, 3⟩ "" []] := by
    decide +kernel
  refine ⟨_, hfaults, ?_⟩
  intro hall
  have hpoints := hall _ (List.mem_cons_self ..) _ (List.mem_cons_self ..)
  have hstop := hpoints.stop_le
  revert hstop
  decide

end Faults

end ReturnCaptures
