import ReturnCaptures.Token.Scan
import Mathlib.Tactic.Common

/-!
# What a scan sees of the text after its piece

A scan that takes the characters of `w` from a text `w ++ u` looks at `u` as well, to find
that it may stop. If `v` goes on with no more than `u` does, then the scan takes the same
characters from `w ++ v`, and reads them in the same way. Only whether punctuation is joint
may differ.
-/

namespace ReturnCaptures

/-- A lexeme, no matter whether it is joint. -/
def Lexeme.plain : Lexeme → Lexeme
  | .punct symbol _ => .punct symbol false
  | l => l

@[simp]
theorem Lexeme.text_plain (l : Lexeme) :
  l.plain.text = l.text
  := by
  cases l <;> rfl

theorem Lexeme.isPunct_plain (c : Char) (l : Lexeme) :
  l.plain.isPunct c = l.isPunct c
  := by
  cases l <;> rfl

/-- A reading, no matter whether its lexeme is joint. -/
def Reading.plain : Reading → Reading
  | .lexeme l => .lexeme l.plain
  | reading => reading

/-- Whether a piece is no lexeme and no trivia. -/
def Reading.isFault : Reading → Bool
  | .fault _ => true
  | _ => false

namespace Scan

/-- Characters with which some lexeme that ends here could have gone on. -/
def isActive (c : Char) : Bool :=
  isWordChar c || ['\'', '"', '.', '#', '+', '-'].contains c

/-- The text `v` goes on a lexeme in front of it only in ways in which `u` does so too, unless
it starts with a point. -/
structure Mild (u v : List Char) : Prop where
  head : ∀ c ∈ v.head?, isActive c → c ≠ '.' → u.head? = some c
  signed : startsWith (fun c => c == '+' || c == '-') v → startsWith isDigit (v.drop 1) →
    startsWith isDigit (u.drop 1)
  hashes : (hashesBeforeQuote? v).isSome → (hashesBeforeQuote? u).isSome
  rawMark : rawMarkLength ('r' :: v) ≠ 0 → rawMarkLength ('r' :: u) ≠ 0

/-- The text `v` goes on a lexeme in front of it only in ways in which `u` does so too. -/
structure Milder (u v : List Char) : Prop extends Mild u v where
  point : v.head? = some '.' → u.head? = some '.'
  fraction : fractionLength v ≠ 0 → fractionLength u ≠ 0

/-! ### Classes of characters -/

theorem isWordChar_of_isWordStart {c : Char} (h : isWordStart c) :
  isWordChar c
  := by
  simp only [isWordStart, Bool.or_eq_true] at h
  simp only [isWordChar, isAlphanumeric, Bool.or_eq_true]
  rcases h with h | h
  · exact .inl (.inl (.inl h))
  · exact .inr h

theorem isWordChar_of_isDigit {c : Char} (h : isDigit c) :
  isWordChar c
  := by
  simp [isWordChar, isAlphanumeric, h]

theorem isWordChar_of_isDigitOrUnderscore {c : Char} (h : isDigitOrUnderscore c) :
  isWordChar c
  := by
  simp only [isDigitOrUnderscore, Bool.or_eq_true] at h
  rcases h with h | h
  · apply isWordChar_of_isDigit h
  · simp [isWordChar, h]

theorem isActive_of_isWordChar {c : Char} (h : isWordChar c) :
  isActive c
  := by
  simp [isActive, h]

section Measures

variable {p : Char → Bool} {c : Char} {u v w : List Char}

theorem startsWith_append (hw : w ≠ []) :
  startsWith p (w ++ u) = startsWith p (w ++ v)
  := by
  cases w with
  | nil => contradiction
  | cons c w => rfl

theorem Mild.starts (hm : Mild u v) (hp : ∀ c, p c → isActive c) (hpoint : p '.' = false)
    (hv : startsWith p v) :
  startsWith p u
  := by
  cases v with
  | nil => cases hv
  | cons c v =>
      have hc : p c := hv
      have hne : c ≠ '.' := by
        rintro rfl
        rw [hpoint] at hc
        cases hc
      have hu := hm.head c rfl (hp c hc) hne
      obtain ⟨r, rfl⟩ := List.head?_eq_some_iff.mp hu
      apply hc

theorem Mild.starts_append (hm : Mild u v) (hp : ∀ c, p c → isActive c) (hpoint : p '.' = false)
    (hv : startsWith p (w ++ v)) :
  startsWith p (w ++ u)
  := by
  cases w with
  | nil => apply hm.starts hp hpoint hv
  | cons c w => apply hv

theorem Mild.startsWord (hm : Mild u v) (hv : startsWith isWordChar v) :
  startsWith isWordChar u
  := hm.starts (fun _ hc => isActive_of_isWordChar hc) (by decide) hv

theorem Mild.startsDigits (hm : Mild u v) (hv : startsWith isDigitOrUnderscore v) :
  startsWith isDigitOrUnderscore u
  := by
  apply hm.starts _ (by decide) hv
  intro c hc
  apply isActive_of_isWordChar (isWordChar_of_isDigitOrUnderscore hc)

/-- No more points and words follow before `v` than before `u`, if no more points do. -/
theorem Mild.starts_pointed (hm : Mild u v) (hpoint : v.head? = some '.' → u.head? = some '.')
    (hv : startsWith (fun c => c == '.' || isWordStart c) v) :
  startsWith (fun c => c == '.' || isWordStart c) u
  := by
  cases v with
  | nil => cases hv
  | cons c v =>
      rcases Bool.or_eq_true_iff.mp hv with hc | hc
      · obtain rfl := eq_of_beq hc
        obtain ⟨r, rfl⟩ := List.head?_eq_some_iff.mp (hpoint rfl)
        rfl
      · have hne : c ≠ '.' := by
          rintro rfl
          revert hc
          decide
        have hactive := isActive_of_isWordChar (isWordChar_of_isWordStart hc)
        obtain ⟨r, rfl⟩ := List.head?_eq_some_iff.mp (hm.head c rfl hactive hne)
        apply hv

theorem runLength_cons :
  runLength p (c :: w) = if p c then runLength p w + 1 else 0
  := by
  by_cases h : p c <;> simp [runLength, h]

theorem startsWith_of_runLength (h : runLength p u ≠ 0) :
  startsWith p u
  := by
  cases u with
  | nil => exact absurd rfl h
  | cons c u =>
      rw [runLength_cons] at h
      by_contra hc
      apply h (if_neg hc)

theorem runLength_pos (h : startsWith p u) :
  0 < runLength p u
  := by
  cases u with
  | nil => cases h
  | cons c u =>
      have hc : p c := h
      rw [runLength_cons, if_pos hc]
      apply Nat.succ_pos

/-- A run that takes all of `w` goes on with what follows. -/
theorem runLength_of_all (h : w.all p) :
  runLength p (w ++ v) = w.length + runLength p v
  := by
  induction w with
  | nil => simp
  | cons c w ih =>
      rw [List.all_cons, Bool.and_eq_true] at h
      rw [List.cons_append, runLength_cons, if_pos h.1, ih h.2, List.length_cons]
      omega

/-- A run ends where a text follows that does not go on with it. -/
theorem runLength_of_startsWith (hw : w.all p) (hv : startsWith p v = false) :
  runLength p (w ++ v) = w.length
  := by
  have hnone : runLength p v = 0 := by
    by_contra h
    rw [startsWith_of_runLength h] at hv
    cases hv
  rw [runLength_of_all hw, hnone, Nat.add_zero]

theorem all_of_runLength (h : w.length ≤ runLength p (w ++ u)) :
  w.all p
  := by
  induction w with
  | nil => rfl
  | cons c w ih =>
      rw [List.cons_append, runLength_cons, List.length_cons] at h
      by_cases hc : p c
      · rw [if_pos hc] at h
        rw [List.all_cons, hc, ih (Nat.le_of_succ_le_succ h), Bool.and_true]
      · rw [if_neg hc] at h
        cases h

/-- A run that ends inside `w`, or with it, does so before every text that does not go on
with it. -/
theorem runLength_append (hv : startsWith p v → startsWith p u)
    (h : runLength p (w ++ u) ≤ w.length) :
  runLength p (w ++ v) = runLength p (w ++ u)
  := by
  induction w with
  | nil =>
      have hu : runLength p u = 0 := Nat.le_zero.mp h
      rw [List.nil_append, List.nil_append, hu]
      by_contra hne
      have hpos := runLength_pos (hv (startsWith_of_runLength hne))
      omega
  | cons c w ih =>
      simp only [List.cons_append, runLength_cons, List.length_cons] at h ⊢
      split at h
      case isTrue hc => rw [if_pos hc, if_pos hc, ih (by omega)]
      case isFalse hc => rw [if_neg hc, if_neg hc]

/-- A run that ends inside `w` does so whatever follows. -/
theorem runLength_append_of_lt (h : runLength p (w ++ u) < w.length) :
  runLength p (w ++ v) = runLength p (w ++ u)
  := by
  induction w with
  | nil => simp at h
  | cons c w ih =>
      simp only [List.cons_append, runLength_cons, List.length_cons] at h ⊢
      split at h
      case isTrue hc => rw [if_pos hc, if_pos hc, ih (by omega)]
      case isFalse hc => rw [if_neg hc, if_neg hc]

/-! ### Suffixes and quoted literals -/

theorem suffixLength_eq_zero :
  suffixLength u = 0 ↔ startsWith isWordStart u = false
  := by
  cases hs : startsWith isWordStart u with
  | false => simp [suffixLength, hs]
  | true =>
      have hpos : 0 < runLength isWordChar u := by
        apply runLength_pos
        cases u with
        | nil => cases hs
        | cons c u => apply isWordChar_of_isWordStart hs
      simp only [suffixLength, hs, if_true, reduceCtorEq, iff_false]
      omega

theorem Mild.suffixLength_eq_zero (hm : Mild u v) (hu : suffixLength u = 0) :
  suffixLength v = 0
  := by
  rw [Scan.suffixLength_eq_zero] at hu ⊢
  apply Bool.eq_false_iff.mpr
  intro hv
  have hs : startsWith isWordStart u :=
    hm.starts (fun c hc => isActive_of_isWordChar (isWordChar_of_isWordStart hc)) (by decide) hv
  rw [hu] at hs
  cases hs

theorem suffixLength_append (hm : Mild u v) (hw : suffixLength (w ++ u) ≤ w.length) :
  suffixLength (w ++ v) = suffixLength (w ++ u)
  := by
  cases w with
  | nil =>
      have hu : suffixLength u = 0 := Nat.le_zero.mp hw
      rw [List.nil_append, List.nil_append, hu, hm.suffixLength_eq_zero hu]
  | cons c w =>
      rw [suffixLength] at hw
      rw [suffixLength, suffixLength]
      by_cases hs : startsWith isWordStart (c :: w ++ u)
      · rw [if_pos hs] at hw
        rw [if_pos hs, startsWith_append (v := u) (by simp), if_pos hs]
        apply runLength_append hm.startsWord hw
      · rw [if_neg hs, startsWith_append (v := u) (by simp), if_neg hs]

theorem ofLexeme_append {make : String → Lexeme} {n : Nat} (hn : n ≤ w.length) :
  ofLexeme make n (w ++ v) = ofLexeme make n (w ++ u)
  := by
  simp [ofLexeme, leading, List.take_append_of_le_length hn]

theorem literal_append {kind : LiteralKind} {n : Nat} (hm : Mild u v)
    (hn : (literal kind n (w ++ u)).length = w.length) :
  literal kind n (w ++ v) = literal kind n (w ++ u)
  := by
  rw [literal, ofLexeme] at hn
  have hle : n ≤ w.length := by
    simp only at hn
    omega
  have hdrop (r : List Char) : (w ++ r).drop n = w.drop n ++ r := List.drop_append_of_le_length hle
  rw [hdrop] at hn
  simp only at hn
  have hsuffix : suffixLength (w.drop n ++ v) = suffixLength (w.drop n ++ u) := by
    apply suffixLength_append hm
    rw [List.length_drop]
    omega
  rw [literal, literal, hdrop, hdrop, hsuffix]
  apply ofLexeme_append
  omega

/-- A measure that looks at no more of a text than what it measures. -/
def IsLocal (f : List Char → Option Nat) : Prop :=
  ∀ {s n}, f s = some n → ∀ v, f (s.take n ++ v) = some n

theorem IsLocal.append {f : List Char → Option Nat} (hf : IsLocal f) {n : Nat}
    (h : f (w ++ u) = some n) (hn : n ≤ w.length) :
  f (w ++ v) = some n
  := by
  have ht := hf h (w.drop n ++ v)
  rwa [List.take_append_of_le_length hn, ← List.append_assoc, List.take_append_drop] at ht

theorem isLocal_stringLength? :
  IsLocal stringLength?
  := by
  intro s n h v
  fun_induction stringLength? s generalizing n with
  | case1 => cases h
  | case2 s =>
      cases h
      simp [stringLength?]
  | case3 c s ih =>
      obtain ⟨m, hm, rfl⟩ := Option.map_eq_some_iff.mp h
      simp [stringLength?, ih hm]
  | case4 c s hquote hescape ih =>
      obtain ⟨m, hm, rfl⟩ := Option.map_eq_some_iff.mp h
      have hc : c ≠ '\\' := by
        rintro rfl
        cases s with
        | nil => cases hm
        | cons d s => apply hescape d s rfl rfl
      simp only [List.take_succ_cons, List.cons_append]
      rw [stringLength?, ih hm]
      · rfl
      · exact hquote
      · intro _ _ he
        apply absurd he hc

theorem blockLength?_ge {depth n : Nat} {s : List Char} (h : blockLength? depth s = some n)
    (hd : depth ≠ 0) :
  2 ≤ n
  := by
  fun_induction blockLength? depth s generalizing n with
  | case1 => exact absurd rfl hd
  | case2 => cases h
  | case3 depth s ih =>
      obtain ⟨m, _, rfl⟩ := Option.map_eq_some_iff.mp h
      apply Nat.le_add_left
  | case4 depth s ih =>
      obtain ⟨m, _, rfl⟩ := Option.map_eq_some_iff.mp h
      apply Nat.le_add_left
  | case5 depth c s _ _ ih =>
      obtain ⟨m, hm, rfl⟩ := Option.map_eq_some_iff.mp h
      apply Nat.le_succ_of_le (ih hm hd)

theorem isLocal_blockLength? (depth : Nat) :
  IsLocal (blockLength? depth)
  := by
  intro s n h v
  fun_induction blockLength? depth s generalizing n with
  | case1 s =>
      cases h
      simp [blockLength?]
  | case2 => cases h
  | case3 depth s ih =>
      obtain ⟨m, hm, rfl⟩ := Option.map_eq_some_iff.mp h
      simp [blockLength?, ih hm]
  | case4 depth s ih =>
      obtain ⟨m, hm, rfl⟩ := Option.map_eq_some_iff.mp h
      simp [blockLength?, ih hm]
  | case5 depth c s hopen hclose ih =>
      obtain ⟨m, hm, rfl⟩ := Option.map_eq_some_iff.mp h
      have hge := blockLength?_ge hm (by simp)
      obtain _ | m := m
      · simp at hge
      obtain _ | ⟨d, s⟩ := s
      · cases hm
      rw [List.take_succ_cons, List.cons_append, blockLength?, ih hm]
      · rfl
      · intro r hc hr
        obtain ⟨rfl, _⟩ := List.cons_eq_cons.mp hr
        apply hopen s hc rfl
      · intro r hc hr
        obtain ⟨rfl, _⟩ := List.cons_eq_cons.mp hr
        apply hclose s hc rfl

theorem rawLength?_gt {hashes n : Nat} {s : List Char} (h : rawLength? hashes s = some n) :
  hashes < n
  := by
  fun_induction rawLength? hashes s generalizing n with
  | case1 => cases h
  | case2 c s hclose =>
      cases h
      apply Nat.lt_succ_self
  | case3 c s hclose ih =>
      obtain ⟨m, hm, rfl⟩ := Option.map_eq_some_iff.mp h
      apply Nat.lt_succ_of_lt (ih hm)

theorem rawLength?_le {hashes n : Nat} {s : List Char} (h : rawLength? hashes s = some n) :
  n ≤ s.length
  := by
  fun_induction rawLength? hashes s generalizing n with
  | case1 => cases h
  | case2 c s hclose =>
      cases h
      simp only [Bool.and_eq_true, beq_iff_eq] at hclose
      have hlength := congrArg List.length hclose.2
      simp only [List.length_take, List.length_replicate] at hlength
      simp only [List.length_cons]
      omega
  | case3 c s hclose ih =>
      obtain ⟨m, hm, rfl⟩ := Option.map_eq_some_iff.mp h
      have hle := ih hm
      simp only [List.length_cons]
      omega

theorem isLocal_rawLength? (hashes : Nat) :
  IsLocal (rawLength? hashes)
  := by
  intro s n h v
  have htake {s : List Char} {m : Nat} (hs : m ≤ s.length) (hm : hashes ≤ m) :
      (s.take m ++ v).take hashes = s.take hashes := by
    rw [List.take_append_of_le_length (by simp only [List.length_take]; omega), List.take_take,
      Nat.min_eq_left hm]
  have hle := rawLength?_le h
  fun_induction rawLength? hashes s generalizing n with
  | case1 => cases h
  | case2 c s hclose =>
      cases h
      rw [List.take_succ_cons, List.cons_append, rawLength?, htake (by simpa using hle) (Nat.le_refl _),
        if_pos hclose]
  | case3 c s hclose ih =>
      obtain ⟨m, hm, rfl⟩ := Option.map_eq_some_iff.mp h
      have hle' := rawLength?_le hm
      rw [List.take_succ_cons, List.cons_append, rawLength?,
        htake hle' (Nat.le_of_lt (rawLength?_gt hm)), if_neg hclose, ih hm hle']
      rfl

theorem hashesBeforeQuote?_take {n : Nat} {s : List Char} (h : hashesBeforeQuote? s = some n) :
  hashesBeforeQuote? (s.take (n + 1) ++ v) = some n
  := by
  fun_induction hashesBeforeQuote? s generalizing n with
  | case1 s =>
      cases h
      simp [hashesBeforeQuote?]
  | case2 s ih =>
      obtain ⟨m, hm, rfl⟩ := Option.map_eq_some_iff.mp h
      simp [hashesBeforeQuote?, ih hm]
  | case3 => cases h

/-- No more hash signs and quotes follow `w` before `v` than before `u`. -/
theorem hashesBeforeQuote?_append
    (hv : (hashesBeforeQuote? v).isSome → (hashesBeforeQuote? u).isSome)
    (h : (hashesBeforeQuote? (w ++ v)).isSome) :
  (hashesBeforeQuote? (w ++ u)).isSome
  := by
  induction w with
  | nil => apply hv h
  | cons c w ih =>
      by_cases hquote : c = '"'
      · subst hquote
        rfl
      · by_cases hhash : c = '#'
        · subst hhash
          simp only [List.cons_append, hashesBeforeQuote?, Option.isSome_map] at h ⊢
          apply ih h
        · simp_all [hashesBeforeQuote?]

theorem string_append {kind : LiteralKind} {n : Nat} (hm : Mild u v) (hn : n ≤ w.length)
    (hf : (string kind n (w ++ u)).reading.isFault = false)
    (hw : (string kind n (w ++ u)).length = w.length) :
  string kind n (w ++ v) = string kind n (w ++ u)
  := by
  have hdrop (r : List Char) : (w ++ r).drop n = w.drop n ++ r := List.drop_append_of_le_length hn
  rw [string, hdrop] at hf hw
  rw [string, string, hdrop, hdrop]
  cases hmeasure : stringLength? (w.drop n ++ u) with
  | none =>
      rw [hmeasure] at hf
      cases hf
  | some m =>
      rw [hmeasure] at hw
      have hle : m ≤ (w.drop n).length := by
        simp only [literal, ofLexeme, List.length_drop] at hw ⊢
        omega
      rw [isLocal_stringLength?.append hmeasure hle]
      apply literal_append hm hw

theorem rawString_append {kind : LiteralKind} {hashes n : Nat} (hm : Mild u v) (hn : n ≤ w.length)
    (hf : (rawString kind hashes n (w ++ u)).reading.isFault = false)
    (hw : (rawString kind hashes n (w ++ u)).length = w.length) :
  rawString kind hashes n (w ++ v) = rawString kind hashes n (w ++ u)
  := by
  have hdrop (r : List Char) : (w ++ r).drop n = w.drop n ++ r := List.drop_append_of_le_length hn
  rw [rawString, hdrop] at hf hw
  rw [rawString, rawString, hdrop, hdrop]
  cases hmeasure : rawLength? hashes (w.drop n ++ u) with
  | none =>
      rw [hmeasure] at hf
      cases hf
  | some m =>
      rw [hmeasure] at hw
      have hle : m ≤ (w.drop n).length := by
        simp only [literal, ofLexeme, List.length_drop] at hw ⊢
        omega
      rw [IsLocal.append (isLocal_rawLength? hashes) hmeasure hle]
      apply literal_append hm hw

theorem charLength_escape {d e : Char} (h : ¬(d = 'u' ∧ e = '{')) :
  charLength ('\\' :: d :: e :: u) = 2
  := by
  rw [charLength]
  · simp only [List.length_cons]
    omega
  · intro r hr
    simp only [List.cons.injEq] at hr
    apply h ⟨hr.1, hr.2.1⟩

theorem two_le_charLength_escape (c : Char) :
  2 ≤ charLength ('\\' :: c :: u)
  := by
  obtain _ | ⟨d, u⟩ := u
  · simp [charLength]
  · by_cases h : c = 'u' ∧ d = '{'
    · obtain ⟨rfl, rfl⟩ := h
      simp only [charLength]
      omega
    · apply Nat.le_of_eq (charLength_escape h).symm

/-- What stands for a character is the same whatever follows the apostrophe after it. -/
theorem charLength_append (h : charLength (w ++ u) < w.length) :
  charLength (w ++ v) = charLength (w ++ u)
  := by
  obtain _ | ⟨c, w⟩ := w
  · cases h
  by_cases hc : c = '\\'
  · subst hc
    obtain _ | ⟨d, _ | ⟨e, w⟩⟩ := w
    · cases u with
      | nil => simp [charLength] at h
      | cons d u =>
          have := two_le_charLength_escape (u := u) d
          simp only [List.cons_append, List.nil_append, List.length_cons, List.length_nil] at h
          omega
    · have := two_le_charLength_escape (u := u) d
      simp only [List.cons_append, List.nil_append, List.length_cons, List.length_nil] at h
      omega
    · by_cases hopen : d = 'u' ∧ e = '{'
      · obtain ⟨rfl, rfl⟩ := hopen
        simp only [List.cons_append, charLength, List.length_cons, List.length_append] at h ⊢
        have hlt : runLength (· != '}') (w ++ u) < w.length := by omega
        rw [runLength_append_of_lt hlt]
        omega
      · simp only [List.cons_append, charLength_escape hopen]
  · simp [charLength, hc]

theorem char_append {kind : LiteralKind} {n : Nat} (hm : Mild u v) (hn : n ≤ w.length)
    (hf : (char kind n (w ++ u)).reading.isFault = false)
    (hw : (char kind n (w ++ u)).length = w.length) :
  char kind n (w ++ v) = char kind n (w ++ u)
  := by
  have hdrop (r : List Char) : (w ++ r).drop n = w.drop n ++ r := List.drop_append_of_le_length hn
  simp only [char] at hf hw ⊢
  split at hf
  case isFalse => cases hf
  case isTrue hclose =>
    rw [if_pos hclose] at hw
    have hlt : n + charLength (w.drop n ++ u) < w.length := by
      simp only [literal, ofLexeme, hdrop] at hw
      omega
    have hlength : charLength (w.drop n ++ v) = charLength (w.drop n ++ u) := by
      apply charLength_append
      rw [List.length_drop]
      omega
    rw [hdrop] at hclose hw ⊢
    rw [hdrop, hlength]
    have hclose' : ((w ++ v).drop (n + charLength (w.drop n ++ u))).head? = some '\'' := by
      rw [List.drop_append_of_le_length (Nat.le_of_lt hlt)] at hclose ⊢
      rw [← hclose]
      cases hd : w.drop (n + charLength (w.drop n ++ u)) with
      | nil =>
          rw [List.drop_eq_nil_iff] at hd
          omega
      | cons c r => rfl
    rw [if_pos hclose, if_pos hclose']
    apply literal_append hm hw

/-- A character literal takes its two apostrophes at least. -/
theorem two_le_char {kind : LiteralKind} {n : Nat} {s : List Char}
    (hf : (char kind n s).reading.isFault = false) :
  n + charLength (s.drop n) + 1 ≤ (char kind n s).length
  := by
  simp only [char] at hf ⊢
  split at hf
  case isTrue h =>
    rw [if_pos h]
    apply Nat.le_add_right
  case isFalse => cases hf

/-- Whether an apostrophe starts a lifetime is seen in what it starts. -/
theorem lifetime_append (hm : Mild u v)
    (hf : (apostrophe ('\'' :: w ++ u)).reading.isFault = false)
    (hw : (apostrophe ('\'' :: w ++ u)).length = w.length + 1) :
  (startsWith isWordStart (w ++ v) && (w ++ v)[1]? != some '\'') =
    (startsWith isWordStart (w ++ u) && (w ++ u)[1]? != some '\'')
  := by
  simp only [apostrophe, List.cons_append, List.drop_one, List.tail_cons] at hf hw
  obtain _ | ⟨c, _ | ⟨d, w⟩⟩ := w
  · split at hf
    case isTrue hlifetime =>
      rw [if_pos hlifetime] at hw
      simp only [Bool.and_eq_true, List.nil_append] at hlifetime
      have hzero : suffixLength u ≠ 0 := by simp [suffixLength_eq_zero, hlifetime.1]
      simp only [suffixLength, hlifetime.1, if_true] at hzero
      simp only [ofLexeme, List.nil_append, List.length_nil] at hw
      omega
    case isFalse hlifetime =>
      rw [if_neg hlifetime] at hw
      have hge := two_le_char hf
      simp only [List.length_nil] at hw
      omega
  · have hsecond (r : List Char) : ([c] ++ r)[1]? = r.head? := by cases r <;> rfl
    rw [startsWith_append (v := u) (by simp), hsecond, hsecond]
    rw [hsecond] at hf hw
    cases hstart : startsWith isWordStart ([c] ++ u) with
    | false => rfl
    | true =>
        have hu : u.head? ≠ some '\'' := by
          intro hu
          rw [if_neg (by simp [hu])] at hf hw
          have hge := two_le_char hf
          have hc : charLength ((('\'' : Char) :: ([c] ++ u)).drop 1) = 1 := by
            have hword : isWordStart c := hstart
            have hescape : c ≠ '\\' := by
              rintro rfl
              revert hword
              decide
            have hquote : c ≠ '\'' := by
              rintro rfl
              revert hword
              decide
            simp [charLength, hescape, hquote]
          simp only [hc, List.length_cons, List.length_nil] at hge hw
          omega
        have hv : v.head? ≠ some '\'' := by
          intro hv
          apply hu (hm.head _ hv (by decide) (by decide))
        rw [bne_iff_ne.mpr hu, bne_iff_ne.mpr hv]
  · rfl

theorem apostrophe_append (hm : Mild u v)
    (hf : (apostrophe ('\'' :: w ++ u)).reading.isFault = false)
    (hw : (apostrophe ('\'' :: w ++ u)).length = w.length + 1) :
  apostrophe ('\'' :: w ++ v) = apostrophe ('\'' :: w ++ u)
  := by
  have hsame := lifetime_append hm hf hw
  simp only [apostrophe, List.cons_append, List.drop_one, List.tail_cons] at hf hw ⊢
  rw [hsame]
  split at hf
  case isTrue hlifetime =>
    rw [if_pos hlifetime] at hw
    rw [if_pos hlifetime, if_pos hlifetime]
    simp only [ofLexeme] at hw
    rw [runLength_append hm.startsWord (by omega)]
    apply ofLexeme_append (w := '\'' :: w)
    apply Nat.le_of_eq hw
  case isFalse hlifetime =>
    rw [if_neg hlifetime] at hw
    rw [if_neg hlifetime, if_neg hlifetime]
    apply char_append (w := '\'' :: w) hm (by simp) hf hw

/-! ### Numbers -/

theorem fractionLength_append (hm : Mild u v) (hw : fractionLength (w ++ u) ≤ w.length)
    (hzero : fractionLength (w ++ u) = 0 → w.head? ≠ some '.')
    (hpoint : fractionLength (w ++ u) ≠ 0 → w = ['.'] → v.head? = some '.' → u.head? = some '.')
    (hfraction : w = [] → fractionLength v ≠ 0 → fractionLength u ≠ 0) :
  fractionLength (w ++ v) = fractionLength (w ++ u)
  := by
  obtain _ | ⟨c, w⟩ := w
  · have hu : fractionLength u = 0 := Nat.le_zero.mp hw
    rw [List.nil_append, List.nil_append, hu]
    by_contra hv
    apply hfraction rfl hv hu
  · by_cases hc : c = '.'
    · subst hc
      simp only [List.cons_append, fractionLength, List.length_cons] at hw hzero hpoint ⊢
      split at hw
      case isTrue h =>
        rw [if_pos h] at hzero
        apply absurd rfl (hzero rfl)
      case isFalse h =>
        rw [if_neg h] at hpoint
        have hv : ¬startsWith (fun c => c == '.' || isWordStart c) (w ++ v) := by
          intro hv
          apply h
          cases w with
          | cons d w => apply hv
          | nil => apply hm.starts_pointed (hpoint (by omega) rfl) hv
        rw [if_neg h, if_neg hv, runLength_append hm.startsDigits (by omega)]
    · simp [fractionLength, hc]

theorem exponentLength_of_suffixLength (h : suffixLength u = 0) :
  exponentLength u = 0
  := by
  rw [suffixLength_eq_zero] at h
  cases u with
  | nil => rfl
  | cons c u =>
      have hstart : isWordStart c = false := h
      have hc : ¬(c = 'e' || c = 'E') := by
        simp only [Bool.or_eq_true, decide_eq_true_eq]
        rintro (rfl | rfl) <;> revert hstart <;> decide
      rw [exponentLength, if_neg hc]

theorem runLength_digits_pos (h : startsWith isDigit u) :
  0 < runLength isDigitOrUnderscore u
  := by
  apply runLength_pos
  cases u with
  | nil => cases h
  | cons c u =>
      have hc : isDigit c := h
      simp [startsWith, isDigitOrUnderscore, hc]

/-- The signed digits of an exponent are those of `w` if they end with it. -/
theorem signedLength_append (hm : Mild u v)
    (hw : (if startsWith (fun c => c == '+' || c == '-') (w ++ u) &&
        startsWith isDigit ((w ++ u).drop 1) then
      2 + runLength isDigitOrUnderscore ((w ++ u).drop 1) else 0) ≤ w.length + 1) :
  (if startsWith (fun c => c == '+' || c == '-') (w ++ v) &&
      startsWith isDigit ((w ++ v).drop 1) then
    2 + runLength isDigitOrUnderscore ((w ++ v).drop 1) else 0) =
  (if startsWith (fun c => c == '+' || c == '-') (w ++ u) &&
      startsWith isDigit ((w ++ u).drop 1) then
    2 + runLength isDigitOrUnderscore ((w ++ u).drop 1) else 0)
  := by
  have hrun : startsWith isDigitOrUnderscore v → startsWith isDigitOrUnderscore u := hm.startsDigits
  have hdigit (w : List Char) : startsWith isDigit (w ++ v) → startsWith isDigit (w ++ u) :=
    hm.starts_append (fun c hc => isActive_of_isWordChar (isWordChar_of_isDigit hc)) (by decide)
  by_cases hsigned : startsWith (fun c => c == '+' || c == '-') (w ++ u) &&
      startsWith isDigit ((w ++ u).drop 1)
  · rw [if_pos hsigned] at hw
    rw [Bool.and_eq_true] at hsigned
    have hpos := runLength_digits_pos hsigned.2
    obtain _ | ⟨c, _ | ⟨d, w⟩⟩ := w
    · simp only [List.length_nil] at hw
      omega
    · simp only [List.length_cons, List.length_nil] at hw
      omega
    · have hsame : runLength isDigitOrUnderscore (d :: w ++ v) =
          runLength isDigitOrUnderscore (d :: w ++ u) := by
        apply runLength_append hrun
        simp only [List.length_cons] at hw ⊢
        simp only [List.cons_append, List.drop_one, List.tail_cons] at hw ⊢
        omega
      simp only [List.cons_append, List.drop_one, List.tail_cons] at hsame ⊢
      rw [hsame]
      rfl
  · rw [if_neg hsigned, if_neg]
    rw [Bool.and_eq_true] at hsigned ⊢
    rintro ⟨hsign, hv⟩
    apply hsigned
    cases w with
    | nil =>
        constructor
        · apply hm.starts _ (by decide) hsign
          intro c hc
          rcases Bool.or_eq_true_iff.mp hc with hc | hc <;> obtain rfl := eq_of_beq hc <;> rfl
        · apply hm.signed hsign hv
    | cons c w =>
        use hsign
        apply hdigit w hv

theorem exponentLength_append (hm : Mild u v) (hw : exponentLength (w ++ u) ≤ w.length)
    (hnil : w = [] → suffixLength u = 0) :
  exponentLength (w ++ v) = exponentLength (w ++ u)
  := by
  have hrun : startsWith isDigitOrUnderscore v → startsWith isDigitOrUnderscore u := hm.startsDigits
  have hdigit (w : List Char) : startsWith isDigit (w ++ v) → startsWith isDigit (w ++ u) :=
    hm.starts_append (fun c hc => isActive_of_isWordChar (isWordChar_of_isDigit hc)) (by decide)
  obtain _ | ⟨c, w⟩ := w
  · have hu := hnil rfl
    rw [List.nil_append, List.nil_append, exponentLength_of_suffixLength hu,
      exponentLength_of_suffixLength (hm.suffixLength_eq_zero hu)]
  · simp only [List.cons_append, exponentLength, List.length_cons] at hw ⊢
    by_cases he : (c = 'e' || c = 'E')
    · rw [if_pos he] at hw
      rw [if_pos he, if_pos he]
      by_cases hstart : startsWith isDigit (w ++ u)
      · have hpos := runLength_digits_pos hstart
        rw [if_pos hstart] at hw
        have hne : w ≠ [] := by
          rintro rfl
          simp only [List.nil_append, List.length_nil] at hw hpos
          omega
        rw [if_pos hstart, startsWith_append (v := u) hne, if_pos hstart,
          runLength_append hrun (by omega)]
      · rw [if_neg hstart] at hw
        rw [if_neg hstart, if_neg fun hv => hstart (hdigit w hv)]
        apply signedLength_append hm (Nat.le_of_lt_succ (Nat.lt_succ_of_le hw))
    · rw [if_neg he, if_neg he]

theorem basedLength?_append {n : Nat} (hm : Mild u v) (h : basedLength? (w ++ u) = some n)
    (hn : n ≤ w.length) :
  basedLength? (w ++ v) = some n
  := by
  generalize hs : w ++ u = s at h
  rw [basedLength?.eq_def] at h
  split at h
  case h_1 base r =>
    split at h
    case isFalse => cases h
    case isTrue hbase =>
      cases h
      obtain _ | ⟨_, _ | ⟨_, w⟩⟩ := w
      · simp at hn
      · simp only [List.length_cons, List.length_nil] at hn
        omega
      · simp only [List.cons_append, List.cons.injEq] at hs
        obtain ⟨rfl, rfl, rfl⟩ := hs
        simp only [List.length_cons] at hn
        rw [List.cons_append, List.cons_append, basedLength?, if_pos hbase,
          runLength_append hm.startsWord (by omega)]
  case h_2 => cases h

theorem basedLength?_append_none (hm : Mild u v) (h : basedLength? (w ++ u) = none)
    (hw : w ≠ []) :
  basedLength? (w ++ v) = none
  := by
  have hbase {r : List Char} {base : Char} :
      basedLength? ('0' :: base :: r) = none ↔ ¬(base = 'x' || base = 'o' || base = 'b') := by
    simp [basedLength?]
  obtain _ | ⟨c, _ | ⟨d, w⟩⟩ := w
  · contradiction
  · by_cases hc : c = '0'
    · subst hc
      obtain _ | ⟨d, v⟩ := v
      · rfl
      · rw [List.singleton_append, hbase]
        intro hd
        have hactive : isActive d ∧ d ≠ '.' := by
          simp only [Bool.or_eq_true, decide_eq_true_eq] at hd
          rcases hd with (rfl | rfl) | rfl <;> decide
        obtain ⟨u, rfl⟩ := List.head?_eq_some_iff.mp (hm.head d rfl hactive.1 hactive.2)
        apply hbase.mp h hd
    · simp [basedLength?, hc]
  · by_cases hc : c = '0'
    · subst hc
      exact hbase.mpr (hbase.mp h)
    · simp [basedLength?, hc]

/-- Digits have no base, unless its letter follows them. -/
theorem basedLength?_eq_none (hw : w.all isDigitOrUnderscore) (hne : w ≠ [])
    (hv : ∀ c ∈ v.head?, c ∉ ['x', 'o', 'b']) :
  basedLength? (w ++ v) = none
  := by
  rw [basedLength?.eq_def]
  split
  case h_2 => rfl
  case h_1 base s heq =>
    have hbase : base ∉ ['x', 'o', 'b'] := by
      obtain _ | ⟨c, _ | ⟨d, w⟩⟩ := w
      · contradiction
      · obtain ⟨-, rfl⟩ := List.cons_eq_cons.mp heq
        apply hv base rfl
      · obtain ⟨-, hd⟩ := List.cons_eq_cons.mp heq
        obtain ⟨rfl, -⟩ := List.cons_eq_cons.mp hd
        simp only [List.all_cons, Bool.and_eq_true] at hw
        simp only [List.mem_cons, List.not_mem_nil, or_false]
        rintro (rfl | rfl | rfl) <;> exact absurd hw.2.1 (by decide)
    rw [if_neg]
    simpa [or_assoc] using hbase

/-- The parts of a number without a base are the same before `v` as before `u`. -/
theorem numberParts_append {whole : Nat} (hm : Mild u v)
    (hw : whole + fractionLength ((w ++ u).drop whole) +
        exponentLength ((w ++ u).drop (whole + fractionLength ((w ++ u).drop whole))) +
        suffixLength ((w ++ u).drop (whole + fractionLength ((w ++ u).drop whole) +
          exponentLength ((w ++ u).drop (whole + fractionLength ((w ++ u).drop whole))))) =
      w.length)
    (hpoint : fractionLength ((w ++ u).drop whole) ≠ 0 → w.getLast? = some '.' →
      v.head? = some '.' → u.head? = some '.')
    (hfraction : w.length ≤ whole → fractionLength v ≠ 0 → fractionLength u ≠ 0) :
  fractionLength ((w ++ v).drop whole) = fractionLength ((w ++ u).drop whole) ∧
  exponentLength ((w ++ v).drop (whole + fractionLength ((w ++ u).drop whole))) =
    exponentLength ((w ++ u).drop (whole + fractionLength ((w ++ u).drop whole)))
  := by
  have hdrop (n : Nat) (hn : n ≤ w.length) (r : List Char) : (w ++ r).drop n = w.drop n ++ r :=
    List.drop_append_of_le_length hn
  rw [hdrop whole (by omega)] at hw hpoint ⊢
  rw [hdrop whole (by omega)]
  have hsame : fractionLength (w.drop whole ++ v) = fractionLength (w.drop whole ++ u) := by
    apply fractionLength_append hm
    · rw [List.length_drop]
      omega
    · intro hzero hpoint
      obtain ⟨r, hr⟩ := List.head?_eq_some_iff.mp hpoint
      rw [hzero, Nat.add_zero, hdrop whole (by omega), hr] at hw
      have hlength := congrArg List.length hr
      rw [List.length_drop, List.length_cons] at hlength
      have hexponent : exponentLength ('.' :: (r ++ u)) = 0 := by simp [exponentLength]
      have hsuffix : suffixLength ('.' :: (r ++ u)) = 0 := by
        rw [suffixLength_eq_zero]
        exact (by decide : isWordStart '.' = false)
      rw [List.cons_append, hexponent, Nat.add_zero, hdrop whole (by omega), hr, List.cons_append,
        hsuffix] at hw
      omega
    · intro hne hlast
      apply hpoint hne
      rw [← List.take_append_drop whole w, hlast, List.getLast?_concat]
    · intro hnil
      apply hfraction (List.drop_eq_nil_iff.mp hnil)
  use hsame
  generalize fractionLength (w.drop whole ++ u) = fraction at hw ⊢
  rw [hdrop (whole + fraction) (by omega)] at hw ⊢
  rw [hdrop (whole + fraction) (by omega)]
  apply exponentLength_append hm
  · rw [List.length_drop]
    omega
  · intro hnil
    rw [List.drop_eq_nil_iff] at hnil
    have hexponent : exponentLength (w.drop (whole + fraction) ++ u) = 0 := by omega
    rw [hexponent, Nat.add_zero, hdrop (whole + fraction) (by omega), List.drop_of_length_le hnil,
      List.nil_append] at hw
    omega

theorem number_of_fraction (hbased : basedLength? w = none)
    (h : fractionLength (w.drop (runLength isDigitOrUnderscore w)) ≠ 0) :
  ∃ text, (number w).reading = .lexeme (.literal .float text)
  := by
  simp only [number, hbased, bne_iff_ne.mpr h, Bool.true_or, if_true]
  exact ⟨_, rfl⟩

/-- A number in front of `u` is one in front of `v`, unless a point joins it to a fraction or
to a second point. -/
theorem number_append (hm : Mild u v) (hne : w ≠ [])
    (hw : (number (w ++ u)).length = w.length)
    (hpoint : ∀ text, (number (w ++ u)).reading = .lexeme (.literal .float text) →
      w.getLast? = some '.' → v.head? = some '.' → u.head? = some '.')
    (hfraction : w.all isDigitOrUnderscore → fractionLength v ≠ 0 → fractionLength u ≠ 0) :
  number (w ++ v) = number (w ++ u)
  := by
  have hfloat (hbased : basedLength? (w ++ u) = none)
      (h : fractionLength ((w ++ u).drop (runLength isDigitOrUnderscore (w ++ u))) ≠ 0) :
      w.getLast? = some '.' → v.head? = some '.' → u.head? = some '.' := by
    obtain ⟨text, htext⟩ := number_of_fraction hbased h
    apply hpoint text htext
  have hdigits (h : w.length ≤ runLength isDigitOrUnderscore (w ++ u)) :
      fractionLength v ≠ 0 → fractionLength u ≠ 0 :=
    hfraction (all_of_runLength h)
  simp only [number] at hw ⊢
  cases hbased : basedLength? (w ++ u) with
  | some n =>
      rw [hbased] at hw
      simp only [ofLexeme] at hw
      rw [basedLength?_append hm hbased (Nat.le_of_eq hw)]
      apply ofLexeme_append (Nat.le_of_eq hw)
  | none =>
      rw [hbased] at hw
      replace hfloat := hfloat hbased
      rw [basedLength?_append_none hm hbased hne]
      simp only [ofLexeme] at hw
      have hwhole : runLength isDigitOrUnderscore (w ++ v) =
          runLength isDigitOrUnderscore (w ++ u) := by
        apply runLength_append hm.startsDigits
        omega
      simp only [hwhole]
      generalize runLength isDigitOrUnderscore (w ++ u) = whole at hw hfloat hdigits ⊢
      obtain ⟨hsame, hexponent⟩ := numberParts_append hm hw hfloat hdigits
      simp only [hsame, hexponent]
      generalize fractionLength ((w ++ u).drop whole) = fraction at hw ⊢
      generalize exponentLength ((w ++ u).drop (whole + fraction)) = exponent at hw ⊢
      have hdrop (r : List Char) : (w ++ r).drop (whole + fraction + exponent) =
          w.drop (whole + fraction + exponent) ++ r := by
        apply List.drop_append_of_le_length
        omega
      rw [hdrop] at hw
      have hsuffix : suffixLength (w.drop (whole + fraction + exponent) ++ u) ≤
          (w.drop (whole + fraction + exponent)).length := by
        rw [List.length_drop]
        omega
      rw [hdrop, hdrop, suffixLength_append hm hsuffix]
      generalize hm : suffixLength (w.drop (whole + fraction + exponent) ++ u) = suffix at hw hsuffix ⊢
      simp only [leading, List.take_append_of_le_length hsuffix]
      apply ofLexeme_append (Nat.le_of_eq hw)

/-! ### Words and openings -/

theorem rawMarkLength_cons :
  rawMarkLength (c :: w) = 0 ∨
    ∃ r, c :: w = 'r' :: '#' :: r ∧ startsWith isWordStart r ∧ rawMarkLength (c :: w) = 2
  := by
  rw [rawMarkLength.eq_def]
  split
  case h_1 r hr =>
    by_cases hstart : startsWith isWordStart r
    · right
      use r, hr, hstart
      rw [if_pos hstart]
    · left
      rw [if_neg hstart]
  case h_2 => left; rfl

theorem startsWord_of_startsWordStart (h : startsWith isWordStart u) :
  startsWith isWordChar u
  := by
  cases u with
  | nil => cases h
  | cons c u => apply isWordChar_of_isWordStart h

/-- What stands before `v` is no raw identifier if it is a plain word before `u`. -/
theorem rawMarkLength_append (hv : c = 'r' → w = [] → rawMarkLength ('r' :: v) = 0)
    (hw : runLength isWordChar (c :: w ++ u) = w.length + 1) :
  rawMarkLength (c :: w ++ v) = 0
  := by
  rcases rawMarkLength_cons (c := c) (w := w ++ v) with hmark | ⟨r, hr, hstart, hmark⟩
  · exact hmark
  obtain ⟨rfl, htail⟩ := List.cons_eq_cons.mp hr
  cases w with
  | nil => apply hv rfl rfl
  | cons d w =>
      obtain ⟨rfl, _⟩ := List.cons_eq_cons.mp htail
      have hone : isWordChar '#' = false := by decide
      simp only [List.cons_append, runLength_cons, hone, Bool.false_eq_true, if_false,
        List.length_cons] at hw
      split at hw <;> omega

/-- A word is followed by nothing that could go on it. -/
theorem word_append (hm : Mild u v) (hw : (word (c :: w ++ u)).length = w.length + 1) :
  word (c :: w ++ v) = word (c :: w ++ u)
  := by
  simp only [word, ofLexeme] at hw ⊢
  rcases rawMarkLength_cons (c := c) (w := w ++ u) with hu | ⟨r, hr, hstart, hu⟩
  · rw [← List.cons_append] at hu
    rw [hu, List.drop_zero, Nat.zero_add] at hw
    have hv : rawMarkLength (c :: w ++ v) = 0 := by
      apply rawMarkLength_append _ hw
      rintro rfl rfl
      by_contra hv
      apply hm.rawMark hv hu
    rw [hu, hv, List.drop_zero, List.drop_zero, runLength_append hm.startsWord (Nat.le_of_eq hw)]
    apply ofLexeme_append
    rw [Nat.zero_add]
    apply Nat.le_of_eq hw
  · rw [← List.cons_append] at hu
    have hpos := runLength_pos (startsWord_of_startsWordStart hstart)
    rw [hu, List.cons_append, hr] at hw
    simp only [List.drop_succ_cons, List.drop_zero] at hw
    obtain ⟨rfl, htail⟩ := List.cons_eq_cons.mp hr
    obtain _ | ⟨_, _ | ⟨d, w⟩⟩ := w
    · simp only [List.length_nil] at hw
      omega
    · simp only [List.length_cons, List.length_nil] at hw
      omega
    · simp only [List.cons_append, List.cons.injEq] at htail
      obtain ⟨rfl, rfl⟩ := htail
      have hrun : runLength isWordChar (d :: w ++ v) = runLength isWordChar (d :: w ++ u) := by
        apply runLength_append hm.startsWord
        simp only [List.length_cons] at hw ⊢
        simp only [List.cons_append]
        omega
      have hv : rawMarkLength ('r' :: '#' :: d :: w ++ v) = 2 := if_pos hstart
      rw [hu, hv]
      simp only [List.cons_append, List.drop_succ_cons, List.drop_zero] at hrun ⊢
      rw [hrun]
      apply ofLexeme_append (w := 'r' :: '#' :: d :: w)
      apply Nat.le_of_eq hw

/-- Only three letters start an opening. -/
theorem opening?_eq_none (hb : c ≠ 'b') (hc : c ≠ 'c') (hr : c ≠ 'r') :
  opening? (c :: w) = none
  := by
  simp [opening?, hb, hc, hr]

theorem opening?_raw :
  opening? ('r' :: w) = none ↔ (hashesBeforeQuote? w).isSome = false
  := by
  simp [opening?]

theorem opening?_letter (hc : c = 'b' ∨ c = 'c') :
  opening? (c :: w) = none ↔ w.head? ≠ some '"' ∧ (c = 'b' → w.head? ≠ some '\'') ∧
    ∀ r, w = 'r' :: r → (hashesBeforeQuote? r).isSome = false
  := by
  obtain _ | ⟨d, w⟩ := w
  · rcases hc with rfl | rfl <;> simp [opening?]
  · by_cases hquote : d = '"'
    · rcases hc with rfl | rfl <;> simp [opening?, hquote]
    · by_cases hraw : d = 'r'
      · subst hraw
        rcases hc with rfl | rfl <;> simp [opening?]
      · by_cases hbyte : d = '\''
        · rcases hc with rfl | rfl <;> simp [opening?, hbyte]
        · rcases hc with rfl | rfl <;> simp [opening?, hquote, hraw, hbyte]

/-- Where no opening stands before `u`, none stands before `v`. -/
theorem opening?_append_none (hu : opening? (c :: w ++ u) = none)
    (hhashes : (hashesBeforeQuote? v).isSome → (hashesBeforeQuote? u).isSome)
    (hhead : w = [] → c = 'b' ∨ c = 'c' → ∀ d ∈ v.head?, d ≠ '"' ∧
      (c = 'b' → d ≠ '\'') ∧ d ≠ 'r') :
  opening? (c :: w ++ v) = none
  := by
  rw [List.cons_append] at hu ⊢
  have hraw {r : List Char} (h : (hashesBeforeQuote? (r ++ u)).isSome = false) :
      (hashesBeforeQuote? (r ++ v)).isSome = false := by
    by_contra hv
    rw [Bool.not_eq_false] at hv
    rw [hashesBeforeQuote?_append hhashes hv] at h
    cases h
  by_cases hr : c = 'r'
  · subst hr
    rw [opening?_raw] at hu ⊢
    apply hraw hu
  by_cases hletter : c = 'b' ∨ c = 'c'
  · rw [opening?_letter hletter] at hu ⊢
    obtain _ | ⟨d, w⟩ := w
    · have hv := hhead rfl hletter
      rw [List.nil_append]
      use fun hquote => (hv _ hquote).1 rfl, fun hb hbyte => (hv _ hbyte).2.1 hb rfl
      rintro r rfl
      apply absurd rfl (hv 'r' rfl).2.2
    · use hu.1, hu.2.1
      rintro r hr
      obtain ⟨rfl, rfl⟩ := List.cons_eq_cons.mp hr
      apply hraw (hu.2.2 _ rfl)
  · rw [not_or] at hletter
    apply opening?_eq_none hletter.1 hletter.2 hr

/-- A letter before `u` that is no opening and no word with what follows is no opening before
`v`. -/
theorem Mild.opening?_letter (hm : Mild u v) (hu : opening? (c :: u) = none)
    (hword : startsWith isWordChar u = false) (hc : c = 'b' ∨ c = 'c') :
  ∀ d ∈ v.head?, d ≠ '"' ∧ (c = 'b' → d ≠ '\'') ∧ d ≠ 'r'
  := by
  intro d hd
  rw [Scan.opening?_letter hc] at hu
  constructor
  · rintro rfl
    apply hu.1 (hm.head _ hd (by decide) (by decide))
  constructor
  · rintro hb rfl
    apply hu.2.1 hb (hm.head _ hd (by decide) (by decide))
  · rintro rfl
    obtain ⟨u, rfl⟩ := List.head?_eq_some_iff.mp (hm.head _ hd (by decide) (by decide))
    exact absurd hword (by decide : isWordChar 'r' ≠ false)

/-- The number of characters of an opening, its quote included. -/
def Opening.length : Opening → Nat
  | byte => 2
  | quoted _ => 2
  | raw _ letters hashes => letters + hashes + 1

/-- An opening is seen in its characters alone. -/
theorem opening?_take {opening : Opening} {s : List Char} (h : opening? s = some opening) :
  opening? (s.take opening.length ++ v) = some opening
  := by
  have hraw {kind : LiteralKind} {n : Nat} {m : List Char → List Char} {s : List Char}
      (hmake : ∀ r, opening? (m r) = (hashesBeforeQuote? r).map (.raw kind n))
      (htake : ∀ k, (m s).take (n + k) = m (s.take k))
      (happend : ∀ r r', m r ++ r' = m (r ++ r'))
      (h : (hashesBeforeQuote? s).map (Opening.raw kind n) = some opening) :
      opening? ((m s).take opening.length ++ v) = some opening := by
    obtain ⟨k, hk, rfl⟩ := Option.map_eq_some_iff.mp h
    rw [Opening.length, Nat.add_assoc, htake, happend, hmake, hashesBeforeQuote?_take hk]
    rfl
  rw [opening?.eq_def] at h
  split at h
  case h_1 =>
    cases h
    rfl
  case h_2 =>
    cases h
    rfl
  case h_3 =>
    cases h
    rfl
  case h_4 s =>
    apply hraw (m := fun r => 'b' :: 'r' :: r) (fun _ => rfl) _ (fun _ _ => rfl) h
    intro k
    rw [Nat.add_comm]
    rfl
  case h_5 s =>
    apply hraw (m := fun r => 'c' :: 'r' :: r) (fun _ => rfl) _ (fun _ _ => rfl) h
    intro k
    rw [Nat.add_comm]
    rfl
  case h_6 s =>
    apply hraw (m := fun r => 'r' :: r) (fun _ => rfl) _ (fun _ _ => rfl) h
    intro k
    rw [Nat.add_comm]
    rfl
  case h_7 => cases h

theorem length_le_opened {opening : Opening} {s : List Char}
    (hf : (opened opening s).reading.isFault = false) :
  opening.length ≤ (opened opening s).length
  := by
  cases opening with
  | byte =>
      have hle := two_le_char hf
      rw [Opening.length]
      rw [opened] at hf ⊢
      omega
  | quoted kind =>
      simp only [opened, string, Opening.length] at hf ⊢
      split at hf
      case h_1 => cases hf
      case h_2 m hm =>
        simp only [literal, ofLexeme]
        omega
  | raw kind letters hashes =>
      simp only [opened, rawString, Opening.length] at hf ⊢
      split at hf
      case h_1 => cases hf
      case h_2 m hm =>
        simp only [literal, ofLexeme]
        omega

theorem opened_append {opening : Opening} (hm : Mild u v) (hu : opening? (w ++ u) = some opening)
    (hf : (opened opening (w ++ u)).reading.isFault = false)
    (hw : (opened opening (w ++ u)).length = w.length) :
  opening? (w ++ v) = some opening ∧ opened opening (w ++ v) = opened opening (w ++ u)
  := by
  have hle := length_le_opened hf
  rw [hw] at hle
  constructor
  · have htake := opening?_take (v := w.drop opening.length ++ v) hu
    rwa [List.take_append_of_le_length hle, ← List.append_assoc, List.take_append_drop] at htake
  · cases opening with
    | byte => apply char_append hm hle hf hw
    | quoted kind => apply string_append hm hle hf hw
    | raw kind letters hashes => apply rawString_append hm hle hf hw

/-! ### Comments -/

/-- The text `v` ends a line that `u` ends. -/
def EndsLine (u v : List Char) : Prop :=
  lineLength v = 0 ∧ (v.head? = some '\n' → u.head? = some '\n')

theorem lineLength_cons :
  lineLength (c :: w) =
    if c = '\n' ∨ (c = '\r' ∧ w.head? = some '\n') then 0 else lineLength w + 1
  := by
  by_cases hfeed : c = '\n'
  · simp [hfeed, lineLength]
  · by_cases hreturn : c = '\r'
    · subst hreturn
      cases w with
      | nil => rfl
      | cons d w => by_cases hd : d = '\n' <;> simp [hd, lineLength]
    · simp [hfeed, hreturn, lineLength]

theorem lineLength_append (hv : EndsLine u v) (hw : lineLength (w ++ u) = w.length) :
  lineLength (w ++ v) = w.length
  := by
  induction w with
  | nil => apply hv.1
  | cons c w ih =>
      rw [List.cons_append, lineLength_cons] at hw ⊢
      split at hw
      case isTrue => cases hw
      case isFalse hu =>
        have hw' : lineLength (w ++ u) = w.length := Nat.succ.inj hw
        rw [if_neg, ih hw', List.length_cons]
        rw [not_or] at hu ⊢
        use hu.1
        rintro ⟨hc, hhead⟩
        apply hu.2
        use hc
        cases w with
        | nil => apply hv.2 hhead
        | cons d w => apply hhead

/-- What ends a line is neither a slash nor an exclamation mark. -/
theorem head?_of_lineLength (h : lineLength u = 0) (hc : c ≠ '\n') (hr : c ≠ '\r') :
  u.head? ≠ some c
  := by
  rintro hu
  obtain ⟨r, rfl⟩ := List.head?_eq_some_iff.mp hu
  simp [lineLength_cons, hc, hr] at h

theorem lineLength_of_append (h : lineLength (w ++ u) = w.length) :
  lineLength u = 0
  := by
  induction w with
  | nil => apply h
  | cons c w ih =>
      rw [List.cons_append, lineLength_cons] at h
      split at h
      case isTrue => cases h
      case isFalse => apply ih (Nat.succ.inj h)

/-- A line comment is read by its own characters. -/
theorem lineComment_of_lineLength (hu : lineLength u = 0) (hw : lineLength (w ++ u) = w.length) :
  lineComment ('/' :: '/' :: w ++ u) =
    if w[0]? = some '!' then ofLexeme (.doc true) (w.length + 2) ('/' :: '/' :: w)
    else if w[0]? = some '/' && w[1]? != some '/' then
      ofLexeme (.doc false) (w.length + 2) ('/' :: '/' :: w)
    else ⟨.trivia, w.length + 2⟩
  := by
  have hlength : lineLength ('/' :: '/' :: w ++ u) = w.length + 2 := by
    simp [lineLength_cons, hw]
  have hbang : u.head? ≠ some '!' := head?_of_lineLength hu (by decide) (by decide)
  have hslash : u.head? ≠ some '/' := head?_of_lineLength hu (by decide) (by decide)
  have hlexeme (make : String → Lexeme) :
      ofLexeme make (w.length + 2) ('/' :: '/' :: w ++ u) =
        ofLexeme make (w.length + 2) ('/' :: '/' :: w) := by
    rw [ofLexeme_append (u := []) (by simp), List.append_nil]
  rw [lineComment, hlength, hlexeme, hlexeme]
  obtain _ | ⟨d, _ | ⟨e, w⟩⟩ := w
  · cases u with
    | nil => rfl
    | cons c u =>
        simp only [List.head?_cons, ne_eq, Option.some.injEq] at hbang hslash
        simp [hbang, hslash]
  · cases u with
    | nil => rfl
    | cons c u =>
        simp only [List.head?_cons, ne_eq, Option.some.injEq] at hslash
        simp [hslash]
  · rfl

theorem length_lineComment :
  (lineComment ('/' :: '/' :: w)).length = lineLength w + 2
  := by
  rw [lineComment]
  simp only [ofLexeme, lineLength_cons]
  split_ifs <;> simp_all

theorem lineComment_append (hv : EndsLine u v)
    (hw : (lineComment ('/' :: '/' :: w ++ u)).length = w.length + 2) :
  lineComment ('/' :: '/' :: w ++ v) = lineComment ('/' :: '/' :: w ++ u)
  := by
  rw [List.cons_append, List.cons_append, length_lineComment] at hw
  have hu : lineLength (w ++ u) = w.length := Nat.add_right_cancel hw
  rw [lineComment_of_lineLength (lineLength_of_append hu) hu,
    lineComment_of_lineLength hv.1 (lineLength_append hv hu)]

theorem blockComment_append (hf : (blockComment ('/' :: '*' :: w ++ u)).reading.isFault = false)
    (hw : (blockComment ('/' :: '*' :: w ++ u)).length = w.length + 2) :
  blockComment ('/' :: '*' :: w ++ v) = blockComment ('/' :: '*' :: w ++ u)
  := by
  simp only [blockComment, List.cons_append, List.drop_succ_cons, List.drop_zero] at hf hw ⊢
  cases hmeasure : blockLength? 1 (w ++ u) with
  | none =>
      rw [hmeasure] at hf
      cases hf
  | some n =>
      rw [hmeasure] at hw
      have hn : n = w.length := by
        simp only [ofLexeme] at hw
        split_ifs at hw <;> exact Nat.add_right_cancel hw
      subst hn
      have hge := blockLength?_ge hmeasure (by simp)
      rw [IsLocal.append (isLocal_blockLength? 1) hmeasure (Nat.le_refl _)]
      obtain _ | ⟨d, _ | ⟨e, w⟩⟩ := w
      · simp at hge
      · simp at hge
      · simp [ofLexeme, leading]

/-! ### Any lexeme -/

/-- A scan, no matter whether its lexeme is joint. -/
def plain (scan : Scan) : Scan := ⟨scan.reading.plain, scan.length⟩

theorem start_slashes :
  start '/' ('/' :: w) = lineComment ('/' :: '/' :: w)
  := by
  have hspace : isWhitespace '/' = false := by decide
  simp [start, hspace]

theorem start_star :
  start '/' ('*' :: w) = blockComment ('/' :: '*' :: w)
  := by
  have hspace : isWhitespace '/' = false := by decide
  simp [start, hspace]

theorem start_slash (hslash : w.head? ≠ some '/') (hstar : w.head? ≠ some '*') :
  start '/' w = ⟨.lexeme (.punct '/' (joins w)), 1⟩
  := by
  have hspace : isWhitespace '/' = false := by decide
  have hdigit : isDigit '/' = false := by decide
  have hword : isWordStart '/' = false := by decide
  simp [start, hspace, hdigit, hword, opening?, isDelimiter, punctuation, hslash, hstar]

/-- What a character starts that is neither blank nor a slash. -/
theorem start_of_ne (hspace : isWhitespace c = false) (hslash : c ≠ '/') :
  start c w =
    match opening? (c :: w) with
    | some opening => opened opening (c :: w)
    | none =>
      if c = '"' then string .string 1 (c :: w)
      else if c = '\'' then apostrophe (c :: w)
      else if isDigit c then number (c :: w)
      else if isWordStart c then word (c :: w)
      else if isDelimiter c then ⟨.lexeme (.punct c false), 1⟩
      else if punctuation.contains c then ⟨.lexeme (.punct c (joins w)), 1⟩
      else ⟨.fault (.unexpected c), 1⟩
  := by
  cases hopening : opening? (c :: w) with
  | none =>
      simp only [start, hopening, hspace, hslash, decide_false, Bool.false_and, Bool.false_eq_true,
        if_false]
  | some opening =>
      simp only [start, hopening, hspace, hslash, decide_false, Bool.false_and, Bool.false_eq_true,
        if_false]

/-- The forms of what a character starts in front of a text. -/
inductive StartForm : Char → List Char → Scan → Prop
  | blank {c : Char} {w : List Char} : isWhitespace c → StartForm c w ⟨.trivia, 1⟩
  | line {w : List Char} : StartForm '/' ('/' :: w) (lineComment ('/' :: '/' :: w))
  | block {w : List Char} : StartForm '/' ('*' :: w) (blockComment ('/' :: '*' :: w))
  | slash {w : List Char} :
      w.head? ≠ some '/' → w.head? ≠ some '*' → StartForm '/' w ⟨.lexeme (.punct '/' (joins w)), 1⟩
  | opened {c : Char} {w : List Char} {opening : Opening} :
      opening? (c :: w) = some opening → StartForm c w (opened opening (c :: w))
  | string {w : List Char} : StartForm '"' w (string .string 1 ('"' :: w))
  | apostrophe {w : List Char} : StartForm '\'' w (apostrophe ('\'' :: w))
  | number {c : Char} {w : List Char} : isDigit c → StartForm c w (number (c :: w))
  | word {c : Char} {w : List Char} :
      opening? (c :: w) = none → isDigit c = false → isWordStart c → StartForm c w (word (c :: w))
  | delimiter {c : Char} {w : List Char} :
      isDelimiter c → StartForm c w ⟨.lexeme (.punct c false), 1⟩
  | punct {c : Char} {w : List Char} :
      c ≠ '/' → isDelimiter c = false → punctuation.contains c →
      StartForm c w ⟨.lexeme (.punct c (joins w)), 1⟩
  | unexpected {c : Char} {w : List Char} : StartForm c w ⟨.fault (.unexpected c), 1⟩

/-- What a character starts has one of the forms. -/
theorem startForm_start (c : Char) (w : List Char) :
  StartForm c w (start c w)
  := by
  by_cases hspace : isWhitespace c
  · rw [start, if_pos hspace]
    exact .blank hspace
  rw [Bool.not_eq_true] at hspace
  by_cases hc : c = '/'
  · subst hc
    by_cases hslash : w.head? = some '/'
    · obtain ⟨r, rfl⟩ := List.head?_eq_some_iff.mp hslash
      rw [start_slashes]
      exact .line
    by_cases hstar : w.head? = some '*'
    · obtain ⟨r, rfl⟩ := List.head?_eq_some_iff.mp hstar
      rw [start_star]
      exact .block
    rw [start_slash hslash hstar]
    exact .slash hslash hstar
  rw [start_of_ne hspace hc]
  split
  case h_1 hopening => exact .opened hopening
  case h_2 hopening =>
    split_ifs with hquote hapostrophe hdigit hword hdelimiter hpunctuation
    · subst hquote
      exact .string
    · subst hapostrophe
      exact .apostrophe
    · exact .number hdigit
    · exact .word hopening (eq_false_of_ne_true hdigit) hword
    · exact .delimiter hdelimiter
    · exact .punct hc (eq_false_of_ne_true hdelimiter) hpunctuation
    · exact .unexpected

theorem two_le_blockComment (hf : (blockComment ('/' :: '*' :: w)).reading.isFault = false) :
  2 ≤ (blockComment ('/' :: '*' :: w)).length
  := by
  simp only [blockComment, ofLexeme] at hf ⊢
  split at hf
  case h_1 => cases hf
  case h_2 n hn =>
    split_ifs <;> apply Nat.le_add_left

theorem startsWord_of_word (hc : isWordStart c) (hw : (word (c :: u)).length = 1) :
  startsWith isWordChar u = false
  := by
  simp only [word, ofLexeme] at hw
  rcases rawMarkLength_cons (c := c) (w := u) with hu | ⟨r, _, _, hu⟩
  · rw [hu, List.drop_zero, Nat.zero_add, runLength_cons, if_pos (isWordChar_of_isWordStart hc)] at hw
    by_contra h
    rw [Bool.not_eq_false] at h
    have hpos := runLength_pos h
    omega
  · rw [hu] at hw
    omega

theorem slash_append (hf : (start '/' (w ++ u)).reading.isFault = false)
    (hw : (start '/' (w ++ u)).length = w.length + 1)
    (hslash : w = [] → ∀ d ∈ v.head?, d = '/' ∨ d = '*' → u.head? = some d)
    (hline : w.head? = some '/' → EndsLine u v) :
  (start '/' (w ++ v)).plain = (start '/' (w ++ u)).plain
  := by
  obtain _ | ⟨d, w⟩ := w
  · have hu : u.head? ≠ some '/' ∧ u.head? ≠ some '*' := by
      constructor
      · intro hu
        obtain ⟨r, rfl⟩ := List.head?_eq_some_iff.mp hu
        rw [List.nil_append, start_slashes, length_lineComment, List.length_nil] at hw
        omega
      · intro hu
        obtain ⟨r, rfl⟩ := List.head?_eq_some_iff.mp hu
        rw [List.nil_append, start_star] at hf hw
        rw [List.length_nil] at hw
        have hle := two_le_blockComment hf
        omega
    rw [List.nil_append, List.nil_append, start_slash hu.1 hu.2, start_slash]
    · rfl
    · exact fun hv => hu.1 (hslash rfl _ hv (.inl rfl))
    · exact fun hv => hu.2 (hslash rfl _ hv (.inr rfl))
  · by_cases hd : d = '/'
    · subst hd
      rw [List.cons_append, start_slashes] at hw
      rw [List.cons_append, List.cons_append, start_slashes, start_slashes]
      congr 1
      apply lineComment_append (hline rfl) hw
    · by_cases hstar : d = '*'
      · subst hstar
        rw [List.cons_append, start_star] at hf hw
        rw [List.cons_append, List.cons_append, start_star, start_star]
        congr 1
        apply blockComment_append hf hw
      · rw [List.cons_append, List.cons_append, start_slash, start_slash]
        · rfl
        all_goals simp [hd, hstar]

/-- What a scan takes from the text before `u`, it takes from the text before `v`, where a point
at the start of `v` makes no number longer. -/
theorem start_append_of_mild (hm : Mild u v) (hf : (start c (w ++ u)).reading.isFault = false)
    (hw : (start c (w ++ u)).length = w.length + 1)
    (hslash : c = '/' → w = [] → ∀ d ∈ v.head?, d = '/' ∨ d = '*' → u.head? = some d)
    (hline : c = '/' → w.head? = some '/' → EndsLine u v)
    (hpoint : ∀ text, (start c (w ++ u)).reading = .lexeme (.literal .float text) →
      (c :: w).getLast? = some '.' → v.head? = some '.' → u.head? = some '.')
    (hfraction : isDigit c → (c :: w).all isDigitOrUnderscore → fractionLength v ≠ 0 →
      fractionLength u ≠ 0) :
  (start c (w ++ v)).plain = (start c (w ++ u)).plain
  := by
  by_cases hspace : isWhitespace c
  · simp [start, hspace]
  rw [Bool.not_eq_true] at hspace
  by_cases hc : c = '/'
  · subst hc
    apply slash_append hf hw (hslash rfl) (hline rfl)
  rw [start_of_ne hspace hc] at hf hw hpoint ⊢
  rw [start_of_ne hspace hc]
  cases hopening : opening? (c :: (w ++ u)) with
  | some opening =>
      rw [hopening] at hf hw
      obtain ⟨hopening', hsame⟩ := opened_append (w := c :: w) hm hopening hf hw
      rw [List.cons_append] at hopening' hsame
      simp only [hopening', hsame]
      rfl
  | none =>
      have hopening' : opening? (c :: (w ++ v)) = none := by
        by_cases hword : isWordStart c ∧ isDigit c = false ∧ c ≠ '"' ∧ c ≠ '\''
        · obtain ⟨hstart, hdigit, hquote, hapostrophe⟩ := hword
          rw [hopening] at hw
          simp only [hquote, hapostrophe, hdigit, hstart, if_false, if_true, Bool.false_eq_true] at hw
          apply opening?_append_none hopening hm.hashes
          rintro rfl
          apply hm.opening?_letter hopening (startsWord_of_word hstart hw)
        · apply opening?_eq_none <;> rintro rfl <;> apply hword <;> decide
      rw [hopening] at hf hw hpoint
      simp only [hopening'] at hf hw hpoint ⊢
      by_cases hquote : c = '"'
      · rw [if_pos hquote] at hf hw
        rw [if_pos hquote, if_pos hquote, ← List.cons_append, ← List.cons_append,
          string_append hm (by simp) hf hw]
      rw [if_neg hquote] at hf hw
      rw [if_neg hquote, if_neg hquote]
      by_cases hapostrophe : c = '\''
      · subst hapostrophe
        rw [if_pos rfl] at hf hw
        rw [if_pos rfl, if_pos rfl, ← List.cons_append, ← List.cons_append,
          apostrophe_append hm hf hw]
      rw [if_neg hapostrophe] at hf hw
      rw [if_neg hapostrophe, if_neg hapostrophe]
      by_cases hdigit : isDigit c
      · rw [if_neg hquote, if_neg hapostrophe, if_pos hdigit] at hpoint
        rw [if_pos hdigit] at hw
        rw [if_pos hdigit, if_pos hdigit, ← List.cons_append, ← List.cons_append,
          number_append hm (by simp) hw hpoint (hfraction hdigit)]
      rw [if_neg hdigit] at hf hw
      rw [if_neg hdigit, if_neg hdigit]
      by_cases hword : isWordStart c
      · rw [if_pos hword] at hw
        rw [if_pos hword, if_pos hword, ← List.cons_append, ← List.cons_append, word_append hm hw]
      rw [if_neg hword, if_neg hword]
      split_ifs <;> rfl

/-- What a scan takes from the text before `u`, it takes from the text before `v`. -/
theorem start_append (hm : Milder u v) (hf : (start c (w ++ u)).reading.isFault = false)
    (hw : (start c (w ++ u)).length = w.length + 1)
    (hslash : c = '/' → w = [] → ∀ d ∈ v.head?, d = '/' ∨ d = '*' → u.head? = some d)
    (hline : c = '/' → w.head? = some '/' → EndsLine u v) :
  (start c (w ++ v)).plain = (start c (w ++ u)).plain
  := by
  apply start_append_of_mild hm.toMild hf hw hslash hline
  · intro _ _ _
    apply hm.point
  · intro _ _
    apply hm.fraction

end Measures

end Scan

end ReturnCaptures
