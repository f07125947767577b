import ReturnCaptures.Proofs.Literals

/-!
# Numbers

An integer is lexed as one token, with or without a base, and so is a floating-point number with a
point, an exponent or the suffix of its type. There is one exception: an exponent whose digits start
with an underscore is not seen, so that its letter is taken for the start of a suffix. If there is a
fraction in front of it and no sign in it, the suffix still makes up a floating-point number.
-/

namespace ReturnCaptures

open Scan

/-! ### The grammar of numbers -/

/-- The decimal digits. -/
def decimalDigits : List Char := "0123456789".toList

/-- The letters of the bases, with their digits. -/
def bases : List (Char × List Char) :=
  [('x', "0123456789abcdefABCDEF".toList), ('o', "01234567".toList), ('b', "01".toList)]

/-- The suffixes of an integer; it may have none. -/
def integerSuffixes : List (List Char) :=
  ["", "u8", "u16", "u32", "u64", "u128", "usize", "i8", "i16", "i32", "i64", "i128",
    "isize"].map String.toList

/-- The suffixes of a floating-point number. -/
def floatSuffixes : List (List Char) := ["f32", "f64"].map String.toList

/-- Whether a text is made of the given digits, one at least, and of underscores. -/
def isMadeOf (digits : List Char) (s : List Char) : Bool :=
  s.all (fun c => digits.contains c || c == '_') && s.any digits.contains

/-- Whether a text is made of decimal digits and underscores, and starts with a digit. -/
def areDigits (s : List Char) : Bool :=
  startsWith decimalDigits.contains s && isMadeOf decimalDigits s

/-- The letter, the sign and the digits of an exponent. -/
structure Exponent where
  letter : Char
  sign : Option Char
  digits : List Char

namespace Exponent

/-- An exponent as it is written. -/
def text (e : Exponent) : List Char := e.letter :: (e.sign.toList ++ e.digits)

/-- Whether an exponent is written as it should be; its digits may start with underscores. -/
def isWritten (e : Exponent) : Bool :=
  ['e', 'E'].contains e.letter && [none, some '+', some '-'].contains e.sign &&
    isMadeOf decimalDigits e.digits

end Exponent

/-- How a number is written: with the letter of a base behind a zero, or without a base, with what
follows the point, if there is one, and with an exponent or none. A suffix gives the type. -/
inductive NumberForm where
  | based (base : Char) (digits suffix : List Char)
  | decimal (whole : List Char) (fraction : Option (List Char)) (exponent : Option Exponent)
      (suffix : List Char)

namespace NumberForm

/-- The point of a number and what follows it. -/
def fractionText : Option (List Char) → List Char
  | none => []
  | some digits => '.' :: digits

/-- The exponent of a number. -/
def exponentText : Option Exponent → List Char
  | none => []
  | some e => e.text

/-- A number as it is written. -/
def text : NumberForm → List Char
  | based base digits suffix => '0' :: base :: (digits ++ suffix)
  | decimal whole fraction exponent suffix =>
    whole ++ (fractionText fraction ++ (exponentText exponent ++ suffix))

/-- The forms of integers. -/
def isInteger : NumberForm → Bool
  | based base digits suffix =>
    bases.any (fun b => b.1 == base && isMadeOf b.2 digits) && integerSuffixes.contains suffix
  | decimal whole none none suffix => areDigits whole && integerSuffixes.contains suffix
  | _ => false

/-- The forms of floating-point numbers: digits with a point behind them and nothing else, and
digits with at least one of a fraction, an exponent and a suffix. -/
def isFloat : NumberForm → Bool
  | based _ _ _ => false
  | decimal whole (some []) none [] => areDigits whole
  | decimal whole fraction exponent suffix =>
    areDigits whole && fraction.all areDigits && exponent.all Exponent.isWritten &&
      (floatSuffixes.contains suffix || suffix.isEmpty && (fraction.isSome || exponent.isSome))

/-- Whether the digits of an exponent start with an underscore, and there is a sign in front of them
or no fraction in front of the exponent. -/
def hidesExponent : NumberForm → Bool
  | decimal _ fraction (some e) _ =>
    e.digits.head? == some '_' && (e.sign.isSome || fraction.isNone)
  | _ => false

end NumberForm

/-- The number literals with a given form. -/
inductive NumberLiteral (form : NumberForm) : LiteralKind → List Char → Prop
  | integer : form.isInteger → NumberLiteral form .integer form.text
  | float : form.isFloat → NumberLiteral form .float form.text

/-! ### Measuring the parts of a number -/

/-- The kind of a number with the given parts behind its digits. -/
def numberKind (fraction exponent suffix : List Char) : LiteralKind :=
  if fraction.isEmpty && exponent.isEmpty && !floatSuffixes.contains suffix then .integer
  else .float

section Parts

variable {whole fraction exponent suffix rest : List Char}

/-- The suffix of a floating-point type is told by its letters. -/
theorem contains_floatSuffixes :
  floatSuffixes.contains suffix =
    (leading suffix.length (suffix ++ rest) == "f32" || leading suffix.length (suffix ++ rest) == "f64")
  := by
  have heq (text : String) : (leading suffix.length (suffix ++ rest) == text) =
      (suffix == text.toList) := by
    rw [leading, List.take_left, Bool.eq_iff_iff, beq_iff_eq, beq_iff_eq, ← String.toList_inj,
      String.toList_ofList]
  rw [heq, heq, Bool.eq_iff_iff]
  simp [floatSuffixes]

/-- A number is measured part by part. -/
theorem number_of_parts (hwhole : whole.all isDigitOrUnderscore)
    (hbased : basedLength? (whole ++ (fraction ++ (exponent ++ (suffix ++ rest)))) = none)
    (hend : startsWith isDigitOrUnderscore (fraction ++ (exponent ++ (suffix ++ rest))) = false)
    (hfraction : fractionLength (fraction ++ (exponent ++ (suffix ++ rest))) = fraction.length)
    (hexponent : exponentLength (exponent ++ (suffix ++ rest)) = exponent.length)
    (hsuffix : suffixLength (suffix ++ rest) = suffix.length) :
  number (whole ++ (fraction ++ (exponent ++ (suffix ++ rest)))) =
    ofLexeme (.literal (numberKind fraction exponent suffix))
      (whole ++ (fraction ++ (exponent ++ suffix))).length
      (whole ++ (fraction ++ (exponent ++ (suffix ++ rest))))
  := by
  have hrun := runLength_of_startsWith hwhole hend
  have hdrop : (whole ++ (fraction ++ (exponent ++ (suffix ++ rest)))).drop
      (whole.length + fraction.length) = exponent ++ (suffix ++ rest) := by
    rw [← List.drop_drop, List.drop_left, List.drop_left]
  have hdrop' : (whole ++ (fraction ++ (exponent ++ (suffix ++ rest)))).drop
      (whole.length + fraction.length + exponent.length) = suffix ++ rest := by
    rw [← List.drop_drop, hdrop, List.drop_left]
  simp only [number, hbased, hrun, List.drop_left, hfraction, hdrop, hexponent, hdrop', hsuffix]
  have hkind : (if fraction.length != 0 || exponent.length != 0 ||
      leading suffix.length (suffix ++ rest) == "f32" ||
      leading suffix.length (suffix ++ rest) == "f64" then LiteralKind.float else .integer) =
      numberKind fraction exponent suffix := by
    rw [Bool.or_assoc, ← contains_floatSuffixes, numberKind]
    cases fraction <;> cases exponent <;> cases floatSuffixes.contains suffix <;> rfl
  have hlength : (whole ++ (fraction ++ (exponent ++ suffix))).length =
      whole.length + fraction.length + exponent.length + suffix.length := by
    simp only [List.length_append, Nat.add_assoc]
  rw [hkind, hlength]

/-- A number whose parts are measured is scanned up to the end of the last of them. -/
theorem scans_of_parts (hdigit : startsWith isDigit whole) (hwhole : whole.all isDigitOrUnderscore)
    (hnext : ∀ c ∈ (fraction ++ (exponent ++ (suffix ++ rest))).head?,
      isDigitOrUnderscore c = false ∧ c ∉ ['x', 'o', 'b'])
    (hfraction : fractionLength (fraction ++ (exponent ++ (suffix ++ rest))) = fraction.length)
    (hexponent : exponentLength (exponent ++ (suffix ++ rest)) = exponent.length)
    (hsuffix : suffixLength (suffix ++ rest) = suffix.length) :
  (Lexeme.literal (numberKind fraction exponent suffix)
      (String.ofList (whole ++ (fraction ++ (exponent ++ suffix))))).Scans
    (whole ++ (fraction ++ (exponent ++ suffix))) rest
  := by
  obtain _ | ⟨c, w⟩ := whole
  · cases hdigit
  have hend : startsWith isDigitOrUnderscore (fraction ++ (exponent ++ (suffix ++ rest))) = false := by
    generalize fraction ++ (exponent ++ (suffix ++ rest)) = v at hnext
    cases v with
    | nil => rfl
    | cons d v => exact (hnext d rfl).1
  have hbased := basedLength?_eq_none hwhole (List.cons_ne_nil c w) fun d hd => (hnext d hd).2
  have hassoc : c :: w ++ (fraction ++ (exponent ++ suffix)) ++ rest =
      c :: w ++ (fraction ++ (exponent ++ (suffix ++ rest))) := by
    simp only [List.append_assoc]
  use c, w ++ (fraction ++ (exponent ++ (suffix ++ rest))), hassoc
  rw [start_of_isDigit hdigit, ← List.cons_append,
    number_of_parts hwhole hbased hend hfraction hexponent hsuffix, ← hassoc, ofLexeme, leading,
    List.take_left]

end Parts

/-! ### The parts of literals -/

section Literal

variable {whole suffix text rest : List Char} {fraction : Option (List Char)}
  {exponent : Option Exponent} {kind : LiteralKind} {c : Char} {s : List Char} {e : Exponent}

/-- The letters that follow the digits of a number. -/
def numberLetters : List Char := ['e', 'E', 'u', 'i', 'f']

theorem classes_of_mem_decimalDigits (h : c ∈ decimalDigits) :
  isDigit c ∧ isWordStart c = false ∧ c ≠ '.'
  := by
  have hall : decimalDigits.all fun c => isDigit c && !isWordStart c && c != '.' := by decide
  simpa [and_assoc] using List.all_eq_true.mp hall c h

theorem classes_of_mem_numberLetters (h : c ∈ numberLetters) :
  isDigitOrUnderscore c = false ∧ c ∉ ['x', 'o', 'b'] ∧ c ≠ '.'
  := by
  have hall : numberLetters.all fun c =>
      !isDigitOrUnderscore c && !(List.contains ['x', 'o', 'b'] c) && c != '.' := by
    decide
  simpa [and_assoc] using List.all_eq_true.mp hall c h

theorem all_isDigitOrUnderscore (h : isMadeOf decimalDigits s) :
  s.all isDigitOrUnderscore
  := by
  rw [isMadeOf, Bool.and_eq_true] at h
  rw [List.all_eq_true] at h ⊢
  intro c hc
  have hclass := h.1 c hc
  rw [Bool.or_eq_true, List.contains_iff_mem] at hclass
  rw [isDigitOrUnderscore, Bool.or_eq_true]
  exact hclass.imp_left fun hdigit => (classes_of_mem_decimalDigits hdigit).1

/-- Digits start with a digit. -/
theorem exists_cons_of_areDigits (h : areDigits s) :
  ∃ c r, s = c :: r ∧ c ∈ decimalDigits ∧ s.all isDigitOrUnderscore
  := by
  rw [areDigits, Bool.and_eq_true] at h
  obtain _ | ⟨c, r⟩ := s
  · cases h.1
  · use c, r, rfl
    constructor
    · apply List.contains_iff_mem.mp h.1
    · apply all_isDigitOrUnderscore h.2

theorem startsWith_of_head? {p : Char → Bool} (h : ∀ c ∈ rest.head?, p c = false) :
  startsWith p rest = false
  := by
  cases rest with
  | nil => rfl
  | cons c rest => apply h c rfl

/-- A point with digits behind it is measured as a fraction, and so is one at the end. -/
theorem fractionLength_fractionText
    (hfraction : fraction.all areDigits ∨ fraction = some [] ∧ rest = [])
    (hrest : ∀ c ∈ rest.head?, c ∈ numberLetters) :
  fractionLength (NumberForm.fractionText fraction ++ rest) =
    (NumberForm.fractionText fraction).length
  := by
  cases fraction with
  | none =>
      obtain _ | ⟨c, rest⟩ := rest
      · rfl
      · have hc := (classes_of_mem_numberLetters (hrest c rfl)).2.2
        simp [NumberForm.fractionText, fractionLength, hc]
  | some digits =>
      have hend : startsWith isDigitOrUnderscore rest = false :=
        startsWith_of_head? fun c hc => (classes_of_mem_numberLetters (hrest c hc)).1
      have hdigits : startsWith (fun c => c == '.' || isWordStart c) (digits ++ rest) = false ∧
          digits.all isDigitOrUnderscore := by
        rcases hfraction with hdigits | ⟨hnil, rfl⟩
        · obtain ⟨c, r, rfl, hc, hall⟩ := exists_cons_of_areDigits hdigits
          obtain ⟨-, hword, hpoint⟩ := classes_of_mem_decimalDigits hc
          simp [startsWith, hword, hpoint, hall]
        · obtain rfl := Option.some.inj hnil
          exact ⟨rfl, rfl⟩
      rw [NumberForm.fractionText, List.cons_append, fractionLength, if_neg (by simp [hdigits.1]),
        runLength_of_startsWith hdigits.2 hend, List.length_cons, Nat.add_comm]

theorem mem_of_isWritten (h : e.isWritten) :
  e.letter ∈ ['e', 'E'] ∧ (∀ c ∈ e.sign, c ∈ ['+', '-']) ∧ isMadeOf decimalDigits e.digits
  := by
  simp only [Exponent.isWritten, Bool.and_eq_true, List.contains_iff_mem] at h
  refine ⟨h.1.1, ?_, h.2⟩
  rintro c hc
  rw [Option.mem_def] at hc
  simpa [hc] using h.1.2

/-- An exponent is measured if its digits start with a digit, and not seen otherwise. -/
theorem exponentLength_text (h : e.isWritten) (hrest : startsWith isDigitOrUnderscore rest = false) :
  exponentLength (e.text ++ rest) = if e.digits.head? = some '_' then 0 else e.text.length
  := by
  obtain ⟨hletter, hsign, hdigits⟩ := mem_of_isWritten h
  have hall := all_isDigitOrUnderscore hdigits
  obtain ⟨letter, sign, digits⟩ := e
  have hrun : runLength isDigitOrUnderscore (digits ++ rest) = digits.length :=
    runLength_of_startsWith hall hrest
  have hstart : startsWith isDigit (digits ++ rest) = !decide (digits.head? = some '_') := by
    rw [isMadeOf, Bool.and_eq_true] at hdigits
    obtain _ | ⟨c, r⟩ := digits
    · cases hdigits.2
    · simp only [List.all_cons, Bool.and_eq_true, Bool.or_eq_true, List.contains_iff_mem] at hdigits
      rcases hdigits.1.1 with hc | hc
      · have hne : c ≠ '_' := by
          rintro rfl
          revert hc
          decide
        simp [startsWith, (classes_of_mem_decimalDigits hc).1, hne]
      · obtain rfl := eq_of_beq hc
        rfl
  have hletter' : (letter = 'e' || letter = 'E') = true := by simpa using hletter
  cases sign with
  | none =>
      simp only [Exponent.text, Option.toList_none, List.nil_append, List.cons_append,
        exponentLength, hletter', if_true, hstart, hrun]
      by_cases hhead : digits.head? = some '_'
      · obtain ⟨r, rfl⟩ := List.head?_eq_some_iff.mp hhead
        simp [startsWith]
      · simp [hhead, Nat.add_comm]
  | some c =>
      have hc : startsWith isDigit (c :: (digits ++ rest)) = false ∧
          startsWith (fun c => c == '+' || c == '-') (c :: (digits ++ rest)) := by
        have hc := hsign c rfl
        simp only [List.mem_cons, List.not_mem_nil, or_false] at hc
        rcases hc with rfl | rfl
        · exact ⟨(by decide : isDigit '+' = false), rfl⟩
        · exact ⟨(by decide : isDigit '-' = false), rfl⟩
      simp only [Exponent.text, Option.toList_some, List.nil_append, List.cons_append,
        exponentLength, hletter', if_true, hc.1, hc.2, List.drop_one, List.tail_cons, hstart, hrun]
      by_cases hhead : digits.head? = some '_'
      · simp [hhead]
      · simp only [hhead, decide_false, Bool.not_false, Bool.and_self, if_true, if_false,
          Bool.false_eq_true, List.length_cons]
        omega

theorem exponentLength_eq_zero (h : ∀ c ∈ rest.head?, c ∉ ['e', 'E']) :
  exponentLength rest = 0
  := by
  obtain _ | ⟨c, rest⟩ := rest
  · rfl
  · have hc : ¬(c = 'e' || c = 'E') := by simpa using h c rfl
    rw [exponentLength, if_neg hc]

/-- The suffix of a type is a word. -/
theorem classes_of_suffix (h : suffix ∈ integerSuffixes ++ floatSuffixes) :
  suffixLength suffix = suffix.length ∧ suffix.all isWordChar ∧
    ∀ c ∈ suffix.head?, c ∈ numberLetters ∧ c ∉ ['e', 'E']
  := by
  have hall : (integerSuffixes ++ floatSuffixes).all fun s => suffixLength s == s.length &&
      s.all isWordChar && s.head?.all fun c => numberLetters.contains c &&
        !(List.contains ['e', 'E'] c) := by
    decide
  have hclass := List.all_eq_true.mp hall suffix h
  simp only [Bool.and_eq_true, beq_iff_eq, Option.all_eq_true, Bool.not_eq_true',
    List.contains_iff_mem, ← Bool.not_eq_true] at hclass
  use hclass.1.1, hclass.1.2
  intro c hc
  use (hclass.2 c hc).1, (hclass.2 c hc).2

/-- The parts that the literals without a base have in common. -/
structure DecimalParts (kind : LiteralKind) (whole : List Char) (fraction : Option (List Char))
    (exponent : Option Exponent) (suffix : List Char) : Prop where
  areDigits_whole : areDigits whole
  fractional : fraction.all areDigits ∨ fraction = some [] ∧ exponent = none ∧ suffix = []
  isWritten : ∀ e ∈ exponent, e.isWritten
  mem_suffixes : suffix ∈ integerSuffixes ++ floatSuffixes
  kind_eq : kind = if fraction.isNone && exponent.isNone && !floatSuffixes.contains suffix then
    .integer else .float

theorem NumberLiteral.decimalParts
    (h : NumberLiteral (.decimal whole fraction exponent suffix) kind text) :
  DecimalParts kind whole fraction exponent suffix
  := by
  cases h with
  | integer h =>
      obtain ⟨rfl, rfl, hwhole, hsuffix⟩ :
          fraction = none ∧ exponent = none ∧ areDigits whole ∧ suffix ∈ integerSuffixes := by
        cases fraction <;> cases exponent <;> simp [NumberForm.isInteger] at h ⊢
        exact h
      have hno : integerSuffixes.all fun s => !floatSuffixes.contains s := by decide
      have hfloat := List.all_eq_true.mp hno suffix hsuffix
      constructor
      · exact hwhole
      · left; rfl
      · simp
      · exact List.mem_append_left _ hsuffix
      · rw [hfloat]
        rfl
  | float h =>
      rw [NumberForm.isFloat.eq_def] at h
      split at h
      case h_1 => cases h
      case h_2 =>
        rename_i hform
        obtain ⟨rfl, rfl, rfl, rfl⟩ := NumberForm.decimal.inj hform
        constructor
        · exact h
        · right; exact ⟨rfl, rfl, rfl⟩
        · simp
        · decide
        · rfl
      case h_3 =>
        rename_i hform
        obtain ⟨rfl, rfl, rfl, rfl⟩ := NumberForm.decimal.inj hform
        simp only [Bool.and_eq_true, Bool.or_eq_true, List.isEmpty_iff] at h
        obtain ⟨⟨⟨hwhole, hfraction⟩, hexponent⟩, hsuffix⟩ := h
        constructor
        · exact hwhole
        · left; exact hfraction
        · intro e he
          obtain rfl := Option.mem_def.mp he
          exact hexponent
        · rcases hsuffix with hfloat | ⟨rfl, -⟩
          · exact List.mem_append_right _ (List.contains_iff_mem.mp hfloat)
          · decide
        · rw [if_neg]
          rcases hsuffix with hfloat | ⟨-, hsome | hsome⟩
          · simp only [hfloat, Bool.not_true, Bool.and_false, Bool.false_eq_true, not_false_iff]
          · obtain ⟨digits, rfl⟩ := Option.isSome_iff_exists.mp hsome
            exact Bool.false_ne_true
          · obtain ⟨e, rfl⟩ := Option.isSome_iff_exists.mp hsome
            simp

/-- What follows digits and a fraction is measured as an exponent and a suffix. -/
theorem scans_of_fraction {exponent suffix : List Char} (hwhole : areDigits whole)
    (hfraction : fraction.all areDigits ∨ fraction = some [] ∧ exponent ++ (suffix ++ rest) = [])
    (hnext : ∀ c ∈ (exponent ++ (suffix ++ rest)).head?, c ∈ numberLetters)
    (hexponent : exponentLength (exponent ++ (suffix ++ rest)) = exponent.length)
    (hsuffix : suffixLength (suffix ++ rest) = suffix.length) :
  (Lexeme.literal (numberKind (NumberForm.fractionText fraction) exponent suffix)
      (String.ofList (whole ++ (NumberForm.fractionText fraction ++ (exponent ++ suffix))))).Scans
    (whole ++ (NumberForm.fractionText fraction ++ (exponent ++ suffix))) rest
  := by
  obtain ⟨c, r, rfl, hc, hall⟩ := exists_cons_of_areDigits hwhole
  apply scans_of_parts _ hall _ (fractionLength_fractionText hfraction hnext) hexponent hsuffix
  · exact (classes_of_mem_decimalDigits hc).1
  · cases fraction with
    | none =>
        intro d hd
        obtain ⟨hdigit, hbase, -⟩ := classes_of_mem_numberLetters (hnext d hd)
        exact ⟨hdigit, hbase⟩
    | some digits =>
        rintro d ⟨⟩
        decide

section Decimal

variable (h : DecimalParts kind whole fraction exponent suffix)

include h

/-- A number is scanned whole if its exponent is seen. -/
theorem DecimalParts.scans (hseen : ∀ e ∈ exponent, e.digits.head? ≠ some '_') :
  (Lexeme.literal kind
      (String.ofList (NumberForm.decimal whole fraction exponent suffix).text)).Scans
    (NumberForm.decimal whole fraction exponent suffix).text []
  := by
  obtain ⟨hsuffix, -, hletters⟩ := classes_of_suffix h.mem_suffixes
  have hend : startsWith isDigitOrUnderscore suffix = false :=
    startsWith_of_head? fun c hc => (classes_of_mem_numberLetters (hletters c hc).1).1
  have hkind : numberKind (NumberForm.fractionText fraction) (NumberForm.exponentText exponent)
      suffix = kind := by
    rw [h.kind_eq]
    cases fraction <;> cases exponent <;> rfl
  rw [← hkind]
  apply scans_of_fraction h.areDigits_whole
  · apply h.fractional.imp_right
    rintro ⟨rfl, rfl, rfl⟩
    exact ⟨rfl, rfl⟩
  · rw [List.append_nil]
    cases exponent with
    | none => exact fun c hc => (hletters c hc).1
    | some e =>
        rintro c ⟨⟩
        exact List.mem_append_left ['u', 'i', 'f'] (mem_of_isWritten (h.isWritten e rfl)).1
  · rw [List.append_nil]
    cases exponent with
    | none => exact exponentLength_eq_zero fun c hc => (hletters c hc).2
    | some e =>
        rw [NumberForm.exponentText, exponentLength_text (h.isWritten e rfl) hend,
          if_neg (hseen e rfl)]
  · rw [List.append_nil, hsuffix]

section Hidden

variable {e : Exponent} (he : exponent = some e) (hhidden : e.digits.head? = some '_')

include he

theorem DecimalParts.all_areDigits :
  fraction.all areDigits
  := by
  apply h.fractional.resolve_right
  rintro ⟨-, hnone, -⟩
  rw [he] at hnone
  cases hnone

/-- The letter of an exponent starts a word, but no suffix of a type. -/
theorem DecimalParts.classes_of_letter :
  isWordStart e.letter ∧ isWordChar e.letter ∧ e.letter ∈ numberLetters ∧
    ∀ s ∈ floatSuffixes, s.head? ≠ some e.letter
  := by
  have hletter := (mem_of_isWritten (h.isWritten e he)).1
  simp only [List.mem_cons, List.not_mem_nil, or_false] at hletter
  rcases hletter with hletter | hletter <;> rw [hletter] <;> decide

include hhidden

theorem DecimalParts.exponentLength_hidden :
  exponentLength (e.text ++ suffix) = 0
  := by
  have hletters := (classes_of_suffix h.mem_suffixes).2.2
  rw [exponentLength_text (h.isWritten e he) _, if_pos hhidden]
  exact startsWith_of_head? fun c hc => (classes_of_mem_numberLetters (hletters c hc).1).1

/-- The letter of an exponent that is not seen starts a suffix, which the sign ends. -/
theorem DecimalParts.scans_letter {c : Char} (hsign : e.sign = some c) :
  (Lexeme.literal (numberKind (NumberForm.fractionText fraction) [] [e.letter])
      (String.ofList (whole ++ (NumberForm.fractionText fraction ++ [e.letter])))).Scans
    (whole ++ (NumberForm.fractionText fraction ++ [e.letter])) (c :: (e.digits ++ suffix))
  := by
  obtain ⟨hstart, hchar, hletter, -⟩ := h.classes_of_letter he
  have hexponent := h.exponentLength_hidden he hhidden
  rw [Exponent.text, hsign] at hexponent
  have hc : isWordChar c = false := by
    have hc := (mem_of_isWritten (h.isWritten e he)).2.1 c hsign
    simp only [List.mem_cons, List.not_mem_nil, or_false] at hc
    rcases hc with rfl | rfl <;> decide
  apply scans_of_fraction h.areDigits_whole (.inl (h.all_areDigits he))
  · rintro d ⟨⟩
    exact hletter
  · exact hexponent
  · have hword : startsWith isWordStart ([e.letter] ++ c :: (e.digits ++ suffix)) := hstart
    rw [suffixLength, if_pos hword]
    exact runLength_of_startsWith (by simp [hchar]) hc

/-- An exponent that is not seen and has no sign is a suffix, together with the suffix behind it. -/
theorem DecimalParts.scans_word (hsign : e.sign = none) :
  (Lexeme.literal (if fraction.isSome then .float else .integer)
      (String.ofList (NumberForm.decimal whole fraction exponent suffix).text)).Scans
    (NumberForm.decimal whole fraction exponent suffix).text []
  := by
  obtain ⟨hstart, hchar, hletter, hfloat⟩ := h.classes_of_letter he
  have hexponent := h.exponentLength_hidden he hhidden
  have hall : (e.text ++ suffix).all isWordChar := by
    have hdigits := all_isDigitOrUnderscore (mem_of_isWritten (h.isWritten e he)).2.2
    have hsuffix := (classes_of_suffix h.mem_suffixes).2.1
    simp only [List.all_eq_true] at hdigits hsuffix
    simp only [Exponent.text, hsign, Option.toList_none, List.nil_append, List.cons_append,
      List.all_cons, hchar, Bool.true_and, List.all_append, Bool.and_eq_true, List.all_eq_true]
    exact ⟨fun c hc => isWordChar_of_isDigitOrUnderscore (hdigits c hc), hsuffix⟩
  have hkind : numberKind (NumberForm.fractionText fraction) [] (e.text ++ suffix) =
      if fraction.isSome then .float else .integer := by
    have hno : floatSuffixes.contains (e.text ++ suffix) = false := by
      rw [← Bool.not_eq_true, List.contains_iff_mem]
      intro hmem
      apply hfloat _ hmem
      rfl
    rw [numberKind, hno]
    cases fraction <;> rfl
  subst he
  rw [← hkind]
  apply @scans_of_fraction _ _ _ [] (e.text ++ suffix) h.areDigits_whole
  · left
    exact h.all_areDigits rfl
  · rintro c ⟨⟩
    exact hletter
  · rw [List.append_nil]
    exact hexponent
  · have hword : startsWith isWordStart (e.text ++ suffix ++ []) := hstart
    rw [suffixLength, if_pos hword]
    exact runLength_of_startsWith hall rfl

end Hidden

end Decimal

/-! ### Whole literals -/

/-- A number with a base is scanned whole, for its digits are characters of words. -/
theorem scans_based {base : Char} {digits : List Char}
    (h : (NumberForm.based base digits suffix).isInteger) :
  (Lexeme.literal .integer (String.ofList (NumberForm.based base digits suffix).text)).Scans
    (NumberForm.based base digits suffix).text []
  := by
  simp only [NumberForm.isInteger, Bool.and_eq_true, List.any_eq_true, beq_iff_eq,
    List.contains_iff_mem] at h
  obtain ⟨⟨⟨letter, allowed⟩, hmem, rfl, hdigits⟩, hsuffix⟩ := h
  have hbases : bases.all fun b => (b.1 == 'x' || b.1 == 'o' || b.1 == 'b') && b.2.all isWordChar := by
    decide
  have hbase := List.all_eq_true.mp hbases _ hmem
  simp only [Bool.and_eq_true, Bool.or_eq_true, beq_iff_eq, List.all_eq_true] at hbase
  have hall : (digits ++ suffix).all isWordChar := by
    have hsuffix := (classes_of_suffix (List.mem_append_left floatSuffixes hsuffix)).2.1
    rw [isMadeOf, Bool.and_eq_true, List.all_eq_true] at hdigits
    rw [List.all_append, hsuffix, Bool.and_true, List.all_eq_true]
    intro c hc
    have hclass := hdigits.1 c hc
    rw [Bool.or_eq_true, List.contains_iff_mem] at hclass
    rcases hclass with hdigit | hunderscore
    · exact hbase.2 c hdigit
    · rw [eq_of_beq hunderscore]
      decide
  have hbased : basedLength? ('0' :: letter :: (digits ++ suffix)) =
      some ('0' :: letter :: (digits ++ suffix)).length := by
    have hrun := runLength_of_startsWith (v := []) hall rfl
    rw [List.append_nil] at hrun
    rw [basedLength?, if_pos (by simpa [or_assoc] using hbase.1), hrun, List.length_cons,
      List.length_cons, Nat.add_comm]
  use '0', letter :: (digits ++ suffix), List.append_nil _
  have hnumber : start '0' (letter :: (digits ++ suffix)) = _ := start_of_isDigit (by decide)
  rw [hnumber, number, hbased, NumberForm.text]
  simp only [ofLexeme, leading, List.take_length]

/-- A token that makes up a text is what is scanned at the start of the text. -/
theorem lexeme_of_scans {l : Lexeme} {t : Token} {file : String} (h : l.Scans s rest)
    (htokens : tokensOf file (s ++ rest) = .ok [t]) :
  t.lexeme = l
  := by
  rw [tokensOf_eq_tokensFrom, tokensFrom_append h] at htokens
  cases hrest : tokensFrom file (Position.origin.after s) rest with
  | ok tokens =>
      rw [hrest] at htokens
      cases htokens
      rfl
  | error rejection =>
      rw [hrest] at htokens
      cases htokens

theorem DecimalParts.tokensOf_iff (h : DecimalParts kind whole fraction exponent suffix)
    (file : String) :
  tokensOf file (NumberForm.decimal whole fraction exponent suffix).text =
      .ok [⟨.literal kind (String.ofList (NumberForm.decimal whole fraction exponent suffix).text),
        .between file .origin
          (Position.origin.after (NumberForm.decimal whole fraction exponent suffix).text)⟩] ↔
    (NumberForm.decimal whole fraction exponent suffix).hidesExponent = false
  := by
  by_cases hseen : ∀ e ∈ exponent, e.digits.head? ≠ some '_'
  · have hhides : (NumberForm.decimal whole fraction exponent suffix).hidesExponent = false := by
      cases exponent with
      | none => rfl
      | some e => simp [NumberForm.hidesExponent, hseen e rfl]
    exact iff_of_true (tokensOf_of_scans (h.scans hseen) file) hhides
  simp only [not_forall, not_not] at hseen
  obtain ⟨e, he, hhidden⟩ := hseen
  rw [Option.mem_def] at he
  have hkind : kind = .float := by
    rw [h.kind_eq, he]
    simp
  cases hsign : e.sign with
  | none =>
      have hscans := h.scans_word he hhidden hsign
      cases fraction with
      | some digits =>
          apply iff_of_true
          · rw [hkind]
            exact tokensOf_of_scans hscans file
          · simp [NumberForm.hidesExponent, he, hsign]
      | none =>
          apply iff_of_false
          · intro htokens
            rw [tokensOf_of_scans hscans, hkind] at htokens
            cases htokens
          · simp [NumberForm.hidesExponent, he, hhidden]
  | some c =>
      have hscans := h.scans_letter he hhidden hsign
      apply iff_of_false
      · intro htokens
        have htext : (NumberForm.decimal whole fraction exponent suffix).text =
            whole ++ (NumberForm.fractionText fraction ++ [e.letter]) ++
              c :: (e.digits ++ suffix) := by
          simp [NumberForm.text, he, NumberForm.exponentText, Exponent.text, hsign]
        rw [htext] at htokens
        have hlexeme := lexeme_of_scans hscans htokens
        have hlength := congrArg (fun l => l.text.toList.length) hlexeme
        simp only [Lexeme.text, String.toList_ofList, List.length_append, List.length_cons] at hlength
        omega
      · simp [NumberForm.hidesExponent, he, hhidden, hsign]

/-- A number literal is lexed as one token of its kind, unless it has an exponent that is not
seen. -/
theorem tokensOf_numberLiteral_iff {form : NumberForm} (h : NumberLiteral form kind text)
    (file : String) :
  tokensOf file text = .ok [⟨.literal kind (String.ofList text),
      .between file .origin (Position.origin.after text)⟩] ↔
    form.hidesExponent = false
  := by
  cases form with
  | based base digits suffix =>
      cases h with
      | integer hform => exact iff_of_true (tokensOf_of_scans (scans_based hform) file) rfl
      | float hform => cases hform
  | decimal whole fraction exponent suffix =>
      have htext : text = (NumberForm.decimal whole fraction exponent suffix).text := by
        cases h <;> rfl
      rw [htext]
      exact h.decimalParts.tokensOf_iff file

theorem tokensOf_numberLiteral_signed :
  NumberLiteral (.decimal "1_0".toList (some "5".toList) (some ⟨'e', some '-', "3_".toList⟩)
      "f64".toList) .float "1_0.5e-3_f64".toList ∧
    tokensOf "f.rs" "1_0.5e-3_f64".toList = .ok [⟨.literal .float "1_0.5e-3_f64",
      .between "f.rs" .origin (Position.origin.after "1_0.5e-3_f64".toList)⟩]
  := by
  have hliteral : NumberLiteral (.decimal "1_0".toList (some "5".toList)
      (some ⟨'e', some '-', "3_".toList⟩) "f64".toList) .float "1_0.5e-3_f64".toList :=
    .float (by decide)
  exact ⟨hliteral, (tokensOf_numberLiteral_iff hliteral "f.rs").mpr rfl⟩

/-- With an underscore behind its letter, an exponent makes an integer with a suffix of a number. -/
theorem tokensOf_numberLiteral_underscore :
  NumberLiteral (.decimal ['1'] none (some ⟨'e', none, "_5".toList⟩) []) .float "1e_5".toList ∧
    tokensOf "f.rs" "1e_5".toList = .ok [⟨.literal .integer "1e_5",
      .between "f.rs" .origin (Position.origin.after "1e_5".toList)⟩]
  := by
  have hliteral : NumberLiteral (.decimal ['1'] none (some ⟨'e', none, "_5".toList⟩) []) .float
      "1e_5".toList :=
    .float (by decide)
  exact ⟨hliteral, by decide⟩

end Literal

end ReturnCaptures
