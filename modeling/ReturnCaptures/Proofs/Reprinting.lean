import ReturnCaptures.Proofs.Operators

/-!
# Printed trees printed again

Trees that are read again from their printed text are printed as they were. Reading them again
changes nothing but which punctuation is joint. The printer looks at that twice: joint punctuation
is printed directly in front of other punctuation and of lifetimes, and an atom behind `::`, `->`
or `=>` depends on whether the first character of the two is joint. What is printed together is
joint when it is read again, and what is printed apart is not, so both come out as they did
before.
-/

namespace ReturnCaptures

open Scan TokenTree

namespace Printer

/-! ### What the printer sees of an atom -/

namespace Atom

variable {a : Atom} {c : Char} {v : List Char}

@[simp]
theorem text_rejoined : (a.rejoined v).text = a.text
  := by
  rw [← toList_text_toLexeme, toLexeme_rejoined, ← Lexeme.text_plain, Lexeme.plain_rejoined,
    Lexeme.text_plain, toList_text_toLexeme]

@[simp]
theorem isPunct_rejoined : (a.rejoined v).isPunct c = a.isPunct c
  := by
  rcases a with ⟨_ | _⟩ | _ | _ <;> rfl

@[simp]
theorem isAnyPunct_rejoined : (a.rejoined v).isAnyPunct = a.isAnyPunct
  := by
  rcases a with ⟨_ | _⟩ | _ | _ <;> rfl

@[simp]
theorem isLifetime_rejoined : (a.rejoined v).isLifetime = a.isLifetime
  := by
  rcases a with ⟨_ | _⟩ | _ | _ <;> rfl

@[simp]
theorem isPathWord_rejoined : (a.rejoined v).isPathWord = a.isPathWord
  := by
  rcases a with ⟨_ | _⟩ | _ | _ <;> rfl

@[simp]
theorem closes_rejoined : (a.rejoined v).closes = a.closes
  := by
  rcases a with ⟨_ | _⟩ | _ | _ <;> rfl

@[simp]
theorem beforeOperand_rejoined : (a.rejoined v).beforeOperand = a.beforeOperand
  := by
  rcases a with ⟨_ | _⟩ | _ | _ <;> rfl

@[simp]
theorem merges_rejoined {b : Atom} {w : List Char} :
  (a.rejoined v).merges (b.rejoined w) = a.merges b
  := by
  rw [merges, merges, text_rejoined, text_rejoined]

end Atom

@[simp]
theorem endsInPoint_rejoined {a : Atom} {v : List Char} : endsInPoint (a.rejoined v) = endsInPoint a
  := by
  rcases a with ⟨_ | _⟩ | _ | _ <;> rfl

/-! ### Separators of atoms that are read again -/

/-- Whether an atom is printed directly behind joint punctuation. -/
def Atom.clings (a : Atom) : Bool := a.isAnyPunct || a.isLifetime

/-- What stands between two atoms of which the first is not joint to the second. -/
def looseSeparator (before : Option Atom) (prev cur : Atom) : List Char :=
  if prev.isAnyPunct && cur.isAnyPunct && prev.merges cur then [' ']
  else if cur.isPunct ',' || cur.isPunct ';' then []
  else if prev.isPunct ':' then blankUnless (endsSeparator before)
  else if cur.isPunct ':' then blankUnless (gluesColon prev)
  else blankUnless (glues before prev cur)

/-- The pairs of characters whose second one is printed in view of whether the first one is joint.
-/
def viewedPairs : List (Char × Char) := [(':', ':'), ('-', '>'), ('=', '>')]

/-- Whether `before`, which stands in front of `prev`, is joint is the same when it is read again in
front of `w`, as far as the printer asks. -/
def KeepsView (before : Option Atom) (w : List Char) (prev : Atom) : Prop :=
  ∀ b ∈ before, ∀ p ∈ viewedPairs, b.isPunct p.1 → prev.isPunct p.2 →
    (b.rejoined w).isJoint = b.isJoint

section Separator

variable {before : Option Atom} {prev cur : Atom} {rest : List Atom} {u v w : List Char}

theorem separator_eq (hprev : ∀ inner text, prev ≠ .lexeme (.doc inner text)) :
  separator before prev cur =
    if prev.isJoint && cur.clings then [] else looseSeparator before prev cur
  := by
  rcases prev with ⟨_ | _⟩ | _ | _ <;> first | rfl | exact absurd rfl (hprev _ _)

theorem endsSeparator_rejoined (h : KeepsView before w prev) (hprev : prev.isPunct ':') :
  endsSeparator (before.map (·.rejoined w)) = endsSeparator before
  := by
  cases before with
  | none => rfl
  | some b =>
      rw [Option.map_some, endsSeparator, endsSeparator, Option.any_some, Option.any_some,
        Atom.isPunct_rejoined]
      cases hb : b.isPunct ':' with
      | false => rfl
      | true => rw [h b rfl (':', ':') (by decide) hb hprev]

theorem isArrowShaft_rejoined (h : KeepsView before w prev) (hprev : prev.isPunct '>') :
  (before.map (·.rejoined w)).any Atom.isArrowShaft = before.any Atom.isArrowShaft
  := by
  cases before with
  | none => rfl
  | some b =>
      rw [Option.map_some, Option.any_some, Option.any_some, Atom.isArrowShaft, Atom.isArrowShaft,
        Atom.isPunct_rejoined, Atom.isPunct_rejoined]
      cases hshaft : b.isPunct '-' || b.isPunct '=' with
      | false => rw [Bool.and_false, Bool.and_false]
      | true =>
          rcases Bool.or_eq_true_iff.mp hshaft with hb | hb
          · rw [h b rfl ('-', '>') (by decide) hb hprev]
          · rw [h b rfl ('=', '>') (by decide) hb hprev]

theorem all_beforeOperand_rejoined :
  (before.map (·.rejoined w)).all Atom.beforeOperand = before.all Atom.beforeOperand
  := by
  cases before with
  | none => rfl
  | some b => rw [Option.map_some, Option.all_some, Option.all_some, Atom.beforeOperand_rejoined]

theorem gluesOpening_rejoined (h : KeepsView before w prev) :
  gluesOpening (before.map (·.rejoined w)) (prev.rejoined v) = gluesOpening before prev
  := by
  have harrow : (prev.isPunct '>' && !(before.map (·.rejoined w)).any Atom.isArrowShaft) =
      (prev.isPunct '>' && !before.any Atom.isArrowShaft) := by
    cases hprev : prev.isPunct '>' with
    | false => rfl
    | true => rw [isArrowShaft_rejoined h hprev]
  rw [gluesOpening.eq_def, gluesOpening.eq_def]
  simp only [Atom.isPathWord_rejoined, Atom.isPunct_rejoined, harrow, all_beforeOperand_rejoined]
  cases prev <;> rfl

theorem gluesPlain_rejoined :
  gluesPlain (before.map (·.rejoined w)) (prev.rejoined v) (cur.rejoined u) =
    gluesPlain before prev cur
  := by
  simp only [gluesPlain, isPrefixOperator, Atom.isPathWord_rejoined, Atom.isPunct_rejoined,
    endsInPoint_rejoined, all_beforeOperand_rejoined]

theorem glues_rejoined (h : KeepsView before w prev) :
  glues (before.map (·.rejoined w)) (prev.rejoined v) (cur.rejoined u) = glues before prev cur
  := by
  have hopening := gluesOpening_rejoined (v := v) h
  have hplain : gluesPlain (before.map (·.rejoined w)) (prev.rejoined v) (cur.rejoined u) = _ :=
    gluesPlain_rejoined
  rcases prev with l | ⟨⟨⟩⟩ | d <;> rcases cur with m | ⟨⟨⟩⟩ | ⟨⟨⟩⟩ <;> first | rfl | assumption

/-- Where the first atom is not joint, the two are printed as they were. -/
theorem looseSeparator_rejoined (h : KeepsView before w prev) :
  looseSeparator (before.map (·.rejoined w)) (prev.rejoined v) (cur.rejoined u) =
    looseSeparator before prev cur
  := by
  have hview : (if prev.isPunct ':' then blankUnless (endsSeparator (before.map (·.rejoined w)))
      else if cur.isPunct ':' then blankUnless (gluesColon prev)
      else blankUnless (glues before prev cur)) =
      if prev.isPunct ':' then blankUnless (endsSeparator before)
      else if cur.isPunct ':' then blankUnless (gluesColon prev)
      else blankUnless (glues before prev cur) := by
    split
    case isTrue hprev => rw [endsSeparator_rejoined h hprev]
    case isFalse => rfl
  simp only [looseSeparator, Atom.isAnyPunct_rejoined, Atom.merges_rejoined, Atom.isPunct_rejoined,
    gluesColon, Atom.isPathWord_rejoined, Atom.closes_rejoined, glues_rejoined h] at hview ⊢
  rw [hview]

end Separator

/-! ### Which atoms are joint when they are read again -/

/-- The atom that a lexeme is; a delimiter opens or closes a group. -/
def Atom.ofLexeme : Lexeme → Atom
  | .punct c j =>
    match Delimiter.ofOpening? c, Delimiter.ofClosing? c with
    | some d, _ => .opening d
    | none, some d => .closing d
    | none, none => .lexeme (.punct c j)
  | l => .lexeme l

/-- An atom is no lexeme that is a delimiter. -/
def Atom.IsProper (a : Atom) : Prop := Atom.ofLexeme a.toLexeme = a

section Joint

variable {before : Option Atom} {prev cur : Atom} {rest : List Atom} {u v w : List Char} {c : Char}
  {j : Bool} {l : Lexeme}

theorem Atom.ofLexeme_of_isDelimiter (h : l.isDelimiter = false) :
  Atom.ofLexeme l = .lexeme l
  := by
  cases l with
  | punct c j =>
      rw [Lexeme.isDelimiter, Bool.or_eq_false_iff, Option.isSome_eq_false_iff,
        Option.isNone_iff_eq_none, Option.isSome_eq_false_iff, Option.isNone_iff_eq_none] at h
      rw [ofLexeme, h.1, h.2]
  | _ => rfl

theorem isDelimiter_of_isProper (h : (Atom.lexeme (.punct c j)).IsProper) :
  Scan.isDelimiter c = false
  := by
  by_contra hc
  rw [Bool.not_eq_false] at hc
  simp only [Scan.isDelimiter, Bool.or_eq_true, beq_iff_eq] at hc
  obtain ((((rfl | rfl) | rfl) | rfl) | rfl) | rfl := hc <;> cases h

theorem isProper_rejoined {a : Atom} (h : a.IsProper) (v : List Char) :
  (a.rejoined v).IsProper
  := by
  rcases a with (l | d | d)
  · cases l with
    | punct c j =>
        rw [Atom.IsProper, Atom.toLexeme, Atom.ofLexeme] at h
        rw [Atom.IsProper, Atom.toLexeme_rejoined, Atom.toLexeme, Lexeme.rejoined, Atom.ofLexeme]
        split at h
        case h_1 => cases h
        case h_2 => cases h
        case h_3 => rfl
    | _ => rfl
  · exact h
  · exact h

/-- Punctuation and lifetimes make punctuation directly in front of them joint. -/
theorem joins_clings (hcur : cur.toLexeme.Stands u) (hproper : cur.IsProper) (hclings : cur.clings)
    (hslash : ∀ c j, cur = .lexeme (.punct '/' j) → c = '/' ∨ c = '*' → v.head? ≠ some c) :
  joins (cur.text ++ v)
  := by
  obtain ⟨c, r, hr, hopens, -⟩ := hcur.exists_start
  rw [Atom.toList_text_toLexeme] at hr
  cases cur with
  | opening | closing => cases hclings
  | lexeme l =>
      cases l with
      | lifetime name =>
          obtain rfl : c = '\'' := eq_of_beq hopens
          rw [hr, List.cons_append, joins_cons]
          rfl
      | punct d j =>
          have htext : (Atom.lexeme (.punct d j)).text = [d] := String.toList_singleton d
          obtain ⟨rfl, rfl⟩ := List.cons_eq_cons.mp (htext.symm.trans hr)
          have hmark : isMarkChar d := (Bool.and_eq_true_iff.mp hopens).2
          rw [isMarkChar, isDelimiter_of_isProper hproper, Bool.false_or] at hmark
          rw [htext, List.singleton_append, joins_cons, hmark, Bool.true_or, Bool.true_and,
            Bool.not_eq_true', Bool.and_eq_false_imp]
          intro hd
          obtain rfl := eq_of_beq hd
          rw [Bool.or_eq_false_iff, beq_eq_false_iff_ne, beq_eq_false_iff_ne]
          exact ⟨hslash '/' j rfl (.inl rfl), hslash '*' j rfl (.inr rfl)⟩
      | ident | keyword | literal | doc => cases hclings

/-- Blanks in front of a text do not make punctuation joint. -/
theorem joins_isBlank {b : List Char} (hb : isBlank b) (hne : b ≠ []) :
  joins (b ++ v) = false
  := by
  obtain ⟨c, b, rfl⟩ := List.exists_cons_of_ne_nil hne
  rw [isBlank, List.all_cons, Bool.and_eq_true] at hb
  have hall : ('\'' :: punctuation).all fun c => !isWhitespace c := by decide
  rw [List.cons_append, joins_cons, Bool.and_eq_false_iff]
  left
  by_contra hc
  rw [Bool.not_eq_false, Bool.or_eq_true, List.contains_iff_mem, beq_iff_eq] at hc
  have hno := List.all_eq_true.mp hall c (List.mem_cons.mpr hc.symm)
  rw [hb.1] at hno
  cases hno

/-- Punctuation is joint to what it is printed directly in front of, and to nothing else. -/
theorem joins_textAfter_clings (hcur : ∀ a ∈ cur :: rest, ∃ u, a.toLexeme.Stands u)
    (hchain : (cur :: rest).IsChain fun a b => SlashApart a.toLexeme b.toLexeme)
    (hproper : cur.IsProper) (hclings : cur.clings) :
  joins (textAfter before prev (cur :: rest)) ↔ separator before prev cur = []
  := by
  rw [textAfter, List.append_assoc]
  constructor
  · intro hjoins
    by_contra hne
    rw [joins_isBlank (isBlank_separator before prev cur) hne] at hjoins
    cases hjoins
  · intro hnone
    rw [List.forall_mem_cons] at hcur
    obtain ⟨u, hu⟩ := hcur.1
    rw [hnone, List.nil_append]
    apply joins_clings hu hproper hclings
    rintro c j rfl hc
    cases rest with
    | nil => simp [textAfter]
    | cons next rest =>
        obtain ⟨v, hv⟩ := hcur.2 next List.mem_cons_self
        apply head?_textAfter_slash hc hv
        exact (List.isChain_cons_cons.mp hchain).1

/-- An atom keeps the view of the atom it is printed in front of. -/
theorem keepsView_textAfter (before : Option Atom) (prev cur : Atom) (rest : List Atom) :
  KeepsView (some prev) (textAfter before prev (cur :: rest)) cur
  := by
  rintro _ ⟨⟩ ⟨c, d⟩ hpair hc hd
  have hview : viewedPairs.all fun p => operatorPairs.contains p && !sticks p.1 p.2 := by decide
  have hmem := List.all_eq_true.mp hview _ hpair
  rw [Bool.and_eq_true, List.contains_iff_mem, Bool.not_eq_true'] at hmem
  obtain ⟨j, rfl⟩ := Atom.exists_of_isPunct hc
  obtain ⟨k, rfl⟩ := Atom.exists_of_isPunct hd
  have hjoins : joins (textAfter before (.lexeme (.punct c j)) (.lexeme (.punct d k) :: rest)) =
      (j || sticks c d) :=
    joins_textAfter hmem.1 (beq_self_eq_true c) (beq_self_eq_true d)
  rw [hmem.2, Bool.or_false] at hjoins
  rw [Atom.rejoined, Lexeme.rejoined, Atom.isJoint, Lexeme.isJoint,
    (class_of_mem_operatorPairs hmem.1).1, hjoins]
  rfl

/-- The separator between two atoms is the same when both are read again. -/
theorem separator_rejoined (hbefore : KeepsView before w prev) (hprev : prev.IsProper)
    (hcur : ∀ a ∈ cur :: rest, ∃ u, a.toLexeme.Stands u)
    (hchain : (cur :: rest).IsChain fun a b => SlashApart a.toLexeme b.toLexeme)
    (hproper : cur.IsProper) :
  separator (before.map (·.rejoined w)) (prev.rejoined (textAfter before prev (cur :: rest)))
      (cur.rejoined v) = separator before prev cur
  := by
  by_cases hdoc : ∃ inner text, prev = .lexeme (.doc inner text)
  · obtain ⟨inner, text, rfl⟩ := hdoc
    rfl
  have hno : ∀ inner text, prev ≠ .lexeme (.doc inner text) :=
    fun inner text h => hdoc ⟨inner, text, h⟩
  have hno' : ∀ inner text,
      prev.rejoined (textAfter before prev (cur :: rest)) ≠ .lexeme (.doc inner text) := by
    intro inner text h
    rcases prev with ⟨_ | _⟩ | _ | _ <;> first | exact hno inner text h | cases h
  have hclings : (cur.rejoined v).clings = cur.clings := by
    rw [Atom.clings, Atom.clings, Atom.isAnyPunct_rejoined, Atom.isLifetime_rejoined]
  rw [separator_eq hno', hclings, looseSeparator_rejoined hbefore]
  have hseparator : separator before prev cur =
      if prev.isJoint && cur.clings then [] else looseSeparator before prev cur :=
    separator_eq hno
  cases hc : cur.clings with
  | false => rw [hseparator, hc, Bool.and_false, Bool.and_false]
  | true =>
      have hjoins : joins (textAfter before prev (cur :: rest)) ↔ separator before prev cur = [] :=
        joins_textAfter_clings hcur hchain hproper hc
      rw [hc, Bool.and_true] at hseparator
      rw [Bool.and_true]
      rcases prev with (l | d | d)
      · cases l with
        | punct c j =>
            rw [Atom.rejoined, Lexeme.rejoined, Atom.isJoint, Lexeme.isJoint,
              isDelimiter_of_isProper hprev, Bool.not_false, Bool.true_and]
            split
            case isTrue h => rw [hjoins.mp h]
            case isFalse h =>
              -- What is printed apart was not joint.
              cases j with
              | true => exact absurd (hjoins.mpr hseparator) h
              | false => exact hseparator.symm
        | _ => exact hseparator.symm
      · exact hseparator.symm
      · exact hseparator.symm

/-- The text of atoms is the same when they are read again. -/
theorem textAfter_rereadAfter (hbefore : KeepsView before w prev)
    (hproper : ∀ a ∈ prev :: rest, a.IsProper)
    (hstands : ∀ a ∈ prev :: rest, ∃ u, a.toLexeme.Stands u)
    (hchain : (prev :: rest).IsChain fun a b => SlashApart a.toLexeme b.toLexeme) :
  textAfter (before.map (·.rejoined w)) (prev.rejoined (textAfter before prev rest))
      (rereadAfter prev rest) = textAfter before prev rest
  := by
  induction rest generalizing before prev w with
  | nil => rfl
  | cons cur rest ih =>
      rw [List.forall_mem_cons] at hproper hstands
      rw [List.isChain_cons] at hchain
      have hseparator := separator_rejoined (v := textAfter (some prev) cur rest) hbefore hproper.1
        hstands.2 hchain.2 (hproper.2 cur List.mem_cons_self)
      have hrest := ih (keepsView_textAfter before prev cur rest) hproper.2 hstands.2 hchain.2
      rw [Option.map_some] at hrest
      generalize htext : textAfter before prev (cur :: rest) = text at hseparator hrest ⊢
      rw [rereadAfter, textAfter, hseparator, Atom.text_rejoined, hrest, ← htext, textAfter]

theorem textOf_reread {atoms : List Atom} (hproper : ∀ a ∈ atoms, a.IsProper)
    (hstands : ∀ a ∈ atoms, ∃ u, a.toLexeme.Stands u)
    (hchain : atoms.IsChain fun a b => SlashApart a.toLexeme b.toLexeme) :
  textOf (reread atoms) = textOf atoms
  := by
  cases atoms with
  | nil => rfl
  | cons first rest =>
      have hnone : KeepsView none [] first := by rintro b ⟨⟩
      rw [reread, textOf, textOf, Atom.text_rejoined]
      apply congrArg (first.text ++ ·)
      apply textAfter_rereadAfter hnone hproper hstands hchain

end Joint

/-! ### Trees that are printed again -/

section Print

variable {file file' : String} {source : List Char} {trees trees' : List TokenTree}
  {atoms : List Atom}

/-- The atoms of trees are told by their lexemes. -/
theorem atomsAll_eq_map (h : areProper trees) :
  atomsAll trees = ((tokensAll trees).map (·.lexeme)).map Atom.ofLexeme
  := by
  induction trees using induction_siblings with
  | nil => rfl
  | token t trees ih =>
      rw [areProper, Bool.and_eq_true, isProper, Bool.not_eq_true'] at h
      rw [atomsAll, ih h.2, tokensAll, List.map_append, List.map_append, Printer.atoms,
        TokenTree.tokens, List.map_singleton, List.map_singleton, Atom.ofLexeme_of_isDelimiter h.1]
  | group d inside opening closing trees ihinside ih =>
      rw [areProper, Bool.and_eq_true, isProper] at h
      rw [atomsAll, ih h.2, tokensAll, List.map_append, List.map_append, Printer.atoms,
        TokenTree.tokens, ihinside h.1]
      cases d <;>
        simp [Atom.ofLexeme, Delimiter.ofOpening?, Delimiter.ofClosing?, Delimiter.opening,
          Delimiter.closing]

theorem isProper_of_areProper (h : areProper trees) :
  ∀ a ∈ atomsAll trees, a.IsProper
  := by
  have hmap : (atomsAll trees).map (Atom.ofLexeme ∘ Atom.toLexeme) = (atomsAll trees).map id := by
    rw [← List.map_map, map_toLexeme_atomsAll, ← atomsAll_eq_map h, List.map_id]
  exact List.map_inj_left.mp hmap

theorem isProper_reread (h : ∀ a ∈ atoms, a.IsProper) :
  ∀ a ∈ reread atoms, a.IsProper
  := by
  have hafter (prev : Atom) (rest : List Atom) (hrest : ∀ a ∈ rest, a.IsProper) :
      ∀ a ∈ rereadAfter prev rest, a.IsProper := by
    induction rest generalizing prev with
    | nil => simp [rereadAfter]
    | cons cur rest ih =>
        rw [List.forall_mem_cons] at hrest
        rw [rereadAfter, List.forall_mem_cons]
        exact ⟨isProper_rejoined hrest.1 _, ih cur hrest.2⟩
  cases atoms with
  | nil => simp [reread]
  | cons first rest =>
      rw [List.forall_mem_cons] at h
      rw [reread, List.forall_mem_cons]
      exact ⟨isProper_rejoined h.1 _, hafter first rest h.2⟩

/-- Trees that are read again from what is printed for them, token for token, are printed as they
were. -/
theorem print_of_ofText_print (h : ofText file source = .ok trees)
    (h' : ofText file' (print trees) = .ok trees') (hflat : flatAll trees' = flatAll trees) :
  print trees' = print trees
  := by
  obtain ⟨-, htokens⟩ := reread_of_ofText h h' hflat
  obtain ⟨hstands, hchain⟩ := stands_of_ofText h
  have hproper := isProper_of_areProper (tokensOf_of_ofText h).2
  have hatoms : atomsAll trees' = reread (atomsAll trees) := by
    rw [atomsAll_eq_map (tokensOf_of_ofText h').2, htokens, List.map_map]
    nth_rewrite 2 [← List.map_id (reread (atomsAll trees))]
    exact List.map_inj_left.mpr (isProper_reread hproper)
  rw [print, print, hatoms, textOf_reread hproper hstands hchain]

theorem print_of_ofText_print_respaced :
  ∃ trees trees', ofText "f.rs" "a.. =-'c'; d: :e ::f & 'g {x}->(y)".toList = .ok trees ∧
    ofText "g.rs" (print trees) = .ok trees' ∧ flatAll trees' = flatAll trees ∧
    print trees = "a..=-'c'; d: : e::f & 'g { x } -> (y)".toList ∧ print trees' = print trees
  := by
  obtain ⟨trees, h, htrees⟩ := Outcome.exists_of_any
    (x := ofText "f.rs" "a.. =-'c'; d: :e ::f & 'g {x}->(y)".toList)
    (p := fun trees => print trees == "a..=-'c'; d: : e::f & 'g { x } -> (y)".toList &&
      (ofText "g.rs" (print trees)).toOption.any fun trees' => flatAll trees' == flatAll trees)
    (by decide +kernel)
  rw [Bool.and_eq_true, beq_iff_eq] at htrees
  obtain ⟨trees', h', hflat⟩ := Outcome.exists_of_any htrees.2
  rw [beq_iff_eq] at hflat
  exact ⟨trees, trees', h, h', hflat, htrees.1, print_of_ofText_print h h' hflat⟩

end Print

end Printer

end ReturnCaptures
