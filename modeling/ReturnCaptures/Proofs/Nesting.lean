import Mathlib.Data.List.Induction
import ReturnCaptures.Proofs.TreeTokens

/-!
# Nested delimiters

Tokens are *nested* if every delimiter among them has its partner: two that make a group hold
nested tokens between them. In tokens that are read from the left, some groups may still be open;
a closing delimiter is *stray* if it does not close the innermost of them.

Tokens form trees exactly if they are nested, and unfolding the trees gives the tokens back. All
other tokens are rejected for one delimiter: the first stray one or, if there is none, the one that
opens the innermost group still open at the end.
-/

namespace ReturnCaptures

open TokenTree

namespace Token

/-- The token opens a group with the delimiters `d`. -/
def Opens (d : Delimiter) (t : Token) : Prop :=
  ∃ joint, t.lexeme = .punct d.opening joint

/-- The token closes a group with the delimiters `d`. -/
def Closes (d : Delimiter) (t : Token) : Prop :=
  ∃ joint, t.lexeme = .punct d.closing joint

/-- A token opens a group, or closes one, or is no delimiter. -/
theorem cases_delimiter (t : Token) :
  t.lexeme.isDelimiter = false ∨ (∃ d, t.Opens d) ∨ ∃ d, t.Closes d
  := by
  rcases delimiter_cases t.lexeme with hno | ⟨d, hopens⟩ | ⟨d, hcloses⟩
  · left
    apply hno
  · right
    left
    use d, t.lexeme.isJoint
  · right
    right
    use d, t.lexeme.isJoint

end Token

/-- Tokens whose delimiters are properly nested. -/
inductive Nested : List Token → Prop
  | nil : Nested []
  /-- A token that is no delimiter. -/
  | token {t : Token} : t.lexeme.isDelimiter = false → Nested [t]
  | group {d : Delimiter} {opening closing : Token} {inside : List Token} :
      opening.Opens d → Nested inside → closing.Closes d → Nested (opening :: (inside ++ [closing]))
  | append {u v : List Token} : Nested u → Nested v → Nested (u ++ v)

/-- Tokens in which groups are left open; `unclosed` lists the delimiters that open them, the
innermost first. Around these delimiters the tokens are nested. -/
inductive LeavesOpen : (unclosed tokens : List Token) → Prop
  | nested {tokens : List Token} : Nested tokens → LeavesOpen [] tokens
  | opening {d : Delimiter} {opening : Token} {unclosed before inside : List Token} :
      LeavesOpen unclosed before → opening.Opens d → Nested inside →
        LeavesOpen (opening :: unclosed) (before ++ opening :: inside)

/-- A closing delimiter that does not close the innermost of the groups left open before it, since
that has other delimiters or there is none. -/
def Token.Stray (before : List Token) (t : Token) : Prop :=
  ∃ unclosed d, LeavesOpen unclosed before ∧ t.Closes d ∧
    ∀ innermost ∈ unclosed.head?, ¬ innermost.Opens d

/-- An open group is the one that a token opens. -/
def OpenGroup.OpenedBy (g : OpenGroup) (t : Token) : Prop :=
  t.Opens g.delimiter ∧ g.opening = t.span

/-- No closing delimiter is stray. -/
def NoStray (tokens : List Token) : Prop :=
  ∀ before t after, tokens = before ++ t :: after → ¬ t.Stray before

/-- The token for which tokens that are not nested are rejected. -/
inductive Blamed (tokens : List Token) : Token → Prop
  /-- The first stray delimiter. -/
  | stray {before after : List Token} {t : Token} :
      tokens = before ++ t :: after → t.Stray before → NoStray before → Blamed tokens t
  /-- The delimiter that opens the innermost group still open at the end. -/
  | unclosed {outer : List Token} {t : Token} :
      LeavesOpen (t :: outer) tokens → NoStray tokens → Blamed tokens t

section Step

variable {before tokens u v unclosed : List Token} {t : Token}

/-- Nested tokens close no group and leave none open. -/
theorem LeavesOpen.append (h : LeavesOpen unclosed u) (hv : Nested v) :
  LeavesOpen unclosed (u ++ v)
  := by
  cases h with
  | nested hu => apply LeavesOpen.nested (hu.append hv)
  | opening hbefore hopens hinside =>
      rw [List.append_assoc, List.cons_append]
      apply LeavesOpen.opening hbefore hopens (hinside.append hv)

/-- One more token opens a group, closes the innermost one, changes nothing or is stray. -/
theorem LeavesOpen.step (h : LeavesOpen unclosed before) (t : Token) :
  t.Stray before ∨ ∃ unclosed', LeavesOpen unclosed' (before ++ [t])
  := by
  rcases t.cases_delimiter with hno | ⟨d, hopens⟩ | ⟨d, hcloses⟩
  · right
    use unclosed
    apply h.append (.token hno)
  · right
    use t :: unclosed
    apply h.opening hopens .nil
  · by_cases hmatch : ∃ innermost ∈ unclosed.head?, innermost.Opens d
    · obtain ⟨innermost, hhead, hopens⟩ := hmatch
      cases h with
      | nested => cases hhead
      | @opening _ _ outer before inside houter _ hinside =>
          obtain rfl := Option.some.inj hhead
          right
          use outer
          rw [List.append_assoc, List.cons_append]
          apply houter.append (.group hopens hinside hcloses)
    · left
      use unclosed, d, h, hcloses
      intro innermost hhead hopens
      apply hmatch ⟨innermost, hhead, hopens⟩

/-- Tokens leave groups open, unless one of them is stray. -/
theorem leavesOpen_or_stray (tokens : List Token) :
  (∃ unclosed, LeavesOpen unclosed tokens) ∨
    ∃ before t after, tokens = before ++ t :: after ∧ t.Stray before
  := by
  -- Tokens are read from the left: what they leave open follows from what all but the last do.
  induction tokens using List.reverseRecOn with
  | nil =>
      left
      use []
      apply LeavesOpen.nested .nil
  | append_singleton tokens t ih =>
      rcases ih with ⟨unclosed, hopen⟩ | ⟨before, s, after, rfl, hstray⟩
      · rcases hopen.step t with hstray | hopen'
        · right
          use tokens, t, []
        · left
          apply hopen'
      · right
        use before, s, after ++ [t]
        simpa using hstray

end Step

namespace TokenTree

/-! ### Reading nested tokens -/

section Read

variable {before tokens unclosed : List Token} {t : Token} {d : Delimiter} {current : List TokenTree}
  {stack : List OpenGroup}

/-- Nested tokens are read into the innermost open group, whichever that is. -/
theorem read_of_nested (h : Nested tokens) :
  ∃ trees : List TokenTree, ∀ stack current rest,
    read stack current (tokens ++ rest) = read stack (trees.reverse ++ current) rest
  := by
  induction h with
  | nil =>
      use []
      simp
  | @token t hno =>
      use [.token t]
      intro stack current rest
      apply read_token hno
  | @group d opening closing inside hopens _ hcloses ih =>
      obtain ⟨joint, hopening⟩ := hopens
      obtain ⟨joint', hclosing⟩ := hcloses
      obtain ⟨trees, hread⟩ := ih
      use [.group d trees opening.span closing.span]
      intro stack current rest
      rw [List.cons_append, List.append_assoc, List.singleton_append, read_opening hopening, hread,
        read_closing hclosing]
      simp
  | append _ _ ihu ihv =>
      obtain ⟨trees, hu⟩ := ihu
      obtain ⟨trees', hv⟩ := ihv
      use trees ++ trees'
      intro stack current rest
      rw [List.append_assoc, hu, hv]
      simp

/-- The groups that tokens leave open are on the stack once the tokens are read. -/
theorem read_of_leavesOpen (h : LeavesOpen unclosed tokens) :
  ∃ stack current, List.Forall₂ OpenGroup.OpenedBy stack unclosed ∧
    ∀ rest, read [] [] (tokens ++ rest) = read stack current rest
  := by
  induction h with
  | nested h =>
      obtain ⟨trees, hread⟩ := read_of_nested h
      use [], trees.reverse ++ [], .nil
      apply hread
  | @opening d opening unclosed before inside _ hopens hinside ih =>
      obtain ⟨stack, current, hstack, hbefore⟩ := ih
      obtain ⟨trees, hread⟩ := read_of_nested hinside
      obtain ⟨joint, hopening⟩ := hopens
      use ⟨d, opening.span, current⟩ :: stack, trees.reverse ++ []
      constructor
      · apply List.Forall₂.cons _ hstack
        exact ⟨⟨joint, hopening⟩, rfl⟩
      · intro rest
        rw [List.append_assoc, hbefore, List.cons_append, read_opening hopening, hread]

theorem exists_fault_of_closing (hcloses : t.Closes d)
    (hstack : ∀ g ∈ stack.head?, g.delimiter ≠ d) :
  ∃ fault : DelimiterFault, fault ≠ .unclosed ∧
    ∀ rest, read stack current (t :: rest) = .error (fault.diagnostic t.span)
  := by
  obtain ⟨joint, hclosing⟩ := hcloses
  cases stack with
  | nil =>
      use .unopened d.closing, by simp
      intro rest
      rw [read, hclosing]
      cases d <;> rfl
  | cons g outer =>
      use .mismatched d.closing g, by simp
      intro rest
      have hne : g.delimiter ≠ d := hstack g rfl
      rw [read, hclosing]
      cases d <;> apply if_neg hne

/-- Reading stops at a stray delimiter, whatever follows it. -/
theorem exists_fault_of_stray (h : t.Stray before) :
  ∃ fault : DelimiterFault, fault ≠ .unclosed ∧
    ∀ rest, read [] [] (before ++ t :: rest) = .error (fault.diagnostic t.span)
  := by
  obtain ⟨unclosed, d, hopen, hcloses, hinnermost⟩ := h
  obtain ⟨stack, current, hstack, hread⟩ := read_of_leavesOpen hopen
  have hmismatch : ∀ g ∈ stack.head?, g.delimiter ≠ d := by
    intro g hg hd
    cases hstack with
    | nil => cases hg
    | cons hopened _ =>
        obtain rfl := Option.some.inj hg
        apply hinnermost _ rfl
        rw [← hd]
        apply hopened.1
  obtain ⟨fault, hfault, herror⟩ := exists_fault_of_closing hcloses hmismatch
  use fault, hfault
  intro rest
  rw [hread, herror]

/-- Reading stops at the end if a group is left open. -/
theorem read_of_unclosed {outer : List Token} (h : LeavesOpen (t :: outer) tokens) :
  read [] [] tokens = .error (DelimiterFault.unclosed.diagnostic t.span)
  := by
  obtain ⟨stack, current, hstack, hread⟩ := read_of_leavesOpen h
  cases hstack with
  | cons hopened _ => rw [← List.append_nil tokens, hread, read, hopened.2]

theorem exists_read_of_nested (h : Nested tokens) :
  ∃ trees, read [] [] tokens = .ok trees
  := by
  obtain ⟨trees, hread⟩ := read_of_nested h
  use trees
  rw [← List.append_nil tokens, hread, List.append_nil, read, List.reverse_reverse]

theorem unclosed_of_diagnostic {fault : DelimiterFault} {span span' : Span}
    (h : fault.diagnostic span = DelimiterFault.unclosed.diagnostic span') :
  fault = .unclosed
  := by
  cases fault with
  | unclosed => rfl
  | unopened | mismatched =>
      have hlabels := congrArg (fun d => d.labels.map (·.message)) h
      simp [DelimiterFault.diagnostic, Diagnostic.located] at hlabels

/-- Where reading goes on there was no stray delimiter. -/
theorem noStray_of_leavesOpen (h : LeavesOpen unclosed tokens) :
  NoStray tokens
  := by
  rintro before t after rfl hstray
  obtain ⟨fault, hfault, herror⟩ := exists_fault_of_stray hstray
  cases unclosed with
  | nil =>
      cases h with
      | nested hnested =>
        obtain ⟨trees, hread⟩ := exists_read_of_nested hnested
        rw [herror] at hread
        cases hread
  | cons innermost outer =>
      have hread := read_of_unclosed h
      rw [herror] at hread
      apply hfault (unclosed_of_diagnostic (Except.error.inj hread))

/-- Tokens are nested, or one of them is blamed. -/
theorem nested_or_blamed (tokens : List Token) :
  Nested tokens ∨ ∃ t fault, Blamed tokens t ∧
    read [] [] tokens = .error (DelimiterFault.diagnostic t.span fault)
  := by
  rcases leavesOpen_or_stray tokens with ⟨_ | ⟨t, outer⟩, hopen⟩ | ⟨before, t, after, rfl, hstray⟩
  · left
    cases hopen with
    | nested h => apply h
  · right
    use t, .unclosed
    exact ⟨.unclosed hopen (noStray_of_leavesOpen hopen), read_of_unclosed hopen⟩
  · right
    obtain ⟨fault, _, herror⟩ := exists_fault_of_stray hstray
    obtain ⟨unclosed, d, hopen, _⟩ := id hstray
    use t, fault
    exact ⟨.stray rfl hstray (noStray_of_leavesOpen hopen), herror after⟩

end Read

/-! ### Building trees -/

section Build

variable {tokens : List Token}

/-- Nested tokens form trees, which unfold to the tokens. -/
theorem exists_ofTokens_of_nested (h : Nested tokens) :
  ∃ trees, ofTokens tokens = .ok trees ∧ tokensAll trees = tokens.map Token.settled
  := by
  obtain ⟨trees, hread⟩ := exists_read_of_nested h
  use trees
  constructor
  · rw [ofTokens, hread]
    rfl
  · apply tokensAll_of_read hread

/-- The diagnostic of a fault at a delimiter is about that delimiter, and about nothing else. -/
theorem diagnostic_located (fault : DelimiterFault) (span : Span) :
  (fault.diagnostic span).code = "E101" ∧ (fault.diagnostic span).labels.map (·.span) = [span]
  := by
  cases fault <;> exact ⟨rfl, rfl⟩

/-- Tokens form trees exactly if their delimiters are properly nested. The trees unfold to the
tokens, one by one and each at its span; tokens that form none are rejected with one diagnostic, at
the delimiter that is to blame. -/
theorem ofTokens_exact (tokens : List Token) :
  ((∃ trees, ofTokens tokens = .ok trees) ↔ Nested tokens) ∧
    ((∃ trees, ofTokens tokens = .ok trees ∧ tokensAll trees = tokens.map Token.settled) ∨
      ∃ d t, ofTokens tokens = .error [d] ∧ d.code = "E101" ∧ d.labels.map (·.span) = [t.span] ∧
        Blamed tokens t)
  := by
  rcases nested_or_blamed tokens with hnested | ⟨t, fault, hblamed, hread⟩
  · have hbuilt := exists_ofTokens_of_nested hnested
    constructor
    · obtain ⟨trees, htrees, _⟩ := hbuilt
      exact iff_of_true ⟨trees, htrees⟩ hnested
    · left
      apply hbuilt
  · have herror : ofTokens tokens = .error [fault.diagnostic t.span] := by
      rw [ofTokens, hread]
      rfl
    obtain ⟨hcode, hspan⟩ := diagnostic_located fault t.span
    constructor
    · apply iff_of_false
      · rintro ⟨trees, htrees⟩
        rw [herror] at htrees
        cases htrees
      · intro hnested
        obtain ⟨trees, htrees, _⟩ := exists_ofTokens_of_nested hnested
        rw [herror] at htrees
        cases htrees
    · right
      use fault.diagnostic t.span, t

end Build

end TokenTree

end ReturnCaptures
