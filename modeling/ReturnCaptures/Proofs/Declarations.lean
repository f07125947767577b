import ReturnCaptures.Proofs.CapturedPatterns

/-!
# The declaration of the bound captures

An expansion has another body than its item if and only if the item has a body and a bound capture.
The declaration then stands between the inner attributes and the statements of the body. What
stands in front of its colon is read as the pattern of the bound capture, or as the tuple of the
patterns if there are several, and what stands behind it as the type or the tuple of the types.
-/

namespace ReturnCaptures

open TokenTree Cursor

/-! ### Inner attributes -/

/-- Runs of inner attributes and inner documentation comments. -/
inductive InnerRun : List TokenTree → Prop
  | nil : InnerRun []
  | doc {text : String} {span : Span} {trees : List TokenTree} :
      InnerRun trees → InnerRun (.token ⟨.doc true text, span⟩ :: trees)
  | attr {j k : Bool} {s t opening closing : Span} {arguments trees : List TokenTree} :
      InnerRun trees →
        InnerRun (.token ⟨.punct '#' j, s⟩ :: .token ⟨.punct '!' k, t⟩ ::
          .group .bracket arguments opening closing :: trees)

/-- The longest run of inner attributes and inner documentation comments that trees start with. -/
structure IsInnerPart (inner trees : List TokenTree) : Prop where
  isPrefix : inner <+: trees
  run : InnerRun inner
  longest : ∀ {u}, InnerRun u → u <+: trees → u <+: inner

theorem innerRun_split (trees : List TokenTree) :
  InnerRun (splitInnerAttributes trees).1
  := by
  fun_induction splitInnerAttributes trees with
  | case1 text span trees inner statements h ih =>
      rw [h] at ih
      apply InnerRun.doc ih
  | case2 j s k t arguments opening closing trees inner statements h ih =>
      rw [h] at ih
      apply InnerRun.attr ih
  | case3 => apply InnerRun.nil

/-- A body is split behind the longest run of its inner attributes. -/
theorem isInnerPart_split (trees : List TokenTree) :
  IsInnerPart (splitInnerAttributes trees).1 trees
  := by
  constructor
  · use (splitInnerAttributes trees).2, append_splitInnerAttributes trees
  · apply innerRun_split
  · rintro u hu ⟨v, rfl⟩
    induction hu with
    | nil => apply List.nil_prefix
    | doc _ ih =>
        rw [List.cons_append, splitInnerAttributes]
        apply List.cons_prefix_cons.mpr ⟨rfl, ih⟩
    | attr _ ih =>
        simp only [List.cons_append, splitInnerAttributes]
        simpa only [List.cons_prefix_cons, true_and] using ih

/-! ### The sides of a declaration -/

/-- Trees that are read as patterns: as the only one of them, or as the tuple of several. -/
def ArePatterns (trees : List TokenTree) (patterns : List Pattern) : Prop :=
  ∀ stop, ∃ p, Pattern.read ⟨trees, stop⟩ = .ok (p, ⟨[], stop⟩) ∧
    match patterns with
    | [pattern] => p = pattern
    | patterns => p.kind = .tuple ∧ p.parts = patterns

/-- Trees that are read as types: as the only one of them, or as the tuple of several. -/
def AreTypes (trees : List TokenTree) (types : List TypeExpr) : Prop :=
  ∀ stop, ∃ t, TypeExpr.read true ⟨trees, stop⟩ = .ok (t, ⟨[], stop⟩) ∧
    match types with
    | [type] => t = type
    | types =>
      t.kind = .tuple ∧ ∃ inside opening closing,
        trees = [.group .paren inside opening closing] ∧
          Cursor.commaSeparated (fun _ => TypeExpr.read true) ⟨inside, closing⟩ = .ok types

namespace Declaration

theorem arePatterns_side {patterns : List Pattern} (h : ∀ p ∈ patterns, p.Stands)
    (hne : patterns ≠ []) (span : Span) :
  ArePatterns (side span (patterns.map (·.run))) patterns
  := by
  intro stop
  match patterns with
  | [pattern] =>
    use pattern
    have hread := (h pattern (List.mem_singleton_self _)).read [] stop rfl
    rw [List.append_nil] at hread
    use hread
  | first :: second :: rest =>
    obtain ⟨run, hread⟩ := Pattern.read_tupleOf h span span stop
    exact ⟨_, hread, rfl, rfl⟩

theorem areTypes_side {types : List TypeExpr} (h : ∀ type ∈ types, type.Stands)
    (hne : types ≠ []) (span : Span) :
  AreTypes (side span (types.map (·.run))) types
  := by
  intro stop
  match types with
  | [type] =>
    use type
    have hread := h type (List.mem_singleton_self _) [] stop rfl
    rw [List.append_nil] at hread
    use hread
  | first :: second :: rest =>
    obtain ⟨t, hread, hkind⟩ := TypeExpr.read_tupleOf h (by simp) span span stop
    exact ⟨t, hread, hkind, _, _, _, rfl, TypeExpr.commaSeparated_of_stands h span span⟩

end Declaration

/-! ### Bodies -/

/-- The patterns of the bound captures of a return clause, with their types. -/
def ReturnClause.bounds : ReturnClause → List (Pattern × TypeExpr)
  | .captures _ items _ _ => Capture.bounds items
  | _ => []

theorem Capture.mem_bounds {items : List Capture} {p : Pattern} {type : TypeExpr}
    (h : (p, type) ∈ bounds items) :
  .bound p type ∈ items
  := by
  obtain ⟨item, hitem, hbound⟩ := List.mem_filterMap.mp h
  cases item with
  | bound _ _ =>
      cases hbound
      apply hitem
  | unbound _ => cases hbound

/-- The patterns and the types of the bound captures of a return clause stand for themselves. -/
theorem ReturnClause.stands_of_follows {c d : Cursor} {returns : ReturnClause}
    (h : Follows c returns d) {p : Pattern} {type : TypeExpr} (hmem : (p, type) ∈ returns.bounds) :
  p.Stands ∧ type.Stands
  := by
  cases h with
  | absent _ => cases hmem
  | plain _ _ _ _ => cases hmem
  | captures _ _ _ _ _ hitems =>
      have hseparated := Capture.separated_of_readList hitems
      have hitem := Capture.mem_bounds hmem
      constructor
      · apply Capture.stands_of_pattern? hseparated hitem rfl
      · apply Capture.stands_of_separated hseparated _ hitem

namespace Expansion

variable {file : String} {trees : List TokenTree} {item : FunctionItem}

/-- The bound captures are declared if there are any and the item has a body. -/
theorem exists_declaration_eq (item : FunctionItem) :
  ∃ span, (ofItem item).declaration =
    if item.returns.bounds.isEmpty || item.body?.isNone then none
    else some (.ofBound span item.returns.bounds)
  := by
  cases hreturns : item.returns with
  | captures arrow items g span =>
      use g.opening
      have hx : ofItem item = ofCaptures item items g := by rw [ofItem, hreturns]
      rw [hx, ReturnClause.bounds, ofCaptures]
      split
      case isTrue h =>
        rw [Bool.and_eq_true] at h
        symm
        apply if_pos
        rw [h.1, Bool.true_or]
      case isFalse => rfl
  | _ =>
      use item.nameToken.span
      simp [ofItem, hreturns, ReturnClause.bounds]

/-- The body of an expansion is that of the item, or it declares the bound captures. -/
theorem exists_body?_eq (item : FunctionItem) :
  ∃ span, (ofItem item).body? =
    if item.returns.bounds.isEmpty then item.body?
    else item.body?.map fun body =>
      { body with
        trees := (splitInnerAttributes body.trees).1 ++
          (Declaration.ofBound span item.returns.bounds).trees ++
          (splitInnerAttributes body.trees).2 }
  := by
  obtain ⟨span, h⟩ := exists_declaration_eq item
  use span
  rw [Expansion.body?, item_ofItem, h]
  cases hbounds : item.returns.bounds.isEmpty with
  | true => rfl
  | false => cases hbody : item.body? <;> rfl

/-- An expansion has another body than its item if and only if the item has a body and a bound
capture. The body then starts with its inner attributes, declares the bound captures, and goes on
with its statements. -/
theorem body?_ofItem (h : FunctionItem.ofTrees file trees = .ok item) :
  ((ofItem item).body? ≠ item.body? ↔ item.body?.isSome ∧ item.returns.bounds ≠ []) ∧
  ∀ body ∈ item.body?, item.returns.bounds ≠ [] → ∃ inner statements P T span,
    body.trees = inner ++ statements ∧ IsInnerPart inner body.trees ∧
    (ofItem item).body? = some { body with
      trees := inner ++ (.token ⟨.keyword "let", span⟩ :: (P ++ [punctAt span ':'] ++ T ++
        [punctAt span ';'])) ++ statements } ∧
    ArePatterns P (item.returns.bounds.map (·.1)) ∧ AreTypes T (item.returns.bounds.map (·.2))
  := by
  obtain ⟨span, hx⟩ := exists_body?_eq item
  cases hbounds : item.returns.bounds.isEmpty with
  | true =>
      rw [hbounds, if_pos rfl] at hx
      rw [List.isEmpty_iff] at hbounds
      simp [hx, hbounds]
  | false =>
      rw [hbounds, if_neg Bool.false_ne_true] at hx
      have hne : item.returns.bounds ≠ [] := by
        rintro hnil
        rw [hnil] at hbounds
        cases hbounds
      cases hbody : item.body? with
      | none => simp [hx, hbody]
      | some body =>
          rw [hbody, Option.map_some] at hx
          constructor
          · simp only [hx, Option.isSome_some, true_and, ne_eq, hne, not_false_eq_true, iff_true]
            intro heq
            have hlength := congrArg (List.length ∘ Group.trees) (Option.some.inj heq)
            have hsplit := congrArg List.length (append_splitInnerAttributes body.trees)
            simp only [Function.comp_apply, List.length_append, Declaration.ofBound,
              List.length_cons] at hlength hsplit
            omega
          · rintro _ ⟨⟩ _
            obtain ⟨d, ⟨s⟩, _⟩ := FunctionItem.steps_of_ofTrees h
            have hfollows := ReturnClause.follows_read s.returns_eq
            have hpatterns : ∀ p ∈ item.returns.bounds.map (·.1), p.Stands := by
              rw [List.forall_mem_map]
              rintro ⟨p, type⟩ hmem
              apply (ReturnClause.stands_of_follows hfollows hmem).1
            have htypes : ∀ type ∈ item.returns.bounds.map (·.2), type.Stands := by
              rw [List.forall_mem_map]
              rintro ⟨p, type⟩ hmem
              apply (ReturnClause.stands_of_follows hfollows hmem).2
            have hP := Declaration.arePatterns_side hpatterns (by simpa using hne) span
            have hT := Declaration.areTypes_side htypes (by simpa using hne) span
            rw [List.map_map] at hP hT
            exact ⟨_, _, _, _, span, (append_splitInnerAttributes body.trees).symm,
              isInnerPart_split body.trees, hx, hP, hT⟩

/-- Two bound captures around one that is not bound are declared behind an inner attribute. -/
theorem body?_ofItem_mixed :
  ∃ trees item inner statements P T,
    FunctionItem.ofTrees "f.rs" trees = .ok item ∧ item.returns.bounds.length = 2 ∧
    (item.body?.map (·.trees)) = some (inner ++ statements) ∧
    ArePatterns P (item.returns.bounds.map (·.1)) ∧ AreTypes T (item.returns.bounds.map (·.2)) ∧
    (ofItem item).body? ≠ item.body?
  := by
  obtain ⟨item, htext, hitem⟩ := Outcome.exists_of_any
    (x := FunctionItem.ofText "f.rs"
      "fn f() -> (a: u8, B, (mut c, ..): Map<K, V>) { #![allow(x)] a }".toList)
    (p := fun item => item.body?.isSome && item.returns.bounds.length == 2)
    (by decide +kernel)
  obtain ⟨trees, _, h⟩ := Outcome.bind_eq_ok.mp htext
  simp only [Bool.and_eq_true, beq_iff_eq] at hitem
  have hne : item.returns.bounds ≠ [] := by
    rintro hnil
    simp [hnil] at hitem
  obtain ⟨body, hbody⟩ := Option.isSome_iff_exists.mp hitem.1
  obtain ⟨hdiffers, hdeclares⟩ := body?_ofItem h
  obtain ⟨inner, statements, P, T, _, htrees, _, _, hP, hT⟩ := hdeclares body hbody hne
  use trees, item, inner, statements, P, T, h, hitem.2, by rw [hbody, ← htrees]; rfl, hP, hT
  apply hdiffers.mpr ⟨hitem.1, hne⟩

end Expansion

end ReturnCaptures
