import ReturnCaptures.Proofs.FixedPoint
import ReturnCaptures.Proofs.Neighbours

/-!
# Types with other commas between them

The types of captures are taken out of their list and put together anew, with commas of their own
between them. Each of them is read from its run in front of any comma and at any end, since nothing
behind a type has a say in how it is read. The runs that are put together are therefore read as the
same types again: as captures none of which is bound, as the elements of a list, and in parentheses
as a tuple.
-/

namespace ReturnCaptures

open TokenTree Outcome Cursor

variable {c d : Cursor}

/-! ### Items and commas -/

section Items

variable {α : Type} {reads : Cursor → α → Cursor → Prop} {as : List α}

/-- Whether an item of a list ends in front of the trees. -/
def TokenTree.atItemEnd (trees : List TokenTree) : Bool := trees.isEmpty || atPunct ',' trees

theorem Juncture.ofItemEnds {r r' : List TokenTree} (hr : atItemEnd r) (hr' : atItemEnd r') :
  Juncture r r'
  := by
  have hending {trees : List TokenTree} (h : atItemEnd trees) : atEnding trees := by
    rw [atItemEnd] at h
    rw [atEnding, h, Bool.true_or, Bool.true_or]
  have hblock {trees : List TokenTree} (h : atItemEnd trees) : atGroup .brace trees = false := by
    obtain _ | ⟨_ | _, _⟩ := trees
    · rfl
    · rfl
    · cases h
  exact ⟨⟨hending hr, hending hr'⟩, by rw [hblock hr, hblock hr']⟩

/-- Runs that are each read at every end of an item are read one after the other with commas between
them. -/
theorem separated_joinRuns (span stop : Span) {runs : List Run}
    (h : List.Forall₂ (fun run a => ∀ r, atItemEnd r → reads ⟨run.trees ++ r, stop⟩ a ⟨r, stop⟩)
      runs as) :
  Separated reads ⟨joinRuns span runs, stop⟩ as
  := by
  induction h with
  | nil => apply Separated.nil rfl
  | @cons run a runs as hread hrest ih =>
      cases hrest with
      | nil =>
          have hlast := hread [] rfl
          rw [List.append_nil] at hlast
          have hjoin : joinRuns span [run] = run.trees := by simp [joinRuns, List.intercalate]
          rw [hjoin]
          apply Separated.last hlast rfl
      | cons _ _ =>
          rw [Expansion.joinRuns_cons_cons]
          refine Separated.cons (hread _ rfl) rfl ?_
          exact ih

end Items

/-! ### Types -/

namespace TypeExpr

variable {type : TypeExpr} {types : List TypeExpr}

/-- A type stands for itself if it is read from its run at every end of an item. -/
def Stands (type : TypeExpr) : Prop :=
  ∀ r stop, atItemEnd r → TypeExpr.read true ⟨type.run.trees ++ r, stop⟩ = .ok (type, ⟨r, stop⟩)

/-- A type that ends where an item does stands for itself. -/
theorem stands_of_read (h : TypeExpr.read true c = .ok (type, d)) (hd : atItemEnd d.trees) :
  type.Stands
  := by
  intro r stop hr
  have hc : c.Swaps d.trees r ⟨type.run.trees ++ r, stop⟩ := ⟨_, trees_of_read h, rfl⟩
  obtain ⟨⟨_, stop'⟩, h', w, hw, rfl⟩ :=
    read_of_swaps (.ofItemEnds hd hr) hc h (List.suffix_refl _)
  obtain rfl : w = [] := by simpa using hw
  obtain rfl : stop' = stop := (passes_read h').1.crosses.stop
  exact h'

/-- The runs of types with commas between them are read as the types. -/
theorem separated_of_stands (h : ∀ type ∈ types, type.Stands) (span stop : Span) :
  Cursor.Separated (fun c type d => TypeExpr.read true c = .ok (type, d))
    ⟨joinRuns span (types.map (·.run)), stop⟩ types
  := by
  apply separated_joinRuns
  rw [List.forall₂_map_left_iff, List.forall₂_same]
  intro type htype r hr
  apply h type htype r stop hr

theorem commaSeparated_of_stands (h : ∀ type ∈ types, type.Stands) (span stop : Span) :
  Cursor.commaSeparated (fun _ => TypeExpr.read true)
    ⟨joinRuns span (types.map (·.run)), stop⟩ = .ok types
  := by
  apply (separated_of_stands h span stop).commaSeparated
  intro c type d _ hread
  use hread, (passes_read hread).1.shorter

end TypeExpr

/-- Two or more types one after the other make a tuple. -/
theorem TypeGrammar.Sound.parenthesized_of_separated {G : TypeGrammar} (hG : G.Sound)
    {kinds : List TypeKind}
    (h : c.Separated (fun c kind d => G.type true c = .ok (kind, d)) kinds)
    (htwo : 2 ≤ kinds.length) :
  G.parenthesized c = .ok .tuple
  := by
  cases h with
  | nil _ => simp at htwo
  | last _ _ => simp at htwo
  | @cons _ d kind kinds hread hcomma hrest =>
      have hgo : ¬ c.atEnd := by
        rw [atEnd, List.isEmpty_iff_length_eq_zero]
        have hlt := (hG.type hread).shorter
        omega
      have hmore : ¬ d.atEnd := by
        rw [atEnd, List.isEmpty_iff]
        apply ne_nil_of_atLexeme hcomma
      have hitems : (d.skip 1).commaSeparated (fun _ => G.type true) = .ok kinds := by
        apply hrest.commaSeparated
        intro c kind d _ hread
        use hread, (hG.type hread).shorter
      apply (if_neg hgo).trans
      apply bind_eq_ok.mpr
      use (kind, d), hread
      apply (if_neg hmore).trans
      apply bind_eq_ok.mpr
      use d.skip 1, expectPunct_eq_ok.mpr ⟨hcomma, rfl⟩
      rw [hitems]
      rfl

/-- Two or more types in parentheses are read as a tuple. -/
theorem TypeExpr.read_tupleOf {types : List TypeExpr} (h : ∀ type ∈ types, type.Stands)
    (htwo : 2 ≤ types.length) (opening closing stop : Span) :
  ∃ type, TypeExpr.read true ⟨[tupleOf opening closing (types.map (·.run))], stop⟩ =
      .ok (type, ⟨[], stop⟩) ∧ type.kind = .tuple
  := by
  generalize hc : (⟨[tupleOf opening closing (types.map (·.run))], stop⟩ : Cursor) = c
  have htrees : c.trees = [tupleOf opening closing (types.map (·.run))] := by rw [← hc]
  have hweight := weight_inside htrees
  generalize hn : 4 * sizeAll c.trees + 3 = n
  have hlevel : TypeGrammar.upTo c = TypeGrammar.level (n + 1) := by
    rw [TypeGrammar.upTo, ← hn]
    rfl
  have hle : c.weight ≤ n := by
    rw [weight]
    omega
  have hparen : (TypeGrammar.level n).parenthesized
      ⟨joinRuns opening (types.map (·.run)), closing⟩ = .ok .tuple := by
    have hseparated : Cursor.Separated
        (fun c kind d => (TypeGrammar.level n).type true c = .ok (kind, d))
        ⟨joinRuns opening (types.map (·.run)), closing⟩ (types.map (·.kind)) := by
      apply (separated_of_stands h opening closing).map
      intro d type e _ hd _ hread
      use (passes_read hread).1.crosses.isSuffix
      obtain ⟨kind, hkind, rfl⟩ := read_eq_ok.mp hread
      have hinside := weight_le hd
      rw [TypeGrammar.type_level_eq_upTo true d (by omega)]
      apply hkind
    apply (TypeGrammar.sound_level n).parenthesized_of_separated hseparated
    rwa [List.length_map]
  have htype : (TypeGrammar.upTo c).type true c = .ok (.tuple, ⟨[], stop⟩) := by
    rw [hlevel]
    change (TypeGrammar.level n).readType true c = _
    rw [TypeGrammar.readType, htrees, tupleOf]
    apply bind_eq_ok.mpr
    use .tuple, hparen
    rw [← hc]
    rfl
  exact ⟨_, read_eq_ok.mpr ⟨.tuple, htype, rfl⟩, rfl⟩

/-! ### Captures -/

namespace Capture

variable {items : List Capture} {type : TypeExpr} {types : List TypeExpr}

/-- The types of the captures of a list stand for themselves. -/
theorem stands_of_separated (h : c.Separated ReadsAs items) :
  ∀ item ∈ items, item.type.Stands
  := by
  have hstands {c d : Cursor} {item : Capture} (hread : ReadsAs c item d)
      (hd : atItemEnd d.trees) : item.type.Stands := by
    obtain ⟨e, htype⟩ := hread.exists_read
    apply TypeExpr.stands_of_read htype hd
  induction h with
  | nil _ => simp
  | last hread hd =>
      rw [List.forall_mem_singleton]
      apply hstands hread
      rw [hd]
      rfl
  | cons hread hcomma _ ih =>
      rw [List.forall_mem_cons]
      use hstands hread (by rw [atItemEnd, hcomma, Bool.or_true])

/-- Types that stand for themselves are read as captures when they are put together. -/
theorem readList_joinRuns (h : ∀ type ∈ types, type.Stands) (span opening closing : Span) :
  readList ⟨.paren, joinRuns span (types.map (·.run)), opening, closing⟩ =
    .ok (types.map .unbound)
  := by
  apply readList_of_separated
  apply TypeExpr.separated_of_stands h span closing

end Capture

end ReturnCaptures
