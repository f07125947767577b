import ReturnCaptures.Grammar.Pattern
import ReturnCaptures.Proofs.TypeRuns

/-!
# Patterns cross balanced runs

Patterns may hold literals and dots, so that their runs are balanced but not strictly so.
-/

namespace ReturnCaptures

open TokenTree Outcome Cursor

variable {c d : Cursor}

namespace PatternGrammar

/-- A grammar whose productions cross balanced runs, and whose patterns record what they
cross. -/
structure Sound (G : PatternGrammar) : Prop where
  pattern : ∀ {c p d}, G.pattern c = .ok (p, d) → c.Passes false false d ∧ p.run = c.runUpTo d
  segments : ∀ {c d}, G.segments c = .ok d → c.Passes false false d

variable {G : PatternGrammar} {kind : PatternKind} {parts : List Pattern}

theorem crosses_segmentArguments (h : segmentArguments c = .ok d) :
  c.Crosses false false d
  := by
  unfold PatternGrammar.segmentArguments at h
  split at h
  case isTrue hangle =>
    rw [Bool.and_eq_true] at hangle
    apply Crosses.trans (Crosses.separator hangle.1)
    apply ((TypeGrammar.sound_upTo c).angleArguments h).toLoose
  case isFalse =>
    cases h
    apply Crosses.refl

theorem Sound.readSegments (hG : G.Sound) (h : G.readSegments c = .ok d) :
  c.Passes false false d
  := by
  simp only [PatternGrammar.readSegments, bind_eq_ok, expect_eq_ok] at h
  obtain ⟨_, ⟨hstart, rfl⟩, e, harguments, h⟩ := h
  apply Passes.skip hstart (Crosses.pathStart hstart)
  apply Crosses.trans (crosses_segmentArguments harguments)
  split at h
  case isTrue hmore =>
    rw [TypeGrammar.moreSegments, Bool.and_eq_true] at hmore
    apply Crosses.trans (Crosses.separator hmore.1) (hG.segments h).crosses
  case isFalse =>
    cases h
    apply Crosses.refl

theorem Sound.readBinding (hG : G.Sound) (h : G.readBinding c = .ok (kind, parts, d)) :
  c.Passes false false d
  := by
  simp only [PatternGrammar.readBinding, bind_eq_ok] at h
  obtain ⟨⟨t, e⟩, hident, h⟩ := h
  apply (Crosses.skipKeyword c "ref").trans_passes
  apply (Crosses.skipKeyword _ "mut").trans_passes
  apply (Passes.expectIdent hident).trans
  split at h
  case isTrue hat =>
    obtain ⟨⟨p, f⟩, hpattern, ⟨⟩⟩ := bind_eq_ok.mp h
    apply Crosses.trans (Crosses.single hat (by rfl)) (hG.pattern hpattern).1.crosses
  case isFalse =>
    cases h
    apply Crosses.refl

theorem Sound.readPath (hG : G.Sound) (h : G.readPath c = .ok (kind, parts, d)) :
  c.Passes false false d
  := by
  unfold PatternGrammar.readPath at h
  obtain ⟨e, hpath, h⟩ := ite_bind_eq_ok.mp h
  dsimp only at h
  have hlater : e.Crosses false false d := by
    split at h
    case h_1 hc =>
      obtain ⟨_, _, ⟨⟩⟩ := bind_eq_ok.mp h
      apply Crosses.tree hc rfl
    case h_2 hc =>
      cases h
      apply Crosses.tree hc rfl
    case h_3 =>
      cases h
      apply Crosses.ite TypeGrammar.crosses_macroArguments
  split at hpath
  case isTrue => apply ((TypeGrammar.sound_upTo c).qualifiedPath hpath).toLoose.trans hlater
  case isFalse =>
    apply (TypeGrammar.crosses_skipSeparator c).trans_passes
    apply (hG.segments hpath).trans hlater

/-- Two dots are a balanced run. -/
theorem passes_rest (h : atRest c.trees) :
  c.Passes false false (c.skip 2)
  := by
  simp only [atRest, Bool.and_eq_true] at h
  obtain ⟨first, second, r, hc, hdots⟩ := exists_of_atOperator h.1.1
  have hfirst : atPunct '.' c.trees := by
    rw [hc, atPunct_cons]
    apply atPunct_first_of_atOperator hdots
  have hsecond : atPunct '.' (c.skip 1).trees := by
    rw [trees_skip_one hc, atPunct_cons]
    apply atPunct_of_atOperator hdots
  rw [← skip_skip c 1 1]
  apply Passes.skip hfirst (Crosses.punct hfirst (by rfl)) (Crosses.punct hsecond (by rfl))

theorem Sound.readPlain (hG : G.Sound) (h : G.readPlain c = .ok (kind, parts, d)) :
  c.Passes false false d
  := by
  unfold PatternGrammar.readPlain at h
  rcases ite_eq_iff.mp h with ⟨hblank, h⟩ | ⟨-, h⟩
  · cases h
    apply Passes.skip hblank (Crosses.word hblank _) .refl
    intro l hl
    obtain rfl := eq_of_beq hl
    rfl
  rcases ite_eq_iff.mp h with ⟨hrest, h⟩ | ⟨-, h⟩
  · cases h
    apply passes_rest hrest
  rcases ite_eq_iff.mp h with ⟨href, h⟩ | ⟨-, h⟩
  · obtain ⟨⟨p, e⟩, hpattern, ⟨⟩⟩ := bind_eq_ok.mp h
    apply Passes.skip href (Crosses.punct href (by rfl))
    apply Crosses.trans (Crosses.skipKeyword _ "mut") (hG.pattern hpattern).1.crosses
  rcases ite_eq_iff.mp h with ⟨hbinding, h⟩ | ⟨-, h⟩
  · apply hG.readBinding h
  rcases ite_eq_iff.mp h with ⟨hliteral, h⟩ | ⟨-, h⟩
  · cases h
    apply Passes.skip hliteral (Crosses.literal hliteral (by simp)) .refl
  rcases ite_eq_iff.mp h with ⟨hnegative, h⟩ | ⟨-, h⟩
  · cases h
    rw [Bool.and_eq_true] at hnegative
    obtain ⟨t, r, hc, ht⟩ := exists_of_atLexeme hnegative.1
    obtain ⟨t', r', hr, ht'⟩ := exists_of_atLexeme hnegative.2
    apply Passes.ofLexeme hnegative.1 _ (skip_two_isSuffix c)
    have hc' : c.trees = .token t :: .token t' :: r' := by
      rw [hc] at hr ⊢
      rw [← hr]
      rfl
    apply Crosses.led hc'
    · simp [leads, ht]
    · cases hl : t'.lexeme <;> simp_all [isPlain, Lexeme.isPlain, Lexeme.isMark]
  rcases ite_eq_iff.mp h with ⟨-, h⟩ | ⟨-, h⟩
  · apply hG.readPath h
  cases h

theorem Sound.readPattern (hG : G.Sound) {p : Pattern} (h : G.readPattern c = .ok (p, d)) :
  c.Passes false false d ∧ p.run = c.runUpTo d
  := by
  obtain ⟨⟨kind, parts, e⟩, hshape, ⟨⟩⟩ := bind_eq_ok.mp h
  constructor
  · unfold PatternGrammar.readShape at hshape
    split at hshape
    case h_1 hc =>
      obtain ⟨_, _, ⟨⟩⟩ := bind_eq_ok.mp hshape
      apply Passes.tree hc rfl
    case h_2 hc =>
      obtain ⟨_, _, ⟨⟩⟩ := bind_eq_ok.mp hshape
      apply Passes.tree hc rfl
    case h_3 => apply hG.readPlain hshape
  · rfl

/-- The grammars of all levels cross balanced runs. -/
theorem sound_level (n : Nat) :
  (level n).Sound
  := by
  induction n with
  | zero => constructor <;> intros <;> contradiction
  | succ n ih =>
      constructor
      · exact ih.readPattern
      · exact ih.readSegments

end PatternGrammar

/-- Reading a pattern passes its run. -/
theorem Pattern.passes_read {p : Pattern} (h : Pattern.read c = .ok (p, d)) :
  c.Passes false false d ∧ p.run = c.runUpTo d
  := (PatternGrammar.sound_level _).pattern h

end ReturnCaptures
