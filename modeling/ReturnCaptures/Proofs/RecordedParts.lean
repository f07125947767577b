import ReturnCaptures.Proofs.CaptureGrammar
import ReturnCaptures.Proofs.Excerpts

/-!
# The parts of an item and their texts

An item records, for each of its parts, the trees it was read from and the span from the first of
them to the last: for its attributes, its visibility, its generic parameters, its where clause and
the predicates in it, its receiver, its three dots, and for every type, every pattern at any depth
and every capture. The text that the span of a part covers is read on its own as the tokens of the
part.
-/

namespace ReturnCaptures

open TokenTree Outcome Cursor

variable {c d : Cursor} {trees : List TokenTree}

/-! ### Parts -/

/-- A part of an item: where it stands, and the texts of the tokens it consists of. -/
structure Part where
  span : Span
  flat : List String

/-- A run as a part. -/
def Run.part (run : Run) : Part := ⟨run.span, run.flat⟩

mutual

/-- The runs of a pattern and of all patterns inside it. -/
def Pattern.runs : Pattern → List Run
  | .mk _ run parts => run :: runsAll parts

/-- The runs of several patterns. -/
def Pattern.runsAll : List Pattern → List Run
  | [] => []
  | p :: ps => p.runs ++ runsAll ps

end

/-- The runs of a where clause. -/
def WhereClause.runs (clause : WhereClause) : List Run := clause.run :: clause.predicates

/-- The runs of a parameter. -/
def Param.runs : Param → List Run
  | .receiver run _ _ => [run]
  | .typed attributes pattern type => attributes ++ (pattern.runs ++ [type.run])

/-- The texts of the tokens of a capture, the colon of a bound one among them. -/
def Capture.flat : Capture → List String
  | .bound pattern type => pattern.run.flat ++ ":" :: type.run.flat
  | .unbound type => type.run.flat

/-- The parts of a capture. -/
def Capture.parts (item : Capture) : List Part :=
  ⟨item.span, item.flat⟩ ::
    (item.pattern?.toList.flatMap Pattern.runs ++ [item.type.run]).map Run.part

/-- The parts of a return clause. -/
def ReturnClause.parts : ReturnClause → List Part
  | .absent => []
  | .plain _ type _ => [type.run.part]
  | .captures _ items _ _ => items.flatMap Capture.parts

/-- The runs of an item outside of its return clause. -/
def FunctionItem.runs (item : FunctionItem) : List Run :=
  item.attributes ++ item.visibility.toList ++ item.generics.params.map (·.run) ++
    item.generics.whereClause.toList.flatMap WhereClause.runs ++
    item.params.params.flatMap Param.runs ++ item.params.variadic.toList

/-- The parts of an item. -/
def FunctionItem.parts (item : FunctionItem) : List Part :=
  item.runs.map Run.part ++ item.returns.parts

/-- A part that can be cut out of the trees it stands among, along its span. -/
def Part.IsExcerpt (part : Part) (trees : List TokenTree) : Prop :=
  ∃ run : Run, run.part = part ∧ run.IsExcerpt trees

/-! ### Excerpts between cursors -/

theorem TokenTree.atPlainMark_of_atPunct {symbol : Char} (h : atPunct symbol trees)
    (hsymbol : symbol ≠ '.') :
  atPlainMark trees
  := by
  obtain ⟨t, v, rfl, ht⟩ := exists_of_atLexeme h
  obtain ⟨joint, span, rfl⟩ := exists_of_isPunct ht
  rw [atPlainMark, Lexeme.isPlainMark, bne_iff_ne]
  apply hsymbol

theorem TokenTree.atPlainMark_of_itemEnd (h : d.atEnd || atPunct ',' d.trees) :
  atPlainMark d.trees
  := by
  rcases Bool.or_eq_true_iff.mp h with hend | hcomma
  · rw [atEnd, List.isEmpty_iff] at hend
    rw [hend]
    rfl
  · apply atPlainMark_of_atPunct hcomma (by decide)

/-- The run between two cursors can be cut out if a mark follows it. -/
theorem Run.isExcerpt_runUpTo (hd : d.trees <:+ c.trees) (hlt : d.trees.length < c.trees.length)
    (htrees : c.trees <:+ trees) (hnext : atPlainMark d.trees) :
  (c.runUpTo d).IsExcerpt trees
  := by
  obtain ⟨u, hc⟩ := hd
  have hu : u ≠ [] := by
    rintro rfl
    rw [← hc] at hlt
    apply Nat.lt_irrefl _ hlt
  have hrun : (c.runUpTo d).trees = u := readUpTo_of_append hc.symm
  constructor
  · rw [hrun]
    apply spans_runUpTo hc.symm hu
  · use d.trees
    rw [hrun]
    constructor
    · apply StandsBefore.of_isSuffix
      rwa [hc]
    · right
      apply hnext

/-- What can be cut out of a group can be cut out of the trees among which the group stands. -/
theorem Run.IsExcerpt.inside {run : Run} {g : Group} (h : run.IsExcerpt g.trees)
    (hg : g.tree ∈ trees) :
  run.IsExcerpt trees
  := by
  obtain ⟨hspans, r, hstands, hsevered⟩ := h
  obtain ⟨v, w, rfl⟩ := List.append_of_mem hg
  use hspans, r
  use StandsBefore.inside hstands

/-- A run that does not end in a point can be cut out. -/
theorem Run.isExcerpt_of_getLast {run : Run} {r : List TokenTree} (h : run.trees ++ r <:+ trees)
    (hspans : Spans run.trees run.span.start run.span.stop)
    (hlast : ∀ tree ∈ run.trees.getLast?, atPunct '.' [tree] = false) :
  run.IsExcerpt trees
  := by
  use hspans, r
  use StandsBefore.of_isSuffix h
  left
  apply hlast

/-- A run that ends as types do can be cut out. -/
theorem Run.StandsIn.isExcerpt {run : Run} (h : run.StandsIn trees) :
  run.IsExcerpt trees
  := by
  obtain ⟨v, r, htrees⟩ := h.among
  apply Run.isExcerpt_of_getLast (r := r) ⟨v, by rw [← htrees, List.append_assoc]⟩ h.spans
  intro tree htree
  rw [Bool.eq_false_iff]
  intro hpoint
  have hends := h.ends tree htree
  obtain ⟨t, rfl⟩ := exists_of_atPunct_singleton hpoint
  obtain ⟨joint, span, rfl⟩ := exists_of_isPunct hpoint
  rw [lastLexeme, Lexeme.endsType_plain] at hends
  cases hends

/-! ### Attributes and visibility -/

theorem isExcerpt_of_mem_outerAttributesOf {u : List TokenTree} (h : u <:+ trees) :
  ∀ run ∈ (outerAttributesOf u).1, run.IsExcerpt trees
  := by
  fun_induction outerAttributesOf u with
  | case1 text span u runs rest hrest ih =>
      simp only [hrest, List.forall_mem_cons] at ih ⊢
      constructor
      · apply Run.isExcerpt_of_getLast (r := u) (by exact h) ⟨rfl, rfl⟩
        rintro _ ⟨⟩
        rfl
      · apply ih ((List.suffix_cons _ _).trans h)
  | case2 joint span inside opening closing u runs rest hrest ih =>
      simp only [hrest, List.forall_mem_cons] at ih ⊢
      constructor
      · apply Run.isExcerpt_of_getLast (r := u) (by exact h) ⟨rfl, rfl⟩
        rintro _ ⟨⟩
        rfl
      · apply ih
        apply ((List.suffix_cons _ _).trans (List.suffix_cons _ _)).trans h
  | case3 => simp

theorem FunctionItem.isExcerpt_of_readVisibility {visibility : Option Run}
    (h : readVisibility c = (visibility, d)) (htrees : c.trees <:+ trees) :
  ∀ run ∈ visibility, run.IsExcerpt trees
  := by
  unfold readVisibility at h
  split at h
  case h_1 span rest hc =>
    rw [hc] at htrees
    have hword : Run.IsExcerpt (.single (.token ⟨.keyword "pub", span⟩)) trees := by
      apply Run.isExcerpt_of_getLast (r := rest) (by exact htrees) ⟨rfl, rfl⟩
      rintro _ ⟨⟩
      rfl
    split at h
    case h_1 inside opening closing rest =>
      split at h
      · cases h
        rintro _ ⟨⟩
        apply Run.isExcerpt_of_getLast (r := rest) (by exact htrees) ⟨rfl, rfl⟩
        rintro _ ⟨⟩
        rfl
      · cases h
        rintro _ ⟨⟩
        apply hword
    case h_2 =>
      cases h
      rintro _ ⟨⟩
      apply hword
  case h_2 =>
    cases h
    rintro _ ⟨⟩

/-! ### Generic parameters and where clauses -/

theorem Generics.isExcerpt_of_readParams {bound : Nat} {params : List GenericParam}
    (h : readParams bound c = .ok (params, d)) (htrees : c.trees <:+ trees) :
  ∀ param ∈ params, param.run.IsExcerpt trees
  := by
  induction bound generalizing c params with
  | zero => cases h
  | succ bound ih =>
      rcases ite_eq_iff.mp h with ⟨-, h⟩ | ⟨-, h⟩
      · cases h
        simp
      · obtain ⟨⟨param, e⟩, hparam, h⟩ := bind_eq_ok.mp h
        have hpasses := GenericParam.passes_read hparam
        have hrun : param.run = c.runUpTo e := by
          obtain ⟨_, _, ⟨⟩⟩ := bind_eq_ok.mp hparam
          rfl
        have hexcerpt {symbol : Char} (hnext : atPunct symbol e.trees) (hsymbol : symbol ≠ '.') :
            param.run.IsExcerpt trees := by
          rw [hrun]
          apply Run.isExcerpt_runUpTo hpasses.crosses.isSuffix hpasses.shorter htrees
          apply atPlainMark_of_atPunct hnext hsymbol
        rcases ite_eq_iff.mp h with ⟨hcomma, h⟩ | ⟨-, h⟩
        · obtain ⟨⟨params, f⟩, hmore, ⟨⟩⟩ := bind_eq_ok.mp h
          rw [List.forall_mem_cons]
          use hexcerpt hcomma (by decide)
          apply ih hmore
          apply ((List.drop_suffix _ _).trans hpasses.crosses.isSuffix).trans htrees
        · obtain ⟨f, hlast, ⟨⟩⟩ := bind_eq_ok.mp h
          obtain ⟨hgt, rfl⟩ := expect_eq_ok.mp hlast
          rw [List.forall_mem_singleton]
          apply hexcerpt hgt (by decide)

theorem Generics.isExcerpt_of_read {g : Generics} (h : Generics.read c = .ok (g, d))
    (htrees : c.trees <:+ trees) :
  ∀ param ∈ g.params, param.run.IsExcerpt trees
  := by
  rcases ite_eq_iff.mp h with ⟨-, h⟩ | ⟨-, h⟩
  · cases h
    simp
  · obtain ⟨⟨params, e⟩, hparams, ⟨⟩⟩ := bind_eq_ok.mp h
    apply isExcerpt_of_readParams hparams
    apply (List.drop_suffix _ _).trans htrees

theorem WhereClause.isExcerpt_of_readPredicates {bound : Nat} {runs : List Run}
    (h : readPredicates bound c = .ok (runs, d)) (htrees : c.trees <:+ trees)
    (hnext : atPlainMark d.trees) :
  ∀ run ∈ runs, run.IsExcerpt trees
  := by
  induction bound generalizing c runs with
  | zero => cases h
  | succ bound ih =>
      rcases ite_eq_iff.mp h with ⟨-, h⟩ | ⟨-, h⟩
      · cases h
        simp
      · obtain ⟨e, hpredicate, h⟩ := bind_eq_ok.mp h
        have hpasses := passes_predicate hpredicate
        have hexcerpt (hmark : atPlainMark e.trees) : (c.runUpTo e).IsExcerpt trees :=
          Run.isExcerpt_runUpTo hpasses.crosses.isSuffix hpasses.shorter htrees hmark
        rcases ite_eq_iff.mp h with ⟨hcomma, h⟩ | ⟨-, h⟩
        · obtain ⟨⟨runs, f⟩, hmore, ⟨⟩⟩ := bind_eq_ok.mp h
          rw [List.forall_mem_cons]
          use hexcerpt (atPlainMark_of_atPunct hcomma (by decide))
          apply ih hmore
          apply ((List.drop_suffix _ _).trans hpasses.crosses.isSuffix).trans htrees
        · cases h
          rw [List.forall_mem_singleton]
          apply hexcerpt hnext

theorem WhereClause.isExcerpt_of_read {clause : Option WhereClause}
    (h : WhereClause.read c = .ok (clause, d)) (htrees : c.trees <:+ trees)
    (hnext : atPlainMark d.trees) :
  ∀ run ∈ clause.toList.flatMap WhereClause.runs, run.IsExcerpt trees
  := by
  rcases ite_eq_iff.mp h with ⟨-, h⟩ | ⟨hsome, h⟩
  · cases h
    simp
  · obtain ⟨⟨runs, e⟩, hpredicates, ⟨⟩⟩ := bind_eq_ok.mp h
    have hword : atKeyword "where" c.trees := by simpa using hsome
    have hcross := crosses_readPredicates hpredicates
    have hpasses : c.Passes false true d := Passes.skip hword (Crosses.keyword hword) hcross
    have hclause : (some (⟨runs, c.runUpTo d⟩ : WhereClause)).toList.flatMap WhereClause.runs =
        c.runUpTo d :: runs := by simp [WhereClause.runs]
    rw [hclause, List.forall_mem_cons]
    use Run.isExcerpt_runUpTo hpasses.crosses.isSuffix hpasses.shorter htrees hnext
    apply isExcerpt_of_readPredicates hpredicates _ hnext
    apply (List.drop_suffix _ _).trans htrees

/-! ### Patterns -/

theorem Pattern.mem_runsAll {ps : List Pattern} {run : Run} :
  run ∈ runsAll ps ↔ ∃ p ∈ ps, run ∈ p.runs
  := by
  induction ps with
  | nil => simp [runsAll]
  | cons p ps ih => simp [runsAll, ih]

namespace PatternGrammar

variable {G : PatternGrammar} {kind : PatternKind} {parts : List Pattern} {p : Pattern}

/-- A grammar of which every pattern can be cut out if a mark follows it, and so can all patterns
inside it. -/
def Excerpts (G : PatternGrammar) : Prop :=
  ∀ {c d : Cursor} {p : Pattern} {trees : List TokenTree}, G.pattern c = .ok (p, d) →
    c.trees <:+ trees → atPlainMark d.trees → ∀ run ∈ p.runs, run.IsExcerpt trees

theorem Excerpts.elements (hG : G.Excerpts) (hs : G.Sound) {ps : List Pattern} {g : Group}
    (h : G.elements (.into g) = .ok ps) (hg : g.tree ∈ trees) :
  ∀ run ∈ Pattern.runsAll ps, run.IsExcerpt trees
  := by
  obtain ⟨_, rfl, hseparated⟩ : ∃ rest, ps = [].reverse ++ rest ∧
      (Cursor.into g).Separated (fun c p d => G.pattern c = .ok (p, d)) rest :=
    separated_of_commaSeparatedAfter h id
  intro run hrun
  obtain ⟨p, hp, hrun⟩ := Pattern.mem_runsAll.mp hrun
  obtain ⟨e, f, hread, hsuffix, hend⟩ := hseparated.exists_of_mem
    (fun hread => (hs.pattern hread).1.crosses.isSuffix) hp
  apply Run.IsExcerpt.inside _ hg
  apply hG hread hsuffix (atPlainMark_of_itemEnd hend) run hrun

theorem Excerpts.readPath (hG : G.Excerpts) (hs : G.Sound) (h : G.readPath c = .ok (kind, parts, d))
    (htrees : c.trees <:+ trees) :
  ∀ run ∈ Pattern.runsAll parts, run.IsExcerpt trees
  := by
  obtain ⟨e, hpath, h⟩ := ite_bind_eq_ok.mp h
  dsimp only at h
  have he : e.trees <:+ trees := by
    apply List.IsSuffix.trans _ htrees
    split at hpath
    case isTrue => apply ((TypeGrammar.sound_upTo c).qualifiedPath hpath).crosses.isSuffix
    case isFalse =>
      have hseparator : c.Crosses false false (TypeGrammar.skipSeparator c) :=
        TypeGrammar.crosses_skipSeparator c
      apply (hseparator.trans (hs.segments hpath).crosses).isSuffix
  split at h
  case h_1 inside opening closing r hc =>
    obtain ⟨ps, helements, ⟨⟩⟩ := bind_eq_ok.mp h
    rw [hc] at he
    apply hG.elements hs (g := ⟨.paren, inside, opening, closing⟩) helements
    apply he.mem List.mem_cons_self
  case h_2 =>
    cases h
    simp [Pattern.runsAll]
  case h_3 =>
    cases h
    simp [Pattern.runsAll]

theorem Excerpts.readPlain (hG : G.Excerpts) (hs : G.Sound)
    (h : G.readPlain c = .ok (kind, parts, d)) (htrees : c.trees <:+ trees)
    (hnext : atPlainMark d.trees) :
  ∀ run ∈ Pattern.runsAll parts, run.IsExcerpt trees
  := by
  have hnone : ∀ run ∈ Pattern.runsAll [], run.IsExcerpt trees := by simp [Pattern.runsAll]
  rw [PatternGrammar.readPlain] at h
  rcases ite_eq_iff.mp h with ⟨-, h⟩ | ⟨-, h⟩
  · cases h
    apply hnone
  rcases ite_eq_iff.mp h with ⟨-, h⟩ | ⟨-, h⟩
  · cases h
    apply hnone
  rcases ite_eq_iff.mp h with ⟨-, h⟩ | ⟨-, h⟩
  · obtain ⟨⟨p, e⟩, hpattern, ⟨⟩⟩ := bind_eq_ok.mp h
    rw [Pattern.runsAll, Pattern.runsAll, List.append_nil]
    apply hG hpattern _ hnext
    have hskip : (c.skip 1).Crosses false false ((c.skip 1).skipKeyword "mut") :=
      Crosses.skipKeyword (c.skip 1) "mut"
    apply (hskip.isSuffix.trans (List.drop_suffix _ _)).trans htrees
  rcases ite_eq_iff.mp h with ⟨-, h⟩ | ⟨-, h⟩
  · obtain ⟨⟨t, e⟩, hident, h⟩ := bind_eq_ok.mp h
    rcases ite_eq_iff.mp h with ⟨-, h⟩ | ⟨-, h⟩
    · obtain ⟨⟨p, f⟩, hpattern, ⟨⟩⟩ := bind_eq_ok.mp h
      rw [Pattern.runsAll, Pattern.runsAll, List.append_nil]
      apply hG hpattern _ hnext
      have hword : c.Crosses false false e :=
        (Crosses.skipKeyword c "ref").trans
          ((Crosses.skipKeyword _ "mut").trans (Passes.expectIdent hident).crosses)
      apply ((List.drop_suffix _ _).trans hword.isSuffix).trans htrees
    · cases h
      apply hnone
  rcases ite_eq_iff.mp h with ⟨-, h⟩ | ⟨-, h⟩
  · cases h
    apply hnone
  rcases ite_eq_iff.mp h with ⟨-, h⟩ | ⟨-, h⟩
  · cases h
    apply hnone
  rcases ite_eq_iff.mp h with ⟨-, h⟩ | ⟨-, h⟩
  · apply hG.readPath hs h htrees
  cases h

/-- The patterns of every level, and all patterns inside them, can be cut out if a mark follows. -/
theorem excerpts_level (n : Nat) :
  (level n).Excerpts
  := by
  -- By induction on the level; the patterns inside a pattern are read one level below.
  induction n with
  | zero =>
      intro c d p trees h
      cases h
  | succ n ih =>
      intro c d p trees h htrees hnext
      have hpasses := ((sound_level (n + 1)).pattern h).1
      obtain ⟨⟨kind, parts, e⟩, hshape, ⟨⟩⟩ := bind_eq_ok.mp h
      rw [Pattern.runs, List.forall_mem_cons]
      use Run.isExcerpt_runUpTo hpasses.crosses.isSuffix hpasses.shorter htrees hnext
      have hgroup {g : Group} {ps : List Pattern} {r : List TokenTree} (hc : c.trees = g.tree :: r)
          (h : (level n).elements (.into g) = .ok ps) :
          ∀ run ∈ Pattern.runsAll ps, run.IsExcerpt trees := by
        apply ih.elements (sound_level n) h
        apply htrees.mem
        rw [hc]
        apply List.mem_cons_self
      rw [readShape] at hshape
      split at hshape
      case h_1 inside opening closing r hc =>
        obtain ⟨ps, helements, ⟨⟩⟩ := bind_eq_ok.mp hshape
        apply hgroup (g := ⟨.paren, inside, opening, closing⟩) hc helements
      case h_2 inside opening closing r hc =>
        obtain ⟨ps, helements, ⟨⟩⟩ := bind_eq_ok.mp hshape
        apply hgroup (g := ⟨.bracket, inside, opening, closing⟩) hc helements
      case h_3 => apply ih.readPlain (sound_level n) hshape htrees hnext

end PatternGrammar

/-! ### Parameters -/

namespace ParamList

/-- The runs of an entry of a parameter list. -/
def Entry.runs : Entry → List Run
  | .param p => p.runs
  | .variadic run => [run]

/-- Three dots are some trees. -/
theorem length_skip_of_atDots (h : atDots d.trees) :
  (d.skip 3).trees.length < d.trees.length
  := by
  rw [trees_skip, List.length_drop]
  apply Nat.sub_lt _ (by decide)
  rw [List.length_pos_iff]
  intro hnil
  rw [hnil] at h
  cases h

/-- What an entry of a parameter list is that is read between two cursors: a receiver, three dots,
perhaps with a pattern in front, or a pattern with a type. -/
inductive ReadsEntry (c : Cursor) : Entry → Cursor → Prop
  | receiver {param : Param} {d : Cursor} :
      readReceiver (outerAttributes c).2 = .ok (some (param, d)) → ReadsEntry c (.param param) d
  | variadic {d : Cursor} : d.trees <:+ (outerAttributes c).2.trees → atDots d.trees →
      ReadsEntry c (.variadic (c.runUpTo (d.skip 3))) (d.skip 3)
  | typed {pattern : Pattern} {type : TypeExpr} {d e : Cursor} :
      Pattern.read (outerAttributes c).2 = .ok (pattern, d) → atColon d.trees →
      TypeExpr.read true (d.skip 1) = .ok (type, e) →
        ReadsEntry c (.param (.typed (outerAttributes c).1 pattern type)) e

theorem readsEntry_of_readEntry {done : List Entry} {entry : Entry}
    (h : readEntry done c = .ok (entry, d)) :
  ReadsEntry c entry d
  := by
  have hplain (h : readPlainEntry c (outerAttributes c).1 (outerAttributes c).2 = .ok (entry, d)) :
      ReadsEntry c entry d := by
    rcases ite_eq_iff.mp h with ⟨hdots, h⟩ | ⟨-, h⟩
    · cases h
      apply ReadsEntry.variadic List.suffix_rfl hdots
    obtain ⟨⟨pattern, e⟩, hpattern, h⟩ := bind_eq_ok.mp h
    obtain ⟨f, hexpect, h⟩ := bind_eq_ok.mp h
    obtain ⟨hcolon, rfl⟩ := expectColon_eq_ok.mp hexpect
    rcases ite_eq_iff.mp h with ⟨hdots, h⟩ | ⟨-, h⟩
    · cases h
      apply ReadsEntry.variadic _ hdots
      apply (List.drop_suffix _ _).trans (Pattern.passes_read hpattern).1.crosses.isSuffix
    · obtain ⟨⟨type, f⟩, htype, ⟨⟩⟩ := bind_eq_ok.mp h
      apply ReadsEntry.typed hpattern hcolon htype
  unfold readEntry at h
  split at h
  case h_1 => cases h
  case h_2 =>
    obtain ⟨receiver, hreceiver, h⟩ := ite_bind_eq_ok.mp h
    cases receiver with
    | none => apply hplain h
    | some receiver =>
        obtain ⟨param, e⟩ := receiver
        cases h
        rcases ite_eq_iff.mp hreceiver with ⟨-, hreceiver⟩ | ⟨-, hnone⟩
        · apply ReadsEntry.receiver hreceiver
        · cases hnone

/-- A receiver keeps its run, which is not empty. -/
theorem exists_of_readReceiver {param : Param} (h : readReceiver c = .ok (some (param, d))) :
  ∃ reference mutable, param = .receiver (c.runUpTo d) reference mutable ∧ c.Passes false true d
  := by
  have hmarked : c.Crosses false true (if atPunct '&' c.trees then
      (if atLifetime (c.skip 1).trees then (c.skip 1).skip 1 else c.skip 1) else c) := by
    apply Crosses.ite
    intro href
    apply (Crosses.punct href (by rfl)).trans
    apply Crosses.ite Crosses.lifetime
  rw [readReceiver] at h
  dsimp only at h
  generalize (if atPunct '&' c.trees then
    (if atLifetime (c.skip 1).trees then (c.skip 1).skip 1 else c.skip 1) else c) = marked at h hmarked
  rcases ite_eq_iff.mp h with ⟨-, h⟩ | ⟨hself, h⟩
  · cases h
  · obtain ⟨e, htype, ⟨⟩⟩ := ite_bind_eq_ok.mp h
    refine ⟨_, _, rfl, ?_⟩
    rw [Bool.or_eq_true, not_or, Bool.not_eq_true', Bool.not_eq_false] at hself
    apply hmarked.trans_passes
    apply (Crosses.skipKeyword marked "mut").trans_passes
    apply Passes.skip hself.1 (Crosses.keyword hself.1)
    rcases ite_eq_iff.mp htype with ⟨hcolon, htype⟩ | ⟨-, htype⟩
    · rw [Bool.and_eq_true] at hcolon
      apply (Crosses.colon hcolon.2).trans
      apply (TypeExpr.passes_map_read htype).crosses.toInner.toLoose
    · cases htype
      apply Crosses.refl

/-- What an entry leads to, behind a receiver, three dots or a type. -/
theorem ReadsEntry.isSuffix {entry : Entry} (h : ReadsEntry c entry d) :
  d.trees <:+ c.trees
  := by
  apply List.IsSuffix.trans _ (isSuffix_outerAttributes c)
  cases h with
  | receiver hreceiver =>
      obtain ⟨_, _, _, hpasses⟩ := exists_of_readReceiver hreceiver
      apply hpasses.crosses.isSuffix
  | variadic hd _ => apply (List.drop_suffix _ _).trans hd
  | typed hpattern _ htype =>
      apply (TypeExpr.passes_read htype).1.crosses.isSuffix.trans
      apply (List.drop_suffix _ _).trans (Pattern.passes_read hpattern).1.crosses.isSuffix

/-- The runs of an entry can be cut out if a mark follows it. -/
theorem ReadsEntry.isExcerpt {entry : Entry} (h : ReadsEntry c entry d) (htrees : c.trees <:+ trees)
    (hnext : atPlainMark d.trees) :
  ∀ run ∈ entry.runs, run.IsExcerpt trees
  := by
  have hattributes := isExcerpt_of_mem_outerAttributesOf htrees
  have hattributed := isSuffix_outerAttributes c
  cases id h with
  | receiver hreceiver =>
      obtain ⟨_, _, rfl, hpasses⟩ := exists_of_readReceiver hreceiver
      rw [Entry.runs, Param.runs, List.forall_mem_singleton]
      apply Run.isExcerpt_runUpTo hpasses.crosses.isSuffix hpasses.shorter _ hnext
      apply hattributed.trans htrees
  | variadic hd hdots =>
      rw [Entry.runs, List.forall_mem_singleton]
      apply Run.isExcerpt_runUpTo h.isSuffix _ htrees hnext
      apply Nat.lt_of_lt_of_le (length_skip_of_atDots hdots) (hd.trans hattributed).length_le
  | @typed pattern type e _ hpattern hcolon htype =>
      have hmark : atPlainMark e.trees := by
        rw [atColon, Bool.and_eq_true] at hcolon
        apply atPlainMark_of_atPunct hcolon.1 (by decide)
      have hpassed := (Pattern.passes_read hpattern).1.crosses.isSuffix
      have hbehind : (e.skip 1).trees <:+ trees :=
        ((List.drop_suffix _ _).trans (hpassed.trans hattributed)).trans htrees
      simp only [Entry.runs, Param.runs, List.forall_mem_append, List.forall_mem_singleton]
      use hattributes
      use PatternGrammar.excerpts_level _ hpattern (hattributed.trans htrees) hmark
      apply (TypeExpr.standsIn_of_read htype hbehind).isExcerpt

/-- The parameters of a list are read from the inside of its group, with commas between them. -/
theorem exists_separated {params : ParamList} (h : ParamList.read c = .ok (params, d)) :
  ∃ entries, (Cursor.into params.group).Separated ReadsEntry entries ∧
    (∀ p ∈ params.params, .param p ∈ entries) ∧ ∀ run ∈ params.variadic, .variadic run ∈ entries
  := by
  obtain ⟨⟨g, e⟩, hgroup, h⟩ := bind_eq_ok.mp h
  obtain ⟨entries, hentries, ⟨⟩⟩ := bind_eq_ok.mp h
  obtain ⟨_, rfl, hseparated⟩ := separated_of_commaSeparatedAfter hentries readsEntry_of_readEntry
  use entries, hseparated
  constructor
  · intro p hp
    obtain ⟨entry, hentry, hsome⟩ := List.mem_filterMap.mp hp
    cases entry <;> cases hsome
    apply hentry
  · intro run hrun
    obtain ⟨entry, hentry, hsome⟩ := List.mem_filterMap.mp (List.mem_of_mem_head? hrun)
    cases entry <;> cases hsome
    apply hentry

/-- The runs of a parameter list can be cut out. -/
theorem isExcerpt_of_read {params : ParamList} (h : ParamList.read c = .ok (params, d))
    (htrees : c.trees <:+ trees) :
  ∀ run ∈ params.params.flatMap Param.runs ++ params.variadic.toList, run.IsExcerpt trees
  := by
  have hg : params.group.tree ∈ trees := by
    apply htrees.mem
    rw [(reads_read h).1.trees]
    apply List.mem_cons_self
  obtain ⟨entries, hseparated, hparams, hvariadic⟩ := exists_separated h
  have hentry {entry : Entry} (hmem : entry ∈ entries) : ∀ run ∈ entry.runs, run.IsExcerpt trees := by
    intro run hrun
    obtain ⟨e, f, hread, hsuffix, hend⟩ := hseparated.exists_of_mem ReadsEntry.isSuffix hmem
    apply Run.IsExcerpt.inside _ hg
    apply hread.isExcerpt hsuffix (atPlainMark_of_itemEnd hend) run hrun
  rw [List.forall_mem_append]
  constructor
  · intro run hrun
    obtain ⟨p, hp, hrun⟩ := List.mem_flatMap.mp hrun
    apply hentry (hparams p hp) run hrun
  · intro run hrun
    rw [Option.mem_toList] at hrun
    apply hentry (hvariadic run hrun) run (List.mem_singleton_self _)

end ParamList

/-! ### Captures and return clauses -/

/-- Trees around others reach from where the first of them start to where the last of them end. -/
theorem Spans.append {u v : List TokenTree} {k l m n : Nat} (hu : Spans u m k) (hv : Spans v l n)
    (w : List TokenTree) :
  Spans (u ++ (w ++ v)) m n
  := by
  obtain ⟨first, hfirst, hm⟩ := Option.map_eq_some_iff.mp hu.1
  obtain ⟨last, hlast, hn⟩ := Option.map_eq_some_iff.mp hv.2
  obtain ⟨r, rfl⟩ := List.head?_eq_some_iff.mp hfirst
  constructor
  · rw [List.cons_append, ← hm]
    rfl
  · rw [List.getLast?_append, List.getLast?_append, hlast, ← hn]
    rfl

theorem Run.IsExcerpt.part {run : Run} (h : run.IsExcerpt trees) :
  run.part.IsExcerpt trees
  := by
  use run, rfl

theorem TokenTree.flatAll_of_atPunct {tree : TokenTree} {symbol : Char} (h : atPunct symbol [tree]) :
  flatAll [tree] = [String.singleton symbol]
  := by
  obtain ⟨t, rfl⟩ := exists_of_atPunct_singleton h
  obtain ⟨joint, span, rfl⟩ := exists_of_isPunct h
  rfl

/-- A capture with a pattern can be cut out, from the start of its pattern to the end of its type. -/
theorem Capture.isExcerpt_of_bound {pattern : Pattern} {type : TypeExpr} {e : Cursor}
    (hpattern : Pattern.read c = .ok (pattern, e)) (hcolon : atColon e.trees)
    (htype : TypeExpr.read true (e.skip 1) = .ok (type, d)) (htrees : c.trees <:+ trees)
    (hnext : atPlainMark d.trees) (hp : pattern.run.IsExcerpt trees)
    (ht : type.run.IsExcerpt trees) :
  Part.IsExcerpt ⟨pattern.span.through type.run.span, (Capture.bound pattern type).flat⟩ trees
  := by
  obtain ⟨colon, hc, hcolon'⟩ := trees_of_bound hpattern hcolon htype
  have hpunct := hcolon' []
  rw [atColon, Bool.and_eq_true, atPunct_cons] at hpunct
  use ⟨pattern.run.trees ++ ([colon] ++ type.run.trees), pattern.span.through type.run.span⟩
  constructor
  · simp only [Run.part, Run.flat, Capture.flat, flatAll_append, flatAll_of_atPunct hpunct.1]
    rfl
  · constructor
    · apply hp.spans.append ht.spans
    · use d.trees
      constructor
      · apply StandsBefore.of_isSuffix
        simpa [hc] using htrees
      · right
        apply hnext

/-- The parts of a capture can be cut out. -/
theorem Capture.ReadsAs.isExcerpt {item : Capture} (h : ReadsAs c item d) (htrees : c.trees <:+ trees)
    (hend : d.atEnd || atPunct ',' d.trees) :
  ∀ part ∈ item.parts, part.IsExcerpt trees
  := by
  cases h with
  | @unbound type _ htype =>
      have hrun := (TypeExpr.standsIn_of_read htype htrees).isExcerpt.part
      rw [Capture.parts, List.forall_mem_cons]
      use hrun
      intro part hpart
      obtain rfl : part = type.run.part := by simpa [Capture.pattern?, Capture.type] using hpart
      apply hrun
  | @bound pattern type e _ hpattern hcolon htype hcheck =>
      have hmark : atPlainMark e.trees := by
        rw [atColon, Bool.and_eq_true] at hcolon
        apply atPlainMark_of_atPunct hcolon.1 (by decide)
      have hbehind : (e.skip 1).trees <:+ trees :=
        ((List.drop_suffix _ _).trans (Pattern.passes_read hpattern).1.crosses.isSuffix).trans htrees
      have hruns := PatternGrammar.excerpts_level _ hpattern htrees hmark
      have hrun := (TypeExpr.standsIn_of_read htype hbehind).isExcerpt
      rw [Capture.parts, List.forall_mem_cons]
      constructor
      · apply isExcerpt_of_bound hpattern hcolon htype htrees (atPlainMark_of_itemEnd hend) _ hrun
        apply hruns
        obtain ⟨_, _, _⟩ := pattern
        apply List.mem_cons_self
      · intro part hpart
        obtain ⟨run, hmem, rfl⟩ := List.mem_map.mp hpart
        apply Run.IsExcerpt.part
        simp only [Capture.pattern?, Option.toList_some, List.flatMap_singleton, Capture.type,
          List.mem_append, List.mem_singleton] at hmem
        rcases hmem with hmem | rfl
        · apply hruns run hmem
        · apply hrun

/-- What can be cut out of a group can be cut out of the trees among which the group stands. -/
theorem Part.IsExcerpt.inside {part : Part} {g : Group} (h : part.IsExcerpt g.trees)
    (hg : g.tree ∈ trees) :
  part.IsExcerpt trees
  := by
  obtain ⟨run, hpart, hrun⟩ := h
  exact ⟨run, hpart, hrun.inside hg⟩

/-- The parts of a return clause can be cut out. -/
theorem ReturnClause.Follows.isExcerpt {returns : ReturnClause} (h : Follows c returns d)
    (htrees : c.trees <:+ trees) :
  ∀ part ∈ returns.parts, part.IsExcerpt trees
  := by
  have hskip : (c.skip 2).trees <:+ trees := (List.drop_suffix _ _).trans htrees
  cases h with
  | absent => simp [ReturnClause.parts]
  | plain _ _ htype _ =>
      rw [ReturnClause.parts, List.forall_mem_singleton]
      apply (TypeExpr.standsIn_of_read htype hskip).isExcerpt.part
  | @captures arrow items g _ _ _ _ hg _ hitems =>
      intro part hpart
      obtain ⟨item, hitem, hpart⟩ := List.mem_flatMap.mp hpart
      obtain ⟨e, f, hread, hsuffix, hend⟩ :=
        (Capture.separated_of_readList hitems).exists_of_mem Capture.ReadsAs.isSuffix hitem
      apply Part.IsExcerpt.inside (hread.isExcerpt hsuffix hend part hpart)
      apply hskip.mem
      rw [hg]
      apply List.mem_cons_self

/-! ### Items -/

namespace FunctionItem

variable {item : FunctionItem}

/-- The body or the semicolon of an item is a mark. -/
theorem atPlainMark_of_readEnding {ending : Ending} {stop : Span}
    (h : readEnding c = .ok (ending, stop, d)) :
  atPlainMark c.trees ∧ ending.tree.span.stop = stop.stop
  := by
  unfold readEnding at h
  split at h
  case h_1 inside opening closing r hc =>
    cases h
    rw [hc]
    exact ⟨rfl, rfl⟩
  case h_2 t r hc =>
    split at h
    case isTrue hsemicolon =>
      cases h
      rw [hc]
      constructor
      · apply atPlainMark_of_atPunct (by exact hsemicolon) (by decide : ';' ≠ '.')
      · rfl
    case isFalse => cases h
  case h_3 => cases h

/-- The span of an item reaches over all of the trees that it was read from. -/
theorem Steps.spans (s : Steps c item d) (hd : d.trees = []) :
  Spans c.trees item.span.start item.span.stop
  := by
  have hall := s.reads.trees
  rw [hd, List.append_nil] at hall
  rw [s.span_eq]
  constructor
  · obtain ⟨first, r, hfirst⟩ : ∃ first r, c.trees = first :: r := by
      apply List.exists_cons_of_ne_nil
      simp [hall]
    rw [Cursor.span, hfirst]
    rfl
  · rw [hall, List.getLast?_concat, Option.map_some, (atPlainMark_of_readEnding s.ending_eq).2]
    rfl

/-- The parts of an item outside of its return clause can be cut out, and so can those of the return
clause. -/
theorem Steps.isExcerpt (s : Steps c item d) (hparams : s.params = item.generics.params) :
  ∀ part ∈ item.parts, part.IsExcerpt c.trees
  := by
  obtain ⟨hmark, _⟩ := atPlainMark_of_readEnding s.ending_eq
  -- The cursors between the parts stand among the trees of the item.
  obtain ⟨_, hfn, _⟩ := expectToken_eq_ok.mp s.fn_eq
  obtain ⟨_, hname, _⟩ := expectIdent_eq_ok.mp s.name_eq
  have hattributes := (reads_outerAttributes s.attributes_eq).isSuffix
  have hvisibility := (reads_visibility s.visibility_eq).1.isSuffix.trans hattributes
  have hqualifiers := (reads_qualifiers s.qualifiers_eq).1.isSuffix.trans hvisibility
  rw [hfn] at hqualifiers
  have hafterFn := (List.suffix_cons _ _).trans hqualifiers
  rw [hname] at hafterFn
  have hafterName := (List.suffix_cons _ _).trans hafterFn
  have hafterGenerics := (Generics.reads_read s.generics_eq).1.isSuffix.trans hafterName
  have hafterParams := (ParamList.reads_read s.params_eq).1.isSuffix.trans hafterGenerics
  have hfollows := ReturnClause.follows_read s.returns_eq
  have hafterReturns := hfollows.reads.isSuffix.trans hafterParams
  have hruns : ∀ run ∈ item.runs, run.IsExcerpt c.trees := by
    simp only [runs, List.append_assoc, List.forall_mem_append, List.forall_mem_map,
      Option.mem_toList]
    constructor
    · have hmem := isExcerpt_of_mem_outerAttributesOf (List.suffix_refl c.trees)
      rwa [(Prod.mk.inj s.attributes_eq).1] at hmem
    use isExcerpt_of_readVisibility s.visibility_eq hattributes
    constructor
    · rw [← hparams]
      apply Generics.isExcerpt_of_read s.generics_eq hafterName
    use WhereClause.isExcerpt_of_read s.where_eq hafterReturns hmark
    simpa only [List.forall_mem_append, Option.mem_toList] using
      ParamList.isExcerpt_of_read s.params_eq hafterGenerics
  rw [parts, List.forall_mem_append, List.forall_mem_map]
  constructor
  · intro run hrun
    apply (hruns run hrun).part
  · apply hfollows.isExcerpt hafterParams

/-- The parts of an item, and the item itself, can be cut out of the trees that it was read from. -/
theorem isExcerpt_of_ofTrees {file : String} (h : ofTrees file trees = .ok item) :
  ∀ part ∈ ⟨item.span, flatAll trees⟩ :: item.parts, part.IsExcerpt trees
  := by
  obtain ⟨d, hread, hd⟩ := exists_read_of_ofTrees h
  obtain ⟨s, hparams⟩ := exists_steps hread
  rw [List.forall_mem_cons]
  constructor
  · use ⟨trees, item.span⟩, rfl
    constructor
    · apply s.spans hd
    · use []
      constructor
      · apply StandsBefore.of_isSuffix
        simp
      · right
        rfl
  · apply s.isExcerpt hparams

/-- The text that a part of an item covers is read on its own as the tokens of the part, and the text
that the item covers as the tokens of the whole text. -/
theorem exists_ofText_parts {file : String} {text : List Char} (h : ofText file text = .ok item) :
  ∃ trees, TokenTree.ofText file text = .ok trees ∧
    ∀ part ∈ ⟨item.span, flatAll trees⟩ :: item.parts,
      ∃ v, TokenTree.ofText file (part.span.textIn text) = .ok v ∧ flatAll v = part.flat
  := by
  obtain ⟨trees, htrees, hitem⟩ := bind_eq_ok.mp h
  use trees, htrees
  intro part hpart
  obtain ⟨run, rfl, hrun⟩ := isExcerpt_of_ofTrees hitem part hpart
  apply hrun.exists_ofText htrees

/-- Two dots among the elements of a slice, and three dots behind a name, are read on their own. -/
theorem exists_ofText_parts_dotted :
  ∃ item trees,
    ofText "f.rs" "#[a] fn f<T: U>(&self, [1,..]: T, x: ...) -> (y: A) where T: U, {}".toList =
      .ok item ∧ item.parts.length = 13 ∧
    TokenTree.ofText "f.rs"
      "#[a] fn f<T: U>(&self, [1,..]: T, x: ...) -> (y: A) where T: U, {}".toList = .ok trees ∧
    ∀ part ∈ ⟨item.span, flatAll trees⟩ :: item.parts,
      ∃ v, TokenTree.ofText "f.rs" (part.span.textIn
        "#[a] fn f<T: U>(&self, [1,..]: T, x: ...) -> (y: A) where T: U, {}".toList) = .ok v ∧
        flatAll v = part.flat
  := by
  obtain ⟨item, hitem, hlength⟩ := Outcome.exists_of_any
    (x := ofText "f.rs"
      "#[a] fn f<T: U>(&self, [1,..]: T, x: ...) -> (y: A) where T: U, {}".toList)
    (p := fun item => item.parts.length == 13) (by decide +kernel)
  obtain ⟨trees, htrees, hparts⟩ := exists_ofText_parts hitem
  exact ⟨item, trees, hitem, eq_of_beq hlength, htrees, hparts⟩

end FunctionItem

end ReturnCaptures
