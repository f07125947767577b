import ReturnCaptures.Proofs.CapturedPatterns

/-!
# The grammar of capture lists

Between the parentheses of a capture list stand runs with commas between them, and perhaps one at
the end. Each run is a type, or a pattern, a colon and a type, and nothing else. The patterns are
made of names, wildcards and tuples of them, where two dots may stand among the elements of a tuple,
and no name is bound twice: the names of a tuple are those of its elements, however deep they are. A
group is read as a capture list if and only if it is of this form, and the captures are then what
its runs are, in order.
-/

namespace ReturnCaptures

open TokenTree Outcome Cursor

/-! ### Runs between commas -/

/-- Trees that are runs with commas between them; a comma may also follow the last run. -/
inductive CommaSeparated : List TokenTree → List (List TokenTree) → Prop
  | nil : CommaSeparated [] []
  | last (run : List TokenTree) : CommaSeparated run [run]
  | cons {run rest : List TokenTree} {comma : TokenTree} {runs : List (List TokenTree)} :
      atPunct ',' [comma] → CommaSeparated rest runs →
        CommaSeparated (run ++ comma :: rest) (run :: runs)

/-! ### Patterns of captures -/

/-- The keyword `word`, or nothing. -/
def IsOptionalKeyword (word : String) (trees : List TokenTree) : Prop :=
  trees = [] ∨ ∃ span, trees = [.token ⟨.keyword word, span⟩]

namespace Pattern

/-- Two dots. -/
inductive IsDots : Pattern → Prop
  | intro {run : Run} {first second : TokenTree} :
      run.trees = [first, second] → atOperator ['.', '.'] [first, second] →
        IsDots (.mk .rest run [])

mutual

/-- A pattern that is a name, perhaps by reference or mutable, a wildcard or a tuple, and the names
that it binds, from left to right. -/
inductive Binds : Pattern → List String → Prop
  | binding {run : Run} {name : String} {ref mutable : List TokenTree} {span : Span} :
      IsOptionalKeyword "ref" ref → IsOptionalKeyword "mut" mutable →
      run.trees = ref ++ (mutable ++ [.token ⟨.ident name, span⟩]) →
        Binds (.mk (.binding name) run []) [name]
  | wildcard {run : Run} {span : Span} :
      run.trees = [.token ⟨.ident "_", span⟩] → Binds (.mk .wildcard run []) []
  | tuple {run : Run} {parts : List Pattern} {inside : List TokenTree} {opening closing : Span}
      {names : List String} :
      run.trees = [.group .paren inside opening closing] →
      CommaSeparated inside (parts.map (·.run.trees)) → BindAll parts names →
        Binds (.mk .tuple run parts) names

/-- The elements of a tuple, which are such patterns and two dots, and the names that they bind. -/
inductive BindAll : List Pattern → List String → Prop
  | nil : BindAll [] []
  | dots {p : Pattern} {ps : List Pattern} {names : List String} :
      IsDots p → BindAll ps names → BindAll (p :: ps) names
  | cons {p : Pattern} {ps : List Pattern} {names names' : List String} :
      Binds p names → BindAll ps names' → BindAll (p :: ps) (names ++ names')

end

/-- A pattern that is made of names, wildcards and tuples. -/
def IsSimple (p : Pattern) : Prop := ∃ names, p.Binds names

mutual

/-- A capture may have a simple pattern. -/
theorem Binds.checkPattern {p : Pattern} {names : List String} :
  p.Binds names → Capture.checkPattern p = .ok ()
  | .binding _ _ _ => rfl
  | .wildcard _ => rfl
  | .tuple _ _ h => h.checkParts

theorem BindAll.checkParts {ps : List Pattern} {names : List String} :
  BindAll ps names → Capture.checkParts ps = .ok ()
  | .nil => rfl
  | .dots h hps => by
      obtain ⟨_, _⟩ := h
      apply hps.checkParts
  | .cons h hps => by
      rw [Capture.checkParts, h.checkPattern, hps.checkParts]
      split <;> rfl

end

mutual

/-- The names that a simple pattern binds are those of its bindings. -/
theorem Binds.bindings_eq {p : Pattern} {names : List String} :
  p.Binds names → p.bindings.map Prod.fst = names
  | .binding _ _ _ => rfl
  | .wildcard _ => rfl
  | .tuple _ _ h => h.bindingsAll_eq

theorem BindAll.bindingsAll_eq {ps : List Pattern} {names : List String} :
  BindAll ps names → (bindingsAll ps).map Prod.fst = names
  | .nil => rfl
  | .dots h hps => by
      obtain ⟨_, _⟩ := h
      apply hps.bindingsAll_eq
  | .cons h hps => by rw [bindingsAll, List.map_append, h.bindings_eq, hps.bindingsAll_eq]

end

theorem exists_bindAll {ps : List Pattern} (h : ∀ p ∈ ps, p.IsDots ∨ p.IsSimple) :
  ∃ names, BindAll ps names
  := by
  induction ps with
  | nil => use [], BindAll.nil
  | cons p ps ih =>
      rw [List.forall_mem_cons] at h
      obtain ⟨names', hps⟩ := ih h.2
      rcases h.1 with hdots | ⟨names, hp⟩
      · use names', BindAll.dots hdots hps
      · use names ++ names', BindAll.cons hp hps

end Pattern

variable {c d : Cursor}

/-- A keyword that is skipped stands in front of what it leads to. -/
theorem Cursor.exists_isOptionalKeyword (c : Cursor) (word : String) :
  ∃ w, IsOptionalKeyword word w ∧ c.trees = w ++ (c.skipKeyword word).trees
  := by
  unfold skipKeyword
  split
  case isTrue hword =>
    obtain ⟨⟨l, span⟩, r, hc, hl⟩ := exists_of_atLexeme hword
    obtain rfl : l = .keyword word := by
      cases l with
      | keyword => rw [eq_of_beq hl]
      | _ => cases hl
    use [.token ⟨.keyword word, span⟩], Or.inr ⟨span, rfl⟩
    rw [trees_skip_one hc, hc]
    rfl
  case isFalse => exact ⟨[], Or.inl rfl, rfl⟩

/-- Trees of which parts are read one after the other, with commas between them, are the runs of
these parts with commas between them. -/
theorem Cursor.Separated.commaSeparated_map {α : Type} {reads : Cursor → α → Cursor → Prop}
    {as : List α} {trees : α → List TokenTree} (h : c.Separated reads as)
    (hreads : ∀ {c a d}, reads c a d → c.trees = trees a ++ d.trees) :
  CommaSeparated c.trees (as.map trees)
  := by
  induction h with
  | nil hc => exact hc ▸ CommaSeparated.nil
  | last hread hd =>
      rw [hreads hread, hd, List.append_nil]
      apply CommaSeparated.last
  | cons hread hcomma _ ih =>
      obtain ⟨comma, rest, hd, hcomma'⟩ := exists_of_atPunct hcomma
      rw [trees_skip_one hd] at ih
      rw [hreads hread, hd]
      apply CommaSeparated.cons hcomma' ih

namespace PatternGrammar

variable {G : PatternGrammar} {kind : PatternKind} {parts : List Pattern} {p : Pattern}

/-- A pattern that starts with a token, and that a capture may have, is two dots or simple. -/
theorem isSimple_of_readsToken (h : ReadsToken c kind parts d) :
  (Pattern.mk kind (c.runUpTo d) parts).IsDots ∨ (Pattern.mk kind (c.runUpTo d) parts).IsSimple
  := by
  cases h with
  | wildcard hblank =>
      obtain ⟨⟨l, span⟩, v, hc, hl⟩ := exists_of_atLexeme hblank
      obtain rfl : l = .ident "_" := eq_of_beq hl
      right
      use []
      apply Pattern.Binds.wildcard
      apply readUpTo_of_append
      rw [trees_skip_one hc]
      apply hc
  | dots _ hrest =>
      rw [atRest, Bool.and_eq_true, Bool.and_eq_true] at hrest
      obtain ⟨first, second, v, hc, hdots⟩ := exists_of_atOperator hrest.1.1
      left
      apply Pattern.IsDots.intro _ hdots
      apply readUpTo_of_append
      simp [hc]
  | @binding t _ _ _ _ hident =>
      obtain ⟨_, span⟩ := t
      obtain ⟨⟨name, rfl⟩, he, _⟩ := expectIdent_eq_ok.mp hident
      obtain ⟨ref, href, hc⟩ := c.exists_isOptionalKeyword "ref"
      obtain ⟨mutable, hmutable, hc'⟩ := (c.skipKeyword "ref").exists_isOptionalKeyword "mut"
      right
      use [name]
      apply Pattern.Binds.binding href hmutable
      apply readUpTo_of_append
      rw [hc, hc', he, List.append_assoc, List.append_assoc]
      rfl

/-- A pattern that is read, and that a capture may have, is simple, and so are its elements. -/
theorem isSimple_of_pattern {n : Nat} (h : (level n).pattern c = .ok (p, d))
    (hp : Capture.MayHavePart p) :
  p.IsDots ∨ p.IsSimple
  := by
  -- By induction on the level at which the pattern was read; its elements were read below.
  induction n generalizing c p d with
  | zero => cases h
  | succ n ih =>
      obtain ⟨⟨kind, parts, e⟩, hshape, ⟨⟩⟩ := bind_eq_ok.mp h
      rw [readShape] at hshape
      split at hshape
      case h_1 inside opening closing v hc =>
        obtain ⟨ps, helements, ⟨⟩⟩ := bind_eq_ok.mp hshape
        obtain ⟨_, rfl, hseparated⟩ : ∃ rest, parts = [].reverse ++ rest ∧
            Cursor.Separated (fun c p d => (level n).pattern c = .ok (p, d)) ⟨inside, closing⟩
              rest :=
          separated_of_commaSeparatedAfter helements id
        obtain ⟨names, hnames⟩ : ∃ names, Pattern.BindAll parts names := by
          apply Pattern.exists_bindAll
          intro part hpart
          obtain ⟨f, g, hread, -⟩ := hseparated.exists_of_mem
            (fun hread => ((sound_level n).pattern hread).1.crosses.isSuffix) hpart
          apply ih hread
          rcases hp.admits with hrest | ⟨_, hparts⟩
          · cases hrest
          · apply hparts part hpart
        right
        use names
        apply Pattern.Binds.tuple
        · apply readUpTo_of_append
          rw [trees_skip_one hc]
          apply hc
        · apply hseparated.commaSeparated_map
          intro c p d hread
          obtain ⟨hpasses, hrun⟩ := (sound_level n).pattern hread
          rw [hrun]
          apply hpasses.crosses.readUpTo.1
        · apply hnames
      case h_2 =>
        obtain ⟨_, _, ⟨⟩⟩ := bind_eq_ok.mp hshape
        rcases hp.admits with hrest | ⟨ha, _⟩
        · cases hrest
        · cases ha
      case h_3 =>
        apply isSimple_of_readsToken
        apply readsToken_of_readPlain hshape (hp.admits.imp_right And.left)

end PatternGrammar

/-- The patterns that a capture may have are the simple ones. -/
theorem Pattern.checkPattern_eq_ok_iff {p : Pattern} (h : Pattern.read c = .ok (p, d)) :
  Capture.checkPattern p = .ok () ↔ p.IsSimple
  := by
  constructor
  · intro hp
    apply (PatternGrammar.isSimple_of_pattern h (Or.inr hp)).resolve_left
    rintro ⟨-, -⟩
    cases hp
  · rintro ⟨names, hbinds⟩
    apply hbinds.checkPattern

/-! ### Captures -/

namespace Capture

variable {stop : Span} {run r : List TokenTree} {item : Capture}

/-- A run that is a capture from its start to its end: a pattern, a colon and a type, or a type
alone. -/
inductive Fills (stop : Span) (run : List TokenTree) : Capture → Prop
  | bound {pattern : Pattern} {type : TypeExpr} {e d : Cursor} :
      Pattern.read ⟨run, stop⟩ = .ok (pattern, e) → atColon e.trees →
      TypeExpr.read true (e.skip 1) = .ok (type, d) → d.trees = [] →
        Fills stop run (.bound pattern type)
  | unbound {type : TypeExpr} {d : Cursor} :
      TypeExpr.read true ⟨run, stop⟩ = .ok (type, d) → d.trees = [] →
        Fills stop run (.unbound type)

/-- Whether a colon stands alone is seen from the tree behind it. -/
theorem atColon_congr {colon first : TokenTree} {u v : List TokenTree} :
  atColon (colon :: first :: u) = atColon (colon :: first :: v)
  := by
  rw [atColon, atColon, atPunct_cons, atPunct_cons ':' colon (first :: v),
    atOperator_cons_cons _ _ _ _ u, atOperator_cons_cons _ _ _ _ v]

/-- The trees around the colon of a capture. -/
theorem trees_of_bound {pattern : Pattern} {type : TypeExpr} {e : Cursor}
    (hpattern : Pattern.read c = .ok (pattern, e)) (hcolon : atColon e.trees)
    (htype : TypeExpr.read true (e.skip 1) = .ok (type, d)) :
  ∃ colon, c.trees = pattern.run.trees ++ colon :: (type.run.trees ++ d.trees) ∧
    ∀ r, atColon (colon :: (type.run.trees ++ r))
  := by
  obtain ⟨hpasses, hrun⟩ := Pattern.passes_read hpattern
  have hcolon' := hcolon
  rw [atColon, Bool.and_eq_true] at hcolon'
  obtain ⟨colon, v, he, -⟩ := exists_of_atPunct hcolon'.1
  have htrees := TypeExpr.trees_of_read htype
  rw [trees_skip_one he] at htrees
  use colon
  constructor
  · rw [← htrees, ← he, hrun]
    apply hpasses.crosses.readUpTo.1
  · intro r
    obtain ⟨first, u, hfirst⟩ := List.exists_cons_of_ne_nil (TypeExpr.ne_nil_of_read htype)
    rw [he, htrees, hfirst, List.cons_append] at hcolon
    rwa [hfirst, List.cons_append, atColon_congr]

/-- A capture that ends where an item does fills its run. -/
theorem ReadsAs.fills (h : ReadsAs c item d) (hd : atItemEnd d.trees) (stop : Span) :
  ∃ run, c.trees = run ++ d.trees ∧ Fills stop run item
  := by
  cases h with
  | @bound pattern type e _ hpattern hcolon htype hcheck =>
      obtain ⟨colon, htrees, hcolon'⟩ := trees_of_bound hpattern hcolon htype
      use pattern.run.trees ++ colon :: type.run.trees, by simp [htrees]
      have hcolon'' := hcolon' []
      rw [List.append_nil] at hcolon''
      have hstands := PatternGrammar.stands_of_pattern hpattern (Or.inr hcheck)
      have hend : atPatternEnd (colon :: type.run.trees) := by
        rw [atPatternEnd, hcolon'', Bool.or_true]
      have hagain := TypeExpr.stands_of_read htype hd [] stop rfl
      rw [List.append_nil] at hagain
      apply Fills.bound (hstands.read _ stop hend) hcolon'' hagain rfl
  | @unbound type _ htype =>
      use type.run.trees, TypeExpr.trees_of_read htype
      have hagain := TypeExpr.stands_of_read htype hd [] stop rfl
      rw [List.append_nil] at hagain
      apply Fills.unbound hagain rfl

/-- A run that a capture with a simple pattern fills is read as the capture in front of every end of
an item. -/
theorem Fills.read (h : Fills stop run item) (hsimple : ∀ p ∈ item.pattern?, p.IsSimple)
    (hr : atItemEnd r) :
  run ≠ [] ∧ ∀ index, Capture.read index ⟨run ++ r, stop⟩ = .ok (item, ⟨r, stop⟩)
  := by
  cases h with
  | @bound pattern type e d hpattern hcolon htype hd =>
      obtain ⟨colon, htrees, hcolon'⟩ := trees_of_bound hpattern hcolon htype
      obtain ⟨names, hbinds⟩ := hsimple pattern rfl
      have hcheck := hbinds.checkPattern
      have hstands := PatternGrammar.stands_of_pattern hpattern (Or.inr hcheck)
      have hend : atPatternEnd (colon :: (type.run.trees ++ r)) := by
        rw [atPatternEnd, hcolon', Bool.or_true]
      rw [hd, List.append_nil] at htrees
      obtain rfl : run = _ := htrees
      have htype' := TypeExpr.stands_of_read htype (by rw [hd]; rfl) r stop hr
      have hbound : readBound ⟨pattern.run.trees ++ colon :: type.run.trees ++ r, stop⟩ =
          .ok (pattern, type, ⟨r, stop⟩) := by
        rw [List.append_assoc, List.cons_append]
        exact readBound_eq_ok.mpr ⟨_, hstands.read _ stop hend, hcolon' r, htype', hr⟩
      use by simp
      intro index
      rw [Capture.read, hbound]
      simp only [hcheck]
      rfl
  | @unbound type d htype hd =>
      have htrees := TypeExpr.trees_of_read htype
      rw [hd, List.append_nil] at htrees
      obtain rfl : run = _ := htrees
      use TypeExpr.ne_nil_of_read htype
      apply read_of_read (TypeExpr.stands_of_read htype (by rw [hd]; rfl) r stop hr) hr

/-! ### Capture lists -/

variable {trees : List TokenTree} {runs : List (List TokenTree)} {items : List Capture}

/-- Captures that are read one after the other fill runs with commas between them. -/
theorem exists_fills (h : c.Separated ReadsAs items) (stop : Span) :
  ∃ runs, CommaSeparated c.trees runs ∧ List.Forall₂ (Fills stop) runs items
  := by
  induction h with
  | nil hc =>
      use [], hc ▸ CommaSeparated.nil
      apply List.Forall₂.nil
  | last hread hd =>
      obtain ⟨run, hc, hfills⟩ := hread.fills (by rw [hd]; rfl) stop
      rw [hd, List.append_nil] at hc
      use [run], hc ▸ CommaSeparated.last run
      apply List.Forall₂.cons hfills .nil
  | cons hread hcomma _ ih =>
      obtain ⟨run, hc, hfills⟩ := hread.fills (by rw [atItemEnd, hcomma, Bool.or_true]) stop
      obtain ⟨comma, rest, hd, hcomma'⟩ := exists_of_atPunct hcomma
      obtain ⟨runs, hruns, hitems⟩ := ih
      rw [trees_skip_one hd] at hruns
      rw [hd] at hc
      use run :: runs, hc ▸ CommaSeparated.cons hcomma' hruns
      apply List.Forall₂.cons hfills hitems

/-- Captures with simple patterns that fill runs with commas between them are read one after the
other. -/
theorem separated_of_fills (h : CommaSeparated trees runs)
    (hitems : List.Forall₂ (Fills stop) runs items)
    (hsimple : ∀ item ∈ items, ∀ p ∈ item.pattern?, p.IsSimple) :
  Cursor.Separated
    (fun c item d =>
      (∀ index, Capture.read index c = .ok (item, d)) ∧ d.trees.length < c.trees.length)
    ⟨trees, stop⟩ items
  := by
  have hreads {run r : List TokenTree} {item : Capture} (hfills : Fills stop run item)
      (hsimple : ∀ p ∈ item.pattern?, p.IsSimple) (hr : atItemEnd r) :
      (∀ index, Capture.read index ⟨run ++ r, stop⟩ = .ok (item, ⟨r, stop⟩)) ∧
        r.length < (run ++ r).length := by
    obtain ⟨hne, hread⟩ := hfills.read hsimple hr
    use hread
    rw [List.length_append]
    have hpos := List.length_pos_of_ne_nil hne
    omega
  induction h generalizing items with
  | nil =>
      cases hitems
      apply Separated.nil rfl
  | last run =>
      obtain _ | ⟨hfills, ⟨⟩⟩ := hitems
      rw [List.forall_mem_singleton] at hsimple
      have hread := hreads hfills hsimple (r := []) rfl
      rw [List.append_nil] at hread
      apply Separated.last hread rfl
  | @cons run rest comma runs hcomma _ ih =>
      obtain _ | ⟨hfills, hrest⟩ := hitems
      rw [List.forall_mem_cons] at hsimple
      have hcomma' : atPunct ',' (comma :: rest) := by rwa [atPunct_cons]
      have hend : atItemEnd (comma :: rest) := by rw [atItemEnd, hcomma', Bool.or_true]
      apply Separated.cons (hreads hfills hsimple.1 hend) hcomma'
      apply ih hrest hsimple.2

/-- Names are distinct if none of them has been seen before, neither in the list nor in front of
it. -/
theorem checkDistinct_eq_ok {seen : List String} {names : List (String × Span)} :
  checkDistinct seen names = .ok () ↔
    (∀ b ∈ names, b.1 ∉ seen) ∧ (names.map Prod.fst).Nodup
  := by
  induction names generalizing seen with
  | nil => simp [checkDistinct]
  | cons b names ih =>
      obtain ⟨name, span⟩ := b
      rw [checkDistinct]
      by_cases hseen : name ∈ seen
      · simp [hseen]
      · rw [if_neg (by simpa using hseen), ih]
        have hfresh : (∀ b ∈ names, b.1 ∉ name :: seen) ↔
            name ∉ names.map Prod.fst ∧ ∀ b ∈ names, b.1 ∉ seen := by
          simp only [List.mem_map, List.mem_cons]
          grind
        rw [List.forall_mem_cons, List.map_cons, List.nodup_cons, hfresh]
        tauto

/-- Captures whose patterns, where they have one, are simple, and the names that they bind, from
left to right. -/
inductive Bind : List Capture → List String → Prop
  | nil : Bind [] []
  | bound {pattern : Pattern} {type : TypeExpr} {items : List Capture}
      {names names' : List String} :
      pattern.Binds names → Bind items names' →
        Bind (.bound pattern type :: items) (names ++ names')
  | unbound {type : TypeExpr} {items : List Capture} {names : List String} :
      Bind items names → Bind (.unbound type :: items) names

theorem exists_bind_iff :
  (∃ names, Bind items names) ↔ ∀ item ∈ items, ∀ p ∈ item.pattern?, p.IsSimple
  := by
  constructor
  · rintro ⟨names, h⟩
    induction h with
    | nil => simp
    | bound hpattern _ ih =>
        rw [List.forall_mem_cons]
        constructor
        · rintro _ ⟨⟩
          exact ⟨_, hpattern⟩
        · apply ih
    | unbound _ ih =>
        rw [List.forall_mem_cons]
        constructor
        · rintro _ ⟨⟩
        · apply ih
  · intro h
    induction items with
    | nil => use [], Bind.nil
    | cons item items ih =>
        rw [List.forall_mem_cons] at h
        obtain ⟨names', hitems⟩ := ih h.2
        cases item with
        | bound pattern type =>
            obtain ⟨names, hpattern⟩ := h.1 pattern rfl
            use names ++ names', Bind.bound hpattern hitems
        | unbound type => use names', Bind.unbound hitems

/-- The names that captures bind are those of their bindings. -/
theorem Bind.bindings_eq {names : List String} (h : Bind items names) :
  (bindings items).map Prod.fst = names
  := by
  induction h with
  | nil => rfl
  | bound hpattern _ ih =>
      rw [← ih, ← hpattern.bindings_eq, ← List.map_append]
      rfl
  | unbound _ ih =>
      rw [← ih]
      rfl

/-- The captures of a list are those that fill its runs. A group is read as a capture list if and
only if it is made of runs with commas between them, each of which a capture fills, if the patterns
of the captures are simple, and if no name is bound twice. -/
theorem readList_eq_ok_iff (g : Group) (items : List Capture) :
  readList g = .ok items ↔
    (∃ runs, CommaSeparated g.trees runs ∧ List.Forall₂ (Fills g.closing) runs items) ∧
    ∃ names, Bind items names ∧ names.Nodup
  := by
  constructor
  · intro h
    have hseparated := separated_of_readList h
    obtain ⟨captures, _, h⟩ := bind_eq_ok.mp h
    obtain ⟨_, hdistinct, ⟨⟩⟩ := bind_eq_ok.mp h
    have hsimple : ∀ item ∈ items, ∀ p ∈ item.pattern?, p.IsSimple := by
      intro item hitem p hp
      obtain ⟨e, f, hread, -⟩ := hseparated.exists_of_mem ReadsAs.isSuffix hitem
      cases hread with
      | unbound _ => cases hp
      | bound hpattern _ _ hcheck =>
          cases hp
          apply (Pattern.checkPattern_eq_ok_iff hpattern).mp hcheck
    obtain ⟨names, hnames⟩ := exists_bind_iff.mpr hsimple
    use exists_fills hseparated g.closing, names, hnames
    rw [← hnames.bindings_eq]
    apply (checkDistinct_eq_ok.mp hdistinct).2
  · rintro ⟨⟨runs, hruns, hitems⟩, names, hnames, hnodup⟩
    have hsimple := exists_bind_iff.mp ⟨names, hnames⟩
    rw [← hnames.bindings_eq] at hnodup
    have hcaptures : (Cursor.into g).commaSeparated
        (fun done : List Capture => Capture.read done.length) = .ok items := by
      apply (separated_of_fills hruns hitems hsimple).commaSeparated
      intro c item d done hread
      use hread.1 done.length, hread.2
    apply bind_eq_ok.mpr
    use items, hcaptures
    rw [checkDistinct_eq_ok.mpr ⟨by simp, hnodup⟩]
    rfl

/-- A name may stand in a nested tuple, unless another capture binds it too. -/
theorem readList_eq_ok_iff_nested :
  ∃ (g g' : Group) (items : List Capture),
    flatAll g.trees =
      ["(", "a", ",", "(", "ref", "b", ",", "_", ")", ")", ":", "T", ",", "c", ":", "U"] ∧
    readList g = .ok items ∧ Bind items ["a", "b", "c"] ∧
    flatAll g'.trees =
      ["(", "a", ",", "(", "ref", "b", ",", "_", ")", ")", ":", "T", ",", "b", ":", "U"] ∧
    ∀ items', readList g' ≠ .ok items'
  := by
  obtain ⟨trees, _, htrees⟩ := Outcome.exists_of_any
    (x := TokenTree.ofText "f.rs" "(a, (ref b, _)): T, c: U".toList)
    (p := fun trees =>
      flatAll trees =
        ["(", "a", ",", "(", "ref", "b", ",", "_", ")", ")", ":", "T", ",", "c", ":", "U"] &&
      (readList ⟨.paren, trees, .fileStart "f.rs", .fileStart "f.rs"⟩).toOption.any fun items =>
        (bindings items).map Prod.fst == ["a", "b", "c"])
    (by decide +kernel)
  obtain ⟨trees', _, htrees'⟩ := Outcome.exists_of_any
    (x := TokenTree.ofText "f.rs" "(a, (ref b, _)): T, b: U".toList)
    (p := fun trees =>
      flatAll trees =
        ["(", "a", ",", "(", "ref", "b", ",", "_", ")", ")", ":", "T", ",", "b", ":", "U"] &&
      (readList ⟨.paren, trees, .fileStart "f.rs", .fileStart "f.rs"⟩).toOption.isNone)
    (by decide +kernel)
  rw [Bool.and_eq_true, decide_eq_true_eq] at htrees htrees'
  obtain ⟨items, hread, hnames⟩ := Outcome.exists_of_any htrees.2
  obtain ⟨_, names, hbind, _⟩ := (readList_eq_ok_iff _ items).mp hread
  rw [hbind.bindings_eq, beq_iff_eq] at hnames
  use ⟨.paren, trees, .fileStart "f.rs", .fileStart "f.rs"⟩,
    ⟨.paren, trees', .fileStart "f.rs", .fileStart "f.rs"⟩, items, htrees.1, hread,
    hnames ▸ hbind, htrees'.1
  intro items' hread'
  rw [hread'] at htrees'
  cases htrees'.2

end Capture

end ReturnCaptures
