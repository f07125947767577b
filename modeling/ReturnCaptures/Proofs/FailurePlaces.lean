import ReturnCaptures.Proofs.RecordedParts
import ReturnCaptures.Proofs.TreeTokens

/-!
# Where productions fail

A production fails at the tree that it cannot read, at the end of the trees that are left to it, or
at a run of trees that it has read. All of these places are spans from one token to the same or a
later one among the trees that a cursor stands before, at any depth, or the span that stands for
their end. So a property that these spans have is one of every place at which reading from the
cursor fails.
-/

namespace ReturnCaptures

open TokenTree Outcome

variable {P : Span → Prop}

/-! ### Places in reach of a cursor -/

/-- Every span from one of the tokens to the same or a later one has a property. -/
structure Token.SpansHave (P : Span → Prop) (tokens : List Token) : Prop where
  alone : ∀ t ∈ tokens, P t.span
  through : tokens.Pairwise fun s t => P (s.span.through t.span)

/-- A cursor all of whose places have a property: its end, and the spans of its tokens at any
depth. -/
structure Cursor.Within (P : Span → Prop) (c : Cursor) : Prop where
  stop : P c.stop
  tokens : Token.SpansHave P (tokensAll c.trees)

section Places

variable {c d : Cursor} {tokens tokens' : List Token} {trees : List TokenTree} {g : Group}

theorem Token.SpansHave.sublist (h : SpansHave P tokens) (hs : tokens'.Sublist tokens) :
  SpansHave P tokens'
  := ⟨fun t ht => h.alone t (hs.subset ht), h.through.sublist hs⟩

theorem Token.SpansHave.and {Q : Span → Prop} (h : SpansHave P tokens) (k : SpansHave Q tokens) :
  SpansHave (fun s => P s ∧ Q s) tokens
  := ⟨fun t ht => ⟨h.alone t ht, k.alone t ht⟩, h.through.and k.through⟩

/-- The span from the first token to the last one has the property. -/
theorem Token.SpansHave.ends {first last : Token} (h : SpansHave P tokens)
    (hfirst : tokens.head? = some first) (hlast : tokens.getLast? = some last) :
  P (first.span.through last.span)
  := by
  obtain ⟨rest, rfl⟩ := List.head?_eq_some_iff.mp hfirst
  rcases List.mem_cons.mp (List.mem_of_getLast? hlast) with rfl | hmem
  · exact h.alone last (List.mem_cons_self ..)
  · exact (List.pairwise_cons.mp h.through).1 last hmem

/-- The span of a tree reaches from its first token to its last one. -/
theorem TokenTree.exists_ends (tree : TokenTree) :
  ∃ first last, tree.tokens.head? = some first ∧ tree.tokens.getLast? = some last ∧
    tree.span = first.span.through last.span
  := by
  cases tree with
  | token t => exact ⟨t, t, rfl, rfl, rfl⟩
  | group d trees opening closing =>
      refine ⟨_, ⟨.punct d.closing false, closing⟩, rfl, ?_, rfl⟩
      rw [TokenTree.tokens, ← List.cons_append, List.getLast?_concat]

theorem TokenTree.span_of_spansHave {first last : TokenTree}
    (h : Token.SpansHave P (tokensAll trees)) (hfirst : trees.head? = some first)
    (hlast : trees.getLast? = some last) :
  P (first.span.through last.span)
  := by
  obtain ⟨a, _, ha, _, hspan⟩ := first.exists_ends
  obtain ⟨_, b, _, hb, hspan'⟩ := last.exists_ends
  rw [hspan, hspan']
  apply h.ends (?_ : _ = some a) (?_ : _ = some b)
  · obtain ⟨rest, rfl⟩ := List.head?_eq_some_iff.mp hfirst
    rw [tokensAll, List.head?_append, ha, Option.some_or]
  · obtain ⟨init, rfl⟩ := List.getLast?_eq_some_iff.mp hlast
    rw [tokensAll_append, tokensAll_singleton, List.getLast?_append, hb, Option.some_or]

theorem TokenTree.tokensAll_isSuffix {u : List TokenTree} (h : u <:+ trees) :
  tokensAll u <:+ tokensAll trees
  := by
  obtain ⟨v, rfl⟩ := h
  rw [tokensAll_append]
  exact List.suffix_append ..

/-- A group stands among trees with its delimiters and with all that is between them. -/
theorem Group.tokens_isInfix (hg : g.tree ∈ trees) :
  ⟨.punct g.delimiter.opening false, g.opening⟩ :: (tokensAll g.trees ++
    [⟨.punct g.delimiter.closing false, g.closing⟩]) <:+: tokensAll trees
  := by
  obtain ⟨u, v, rfl⟩ := List.append_of_mem hg
  rw [tokensAll_append, tokensAll]
  exact ⟨tokensAll u, tokensAll v, List.append_assoc ..⟩

namespace Cursor.Within

theorem and {Q : Span → Prop} (h : c.Within P) (k : c.Within Q) :
  c.Within fun s => P s ∧ Q s
  := ⟨⟨h.stop, k.stop⟩, h.tokens.and k.tokens⟩

theorem of_isSuffix (h : c.Within P) (hstop : d.stop = c.stop) (hd : d.trees <:+ c.trees) :
  d.Within P
  := ⟨by rw [hstop]; exact h.stop, h.tokens.sublist (tokensAll_isSuffix hd).sublist⟩

theorem skip (h : c.Within P) (n : Nat) :
  (c.skip n).Within P
  := h.of_isSuffix rfl (List.drop_suffix ..)

theorem skipKeyword (h : c.Within P) (word : String) :
  (c.skipKeyword word).Within P
  := by
  rw [Cursor.skipKeyword]
  split
  · exact h.skip 1
  · exact h

/-- A cursor into a group has no other places than the cursor before the group. -/
theorem into (h : c.Within P) (hg : g.tree ∈ c.trees) :
  (Cursor.into g).Within P
  := by
  have hgroup := h.tokens.sublist (Group.tokens_isInfix hg).sublist
  constructor
  · exact hgroup.alone ⟨.punct g.delimiter.closing false, g.closing⟩ (by simp)
  · exact hgroup.sublist ((List.sublist_append_left ..).trans (List.sublist_cons_self ..))

theorem ite {p : Prop} [Decidable p] (hc : c.Within P) (hd : d.Within P) :
  Within P (if p then c else d)
  := by
  split_ifs
  · exact hc
  · exact hd

theorem inside {d : Delimiter} {inner rest : List TokenTree} {opening closing : Span}
    (h : c.Within P) (hc : c.trees = .group d inner opening closing :: rest) :
  (Cursor.mk inner closing).Within P
  := by
  apply h.into (g := ⟨d, inner, opening, closing⟩)
  rw [hc]
  exact List.mem_cons_self ..

theorem span (h : c.Within P) :
  P c.span
  := by
  rw [Cursor.span]
  split
  case h_1 tree rest hc =>
    have htree := tree.exists_ends
    obtain ⟨first, last, hfirst, hlast, hspan⟩ := htree
    rw [hspan]
    apply (h.tokens.sublist _).ends hfirst hlast
    rw [hc, tokensAll]
    exact List.sublist_append_left ..
  case h_2 => exact h.stop

/-- The span of whatever is read between two cursors is a place of the first one. -/
theorem run (h : c.Within P) (d : Cursor) :
  P (c.runUpTo d).span
  := by
  have hself : P (c.span.through c.span) := h.span
  rw [runUpTo, readUpTo]
  generalize c.trees.length - d.trees.length = n
  cases hc : c.trees with
  | nil =>
      simpa only [List.take_nil, List.getLast?_nil, Option.map_none, Option.getD_none] using hself
  | cons first rest =>
      cases n with
      | zero => exact hself
      | succ n =>
          obtain ⟨last, hlast⟩ : ∃ last, (first :: rest.take n).getLast? = some last :=
            ⟨_, List.getLast?_eq_some_getLast (List.cons_ne_nil _ _)⟩
          have hfirst : c.span = first.span := by rw [Cursor.span, hc]
          rw [List.take_succ_cons, hlast, hfirst]
          apply span_of_spansHave (h.tokens.sublist _) rfl hlast
          rw [hc, ← List.take_succ_cons]
          nth_rewrite 2 [← List.take_append_drop (n + 1) (first :: rest)]
          rw [tokensAll_append]
          exact List.sublist_append_left ..

end Cursor.Within

end Places

/-! ### Outcomes -/

/-- An outcome that has one property where it is a success, and fails at a place with another
one. -/
def Outcome.Ensures {α : Type} (P : Span → Prop) (Q : α → Prop) : Outcome α → Prop
  | .ok a => Q a
  | .error failure => P failure.span

namespace Outcome

variable {α β : Type} {Q : α → Prop} {R : β → Prop}

theorem Ensures.ok {a : α} (ha : Q a) :
  Ensures P Q (.ok a)
  := ha

theorem Ensures.of_error {x : Outcome α} {failure : Failure} (h : x.Ensures P Q)
    (hx : x = .error failure) :
  P failure.span
  := by
  rw [hx] at h
  exact h

theorem Ensures.imp {Q' : α → Prop} {x : Outcome α} (h : x.Ensures P Q) (hQ : ∀ a, Q a → Q' a) :
  x.Ensures P Q'
  := by
  cases x with
  | ok a => exact hQ a h
  | error failure => exact h

theorem Ensures.bind {x : Outcome α} {f : α → Outcome β} (hx : x.Ensures P Q)
    (hf : ∀ a, Q a → (f a).Ensures P R) :
  Ensures P R (x >>= f)
  := by
  cases x with
  | ok a => exact hf a hx
  | error failure => exact hx

theorem Ensures.map {x : Outcome α} {f : α → β} (hx : x.Ensures P Q) (hf : ∀ a, Q a → R (f a)) :
  Ensures P R (Except.map f x)
  := by
  cases x with
  | ok a => exact hf a hx
  | error failure => exact hx

theorem Ensures.ite {p : Prop} [Decidable p] {x y : Outcome α} (hx : p → x.Ensures P Q)
    (hy : ¬ p → y.Ensures P Q) :
  Ensures P Q (if p then x else y)
  := by
  split
  case isTrue hp => exact hx hp
  case isFalse hp => exact hy hp

/-- A step that depends on a condition, followed by another. -/
theorem Ensures.ite_bind {p : Prop} [Decidable p] {x y : Outcome α} {f : α → Outcome β}
    (hx : x.Ensures P Q) (hy : y.Ensures P Q) (hf : ∀ a, Q a → (f a).Ensures P R) :
  Ensures P R (if p then x >>= f else y >>= f)
  := Ensures.ite (fun _ => hx.bind hf) (fun _ => hy.bind hf)

end Outcome

/-- An outcome that leads to a cursor without new places, or fails at a place with the property. -/
abbrev Outcome.StaysWithin (P : Span → Prop) (x : Outcome Cursor) : Prop :=
  x.Ensures P (Cursor.Within P)

/-- An outcome that leads to something and a cursor without new places, or fails at a place with the
property. -/
abbrev Outcome.ReadsWithin {α : Type} (P : Span → Prop) (x : Outcome (α × Cursor)) : Prop :=
  x.Ensures P fun found => found.2.Within P

/-! ### Steps -/

namespace Cursor.Within

variable {α : Type} {Q : α → Prop} {c : Cursor}

theorem failWith (h : c.Within P) (problem : Problem) :
  Ensures P Q (c.failWith problem)
  := h.span

theorem fail (h : c.Within P) (what : String) :
  Ensures P Q (c.fail what)
  := h.failWith _

theorem expectToken (h : c.Within P) (what : String) (p : Lexeme → Bool) :
  ReadsWithin P (c.expectToken what p)
  := by
  rw [Cursor.expectToken]
  split
  · exact .ite (fun _ => h.skip 1) fun _ => h.fail what
  · exact h.fail what

theorem expectIdent (h : c.Within P) (role : String) :
  ReadsWithin P (c.expectIdent role)
  := h.expectToken role _

theorem expectGroup (h : c.Within P) (delimiter : Delimiter) :
  Ensures P (fun found => (Cursor.into found.1).Within P ∧ found.2.Within P)
    (c.expectGroup delimiter)
  := by
  rw [Cursor.expectGroup]
  split
  case h_1 g hg =>
    apply Ensures.ite _ fun _ => h.fail _
    intro _
    obtain ⟨tree, htree, hgroup⟩ := Option.bind_eq_some_iff.mp hg
    obtain ⟨rest, hc⟩ := List.head?_eq_some_iff.mp htree
    cases tree with
    | token t => cases hgroup
    | group d inner opening closing =>
        cases hgroup
        exact ⟨h.inside hc, h.skip 1⟩
  case h_2 => exact h.fail _

theorem expect (h : c.Within P) (what : String) (seen : Bool) :
  StaysWithin P (c.expect what seen)
  := .ite (fun _ => h.skip 1) fun _ => h.fail what

theorem expectPunct (h : c.Within P) (symbol : Char) :
  StaysWithin P (c.expectPunct symbol)
  := h.expect _ _

theorem expectColon (h : c.Within P) :
  StaysWithin P c.expectColon
  := h.expect _ _

theorem expectKeyword (h : c.Within P) (word : String) :
  StaysWithin P (c.expectKeyword word)
  := h.expect _ _

theorem expectLifetime (h : c.Within P) :
  StaysWithin P c.expectLifetime
  := h.expect _ _

/-- Items separated by commas stay within the cursor if each of them does, in view of those before
it. -/
theorem commaSeparated {item : List α → Cursor → Outcome (α × Cursor)} (h : c.Within P)
    (hitem : ∀ done d, (∀ a ∈ done, Q a) → d.Within P →
      Ensures P (fun found => Q found.1 ∧ found.2.Within P) (item done d)) :
  Ensures P (fun items => ∀ a ∈ items, Q a) (c.commaSeparated item)
  := by
  have hafter (bound : Nat) (done : List α) (d : Cursor) (hdone : ∀ a ∈ done, Q a)
      (hd : d.Within P) :
      Ensures P (fun items => ∀ a ∈ items, Q a) (d.commaSeparatedAfter item bound done) := by
    induction bound generalizing done d with
    | zero => exact hd.failWith _
    | succ bound ih =>
        rw [commaSeparatedAfter]
        apply Ensures.ite
        · rintro _ a ha
          exact hdone a (List.mem_reverse.mp ha)
        · intro _
          apply (hitem done d hdone hd).bind
          rintro ⟨a, e⟩ ⟨ha, he⟩
          have hmore : ∀ b ∈ a :: done, Q b := List.forall_mem_cons.mpr ⟨ha, hdone⟩
          apply Ensures.ite
          · rintro _ b hb
            exact hmore b (List.mem_reverse.mp hb)
          · intro _
            apply (he.expectPunct ',').bind
            intro f hf
            exact ih _ f hmore hf
  exact hafter _ [] c (by simp) h

end Cursor.Within

open Cursor

/-! ### Types -/

section Lifetimes

variable {c : Cursor}

theorem Cursor.Within.lifetimeBounds (h : c.Within P) :
  (lifetimeBounds c).Within P
  := h.of_isSuffix rfl (crosses_lifetimeBounds c : c.Crosses true true _).isSuffix

theorem Cursor.Within.forBinder (h : c.Within P) :
  StaysWithin P (forBinder c)
  := by
  apply (h.expectKeyword "for").bind
  intro d hd
  apply (hd.expectPunct '<').bind
  intro e he
  have hcrosses : e.Crosses true true { e with trees := afterLifetimesWithComma e.trees } :=
    crosses_afterLifetimesWithComma e.trees e.stop
  have hlifetimes : Within P { e with trees := afterLifetimesWithComma e.trees } :=
    he.of_isSuffix rfl hcrosses.isSuffix
  exact .ite_bind hlifetimes hlifetimes.expectLifetime fun _ hd => hd.expectPunct '>'

theorem Cursor.Within.constArgument (h : c.Within P) :
  StaysWithin P (constArgument c)
  := by
  rw [ReturnCaptures.constArgument]
  split_ifs
  · exact (h.skip 1).expect _ _
  · exact h.expect _ _

end Lifetimes

namespace TypeGrammar

/-- A grammar whose productions stay within the cursor they start at. -/
structure StaysWithin (P : Span → Prop) (G : TypeGrammar) : Prop where
  type : ∀ {c}, c.Within P → ∀ allowPlus, ReadsWithin P (G.type allowPlus c)
  segments : ∀ {c}, c.Within P → Outcome.StaysWithin P (G.segments c)
  arguments : ∀ {c}, c.Within P → Outcome.StaysWithin P (G.arguments c)
  bound : ∀ {c}, c.Within P → Outcome.StaysWithin P (G.bound c)
  bounds : ∀ {c}, c.Within P → Outcome.StaysWithin P (G.bounds c)

variable {G : TypeGrammar} {c : Cursor}

namespace StaysWithin

variable (hG : G.StaysWithin P) (h : c.Within P)
include hG h

theorem afterType (allowPlus : Bool) :
  Outcome.StaysWithin P ((G.type allowPlus c).map (·.2))
  := (hG.type h allowPlus).map fun _ hd => hd

theorem argument :
  Outcome.StaysWithin P (G.argument c)
  := by
  rw [TypeGrammar.argument]
  split_ifs
  · exact h.skip 1
  · exact hG.afterType (h.skip 2) true
  · exact hG.bounds (h.skip 2)
  · exact h.constArgument
  · exact hG.afterType h true

theorem readArguments :
  Outcome.StaysWithin P (G.readArguments c)
  := by
  rw [TypeGrammar.readArguments]
  refine .ite (fun _ => .ok (h.skip 1)) fun _ => ?_
  apply (hG.argument h).bind
  intro d hd
  exact .ite (fun _ => hG.arguments (hd.skip 1)) fun _ => hd.expect _ _

theorem angleArguments :
  Outcome.StaysWithin P (G.angleArguments c)
  := (h.expectPunct '<').bind fun _ => hG.arguments

theorem parenthesized :
  Ensures P (fun _ => True) (G.parenthesized c)
  := by
  rw [TypeGrammar.parenthesized]
  refine .ite (fun _ => .ok trivial) fun _ => ?_
  apply (hG.type h true).bind
  rintro ⟨_, d⟩ hd
  refine .ite (fun _ => .ok trivial) fun _ => ?_
  apply (hd.expectPunct ',').bind
  intro e he
  have htypes : Ensures P (fun kinds => ∀ kind ∈ kinds, True)
      (e.commaSeparated fun _ => G.type true) :=
    he.commaSeparated fun _ _ _ he => (hG.type he true).imp fun _ hd => ⟨trivial, hd⟩
  exact htypes.bind fun _ _ => trivial

theorem resultType :
  Outcome.StaysWithin P (G.resultType c)
  := .ite (fun _ => hG.afterType (h.skip 2) false) fun _ => h

theorem segmentArguments :
  Outcome.StaysWithin P (G.segmentArguments c)
  := by
  rw [TypeGrammar.segmentArguments]
  split_ifs
  · exact hG.angleArguments (h.skip 2)
  · exact hG.angleArguments h
  · split
    case h_1 hc => exact (hG.parenthesized (h.inside hc)).bind fun _ _ => hG.resultType (h.skip 1)
    case h_2 => exact h

theorem path :
  Outcome.StaysWithin P (G.path c)
  := by
  rw [TypeGrammar.path, skipSeparator]
  split_ifs
  · exact hG.segments (h.skip 2)
  · exact hG.segments h

theorem readSegments :
  Outcome.StaysWithin P (G.readSegments c)
  := by
  apply (h.expect _ _).bind
  intro d hd
  apply (hG.segmentArguments hd).bind
  intro e he
  exact .ite (fun _ => hG.segments (he.skip 2)) fun _ => he

theorem readBounds :
  Outcome.StaysWithin P (G.readBounds c)
  := by
  apply (hG.bound h).bind
  intro d hd
  refine .ite (fun _ => ?_) fun _ => .ok hd
  exact .ite (fun _ => hG.bounds (hd.skip 1)) fun _ => .ok (hd.skip 1)

omit hG in
theorem boundMarks :
  Outcome.StaysWithin P (boundMarks c)
  := by
  have hfor {d : Cursor} (hd : d.Within P) :
      Outcome.StaysWithin P (if atKeyword "for" d.trees then forBinder d else pure d) :=
    .ite (fun _ => hd.forBinder) fun _ => hd
  have hrest (d : Cursor) (hd : d.Within P) : Outcome.StaysWithin P
      (let e := if atPunct '?' d.trees then d.skip 1 else d
      if atKeyword "for" e.trees then forBinder e else pure e) := by
    dsimp only
    by_cases hmark : atPunct '?' d.trees
    · rw [if_pos hmark]
      exact hfor (hd.skip 1)
    · rw [if_neg hmark]
      exact hfor hd
  rw [TypeGrammar.boundMarks]
  apply Ensures.ite_bind ((h.skip 1).expectKeyword "const") _ hrest
  split_ifs
  · exact h.skip 1
  · exact h

theorem readBound :
  Outcome.StaysWithin P (G.readBound c)
  := by
  rw [TypeGrammar.readBound]
  refine .ite (fun _ => .ok (h.skip 1)) fun _ => ?_
  split
  case h_1 hc =>
    apply (hG.bound (h.inside hc)).bind
    intro d hd
    exact .ite (fun _ => h.skip 1) fun _ => hd.fail _
  case h_2 =>
    apply Ensures.ite (fun _ => hG.angleArguments (h.skip 1))
    exact fun _ => (boundMarks h).bind fun _ => hG.path

theorem qualifiedPath :
  Outcome.StaysWithin P (G.qualifiedPath c)
  := by
  apply (h.expectPunct '<').bind
  intro d hd
  apply (hG.type hd true).bind
  rintro ⟨_, e⟩ he
  refine .ite_bind (hG.path (he.skip 1)) (.ok he) fun f hf => ?_
  apply (hf.expectPunct '>').bind
  intro g hg
  exact .ite (fun _ => hG.path (hg.skip 2)) fun _ => hg.fail _

theorem bareFn :
  Outcome.StaysWithin P (G.bareFn c)
  := by
  have hfn (d : Cursor) (hd : d.Within P) : Outcome.StaysWithin P (do
      let e ← d.expectKeyword "fn"
      let parameters ← e.expectGroup .paren
      G.resultType parameters.2) := by
    apply (hd.expectKeyword "fn").bind
    intro e he
    apply (he.expectGroup .paren).bind
    rintro ⟨_, f⟩ ⟨-, hf⟩
    exact hG.resultType hf
  have hafter := h.skipKeyword "unsafe"
  exact hfn _ (.ite (.ite ((hafter.skip 1).skip 1) (hafter.skip 1)) hafter)

theorem addedBounds (allowPlus : Bool) (kind : TypeKind) :
  ReadsWithin P (G.addedBounds allowPlus kind c)
  := by
  refine .ite (fun _ => ?_) fun _ => .ok h
  exact (hG.bounds (h.skip 1)).bind fun _ hd => .ok hd

theorem bracketed :
  Ensures P (fun _ => True) (G.bracketed c)
  := by
  apply (hG.type h true).bind
  rintro ⟨_, d⟩ hd
  refine .ite (fun _ => .ok trivial) fun _ => ?_
  apply (hd.expectPunct ';').bind
  intro e he
  exact .ite (fun _ => he.failWith _) fun _ => trivial

theorem readPlainType (allowPlus : Bool) :
  ReadsWithin P (G.readPlainType allowPlus c)
  := by
  rw [TypeGrammar.readPlainType]
  refine .ite (fun _ => .ok (h.skip 1)) fun _ => ?_
  refine .ite (fun _ => .ok (h.skip 1)) fun _ => ?_
  apply Ensures.ite
  · intro _
    have hlifetime :
        Within P (if atLifetime (c.skip 1).trees then (c.skip 1).skip 1 else c.skip 1) :=
      .ite ((h.skip 1).skip 1) (h.skip 1)
    exact (hG.type (hlifetime.skipKeyword "mut") false).bind fun _ he => .ok he
  intro _
  apply Ensures.ite
  · intro _
    apply ((h.skip 1).expect _ _).bind
    intro d hd
    exact (hG.type hd false).bind fun _ he => .ok he
  intro _
  apply Ensures.ite
  · exact fun _ => (hG.bounds (h.skip 1)).bind fun _ hd => .ok hd
  intro _
  apply Ensures.ite
  · exact fun _ => (hG.bounds (h.skip 1)).bind fun _ hd => .ok hd
  intro _
  apply Ensures.ite
  · intro _
    apply h.forBinder.bind
    intro d hd
    apply Ensures.ite
    · exact fun _ => (hG.bareFn hd).bind fun _ he => .ok he
    · exact fun _ => (hG.bounds hd).bind fun _ he => .ok he
  intro _
  apply Ensures.ite
  · exact fun _ => (hG.bareFn h).bind fun _ hd => .ok hd
  intro _
  apply Ensures.ite
  · exact fun _ => (hG.qualifiedPath h).bind fun _ hd => .ok hd
  intro _
  apply Ensures.ite _ fun _ => h.fail _
  intro _
  apply (hG.path h).bind
  intro d hd
  refine .ite (fun _ => .ok (hd.skip 2)) fun _ => ?_
  exact hG.addedBounds hd allowPlus .path

theorem readType (allowPlus : Bool) :
  ReadsWithin P (G.readType allowPlus c)
  := by
  rw [TypeGrammar.readType]
  split
  case h_1 hc =>
    apply (hG.parenthesized (h.inside hc)).bind
    exact fun kind _ => hG.addedBounds (h.skip 1) _ kind
  case h_2 hc => exact (hG.bracketed (h.inside hc)).bind fun _ _ => h.skip 1
  case h_3 => exact hG.readPlainType h allowPlus

end StaysWithin

theorem staysWithin_level (n : Nat) :
  (level n).StaysWithin P
  := by
  induction n with
  | zero =>
      exact ⟨fun h _ => h.failWith _, fun h => h.failWith _, fun h => h.failWith _,
        fun h => h.failWith _, fun h => h.failWith _⟩
  | succ n ih =>
      exact ⟨fun h allowPlus => ih.readType h allowPlus, fun h => ih.readSegments h,
        fun h => ih.readArguments h, fun h => ih.readBound h, fun h => ih.readBounds h⟩

end TypeGrammar

/-- A type stays within the cursor it starts at, and its span is a place of it. -/
theorem Cursor.Within.readType {c : Cursor} (h : c.Within P) (allowPlus : Bool) :
  Ensures P (fun found => P found.1.run.span ∧ found.2.Within P) (TypeExpr.read allowPlus c)
  := by
  apply ((TypeGrammar.staysWithin_level _).type h allowPlus).bind
  rintro ⟨kind, d⟩ hd
  exact ⟨h.run d, hd⟩

/-! ### Patterns -/

/-- The spans of a pattern and of all patterns inside it have a property. -/
abbrev Pattern.SpansHave (P : Span → Prop) (p : Pattern) : Prop := ∀ run ∈ p.runs, P run.span

theorem Pattern.spansHave_mk {kind : PatternKind} {run : Run} {parts : List Pattern}
    (hrun : P run.span) (hparts : ∀ p ∈ parts, p.SpansHave P) :
  (Pattern.mk kind run parts).SpansHave P
  := by
  intro r hr
  rw [Pattern.runs] at hr
  rcases List.mem_cons.mp hr with rfl | hr
  · exact hrun
  · obtain ⟨p, hp, hr⟩ := Pattern.mem_runsAll.mp hr
    exact hparts p hp r hr

mutual

/-- A name is bound where one of the patterns inside stands. -/
theorem Pattern.exists_run_of_mem_bindings {binding : String × Span} (p : Pattern)
    (h : binding ∈ p.bindings) :
  ∃ run ∈ p.runs, run.span = binding.2
  := by
  obtain ⟨kind, run, parts⟩ := p
  have hparts (h : binding ∈ bindingsAll parts) :
      ∃ r ∈ (Pattern.mk kind run parts).runs, r.span = binding.2 := by
    obtain ⟨r, hr, hspan⟩ := exists_run_of_mem_bindingsAll parts h
    exact ⟨r, List.mem_cons_of_mem _ hr, hspan⟩
  cases kind with
  | binding name =>
      rcases List.mem_cons.mp h with rfl | h
      · exact ⟨run, List.mem_cons_self .., rfl⟩
      · exact hparts h
  | _ => exact hparts h

theorem Pattern.exists_run_of_mem_bindingsAll {binding : String × Span} (ps : List Pattern)
    (h : binding ∈ bindingsAll ps) :
  ∃ run ∈ runsAll ps, run.span = binding.2
  := by
  cases ps with
  | nil => cases h
  | cons p ps =>
      rw [runsAll]
      rcases List.mem_append.mp h with h | h
      · obtain ⟨r, hr, hspan⟩ := exists_run_of_mem_bindings p h
        exact ⟨r, List.mem_append_left _ hr, hspan⟩
      · obtain ⟨r, hr, hspan⟩ := exists_run_of_mem_bindingsAll ps h
        exact ⟨r, List.mem_append_right _ hr, hspan⟩

end

namespace PatternGrammar

/-- A grammar whose productions stay within the cursor they start at, and whose patterns have their
places there. -/
structure StaysWithin (P : Span → Prop) (G : PatternGrammar) : Prop where
  pattern : ∀ {c}, c.Within P →
    Ensures P (fun found => found.1.SpansHave P ∧ found.2.Within P) (G.pattern c)
  segments : ∀ {c}, c.Within P → Outcome.StaysWithin P (G.segments c)

variable {G : PatternGrammar} {c : Cursor}

/-- A shape whose parts have their places within a cursor. -/
abbrev ShapesWithin (P : Span → Prop) (x : Outcome Shape) : Prop :=
  x.Ensures P fun shape => (∀ p ∈ shape.2.1, p.SpansHave P) ∧ shape.2.2.Within P

theorem ShapesWithin.leaf {kind : PatternKind} (h : c.Within P) :
  ShapesWithin P (.ok (kind, [], c))
  := ⟨fun _ hp => absurd hp List.not_mem_nil, h⟩

namespace StaysWithin

theorem segmentArguments (h : c.Within P) :
  Outcome.StaysWithin P (segmentArguments c)
  := by
  rw [PatternGrammar.segmentArguments]
  refine .ite (fun _ => ?_) fun _ => .ok h
  exact (TypeGrammar.staysWithin_level _).angleArguments (h.skip 2)

variable (hG : G.StaysWithin P) (h : c.Within P)
include hG h

theorem readSegments :
  Outcome.StaysWithin P (G.readSegments c)
  := by
  apply (h.expect _ _).bind
  intro d hd
  apply (segmentArguments hd).bind
  intro e he
  exact .ite (fun _ => hG.segments (he.skip 2)) fun _ => .ok he

theorem elements :
  Ensures P (fun ps => ∀ p ∈ ps, p.SpansHave P) (G.elements c)
  := h.commaSeparated fun _ _ _ => hG.pattern

theorem readBinding :
  ShapesWithin P (G.readBinding c)
  := by
  apply (((h.skipKeyword "ref").skipKeyword "mut").expectIdent _).bind
  rintro ⟨t, d⟩ hd
  apply Ensures.ite
  · intro _
    apply (hG.pattern (hd.skip 1)).bind
    rintro ⟨p, e⟩ ⟨hp, he⟩
    exact .ok ⟨by simpa using hp, he⟩
  · exact fun _ => ShapesWithin.leaf hd

theorem readPath :
  ShapesWithin P (G.readPath c)
  := by
  rw [PatternGrammar.readPath]
  have hseparator : Within P (TypeGrammar.skipSeparator c) := .ite (h.skip 2) h
  refine .ite_bind ((TypeGrammar.staysWithin_level _).qualifiedPath h) (hG.segments hseparator) ?_
  intro d hd
  dsimp only
  split
  case h_1 hd' => exact (hG.elements (hd.inside hd')).bind fun ps hps => .ok ⟨hps, hd.skip 1⟩
  case h_2 => exact ShapesWithin.leaf (hd.skip 1)
  case h_3 => exact ShapesWithin.leaf (.ite (hd.skip 2) hd)

theorem readPlain :
  ShapesWithin P (G.readPlain c)
  := by
  rw [PatternGrammar.readPlain]
  refine .ite (fun _ => ShapesWithin.leaf (h.skip 1)) fun _ => ?_
  refine .ite (fun _ => ShapesWithin.leaf (h.skip 2)) fun _ => ?_
  apply Ensures.ite
  · intro _
    apply (hG.pattern ((h.skip 1).skipKeyword "mut")).bind
    rintro ⟨p, d⟩ ⟨hp, hd⟩
    exact .ok ⟨by simpa using hp, hd⟩
  intro _
  refine .ite (fun _ => hG.readBinding h) fun _ => ?_
  refine .ite (fun _ => ShapesWithin.leaf (h.skip 1)) fun _ => ?_
  refine .ite (fun _ => ShapesWithin.leaf (h.skip 2)) fun _ => ?_
  exact .ite (fun _ => hG.readPath h) fun _ => h.fail _

theorem readPattern :
  Ensures P (fun found => found.1.SpansHave P ∧ found.2.Within P) (G.readPattern c)
  := by
  have hshape : ShapesWithin P (G.readShape c) := by
    rw [readShape]
    split
    case h_1 hc => exact (hG.elements (h.inside hc)).bind fun ps hps => .ok ⟨hps, h.skip 1⟩
    case h_2 hc => exact (hG.elements (h.inside hc)).bind fun ps hps => .ok ⟨hps, h.skip 1⟩
    case h_3 => exact hG.readPlain h
  apply hshape.bind
  rintro ⟨kind, parts, d⟩ ⟨hparts, hd⟩
  exact .ok ⟨Pattern.spansHave_mk (h.run d) hparts, hd⟩

end StaysWithin

theorem staysWithin_level (n : Nat) :
  (level n).StaysWithin P
  := by
  induction n with
  | zero => exact ⟨fun h => h.failWith _, fun h => h.failWith _⟩
  | succ n ih => exact ⟨fun h => ih.readPattern h, fun h => ih.readSegments h⟩

end PatternGrammar

/-- A pattern stays within the cursor it starts at, and has all its places there. -/
theorem Cursor.Within.readPattern {c : Cursor} (h : c.Within P) :
  Ensures P (fun found => found.1.SpansHave P ∧ found.2.Within P) (Pattern.read c)
  := (PatternGrammar.staysWithin_level _).pattern h

end ReturnCaptures
