import ReturnCaptures.Proofs.RefusedItems
import ReturnCaptures.Proofs.StoppedScans

/-!
# Where failing calls are blamed

A call of a marker macro whose arguments are no function item is blamed between its delimiters,
at the arguments themselves or right behind the last of them. Arguments that hold nothing have no
last one to be blamed, and the problem is reported at the start of the file.
-/

namespace ReturnCaptures

open TokenTree

/-- A span no character of which is outside of another one. -/
structure Span.Encloses (outer s : Span) : Prop where
  le_start : outer.start ≤ s.start
  start_le : s.start ≤ s.stop
  stop_le : s.stop ≤ outer.stop

/-- The ways to expand a text, and what they scan for marked items: all trees of the text, or those
in the body of the one item that the text is. -/
inductive Source.Scans (source : Source) (trees : List TokenTree) :
    Recording (List Char) → List TokenTree → Prop
  | text : Scans source trees source.expand trees
  | item {item : FunctionItem} :
      FunctionItem.ofTrees source.file trees = .ok item →
      Scans source trees source.expandItem (Expansion.ofItem item).openTrees

section Calls

variable {source : Source} {trees scanned : List TokenTree} {x : Recording (List Char)}
  {s s' : List String} {cause : ExpansionError} {rejection : Rejection} {call : Invocation}
  {tokens : List Token}

namespace Source

/-- Trees that are scanned are some of those of the text. -/
theorem Scans.isInfix (h : source.Scans trees x scanned) :
  tokensAll scanned <:+: tokensAll trees
  := by
  cases h with
  | text => exact List.infix_rfl
  | item hitem =>
      obtain ⟨d, hread, -⟩ := FunctionItem.ofTrees_eq_ok.mp hitem
      exact FunctionItem.openTrees_isInfix hread

/-- A text whose trees are scanned fails to expand exactly if the scan stops. -/
theorem Scans.run_eq_error (h : source.Scans trees x scanned)
    (htrees : TokenTree.ofText source.file source.text = .ok trees) :
  (∃ s', x.run s = .error cause s') ↔
    ∃ stop names, source.Stops scanned stop names ∧ cause = stop.cause
  := by
  cases h with
  | text =>
      simp only [expand_run_eq_error, htrees]
      constructor
      · rintro ⟨s', ⟨_, ⟨⟩, _⟩ | ⟨_, stop, names, ⟨⟩, hstops, -, rfl⟩⟩
        exact ⟨stop, names, hstops, rfl⟩
      · rintro ⟨stop, names, hstops, rfl⟩
        exact ⟨_, .inr ⟨_, stop, names, rfl, hstops, rfl, rfl⟩⟩
  | @item item hitem =>
      have htext : FunctionItem.ofText source.file source.text = .ok item := by
        rw [FunctionItem.ofText, htrees]
        exact hitem
      simp only [expandItem_run_eq_error, htext]
      constructor
      · rintro ⟨s', ⟨_, ⟨⟩, _⟩ | ⟨_, stop, names, ⟨⟩, hstops, -, rfl⟩⟩
        exact ⟨stop, names, hstops, rfl⟩
      · rintro ⟨stop, names, hstops, rfl⟩
        exact ⟨_, .inr ⟨_, stop, names, rfl, hstops, rfl, rfl⟩⟩

end Source

/-- The places of the trees inside a group are between its delimiters, if there are any trees. -/
theorem Group.within_ofTrees {m n : Nat} {file : String} {g : Group}
    (hordered : Token.Ordered m n tokens) (h : g.tree.tokens <:+: tokens) :
  (Cursor.ofTrees file g.trees).Within fun s => g.trees ≠ [] → g.span.Encloses s
  := by
  obtain ⟨d, inside, opening, closing⟩ := g
  obtain ⟨hopening, hrest⟩ := List.pairwise_cons.mp (hordered.pairwise.sublist h.sublist)
  obtain ⟨hinside, -, hclosing⟩ := List.pairwise_append.mp hrest
  have hplace (t : Token) (ht : t ∈ tokensAll inside) :
      opening.start ≤ t.span.start ∧ t.span.start < t.span.stop ∧ t.span.stop ≤ closing.stop := by
    have hbefore := hopening t (List.mem_append_left _ ht)
    have hafter := hclosing t ht _ (List.mem_singleton_self _)
    have hlt {t : Token} (ht : t ∈ _) := hordered.start_lt (h.mem ht)
    have hopeninglt := hlt (List.mem_cons_self ..)
    have htlt := hlt (List.mem_cons_of_mem _ (List.mem_append_left _ ht))
    have hclosinglt := hlt
      (List.mem_cons_of_mem _ (List.mem_append_right _ (List.mem_singleton_self _)))
    dsimp only at hbefore hafter hopeninglt hclosinglt
    exact ⟨by omega, htlt, by omega⟩
  apply Cursor.within_ofTrees
  · constructor
    · intro t ht _
      obtain ⟨hstart, hlt, hstop⟩ := hplace t ht
      exact ⟨hstart, Nat.le_of_lt hlt, hstop⟩
    · apply hinside.imp_of_mem
      intro t t' ht ht' hle _
      obtain ⟨hstart, hlt, -⟩ := hplace t ht
      obtain ⟨-, hlt', hstop⟩ := hplace t' ht'
      refine ⟨hstart, ?_, hstop⟩
      show t.span.start ≤ t'.span.stop
      omega
  · intro t ht _
    obtain ⟨hstart, hlt, hstop⟩ := hplace t ht
    refine ⟨?_, Nat.le_refl _, hstop⟩
    show opening.start ≤ t.span.stop
    omega
  · exact fun hnil hne => absurd hnil hne

/-- The only place of no trees at all is the start of the file. -/
theorem Cursor.within_ofTrees_nil {file : String} :
  (Cursor.ofTrees file trees).Within fun s => trees = [] → s = .fileStart file
  := by
  cases trees with
  | nil => exact ⟨fun _ => rfl, fun _ ht => absurd ht List.not_mem_nil, .nil⟩
  | cons => exact ⟨nofun, fun _ _ => nofun, List.pairwise_of_forall fun _ _ => nofun⟩

namespace Source

/-- Where expanding a text fails, the scan for marked items stops. If it stops since the arguments
of a call of a marker macro are no function item, the call is blamed: the diagnostic has one label,
which lies in the text, between the delimiters of the arguments exactly if there are any trees
between them. -/
theorem encloses_iff_of_run (htrees : TokenTree.ofText source.file source.text = .ok trees)
    (hx : source.Scans trees x scanned) (h : x.run s = .error (.rejected rejection) s') :
  (∃ stop names, source.Stops scanned stop names ∧ stop.cause = .rejected rejection) ∧
  ∀ call names, source.Stops scanned (.called call rejection) names →
    ∃ d label, rejection = [d] ∧ d.labels = [label] ∧ label.span.file = source.file ∧
      label.span.LiesIn source.text ∧
      (call.arguments.span.Encloses label.span ↔ call.arguments.trees ≠ [])
  := by
  have htokens := (tokensOf_of_ofText htrees).1
  constructor
  · obtain ⟨stop, names, hstops, hcause⟩ := (hx.run_eq_error htrees).mp ⟨s', h⟩
    exact ⟨stop, names, hstops, hcause.symm⟩
  · intro call names hstops
    cases hstops.arises.mono hx.isInfix with
    | @called _ _ t hitem hstands =>
        have hgroup : call.arguments.tree.tokens <:+: tokensAll trees :=
          (List.suffix_cons t _).isInfix.trans hstands
        have hinside := call.arguments.tokensAll_isInfix_tokens.trans hgroup
        have hordered := ordered_of_tokensOf htokens
        have hwithin := (within_of_isInfix htokens hinside).and
          ((Group.within_ofTrees hordered hgroup).and Cursor.within_ofTrees_nil)
        obtain ⟨stage, failure, rfl, ⟨hfile, hlies⟩, hencloses, hnil⟩ :=
          FunctionItem.exists_failure_of_ofTrees_within hwithin hitem
        refine ⟨_, _, rfl, rfl, hfile, hlies, ?_, hencloses⟩
        -- There is a token in front of the arguments, so that they do not start the file.
        rintro ⟨hle, -, -⟩ hempty
        have hpairwise := hordered.pairwise.sublist hstands.sublist
        have hopening := (List.pairwise_cons.mp hpairwise).1 _ (List.mem_cons_self ..)
        have hlt := hordered.start_lt (hstands.mem (List.mem_cons_self ..))
        have hstart : failure.span.start = 0 := congrArg Span.start (hnil hempty)
        have hspan : call.arguments.span.start = call.arguments.opening.start := rfl
        dsimp only at hle hopening
        omega

/-- A call inside the body of another one is blamed for its own arguments. -/
theorem encloses_iff_of_run_nested :
  ∃ source trees rejection s' call names d label,
    source = Source.mk "f.rs"
      "named_return! { fn g() { named_return!(fn f() -> (a: u8, 1 +) {}); } }".toList .standard ∧
    TokenTree.ofText source.file source.text = .ok trees ∧
    source.expand.run [] = .error (.rejected rejection) s' ∧
    source.Stops trees (.called call rejection) names ∧ call.arguments.trees ≠ [] ∧
    rejection = [d] ∧ d.labels = [label] ∧ call.arguments.span.Encloses label.span
  := by
  let source := Source.mk "f.rs"
    "named_return! { fn g() { named_return!(fn f() -> (a: u8, 1 +) {}); } }".toList .standard
  obtain ⟨trees, htrees, hcheck⟩ := Outcome.exists_of_any
    (x := TokenTree.ofText source.file source.text)
    (p := fun trees => (source.itemAt trees).toOption.any fun found => found.any fun first =>
      ((source.itemAt (Expansion.ofItem first.1).openTrees).map fun _ => ()).mapError (fun stop =>
        stop.called?.any fun found => !found.1.arguments.trees.isEmpty) = .error true)
    (by decide +kernel)
  obtain ⟨found, hitem, hfound⟩ := Outcome.exists_of_any hcheck
  obtain ⟨⟨item, after⟩, rfl, hinner⟩ := (Option.any_eq_true ..).mp hfound
  obtain ⟨stop, hstop, hcall⟩ := Outcome.exists_error_of_any (of_decide_eq_true hinner)
  obtain ⟨⟨call, rejection⟩, hcalled, hne⟩ := (Option.any_eq_true ..).mp hcall
  obtain rfl := Stop.called?_eq_some.mp hcalled
  have hnil : source.itemAt [] = .ok none := rfl
  have hstops : source.Stops trees (.called call rejection) [item.name] := by
    cases trees with
    | nil => cases hnil.symm.trans hitem
    | cons =>
        apply Stops.within hitem
        cases hopen : (Expansion.ofItem item).openTrees with
        | nil => cases hnil.symm.trans (hopen ▸ hstop)
        | cons => exact .here (hopen ▸ hstop)
  have hrun := expand_run_eq_error.mpr
    (.inr ⟨_, _, _, htrees, hstops, (List.nil_append _).symm, rfl⟩)
  obtain ⟨-, hblamed⟩ := encloses_iff_of_run htrees .text hrun
  obtain ⟨d, label, hone, hlabel, -, -, hencloses⟩ := hblamed call _ hstops
  have hne : call.arguments.trees ≠ [] := by simpa using hne
  exact ⟨source, _, rejection, _, call, _, d, label, rfl, htrees, hrun, hstops, hne, hone, hlabel,
    hencloses.mpr hne⟩

/-- A call without arguments is blamed at the start of the file. -/
theorem not_encloses_of_run_empty :
  ∃ source trees rejection s' call names,
    source = Source.mk "f.rs" "named_return!();".toList .standard ∧
    TokenTree.ofText source.file source.text = .ok trees ∧
    source.expand.run [] = .error (.rejected rejection) s' ∧
    source.Stops trees (.called call rejection) names ∧
    ¬ ∀ d ∈ rejection, ∀ label ∈ d.labels, call.arguments.span.Encloses label.span
  := by
  let source := Source.mk "f.rs" "named_return!();".toList .standard
  obtain ⟨trees, htrees, hcheck⟩ := Outcome.exists_of_any
    (x := TokenTree.ofText source.file source.text)
    (p := fun trees => ((source.itemAt trees).map fun _ => ()).mapError (fun stop =>
      stop.called?.any fun found => found.2.any fun d => d.labels.any fun label =>
        label.span.start < found.1.arguments.span.start) = .error true)
    (by decide +kernel)
  obtain ⟨stop, hstop, hcall⟩ := Outcome.exists_error_of_any (of_decide_eq_true hcheck)
  obtain ⟨⟨call, rejection⟩, hcalled, hbefore⟩ := (Option.any_eq_true ..).mp hcall
  obtain rfl := Stop.called?_eq_some.mp hcalled
  have hnil : source.itemAt [] = .ok none := rfl
  have hstops : source.Stops trees (.called call rejection) [] := by
    cases trees with
    | nil => cases hnil.symm.trans hstop
    | cons => exact .here hstop
  have hrun := expand_run_eq_error.mpr
    (.inr ⟨_, _, _, htrees, hstops, (List.append_nil []).symm, rfl⟩)
  refine ⟨source, _, rejection, _, call, [], rfl, htrees, hrun, hstops, ?_⟩
  intro hall
  simp only [List.any_eq_true, decide_eq_true_eq] at hbefore
  obtain ⟨d, hd, label, hlabel, hlt⟩ := hbefore
  have hle := (hall d hd label hlabel).le_start
  omega

end Source

end Calls

end ReturnCaptures
