import Mathlib.Data.List.Forall2
import ReturnCaptures.Grammar.ReturnClause
import ReturnCaptures.Proofs.PatternRuns
import ReturnCaptures.Proofs.TypeLevels

/-!
# Capture lists

The captures of a list stand one after the other, with commas between them, and each is
read with a pattern or as a bare type. No capture of a list of types is read with a
pattern, for there is no lone colon outside of the angle brackets of a type.
-/

namespace ReturnCaptures

open TokenTree Outcome Cursor

variable {c d : Cursor}

/-! ### Items separated by commas -/

/-- Items that stand one after the other, each read between two cursors, with a comma
behind every one but the last. -/
inductive Cursor.Separated {α : Type} (reads : Cursor → α → Cursor → Prop) :
    Cursor → List α → Prop
  | nil {c : Cursor} : c.trees = [] → Separated reads c []
  | last {c d : Cursor} {a : α} : reads c a d → d.trees = [] → Separated reads c [a]
  | cons {c d : Cursor} {a : α} {as : List α} :
      reads c a d → atPunct ',' d.trees → Separated reads (d.skip 1) as →
        Separated reads c (a :: as)

theorem Cursor.separated_of_commaSeparatedAfter {α : Type} {reads : Cursor → α → Cursor → Prop}
    {item : List α → Cursor → Outcome (α × Cursor)} {bound : Nat} {done as : List α}
    (h : c.commaSeparatedAfter item bound done = .ok as)
    (hitem : ∀ {done c a d}, item done c = .ok (a, d) → reads c a d) :
  ∃ rest, as = done.reverse ++ rest ∧ Separated reads c rest
  := by
  induction bound generalizing c done with
  | zero => cases h
  | succ bound ih =>
      rcases ite_eq_iff.mp h with ⟨hend, h⟩ | ⟨-, h⟩
      · cases h
        use [], (List.append_nil _).symm
        apply Separated.nil
        simpa [atEnd] using hend
      · obtain ⟨⟨a, d⟩, hread, h⟩ := bind_eq_ok.mp h
        rcases ite_eq_iff.mp h with ⟨hend, h⟩ | ⟨-, h⟩
        · cases h
          use [a], by simp
          apply Separated.last (hitem hread)
          simpa [atEnd] using hend
        · obtain ⟨e, hcomma, h⟩ := bind_eq_ok.mp h
          obtain ⟨hsep, rfl⟩ := expectPunct_eq_ok.mp hcomma
          obtain ⟨rest, rfl, hrest⟩ := ih h
          use a :: rest, by simp
          apply Separated.cons (hitem hread) hsep hrest

section Separated

variable {α β : Type} {reads : Cursor → α → Cursor → Prop} {reads' : Cursor → β → Cursor → Prop}
  {as : List α}

/-- What is read one after the other is read so in another sense as well. -/
theorem Cursor.Separated.exists_forall₂ {related : α → β → Prop} (h : c.Separated reads as)
    (hreads : ∀ {d a e}, a ∈ as → d.trees <:+ c.trees → (e.atEnd || atPunct ',' e.trees) →
      reads d a e → e.trees <:+ d.trees ∧ ∃ b, related a b ∧ reads' d b e) :
  ∃ bs, List.Forall₂ related as bs ∧ c.Separated reads' bs
  := by
  induction h with
  | nil hc => use [], .nil, .nil hc
  | @last c d a hread hd =>
      have hend : d.atEnd || atPunct ',' d.trees := by
        rw [atEnd, hd]
        rfl
      obtain ⟨_, b, hab, hread'⟩ :=
        hreads (List.mem_singleton_self _) (List.suffix_refl _) hend hread
      use [b], .cons hab .nil, .last hread' hd
  | @cons c d a as hread hcomma _ ih =>
      have hend : d.atEnd || atPunct ',' d.trees := by rw [hcomma, Bool.or_true]
      obtain ⟨hsuffix, b, hab, hread'⟩ :=
        hreads List.mem_cons_self (List.suffix_refl _) hend hread
      obtain ⟨bs, hbs, hrest⟩ := ih (by
        intro d' a e ha hd
        apply hreads (List.mem_cons_of_mem _ ha) (hd.trans ((List.drop_suffix ..).trans hsuffix)))
      use b :: bs, .cons hab hbs, .cons hread' hcomma hrest

/-- Every item was read from where it stands, up to a comma or the end. -/
theorem Cursor.Separated.exists_of_mem (h : c.Separated reads as)
    (hreads : ∀ {d a e}, reads d a e → e.trees <:+ d.trees) {a : α} (ha : a ∈ as) :
  ∃ d e, reads d a e ∧ d.trees <:+ c.trees ∧ (e.atEnd || atPunct ',' e.trees)
  := by
  induction h with
  | nil => cases ha
  | @last c d _ hread hd =>
      obtain rfl := List.mem_singleton.mp ha
      have hend : d.atEnd || atPunct ',' d.trees := by
        rw [atEnd, hd]
        rfl
      exact ⟨c, d, hread, List.suffix_rfl, hend⟩
  | @cons c d _ _ hread hcomma _ ih =>
      rcases List.mem_cons.mp ha with rfl | ha
      · have hend : d.atEnd || atPunct ',' d.trees := by rw [hcomma, Bool.or_true]
        exact ⟨c, d, hread, List.suffix_rfl, hend⟩
      · obtain ⟨e, f, hread', hsuffix, hend⟩ := ih ha
        use e, f, hread'
        have hskip : (d.skip 1).trees <:+ d.trees := List.drop_suffix _ _
        use (hsuffix.trans hskip).trans (hreads hread), hend

theorem Cursor.Separated.map {f : α → β} (h : c.Separated reads as)
    (hreads : ∀ {d a e}, a ∈ as → d.trees <:+ c.trees → (e.atEnd || atPunct ',' e.trees) →
      reads d a e → e.trees <:+ d.trees ∧ reads' d (f a) e) :
  c.Separated reads' (as.map f)
  := by
  obtain ⟨bs, hbs, hseparated⟩ : ∃ bs, List.Forall₂ (fun a b => f a = b) as bs ∧
      c.Separated reads' bs := by
    apply h.exists_forall₂
    intro d a e ha hd he hread
    obtain ⟨hsuffix, hread'⟩ := hreads ha hd he hread
    use hsuffix, f a
  obtain rfl : as.map f = bs := by rwa [← List.forall₂_map_left_iff, List.forall₂_eq_eq_eq] at hbs
  apply hseparated

/-- Items that stand one after the other are read one after the other. -/
theorem Cursor.Separated.commaSeparatedAfter {item : List α → Cursor → Outcome (α × Cursor)}
    (h : c.Separated reads as)
    (hitem : ∀ {d a e} done, reads d a e →
      item done d = .ok (a, e) ∧ e.trees.length < d.trees.length)
    {bound : Nat} (hbound : c.trees.length < bound) (done : List α) :
  c.commaSeparatedAfter item bound done = .ok (done.reverse ++ as)
  := by
  induction h generalizing bound done with
  | @nil c hc =>
      obtain ⟨bound, rfl⟩ : ∃ k, bound = k + 1 := ⟨bound - 1, by omega⟩
      have hend : c.atEnd := by rw [atEnd, hc]; rfl
      rw [List.append_nil]
      apply if_pos hend
  | @last c d a hread hd =>
      obtain ⟨bound, rfl⟩ : ∃ k, bound = k + 1 := ⟨bound - 1, by omega⟩
      obtain ⟨hread, hlt⟩ := hitem done hread
      have hgo : ¬ c.atEnd := by
        rw [atEnd, List.isEmpty_iff_length_eq_zero]
        omega
      have hend : d.atEnd := by rw [atEnd, hd]; rfl
      apply (if_neg hgo).trans
      apply bind_eq_ok.mpr
      use (a, d), hread
      apply (if_pos hend).trans
      rw [List.reverse_cons]
      rfl
  | @cons c d a as hread hcomma _ ih =>
      obtain ⟨bound, rfl⟩ : ∃ k, bound = k + 1 := ⟨bound - 1, by omega⟩
      obtain ⟨hread, hlt⟩ := hitem done hread
      have hgo : ¬ c.atEnd := by
        rw [atEnd, List.isEmpty_iff_length_eq_zero]
        omega
      have hmore : ¬ d.atEnd := by
        rw [atEnd, List.isEmpty_iff]
        apply ne_nil_of_atLexeme hcomma
      have hskip := (List.drop_suffix 1 d.trees).length_le
      apply (if_neg hgo).trans
      apply bind_eq_ok.mpr
      use (a, d), hread
      apply (if_neg hmore).trans
      apply bind_eq_ok.mpr
      use d.skip 1, expectPunct_eq_ok.mpr ⟨hcomma, rfl⟩
      rw [ih _ (a :: done), List.reverse_cons, List.append_assoc]
      · rfl
      · apply Nat.lt_of_le_of_lt hskip
        omega

theorem Cursor.Separated.commaSeparated {item : List α → Cursor → Outcome (α × Cursor)}
    (h : c.Separated reads as)
    (hitem : ∀ {d a e} done, reads d a e →
      item done d = .ok (a, e) ∧ e.trees.length < d.trees.length) :
  c.commaSeparated item = .ok as
  := h.commaSeparatedAfter hitem (Nat.lt_succ_self _) []

end Separated

/-! ### Captures -/

namespace Capture

/-- What a capture is that is read between two cursors. -/
inductive ReadsAs (c : Cursor) : Capture → Cursor → Prop
  | bound {pattern : Pattern} {type : TypeExpr} {e d : Cursor} :
      Pattern.read c = .ok (pattern, e) → atColon e.trees →
      TypeExpr.read true (e.skip 1) = .ok (type, d) → checkPattern pattern = .ok () →
      ReadsAs c (.bound pattern type) d
  | unbound {type : TypeExpr} {d : Cursor} :
      TypeExpr.read true c = .ok (type, d) → ReadsAs c (.unbound type) d

theorem expectEnd_eq_ok :
  expectEnd c = .ok () ↔ (c.atEnd || atPunct ',' c.trees)
  := by
  unfold expectEnd
  split <;> simp_all [fail, failWith]

/-- What is read as a capture with a pattern is a pattern, a colon and a type at the end of an item. -/
theorem readBound_eq_ok {pattern : Pattern} {type : TypeExpr} :
  readBound c = .ok (pattern, type, d) ↔
    ∃ e, Pattern.read c = .ok (pattern, e) ∧ atColon e.trees ∧
      TypeExpr.read true (e.skip 1) = .ok (type, d) ∧ (d.atEnd || atPunct ',' d.trees)
  := by
  constructor
  · intro h
    obtain ⟨⟨p, e⟩, hpattern, h⟩ := bind_eq_ok.mp h
    obtain ⟨f, hexpect, h⟩ := bind_eq_ok.mp h
    obtain ⟨hcolon, rfl⟩ := expectColon_eq_ok.mp hexpect
    obtain ⟨⟨t, g⟩, htype, h⟩ := bind_eq_ok.mp h
    obtain ⟨_, hend, ⟨⟩⟩ := bind_eq_ok.mp h
    use e, hpattern, hcolon, htype, expectEnd_eq_ok.mp hend
  · rintro ⟨e, hpattern, hcolon, htype, hd⟩
    apply bind_eq_ok.mpr ⟨(pattern, e), hpattern, _⟩
    apply bind_eq_ok.mpr ⟨e.skip 1, expectColon_eq_ok.mpr ⟨hcolon, rfl⟩, _⟩
    apply bind_eq_ok.mpr ⟨(type, d), htype, _⟩
    simp only [expectEnd_eq_ok.mpr hd]
    rfl

theorem readUnbound_eq_ok {type : TypeExpr} :
  readUnbound c = .ok (type, d) ↔
    TypeExpr.read true c = .ok (type, d) ∧ (d.atEnd || atPunct ',' d.trees)
  := by
  constructor
  · intro h
    obtain ⟨⟨t, e⟩, htype, h⟩ := bind_eq_ok.mp h
    obtain ⟨_, hexpect, ⟨⟩⟩ := bind_eq_ok.mp h
    use htype, expectEnd_eq_ok.mp hexpect
  · rintro ⟨htype, h⟩
    apply bind_eq_ok.mpr ⟨(type, d), htype, _⟩
    simp only [expectEnd_eq_ok.mpr h]
    rfl

theorem readsAs_of_read {index : Nat} {capture : Capture}
    (h : Capture.read index c = .ok (capture, d)) :
  ReadsAs c capture d
  := by
  unfold Capture.read at h
  split at h
  case h_1 pattern type e hbound =>
    obtain ⟨_, hcheck, ⟨⟩⟩ := bind_eq_ok.mp h
    obtain ⟨f, hpattern, hcolon, htype, _⟩ := readBound_eq_ok.mp hbound
    apply ReadsAs.bound hpattern hcolon htype hcheck
  case h_2 =>
    split at h
    case h_1 type e hunbound =>
      cases h
      apply ReadsAs.unbound (readUnbound_eq_ok.mp hunbound).1
    case h_2 => cases h

/-- A capture ends at the end of its list or at a comma. -/
theorem end_of_read {index : Nat} {capture : Capture}
    (h : Capture.read index c = .ok (capture, d)) :
  d.atEnd || atPunct ',' d.trees
  := by
  unfold Capture.read at h
  split at h
  case h_1 pattern type e hbound =>
    obtain ⟨_, _, ⟨⟩⟩ := bind_eq_ok.mp h
    obtain ⟨_, _, _, _, hend⟩ := readBound_eq_ok.mp hbound
    exact hend
  case h_2 =>
    split at h
    case h_1 type e hunbound =>
      cases h
      exact (readUnbound_eq_ok.mp hunbound).2
    case h_2 => cases h

/-- The captures of a list stand one after the other in its group. -/
theorem separated_of_readList {g : Group} {items : List Capture} (h : readList g = .ok items) :
  (Cursor.into g).Separated ReadsAs items
  := by
  obtain ⟨captures, hcaptures, h⟩ := bind_eq_ok.mp h
  obtain ⟨_, _, ⟨⟩⟩ := bind_eq_ok.mp h
  unfold Cursor.commaSeparated at hcaptures
  obtain ⟨rest, hrest, hseparated⟩ := separated_of_commaSeparatedAfter hcaptures readsAs_of_read
  rw [List.reverse_nil, List.nil_append] at hrest
  rwa [hrest]

end Capture

/-- The type of a capture was read as such. -/
theorem Capture.ReadsAs.exists_read {capture : Capture} (h : ReadsAs c capture d) :
  ∃ e, TypeExpr.read true e = .ok (capture.type, d)
  := by
  cases h with
  | @bound pattern type e d _ _ htype _ => use e.skip 1, htype
  | unbound htype => use c, htype

theorem Capture.ReadsAs.isSuffix {capture : Capture} (h : ReadsAs c capture d) :
  d.trees <:+ c.trees
  := by
  cases h with
  | @bound pattern type e _ hpattern _ htype _ =>
      have hskip : (e.skip 1).trees <:+ e.trees := List.drop_suffix _ _
      have hpassed := (Pattern.passes_read hpattern).1.crosses.isSuffix
      apply ((TypeExpr.passes_read htype).1.crosses.isSuffix.trans hskip).trans hpassed
  | unbound htype => apply (TypeExpr.passes_read htype).1.crosses.isSuffix

theorem Capture.ReadsAs.shorter {capture : Capture} (h : ReadsAs c capture d) :
  d.trees.length < c.trees.length
  := by
  cases h with
  | @bound pattern type e _ hpattern _ htype _ =>
      have hpassed := (Pattern.passes_read hpattern).1.shorter
      have hskip : (e.skip 1).trees.length ≤ e.trees.length := (List.drop_suffix ..).length_le
      have htype := (TypeExpr.passes_read htype).1.shorter
      omega
  | unbound htype => exact (TypeExpr.passes_read htype).1.shorter

theorem Capture.exists_read_of_mem {items : List Capture} (h : c.Separated Capture.ReadsAs items)
    {item : Capture} (hitem : item ∈ items) :
  ∃ d e, TypeExpr.read true d = .ok (item.type, e)
  := by
  obtain ⟨_, e, hread, _⟩ := h.exists_of_mem ReadsAs.isSuffix hitem
  obtain ⟨d, htype⟩ := hread.exists_read
  exact ⟨d, e, htype⟩

/-! ### Lists of types -/

/-- Strictly balanced runs with commas between them, and perhaps one at the end. -/
inductive TypeList : List TokenTree → Prop
  | last {u : List TokenTree} : Balanced true false u → TypeList u
  | cons {u r : List TokenTree} {comma : TokenTree} :
      Balanced true false u → atPunct ',' [comma] → TypeList r → TypeList (u ++ comma :: r)

theorem TokenTree.atColon_of_comma {trees : List TokenTree} (h : atPunct ',' trees) :
  atColon trees = false
  := by
  obtain ⟨comma, r, rfl, hcomma⟩ := exists_of_atPunct h
  rw [atColon, atPunct_cons, atPunct_of_atPunct hcomma (by decide), Bool.false_and]

/-- A list of types starts with a balanced run, at the end of which skimming stops. -/
theorem TypeList.exists_append {trees : List TokenTree} (h : TypeList trees) :
  ∃ u r, trees = u ++ r ∧ Balanced true false u ∧ skim true 0 r = r ∧ !atColon r ∧
    (r ≠ [] → TypeList (r.drop 1))
  := by
  cases h with
  | last hu =>
      use trees, [], by simp, hu, rfl, rfl
      simp
  | @cons u r comma hu hcomma hr =>
      use u, comma :: r, rfl, hu
      have hc : atPunct ',' (comma :: r) := by rwa [atPunct_cons]
      use skim_of_comma hc
      constructor
      · rw [atColon_of_comma hc]
        rfl
      · intro _
        apply hr

theorem Cursor.Separated.typeList {α : Type} {reads : Cursor → α → Cursor → Prop}
    (hreads : ∀ {c a d}, reads c a d → c.Passes true false d) {as : List α}
    (h : c.Separated reads as) :
  TypeList c.trees
  := by
  induction h with
  | nil hc =>
      rw [hc]
      apply TypeList.last .nil
  | @last c d a hread hd =>
      obtain ⟨u, hu, hb⟩ := (hreads hread).crosses.run
      rw [hu, hd, List.append_nil]
      apply TypeList.last hb
  | @cons c d a as hread hcomma _ ih =>
      obtain ⟨u, hu, hb⟩ := (hreads hread).crosses.run
      obtain ⟨comma, r, hd, hc⟩ := exists_of_atPunct hcomma
      rw [trees_skip_one hd] at ih
      rw [hu, hd]
      apply TypeList.cons hb hc ih

/-- What stands between the parentheses of a type are types one after the other. -/
theorem TypeGrammar.separated_of_parenthesized {G : TypeGrammar} {kind : TypeKind}
    (h : G.parenthesized c = .ok kind) :
  ∃ kinds, c.Separated (fun c kind d => G.type true c = .ok (kind, d)) kinds
  := by
  rcases ite_eq_iff.mp h with ⟨hend, -⟩ | ⟨-, h⟩
  · use [], .nil (by simpa [atEnd] using hend)
  · obtain ⟨⟨first, d⟩, htype, h⟩ := bind_eq_ok.mp h
    rcases ite_eq_iff.mp h with ⟨hend, -⟩ | ⟨-, h⟩
    · use [first], .last htype (by simpa [atEnd] using hend)
    · obtain ⟨e, hexpect, h⟩ := bind_eq_ok.mp h
      obtain ⟨hcomma, rfl⟩ := expectPunct_eq_ok.mp hexpect
      obtain ⟨kinds, hkinds, _⟩ := bind_eq_ok.mp h
      obtain ⟨rest, _, hrest⟩ := separated_of_commaSeparatedAfter hkinds id
      use first :: rest, .cons htype hcomma hrest

/-- The captures that stand for the types alone. -/
def Capture.isUnbound : Capture → Bool
  | bound _ _ => false
  | unbound _ => true

/-- No pattern with a colon behind it starts with the run of a type. -/
theorem TokenTree.Balanced.not_atColon {u r : List TokenTree} (hu : Balanced true false u)
    (hr : skim true 0 r = r) (hcolon : atColon r = false) (hc : c.trees = u ++ r)
    {pattern : Pattern} (hpattern : Pattern.read c = .ok (pattern, d)) :
  atColon d.trees = false
  := by
  obtain ⟨v, hv, hbv⟩ := (Pattern.passes_read hpattern).1.crosses.run
  apply Bool.eq_false_iff.mpr
  intro hd
  have hinj := hu.toLoose.append_cons_inj hbv (by simp) hr (skim_of_colon hd) (hc.symm.trans hv)
  rw [hinj.2, hd] at hcolon
  cases hcolon

/-- Behind the end of an item there is no colon, and skimming goes no further. -/
theorem TokenTree.skim_of_itemEnd {r : List TokenTree} (hr : r.isEmpty || atPunct ',' r) :
  skim true 0 r = r ∧ atColon r = false
  := by
  rcases Bool.or_eq_true_iff.mp hr with hr | hr
  · rw [List.isEmpty_iff.mp hr]
    exact ⟨rfl, rfl⟩
  · use skim_of_comma hr, atColon_of_comma hr

/-- No pattern with a colon behind it starts where a type does that ends where an item does. -/
theorem TypeExpr.not_atColon_of_read {type : TypeExpr} {e : Cursor}
    (h : TypeExpr.read true c = .ok (type, e)) (he : e.atEnd || atPunct ',' e.trees)
    {pattern : Pattern} (hpattern : Pattern.read c = .ok (pattern, d)) :
  atColon d.trees = false
  := by
  obtain ⟨u, hu, hbalanced⟩ := (TypeExpr.passes_read h).1.crosses.run
  obtain ⟨hskim, hcolon⟩ := skim_of_itemEnd he
  apply hbalanced.not_atColon hskim hcolon hu hpattern

/-- No pattern with a colon behind it starts a list of types. -/
theorem TypeList.not_atColon (h : TypeList c.trees) {pattern : Pattern}
    (hpattern : Pattern.read c = .ok (pattern, d)) :
  atColon d.trees = false
  := by
  obtain ⟨u, r, hc, hu, hr, hcolon, _⟩ := h.exists_append
  apply hu.not_atColon hr (by simpa using hcolon) hc hpattern

/-- A capture that is read from a list of types is one of the types, and the rest of the
list is a list of types. -/
theorem Capture.ReadsAs.isUnbound {capture : Capture} (h : ReadsAs c capture d)
    (hc : TypeList c.trees) :
  capture.isUnbound
  := by
  cases h with
  | bound hpattern hcolon _ _ =>
      rw [hc.not_atColon hpattern] at hcolon
      cases hcolon
  | unbound _ => rfl

theorem Capture.ReadsAs.typeList_skip {capture : Capture} (h : ReadsAs c capture d)
    (hc : TypeList c.trees) (hd : atPunct ',' d.trees) :
  TypeList (d.skip 1).trees
  := by
  have hun := h.isUnbound hc
  obtain ⟨u, r, hu, hb, hr, _, hrest⟩ := hc.exists_append
  cases h with
  | bound _ _ _ _ => cases hun
  | unbound htype =>
      obtain ⟨v, hv, hbv⟩ := (TypeExpr.passes_read htype).1.crosses.run
      have hinj := hb.append_cons_inj hbv (by simp) hr (skim_of_comma hd) (hu.symm.trans hv)
      rw [trees_skip, ← hinj.2]
      apply hrest
      rw [hinj.2]
      apply ne_nil_of_atLexeme hd

/-- No capture of a list of types is bound. -/
theorem Capture.isUnbound_of_separated {items : List Capture}
    (h : c.Separated Capture.ReadsAs items) (hc : TypeList c.trees) :
  ∀ item ∈ items, item.isUnbound
  := by
  induction h with
  | nil => simp
  | last hread _ => simpa using hread.isUnbound hc
  | cons hread hcomma _ ih =>
      rw [List.forall_mem_cons]
      use hread.isUnbound hc
      apply ih (hread.typeList_skip hc hcomma)

theorem Capture.isUnbound_of_readList {g : Group} {items : List Capture}
    (h : readList g = .ok items) (hg : TypeList g.trees) :
  ∀ item ∈ items, item.isUnbound
  := isUnbound_of_separated (separated_of_readList h) hg

/-! ### A type between parentheses -/

/-- A type that starts with parentheses ends with them, or goes on with a plus sign; in
between stand types one after the other. -/
theorem TypeExpr.paren_of_read {type : TypeExpr} {inside r : List TokenTree}
    {opening closing : Span}
    (h : TypeExpr.read true c = .ok (type, d))
    (hc : c.trees = .group .paren inside opening closing :: r) :
  (d.trees = r ∨ atPunct '+' r) ∧
    ∃ types, Cursor.Separated (fun c type d => TypeExpr.read true c = .ok (type, d))
      ⟨inside, closing⟩ types
  := by
  obtain ⟨kind, htype, rfl⟩ := TypeExpr.read_eq_ok.mp h
  have hweight := weight_inside hc
  generalize hn : 4 * sizeAll c.trees + 3 = n
  have hlevel : TypeGrammar.upTo c = TypeGrammar.level (n + 1) := by
    rw [TypeGrammar.upTo, ← hn]
    rfl
  rw [hlevel] at htype
  replace htype : (TypeGrammar.level n).readType true c = .ok (kind, d) := htype
  rw [TypeGrammar.readType, hc] at htype
  obtain ⟨kind', hparen, htype⟩ := bind_eq_ok.mp htype
  constructor
  · rcases ite_eq_iff.mp htype with ⟨hplus, -⟩ | ⟨-, htype⟩
    · simp only [Bool.and_eq_true, trees_skip_one hc, atSingle] at hplus
      apply Or.inr hplus.2.1
    · cases htype
      apply Or.inl (trees_skip_one hc)
  · obtain ⟨kinds, hkinds⟩ := TypeGrammar.separated_of_parenthesized hparen
    obtain ⟨types, _, htypes⟩ : ∃ types : List TypeExpr,
        List.Forall₂ (fun kind type => type.kind = kind) kinds types ∧
        Cursor.Separated (fun c type d => TypeExpr.read true c = .ok (type, d))
          ⟨inside, closing⟩ types := by
      apply hkinds.exists_forall₂
      intro e kind f _ he _ hread
      use ((TypeGrammar.sound_level n).type hread).crosses.isSuffix
      have hle : e.weight + 2 ≤ n := by
        have hinside := weight_le he
        have hweight' : c.weight = 3 * sizeAll c.trees := rfl
        omega
      rw [TypeGrammar.type_level_eq_upTo true e hle] at hread
      exact ⟨⟨kind, e.runUpTo f⟩, rfl, TypeExpr.read_eq_ok.mpr ⟨kind, hread, rfl⟩⟩
    use types

/-- A type at the end of an item is read as a capture if no pattern with a colon behind it stands
in its place. -/
theorem Capture.read_eq_unbound {type : TypeExpr} (h : TypeExpr.read true c = .ok (type, d))
    (hd : d.atEnd || atPunct ',' d.trees)
    (hno : ∀ {pattern e}, Pattern.read c = .ok (pattern, e) → atColon e.trees = false)
    (index : Nat) :
  Capture.read index c = .ok (.unbound type, d)
  := by
  have hbound : ∃ failure, readBound c = .error failure := by
    cases hread : readBound c with
    | error failure => use failure
    | ok result =>
        obtain ⟨pattern, type', e⟩ := result
        obtain ⟨f, hpattern, hcolon, _⟩ := readBound_eq_ok.mp hread
        rw [hno hpattern] at hcolon
        cases hcolon
  obtain ⟨failure, hbound⟩ := hbound
  unfold Capture.read
  rw [hbound]
  simp only
  rw [readUnbound_eq_ok.mpr ⟨h, hd⟩]

/-- A type at the end of an item is read as a capture that is not bound. -/
theorem Capture.read_of_read {type : TypeExpr} (h : TypeExpr.read true c = .ok (type, d))
    (hd : d.atEnd || atPunct ',' d.trees) (index : Nat) :
  Capture.read index c = .ok (.unbound type, d)
  := by
  apply read_eq_unbound h hd
  intro pattern e hpattern
  apply TypeExpr.not_atColon_of_read h hd hpattern

/-- Types one after the other between parentheses are read as captures none of which is bound. -/
theorem Capture.readList_of_separated {g : Group} {types : List TypeExpr}
    (h : (Cursor.into g).Separated (fun c type d => TypeExpr.read true c = .ok (type, d)) types) :
  Capture.readList g = .ok (types.map .unbound)
  := by
  have hseparated : (Cursor.into g).Separated
      (fun c item d =>
        ∀ index, Capture.read index c = .ok (item, d) ∧ d.trees.length < c.trees.length)
      (types.map .unbound) := by
    apply h.map
    intro c type d _ _ hd hread
    have hpasses := (TypeExpr.passes_read hread).1
    use hpasses.crosses.isSuffix
    intro index
    use read_of_read hread hd index, hpasses.shorter
  have hcaptures : (Cursor.into g).commaSeparated
      (fun done : List Capture => Capture.read done.length) = .ok (types.map .unbound) := by
    apply hseparated.commaSeparated
    intro c item d done hread
    apply hread
  have hnone : bindings (types.map .unbound) = [] := by
    rw [bindings, List.filterMap_map, List.flatMap_eq_nil_iff]
    simp [pattern?]
  apply bind_eq_ok.mpr
  use types.map .unbound, hcaptures
  rw [hnone]
  rfl

end ReturnCaptures
