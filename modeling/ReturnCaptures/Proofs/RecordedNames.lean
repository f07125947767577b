import ReturnCaptures.Proofs.RefusedItems
import ReturnCaptures.Proofs.StoppedScans
import ReturnCaptures.Proofs.Tiling

/-!
# The names that are recorded

A scan that comes to its end has found marked items, and in the body of each the marked items that
stand there. The expansion is written from them, each of them is edited once, and their names are
recorded, that of an item in front of those in its body. In this order the names stand in the text.
A mark that is not taken up stands inside of a marked item but not in its body, or in front of the
declaration that is inserted there.
-/

namespace ReturnCaptures

open TokenTree

/-! ### Marked items that stand inside of each other -/

/-- A marked item that a scan has found: where the text that is edited with it starts and ends, and
the marked items in its body. -/
structure MarkedItem where
  item : FunctionItem
  start : Nat
  stop : Nat
  inner : List MarkedItem

namespace MarkedItem

/-- The trees of the body in which further marked items may stand. -/
def openTrees (x : MarkedItem) : List TokenTree := (Expansion.ofItem x.item).openTrees

mutual

/-- A marked item and, behind it, those in its body, at any depth. -/
def listed : MarkedItem → List MarkedItem
  | ⟨item, start, stop, inner⟩ => ⟨item, start, stop, inner⟩ :: listedAll inner

/-- Several marked items, each in front of those in its body. -/
def listedAll : List MarkedItem → List MarkedItem
  | [] => []
  | x :: found => x.listed ++ listedAll found

end

mutual

/-- The edit that expands a marked item, with those in its body expanded too. -/
def edit (text : List Char) : MarkedItem → Edit
  | ⟨item, start, stop, inner⟩ =>
    ⟨start, stop, (Expansion.ofItem item).textWith text (editAll text inner)⟩

/-- The edits that expand several marked items. -/
def editAll (text : List Char) : List MarkedItem → List Edit
  | [] => []
  | x :: found => x.edit text :: editAll text found

end

section Listed

variable {x y : MarkedItem} {found found' : List MarkedItem} {text : List Char} {edit : Edit}

theorem listedAll_cons :
  listedAll (x :: found) = x :: (listedAll x.inner ++ listedAll found)
  := by
  cases x
  rfl

theorem listedAll_append :
  listedAll (found ++ found') = listedAll found ++ listedAll found'
  := by
  induction found with
  | nil => rfl
  | cons x found ih => rw [List.cons_append, listedAll, ih, listedAll, List.append_assoc]

theorem mem_listedAll_cons :
  y ∈ listedAll (x :: found) ↔ y = x ∨ y ∈ listedAll x.inner ∨ y ∈ listedAll found
  := by rw [listedAll_cons, List.mem_cons, List.mem_append]

theorem editAll_cons :
  editAll text (x :: found) =
    ⟨x.start, x.stop, (Expansion.ofItem x.item).textWith text (editAll text x.inner)⟩ ::
      editAll text found
  := by
  cases x
  rfl

theorem editAll_append :
  editAll text (found ++ found') = editAll text found ++ editAll text found'
  := by
  induction found with
  | nil => rfl
  | cons x found ih => rw [List.cons_append, editAll, ih, editAll, List.cons_append]

theorem exists_of_mem_editAll (h : edit ∈ editAll text found) :
  ∃ x ∈ found,
    edit = ⟨x.start, x.stop, (Expansion.ofItem x.item).textWith text (editAll text x.inner)⟩
  := by
  induction found with
  | nil => cases h
  | cons x found ih =>
      rw [editAll_cons, List.mem_cons] at h
      rcases h with rfl | h
      · exact ⟨x, List.mem_cons_self, rfl⟩
      · obtain ⟨y, hy, hedit⟩ := ih h
        exact ⟨y, List.mem_cons_of_mem _ hy, hedit⟩

theorem mem_listedAll_of_mem (h : x ∈ found) :
  x ∈ listedAll found
  := by
  induction found with
  | nil => cases h
  | cons y found ih =>
      rw [mem_listedAll_cons]
      rcases List.mem_cons.mp h with rfl | h
      · exact .inl rfl
      · exact .inr (.inr (ih h))

end Listed

/-- A marked item takes up some trees in front of others: it is read from them, and they reach from
where it starts to where it stops. -/
structure TakesUp (x : MarkedItem) (source : Source) (u after : List TokenTree) : Prop where
  read : source.itemAt (u ++ after) = .ok (some (x.item, after))
  spans : Spans u x.start x.stop

/-- A marked item stands at a place among trees. -/
def StandsAmong (x : MarkedItem) (source : Source) (trees : List TokenTree) : Prop :=
  ∃ u after, Occurs (u ++ after) trees ∧ x.TakesUp source u after

/-- A place at which a marked item is not looked for since it stands inside of another one, but not
in the part of its body that is looked at. -/
structure PassesOver (x : MarkedItem) (tree : TokenTree) (rest : List TokenTree) : Prop where
  behind : x.start < tree.span.start
  before : tree.span.start < x.stop
  outside : ¬ Occurs (tree :: rest) x.openTrees

end MarkedItem

open MarkedItem

namespace Source

/-- A call of a marker macro or a marker attribute stands in front of trees. -/
def MarkedAt (source : Source) (trees : List TokenTree) : Prop :=
  (∃ call, site? source.markers trees = some (.invocation call)) ∨
    site? source.markers trees = some .attribute

/-- Marked items account for a place among trees: one of them starts there exactly if there is a
mark and none of them passes over it. -/
def Accounts (source : Source) (items : List MarkedItem) (tree : TokenTree)
    (rest : List TokenTree) : Prop :=
  (∃ x ∈ items, x.start = tree.span.start) ↔
    source.MarkedAt (tree :: rest) ∧ ∀ x ∈ items, ¬ x.PassesOver tree rest

/-- The marked items that trees hold, side by side and inside of each other. -/
inductive Holds (source : Source) : List TokenTree → List MarkedItem → Prop
  | nil : Holds source [] []
  | marked {u after : List TokenTree} {x : MarkedItem} {found : List MarkedItem} :
      x.TakesUp source u after → Holds source x.openTrees x.inner → Holds source after found →
      Holds source (u ++ after) (x :: found)
  | token {t : Token} {rest : List TokenTree} {found : List MarkedItem} :
      source.itemAt (.token t :: rest) = .ok none → Holds source rest found →
      Holds source (.token t :: rest) found
  | group {d : Delimiter} {inside rest : List TokenTree} {opening closing : Span}
      {inner found : List MarkedItem} :
      source.itemAt (.group d inside opening closing :: rest) = .ok none →
      Holds source inside inner → Holds source rest found →
      Holds source (.group d inside opening closing :: rest) (inner ++ found)

end Source

/-! ### Trees that a marked item takes up -/

namespace MarkedItem

variable {source : Source} {trees trees' u after rest : List TokenTree} {tree : TokenTree}
  {x : MarkedItem} {m n : Nat}

/-- The first of the trees that a marked item takes up is in front of its name and of its body. -/
theorem TakesUp.exists_cons (h : x.TakesUp source u after) :
  ∃ first v, u = first :: v ∧ first.span.start = x.start ∧
    (∀ w, Occurs x.openTrees (v ++ w)) ∧
    (x.item.nameToken :: tokensAll x.openTrees).Sublist (tokensAll v)
  := by
  obtain ⟨first, v, htrees, hopen, hname⟩ := Source.exists_of_itemAt h.read
  obtain rfl : u = first :: v := List.append_cancel_right htrees
  exact ⟨first, v, rfl, Option.some.inj h.spans.1, hopen, hname⟩

theorem TakesUp.occurs_openTrees (h : x.TakesUp source u after) :
  Occurs x.openTrees (u ++ after)
  := by
  obtain ⟨first, v, rfl, -, hopen, -⟩ := h.exists_cons
  exact (hopen after).behind

/-- The name of a marked item is in front of its body. -/
theorem TakesUp.name_sublist (h : x.TakesUp source u after) :
  (x.item.nameToken :: tokensAll x.openTrees).Sublist (tokensAll u)
  := by
  obtain ⟨first, v, rfl, -, -, hname⟩ := h.exists_cons
  rw [tokensAll]
  exact hname.trans (List.sublist_append_right _ _)

/-- The body of a marked item stands between its start and its stop, and what follows it stands
behind it. -/
theorem TakesUp.ordered (h : x.TakesUp source u after) (hplaces : Ordered m n (u ++ after)) :
  m ≤ x.start ∧ x.start < x.stop ∧ Ordered m x.stop u ∧ Ordered x.stop n after ∧
    ∃ k l, x.start < k ∧ l ≤ x.stop ∧ Ordered k l x.openTrees
  := by
  obtain ⟨last, hlast, hstop⟩ := Option.map_eq_some_iff.mp h.spans.2
  obtain ⟨first, v, rfl, hstart, hopen, -⟩ := h.exists_cons
  obtain ⟨hm, hlt, hafter⟩ := hplaces.of_append rfl hlast
  have htaken := hplaces.of_append_left hlast
  rw [hstart] at hm hlt
  rw [hstop] at hlt hafter htaken
  obtain ⟨-, hfirst, hv⟩ := htaken.of_cons
  have hopen := hopen []
  rw [List.append_nil] at hopen
  obtain ⟨k, l, hk, hl, hopen⟩ := hopen.exists_ordered hv
  exact ⟨hm, hlt, htaken, hafter, k, l, by omega, hl, hopen⟩

theorem StandsAmong.of_occurs (h : x.StandsAmong source trees) (htrees : Occurs trees trees') :
  x.StandsAmong source trees'
  := by
  obtain ⟨u, after, hplace, htakes⟩ := h
  exact ⟨u, after, hplace.trans htrees, htakes⟩

/-- A marked item in whose stretch of the text a place does not stand has nothing to do with it. -/
theorem apart_of_disjoint (hlt : x.start < x.stop)
    (h : x.stop ≤ tree.span.start ∨ tree.span.start < x.start) :
  x.start ≠ tree.span.start ∧ ¬ x.PassesOver tree rest
  := by
  constructor
  · omega
  · rintro ⟨hbehind, hbefore, -⟩
    omega

end MarkedItem

namespace Source

variable {source : Source} {trees u after rest : List TokenTree} {tree : TokenTree}
  {item : FunctionItem} {x : MarkedItem} {items items' found : List MarkedItem}
  {edits : List Edit} {names : List String} {m n : Nat}

theorem markedAt_of_itemAt (h : source.itemAt trees = .ok (some (item, after))) :
  source.MarkedAt trees
  := by
  obtain ⟨call, hsite, -⟩ | ⟨_, hsite, -⟩ := itemAt_eq_some h
  · exact .inl ⟨call, hsite⟩
  · exact .inr hsite

theorem not_markedAt_of_itemAt (h : source.itemAt trees = .ok none) :
  ¬ source.MarkedAt trees
  := by
  rw [MarkedAt, site?_of_itemAt h]
  simp

/-! ### From the edits to the marked items -/

theorem takesUp_of_itemAt {last : TokenTree} (inner : List MarkedItem)
    (h : source.itemAt (tree :: rest) = .ok (some (item, after)))
    (htrees : tree :: rest = u ++ after) (hlast : u.getLast? = some last) :
  TakesUp ⟨item, tree.span.start, last.span.stop, inner⟩ source u after
  := by
  cases u with
  | nil => cases hlast
  | cons first u =>
      obtain ⟨rfl, -⟩ := List.cons_eq_cons.mp htrees
      rw [htrees] at h
      exact ⟨h, rfl, by rw [hlast, Option.map_some]⟩

/-- The edits and the names that a scan finds are those of the marked items that the trees hold. -/
theorem Marks.exists_holds (h : source.Marks trees edits names) :
  ∃ found, source.Holds trees found ∧ editAll source.text found = edits ∧
    (listedAll found).map (·.item.name) = names
  := by
  induction h with
  | nil => exact ⟨[], .nil, rfl, rfl⟩
  | called hcall hitem _ _ ihinner ih =>
      obtain ⟨inner, hinner, rfl, rfl⟩ := ihinner
      obtain ⟨found, hfound, rfl, rfl⟩ := ih
      obtain ⟨u, last, htrees, hlast, hstop⟩ := hcall.exists_extent
      have htakes := takesUp_of_itemAt inner (itemAt_of_leads hcall hitem) htrees hlast
      rw [← hstop, htrees]
      exact ⟨_, .marked htakes hinner hfound, editAll_cons, by simp [listedAll_cons]⟩
  | attributed hsite hitem _ _ ihinner ih =>
      obtain ⟨inner, hinner, rfl, rfl⟩ := ihinner
      obtain ⟨found, hfound, rfl, rfl⟩ := ih
      obtain ⟨u, last, htrees, hlast, hstop⟩ := FunctionItem.exists_extent_of_readAt hitem
      have htakes := takesUp_of_itemAt inner (itemAt_of_attribute hsite hitem) htrees hlast
      rw [← hstop, htrees]
      exact ⟨_, .marked htakes hinner hfound, editAll_cons, by simp [listedAll_cons]⟩
  | token hsite _ ih =>
      obtain ⟨found, hfound, rfl, rfl⟩ := ih
      exact ⟨found, .token (itemAt_of_unmarked hsite) hfound, rfl, rfl⟩
  | group hsite _ _ ihinner ih =>
      obtain ⟨inner, hinner, rfl, rfl⟩ := ihinner
      obtain ⟨found, hfound, rfl, rfl⟩ := ih
      refine ⟨_, .group (itemAt_of_unmarked hsite) hinner hfound, editAll_append, ?_⟩
      rw [listedAll_append, List.map_append]

/-! ### The order of the names -/

/-- The marked items that trees hold start and stop between their ends. -/
theorem Holds.bounds (h : source.Holds trees found) (hplaces : TokenTree.Ordered m n trees) :
  ∀ x ∈ listedAll found, m ≤ x.start ∧ x.start < x.stop ∧ x.stop ≤ n
  := by
  induction h generalizing m n with
  | nil => simp [listedAll]
  | marked htakes _ _ ihinner ih =>
      obtain ⟨hm, hlt, -, hafter, k, l, hk, hl, hopen⟩ := htakes.ordered hplaces
      have hn := hafter.le
      intro y hy
      rcases mem_listedAll_cons.mp hy with rfl | hy | hy
      · exact ⟨hm, hlt, hn⟩
      · have hy := ihinner hopen y hy
        omega
      · have hy := ih hafter y hy
        omega
  | token _ _ ih =>
      obtain ⟨hm, hlt, hrest⟩ := hplaces.of_cons
      intro y hy
      have hy := ih hrest y hy
      omega
  | group _ _ _ ihinner ih =>
      obtain _ | _ | ⟨hm, hlt, hinside, hlt', hrest⟩ := hplaces
      have hle := hinside.le
      have hn := hrest.le
      intro y hy
      rw [listedAll_append, List.mem_append] at hy
      rcases hy with hy | hy
      · have hy := ihinner hinside y hy
        omega
      · have hy := ih hrest y hy
        omega

/-- Marked items are listed in the order in which they start. -/
theorem Holds.pairwise_start (h : source.Holds trees found)
    (hplaces : TokenTree.Ordered m n trees) :
  (listedAll found).Pairwise fun x y => x.start < y.start
  := by
  induction h generalizing m n with
  | nil => exact .nil
  | marked htakes hinner hfound ihinner ih =>
      obtain ⟨-, hlt, -, hafter, k, l, hk, hl, hopen⟩ := htakes.ordered hplaces
      rw [listedAll_cons, List.pairwise_cons, List.pairwise_append]
      refine ⟨fun y hy => ?_, ihinner hopen, ih hafter, fun y hy z hz => ?_⟩
      · rcases List.mem_append.mp hy with hy | hy
        · have hy := hinner.bounds hopen y hy
          omega
        · have hy := hfound.bounds hafter y hy
          omega
      · have hy := hinner.bounds hopen y hy
        have hz := hfound.bounds hafter z hz
        omega
  | token _ _ ih => exact ih hplaces.of_cons.2.2
  | group _ hinner hfound ihinner ih =>
      obtain _ | _ | ⟨-, -, hinside, hlt, hrest⟩ := hplaces
      rw [listedAll_append, List.pairwise_append]
      refine ⟨ihinner hinside, ih hrest, fun y hy z hz => ?_⟩
      have hy := hinner.bounds hinside y hy
      have hz := hfound.bounds hrest z hz
      omega

/-- The names of the marked items that trees hold stand among their tokens in the order in which
they are listed. -/
theorem Holds.names_sublist (h : source.Holds trees found) :
  ((listedAll found).map (·.item.nameToken)).Sublist (tokensAll trees)
  := by
  induction h with
  | nil => exact List.nil_sublist _
  | marked htakes _ _ ihinner ih =>
      rw [listedAll_cons, List.map_cons, List.map_append, ← List.cons_append, tokensAll_append]
      exact ((ihinner.cons_cons _).trans htakes.name_sublist).append ih
  | token _ _ ih =>
      rw [tokensAll]
      exact ih.trans (List.sublist_append_right _ _)
  | group _ _ _ ihinner ih =>
      rw [listedAll_append, List.map_append, tokensAll, tokens]
      exact ((ihinner.trans (List.sublist_append_left _ _)).cons _).append ih

/-- The names of the marked items that the trees of a text hold stand in it in the order in which
they are listed. -/
theorem Holds.pairwise_name (h : source.Holds trees found)
    (htrees : TokenTree.ofText source.file source.text = .ok trees) :
  (listedAll found).Pairwise fun x y =>
    x.item.nameToken.span.start < y.item.nameToken.span.start
  := by
  have hordered := ordered_of_tokensOf (tokensOf_of_ofText htrees).1
  have hstarts : (tokensAll trees).Pairwise fun s t => s.span.start < t.span.start := by
    apply hordered.pairwise.imp_of_mem
    intro s t hs _ hle
    exact Nat.lt_of_lt_of_le (hordered.start_lt hs) hle
  have hnames := hstarts.sublist h.names_sublist
  rwa [List.pairwise_map] at hnames

theorem Holds.textIn_name (h : source.Holds trees found)
    (htrees : TokenTree.ofText source.file source.text = .ok trees) :
  ∀ x ∈ listedAll found, x.item.nameToken.span.textIn source.text = x.item.name.toList
  := by
  intro x hx
  have htiles := (tiles_of_tokensOf (tokensOf_of_ofText htrees).1).1
  exact htiles.textIn_eq (h.names_sublist.subset (List.mem_map_of_mem hx))

/-! ### Marked items are determined by the trees -/

theorem Holds.eq_nil (h : source.Holds [] found) :
  found = []
  := by
  generalize htrees : ([] : List TokenTree) = trees at h
  cases h with
  | nil => rfl
  | marked htakes =>
      obtain ⟨_, _, rfl, -⟩ := htakes.exists_cons
      cases htrees
  | token => cases htrees
  | group => cases htrees

/-- Where a marked item starts, trees hold it. -/
theorem Holds.of_takesUp (h : source.Holds (u ++ after) found) (htakes : x.TakesUp source u after) :
  ∃ inner found', found = ⟨x.item, x.start, x.stop, inner⟩ :: found' ∧
    source.Holds x.openTrees inner ∧ source.Holds after found'
  := by
  have hread := htakes.read
  generalize htrees : u ++ after = trees at h hread
  cases h with
  | nil =>
      obtain ⟨_, _, rfl, -⟩ := htakes.exists_cons
      cases htrees
  | @marked u' _ x' found' htakes' hinner hfound' =>
      have hread' := htakes'.read
      rw [hread] at hread'
      obtain ⟨hitem, rfl⟩ := Prod.mk.inj (Option.some.inj (Except.ok.inj hread'))
      obtain rfl := List.append_cancel_right htrees
      have hstart := Option.some.inj (htakes.spans.1.symm.trans htakes'.spans.1)
      have hstop := Option.some.inj (htakes.spans.2.symm.trans htakes'.spans.2)
      refine ⟨x'.inner, found', ?_, ?_, hfound'⟩
      · rw [hitem, hstart, hstop]
        cases x'
        rfl
      · rwa [MarkedItem.openTrees, hitem]
  | token hsite =>
      rw [hread] at hsite
      cases hsite
  | group hsite =>
      rw [hread] at hsite
      cases hsite

theorem Holds.of_token {t : Token} (h : source.Holds (.token t :: trees) found)
    (hsite : source.itemAt (.token t :: trees) = .ok none) :
  source.Holds trees found
  := by
  generalize htrees : TokenTree.token t :: trees = place at h hsite
  cases h with
  | nil => cases htrees
  | marked htakes =>
      rw [htakes.read] at hsite
      cases hsite
  | token _ hfound =>
      obtain ⟨-, rfl⟩ := List.cons_eq_cons.mp htrees
      exact hfound
  | group => cases htrees

/-- Where a group starts no marked item, trees hold those inside of it and those behind it. -/
theorem Holds.of_group {d : Delimiter} {inside : List TokenTree} {opening closing : Span}
    (h : source.Holds (.group d inside opening closing :: trees) found)
    (hsite : source.itemAt (.group d inside opening closing :: trees) = .ok none) :
  ∃ inner found', found = inner ++ found' ∧ source.Holds inside inner ∧ source.Holds trees found'
  := by
  generalize htrees : TokenTree.group d inside opening closing :: trees = place at h hsite
  cases h with
  | nil => cases htrees
  | marked htakes =>
      rw [htakes.read] at hsite
      cases hsite
  | token => cases htrees
  | group _ hinner hfound =>
      obtain ⟨⟨⟩, rfl⟩ := List.cons_eq_cons.mp htrees
      exact ⟨_, _, rfl, hinner, hfound⟩

/-- Trees hold the same marked items however they are found. -/
theorem Holds.unique {found' : List MarkedItem} (h : source.Holds trees found)
    (h' : source.Holds trees found') :
  found' = found
  := by
  induction h generalizing found' with
  | nil => exact h'.eq_nil
  | @marked _ _ x _ htakes _ _ ihopen ih =>
      obtain ⟨inner, found', rfl, hinner, hfound'⟩ := h'.of_takesUp htakes
      rw [ihopen hinner, ih hfound']
      cases x
      rfl
  | token hsite _ ih => exact ih (h'.of_token hsite)
  | group hsite _ _ ihinside ih =>
      obtain ⟨inner, found', rfl, hinner, hfound'⟩ := h'.of_group hsite
      rw [ihinside hinner, ih hfound']

/-! ### Which marks are taken up -/

/-- All marked items that trees hold stand among them. -/
theorem Holds.standsAmong (h : source.Holds trees found) :
  ∀ x ∈ listedAll found, x.StandsAmong source trees
  := by
  induction h with
  | nil => simp [listedAll]
  | @marked u after x _ htakes _ _ ihinner ih =>
      intro y hy
      rcases mem_listedAll_cons.mp hy with rfl | hy | hy
      · exact ⟨u, after, .here, htakes⟩
      · exact (ihinner y hy).of_occurs htakes.occurs_openTrees
      · exact (ih y hy).of_occurs (.of_isSuffix (List.suffix_append _ _))
  | token _ _ ih => exact fun y hy => (ih y hy).of_occurs (.behind .here)
  | group _ _ _ ihinner ih =>
      intro y hy
      rw [listedAll_append, List.mem_append] at hy
      rcases hy with hy | hy
      · exact (ihinner y hy).of_occurs (.inside .here)
      · exact (ih y hy).of_occurs (.behind .here)

/-- Marked items that have nothing to do with a place make no difference to whether it is accounted
for. -/
theorem Accounts.of_subset (h : source.Accounts items tree rest) (hsub : items ⊆ items')
    (hother : ∀ x ∈ items', x ∈ items ∨ x.start ≠ tree.span.start ∧ ¬ x.PassesOver tree rest) :
  source.Accounts items' tree rest
  := by
  constructor
  · rintro ⟨x, hx, hstart⟩
    have hx := (hother x hx).resolve_right fun hne => hne.1 hstart
    obtain ⟨hmarked, hpasses⟩ := h.mp ⟨x, hx, hstart⟩
    refine ⟨hmarked, fun y hy hover => ?_⟩
    rcases hother y hy with hy | hy
    · exact hpasses y hy hover
    · exact hy.2 hover
  · rintro ⟨hmarked, hpasses⟩
    obtain ⟨x, hx, hstart⟩ := h.mpr ⟨hmarked, fun x hx => hpasses x (hsub hx)⟩
    exact ⟨x, hsub hx, hstart⟩

/-- Marked items one behind the other account for a place if those account for it in whose part of
the text it stands. -/
theorem accounts_append (k : Nat) (hitems : ∀ x ∈ items, x.start < x.stop ∧ x.stop ≤ k)
    (hitems' : ∀ x ∈ items', k ≤ x.start ∧ x.start < x.stop)
    (h : tree.span.start < k → source.Accounts items tree rest)
    (h' : k ≤ tree.span.start → source.Accounts items' tree rest) :
  source.Accounts (items ++ items') tree rest
  := by
  rcases Nat.lt_or_ge tree.span.start k with hlt | hge
  · apply (h hlt).of_subset (List.subset_append_left _ _)
    intro x hx
    rcases List.mem_append.mp hx with hx | hx
    · exact .inl hx
    · have hx := hitems' x hx
      exact .inr (apart_of_disjoint hx.2 (.inr (by omega)))
  · apply (h' hge).of_subset (List.subset_append_right _ _)
    intro x hx
    rcases List.mem_append.mp hx with hx | hx
    · have hx := hitems x hx
      exact .inr (apart_of_disjoint hx.1 (.inl (by omega)))
    · exact .inl hx

theorem accounts_of_unmarked (h : source.itemAt (tree :: rest) = .ok none)
    (hitems : ∀ x ∈ items, tree.span.start < x.start) :
  source.Accounts items tree rest
  := by
  constructor
  · rintro ⟨x, hx, hstart⟩
    exact absurd hstart (Nat.ne_of_gt (hitems x hx))
  · rintro ⟨hmarked, -⟩
    exact absurd hmarked (not_markedAt_of_itemAt h)

theorem accounts_of_marked (h : source.itemAt (tree :: rest) = .ok (some (item, after)))
    (hx : x ∈ items) (hstart : x.start = tree.span.start)
    (hitems : ∀ y ∈ items, tree.span.start ≤ y.start) :
  source.Accounts items tree rest
  := by
  constructor
  · intro _
    refine ⟨markedAt_of_itemAt h, fun y hy hover => ?_⟩
    exact absurd hover.behind (Nat.not_lt_of_ge (hitems y hy))
  · intro _
    exact ⟨x, hx, hstart⟩

theorem accounts_of_passesOver (h : x.PassesOver tree rest) (hx : x ∈ items)
    (hitems : ∀ y ∈ items, y.start ≠ tree.span.start) :
  source.Accounts items tree rest
  := by
  constructor
  · rintro ⟨y, hy, hstart⟩
    exact absurd hstart (hitems y hy)
  · rintro ⟨-, hpasses⟩
    exact absurd h (hpasses x hx)

/-- A marked item and those in its body account for every place in front of where it stops. -/
theorem accounts_of_takesUp (htakes : x.TakesUp source u after)
    (hinner : source.Holds x.openTrees x.inner) (hplaces : TokenTree.Ordered m n (u ++ after))
    (hplace : Occurs (tree :: rest) (u ++ after)) (hbefore : tree.span.start < x.stop)
    (hopen : Occurs (tree :: rest) x.openTrees → source.Accounts (listedAll x.inner) tree rest) :
  source.Accounts (x :: listedAll x.inner) tree rest
  := by
  obtain ⟨-, hlt, -, -, k, l, hk, hl, hbody⟩ := htakes.ordered hplaces
  have hbounds := hinner.bounds hbody
  by_cases hfront : tree.span.start ≤ x.start
  · -- no place is in front of that of the item itself
    obtain ⟨first, v, rfl, hfirst, -⟩ := htakes.exists_cons
    have heq : tree :: rest = first :: (v ++ after) := hplace.eq_of_le hplaces (by omega)
    obtain ⟨rfl, rfl⟩ := List.cons_eq_cons.mp heq
    apply accounts_of_marked htakes.read List.mem_cons_self hfirst.symm
    rw [List.forall_mem_cons]
    refine ⟨by omega, fun y hy => ?_⟩
    have hy := hbounds y hy
    omega
  by_cases hin : Occurs (tree :: rest) x.openTrees
  · apply (hopen hin).of_subset (List.subset_cons_self _ _)
    rw [List.forall_mem_cons]
    exact ⟨.inr ⟨by omega, fun hover => hover.outside hin⟩, fun y hy => .inl hy⟩
  · apply accounts_of_passesOver ⟨by omega, hbefore, hin⟩ List.mem_cons_self
    rw [List.forall_mem_cons]
    refine ⟨by omega, fun y hy hstart => hin ?_⟩
    -- the place would be that of an item in the body
    obtain ⟨w, after', hplace', htakes'⟩ := hinner.standsAmong y hy
    obtain ⟨first, v, rfl, hfirst, -⟩ := htakes'.exists_cons
    have heq : tree :: rest = first :: (v ++ after') :=
      hplace.eq_of_start_eq (hplace'.trans htakes.occurs_openTrees) hplaces (by omega)
    rw [heq]
    exact hplace'

/-- The marked items that trees hold account for all places among these. -/
theorem Holds.accounts (h : source.Holds trees found) (hplaces : TokenTree.Ordered m n trees)
    (hplace : Occurs (tree :: rest) trees) :
  source.Accounts (listedAll found) tree rest
  := by
  induction h generalizing m n with
  | nil => cases hplace
  | @marked _ _ x _ htakes hinner hfound ihinner ih =>
      obtain ⟨-, hlt, htaken, hafter, k, l, hk, hl, hopen⟩ := htakes.ordered hplaces
      rw [listedAll_cons, ← List.cons_append]
      refine accounts_append x.stop ?_ (fun y hy => ?_) (fun hbefore => ?_) fun hbehind => ?_
      · rw [List.forall_mem_cons]
        refine ⟨⟨hlt, Nat.le_refl _⟩, fun y hy => ?_⟩
        have hy := hinner.bounds hopen y hy
        omega
      · have hy := hfound.bounds hafter y hy
        omega
      · exact accounts_of_takesUp htakes hinner hplaces hplace hbefore (ihinner hopen)
      · obtain hplace | ⟨_, hplace⟩ := hplace.of_append
        · exact ih hafter hplace
        · have hstart := hplace.start_mem htaken
          omega
  | token hitem hfound ih =>
      obtain ⟨-, hlt, hrest⟩ := hplaces.of_cons
      cases hplace with
      | here =>
          apply accounts_of_unmarked hitem
          intro y hy
          have hy := hfound.bounds hrest y hy
          omega
      | behind hplace => exact ih hrest hplace
  | @group d inside _ opening closing _ _ hitem hinner hfound ihinner ih =>
      obtain _ | _ | ⟨-, hlt, hinside, hlt', hrest⟩ := id hplaces
      have hle := hinside.le
      rw [listedAll_append]
      refine accounts_append closing.stop (fun y hy => ?_) (fun y hy => ?_)
        (fun hbefore => ?_) fun hbehind => ?_
      · have hy := hinner.bounds hinside y hy
        omega
      · have hy := hfound.bounds hrest y hy
        omega
      · cases hplace with
        | here =>
            apply accounts_of_unmarked hitem
            intro y hy
            have hy := hinner.bounds hinside y hy
            exact Nat.lt_of_lt_of_le hlt hy.1
        | behind hplace =>
            have hstart := hplace.start_mem hrest
            omega
        | inside hplace => exact ihinner hinside hplace
      · cases hplace with
        | here =>
            have hstart : closing.stop ≤ opening.start := hbehind
            omega
        | behind hplace => exact ih hrest hplace
        | inside hplace =>
            have hstart := hplace.start_mem hinside
            omega

/-- An expansion that succeeds records the names of the marked items that it has expanded, those in
the bodies of others included, each of them once and in the order in which they stand in the text;
and it expands every marked item that no other one passes over. -/
theorem expand_records {before after : List String} {out : List Char}
    (h : source.expand.run before = .ok out after) :
  ∃ trees found,
    TokenTree.ofText source.file source.text = .ok trees ∧
    source.Holds trees found ∧
    out = splice source.text 0 source.text.length (editAll source.text found) ∧
    after = before ++ (listedAll found).map (·.item.name) ∧
    ((listedAll found).Pairwise fun x y => x.start < y.start ∧
      x.item.nameToken.span.start < y.item.nameToken.span.start) ∧
    (∀ x ∈ listedAll found, x.StandsAmong source trees ∧
      x.item.nameToken.span.textIn source.text = x.item.name.toList) ∧
    ∀ tree rest, Occurs (tree :: rest) trees → source.Accounts (listedAll found) tree rest
  := by
  obtain ⟨trees, _, _, htrees, hmarks, rfl, rfl⟩ := expand_run_eq_ok.mp h
  obtain ⟨found, hfound, rfl, rfl⟩ := hmarks.exists_holds
  have hplaces := ordered_of_ofText htrees
  refine ⟨trees, found, htrees, hfound, rfl, rfl,
    (hfound.pairwise_start hplaces).and (hfound.pairwise_name htrees), fun x hx => ?_, ?_⟩
  · exact ⟨hfound.standsAmong x hx, hfound.textIn_name htrees x hx⟩
  · intro tree rest hplace
    exact hfound.accounts hplaces hplace

theorem expand_records_nested :
  ∃ (source : Source) (out : List Char) (trees : List TokenTree) (found : List MarkedItem),
    source.text =
      "m!(fn f() -> (a: A) { #![m!()] m! { fn g() -> () { } } a }); #[n] fn h() -> (B) { }".toList ∧
    source.expand.run [] = .ok out ["f", "g", "h"] ∧
    out = "fn f() -> A { #![m!()] let a: A; fn g() { } a } fn h() -> B { }".toList ∧
    TokenTree.ofText source.file source.text = .ok trees ∧
    source.Holds trees found ∧
    out = splice source.text 0 source.text.length (editAll source.text found) ∧
    ["f", "g", "h"] = (listedAll found).map (·.item.name) ∧
    ((listedAll found).Pairwise fun x y => x.start < y.start ∧
      x.item.nameToken.span.start < y.item.nameToken.span.start) ∧
    ∀ tree rest, Occurs (tree :: rest) trees → source.Accounts (listedAll found) tree rest
  := by
  obtain ⟨out, names, hrun, hout⟩ := Recording.exists_of_any
    (x := (Source.mk "f.rs"
      "m!(fn f() -> (a: A) { #![m!()] m! { fn g() -> () { } } a }); #[n] fn h() -> (B) { }".toList
      ⟨.members ["m"], .members ["n"]⟩).expand)
    (s := [])
    (p := fun out names =>
      out == "fn f() -> A { #![m!()] let a: A; fn g() { } a } fn h() -> B { }".toList &&
        names == ["f", "g", "h"])
    (by decide +kernel)
  simp only [Bool.and_eq_true, beq_iff_eq] at hout
  obtain ⟨rfl, rfl⟩ := hout
  obtain ⟨trees, found, htrees, hfound, hsplice, hnames, hpairwise, -, haccounts⟩ :=
    expand_records hrun
  exact ⟨_, _, trees, found, rfl, hrun, rfl, htrees, hfound, hsplice, hnames, hpairwise, haccounts⟩

end Source

end ReturnCaptures
