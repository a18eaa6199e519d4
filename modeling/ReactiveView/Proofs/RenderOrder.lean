import ReactiveView.Proofs.KeptChildren
import ReactiveView.Proofs.KeyOrder

/-!
# The order of children

The children of a rendered view are those of the markers that were met, in the order of their keys.
That is the order in which the markers were met exactly if their keys ascend, as they do in bodies in
order (`Stmt.inOrderAll`).  On a page with children at the positions two and ten the last one is listed
first (`LongPage`).
-/

namespace ReactiveView

open List

/-! ## Keys determine components -/

mutual

theorem CoversStmt.exists_address {path : List String} {index : Nat} {s : Stmt}
    {visits : List RenderVisit} : CoversStmt path index s visits →
    ∀ m ∈ markers visits, ∃ a : Address, m.key = a.keyBelow path ∧
      a.component = m.marker.component
  | .plain _ | .closing | .code | .none => nofun
  | @CoversStmt.child _ _ marker _ _ _ => by
    intro m member
    cases mem_singleton.mp member
    exact ⟨⟨[], index, marker.component⟩, (Address.keyBelow_nil path index _).symm, rfl⟩
  | @CoversStmt.arm _ _ site _ _ _ arm _ _ inner => by
    intro m member
    obtain ⟨a, key, component⟩ := inner.exists_address m member
    have inside := a.keyBelow_inside path (.arm site arm.branchId)
    exact ⟨a.inside (.arm site arm.branchId), key.trans inside.symm, component⟩
  | .items each => each.exists_address

theorem Covers.exists_address {path : List String} {index : Nat} {body : List Stmt}
    {visits : List RenderVisit} : Covers path index body visits →
    ∀ m ∈ markers visits, ∃ a : Address, m.key = a.keyBelow path ∧
      a.component = m.marker.component
  | .nil => nofun
  | .cons head tail => by
    rw [markers_append, forall_mem_append]
    exact ⟨head.exists_address, tail.exists_address⟩

theorem CoversItems.exists_address {path : List String} {index count : Nat} {body : List Stmt}
    {visits : List RenderVisit} : CoversItems path body index count visits →
    ∀ m ∈ markers visits, ∃ a : Address, m.key = a.keyBelow path ∧
      a.component = m.marker.component
  | .nil => nofun
  | .cons head tail => by
    rw [markers_append, forall_mem_append]
    refine ⟨?_, tail.exists_address⟩
    intro m member
    obtain ⟨a, key, component⟩ := head.exists_address m member
    have inside := a.keyBelow_inside path (.item index)
    exact ⟨a.inside (.item index), key.trans inside.symm, component⟩

end

/-- Markers with one key are for the same component. -/
theorem Covers.component_eq {body : List Stmt} {visits : List RenderVisit}
    (covers : Covers [] 0 body visits) {m m' : MetMarker} (member : m ∈ markers visits)
    (member' : m' ∈ markers visits) (same : m.key = m'.key) :
    m.marker.component = m'.marker.component := by
  obtain ⟨a, key, component⟩ := covers.exists_address m member
  obtain ⟨a', key', component'⟩ := covers.exists_address m' member'
  have addresses : a = a' := Address.keyBelow_injective (by rw [← key, ← key', same])
  rw [← component, ← component', addresses]

/-! ## What a rendering lists -/

/-- A view has children for the markers that were met and no others, in the order of their keys.  Of
    the children of a component, the one with the least key is the first. -/
structure View.ListsByKey (v : View) (met : List MetMarker) : Prop where
  sorted : (v.keyedChildren.map (·.1)).Pairwise (· < ·)
  keys : ∀ key, key ∈ v.keyedChildren.map (·.1) ↔ key ∈ met.map (·.key)
  names : ∀ entry ∈ v.keyedChildren, ∀ m ∈ met, m.key = entry.1 → entry.2.name = m.marker.component
  missing : ∀ name, (∀ m ∈ met, m.marker.component ≠ name) → v.child? name = none
  least : ∀ m ∈ met,
    (∀ m' ∈ met, m'.marker.component = m.marker.component → m.key ≤ m'.key) →
    ∃ child, v.keyedChildren.lookup m.key = some child ∧ v.child? m.marker.component = some child

/-- A view has a child for each marker that was met, in the order in which they were met.  Of the
    children of a component, the one whose marker was met first is the first. -/
structure View.ListsByVisit (v : View) (met : List MetMarker) : Prop where
  children : v.keyedChildren.map (fun entry => (entry.1, entry.2.name)) =
    met.map fun m => (m.key, m.marker.component)
  first : ∀ name m, met.find? (·.marker.component = name) = some m →
    ∃ child, v.keyedChildren.lookup m.key = some child ∧ v.child? name = some child

namespace Catalog

variable {catalog : Catalog} {render : Renderer} {met : List MetMarker} {e e' : Execution}

/-- The children of an execution after markers were met. -/
structure Listing (met : List MetMarker) (e : Execution) : Prop where
  sorted : View.AreSorted e.children
  keys : ∀ key, key ∈ e.children.map (·.1) ↔ key ∈ met.map (·.key)
  named : ∀ entry ∈ e.children, ∃ m ∈ met, m.key = entry.1 ∧ entry.2.name = m.marker.component

theorem Listing.start (view : View) (w : World) : Listing [] (view.start w) :=
  ⟨.nil, fun _ => Iff.rfl, nofun⟩

theorem Listing.child (keeps : KeepsInstances render) (listing : Listing met e) {m : MetMarker}
    {provided : Provided} {bindings : List BoundArgument} {scope : ViewScope}
    {nodes : List ViewNode}
    (ran : (catalog.renderChild render provided m.key m.marker.component bindings scope).run.run e =
      (.ok nodes, e')) :
    Listing (met ++ [m]) e' := by
  obtain ⟨child, children, named, -, -⟩ := renderChild_keeps keeps ran
  constructor
  case sorted =>
    rw [children]
    exact listing.sorted.insertChild _ _
  case keys =>
    intro key
    rw [children, map_append, mem_append, ← listing.keys, map_singleton,
      mem_singleton]
    constructor
    · intro member
      obtain ⟨entry, isChild, rfl⟩ := mem_map.mp member
      exact (View.fst_of_mem_insertChild isChild).symm
    -- a child with another key stays, and one with this key is replaced
    · intro member
      by_cases same : key = m.key
      · exact mem_map.mpr ⟨(m.key, child), View.mem_insertChild_self _ _ _, same.symm⟩
      · obtain ⟨entry, isChild, rfl⟩ := mem_map.mp (member.resolve_right same)
        exact mem_map_of_mem (View.mem_insertChild_of_ne isChild same)
  case named =>
    intro entry member
    rw [children] at member
    have among := (View.perm_insertChild m.key child e.children).subset
      (mem_append_left _ member)
    cases mem_cons.mp among with
    | inl isNew => exact ⟨m, by simp, by rw [isNew], by rw [isNew, named]⟩
    | inr isOld =>
      obtain ⟨m', isMet, known⟩ := listing.named entry isOld
      exact ⟨m', mem_append_left _ isMet, known⟩

theorem Listing.sameViews (listing : Listing met e) (same : e.SameViews e') : Listing met e' := by
  obtain ⟨sorted, keys, named⟩ := listing
  rw [← same.children] at sorted named
  simp only [← same.children] at keys
  exact ⟨sorted, keys, named⟩

/-- Every execution lists the children of the markers that were met. -/
theorem Listing.follows (keeps : KeepsInstances render) {view : View} {provided : Provided}
    {c : Component} {visits : List RenderVisit}
    (follows : (catalog.runner render view provided c).Follows e visits e')
    (listing : Listing met e) : Listing (met ++ markers visits) e' := by
  induction follows generalizing met with
  | nil =>
    rw [markers, filterMap_nil, append_nil]
    exact listing
  | @child e e' last path index marker bindings locals nodes visits role ran _ ih =>
    have isMarker : markers (.child path index marker locals :: visits) =
        ⟨path, index, marker⟩ :: markers visits := rfl
    have added : Listing (met ++ [⟨path, index, marker⟩]) e' := listing.child keeps ran
    rw [isMarker, append_cons]
    exact ih added
  | choice recorded _ ih => exact ih (listing.sameViews (.of_activate recorded))
  | loop _ ih => exact ih listing

/-- A rendering lists the children of the markers that are met. -/
theorem render_listing {depth : Nat} {view view' : View} {provided : Provided} {w w' : World}
    (rendered : catalog.render depth view provided w = (.ok (), view', w')) :
    ∃ c, catalog.find? view.name = some c ∧
      Covers [] 0 c.render.body (catalog.visits depth view provided w) ∧
      ∃ e, view'.keyedChildren = e.children ∧
        Listing (markers (catalog.visits depth view provided w)) e := by
  cases depth with
  | zero => cases rendered
  | succ depth =>
    obtain ⟨c, nodes, e, found, ran, rfl, _⟩ := run_of_renderWith rendered
    obtain ⟨follows, covers⟩ := BodyRunner.visits_spec ran
    have listing := (Listing.start view w).follows (render_keepsInstances depth) follows
    simp only [visits, found]
    exact ⟨c, rfl, covers, e, rfl, listing⟩

end Catalog

namespace View

variable {v : View} {met : List MetMarker}

/-- The first child of a component is the one with the least key. -/
theorem child?_of_least {key : String} {child : View} (sorted : AreSorted v.keyedChildren)
    (member : (key, child) ∈ v.keyedChildren)
    (least : ∀ entry ∈ v.keyedChildren, entry.2.name = child.name → key ≤ entry.1) :
    v.child? child.name = some child := by
  obtain ⟨before, after, split⟩ := append_of_mem member
  -- A child before this one has a smaller key, so it is of another component.
  have others : before.find? (fun entry => entry.2.name = child.name) = none := by
    rw [List.find?_eq_none]
    intro entry isBefore
    rw [decide_eq_true_eq]
    intro same
    rw [AreSorted, split, map_append, map_cons, pairwise_append] at sorted
    have less := sorted.2.2 entry.1 (mem_map_of_mem isBefore) key mem_cons_self
    exact String.not_lt.mpr (least entry (by simp [split, isBefore]) same) less
  have found : v.keyedChildren.find? (fun entry => entry.2.name = child.name) = some (key, child) := by
    rw [split, List.find?_append, others]
    simp
  rw [child?, children, List.find?_map]
  simp only [Function.comp_def, found, Option.map_some]

theorem ListsByKey.of_listing {e : Execution} (children : v.keyedChildren = e.children)
    (listing : Catalog.Listing met e)
    (same : ∀ m ∈ met, ∀ m' ∈ met, m.key = m'.key → m.marker.component = m'.marker.component) :
    v.ListsByKey met := by
  obtain ⟨sorted, keys, named⟩ := listing
  rw [← children] at sorted named
  simp only [← children] at keys
  have names : ∀ entry ∈ v.keyedChildren, ∀ m ∈ met, m.key = entry.1 →
      entry.2.name = m.marker.component := by
    intro entry member m isMet isKey
    obtain ⟨m', isMet', isKey', name⟩ := named entry member
    rw [name, same m' isMet' m isMet (isKey'.trans isKey.symm)]
  refine ⟨sorted, keys, names, ?_, ?_⟩
  · intro name absent
    rw [child?, List.find?_eq_none]
    intro child member isName
    obtain ⟨entry, isEntry, rfl⟩ := mem_map.mp member
    obtain ⟨m, isMet, -, known⟩ := named entry isEntry
    exact absent m isMet (known.symm.trans (by simpa using isName))
  · intro m isMet least
    have isListed := (keys m.key).mpr (mem_map_of_mem isMet)
    obtain ⟨⟨key, child⟩, member, rfl⟩ := mem_map.mp isListed
    have name : child.name = m.marker.component := names _ member m isMet rfl
    refine ⟨child, lookup_of_mem sorted.nodup member, ?_⟩
    rw [← name]
    apply child?_of_least sorted member
    intro entry isEntry sameName
    obtain ⟨m', isMet', isKey', known⟩ := named entry isEntry
    rw [← isKey']
    exact least m' isMet' (by rw [← known, sameName, name])

/-- Lists with the same keys agree in what the keys determine. -/
theorem map_pair_eq {α β κ γ : Type} {l : List α} {l' : List β} {f : α → κ} {f' : β → κ}
    {g : α → γ} {g' : β → γ} (keys : l.map f = l'.map f')
    (values : ∀ a ∈ l, ∀ b ∈ l', f' b = f a → g a = g' b) :
    l.map (fun a => (f a, g a)) = l'.map fun b => (f' b, g' b) := by
  induction l generalizing l' with
  | nil =>
    cases l' with
    | nil => rfl
    | cons b l' => cases keys
  | cons a l ih =>
    cases l' with
    | nil => cases keys
    | cons b l' =>
      obtain ⟨key, later⟩ := List.cons.inj keys
      have value := values a mem_cons_self b mem_cons_self key.symm
      rw [map_cons, map_cons, key, value, ih later]
      intro a' isLater b' isLater'
      exact values a' (.tail _ isLater) b' (.tail _ isLater')

/-- If the keys of the markers ascend, then the order of keys is that in which they were met. -/
theorem ListsByVisit.of_ascending (lists : v.ListsByKey met)
    (ascending : (met.map (·.key)).Pairwise (· < ·)) : v.ListsByVisit met := by
  -- Two ascending lists with the same members are the same.
  have perm := (perm_ext_iff_of_nodup (nodup_of_ascending lists.sorted)
    (nodup_of_ascending ascending)).mpr lists.keys
  have keys : v.keyedChildren.map (·.1) = met.map (·.key) := by
    apply perm.eq_of_pairwise _ lists.sorted ascending
    intro a b _ _ less more
    exact absurd (String.lt_trans less more) (String.lt_irrefl a)
  refine ⟨map_pair_eq keys lists.names, ?_⟩
  intro name m found
  obtain ⟨isName, before, after, split, none⟩ := List.find?_eq_some_iff_append.mp found
  rw [decide_eq_true_eq] at isName
  subst isName
  apply lists.least m (by simp [split])
  intro m' isMet sameName
  rw [split, mem_append, mem_cons] at isMet
  obtain isBefore | rfl | isAfter := isMet
  · have other := none m' isBefore
    simp [sameName] at other
  · exact String.le_refl _
  · rw [split, map_append, map_cons, pairwise_append, pairwise_cons] at ascending
    exact Std.le_of_lt (ascending.2.1.1 m'.key (mem_map_of_mem isAfter))

theorem ListsByVisit.ascending (lists : v.ListsByVisit met)
    (sorted : (v.keyedChildren.map (·.1)).Pairwise (· < ·)) :
    (met.map (·.key)).Pairwise (· < ·) := by
  have keys := congrArg (List.map (·.1)) lists.children
  rw [map_map, map_map] at keys
  exact keys ▸ sorted

end View

/-- A rendered view has the children of the markers that were met, in the order of their keys.  That
    is the order in which they were met if and only if their keys ascend, as they do if the body of the
    component is in order and no loop has more than ten items. -/
theorem Catalog.render_lists {catalog : Catalog} {depth : Nat} {view view' : View}
    {provided : Provided} {w w' : World}
    (rendered : catalog.render depth view provided w = (.ok (), view', w')) :
    view'.ListsByKey (markers (catalog.visits depth view provided w)) ∧
    (view'.ListsByVisit (markers (catalog.visits depth view provided w)) ↔
      ((markers (catalog.visits depth view provided w)).map (·.key)).Pairwise (· < ·)) ∧
    ∀ c, catalog.find? view.name = some c → Stmt.inOrderAll 0 c.render.body = true →
      FewItems (catalog.visits depth view provided w) →
      view'.ListsByVisit (markers (catalog.visits depth view provided w)) := by
  obtain ⟨c, found, covers, e, children, listing⟩ := render_listing rendered
  have byKey := View.ListsByKey.of_listing children listing
    fun m isMet m' isMet' same => covers.component_eq isMet isMet' same
  refine ⟨byKey, ⟨fun lists => lists.ascending byKey.sorted, .of_ascending byKey⟩, ?_⟩
  intro c' found' ordered few
  cases found.symm.trans found'
  exact .of_ascending byKey (covers.ascending_keys ordered few)

/-! Pages with rows.  On the long page a row stands at the tenth position of the body; on the shelf the
rows stand at the front, in a loop and in a conditional. -/

namespace LongPage

open TwoLoops (row rowOf)

def page : Component where
  name := "Page"
  render := { body := [.element { name := "Text", args := [{ value := "'rows'" }] } [], rowOf "1",
    rowOf "2", rowOf "3", rowOf "4", rowOf "5"] }

def shelf : Component where
  name := "Shelf"
  members := [.field { name := "a", decorator := .state, initializer := some "[2, 3]" }]
  render := { body := [rowOf "1", .forEach { source := "this.a", itemVar := "x" } [rowOf "x"],
    .choice [⟨some "true", [rowOf "4"]⟩] {}] }

def file : Module := ⟨"rows.ets", [page, shelf, row]⟩

def catalog : Catalog := .ofOutput (file.lower {})

/-- A new view of a component, and the view after it is rendered. -/
def states? (name : String) : Option ((View × World) × View × World) :=
  match catalog.instantiate name {} {} with
  | (.ok view, w) =>
    match catalog.render 2 view [] w with
    | (.ok (), once) => some ((view, w), once)
    | _ => none
  | _ => none

theorem render_of_states? {name : String} {new once : View × World}
    (states : states? name = some (new, once)) :
    catalog.render 2 new.1 [] new.2 = (.ok (), once) := by
  unfold states? at states
  split at states
  next view w _ =>
    split at states
    next first rendered =>
      cases states
      exact rendered
    · cases states
  · cases states

end LongPage

theorem Catalog.render_lists_shelf :
    ∃ new once, LongPage.states? "Shelf" = some (new, once) ∧
      (markers (LongPage.catalog.visits 2 new.1 [] new.2)).map (·.key) =
        ["/0:Row", "i0/0:Row", "i1/0:Row", "s0b0/1:Row"] ∧
      once.1.ListsByVisit (markers (LongPage.catalog.visits 2 new.1 [] new.2)) := by
  have facts : (LongPage.states? "Shelf").map (fun s =>
      (s.1.1.name, (markers (LongPage.catalog.visits 2 s.1.1 [] s.1.2)).map (·.key),
        decisions (LongPage.catalog.visits 2 s.1.1 [] s.1.2))) =
      some ("Shelf", ["/0:Row", "i0/0:Row", "i1/0:Row", "s0b0/1:Row"],
        [.items 2, .arm 0 (some (0, 0))]) := by decide +kernel
  have component : (LongPage.catalog.find? "Shelf").map (Stmt.inOrderAll 0 ·.render.body) =
      some true := by decide +kernel
  obtain ⟨⟨new, once⟩, states, facts⟩ := Option.map_eq_some_iff.mp facts
  obtain ⟨c, found, ordered⟩ := Option.map_eq_some_iff.mp component
  simp only [Prod.mk.injEq] at facts
  obtain ⟨named, keys, made⟩ := facts
  rw [← named] at found
  have few : FewItems (LongPage.catalog.visits 2 new.1 [] new.2) := by
    intro count member
    simp [made] at member
    omega
  have lists := Catalog.render_lists (LongPage.render_of_states? states)
  exact ⟨new, once, states, keys, lists.2.2 c found ordered few⟩

/-- The rows of the long page are met in the order of their positions.  The row at the tenth position
    is listed first, and it is the one that is found for the component. -/
theorem LongPage.last_row_isFirst :
    ∃ new once, LongPage.states? "Page" = some (new, once) ∧
      (markers (LongPage.catalog.visits 2 new.1 [] new.2)).map (·.key) =
        ["/2:Row", "/4:Row", "/6:Row", "/8:Row", "/10:Row"] ∧
      once.1.keyedChildren.map (fun entry => (entry.1, entry.2.number)) =
        [("/10:Row", 5), ("/2:Row", 1), ("/4:Row", 2), ("/6:Row", 3), ("/8:Row", 4)] ∧
      (once.1.child? "Row").map (·.number) = some 5 := by
  have facts : (LongPage.states? "Page").map (fun s =>
      ((markers (LongPage.catalog.visits 2 s.1.1 [] s.1.2)).map (·.key),
        s.2.1.keyedChildren.map (fun entry => (entry.1, entry.2.number)),
        (s.2.1.child? "Row").map (·.number))) =
      some (["/2:Row", "/4:Row", "/6:Row", "/8:Row", "/10:Row"],
        [("/10:Row", 5), ("/2:Row", 1), ("/4:Row", 2), ("/6:Row", 3), ("/8:Row", 4)], some 5) := by
    decide +kernel
  obtain ⟨⟨new, once⟩, states, facts⟩ := Option.map_eq_some_iff.mp facts
  simp only [Prod.mk.injEq] at facts
  exact ⟨new, once, states, facts⟩

end ReactiveView
