import ReactiveView.Proofs.CleanModules
import ReactiveView.Proofs.MarkerAddresses

/-!
# Children that are kept

A view has a child for each marker that is met when it is rendered, and gives it back to the marker
when it is rendered again.  Both rest on the markers having different keys, which they have in a
lowered component unless two loops of one block have markers for the same component at the same place
of their items.  There the later child takes the place of the earlier one (`TwoLists`).
-/

namespace ReactiveView

open List

/-! ## Instances -/

/-- Two states of one view: its identity in the world is the same. -/
structure View.SameInstance (v v' : View) : Prop where
  name : v'.name = v.name
  fields : v'.fields = v.fields
  provided : v'.provided = v.provided
  number : v'.number = v.number
  subscriptions : v'.subscriptions = v.subscriptions

namespace View.SameInstance

theorem refl (v : View) : v.SameInstance v := ⟨rfl, rfl, rfl, rfl, rfl⟩

theorem trans {v v' v'' : View} (first : v.SameInstance v') (second : v'.SameInstance v'') :
    v.SameInstance v'' :=
  ⟨second.name.trans first.name, second.fields.trans first.fields,
    second.provided.trans first.provided, second.number.trans first.number,
    second.subscriptions.trans first.subscriptions⟩

end View.SameInstance

/-- A view with the same children under the same keys, each in whatever state. -/
structure View.Retains (v v' : View) : Prop where
  name : v'.name = v.name
  children : List.Forall₂ (fun entry entry' => entry.1 = entry'.1 ∧ entry.2.SameInstance entry'.2)
    v.keyedChildren v'.keyedChildren

theorem View.Retains.refl (v : View) : v.Retains v :=
  ⟨rfl, forall₂_same.mpr fun _ _ => ⟨rfl, .refl _⟩⟩

/-- A view has a child for each marker, under the key of the marker, and no other children. -/
structure View.HasChildrenFor (v : View) (met : List MetMarker) : Prop where
  distinct : (met.map (·.key)).Nodup
  keys : (v.keyedChildren.map (·.1)).Perm (met.map (·.key))
  length : v.keyedChildren.length = met.length

/-- A view has the children that another state of it has for the markers. -/
def View.GivesBack (v v' : View) (met : List MetMarker) : Prop :=
  ∀ m ∈ met, ∃ child child', v.keyedChildren.lookup m.key = some child ∧
    v'.keyedChildren.lookup m.key = some child' ∧ child.name = m.marker.component ∧
    child.SameInstance child'

theorem View.Retains.lookup {v v' : View} (retains : v.Retains v') {key : String} {child : View}
    (found : v.keyedChildren.lookup key = some child) :
    ∃ child', v'.keyedChildren.lookup key = some child' ∧ child.SameInstance child' := by
  have children := retains.children
  generalize v.keyedChildren = before at found children
  generalize v'.keyedChildren = after at children ⊢
  induction children with
  | nil => cases found
  | @cons entry entry' before after same _ ih =>
    obtain ⟨key', child₀⟩ := entry
    obtain ⟨key'', child₁⟩ := entry'
    obtain ⟨rfl, same⟩ := same
    simp only [List.lookup_cons] at found ⊢
    cases isKey : key == key' with
    | true =>
      rw [isKey] at found
      cases found
      exact ⟨child₁, rfl, same⟩
    | false =>
      rw [isKey] at found
      exact ih found

namespace Catalog

variable {catalog : Catalog} {render : Renderer}

/-- A renderer keeps the identity of views. -/
def KeepsInstances (render : Renderer) : Prop :=
  ∀ view provided w view' w', render view provided w = (.ok (), view', w') →
    view.SameInstance view'

theorem renderWith_keepsInstances : KeepsInstances (catalog.renderWith render) := by
  intro view provided w view' w' rendered
  obtain ⟨_, _, _, _, _, rfl, _⟩ := run_of_renderWith rendered
  exact ⟨rfl, rfl, rfl, rfl, rfl⟩

theorem render_keepsInstances (depth : Nat) : KeepsInstances (catalog.render depth) := by
  cases depth with
  | zero =>
    intro _ _ _ _ _ rendered
    cases rendered
  | succ depth => exact renderWith_keepsInstances

/-! ## Markers and their children -/

theorem name_of_instantiate {name : String} {site : Site} {w w' : World} {view : View}
    (made : catalog.instantiate name site w = (.ok view, w')) : view.name = name := by
  unfold instantiate at made
  split at made
  · cases made
  · split at made
    · cases made
    · cases made
      rfl

/-- The child for a marker is the one that was kept under the key for the same component, if there is
    one, and it is put under the key. -/
theorem renderChild_keeps (keeps : KeepsInstances render) {provided : Provided}
    {key component : String} {bindings : List BoundArgument} {scope : ViewScope}
    {e e' : Execution} {nodes : List ViewNode}
    (ran : (catalog.renderChild render provided key component bindings scope).run.run e =
      (.ok nodes, e')) :
    ∃ child, e'.children = (View.insertChild key child e.children).1 ∧ child.name = component ∧
      (∀ old, e.former.lookup key = some old → old.name = component → old.SameInstance child) ∧
      ∀ other ≠ key, e'.former.lookup other = e.former.lookup other := by
  obtain ⟨child, w, former, child', w', begins, rendered, _, rfl⟩ := renderChild_ok_iff.mp ran
  have again := keeps _ _ _ _ _ rendered
  refine ⟨child', rfl, ?_⟩
  cases begins with
  | kept found named =>
    refine ⟨again.name.trans named, fun old isOld _ => ?_, fun other different => ?_⟩
    · cases found.symm.trans isOld
      exact again
    · exact lookup_filter_ne different
  | made missing made =>
    refine ⟨again.name.trans (name_of_instantiate made), fun old isOld named => ?_, fun _ _ => rfl⟩
    rw [isOld, Option.filter_some, if_pos (by simpa using named)] at missing
    cases missing

/-- How the children of an execution relate to those that the view had before, after markers were
    met. -/
structure Keeping (before : List (String × View)) (met : List MetMarker) (e : Execution) :
    Prop where
  keys : (e.children.map (·.1)).Perm (met.map (·.key))
  sorted : View.AreSorted e.children
  former : ∀ key ∉ met.map (·.key), e.former.lookup key = before.lookup key
  kept : ∀ m ∈ met, ∃ child, (m.key, child) ∈ e.children ∧ child.name = m.marker.component ∧
    ∀ old, before.lookup m.key = some old → old.name = m.marker.component → old.SameInstance child

theorem Keeping.start (view : View) (w : World) :
    Keeping view.keyedChildren [] (view.start w) :=
  ⟨.refl _, .nil, fun _ _ => rfl, fun _ member => absurd member not_mem_nil⟩

variable {before : List (String × View)} {met : List MetMarker} {e e' : Execution}

theorem Keeping.child (keeps : KeepsInstances render) (keeping : Keeping before met e)
    {m : MetMarker} (new : m.key ∉ met.map (·.key)) {provided : Provided}
    {bindings : List BoundArgument} {scope : ViewScope} {nodes : List ViewNode}
    (ran : (catalog.renderChild render provided m.key m.marker.component bindings scope).run.run e =
      (.ok nodes, e')) :
    Keeping before (met ++ [m]) e' := by
  obtain ⟨child, children, named, same, former⟩ := renderChild_keeps keeps ran
  -- the key is new, so the child is added and replaces none
  have perm : e'.children.Perm ((m.key, child) :: e.children) := by
    rw [children]
    exact View.insertChild_of_not_mem fun member => new (keeping.keys.subset member)
  constructor
  case keys =>
    have first : (e'.children.map (·.1)).Perm (m.key :: e.children.map (·.1)) := perm.map (·.1)
    rw [map_append]
    exact (first.trans (keeping.keys.cons _)).trans (perm_append_singleton _ _).symm
  case sorted =>
    rw [children]
    exact keeping.sorted.insertChild _ _
  case former =>
    intro key notMet
    rw [map_append, mem_append, not_or] at notMet
    rw [former key (ne_of_not_mem_cons notMet.2), keeping.former key notMet.1]
  case kept =>
    rw [forall_mem_append]
    constructor
    · intro m' member
      obtain ⟨view, isChild, named, same⟩ := keeping.kept m' member
      exact ⟨view, perm.symm.subset (.tail _ isChild), named, same⟩
    · intro m' member
      cases mem_singleton.mp member
      rw [keeping.former _ new] at same
      exact ⟨child, perm.symm.subset mem_cons_self, named, same⟩

theorem Keeping.sameViews (keeping : Keeping before met e) (same : e.SameViews e') :
    Keeping before met e' := by
  obtain ⟨keys, sorted, former, kept⟩ := keeping
  rw [← same.children] at keys sorted
  rw [← same.former] at former
  simp only [← same.children] at kept
  exact ⟨keys, sorted, former, kept⟩

/-- An execution whose markers have different keys keeps its children. -/
theorem Keeping.follows (keeps : KeepsInstances render) {view : View} {provided : Provided}
    {c : Component} {visits : List RenderVisit}
    (follows : (catalog.runner render view provided c).Follows e visits e')
    (nodup : ((met ++ markers visits).map (·.key)).Nodup) (keeping : Keeping before met e) :
    Keeping before (met ++ markers visits) e' := by
  induction follows generalizing met with
  | nil =>
    rw [markers, filterMap_nil, append_nil]
    exact keeping
  | @child e e' last path index marker bindings locals nodes visits role ran _ ih =>
    have isMarker : markers (.child path index marker locals :: visits) =
        ⟨path, index, marker⟩ :: markers visits := rfl
    rw [isMarker] at nodup ⊢
    have new : MetMarker.key ⟨path, index, marker⟩ ∉ met.map (·.key) := by
      rw [map_append, nodup_append'] at nodup
      exact fun again => nodup.2.2 again mem_cons_self
    rw [append_cons] at nodup ⊢
    exact ih nodup (keeping.child keeps new ran)
  | choice recorded _ ih => exact ih nodup (keeping.sameViews (.of_activate recorded))
  | loop _ ih => exact ih nodup keeping

/-! ## Visits of a rendering -/

/-- What is met when a view is rendered to a depth. -/
def visits (catalog : Catalog) (depth : Nat) (view : View) (provided : Provided) (w : World) :
    List RenderVisit :=
  match depth, catalog.find? view.name with
  | depth + 1, some c =>
    (catalog.runner (catalog.render depth) view provided c).visits c.render.body (view.start w)
  | _, _ => []

/-- A rendering whose markers have different keys keeps the children of the view. -/
theorem render_keeping {depth : Nat} {view view' : View} {provided : Provided} {w w' : World}
    {c : Component} (found : catalog.find? view.name = some c)
    (nodup : ∀ visits, Covers [] 0 c.render.body visits → ((markers visits).map (·.key)).Nodup)
    (rendered : catalog.render depth view provided w = (.ok (), view', w')) :
    Covers [] 0 c.render.body (catalog.visits depth view provided w) ∧
      ∃ e, view'.keyedChildren = e.children ∧
        Keeping view.keyedChildren (markers (catalog.visits depth view provided w)) e := by
  cases depth with
  | zero => cases rendered
  | succ depth =>
    obtain ⟨c', nodes, e, found', ran, rfl, _⟩ := run_of_renderWith rendered
    cases found.symm.trans found'
    obtain ⟨follows, covers⟩ := BodyRunner.visits_spec ran
    have keeping := (Keeping.start view w).follows (render_keepsInstances depth) follows
      (nodup _ covers)
    simp only [visits, found]
    exact ⟨covers, e, rfl, keeping⟩

end Catalog

/-! ## Lowered components -/

/-- Every component comes from the lowering of a module that is written in source forms. -/
def Catalog.IsLowered (catalog : Catalog) : Prop :=
  ∀ c ∈ catalog.components, ∃ (m : Module) (options : Options) (parser : Script.Parser),
    (∀ d ∈ m.components, d.isSource = true) ∧ c ∈ (ofOutput (m.lower options parser)).components

namespace Catalog.IsLowered

variable {catalog : Catalog} {c : Component}

theorem numbered (lowered : catalog.IsLowered) (member : c ∈ catalog.components) :
    Numbered 0 (Stmt.conditionalsAll c.render.body) := by
  obtain ⟨m, options, parser, source, member⟩ := lowered c member
  obtain ⟨out, isOut, rfl⟩ := mem_map.mp member
  obtain ⟨d, declared, lowered⟩ := Module.exists_of_mem_lowered isOut
  obtain ⟨_, _, body, _, _, _, render, _, rfl⟩ := ModuleScope.lowerComponent_ok_iff.mp lowered
  have source := source d declared
  rw [Component.isSource, Bool.and_eq_true] at source
  exact (render.lowers.numbered source.1 (forall_mem_nil _) rfl).1

theorem nodup_keys (lowered : catalog.IsLowered) {name : String}
    (found : catalog.find? name = some c) (few : Stmt.forks c.render.body < 2 ^ 32)
    (apart : Stmt.haveLoopsApart c.render.body = true) (visits : List RenderVisit)
    (covers : Covers [] 0 c.render.body visits) : ((markers visits).map (·.key)).Nodup := by
  have member := Catalog.mem_of_find? found
  exact covers.nodup_keys ((lowered.numbered member).areDistinct few) apart

/-- In a component whose loops are apart no child is lost or mixed up: the view has a child for each
    marker that is met when it is rendered, and if it is rendered again with the same decisions, in
    whatever world and states of its children, then the same markers are met and each of them gets its
    child back. -/
theorem keepsChildren (lowered : catalog.IsLowered) {depth : Nat} {view view' : View}
    {provided : Provided} {w w' : World} (found : catalog.find? view.name = some c)
    (few : Stmt.forks c.render.body < 2 ^ 32) (apart : Stmt.haveLoopsApart c.render.body = true)
    (rendered : catalog.render depth view provided w = (.ok (), view', w')) :
    view'.HasChildrenFor (markers (catalog.visits depth view provided w)) ∧
      ∀ depth₂ again view₂ provided₂ w₂ w₂', view'.Retains again →
        catalog.render depth₂ again provided₂ w₂ = (.ok (), view₂, w₂') →
        decisions (catalog.visits depth₂ again provided₂ w₂) =
          decisions (catalog.visits depth view provided w) →
        markers (catalog.visits depth₂ again provided₂ w₂) =
          markers (catalog.visits depth view provided w) ∧
        view'.GivesBack view₂ (markers (catalog.visits depth view provided w)) := by
  have nodup := lowered.nodup_keys found few apart
  obtain ⟨covers, e, children, keeping⟩ := render_keeping found nodup rendered
  refine ⟨⟨nodup _ covers, children ▸ keeping.keys, ?_⟩, ?_⟩
  · have length := keeping.keys.length_eq
    rwa [length_map, length_map, ← children] at length
  · intro depth₂ again view₂ provided₂ w₂ w₂' retains rendered₂ same
    have found₂ : catalog.find? again.name = some c := by
      rw [retains.name, (render_keepsInstances depth _ _ _ _ _ rendered).name, found]
    obtain ⟨covers₂, e₂, children₂, keeping₂⟩ := render_keeping found₂ nodup rendered₂
    -- the decisions determine the way through the body, and so the markers
    have markers := (covers₂.markers_eq covers (congrArg (· ++ []) same)).1
    refine ⟨markers, fun m isMet => ?_⟩
    obtain ⟨child, isChild, named, _⟩ := keeping.kept m isMet
    obtain ⟨child₂, isChild₂, _, kept⟩ := keeping₂.kept m (markers ▸ isMet)
    have holds := lookup_of_mem keeping.sorted.nodup isChild
    rw [← children] at holds
    obtain ⟨old, isOld, still⟩ := retains.lookup holds
    refine ⟨child, child₂, holds, ?_, named, still.trans (kept old isOld ?_)⟩
    · rw [children₂]
      exact lookup_of_mem keeping₂.sorted.nodup isChild₂
    · exact still.name.trans named

end Catalog.IsLowered

/-! Pages with two loops in one block.  On the board the loops have markers for different components;
on the list both have a marker for a row as the first statement of an item. -/

namespace TwoLoops

def row : Component where
  name := "Row"
  members := [.field { name := "v", decorator := .prop }]
  render := { body := [.element { name := "Text", args := [{ value := "this.v" }] } []] }

def note : Component where
  name := "Note"
  render := { body := [.element { name := "Text", args := [{ value := "'note'" }] } []] }

def rowOf (value : String) : Stmt :=
  .element { name := "Row", args := [{ name := some "v", value }] } []

def board : Component where
  name := "Board"
  members := [
    .field { name := "a", decorator := .state, initializer := some "[1, 2]" },
    .field { name := "on", decorator := .state, initializer := some "true" }]
  render := { body := [
    .forEach { source := "this.a", itemVar := "x" }
      [rowOf "x", .choice [⟨some "this.on", [rowOf "this.a"]⟩] {}],
    .forEach { source := "this.a", itemVar := "y" } [.element { name := "Note" } []]] }

def list : Component where
  name := "List"
  members := [
    .field { name := "a", decorator := .state, initializer := some "[1]" },
    .field { name := "b", decorator := .state, initializer := some "[1]" }]
  render := { body := [
    .forEach { source := "this.a", itemVar := "x" } [rowOf "x"],
    .forEach { source := "this.b", itemVar := "y" } [rowOf "y"]] }

def file : Module := ⟨"loops.ets", [board, list, row, note]⟩

def catalog : Catalog := .ofOutput (file.lower {})

theorem isLowered : catalog.IsLowered := fun _ member => ⟨file, {}, _, by decide, member⟩

/-- A new view of a component, and the view after it is rendered once and twice. -/
def states? (name : String) : Option ((View × World) × (View × World) × View × World) :=
  match catalog.instantiate name {} {} with
  | (.ok view, w) =>
    match catalog.render 2 view [] w with
    | (.ok (), once) =>
      match catalog.render 2 once.1 [] once.2 with
      | (.ok (), twice) => some ((view, w), once, twice)
      | _ => none
    | _ => none
  | _ => none

theorem render_of_states? {name : String} {new once twice : View × World}
    (states : states? name = some (new, once, twice)) :
    catalog.render 2 new.1 [] new.2 = (.ok (), once) ∧
      catalog.render 2 once.1 [] once.2 = (.ok (), twice) := by
  unfold states? at states
  split at states
  next view w _ =>
    split at states
    next first rendered =>
      split at states
      next second again =>
        cases states
        exact ⟨rendered, again⟩
      · cases states
    · cases states
  · cases states

end TwoLoops

theorem Catalog.IsLowered.keepsChildren_board :
    ∃ new once twice, TwoLoops.states? "Board" = some (new, once, twice) ∧
      (markers (TwoLoops.catalog.visits 2 new.1 [] new.2)).length = 6 ∧
      once.1.HasChildrenFor (markers (TwoLoops.catalog.visits 2 new.1 [] new.2)) ∧
      once.1.GivesBack twice.1 (markers (TwoLoops.catalog.visits 2 new.1 [] new.2)) := by
  have facts : (TwoLoops.states? "Board").map (fun s =>
      (s.1.1.name, (markers (TwoLoops.catalog.visits 2 s.1.1 [] s.1.2)).length,
        decisions (TwoLoops.catalog.visits 2 s.1.1 [] s.1.2),
        decisions (TwoLoops.catalog.visits 2 s.2.1.1 [] s.2.1.2))) =
      some ("Board", 6, [.items 2, .arm 0 (some (0, 0)), .arm 0 (some (0, 0)), .items 2],
        [.items 2, .arm 0 (some (0, 0)), .arm 0 (some (0, 0)), .items 2]) := by decide +kernel
  have component : (TwoLoops.catalog.find? "Board").map (fun c =>
      (decide (Stmt.forks c.render.body < 2 ^ 32), Stmt.haveLoopsApart c.render.body)) =
      some (true, true) := by decide +kernel
  obtain ⟨⟨new, once, twice⟩, states, facts⟩ := Option.map_eq_some_iff.mp facts
  obtain ⟨c, found, known⟩ := Option.map_eq_some_iff.mp component
  simp only [Prod.mk.injEq, decide_eq_true_eq] at facts known
  obtain ⟨named, six, first, second⟩ := facts
  obtain ⟨rendered, again⟩ := TwoLoops.render_of_states? states
  rw [← named] at found
  obtain ⟨has, kept⟩ := Catalog.IsLowered.keepsChildren TwoLoops.isLowered found known.1 known.2
    rendered
  exact ⟨new, once, twice, states, six, has,
    (kept 2 once.1 twice.1 [] once.2 twice.2 (.refl _) again (second.trans first.symm)).2⟩

/-- Two loops of one block whose items begin with markers for the same component: both markers have
    one key, the view has one child for them, and each rendering replaces it by a new one. -/
theorem TwoLoops.list_loses_child :
    TwoLoops.catalog.IsLowered ∧ ∃ new once twice,
      TwoLoops.states? "List" = some (new, once, twice) ∧
      (markers (TwoLoops.catalog.visits 2 new.1 [] new.2)).map (·.key) = ["i0/0:Row", "i0/0:Row"] ∧
      decisions (TwoLoops.catalog.visits 2 new.1 [] new.2) = [.items 1, .items 1] ∧
      decisions (TwoLoops.catalog.visits 2 once.1 [] once.2) = [.items 1, .items 1] ∧
      once.1.keyedChildren.map (fun entry => (entry.1, entry.2.number)) = [("i0/0:Row", 2)] ∧
      twice.1.keyedChildren.map (fun entry => (entry.1, entry.2.number)) = [("i0/0:Row", 3)] := by
  have children : (TwoLoops.states? "List").map (fun s =>
      ((markers (TwoLoops.catalog.visits 2 s.1.1 [] s.1.2)).map (·.key),
        s.2.1.1.keyedChildren.map (fun entry => (entry.1, entry.2.number)),
        s.2.2.1.keyedChildren.map fun entry => (entry.1, entry.2.number))) =
      some (["i0/0:Row", "i0/0:Row"], [("i0/0:Row", 2)], [("i0/0:Row", 3)]) := by decide +kernel
  have loops : (TwoLoops.states? "List").map (fun s =>
      (decisions (TwoLoops.catalog.visits 2 s.1.1 [] s.1.2),
        decisions (TwoLoops.catalog.visits 2 s.2.1.1 [] s.2.1.2))) =
      some ([.items 1, .items 1], [.items 1, .items 1]) := by decide +kernel
  obtain ⟨⟨new, once, twice⟩, states, children⟩ := Option.map_eq_some_iff.mp children
  rw [states, Option.map_some] at loops
  simp only [Prod.mk.injEq] at children
  have loops := Prod.mk.inj (Option.some.inj loops)
  exact ⟨TwoLoops.isLowered, new, once, twice, states, children.1, loops.1, loops.2, children.2⟩

end ReactiveView
