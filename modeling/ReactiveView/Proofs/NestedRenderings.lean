import Mathlib.Logic.Relation
import ReactiveView.Proofs.RepeatedRenderings

/-!
# Renderings inside a rendering

The execution of the body of a view renders its children, and they render theirs.  Whatever is
rendered inside the rendering of a view, the fields of the view keep the values with which its
rendering began (`Rendering.IsHoused.value_eq`): what is written are arguments of children, and no
field of a view is in the group of a field of a view below that can be written.
-/

namespace ReactiveView

open List
open Reactive (CellId SubscriptionId)

/-- A rendering that begins: of a view to a depth, with keys in sight, in a world. -/
structure Rendering where
  depth : Nat
  view : View
  provided : Provided
  world : World

namespace Rendering

/-- The execution of the body is in a state, with some of its visits still to come. -/
def Passes (catalog : Catalog) (r : Rendering) (e : Execution) (coming : List RenderVisit) : Prop :=
  ∃ depth c done last, r.depth = depth + 1 ∧ catalog.find? r.view.name = some c ∧
    catalog.visits r.depth r.view r.provided r.world = done ++ coming ∧
    (catalog.runner (catalog.render depth) r.view r.provided c).Follows (r.view.start r.world) done e ∧
    (catalog.runner (catalog.render depth) r.view r.provided c).Follows e coming last

/-- The execution of the body begins to render the child for a marker. -/
inductive Calls (catalog : Catalog) (r : Rendering) : Rendering → Prop
  | intro {e : Execution} {path : List String} {index : Nat} {marker : OpenMarker}
      {bindings : List BoundArgument} {locals : List (String × Json)} {coming : List RenderVisit}
      {child : View} {w : World} {former : List (String × View)}
      (passes : r.Passes catalog e (.child path index marker locals :: coming))
      (role : marker.role = .component bindings)
      (begins : catalog.Begins (r.view.provided ++ r.provided)
        (childKey path index marker.component) marker.component bindings ⟨r.view.fields, locals⟩ e
        child w former) :
      Calls catalog r ⟨r.depth - 1, child, r.view.provided ++ r.provided, w⟩

/-- A rendering goes on inside another one, or is that one. -/
def Spans (catalog : Catalog) : Rendering → Rendering → Prop :=
  Relation.ReflTransGen (Calls catalog)

/-- A rendering ends. -/
def Ends (catalog : Catalog) (r : Rendering) : Prop :=
  ∃ view' w', catalog.render r.depth r.view r.provided r.world = (.ok (), view', w')

/-- The view is at its place when its rendering begins. -/
structure IsHoused (catalog : Catalog) (r : Rendering) (sight held : List CellId)
    (subscriptions : List SubscriptionId) : Prop where
  ends : r.Ends catalog
  inSight : ∀ entry ∈ r.provided, entry.2 ∈ sight
  houses : r.view.Houses catalog sight held subscriptions r.view.keyedChildren r.world

variable {catalog : Catalog} {r q : Rendering} {sight held : List CellId}
  {subscriptions : List SubscriptionId} {e : Execution} {coming : List RenderVisit}

/-- A rendering that ends passes between any two of its visits. -/
theorem Ends.exists_passes (ends : r.Ends catalog) {done : List RenderVisit}
    (split : catalog.visits r.depth r.view r.provided r.world = done ++ coming) :
    ∃ e, r.Passes catalog e coming := by
  obtain ⟨view', w', rendered⟩ := ends
  cases deep : r.depth with
  | zero =>
    rw [deep] at rendered
    cases rendered
  | succ depth =>
    rw [deep] at rendered
    obtain ⟨c, nodes, last, found, ran, _, _⟩ := Catalog.run_of_renderWith rendered
    have follows := (BodyRunner.visits_spec ran).1
    have visits : catalog.visits r.depth r.view r.provided r.world =
        (catalog.runner (catalog.render depth) r.view r.provided c).visits c.render.body
          (r.view.start r.world) := by
      rw [deep]
      simp only [Catalog.visits, found]
    rw [← visits, split] at follows
    obtain ⟨e, before, after⟩ := follows.of_append
    exact ⟨e, depth, c, done, last, deep, found, split, before, after⟩

theorem fit_of_passes (fit : catalog.HasFitCalls) (ends : r.Ends catalog)
    (passes : r.Passes catalog e coming) : ∃ depth c done,
    (catalog.runner (catalog.render depth) r.view r.provided c).Follows (r.view.start r.world) done e ∧
      catalog.Fit (markers done) ∧ catalog.Fit (markers coming) := by
  obtain ⟨depth, c, done, last, deep, found, split, follows, _⟩ := passes
  obtain ⟨view', w', rendered⟩ := ends
  rw [deep] at rendered split
  obtain ⟨c', nodes, last', found', ran, _, _⟩ := Catalog.run_of_renderWith rendered
  cases found.symm.trans found'
  have member := Catalog.mem_of_find? found
  have all := fit.fit member (BodyRunner.visits_spec ran).2
  simp only [Catalog.visits, found] at split
  rw [split, markers_append] at all
  obtain ⟨before, after⟩ := forall_mem_append.mp all
  exact ⟨depth, c, done, follows, before, after⟩

/-- The cells of the views below that can be written between the beginnings of two renderings. -/
structure Leads (r q : Rendering) : Prop where
  grows : r.world.Grows q.world
  spares : r.world.Spares (View.fieldCellsAll r.view.keyedChildren) q.world
  old : ∀ d ∈ View.fieldCellsAll q.view.keyedChildren,
    d ∈ View.fieldCellsAll r.view.keyedChildren ∨ r.world.store.cells.length ≤ d

variable (fit : catalog.HasFitCalls) (housed : r.IsHoused catalog sight held subscriptions)
include fit housed

/-- While the body is executed the views are at their places, and only cells of children that are still
    to be met were written. -/
theorem IsHoused.passes (passes : r.Passes catalog e coming) :
    r.view.Houses catalog sight held subscriptions (e.former ++ e.children) e.world ∧
      (r.view.start r.world).Advances e := by
  obtain ⟨depth, c, done, follows, fits, _⟩ := fit_of_passes fit housed.ends passes
  have trees := Catalog.render_leavesTrees fit depth
  exact Catalog.advances_of_follows trees housed.inSight follows fits housed.houses.start

/-- The rendering of a child begins at its place. -/
theorem IsHoused.calls (calls : r.Calls catalog q) :
    (∃ held' subscriptions', q.IsHoused catalog (r.view.ownCells ++ sight) held' subscriptions') ∧
      r.Leads q := by
  cases calls with
  | @intro e path index marker bindings locals coming child w former passes role begins =>
    obtain ⟨houses, advances⟩ := housed.passes fit passes
    obtain ⟨_, _, _, _, _, fits⟩ := fit_of_passes fit housed.ends passes
    have begun := begins.hasBegun housed.inSight ((forall_mem_cons.mp fits).1 bindings role)
      houses
    refine ⟨⟨_, _, ?_, r.view.inSight_child housed.inSight, begun.houses.child⟩, ?_, ?_, ?_⟩
    · -- the execution goes on after the child, so its rendering ends
      obtain ⟨depth, c, _, last, deep, _, _, _, follows⟩ := passes
      cases follows with
      | child role' ran _ =>
        cases role.symm.trans role'
        change (catalog.renderChild (catalog.render depth) _ _ _ _ ⟨r.view.fields, locals⟩).run.run e =
          _ at ran
        rw [Catalog.run_renderChild begins] at ran
        split at ran
        · cases ran
        next child' w' rendered =>
          refine ⟨child', w', ?_⟩
          rw [deep]
          exact rendered
    · exact advances.grows.trans begun.grows
    · exact advances.spares.trans advances.grows begun.spares fun d isFormer =>
        .inl (advances.former d isFormer)
    · intro d inside
      have ofChild : d ∈ child.fieldCells := by
        rw [View.fieldCells_eq]
        exact mem_append_right _ inside
      exact (begun.old d ofChild).imp (advances.former d) (Nat.le_trans advances.grows.store.size)

/-- Every rendering inside a rendering begins at its place. -/
theorem IsHoused.spans (spans : Spans catalog r q) :
    ∃ sight' held' subscriptions', q.IsHoused catalog sight' held' subscriptions' := by
  induction spans using Relation.ReflTransGen.head_induction_on generalizing sight held
    subscriptions with
  | refl => exact ⟨_, _, _, housed⟩
  | head calls _ ih =>
    obtain ⟨⟨_, _, below⟩, _⟩ := housed.calls fit calls
    exact ih below

/-- Only cells of views below are written as long as a rendering goes on. -/
theorem IsHoused.spares (spans : Spans catalog r q) (passes : q.Passes catalog e coming) :
    r.world.Spares (View.fieldCellsAll r.view.keyedChildren) e.world := by
  induction spans using Relation.ReflTransGen.head_induction_on generalizing sight held
    subscriptions with
  | refl => exact (housed.passes fit passes).2.spares
  | head calls _ ih =>
    obtain ⟨⟨_, _, below⟩, leads⟩ := housed.calls fit calls
    -- what is below the child was below the view or is new, so the writes inside are among its own
    exact leads.spares.trans leads.grows (ih below) leads.old

/-- The fields of a view keep their values as long as its rendering goes on. -/
theorem IsHoused.value_eq (spans : Spans catalog r q) (passes : q.Passes catalog e coming)
    {field : String × CellId} (isField : field ∈ r.view.fields) :
    e.world.store.value field.2 = r.world.store.value field.2 := by
  apply housed.houses.value_eq (housed.spares fit spans passes)
  exact mem_append_left _ (mem_map_of_mem (mem_append_left _ isField))

end Rendering

end ReactiveView
