import ReactiveView.Proofs.ForeseenVisits
import ReactiveView.Proofs.ViewNumbers

/-!
# Arguments after a rendering

When a tree was rendered, every child in it has the values of its one-way arguments, as the fields of
its parent and the items around its marker give them (`View.IsFresh`).  A field that was there before
has another value only if it is in the group of a field that such an argument was written to
(`View.IsBound`).
-/

namespace ReactiveView

open List
open Reactive (CellId SubscriptionId Store)

/-! ## Cells that are written -/

namespace World

variable {w w' : World} {written : List CellId} {d : CellId}

/-- A value that has changed is that of a cell in a group that a written cell begins. -/
theorem Spares.eq_or_written (spares : w.Spares written w') (known : d < w.store.cells.length) :
    w'.store.value d = w.store.value d ∨
      ∃ c ∈ written, w.store.IsFirst c ∧ w.store.groupOf d = w.store.groupOf c := by
  by_cases changed : ∃ c ∈ written, w.store.IsFirst c ∧ w.store.groupOf d = w.store.groupOf c
  · exact .inr changed
  · apply Or.inl
    apply spares d known
    intro c member first same
    exact changed ⟨c, member, first, same⟩

end World

namespace View

variable {key : String} {child : View} {children : List (String × View)} {entry : String × View}

/-- The child that had the key is not among the children any more. -/
theorem eq_or_mem_of_mem_insertChild (sorted : AreSorted children)
    (member : entry ∈ (insertChild key child children).1) :
    entry = (key, child) ∨ entry ∈ children ∧ entry.1 ≠ key := by
  by_cases same : entry.1 = key
  · apply Or.inl
    have distinct := (sorted.insertChild key child).nodup
    exact inj_on_of_nodup_map distinct member (mem_insertChild_self key child children) same
  · have among := Catalog.mem_insertChild member
    exact .inr ⟨among.resolve_left fun isNew => same (congrArg (·.1) isNew), same⟩

end View

namespace View.Houses

variable {catalog : Catalog} {w w' : World} {sight held written : List CellId}
  {subscriptions : List SubscriptionId} {v inner : View} {views rest : List (String × View)}
  {key : String}

/-- The cells of a child are not in sight of it, and not those of other views. -/
theorem apart_child (houses : v.Houses catalog sight held subscriptions ((key, inner) :: rest) w)
    {d : CellId} (inside : d ∈ inner.fieldCells) :
    d ∉ v.ownCells ++ sight ∧ ∀ entry ∈ rest, d ∉ entry.2.fieldCells := by
  constructor
  · intro inSight
    refine houses.child.apart d inSight ?_
    rw [← fieldCells_eq]
    exact inside
  · intro entry member other
    have distinct := (nodup_append'.mp houses.distinct).2.1
    refine (nodup_append'.mp distinct).2.2 inside ?_
    rw [fieldCellsAll_eq]
    exact mem_flatMap.mpr ⟨entry, member, other⟩

/-- A view below keeps its values while cells outside it are written. -/
theorem value_eq_inside (houses : v.Houses catalog sight held subscriptions views w)
    {entry : String × View} (member : entry ∈ views) (spares : w.Spares written w')
    (apart : ∀ c ∈ written, c ∉ v.ownCells ++ sight ∧ c ∉ entry.2.fieldCells) {d : CellId}
    (inside : d ∈ entry.2.fieldCells) : w'.store.value d = w.store.value d := by
  have based := (houses.rooted entry member).based (houses.sits.based houses.based)
  refine based.value_eq spares (fun c isWritten among => ?_) (mem_append_left _ inside)
  rcases mem_append.mp among with below | around
  · exact (apart c isWritten).2 below
  · exact (apart c isWritten).1 around

end View.Houses

/-! ## Fresh arguments -/

namespace View

/-- A child has the values of its one-way arguments, as the fields of its parent and the items around
    the marker give them. -/
def IsFresh (catalog : Catalog) (w : World) (v : View) (entry : String × View) : Prop :=
  ∃ call, v.call? catalog w entry.1 = some call ∧ entry.2.name = call.marker.component ∧
    entry.2.IsRefreshed ⟨v.fields, call.locals⟩ call.bindings w

/-- A cell is that of a field in a tree that a one-way argument is for. -/
def IsBound (catalog : Catalog) (w : World) (root : View) (c : CellId) : Prop :=
  ∃ v ∈ root.subviews, ∃ entry ∈ v.keyedChildren, ∃ call,
    v.call? catalog w entry.1 = some call ∧ c ∈ entry.2.boundCells call.bindings

end View

namespace Catalog

variable {catalog : Catalog} {render : Renderer} {v : View} {provided : Provided} {c : Component}
  {sight held : List CellId} {subscriptions : List SubscriptionId} {visits : List RenderVisit}
  {e last : Execution} {now : World}

/-- What a rendering leaves of the values of fields, seen from a later world. -/
structure Freshened (catalog : Catalog) (w : World) (view' : View) (w' now : World) : Prop where
  fresh : ∀ v ∈ view'.subviews, ∀ entry ∈ v.keyedChildren, v.IsFresh catalog now entry
  kept : ∀ d ∈ view'.fieldCells, d < w.store.cells.length →
    w'.store.value d = w.store.value d ∨
      ∃ c, view'.IsBound catalog now c ∧ now.store.groupOf d = now.store.groupOf c

/-- A renderer gives children fresh arguments and changes nothing else. -/
def Freshens (catalog : Catalog) (render : Renderer) : Prop :=
  ∀ (view : View) (provided : Provided) (w : World) (view' : View) (w' : World)
    (sight held : List CellId) (subscriptions : List SubscriptionId),
    render view provided w = (.ok (), view', w') → (∀ entry ∈ provided, entry.2 ∈ sight) →
    view.Houses catalog sight held subscriptions view.keyedChildren w →
    ∀ now : World, w'.Grows now → (∀ d ∈ view'.fieldCells, now.store.value d = w'.store.value d) →
      catalog.Freshened w view' w' now

/-- A child that was met for a call, seen from a later world. -/
structure Meets (catalog : Catalog) (v : View) (e last : Execution) (now : World)
    (entry : String × View) (call : Call) : Prop where
  named : entry.2.name = call.marker.component
  refreshed : entry.2.IsRefreshed ⟨v.fields, call.locals⟩ call.bindings now
  fresh : ∀ u ∈ entry.2.subviews, ∀ entry' ∈ u.keyedChildren, u.IsFresh catalog now entry'
  old : ∀ d ∈ entry.2.fieldCells,
    d ∈ View.fieldCellsAll e.former ∨ e.world.store.cells.length ≤ d
  kept : ∀ d ∈ entry.2.fieldCells, d < e.world.store.cells.length →
    last.world.store.value d = e.world.store.value d ∨
      ∃ c, (c ∈ entry.2.boundCells call.bindings ∨ entry.2.IsBound catalog now c) ∧
        now.store.groupOf d = now.store.groupOf c

/-! ## The child for a marker -/

section Child

variable {key component : String} {bindings : List BoundArgument} {locals : List (String × Json)}
  {child child' : View} {former : List (String × View)} {w w' : World}

/-- The views that are still to be met keep their values while a child is rendered. -/
theorem HasBegun.value_former
    (begun : catalog.HasBegun v sight held subscriptions e key component bindings locals child w
      former)
    (houses : v.Houses catalog sight held subscriptions (e.former ++ e.children) e.world)
    (below : w.Spares (View.fieldCellsAll child.keyedChildren) w') {d : CellId}
    (inside : d ∈ View.fieldCellsAll former) : w'.store.value d = e.world.store.value d := by
  rw [View.fieldCellsAll_eq] at inside
  obtain ⟨entry, isFormer, inside⟩ := mem_flatMap.mp inside
  have apart {d : CellId} (ofChild : d ∈ child.fieldCells) :
      d ∉ v.ownCells ++ sight ∧ d ∉ entry.2.fieldCells := by
    obtain ⟨around, others⟩ := begun.houses.apart_child ofChild
    exact ⟨around, others entry (mem_append_left _ isFormer)⟩
  have refreshed : w.store.value d = e.world.store.value d := by
    apply houses.value_eq_inside (mem_append_left _ (begun.fewer isFormer)) begun.bound ?_ inside
    exact fun c bound => apart (View.mem_fieldCells_of_mem_boundCells bound)
  have rendered : w'.store.value d = w.store.value d := by
    apply begun.houses.value_eq_inside
      (mem_cons_of_mem _ (mem_append_left _ isFormer)) below ?_ inside
    intro c isBelow
    apply apart
    rw [View.fieldCells_eq]
    exact mem_append_right _ isBelow
  exact rendered.trans refreshed

theorem boundCells_eq (same : child.SameInstance child') (bindings : List BoundArgument) :
    child'.boundCells bindings = child.boundCells bindings := by
  unfold View.boundCells View.cell?
  rw [same.fields]

/-- The child for a marker has its arguments as long as the fields keep their values. -/
theorem HasBegun.meets {marker : OpenMarker} (freshens : catalog.Freshens render)
    (begun : catalog.HasBegun v sight held subscriptions e key marker.component bindings locals child
      w former)
    (inSight : ∀ entry ∈ v.provided ++ provided, entry.2 ∈ v.ownCells ++ sight)
    (rendered : render child (v.provided ++ provided) w = (.ok (), child', w'))
    (leaves : catalog.Leaves (v.ownCells ++ sight)
      (View.ownedCellsAll (former ++ e.children) ++ (v.ownCells ++ held))
      (View.ownedSubscriptionsAll (former ++ e.children) ++ (v.subscriptions ++ subscriptions))
      child w child' w')
    (grows : w'.Grows now)
    (below : ∀ d ∈ child'.fieldCells, now.store.value d = w'.store.value d)
    (fields : ∀ entry ∈ v.fields, now.store.value entry.2 = w'.store.value entry.2)
    (after : ∀ d ∈ child'.fieldCells, last.world.store.value d = w'.store.value d) :
    catalog.Meets v e last now (key, child') ⟨marker, bindings, locals⟩ := by
  have freshened := freshens _ _ _ _ _ _ _ _ rendered inSight begun.houses.child now grows below
  have grown := begun.grows.trans (leaves.grows.trans grows)
  constructor
  case named => exact leaves.same.name.trans begun.named
  case refreshed => exact begun.isRefreshed leaves below fields
  case fresh => exact freshened.fresh
  case old =>
    intro d inside
    refine (leaves.fieldCells d inside).elim (begun.old d) fun new => .inr ?_
    exact Nat.le_trans begun.grows.store.size new
  case kept =>
    intro d inside known
    rw [after d inside]
    rcases freshened.kept d inside (Nat.lt_of_lt_of_le known begun.grows.store.size) with
      same | ⟨c, bound, group⟩
    · rw [same]
      -- an old cell that changed is in the group of one that an argument was written to
      refine (begun.bound.eq_or_written known).imp_right ?_
      rintro ⟨c, bound, first, group⟩
      have older : c < e.world.store.cells.length := Nat.lt_of_le_of_lt (first d known group) known
      refine ⟨c, .inl (boundCells_eq leaves.same bindings ▸ bound), ?_⟩
      rw [grown.store.group d known, grown.store.group c older, group]
    · exact .inr ⟨c, .inr bound, group⟩

end Child

/-! ## The children of a view -/

theorem lookup_calls_child {path : List String} {index : Nat} {marker : OpenMarker}
    {bindings : List BoundArgument} (role : marker.role = .component bindings)
    (locals : List (String × Json)) (visits : List RenderVisit) (key : String) :
    (calls (.child path index marker locals :: visits)).reverse.lookup key =
      ((calls visits).reverse.lookup key).or
        (if key = childKey path index marker.component then some ⟨marker, bindings, locals⟩
          else none) := by
  have first : calls (.child path index marker locals :: visits) =
      (childKey path index marker.component, ⟨marker, bindings, locals⟩) :: calls visits := by
    simp [calls, RenderVisit.call?, role]
  rw [first, reverse_cons, lookup_append, List.lookup_cons, lookup_nil]
  by_cases same : key = childKey path index marker.component
  · rw [if_pos same, same, beq_self_eq_true]
  · rw [if_neg same, beq_false_of_ne same]

/-- Each of the last children was met for the last call with its key, or was there before and there is
    no such call. -/
theorem meets_of_follows (trees : catalog.LeavesTrees render) (freshens : catalog.Freshens render)
    (inSight : ∀ entry ∈ provided, entry.2 ∈ sight)
    (follows : (catalog.runner render v provided c).Follows e visits last)
    (fit : catalog.Fit (markers visits))
    (houses : v.Houses catalog sight held subscriptions (e.former ++ e.children) e.world)
    (sorted : View.AreSorted e.children) (grows : last.world.Grows now)
    (values : ∀ d ∈ v.fields.map (·.2) ++ View.fieldCellsAll last.children,
      now.store.value d = last.world.store.value d) :
    ∀ entry ∈ last.children,
      (entry ∈ e.children ∧ (calls visits).reverse.lookup entry.1 = none) ∨
        ∃ call, (calls visits).reverse.lookup entry.1 = some call ∧
          catalog.Meets v e last now entry call := by
  induction follows with
  | nil => exact fun entry isChild => .inl ⟨isChild, rfl⟩
  | @child e e' last path index marker bindings locals nodes visits role ran follows ih =>
    have inSight' := v.inSight_child inSight
    obtain ⟨accepts, fit⟩ := forall_mem_cons.mp fit
    obtain ⟨child, w, former, child', w', begins, rendered, _, rfl⟩ := renderChild_ok_iff.mp ran
    -- the child begins, is rendered and comes to the children; then the other visits follow
    have begun := begins.hasBegun inSight (accepts bindings role) houses
    have leaves := trees _ _ _ _ _ _ _ _ _ rendered inSight' begun.houses.child
    obtain ⟨houses', step⟩ := begun.withChild leaves
    have advances := (advances_of_follows trees inSight follows fit houses').2
    have sorted' : View.AreSorted (e.withChild (childKey path index marker.component) child' w'
      former).children := sorted.insertChild _ _
    intro entry isLast
    rw [lookup_calls_child role]
    rcases ih fit houses' sorted' grows values entry isLast with
      ⟨isChild, absent⟩ | ⟨call, found, meets⟩
    · rw [absent, Option.none_or]
      rcases View.eq_or_mem_of_mem_insertChild sorted isChild with rfl | ⟨before, other⟩
      · -- no later call has the key of the child, so nothing of it has changed since
        have after : ∀ d ∈ child'.fieldCells, last.world.store.value d = w'.store.value d := by
          intro d inside
          have same := houses'.value_eq_below advances.spares isChild inside
          exact same.trans (w'.value_dropAll _ d)
        have below : ∀ d ∈ child'.fieldCells, now.store.value d = w'.store.value d := by
          intro d inside
          rw [← after d inside]
          apply values
          rw [View.fieldCellsAll_eq]
          exact mem_append_right _ (mem_flatMap.mpr ⟨_, isLast, inside⟩)
        have fields : ∀ entry ∈ v.fields, now.store.value entry.2 = w'.store.value entry.2 := by
          intro entry isField
          rw [values _ (mem_append_left _ (mem_map_of_mem isField)),
            Execution.Advances.value_field advances houses' isField]
          exact w'.value_dropAll _ entry.2
        have grows' : w'.Grows now :=
          (w'.grows_dropAll _).trans (advances.grows.trans grows)
        exact .inr ⟨_, if_pos rfl,
          begun.meets freshens inSight' rendered leaves grows' below fields after⟩
      · exact .inl ⟨before, if_neg other⟩
    · rw [found, Option.some_or]
      refine .inr ⟨call, rfl, meets.named, meets.refreshed, meets.fresh, fun d inside => ?_, ?_⟩
      · rcases meets.old d inside with isFormer | new
        · exact .inl (View.fieldCellsAll_subset begun.fewer isFormer)
        · exact .inr (Nat.le_trans step.grows.store.size new)
      · intro d inside known
        have known' := Nat.lt_of_lt_of_le known step.grows.store.size
        -- the child that is met later was untouched until then
        have isFormer := (meets.old d inside).resolve_right (Nat.not_le_of_lt known')
        have untouched := begun.value_former houses leaves.spares isFormer
        have same : (e.withChild (childKey path index marker.component) child' w'
            former).world.store.value d = e.world.store.value d :=
          (w'.value_dropAll _ d).trans untouched
        rw [← same]
        exact meets.kept d inside known'
  | @choice e e' last site chosen visits recorded _ ih =>
    have same := Execution.SameViews.of_activate recorded
    rw [← same.former, ← same.children, ← same.world] at houses
    rw [← same.children] at sorted
    intro entry isLast
    rcases ih fit houses sorted grows values entry isLast with
      ⟨isChild, absent⟩ | ⟨call, found, named, refreshed, fresh, old, kept⟩
    · rw [same.children] at isChild
      exact .inl ⟨isChild, absent⟩
    · rw [same.former, same.world] at old
      rw [same.world] at kept
      exact .inr ⟨call, found, named, refreshed, fresh, old, kept⟩
  | loop _ ih => exact ih fit houses sorted grows values

/-- The fields of a view have the same values as long as its body is executed. -/
theorem steady_of_houses (trees : catalog.LeavesTrees render)
    (inSight : ∀ entry ∈ provided, entry.2 ∈ sight) (fit : catalog.Fit (markers visits))
    (houses : v.Houses catalog sight held subscriptions (e.former ++ e.children) e.world)
    (values : ∀ entry ∈ v.fields, now.store.value entry.2 = e.world.store.value entry.2) :
    (catalog.runner render v provided c).Steady now e visits := by
  intro before after e' split follows entry isField
  have fit : catalog.Fit (markers before) := by
    rw [split, markers_append] at fit
    exact (forall_mem_append.mp fit).1
  have advances := (advances_of_follows trees inSight follows fit houses).2
  rw [values entry isField]
  exact Execution.Advances.value_field advances houses isField

/-! ## Rendering views -/

theorem renderWith_freshens (fit : catalog.HasFitCalls) (trees : catalog.LeavesTrees render)
    (freshens : catalog.Freshens render) : catalog.Freshens (catalog.renderWith render) := by
  intro view provided w view' w' sight held subscriptions rendered inSight houses now grows values
  obtain ⟨c, nodes, last, found, ran, rfl, rfl⟩ := run_of_renderWith rendered
  have member := Catalog.mem_of_find? found
  obtain ⟨follows, covers⟩ := BodyRunner.visits_spec ran
  have fit := fit.fit member covers
  have start := houses.start
  have advances := (advances_of_follows trees inSight follows fit start).2
  have values : ∀ d ∈ view.fields.map (·.2) ++ View.fieldCellsAll last.children,
      now.store.value d = last.world.store.value d := by
    rw [View.fieldCells_eq] at values
    exact fun d member => (values d member).trans (last.world.value_dropAll _ d)
  have fields : ∀ entry ∈ view.fields, last.world.store.value entry.2 = w.store.value entry.2 :=
    fun entry isField => Execution.Advances.value_field advances start isField
  have fieldsNow : ∀ entry ∈ view.fields, now.store.value entry.2 = w.store.value entry.2 :=
    fun entry isField => (values _ (mem_append_left _ (mem_map_of_mem isField))).trans
      (fields entry isField)
  -- the fields have their values all the time, so the visits are those that can be foreseen now
  have steady := steady_of_houses (c := c) trees inSight fit start fieldsNow
  have met := meets_of_follows trees freshens inSight follows fit start .nil
    ((last.world.grows_dropAll _).trans grows) values
  rw [BodyRunner.visits_eq_foreseen ran steady] at met
  have called : ∀ entry ∈ last.children, ∃ call,
      (view.rendered last.children last.history last.activations
        (.mk c.name [] [] none nodes)).call? catalog now entry.1 = some call ∧
        catalog.Meets view (view.start w) last now entry call := by
    -- the view has the name and the fields that it had before
    have calls : (view.rendered last.children last.history last.activations
        (.mk c.name [] [] none nodes)).calls catalog now =
        ReactiveView.calls (Foreseen.block view.fields now {} none 0 [] c.render.body) :=
      View.calls_of_find? found now
    intro entry isChild
    rw [View.call?, calls]
    exact (met entry isChild).resolve_left fun old => absurd old.1 not_mem_nil
  constructor
  case fresh =>
    intro u isView entry isChild
    rcases View.mem_subviews_iff.mp isView with rfl | ⟨above, isAbove, isBelow⟩
    · obtain ⟨call, found, meets⟩ := called entry isChild
      exact ⟨call, found, meets.named, meets.refreshed⟩
    · obtain ⟨_, _, meets⟩ := called above isAbove
      exact meets.fresh u isBelow entry isChild
  case kept =>
    intro d inside known
    rw [World.value_dropAll]
    rw [View.fieldCells_eq] at inside
    rcases mem_append.mp inside with own | inside
    · obtain ⟨entry, isField, rfl⟩ := mem_map.mp own
      exact .inl (fields entry isField)
    · rw [View.fieldCellsAll_eq] at inside
      obtain ⟨entry, isChild, inside⟩ := mem_flatMap.mp inside
      obtain ⟨call, found, meets⟩ := called entry isChild
      refine (meets.kept d inside known).imp_right ?_
      rintro ⟨cell, bound | ⟨u, isBelow, bound⟩, group⟩
      · exact ⟨cell, ⟨_, View.mem_subviews_iff.mpr (.inl rfl), entry, isChild, call, found, bound⟩,
          group⟩
      · exact ⟨cell, ⟨u, View.mem_subviews_iff.mpr (.inr ⟨entry, isChild, isBelow⟩), bound⟩, group⟩

theorem render_freshens (fit : catalog.HasFitCalls) (depth : Nat) :
    catalog.Freshens (catalog.render depth) := by
  induction depth with
  | zero =>
    intro _ _ _ _ _ _ _ _ rendered
    cases rendered
  | succ depth ih => exact renderWith_freshens fit (render_leavesTrees fit depth) ih

end Catalog

end ReactiveView
