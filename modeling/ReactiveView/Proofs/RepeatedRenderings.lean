import ReactiveView.Proofs.MirroredExecutions
import ReactiveView.Proofs.UpdatedTrees

/-!
# Views that are rendered twice

A view that is rendered a second time, while its fields and those of the views below it have the same
values, repeats what it did the first time: every marker gets back its child, the arguments of the
child are as they should be, so that nothing is written, and the child repeats what it did
(`Catalog.render_settles`).
-/

namespace ReactiveView

open List
open Reactive (CellId SubscriptionId)

/-! ## Views that repeat -/

namespace View

/-- The branches that a view chose in the last rendering, with their conditionals, in order. -/
def chosen (v : View) : List (UInt32 × Option UInt32) :=
  v.activations.map fun c => (c.site, c.branchId)

/-- No conditional had two different branches in the last rendering. -/
def ChoosesOnce (v : View) : Prop := ∀ a ∈ v.chosen, ∀ b ∈ v.chosen, a.1 = b.1 → a.2 = b.2

/-- A view, apart from those below it, shows the same again.  It records that it has kept every branch
    unless a conditional had two different ones. -/
structure Echoes (v v' : View) : Prop where
  same : v.SameInstance v'
  keys : v'.keyedChildren.map (·.1) = v.keyedChildren.map (·.1)
  tree : v'.tree = v.tree
  chosen : v'.chosen = v.chosen
  shows : ∀ site, v'.activeBranch? site = v.activeBranch? site
  reuses : (∀ c ∈ v'.activations, c.activation = .reuse) ↔ v.ChoosesOnce

/-- A view and all views below it show the same again. -/
def Repeats (v v' : View) : Prop := ∀ path, Option.Rel Echoes (v.below? path) (v'.below? path)

namespace Repeats

variable {v v' : View}

theorem echoes (repeats : v.Repeats v') : v.Echoes v' := by
  cases repeats [] with
  | some echoes => exact echoes

theorem of_children (echoes : v.Echoes v')
    (children : List.Forall₂ (fun entry entry' => entry.1 = entry'.1 ∧ entry.2.Repeats entry'.2)
      v.keyedChildren v'.keyedChildren) : v.Repeats v' := by
  intro path
  cases path with
  | nil => exact .some echoes
  | cons i path =>
    rw [below?_cons, below?_cons, View.children, View.children, List.getElem?_map,
      List.getElem?_map]
    have each := forall₂_iff_get.mp children
    by_cases inside : i < v.keyedChildren.length
    · have inside' : i < v'.keyedChildren.length := each.1 ▸ inside
      rw [List.getElem?_eq_getElem inside, List.getElem?_eq_getElem inside']
      exact (each.2 i inside inside').2 path
    · have outside' : ¬ i < v'.keyedChildren.length := each.1 ▸ inside
      rw [List.getElem?_eq_none_iff.mpr (Nat.le_of_not_lt inside),
        List.getElem?_eq_none_iff.mpr (Nat.le_of_not_lt outside')]
      exact .none

end Repeats

/-- A view that makes the same choices twice in a row shows the same again. -/
theorem echoes_rendered {v : View} {t history history' : BranchHistory}
    {activations activations' : List BranchChoice} {made : List (UInt32 × Option UInt32)}
    {children children' : List (String × View)} (once : activations = (t.record made).1)
    (after : history = (t.record made).2) (twice : activations' = (history.record made).1)
    (after' : history' = (history.record made).2)
    (keys : children'.map (·.1) = children.map (·.1)) (tree : ViewNode) :
    (v.rendered children history activations tree).Echoes
      ((v.rendered children history activations tree).rendered children' history' activations'
        tree) := by
  subst once after twice after'
  have chosen : ((v.rendered children (t.record made).2 (t.record made).1 tree).chosen) = made :=
    BranchHistory.map_record t made
  constructor
  case same => exact ⟨rfl, rfl, rfl, rfl, rfl⟩
  case keys => exact keys
  case tree => rfl
  case chosen => exact (BranchHistory.map_record _ made).trans chosen.symm
  case shows => exact fun site => congrArg Option.join (t.lookup_record_record made site)
  case reuses =>
    rw [ChoosesOnce, chosen]
    exact t.record_record_reuses_iff made

/-- Arguments that have their values have them in every world where the fields have the same
    values. -/
theorem IsRefreshed.congr {child child' : View} {scope : ViewScope} {bindings : List BoundArgument}
    {w w' : World} (refreshed : child.IsRefreshed scope bindings w) (same : child'.fields = child.fields)
    (values : ∀ entry ∈ child.fields, w'.store.value entry.2 = w.store.value entry.2)
    (names : ∀ entry ∈ scope.fields, w'.store.value entry.2 = w.store.value entry.2) :
    child'.IsRefreshed scope bindings w' := by
  intro b member code c isCode found
  rw [cell?, same] at found
  rw [values _ (mem_fields_of_cell? found), ViewScope.eval_congr names]
  exact refreshed b member code c isCode found

/-- The views below keep their values while other views there are written. -/
theorem Houses.value_eq_below {catalog : Catalog} {w w' : World} {sight held : List CellId}
    {subscriptions : List SubscriptionId} {v : View} {former children : List (String × View)}
    (houses : v.Houses catalog sight held subscriptions (former ++ children) w)
    (spares : w.Spares (fieldCellsAll former) w') {entry : String × View} (member : entry ∈ children)
    {d : CellId} (inside : d ∈ entry.2.fieldCells) : w'.store.value d = w.store.value d := by
  have rooted := houses.rooted entry (mem_append_right _ member)
  have based := rooted.based (houses.sits.based houses.based)
  refine based.value_eq spares (fun c written among => ?_) (mem_append_left _ inside)
  have distinct := houses.distinct
  have apart := houses.apart c
  rw [fieldCellsAll_eq, flatMap_append, ← fieldCellsAll_eq, ← fieldCellsAll_eq] at distinct apart
  obtain ⟨_, views, outside⟩ := nodup_append'.mp distinct
  rcases mem_append.mp among with below | around
  · refine (nodup_append'.mp views).2.2 written ?_
    rw [fieldCellsAll_eq]
    exact mem_flatMap.mpr ⟨entry, member, below⟩
  · rcases mem_append.mp around with own | outer
    · exact outside (houses.sits.mem_fields own) (mem_append_left _ written)
    · exact apart outer (mem_append_right _ (mem_append_left _ written))

end View

namespace Catalog

variable {catalog : Catalog} {render : Renderer} {v : View} {provided : Provided} {c : Component}
  {sight held : List CellId} {subscriptions : List SubscriptionId} {visits : List RenderVisit}
  {e e' last : Execution}

/-! ## The rest of an execution -/

/-- Every marker that is met gives its child arguments that the child accepts. -/
def Fit (catalog : Catalog) (met : List MetMarker) : Prop :=
  ∀ m ∈ met, ∀ bindings, m.marker.role = .component bindings →
    ∀ child, catalog.find? m.marker.component = some child → child.Accepts bindings

theorem HasFitCalls.fit (fit : catalog.HasFitCalls) (member : c ∈ catalog.components)
    (covers : Covers [] 0 c.render.body visits) : catalog.Fit (markers visits) := by
  intro m isMet bindings role child found
  obtain ⟨visit, isVisit, same⟩ := mem_filterMap.mp isMet
  cases visit with
  | child path index marker locals =>
    cases same
    exact fit c member marker (covers.mem_openings isVisit) bindings role child found
  | choice | loop => cases same

/-- While markers are met, views are left at their places. -/
theorem advances_of_follows (trees : catalog.LeavesTrees render)
    (inSight : ∀ entry ∈ provided, entry.2 ∈ sight)
    (follows : (catalog.runner render v provided c).Follows e visits last)
    (fit : catalog.Fit (markers visits))
    (houses : v.Houses catalog sight held subscriptions (e.former ++ e.children) e.world) :
    v.Houses catalog sight held subscriptions (last.former ++ last.children) last.world ∧
      e.Advances last := by
  induction follows with
  | nil => exact ⟨houses, .refl _⟩
  | @child e e' last path index marker bindings locals nodes visits role ran _ ih =>
    have fit := forall_mem_cons.mp fit
    obtain ⟨houses, step⟩ := renderChild_advances trees inSight (fit.1 bindings role) houses ran
    exact (ih fit.2 houses).imp_right step.trans
  | choice recorded _ ih =>
    have same := Execution.SameViews.of_activate recorded
    rw [← same.former, ← same.children, ← same.world] at houses
    exact (ih fit houses).imp_right (Execution.Advances.of_sameViews same).trans
  | loop _ ih => exact ih fit houses

/-- The children that were met stay as they are if no marker with their key is met any more. -/
theorem mem_children_of_follows {entry : String × View}
    (follows : (catalog.runner render v provided c).Follows e visits last)
    (new : entry.1 ∉ (markers visits).map (·.key)) (member : entry ∈ e.children) :
    entry ∈ last.children := by
  induction follows with
  | nil => exact member
  | child role ran _ ih =>
    obtain ⟨_, _, _, _, _, _, _, _, rfl⟩ := renderChild_ok_iff.mp ran
    exact ih (not_mem_of_not_mem_cons new)
      (View.mem_insertChild_of_ne member (ne_of_not_mem_cons new))
  | choice recorded _ ih =>
    refine ih new ?_
    rw [(Execution.SameViews.of_activate recorded).children]
    exact member
  | loop _ ih => exact ih new member

theorem record_of_follows (follows : (catalog.runner render v provided c).Follows e visits last) :
    last.activations = e.activations ++ (e.history.record (choices visits)).1 ∧
      last.history = (e.history.record (choices visits)).2 := by
  induction follows with
  | nil => exact ⟨(append_nil _).symm, rfl⟩
  | child role ran _ ih =>
    obtain ⟨_, _, _, _, _, _, _, _, rfl⟩ := renderChild_ok_iff.mp ran
    exact ih
  | choice recorded _ ih =>
    cases recorded
    rw [ih.1, ih.2, append_assoc]
    exact ⟨rfl, rfl⟩
  | loop _ ih => exact ih

/-! ## The execution that repeats another -/

/-- A renderer settles: a view that it has rendered repeats what it did, in every world where the
    fields have the same values. -/
def Settles (catalog : Catalog) (render : Renderer) : Prop :=
  ∀ (view : View) (provided : Provided) (w : World) (view' : View) (w' : World)
    (sight held : List CellId) (subscriptions : List SubscriptionId),
    render view provided w = (.ok (), view', w') → (∀ entry ∈ provided, entry.2 ∈ sight) →
    view.Houses catalog sight held subscriptions view.keyedChildren w →
    ∀ now : World, (∀ d ∈ view'.fieldCells, now.store.value d = w'.store.value d) →
      ∃ view'', render view' provided now = (.ok (), view'', now) ∧ view'.Repeats view''

/-- The state of an execution and that of the execution that repeats it.  The latter has still to meet
    the children that the former will have for the markers to come. -/
structure Replays (catalog : Catalog) (render : Renderer) (v : View) (provided : Provided)
    (c : Component) (sight held : List CellId) (subscriptions : List SubscriptionId)
    (last : Execution) (now : World) (recorded : List BranchChoice × BranchHistory)
    (visits : List RenderVisit) (e e' : Execution) : Prop where
  follows : (catalog.runner render v provided c).Follows e visits last
  fit : catalog.Fit (markers visits)
  houses : v.Houses catalog sight held subscriptions (e.former ++ e.children) e.world
  distinct : (e.children.map (·.1) ++ (markers visits).map (·.key)).Nodup
  world : e'.world = now
  former : e'.former = last.children.filter (·.1 ∈ (markers visits).map (·.key))
  children : List.Forall₂ (fun entry entry' => entry.1 = entry'.1 ∧ entry.2.Repeats entry'.2)
    e.children e'.children
  recorded : (e'.activations ++ (e'.history.record (choices visits)).1,
    (e'.history.record (choices visits)).2) = recorded

variable {now : World} {recorded : List BranchChoice × BranchHistory}

theorem Execution.Advances.value_field (advances : e.Advances e')
    (houses : v.Houses catalog sight held subscriptions (e.former ++ e.children) e.world)
    {entry : String × CellId} (isField : entry ∈ v.fields) :
    e'.world.store.value entry.2 = e.world.store.value entry.2 := by
  have spares : e.world.Spares (View.fieldCellsAll (e.former ++ e.children)) e'.world :=
    advances.spares.mono fun d => (View.fieldCellsAll_subset (subset_append_left _ _) ·)
  apply houses.value_eq spares
  exact mem_append_left _ (mem_map_of_mem (mem_append_left _ isField))

/-- A child that was met has the same values now. -/
theorem value_eq_now (trees : catalog.LeavesTrees render)
    (inSight : ∀ entry ∈ provided, entry.2 ∈ sight)
    (values : ∀ d ∈ v.fields.map (·.2) ++ View.fieldCellsAll last.children,
      now.store.value d = last.world.store.value d)
    (follows : (catalog.runner render v provided c).Follows e visits last)
    (fit : catalog.Fit (markers visits))
    (houses : v.Houses catalog sight held subscriptions (e.former ++ e.children) e.world) :
    (∀ entry ∈ v.fields, now.store.value entry.2 = e.world.store.value entry.2) ∧
      ∀ entry ∈ e.children, entry.1 ∉ (markers visits).map (·.key) → ∀ d ∈ entry.2.fieldCells,
        now.store.value d = e.world.store.value d := by
  have advances := (advances_of_follows trees inSight follows fit houses).2
  constructor
  · intro entry isField
    rw [values _ (mem_append_left _ (mem_map_of_mem isField))]
    exact Execution.Advances.value_field advances houses isField
  · intro entry isChild new d inside
    have stays := mem_children_of_follows follows new isChild
    have among : d ∈ View.fieldCellsAll last.children := by
      rw [View.fieldCellsAll_eq]
      exact mem_flatMap.mpr ⟨entry, stays, inside⟩
    rw [values d (mem_append_right _ among)]
    exact houses.value_eq_below advances.spares isChild inside

/-- The arguments of a child have their values as long as the fields keep theirs. -/
theorem HasBegun.isRefreshed {key component : String} {bindings : List BoundArgument}
    {locals : List (String × Json)} {child child' : View} {w w' : World}
    {former : List (String × View)} {held' : List CellId} {subscriptions' : List SubscriptionId}
    (begun : catalog.HasBegun v sight held subscriptions e key component bindings locals child w
      former)
    (leaves : catalog.Leaves (v.ownCells ++ sight) held' subscriptions' child w child' w')
    (below : ∀ d ∈ child'.fieldCells, now.store.value d = w'.store.value d)
    (fields : ∀ entry ∈ v.fields, now.store.value entry.2 = w'.store.value entry.2) :
    child'.IsRefreshed ⟨v.fields, locals⟩ bindings now := by
  refine begun.refreshed.congr leaves.same.fields (fun entry isField => ?_) fun entry isField => ?_
  · have inside : entry.2 ∈ child'.fieldCells := by
      rw [View.fieldCells_eq, leaves.same.fields]
      exact mem_append_left _ (mem_map_of_mem isField)
    rw [below entry.2 inside]
    refine begun.houses.child.value_eq leaves.spares (mem_append_left _ ?_)
    exact mem_map_of_mem (mem_append_left _ isField)
  · rw [fields entry isField]
    refine begun.houses.child.value_eq leaves.spares (mem_append_right _ ?_)
    exact mem_append_left _ (mem_map_of_mem (mem_append_left _ isField))

/-- The execution of a body and the next one, from the view that the former leaves. -/
theorem Replays.start {w : World} (now : World) (tree : ViewNode)
    (follows : (catalog.runner render v provided c).Follows (v.start w) visits last)
    (fit : catalog.Fit (markers visits))
    (houses : v.Houses catalog sight held subscriptions v.keyedChildren w)
    (distinct : ((markers visits).map (·.key)).Nodup)
    (met : ∀ entry ∈ last.children, entry.1 ∈ (markers visits).map (·.key)) :
    catalog.Replays render v provided c sight held subscriptions last now
      (last.history.record (choices visits)) visits (v.start w)
      ((v.rendered last.children last.history last.activations tree).start now) := by
  refine ⟨follows, fit, houses.start, distinct, rfl, ?_, .nil, rfl⟩
  exact (filter_eq_self.mpr fun entry isChild => decide_eq_true (met entry isChild)).symm

/-- A child whose arguments are what they were begins with nothing to write. -/
theorem Begins.again {key component : String} {bindings : List BoundArgument} {scope : ViewScope}
    {child : View} (found : e.former.lookup key = some child) (named : child.name = component)
    (refreshed : child.IsRefreshed scope bindings e.world) :
    catalog.Begins provided key component bindings scope e child e.world
      (e.former.filter (·.1 ≠ key)) := by
  have kept : catalog.Begins provided key component bindings scope e child
      (e.world.refresh scope child bindings) (e.former.filter (·.1 ≠ key)) := .kept found named
  rwa [World.refresh_of_isRefreshed refreshed] at kept

section

variable (trees : catalog.LeavesTrees render) (settles : catalog.Settles render)
  (inSight : ∀ entry ∈ provided, entry.2 ∈ sight)
  (unique : (last.children.map (·.1)).Nodup)
  (values : ∀ d ∈ v.fields.map (·.2) ++ View.fieldCellsAll last.children,
    now.store.value d = last.world.store.value d)
include trees settles inSight unique values

/-- The child for a marker is the one that was rendered for it, with nothing to write, and it repeats
    what it did. -/
theorem Replays.child {path : List String} {index : Nat} {marker : OpenMarker}
    {bindings : List BoundArgument} {locals : List (String × Json)} {next : Execution} {nodes : List ViewNode}
    (replays : catalog.Replays render v provided c sight held subscriptions last now recorded
      (.child path index marker locals :: visits) e e')
    (role : marker.role = .component bindings)
    (ran : (catalog.renderChild render (v.provided ++ provided)
      (childKey path index marker.component) marker.component bindings
      ⟨v.fields, locals⟩).run.run e = (.ok nodes, next)) :
    ∃ next', (catalog.renderChild render (v.provided ++ provided)
        (childKey path index marker.component) marker.component bindings
        ⟨v.fields, locals⟩).run.run e' = (.ok nodes, next') ∧
      catalog.Replays render v provided c sight held subscriptions last now recorded visits next
        next' := by
  obtain ⟨follows, fit, houses, distinct, world, former, children, recorded⟩ := replays
  cases follows with
  | child role' ran' follows =>
    cases role.symm.trans role'
    cases ran.symm.trans ran'
    obtain ⟨accepts, fit⟩ := forall_mem_cons.mp fit
    have inSight' := v.inSight_child inSight
    obtain ⟨child, w, rest, child', w', begins, rendered, rfl, rfl⟩ := renderChild_ok_iff.mp ran
    have begun := begins.hasBegun inSight (accepts bindings role) houses
    have leaves := trees _ _ _ _ _ _ _ _ _ rendered inSight' begun.houses.child
    have houses' := (begun.withChild leaves).1
    have keys : (markers (.child path index marker locals :: visits)).map (·.key) =
        childKey path index marker.component :: (markers visits).map (·.key) := rfl
    rw [keys] at distinct former
    generalize childKey path index marker.component = key at *
    obtain ⟨_, others, apart⟩ := nodup_append'.mp distinct
    have later : key ∉ (markers visits).map (·.key) := (nodup_cons.mp others).1
    have absent : key ∉ e.children.map (·.1) := fun member => apart member mem_cons_self
    have perm : (View.insertChild key child' e.children).1.Perm ((key, child') :: e.children) :=
      View.insertChild_of_not_mem absent
    have isChild : (key, child') ∈ (e.withChild key child' w' rest).children :=
      perm.symm.subset mem_cons_self
    -- the values of the child and of the fields have not changed since the child was rendered
    obtain ⟨fields, below⟩ := value_eq_now trees inSight values follows fit houses'
    have below : ∀ d ∈ child'.fieldCells, now.store.value d = w'.store.value d :=
      fun d inside => (below _ isChild later d inside).trans (w'.value_dropAll _ d)
    have fields : ∀ entry ∈ v.fields, now.store.value entry.2 = w'.store.value entry.2 :=
      fun entry isField => (fields entry isField).trans (w'.value_dropAll _ entry.2)
    obtain ⟨child'', again, repeats⟩ :=
      settles _ _ _ _ _ _ _ _ rendered inSight' begun.houses.child now below
    have refreshed := begun.isRefreshed leaves below fields
    have found : e'.former.lookup key = some child' := by
      -- no later marker has the key, so the child is among the last ones
      have isLast := mem_children_of_follows follows later isChild
      rw [former]
      refine lookup_of_mem (unique.sublist (filter_sublist.map _)) ?_
      exact mem_filter.mpr ⟨isLast, by simp⟩
    have begins' : catalog.Begins (v.provided ++ provided) key marker.component bindings
        ⟨v.fields, locals⟩ e' child' now (e'.former.filter (·.1 ≠ key)) := by
      rw [← world] at refreshed ⊢
      exact .again found (leaves.same.name.trans begun.named) refreshed
    refine ⟨e'.withChild key child'' now (e'.former.filter (·.1 ≠ key)), ?_, ?_⟩
    · exact renderChild_ok_iff.mpr
        ⟨child', now, _, child'', now, begins', again, by rw [repeats.echoes.tree], rfl⟩
    · constructor
      case follows => exact follows
      case fit => exact fit
      case houses => exact houses'
      case distinct =>
        have keys := (perm.map (·.1)).append_right ((markers visits).map (·.key))
        exact keys.nodup_iff.mpr (perm_middle.nodup_iff.mp distinct)
      case world =>
        change now.dropAll _ = now
        rw [View.replaced_of_not_mem (View.keys_of_forall₂ children ▸ absent)]
        rfl
      case former =>
        change e'.former.filter (·.1 ≠ key) = _
        rw [former, filter_filter]
        refine filter_congr fun entry _ => ?_
        by_cases isKey : entry.1 = key
        · simp [isKey, later]
        · simp [isKey]
      case children => exact View.forall₂_insertChild children repeats
      case recorded => exact recorded

/-- A body is executed again like the first time. -/
theorem replays_mirrors : (catalog.runner render v provided c).Mirrors
    (catalog.Replays render v provided c sight held subscriptions last now recorded) where
  values := by
    intro visits e e' replays
    rw [replays.world]
    exact (value_eq_now trees inSight values replays.follows replays.fit replays.houses).1
  child replays role ran := replays.child trees settles inSight unique values role ran
  choice := by
    intro site chosen visits e e' next next' replays activated activated'
    obtain ⟨follows, fit, houses, distinct, world, former, children, recorded⟩ := replays
    cases follows with
    | choice activated'' follows =>
      cases activated.symm.trans activated''
      cases activated
      cases activated'
      refine ⟨follows, fit, houses, distinct, world, former, children, ?_⟩
      rw [append_assoc]
      exact recorded
  loop := by
    intro count visits e e' replays
    obtain ⟨follows, fit, houses, distinct, world, former, children, recorded⟩ := replays
    cases follows with
    | loop follows => exact ⟨follows, fit, houses, distinct, world, former, children, recorded⟩

/-! ## Rendering twice -/

end

/-- In every component the markers have different addresses. -/
def HasMarkersApart (catalog : Catalog) : Prop :=
  ∀ c ∈ catalog.components, (Stmt.addressesAll 0 c.render.body).Nodup

theorem renderWith_settles (fit : catalog.HasFitCalls) (apart : catalog.HasMarkersApart)
    (keeps : KeepsInstances render) (trees : catalog.LeavesTrees render)
    (settles : catalog.Settles render) : catalog.Settles (catalog.renderWith render) := by
  intro view provided w view' w' sight held subscriptions rendered inSight houses now values
  obtain ⟨c, nodes, last, found, ran, rfl, rfl⟩ := run_of_renderWith rendered
  have member := Catalog.mem_of_find? found
  obtain ⟨follows, covers⟩ := BodyRunner.visits_spec ran
  generalize allVisits : (catalog.runner render view provided c).visits c.render.body
    (view.start w) = visits at follows covers
  have distinct := covers.nodup_keys_of_addresses (apart c member)
  have keeping := (Keeping.start view w).follows keeps follows distinct
  obtain ⟨activations, history⟩ := record_of_follows follows
  have values : ∀ d ∈ view.fields.map (·.2) ++ View.fieldCellsAll last.children,
      now.store.value d = last.world.store.value d := by
    rw [View.fieldCells_eq] at values
    exact fun d member => (values d member).trans (last.world.value_dropAll _ d)
  have first := Replays.start now (.mk c.name [] [] none nodes) follows (fit.fit member covers)
    houses distinct fun entry isChild => keeping.keys.subset (mem_map_of_mem isChild)
  rw [← allVisits] at first
  obtain ⟨last', ran', _, _, _, _, world, former, children, recorded⟩ := BodyRunner.run_mirrors
    (replays_mirrors trees settles inSight keeping.sorted.nodup values) ran first
  rw [allVisits] at recorded
  obtain ⟨activations', history'⟩ := Prod.mk.inj recorded
  -- every child was met again
  have noneLeft : last'.former = [] := former.trans (filter_eq_nil_iff.mpr (by simp [markers]))
  have found' : catalog.find? (view.rendered last.children last.history last.activations
    (.mk c.name [] [] none nodes)).name = some c := found
  have again := renderWith_of_ok found' ran'
  rw [world, noneLeft] at again
  refine ⟨_, again, .of_children ?_ children⟩
  · refine View.echoes_rendered activations history ?_ history' (View.keys_of_forall₂ children) _
    exact (append_nil _).symm.trans activations'

/-- A view that was rendered repeats what it did when it is rendered again and its fields and those of
    the views below it have the same values. -/
theorem render_settles (fit : catalog.HasFitCalls) (apart : catalog.HasMarkersApart) (depth : Nat) :
    catalog.Settles (catalog.render depth) := by
  induction depth with
  | zero =>
    intro _ _ _ _ _ _ _ _ rendered
    cases rendered
  | succ depth ih =>
    exact renderWith_settles fit apart (render_keepsInstances depth) (render_leavesTrees fit depth) ih

end Catalog

end ReactiveView
