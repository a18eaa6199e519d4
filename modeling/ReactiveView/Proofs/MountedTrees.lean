import ReactiveView.Proofs.MountedViews

/-!
# Trees when they are mounted

When a tree is mounted, each of its views is made once and rendered once.  Then the view and all
views below it are at their places (`View.Wired`), and no two of their fields share a cell.  A child
that another one replaces under its key is dropped, but the cells of the others do not go with it.
-/

namespace ReactiveView

open List
open Reactive (CellId SubscriptionId Store)

/-! ## Cells of all fields -/

namespace View

mutual

/-- The cells of the fields of a view and of the views below it. -/
def fieldCells : View → List CellId
  | .mk _ fields _ _ _ children _ _ _ _ => fields.map (·.2) ++ fieldCellsAll children

/-- The cells of the fields of views and of the views below them. -/
def fieldCellsAll : List (String × View) → List CellId
  | [] => []
  | (_, v) :: rest => v.fieldCells ++ fieldCellsAll rest

end

theorem fieldCellsAll_eq (children : List (String × View)) :
    fieldCellsAll children = children.flatMap (·.2.fieldCells) := by
  induction children with
  | nil => rfl
  | cons entry rest ih => rw [fieldCellsAll, ih, flatMap_cons]

theorem fieldCellsAll_subset {views views' : List (String × View)} (among : views ⊆ views') :
    fieldCellsAll views ⊆ fieldCellsAll views' := by
  rw [fieldCellsAll_eq, fieldCellsAll_eq]
  intro d member
  obtain ⟨entry, isEntry, inside⟩ := mem_flatMap.mp member
  exact mem_flatMap.mpr ⟨entry, among isEntry, inside⟩

theorem fieldCells_eq (v : View) :
    v.fieldCells = v.fields.map (·.2) ++ fieldCellsAll v.keyedChildren := by
  obtain ⟨⟩ := v
  rw [fieldCells]
  rfl

variable {key : String} {child : View} {children : List (String × View)}

theorem perm_fieldCellsAll (key : String) (child : View) (children : List (String × View)) :
    (fieldCellsAll (insertChild key child children).1 ++
      fieldCellsAll ((insertChild key child children).2.toList.map (key, ·))).Perm
      (child.fieldCells ++ fieldCellsAll children) := by
  have perm := (perm_insertChild key child children).flatMap_right (·.2.fieldCells)
  simpa only [fieldCellsAll_eq, flatMap_append, flatMap_cons] using perm

/-- What the child that is replaced owns can be given back. -/
theorem owns_insertChild {w : World} {cells : List CellId} {subscriptions : List SubscriptionId}
    (owns : w.Owns (child.ownedCells ++ (ownedCellsAll children ++ cells))
      (child.ownedSubscriptions ++ (ownedSubscriptionsAll children ++ subscriptions))) :
    (w.dropAll ((insertChild key child children).2.toList.map (key, ·))).Owns
      (ownedCellsAll (insertChild key child children).1 ++ cells)
      (ownedSubscriptionsAll (insertChild key child children).1 ++ subscriptions) := by
  have perm := (perm_insertChild key child children).symm.trans perm_append_comm
  have cells' := (perm.flatMap_right (·.2.ownedCells)).append_right cells
  have subscriptions' := (perm.flatMap_right (·.2.ownedSubscriptions)).append_right subscriptions
  refine World.Owns.dropAll (owns.perm ?_ ?_)
  · simpa only [ownedCellsAll_eq, flatMap_append, flatMap_cons, append_assoc]
      using cells'
  · simpa only [ownedSubscriptionsAll_eq, flatMap_append, flatMap_cons,
      append_assoc] using subscriptions'

end View

/-! ## Calls -/

/-- A marker of a body is met under a key. -/
def Stmt.Meets (body : List Stmt) (key : String) (marker : OpenMarker) : Prop :=
  ∃ visits path index locals, Covers [] 0 body visits ∧
    .child path index marker locals ∈ visits ∧ key = childKey path index marker.component

theorem Stmt.mem_openingsBranches {arms : List (BranchArm Stmt)} {arm : BranchArm Stmt}
    (isArm : arm ∈ arms) {marker : OpenMarker} (member : marker ∈ openingsAll arm.body) :
    marker ∈ openingsBranches arms := by
  induction arms with
  | nil => cases isArm
  | cons first arms ih =>
    obtain ⟨condition, branchId, body⟩ := first
    rw [openingsBranches, mem_append]
    rcases mem_cons.mp isArm with rfl | later
    · exact .inl member
    · exact .inr (ih later)

mutual

theorem CoversStmt.mem_openings {path : List String} {index : Nat} {s : Stmt}
    {visits : List RenderVisit} {inner : List String} {position : Nat} {marker : OpenMarker}
    {locals : List (String × Json)} :
    CoversStmt path index s visits → .child inner position marker locals ∈ visits →
      marker ∈ s.openings
  | .plain _, member | .closing, member | .code, member => absurd member not_mem_nil
  | .child _, member => by
    rw [mem_singleton] at member
    cases member
    exact mem_singleton_self _
  | .none, member => by
    rw [mem_singleton] at member
    cases member
  | .arm chosen covers, member => by
    have below := covers.mem_openings (mem_of_ne_of_mem RenderVisit.noConfusion member)
    exact Stmt.mem_openingsBranches (mem_of_getElem? chosen) below
  | .items each, member =>
    each.mem_openings (mem_of_ne_of_mem RenderVisit.noConfusion member)

theorem Covers.mem_openings {path : List String} {index : Nat} {body : List Stmt}
    {visits : List RenderVisit} {inner : List String} {position : Nat} {marker : OpenMarker}
    {locals : List (String × Json)} :
    Covers path index body visits → .child inner position marker locals ∈ visits →
      marker ∈ Stmt.openingsAll body
  | .nil, member => absurd member not_mem_nil
  | .cons head tail, member => by
    rw [Stmt.openingsAll, mem_append]
    exact (mem_append.mp member).imp head.mem_openings tail.mem_openings

theorem CoversItems.mem_openings {path : List String} {index count : Nat} {body : List Stmt}
    {visits : List RenderVisit} {inner : List String} {position : Nat} {marker : OpenMarker}
    {locals : List (String × Json)} :
    CoversItems path body index count visits → .child inner position marker locals ∈ visits →
      marker ∈ Stmt.openingsAll body
  | .nil, member => absurd member not_mem_nil
  | .cons head tail, member =>
    (mem_append.mp member).elim head.mem_openings tail.mem_openings

end

theorem Stmt.Meets.mem_openings {body : List Stmt} {key : String} {marker : OpenMarker}
    (meets : Stmt.Meets body key marker) : marker ∈ Stmt.openingsAll body := by
  obtain ⟨_, _, _, _, covers, member, _⟩ := meets
  exact covers.mem_openings member

/-- A marker for which a child was made: its bindings and the items that they see. -/
structure Call where
  marker : OpenMarker
  bindings : List BoundArgument
  locals : List (String × Json)
deriving Inhabited

/-- A child was made for a marker of the body of a component. -/
structure Component.Calls (c : Component) (entry : String × View) (call : Call) : Prop where
  role : call.marker.role = .component call.bindings
  named : entry.2.name = call.marker.component
  met : Stmt.Meets c.render.body entry.1 call.marker

/-- The place of a child. -/
def View.childSite (v : View) (site : Site) (call : Call) : Site :=
  ⟨call.bindings, ⟨v.fields, call.locals⟩, v.provided ++ site.provided⟩

/-- A view and the views below it are at their places. -/
inductive View.Wired (catalog : Catalog) (w : World) : Site → View → Prop
  | intro {site : Site} {v : View} {c : Component} (call : String × View → Call)
      (found : catalog.find? v.name = some c) (seated : v.Seated w site c.slots)
      (called : ∀ entry ∈ v.keyedChildren, c.Calls entry (call entry))
      (children : ∀ entry ∈ v.keyedChildren,
        Wired catalog w (v.childSite site (call entry)) entry.2) : Wired catalog w site v

theorem View.Wired.grows {catalog : Catalog} {w w' : World} {site : Site} {v : View}
    (wired : v.Wired catalog w site) (grows : w.Grows w') : v.Wired catalog w' site := by
  induction wired with
  | intro call found seated called _ ih => exact .intro call found (seated.grows grows) called ih

/-! ## Mounting -/

/-- A view was made before and is rendered now for the first time, with what it owns and others hold
    kept. -/
structure Catalog.Mounts (catalog : Catalog) (site : Site) (view : View) (w : World) (view' : View)
    (w' : World) (cells : List CellId) (subscriptions : List SubscriptionId) : Prop where
  named : view'.name = view.name
  fields : view'.fields = view.fields
  wired : view'.Wired catalog w' site
  new : ∀ d ∈ View.fieldCellsAll view'.keyedChildren,
    w.store.cells.length ≤ d ∧ d < w'.store.cells.length
  distinct : (View.fieldCellsAll view'.keyedChildren).Nodup
  quiet : w'.Quiet
  grows : w.Grows w'
  owns : w'.Owns (view'.ownedCells ++ cells) (view'.ownedSubscriptions ++ subscriptions)

/-- What is known while the children of a view are made. -/
structure Catalog.Building (catalog : Catalog) (c : Component) (site : Site) (v : View) (w : World)
    (cells : List CellId) (subscriptions : List SubscriptionId) (e : Execution) : Prop where
  former : e.former = []
  wired : ∀ entry ∈ e.children, ∃ call, c.Calls entry call ∧
    entry.2.Wired catalog e.world (v.childSite site call)
  new : ∀ d ∈ View.fieldCellsAll e.children,
    w.store.cells.length ≤ d ∧ d < e.world.store.cells.length
  distinct : (View.fieldCellsAll e.children).Nodup
  quiet : e.world.Quiet
  grows : w.Grows e.world
  owns : e.world.Owns (View.ownedCellsAll e.children ++ (v.ownedCells ++ cells))
    (View.ownedSubscriptionsAll e.children ++ (v.ownedSubscriptions ++ subscriptions))

/-- A tree is at its place where nothing is in sight, no two of its fields share a cell, and it owns
    what it has. -/
structure View.Mounted (catalog : Catalog) (w : World) (root : View) : Prop where
  wired : root.Wired catalog w {}
  distinct : root.fieldCells.Nodup
  quiet : w.Quiet
  owns : w.Owns root.ownedCells root.ownedSubscriptions

namespace Catalog

variable {catalog : Catalog} {render : Renderer}

/-- Views that a renderer renders for the first time are mounted. -/
def MountsAll (catalog : Catalog) (render : Renderer) : Prop :=
  ∀ (site : Site) (c : Component) (view view' : View) (w w' : World) (cells : List CellId)
    (subscriptions : List SubscriptionId),
    render view site.provided w = (.ok (), view', w') → view.keyedChildren = [] →
    catalog.find? view.name = some c → view.Seated w site c.slots → w.Quiet →
    (∀ entry ∈ site.provided, entry.2 ∈ cells) →
    w.Owns (view.ownedCells ++ cells) (view.ownedSubscriptions ++ subscriptions) →
    catalog.Mounts site view w view' w' cells subscriptions

/-- Where no child is kept, the child for a marker is made and rendered. -/
theorem renderChild_of_ok {provided : Provided} {key component : String}
    {bindings : List BoundArgument} {scope : ViewScope} {e e' : Execution} {nodes : List ViewNode}
    (former : e.former = [])
    (ran : (catalog.renderChild render provided key component bindings scope).run.run e =
      (.ok nodes, e')) :
    ∃ child w child' w', catalog.instantiate component ⟨bindings, scope, provided⟩ e.world =
        (.ok child, w) ∧ render child provided w = (.ok (), child', w') ∧
      e' = e.withChild key child' w' e.former := by
  obtain ⟨child, w, _, child', w', begins, rendered, _, rfl⟩ := renderChild_ok_iff.mp ran
  cases begins with
  | kept found =>
    rw [former] at found
    cases found
  | made _ made => exact ⟨child, w, child', w', made, rendered, rfl⟩

variable {c : Component} {site : Site} {v : View} {w : World} {cells : List CellId}
  {subscriptions : List SubscriptionId} {e e' : Execution}

/-- No two fields of a view that was made and mounted, or of views below it, share a cell. -/
theorem Mounts.fieldCells {name : String} {middle w' : World} {view view' : View}
    (makes : catalog.Makes name site w view middle)
    (mounts : catalog.Mounts site view middle view' w' cells subscriptions) :
    (∀ d ∈ view'.fieldCells, w.store.cells.length ≤ d ∧ d < w'.store.cells.length) ∧
      view'.fieldCells.Nodup := by
  obtain ⟨_, _, seated⟩ := makes.seated
  rw [View.fieldCells_eq, mounts.fields]
  constructor
  · intro d member
    rcases mem_append.mp member with own | below
    · exact ⟨makes.new d own, Nat.lt_of_lt_of_le (seated.known own) mounts.grows.store.size⟩
    · exact ⟨Nat.le_trans makes.grows.store.size (mounts.new d below).1, (mounts.new d below).2⟩
  · rw [nodup_append]
    refine ⟨seated.ascending.imp Nat.ne_of_lt, mounts.distinct, ?_⟩
    intro d own d' below
    exact Nat.ne_of_lt (Nat.lt_of_lt_of_le (seated.known own) (mounts.new d' below).1)

/-- The child for a marker is mounted at its place and kept under its key. -/
theorem Building.child (mounts : catalog.MountsAll render)
    (building : catalog.Building c site v w cells subscriptions e)
    (provided : ∀ entry ∈ site.provided, entry.2 ∈ cells) {key : String} (call : Call)
    (role : call.marker.role = .component call.bindings)
    (met : Stmt.Meets c.render.body key call.marker) {nodes : List ViewNode}
    (ran : (catalog.renderChild render (v.provided ++ site.provided) key call.marker.component
      call.bindings ⟨v.fields, call.locals⟩).run.run e = (.ok nodes, e')) :
    catalog.Building c site v w cells subscriptions e' := by
  obtain ⟨child, middle, child', last, made, rendered, rfl⟩ :=
    renderChild_of_ok building.former ran
  -- what the place of the child gives belongs to the view or to those who hold the cells in sight
  have sources : ∀ entry ∈ v.fields ++ (v.provided ++ site.provided),
      entry.2 ∈ View.ownedCellsAll e.children ++ (v.ownedCells ++ cells) := by
    intro entry member
    rw [← append_assoc, mem_append] at member
    rw [View.ownedCells_eq, ← map_append]
    rcases member with own | outer
    · exact mem_append_right _ (mem_append_left _
        (mem_append_left _ (mem_map_of_mem own)))
    · exact mem_append_right _ (mem_append_right _ (provided entry outer))
  have sources' : ∀ d ∈ (v.childSite site call).sources,
      d ∈ View.ownedCellsAll e.children ++ (v.ownedCells ++ cells) :=
    forall_mem_map.mpr sources
  have makes := instantiate_spec building.quiet building.owns sources' made
  obtain ⟨component, found, seated⟩ := makes.seated
  have mounted := mounts (v.childSite site call) component child child' middle last _ _ rendered
    makes.children (makes.named ▸ found) seated makes.quiet
    (fun entry member => sources entry (mem_append_right _ member))
    (makes.owns _ _ building.owns)
  have grows := (makes.grows.trans mounted.grows).trans (last.grows_dropAll
    ((View.insertChild key child' e.children).2.toList.map (key, ·)))
  obtain ⟨new, distinct⟩ := mounted.fieldCells makes
  have perm := View.perm_fieldCellsAll key child' e.children
  constructor
  case former => exact building.former
  case wired =>
    intro entry member
    rcases mem_insertChild member with rfl | old
    · refine ⟨call, ⟨role, mounted.named.trans makes.named, met⟩, ?_⟩
      exact mounted.wired.grows (last.grows_dropAll _)
    · obtain ⟨call', called, wired⟩ := building.wired entry old
      exact ⟨call', called, wired.grows grows⟩
  case new =>
    intro d member
    rcases mem_append.mp (perm.subset (mem_append_left _ member)) with below | old
    · exact ⟨Nat.le_trans building.grows.store.size (new d below).1,
        Nat.lt_of_lt_of_le (new d below).2 (last.grows_dropAll _).store.size⟩
    · exact ⟨(building.new d old).1, Nat.lt_of_lt_of_le (building.new d old).2 grows.store.size⟩
  case distinct =>
    have all : (child'.fieldCells ++ View.fieldCellsAll e.children).Nodup := by
      rw [nodup_append]
      refine ⟨distinct, building.distinct, ?_⟩
      intro d below d' old
      exact Nat.ne_of_gt (Nat.lt_of_lt_of_le (building.new d' old).2 (new d below).1)
    exact (perm.symm.nodup all).of_append_left
  case quiet => exact mounted.quiet.dropAll _
  case grows => exact building.grows.trans grows
  case owns => exact View.owns_insertChild mounted.owns

theorem Building.sameViews (building : catalog.Building c site v w cells subscriptions e)
    (same : e.SameViews e') : catalog.Building c site v w cells subscriptions e' := by
  obtain ⟨world, former, _⟩ := e
  obtain ⟨_, _, _⟩ := e'
  obtain ⟨rfl, rfl, rfl⟩ := same
  exact ⟨building.former, building.wired, building.new, building.distinct, building.quiet,
    building.grows, building.owns⟩

theorem Building.follows (mounts : catalog.MountsAll render)
    (provided : ∀ entry ∈ site.provided, entry.2 ∈ cells) {visits all : List RenderVisit}
    (covers : Covers [] 0 c.render.body all)
    (follows : (catalog.runner render v site.provided c).Follows e visits e')
    (visited : ∀ visit ∈ visits, visit ∈ all)
    (building : catalog.Building c site v w cells subscriptions e) :
    catalog.Building c site v w cells subscriptions e' := by
  induction follows with
  | nil => exact building
  | @child e e' last path index marker bindings locals nodes visits role ran _ ih =>
    rw [forall_mem_cons] at visited
    have met : Stmt.Meets c.render.body (childKey path index marker.component) marker :=
      ⟨all, path, index, locals, covers, visited.1, rfl⟩
    exact ih visited.2 (building.child mounts provided ⟨marker, bindings, locals⟩ role met ran)
  | choice recorded _ ih =>
    exact ih (forall_mem_cons.mp visited).2 (building.sameViews (.of_activate recorded))
  | loop _ ih => exact ih (forall_mem_cons.mp visited).2 building

theorem renderWith_mounts (mounts : catalog.MountsAll render) :
    catalog.MountsAll (catalog.renderWith render) := by
  intro site c view view' w w' cells subscriptions rendered childless found seated quiet provided
    owns
  obtain ⟨c', nodes, e, found', ran, rfl, rfl⟩ := run_of_renderWith rendered
  cases found.symm.trans found'
  obtain ⟨follows, covers⟩ := BodyRunner.visits_spec ran
  have start : catalog.Building c site view w cells subscriptions (view.start w) :=
    ⟨childless, nofun, nofun, .nil, quiet, .refl w, owns⟩
  have building := start.follows mounts provided covers follows fun _ => id
  -- each child has the call that it was made for
  choose! call called wired using building.wired
  rw [building.former]
  constructor
  case named => rfl
  case fields => rfl
  case wired =>
    refine .intro call found ?_ called wired
    have seated := seated.grows building.grows
    exact ⟨seated.fills, seated.provisions, seated.ascending, seated.number,
      seated.registered, seated.asks, seated.distinct⟩
  case new => exact building.new
  case distinct => exact building.distinct
  case quiet => exact building.quiet
  case grows => exact building.grows
  case owns =>
    refine building.owns.mono (fun d => ?_) fun n => ?_
    · simp only [View.ownedCells_eq, childless, View.ownedCellsAll, count_append,
        count_nil]
      dsimp only [View.rendered, View.fields, View.provided, View.keyedChildren]
      omega
    · simp only [View.ownedSubscriptions_eq, childless, View.ownedSubscriptionsAll,
        count_append, count_nil]
      dsimp only [View.rendered, View.subscriptions, View.keyedChildren]
      omega

theorem render_mounts (depth : Nat) : catalog.MountsAll (catalog.render depth) := by
  induction depth with
  | zero =>
    intro _ _ _ _ _ _ _ _ rendered
    cases rendered
  | succ depth ih => exact renderWith_mounts ih

theorem mountTo_spec {depth : Nat} {name : String} {w' : World} {root : View} (quiet : w.Quiet)
    (mounted : catalog.mountTo depth name w = (.ok root, w')) : root.Mounted catalog w' := by
  unfold mountTo at mounted
  split at mounted
  · cases mounted
  next view middle made =>
    split at mounted
    next root last rendered =>
      cases mounted
      have makes := instantiate_spec quiet (.nothing w)
        (fun _ member => absurd member not_mem_nil) made
      obtain ⟨c, found, seated⟩ := makes.seated
      have mounts := render_mounts depth {} c view root middle w' [] [] rendered makes.children
        (makes.named ▸ found) seated makes.quiet nofun (makes.owns [] [] (.nothing w))
      have owns := mounts.owns
      rw [append_nil, append_nil] at owns
      exact ⟨mounts.wired, (mounts.fieldCells makes).2, mounts.quiet, owns⟩
    · cases mounted

end Catalog

end ReactiveView
