import ReactiveView.Proofs.RepeatedRenderings
import ReactiveView.Proofs.TracedTrees

/-!
# Updates that change nothing

In every state that a session can reach, the root is at its place (`ViewSession.IsSound`).  So an
update that follows an update, with no write in between, writes nothing and shows the same.
-/

namespace ReactiveView

open List
open Reactive (CellId SubscriptionId)

/-! ## Components of a module -/

/-- In lowered components whose loops are apart the markers have different addresses. -/
theorem Catalog.IsLowered.hasMarkersApart {catalog : Catalog} (lowered : catalog.IsLowered)
    (few : ∀ c ∈ catalog.components, Stmt.forks c.render.body < 2 ^ 32)
    (apart : ∀ c ∈ catalog.components, Stmt.haveLoopsApart c.render.body = true) :
    catalog.HasMarkersApart := fun c member =>
  Stmt.nodup_addressesAll _ 0 ((lowered.numbered member).areDistinct (few c member))
    (apart c member)

theorem BoundArgument.of_refreshed? {b : BoundArgument} {code : String}
    (refreshed : b.refreshed? = some code) : b.binding = .oneWay ∧ b.value = .expression code := by
  unfold refreshed? at refreshed
  split at refreshed
  next oneWay value =>
    cases refreshed
    exact ⟨oneWay, value⟩
  · cases refreshed

theorem BodyContext.binding_resolveBound (ctx : BodyContext) (b : BoundArgument) :
    (ctx.resolveBound b).binding = b.binding := by
  unfold resolveBound
  split <;> rfl

section

variable {c decl : Component} {site : CallSite} {args : List Argument}
  {bound : List BoundArgument} (binds : site.bind c args = .ok bound)
  (distinct : (c.fieldTable.entries.map (·.name)).Nodup)
  (slots : decl.slots.map (fun slot => (slot.1, slot.2.1)) =
    c.fieldTable.entries.map fun row => (row.slot.1, row.slot.2.1))
include binds distinct slots

/-- A slot whose field gets an argument has the binding of the argument. -/
theorem Component.slot_of_bind {b : BoundArgument} (isBound : b ∈ bound)
    {slot : String × Option BindingKind × Option String}
    (isSlot : decl.slots.find? (·.1 = b.field) = some slot) :
    ∃ row ∈ c.fieldTable.entries, slot.2.1 = row.slot.2.1 ∧ b.binding = row.binding := by
  obtain ⟨_, _, binds⟩ := except_bind_ok_iff.mp binds
  obtain ⟨row, isRow, bindsRow⟩ := CallSite.row_of_mem_bindFields binds isBound
  obtain ⟨field, binding⟩ := CallSite.eq_of_bindField bindsRow
  have isRow' : (slot.1, slot.2.1) ∈ c.fieldTable.entries.map
      fun row => (row.slot.1, row.slot.2.1) :=
    slots ▸ mem_map_of_mem (mem_of_find?_eq_some isSlot)
  obtain ⟨row', isRow', same⟩ := mem_map.mp isRow'
  obtain ⟨name, kind⟩ := Prod.mk.inj same
  have named : slot.1 = b.field := by simpa using List.find?_some isSlot
  obtain rfl : row' = row := inj_on_of_nodup_map distinct isRow' isRow
    (name.trans (named.trans field))
  exact ⟨row', isRow, kind.symm, binding⟩

/-- A component whose fields have different names accepts the arguments of its calls. -/
theorem Component.accepts_of_bind (ctx : BodyContext) :
    decl.Accepts (bound.map ctx.resolveBound) := by
  have fields : ((bound.map ctx.resolveBound).map (·.field)).Nodup := by
    obtain ⟨_, _, binds⟩ := except_bind_ok_iff.mp binds
    have resolved : (bound.map ctx.resolveBound).map (·.field) = bound.map (·.field) := by
      rw [map_map]
      exact map_congr_left fun b _ => CallSite.field_resolveBound ctx b
    rw [resolved]
    exact distinct.sublist (CallSite.fields_of_bindFields binds)
  intro b member code refreshed
  obtain ⟨oneWay, value⟩ := b.of_refreshed? refreshed
  constructor
  · -- the argument is the only one for its field
    cases found : (bound.map ctx.resolveBound).find? (·.field = b.field) with
    | none => exact absurd (List.find?_eq_none.mp found b member) (by simp)
    | some first =>
      have named : first.field = b.field := by simpa using List.find?_some found
      rw [inj_on_of_nodup_map fields (mem_of_find?_eq_some found) member named,
        Option.map_some, value]
  · intro slot isSlot
    obtain ⟨b, isBound, rfl⟩ := mem_map.mp member
    rw [CallSite.field_resolveBound] at isSlot
    obtain ⟨row, _, kind, binding⟩ := slot_of_bind binds distinct slots isBound isSlot
    -- the argument for a tied field would not be one-way
    rw [kind]
    by_contra tied
    rw [Bool.not_eq_false] at tied
    rw [ctx.binding_resolveBound, binding] at oneWay
    rcases (row.binding_of_tied tied).2 with twoWay | ⟨key, consumes⟩
    · rw [oneWay] at twoWay
      cases twoWay
    · rw [oneWay] at consumes
      cases consumes

end

/-- A marker for a child binds the arguments of a call to the fields that the child was lowered from. -/
theorem Module.bind_of_marker {m : Module} {options : Options} {parser : Script.Parser}
    (source : ∀ c ∈ m.components, c.isSource = true)
    (success : (m.lower options parser).isSuccess = true) {decl : Component}
    (isDecl : decl ∈ (Catalog.ofOutput (m.lower options parser)).components) {marker : OpenMarker}
    (isMarker : marker ∈ Stmt.openingsAll decl.render.body) {bindings : List BoundArgument}
    (role : marker.role = .component bindings) {child : Component}
    (found : (Catalog.ofOutput (m.lower options parser)).find? marker.component = some child) :
    ∃ c ∈ m.components, ∃ site args bound, ∃ ctx : BodyContext,
      CallSite.bind site c args = .ok bound ∧ bindings = bound.map ctx.resolveBound ∧
        child.slots.map (fun slot => (slot.1, slot.2.1)) =
          c.fieldTable.entries.map fun row => (row.slot.1, row.slot.2.1) := by
  obtain ⟨distinct, outs, each⟩ := isSuccess_lower_iff.mp success
  obtain ⟨out, isOut, rfl⟩ := mem_map.mp isDecl
  obtain ⟨c, declared, lowered⟩ := exists_of_mem_lowered isOut
  obtain ⟨c', declared', named, _, head, _, _, bound, binds, rfl⟩ :=
    ModuleScope.child_of_marker lowered (source c declared) isMarker role
  obtain ⟨out', _, lowered'⟩ := each.exists_of_mem declared'
  rw [lower_eq_of_lowersEach distinct each, Catalog.ofOutput, ModuleOutcome.lowered_outcomes,
    ← named, each.find? distinct declared' lowered'] at found
  cases found
  exact ⟨c', declared', _, _, bound, _, binds, rfl, ModuleScope.slots_of_lowerComponent lowered'⟩

/-- In a module that is lowered without errors the arguments of calls are accepted, if no component
    has two fields of one name. -/
theorem Module.hasFitCalls {m : Module} {options : Options} {parser : Script.Parser}
    (source : ∀ c ∈ m.components, c.isSource = true)
    (fields : ∀ c ∈ m.components, (c.fieldTable.entries.map (·.name)).Nodup)
    (success : (m.lower options parser).isSuccess = true) :
    (Catalog.ofOutput (m.lower options parser)).HasFitCalls := by
  intro decl isDecl marker isMarker bindings role child found
  obtain ⟨c, declared, site, args, bound, ctx, binds, rfl, slots⟩ :=
    bind_of_marker source success isDecl isMarker role found
  exact Component.accepts_of_bind binds (fields c declared) slots ctx

/-! ## Views inside a tree -/

theorem View.modifyChild_eq_some {α : Type} {name : String} {f : View → Option (α × View)}
    {children children' : List (String × View)} {a : α}
    (modified : modifyChild name f children = some (a, children')) :
    ∃ before key child child' after, children = before ++ (key, child) :: after ∧
      f child = some (a, child') ∧ children' = before ++ (key, child') :: after ∧
      child.name = name ∧ ∀ entry ∈ before, entry.2.name ≠ name := by
  induction children generalizing children' with
  | nil => cases modified
  | cons entry rest ih =>
    obtain ⟨key, child⟩ := entry
    rw [modifyChild] at modified
    split at modified
    next named =>
      obtain ⟨⟨a', child'⟩, changed, same⟩ := Option.map_eq_some_iff.mp modified
      cases same
      exact ⟨[], key, child, child', rest, rfl, changed, rfl, named,
        forall_mem_nil _⟩
    next other =>
      obtain ⟨⟨a', rest'⟩, changed, same⟩ := Option.map_eq_some_iff.mp modified
      cases same
      obtain ⟨before, key', child', child'', after, rfl, inner, rfl, named, others⟩ := ih changed
      exact ⟨(key, child) :: before, key', child', child'', after, rfl, inner, rfl, named,
        forall_mem_cons.mpr ⟨other, others⟩⟩

namespace Catalog

variable {catalog : Catalog} {render : Renderer} {w w' : World} {v v' : View}
  {sight held : List CellId} {subscriptions : List SubscriptionId}

/-- A view whose child was rendered has its other children as before. -/
theorem Leaves.around {before after : List (String × View)} {key : String} {child child' : View}
    (children : v.keyedChildren = before ++ (key, child) :: after)
    (houses : v.Houses catalog sight held subscriptions v.keyedChildren w)
    (leaves : catalog.Leaves (v.ownCells ++ sight)
      (View.ownedCellsAll (before ++ after) ++ (v.ownCells ++ held))
      (View.ownedSubscriptionsAll (before ++ after) ++ (v.subscriptions ++ subscriptions)) child w
      child' w') :
    catalog.Leaves sight held subscriptions v w
      (v.withChildren (before ++ (key, child') :: after) v.history) w' := by
  have same : v.SameInstance (v.withChildren (before ++ (key, child') :: after) v.history) :=
    ⟨rfl, rfl, rfl, rfl, rfl⟩
  have cells (inner : View) (d : CellId) :
      d ∈ View.fieldCellsAll (before ++ (key, inner) :: after) ↔
        d ∈ inner.fieldCells ∨ d ∈ View.fieldCellsAll (before ++ after) := by
    simp only [View.fieldCellsAll_eq, flatMap_append, flatMap_cons, mem_append]
    exact or_left_comm
  rw [children] at houses
  have houses := (houses.fewer perm_middle.symm.subperm).replace leaves.grows leaves.houses
    leaves.fieldCells
  refine ⟨same, (houses.fewer perm_middle.subperm).sameInstance same, leaves.grows, ?_, ?_⟩
  · refine leaves.spares.mono fun d written => ?_
    rw [children, cells, View.fieldCells_eq]
    exact .inl (mem_append_right _ written)
  · intro d member
    rw [children, cells]
    rcases (cells child' d).mp member with inside | outside
    · exact (leaves.fieldCells d inside).imp_left .inl
    · exact .inl (.inr outside)

/-- To render a view inside a tree leaves the tree at its place. -/
theorem LeavesTrees.modify (trees : catalog.LeavesTrees render) {result : Except RenderFault Unit}
    {f : View → (Except RenderFault Unit × World) × View}
    (renders : ∀ u, render u [] w = ((f u).1.1, (f u).2, (f u).1.2)) {path : List String}
    (modified : View.modify f path v = some ((result, w'), v'))
    (houses : v.Houses catalog sight held subscriptions v.keyedChildren w) :
    catalog.Leaves sight held subscriptions v w v' w' := by
  induction path generalizing v v' sight held subscriptions with
  | nil =>
    have changed := Option.some.inj modified
    have rendered := renders v
    rw [changed] at rendered
    exact trees _ _ _ _ _ _ _ _ _ rendered nofun houses
  | cons name path ih =>
    obtain ⟨⟨_, children'⟩, changed, same⟩ := Option.map_eq_some_iff.mp modified
    cases same
    obtain ⟨before, key, child, child', after, children, inner, rfl, _⟩ :=
      View.modifyChild_eq_some changed
    refine Leaves.around children houses (ih inner ?_)
    rw [children] at houses
    exact (houses.fewer perm_middle.symm.subperm).child

/-- A root that is mounted is at its place. -/
theorem mountTo_leaves (fit : catalog.HasFitCalls) (quiet : w.Quiet) (depth : Nat) (name : String) :
    (catalog.mountTo depth name w).2.Quiet ∧ ∀ root, (catalog.mountTo depth name w).1 = .ok root →
      root.Houses catalog [] [] [] root.keyedChildren (catalog.mountTo depth name w).2 := by
  have rootless : ∀ d ∈ Site.sources {}, d ∈ ([] : List CellId) := fun _ => id
  unfold mountTo
  split
  next fault middle failed =>
    exact ⟨(instantiate_releases quiet (.nothing _) rootless failed).1, nofun⟩
  next view middle made =>
    have makes := instantiate_spec quiet (.nothing _) rootless made
    have houses := View.Houses.of_makes makes rootless (.nil w) (fun _ => id) (.nothing w)
    have leaves := render_leavesTrees fit depth view [] middle _ _ _ [] [] [] rfl nofun houses
    split
    next view' last rendered =>
      rw [rendered] at leaves
      refine ⟨leaves.houses.quiet, fun root same => ?_⟩
      cases same
      exact leaves.houses
    next fault view' last rendered =>
      rw [rendered] at leaves
      exact ⟨leaves.houses.quiet.drop view', nofun⟩

end Catalog

/-! ## Watches that write nothing -/

namespace World

variable {w : World}

theorem grows_watch (w : World) (c : CellId) (watch : Watch) :
    w.Grows (w.subscribe c (.watch watch)).2 where
  store := .subscribe w.store c
  entries := prefix_append _ _
  requests := Nat.le_refl _
  fresh view _ n asks := by
    simp only [World.subscribe, Listeners.asks] at asks ⊢
    by_cases old : n < w.listeners.entries.length
    · rwa [List.getElem?_append_left old] at asks
    · rw [List.getElem?_append_right (Nat.le_of_not_lt old)] at asks
      cases after : n - w.listeners.entries.length <;> simp [after] at asks

theorem Quiet.dropWatch (quiet : w.Quiet) (watch : SubscriptionId × Option CellId) :
    (ViewSession.dropWatch w watch).Quiet := (quiet.unsubscribeAll _).releaseAll _

theorem Quiet.foldl {α : Type} {f : World → α → World} (quiet : w.Quiet)
    (step : ∀ w a, w.Quiet → (f w a).Quiet) (items : List α) : (items.foldl f w).Quiet := by
  induction items generalizing w with
  | nil => exact quiet
  | cons a items ih => exact ih (step w a quiet)

end World

namespace View.Houses

variable {catalog : Catalog} {w : World} {v : View} {sight held : List CellId}
  {subscriptions rest : List SubscriptionId} {views : List (String × View)}

theorem isLive (houses : v.Houses catalog sight held subscriptions v.keyedChildren w) {c : CellId}
    (owned : c ∈ v.ownedCells) : w.store.isLive c = true := by
  rw [ownedCells_eq_ownCells] at owned
  refine houses.owns.isLive ?_
  rcases mem_append.mp owned with own | below
  · exact mem_append_right _ (mem_append_left _ own)
  · exact mem_append_left _ below

theorem watch (houses : v.Houses catalog sight held subscriptions views w) (c : CellId)
    (id : String) (trigger : Option Json) :
    v.Houses catalog sight held (w.store.nextSubscription :: subscriptions) views
      (w.subscribe c (.watch ⟨id, trigger, none⟩)).2 := by
  have owns := houses.owns.subscribe c (.watch ⟨id, trigger, none⟩)
  have grown := houses.grows (w.grows_watch c ⟨id, trigger, none⟩)
    (houses.quiet.subscribe c rfl nofun) (owns.mono (fun _ => Nat.le_refl _) fun n => by
      rw [count_cons]
      omega)
  refine ⟨grown.sits, grown.rooted, grown.distinct, grown.based, grown.apart, grown.quiet,
    grown.inSight, owns.perm (.refl _) ?_⟩
  rw [← append_assoc, ← append_assoc]
  exact perm_middle.symm

theorem unwatch (houses : v.Houses catalog sight held subscriptions views w) {n : SubscriptionId}
    (fewer : (n :: rest).Subperm subscriptions) :
    v.Houses catalog sight held rest views (ViewSession.dropWatch w (n, none)) := by
  have owns : (w.unsubscribeAll [n]).Owns (ownedCellsAll views ++ (v.ownCells ++ held))
      (ownedSubscriptionsAll views ++ (v.subscriptions ++ rest)) := by
    refine World.Owns.unsubscribeAll (houses.owns.mono (fun _ => Nat.le_refl _) fun m => ?_)
    have bound := fewer.count_le m
    simp only [count_append, count_cons, count_nil] at bound ⊢
    omega
  exact ⟨houses.sits.grows (w.grows_unsubscribeAll _), fun entry member =>
    (houses.rooted entry member).grows (w.grows_unsubscribeAll _), houses.distinct,
    houses.based.grows (w.grows_unsubscribeAll _), houses.apart, houses.quiet.unsubscribeAll _,
    houses.inSight, owns⟩

end View.Houses

/-! ## States of a session -/

namespace ViewSession

/-- A step of a session.  Watches only listen. -/
inductive Step : ViewSession → ViewSession → Prop
  | mount {s : ViewSession} (name : String) : Step s (s.mount name).2
  | update {s : ViewSession} (path : List String) : Step s (s.update path).2
  | set {s s' : ViewSession} {path : List PathStep} {field : String} {value : Json} {has : Bool}
      (ran : s.set path field value = .ok (has, s')) : Step s s'
  | watch {s s' : ViewSession} {id : String} {path : List PathStep} {field : String}
      {trigger : Option Json} (ran : s.watch id path field trigger none = .ok s') : Step s s'
  | unwatch {s : ViewSession} (id : String) : Step s (s.unwatch id).2
  | takeEvents {s : ViewSession} : Step s s.takeEvents.2

/-- The states of a session with the components of a catalog. -/
inductive Reached (catalog : Catalog) : ViewSession → Prop
  | start : Reached catalog { catalog }
  | step {s s' : ViewSession} (before : Reached catalog s) (step : Step s s') : Reached catalog s'

theorem root_of_view {s : ViewSession} {path : List PathStep} {v : View}
    (reached : s.view path = .ok v) : ∃ root, s.root = some root ∧ root.get? path = some v := by
  unfold ViewSession.view at reached
  split at reached
  next found =>
    cases reached
    exact Option.bind_eq_some_iff.mp found
  · cases reached

/-- The root is at its place, and the session has its watches. -/
structure IsSound (catalog : Catalog) (s : ViewSession) : Prop where
  components : s.catalog = catalog
  quiet : s.world.Quiet
  root : ∀ v, s.root = some v →
    v.Houses catalog [] [] (s.watches.map (·.2.1)) v.keyedChildren s.world
  unheld : ∀ watch ∈ s.watches, watch.2.2 = none

namespace IsSound

variable {catalog : Catalog} {s s' : ViewSession}

theorem start (catalog : Catalog) : IsSound catalog { catalog } :=
  ⟨rfl, World.quiet_empty, nofun, nofun⟩

section

variable (sound : IsSound catalog s)
include sound

theorem quiet_clear : s.clear.world.Quiet := by
  -- the watches are dropped first, and then the root
  refine World.Quiet.foldl ?_ (fun _ v quiet => quiet.drop v) _
  exact sound.quiet.foldl (fun _ watch quiet => quiet.dropWatch watch) _

theorem mount (fit : catalog.HasFitCalls) (name : String) : IsSound catalog (s.mount name).2 := by
  have quiet := sound.quiet_clear
  have cleared : s.clear.catalog = catalog := sound.components
  have mounted := Catalog.mountTo_leaves fit quiet Catalog.depthLimit name
  unfold ViewSession.mount Catalog.mount
  dsimp only
  rw [cleared]
  split
  next view w ran =>
    rw [ran] at mounted
    refine ⟨rfl, mounted.1, ?_, nofun⟩
    intro v same
    cases same
    exact mounted.2 view rfl
  next fault w ran =>
    rw [ran] at mounted
    exact ⟨rfl, mounted.1, nofun, nofun⟩

theorem update (fit : catalog.HasFitCalls) (path : List String) :
    IsSound catalog (s.update path).2 := by
  unfold ViewSession.update
  dsimp only
  split
  · exact sound
  next result w root modified =>
    obtain ⟨v, isRoot, modified⟩ := Option.bind_eq_some_iff.mp modified
    have leaves := (Catalog.render_leavesTrees fit Catalog.depthLimit).modify
      (fun u => by rw [sound.components]; rfl) modified (sound.root v isRoot)
    refine ⟨sound.components, leaves.houses.quiet, ?_, sound.unheld⟩
    intro v same
    cases same
    exact leaves.houses

theorem set {path : List PathStep} {field : String} {value : Json} {has : Bool}
    (ran : s.set path field value = .ok (has, s')) : IsSound catalog s' := by
  obtain ⟨v, reached, ran⟩ := except_bind_ok_iff.mp ran
  split at ran
  next c found =>
    cases ran
    obtain ⟨root, isRoot, below⟩ := root_of_view reached
    have houses := sound.root root isRoot
    have owned := (View.owned_of_get? below).1
      (View.mem_ownedCells (mem_map_of_mem (View.mem_fields_of_cell? found)))
    have live := houses.isLive owned
    refine ⟨sound.components, sound.quiet.set live value, fun v same => ?_, sound.unheld⟩
    cases isRoot.symm.trans same
    exact houses.grows (sound.quiet.grows_set live value) (sound.quiet.set live value)
      (sound.quiet.owns_set live value houses.owns)
  · cases ran
    exact sound

theorem watch {id : String} {path : List PathStep} {field : String} {trigger : Option Json}
    (ran : s.watch id path field trigger none = .ok s') :
    IsSound catalog s' := by
  obtain ⟨c, found, ran⟩ := except_bind_ok_iff.mp ran
  cases ran
  change IsSound catalog { s with
    world := (s.watches.lookup id).toList.foldl dropWatch
      (s.world.subscribe c (.watch ⟨id, trigger, none⟩)).2
    watches := (id, s.world.store.nextSubscription, none) :: s.watches.filter (·.1 ≠ id) }
  have quiet : (s.world.subscribe c (.watch ⟨id, trigger, none⟩)).2.Quiet :=
    sound.quiet.subscribe c rfl nofun
  refine ⟨sound.components, quiet.foldl (fun _ watch quiet => quiet.dropWatch watch) _,
    fun v isRoot => ?_, ?_⟩
  · have houses := (sound.root v isRoot).watch c id trigger
    cases old : s.watches.lookup id with
    | none =>
      have kept : s.watches.filter (·.1 ≠ id) = s.watches := by
        refine filter_eq_self.mpr fun watch member => decide_eq_true fun same => ?_
        simpa [same] using lookup_eq_none_iff.mp old watch member
      rw [kept]
      exact houses
    | some watch =>
      -- the new watch is there before the one that it replaces is dropped
      obtain ⟨n, held⟩ := watch
      obtain ⟨middle, perm, sublist⟩ := subperm_of_lookup old
      cases sound.unheld _ (sublist.subset (perm.symm.subset mem_cons_self))
      refine houses.unwatch ⟨s.world.store.nextSubscription :: middle.map (·.2.1), ?_, ?_⟩
      · exact ((perm.map (·.2.1)).cons _).trans (.swap _ _ _)
      · exact (sublist.map (·.2.1)).cons_cons _
  · rw [forall_mem_cons]
    exact ⟨rfl, fun watch member => sound.unheld watch (mem_of_mem_filter member)⟩

theorem unwatch (id : String) : IsSound catalog (s.unwatch id).2 := by
  unfold ViewSession.unwatch
  split
  next watch found =>
    obtain ⟨n, held⟩ := watch
    obtain ⟨middle, perm, sublist⟩ := subperm_of_lookup found
    cases sound.unheld _ (sublist.subset (perm.symm.subset mem_cons_self))
    refine ⟨sound.components, sound.quiet.dropWatch _, fun v isRoot => ?_, fun watch member => ?_⟩
    · exact (sound.root v isRoot).unwatch ⟨middle.map (·.2.1), perm.map _, sublist.map _⟩
    · exact sound.unheld watch (mem_of_mem_filter member)
  · exact sound

theorem takeEvents : IsSound catalog s.takeEvents.2 := by
  obtain ⟨consistent, enrolled, idle, waiting, entries, silent, numbered⟩ := sound.quiet
  have quiet : s.takeEvents.2.world.Quiet :=
    ⟨consistent, enrolled, idle, waiting, entries, silent, numbered⟩
  refine ⟨sound.components, quiet, fun v isRoot => ?_, sound.unheld⟩
  have houses := sound.root v isRoot
  exact houses.grows ⟨.refl _, prefix_rfl, Nat.le_refl _, fun _ _ _ => id⟩ quiet
    ⟨houses.owns.handles, houses.owns.owners⟩

theorem step (fit : catalog.HasFitCalls) (step : Step s s') : IsSound catalog s' := by
  cases step with
  | mount name => exact sound.mount fit name
  | update path => exact sound.update fit path
  | set ran => exact sound.set ran
  | watch ran => exact sound.watch ran
  | unwatch id => exact sound.unwatch id
  | takeEvents => exact sound.takeEvents

end

theorem of_reached (fit : catalog.HasFitCalls) (reached : Reached catalog s) : IsSound catalog s := by
  induction reached with
  | start => exact .start catalog
  | step _ step ih => exact ih.step fit step

end IsSound

variable {catalog : Catalog} {s once : ViewSession}

/-- An update that ends has rendered the root. -/
theorem update_nil_ok_iff :
    s.update [] = (.ok (), once) ↔ ∃ v v' w', s.root = some v ∧
      s.catalog.render Catalog.depthLimit v [] s.world = (.ok (), v', w') ∧
      once = { s with world := w', root := some v' } := by
  cases isRoot : s.root with
  | none => simp [update, isRoot]
  | some v =>
    have ran : s.update [] =
        ((s.catalog.update v s.world).1.mapError .render, { s with
          world := (s.catalog.update v s.world).2.2
          root := some (s.catalog.update v s.world).2.1 }) := by
      unfold update
      rw [isRoot]
      rfl
    rw [ran, Catalog.update]
    cases rendered : s.catalog.render Catalog.depthLimit v [] s.world with
    | mk outcome rest =>
      obtain ⟨v', w'⟩ := rest
      cases outcome with
      | error fault => simp [Except.mapError, rendered]
      | ok _ =>
        constructor
        · intro updated
          cases updated
          exact ⟨v, v', w', rfl, rendered, rfl⟩
        · rintro ⟨u, u', w'', same, rendered', rfl⟩
          cases same
          cases rendered.symm.trans rendered'
          rfl

/-- An update that follows an update ends, writes nothing and shows the same. -/
theorem update_again_repeats (fit : catalog.HasFitCalls) (apart : catalog.HasMarkersApart)
    (reached : Reached catalog s) (updated : s.update [] = (.ok (), once)) :
    ∃ v v', once.root = some v ∧
      once.update [] = (.ok (), { once with root := some v' }) ∧ v.Repeats v' := by
  have sound := IsSound.of_reached fit reached
  obtain ⟨v, v', w', isRoot, rendered, rfl⟩ := update_nil_ok_iff.mp updated
  rw [sound.components] at rendered
  obtain ⟨v'', again, repeats⟩ := Catalog.render_settles fit apart _ _ _ _ _ _ _ _ _ rendered nofun
    (sound.root v isRoot) w' fun _ _ => rfl
  refine ⟨v', v'', rfl, update_nil_ok_iff.mpr ⟨v', v'', w', rfl, ?_, rfl⟩, repeats⟩
  rw [sound.components]
  exact again

/-- The root after an update and after another one, if both end. -/
def updatedTwice? (s : ViewSession) : Option (View × View) :=
  match s.update [] with
  | (.ok (), once) =>
    match once.update [] with
    | (.ok (), twice) => once.root.bind fun v => twice.root.map (v, ·)
    | _ => none
  | _ => none

end ViewSession

/-! Pages with texts that are shown if something is true.  The feed has a list of cards, each with such
a text. -/

namespace Flags

def flag (condition : String) : Stmt :=
  .choice [⟨some condition, [.element { name := "Text", args := [{ value := "'on'" }] } []]⟩] {}

def cardOf (value : String) : Stmt :=
  .element { name := "Card", args := [{ name := some "v", value }] } []

def card : Component where
  name := "Card"
  members := [.field { name := "v", decorator := .prop }]
  render := { body := [flag "this.v"] }

def feed : Component where
  name := "Feed"
  isEntry := true
  members := [
    .field { name := "items", decorator := .state, initializer := some "[true, false]" },
    .field { name := "on", decorator := .state, initializer := some "false" }]
  render := { body := [
    .forEach { source := "this.items", itemVar := "x" } [cardOf "x", flag "this.on"]] }

/-- The conditional in the loop has another branch for each item. -/
def switches : Component where
  name := "Switches"
  isEntry := true
  members := [.field { name := "items", decorator := .state, initializer := some "[true, false]" }]
  render := { body := [.forEach { source := "this.items", itemVar := "x" } [flag "x"]] }

/-- The cards of both loops have one key. -/
def lists : Component where
  name := "Lists"
  isEntry := true
  members := [.field { name := "items", decorator := .state, initializer := some "[true]" }]
  render := { body := [
    .forEach { source := "this.items", itemVar := "x" } [cardOf "x"],
    .forEach { source := "this.items", itemVar := "y" } [cardOf "y"]] }

/-- A child that takes an argument for a field that consumes what the page provides. -/
def shadow : Component where
  name := "Shadow"
  members := [
    .field { name := "x", decorator := .consume none },
    .field { name := "x", decorator := .prop }]
  render := { body := [flag "this.x"] }

def provider : Component where
  name := "Provider"
  isEntry := true
  members := [
    .field { name := "x", decorator := .provide none, initializer := some "false" },
    .field { name := "on", decorator := .state, initializer := some "true" }]
  render := { body := [
    flag "this.x", .element { name := "Shadow", args := [{ name := some "x", value := "this.on" }] } []] }

def mirror : Component where
  name := "Mirror"
  isEntry := true
  members := [.field { name := "on", decorator := .state, initializer := some "false" }]
  render := { body := [flag "this.on", cardOf "this.on"] }

def file : Module := ⟨"flags.ets", [card, feed]⟩

def others : Module := ⟨"others.ets", [card, switches, lists, shadow, provider, mirror]⟩

def mounted (m : Module) (name : String) : ViewSession :=
  (ViewSession.mount { catalog := .ofOutput (m.lower {}) } name).2

/-- The watch turns the page off when the card is turned on. -/
def watched : Except ViewFault ViewSession := do
  let s ← (mounted others "Mirror").watch "off" [.name "Card"] "v" (some (.bool true))
    (some ([], "on", .bool false))
  return (← s.set [] "on" (.bool true)).2

end Flags

theorem ViewSession.update_again_repeats_feed :
    ∃ s once v v', Reached (.ofOutput (Flags.file.lower {})) s ∧ s.update [] = (.ok (), once) ∧
      once.root = some v ∧ v.activations = [⟨0, some 0, .rebuild⟩, ⟨0, some 0, .reuse⟩] ∧
      v.keyedChildren.length = 2 ∧ once.update [] = (.ok (), { once with root := some v' }) ∧
      v.Repeats v' := by
  have facts : ((Flags.mounted Flags.file "Feed").set [] "on" (.bool true)).toOption.bind
      (fun s => match s.2.update [] with
        | (.ok (), once) => once.root.map fun v => (v.activations, v.keyedChildren.length)
        | _ => none) =
      some ([⟨0, some 0, .rebuild⟩, ⟨0, some 0, .reuse⟩], 2) := by decide +kernel
  have success : (Flags.file.lower {}).isSuccess = true := by decide +kernel
  have lowered : (Catalog.ofOutput (Flags.file.lower {})).IsLowered :=
    fun _ member => ⟨Flags.file, {}, _, by decide, member⟩
  obtain ⟨⟨has, s⟩, written, facts⟩ := Option.bind_eq_some_iff.mp facts
  split at facts
  next once updated =>
    obtain ⟨v, isRoot, facts⟩ := Option.map_eq_some_iff.mp facts
    obtain ⟨activations, children⟩ := Prod.mk.inj facts
    have reached : Reached (.ofOutput (Flags.file.lower {})) s := by
      cases ran : (Flags.mounted Flags.file "Feed").set [] "on" (.bool true) with
      | error fault =>
        rw [ran] at written
        cases written
      | ok result =>
        rw [ran] at written
        cases written
        exact .step (.step .start (.mount "Feed")) (.set ran)
    obtain ⟨u, u', isRoot', again, repeats⟩ := ViewSession.update_again_repeats
      (Module.hasFitCalls (by decide) (by decide) success)
      (lowered.hasMarkersApart (by decide +kernel) (by decide +kernel)) reached updated
    cases isRoot.symm.trans isRoot'
    exact ⟨s, once, v, u', reached, updated, isRoot, activations, children, again, repeats⟩
  · cases facts

/-- Updates that follow an update and change something: a conditional in a loop has two branches, the
    markers of two loops have one key, an argument is written to a field that the page provides, and a
    watch writes to a field. -/
theorem ViewSession.updates_that_change :
    (Flags.others.lower {}).isSuccess = true ∧
      (∀ name, Reached (.ofOutput (Flags.others.lower {})) (Flags.mounted Flags.others name)) ∧
      (∃ v v', (Flags.mounted Flags.others "Switches").updatedTwice? = some (v, v') ∧
        v'.activations.map (·.activation) = [.rebuild, .rebuild]) ∧
      (∃ v v', (Flags.mounted Flags.others "Lists").updatedTwice? = some (v, v') ∧
        v'.children.map (·.activations.map (·.activation)) = [[.initial]]) ∧
      (∃ v v', (Flags.mounted Flags.others "Provider").updatedTwice? = some (v, v') ∧
        v'.tree ≠ v.tree) ∧
      ∃ s v v', Flags.watched = .ok s ∧ s.updatedTwice? = some (v, v') ∧ v'.tree ≠ v.tree := by
  have texts {v v' : View} {n n' : Nat} (different : n' ≠ n)
      (counts : (v.tree.map (·.count "Text"), v'.tree.map (·.count "Text")) = (some n, some n')) :
      v'.tree ≠ v.tree := by
    intro same
    obtain ⟨first, second⟩ := Prod.mk.inj counts
    rw [same, first] at second
    exact different (Option.some.inj second).symm
  refine ⟨by decide +kernel, fun name => .step .start (.mount name), ?_, ?_, ?_, ?_⟩
  · have chosen : (Flags.mounted Flags.others "Switches").updatedTwice?.map
        (fun r => r.2.activations.map (·.activation)) = some [.rebuild, .rebuild] := by decide +kernel
    obtain ⟨⟨v, v'⟩, updated, chosen⟩ := Option.map_eq_some_iff.mp chosen
    exact ⟨v, v', updated, chosen⟩
  · have chosen : (Flags.mounted Flags.others "Lists").updatedTwice?.map
        (fun r => r.2.children.map (·.activations.map (·.activation))) = some [[.initial]] := by
      decide +kernel
    obtain ⟨⟨v, v'⟩, updated, chosen⟩ := Option.map_eq_some_iff.mp chosen
    exact ⟨v, v', updated, chosen⟩
  · have counts : (Flags.mounted Flags.others "Provider").updatedTwice?.map
        (fun r => (r.1.tree.map (·.count "Text"), r.2.tree.map (·.count "Text"))) =
        some (some 1, some 2) := by decide +kernel
    obtain ⟨⟨v, v'⟩, updated, counts⟩ := Option.map_eq_some_iff.mp counts
    exact ⟨v, v', updated, texts (by decide) counts⟩
  · have counts : (Flags.watched.toOption.bind (·.updatedTwice?)).map
        (fun r => (r.1.tree.map (·.count "Text"), r.2.tree.map (·.count "Text"))) =
        some (some 2, some 0) := by decide +kernel
    obtain ⟨⟨v, v'⟩, updated, counts⟩ := Option.map_eq_some_iff.mp counts
    cases ran : Flags.watched with
    | error fault =>
      rw [ran] at updated
      cases updated
    | ok s =>
      rw [ran] at updated
      exact ⟨s, v, v', rfl, updated, texts (by decide) counts⟩

end ReactiveView
