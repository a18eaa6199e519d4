import ReactiveView.Proofs.FreshArguments
import ReactiveView.Proofs.StableUpdates

/-!
# Chains of two-way fields

The cell of a field begins its group, or belongs to a group that a shared cell begins, or is that of
a two-way field and belongs to the group of a field of the parent (`World.Hangs`).  This is so when a
view is made, and no session step changes it (`ViewSession.IsThreaded`).  So a field that is in the
group of a one-way field is tied to it by two-way fields, from each view to its child (`View.TiedTo`).
-/

namespace ReactiveView

open List
open Reactive (CellId SubscriptionId Store)

/-! ## How cells get into groups -/

namespace World

variable {w w' : World} {above : List CellId} {c d : CellId}

/-- A cell begins the group of a shared value. -/
structure Provides (w : World) (c : CellId) : Prop where
  known : c < w.store.cells.length
  first : w.store.IsFirst c
  kind : w.store.kind c = .shared

/-- How a cell got into its group, given the cells of the fields of the parent. -/
inductive Hangs (w : World) (above : List CellId) (d : CellId) : Prop
  | first (first : w.store.IsFirst d)
  | shared {c : CellId} (provides : w.Provides c) (linked : w.store.groupOf d = w.store.groupOf c)
  | twoWay {source : CellId} (isAbove : source ∈ above) (known : source < w.store.cells.length)
      (kind : w.store.kind d = .twoWay) (linked : w.store.groupOf d = w.store.groupOf source)

theorem Provides.grows (provides : w.Provides c) (grows : w.Grows w') : w'.Provides c where
  known := Nat.lt_of_lt_of_le provides.known grows.store.size
  first := provides.first.grows provides.known grows.store
  kind := (grows.store.kind c provides.known).trans provides.kind

theorem Hangs.grows (hangs : w.Hangs above d) (known : d < w.store.cells.length)
    (grows : w.Grows w') : w'.Hangs above d := by
  have linked {c : CellId} (older : c < w.store.cells.length)
      (same : w.store.groupOf d = w.store.groupOf c) :
      w'.store.groupOf d = w'.store.groupOf c := by
    rw [grows.store.group d known, grows.store.group c older, same]
  cases hangs with
  | first first => exact .first (first.grows known grows.store)
  | shared provides same => exact .shared (provides.grows grows) (linked provides.known same)
  | twoWay isAbove older kind same =>
    exact .twoWay isAbove (Nat.lt_of_lt_of_le older grows.store.size)
      ((grows.store.kind d known).trans kind) (linked older same)

/-- A group has one first cell. -/
theorem eq_of_isFirst (known : c < w.store.cells.length) (known' : d < w.store.cells.length)
    (first : w.store.IsFirst c) (first' : w.store.IsFirst d)
    (same : w.store.groupOf d = w.store.groupOf c) : d = c :=
  Nat.le_antisymm (first' c known same.symm) (first d known' same)

end World

namespace View

variable {catalog : Catalog} {w w' : World} {above sight held : List CellId} {v v' : View}

/-- The cells of a view and of the views below it got into their groups by way of the parents. -/
inductive Threaded (w : World) : List CellId → View → Prop
  | intro {above : List CellId} {v : View}
      (known : ∀ d ∈ v.fields.map (·.2), d < w.store.cells.length)
      (fields : ∀ d ∈ v.fields.map (·.2), w.Hangs above d)
      (children : ∀ entry ∈ v.keyedChildren, Threaded w (v.fields.map (·.2)) entry.2) :
      Threaded w above v

theorem Threaded.grows (threaded : v.Threaded w above) (grows : w.Grows w') :
    v.Threaded w' above := by
  induction threaded with
  | intro known fields _ ih =>
    apply Threaded.intro
    · exact fun d isField => Nat.lt_of_lt_of_le (known d isField) grows.store.size
    · exact fun d isField => (fields d isField).grows (known d isField) grows
    · exact ih

/-- The same view with other children. -/
theorem Threaded.withChildren (threaded : v.Threaded w above) (same : v.SameInstance v')
    (children : ∀ entry ∈ v'.keyedChildren, entry.2.Threaded w (v.fields.map (·.2))) :
    v'.Threaded w above := by
  cases threaded with
  | intro known fields _ =>
    rw [← same.fields] at known fields children
    exact .intro known fields children

/-- The keys that a view provides belong to shared cells that begin their groups. -/
theorem Seated.provides {site : Site} {slots : List (String × Option BindingKind × Option String)}
    (seated : v.Seated w site slots) : ∀ entry ∈ v.provided, w.Provides entry.2 := by
  intro entry isProvided
  rw [seated.provisions, Site.provisions] at isProvided
  obtain ⟨⟨slot, field⟩, paired, provides⟩ := mem_filterMap.mp isProvided
  obtain ⟨key, isKey, rfl⟩ := Option.map_eq_some_iff.mp provides
  have fills := (forall₂_iff_zip.mp seated.fills).2 paired
  obtain ⟨binding, isBinding, isKey⟩ := Option.bind_eq_some_iff.mp isKey
  cases binding with
  | shared key' role =>
    cases role with
    | consumer => cases isKey
    | provider =>
      have free : isTied slot.2.1 = false := by rw [isBinding]; rfl
      refine ⟨fills.known, fills.first free, ?_⟩
      rw [fills.kind, isBinding]
      rfl
  | ownedSimple | oneWay | twoWay => cases isKey

/-- The cells of a new view hang on those of its parent. -/
theorem Seated.hangs {site : Site} {slots : List (String × Option BindingKind × Option String)}
    (seated : v.Seated w site slots) (provides : ∀ entry ∈ site.provided, w.Provides entry.2) :
    ∀ d ∈ v.fields.map (·.2), w.Hangs (site.parent.fields.map (·.2)) d := by
  intro d isField
  obtain ⟨field, member, rfl⟩ := mem_map.mp isField
  obtain ⟨slot, _, fills⟩ := exists_of_mem_forall₂ seated.fills member
  cases tied : isTied slot.2.1 with
  | false => exact .first (fills.first tied)
  | true =>
    -- a two-way field takes the cell of a field of the parent, a consuming one a provided cell
    obtain ⟨source, tie, known, linked⟩ := fills.tied tied
    unfold Site.tie? at tie
    split at tie
    next twoWay =>
      unfold Site.source? at tie
      split at tie
      · refine .twoWay (mem_map_of_mem (mem_of_lookup tie)) known ?_ linked
        rw [fills.kind, twoWay]
        rfl
      · cases tie
    · exact .shared (provides _ (mem_of_lookup tie)) linked
    · cases tie

end View

/-! ## Rendering -/

namespace Catalog

variable {catalog : Catalog} {render : Renderer} {v : View} {provided : Provided}
  {sight held : List CellId} {subscriptions : List SubscriptionId} {w w' : World}
  {e e' : Execution}

/-- A view that is made hangs on its parent. -/
theorem Makes.threaded {name : String} {site : Site} (makes : catalog.Makes name site w v w')
    (provides : ∀ entry ∈ site.provided, w.Provides entry.2) :
    v.Threaded w' (site.parent.fields.map (·.2)) := by
  obtain ⟨c, _, seated⟩ := makes.seated
  apply View.Threaded.intro
  · exact fun d isField => seated.known isField
  · exact seated.hangs fun entry isProvided => (provides entry isProvided).grows makes.grows
  · rw [makes.children]
    exact forall_mem_nil _

/-- A renderer leaves views hanging on their parents. -/
def Threads (catalog : Catalog) (render : Renderer) : Prop :=
  ∀ (view : View) (provided : Provided) (w : World) (outcome : Except RenderFault Unit)
    (view' : View) (w' : World) (sight held : List CellId) (subscriptions : List SubscriptionId)
    (above : List CellId), render view provided w = (outcome, view', w') →
    (∀ entry ∈ provided, entry.2 ∈ sight) → (∀ entry ∈ provided, w.Provides entry.2) →
    view.Houses catalog sight held subscriptions view.keyedChildren w →
    view.Threaded w above → view'.Threaded w' above

/-- Whether the child for a marker is rendered or that fails, the views that are left hang on their
    parent. -/
theorem renderChild_threads (trees : catalog.LeavesTrees render) (threads : catalog.Threads render)
    {key component : String} {bindings : List BoundArgument} {locals : List (String × Json)}
    (inSight : ∀ entry ∈ provided, entry.2 ∈ sight)
    (provides : ∀ entry ∈ v.provided ++ provided, e.world.Provides entry.2)
    (accepts : ∀ c, catalog.find? component = some c → c.Accepts bindings)
    (houses : v.Houses catalog sight held subscriptions (e.former ++ e.children) e.world)
    (threaded : ∀ entry ∈ e.former ++ e.children,
      entry.2.Threaded e.world (v.fields.map (·.2)))
    {result : Except RenderFault (List ViewNode)}
    (ran : (catalog.renderChild render (v.provided ++ provided) key component bindings
      ⟨v.fields, locals⟩).run.run e = (result, e')) :
    ∀ entry ∈ e'.former ++ e'.children, entry.2.Threaded e'.world (v.fields.map (·.2)) := by
  obtain ⟨_, advances⟩ := renderChild_advances trees inSight accepts houses ran
  have others : ∀ entry ∈ e.former ++ e.children,
      entry.2.Threaded e'.world (v.fields.map (·.2)) :=
    fun entry isEntry => (threaded entry isEntry).grows advances.grows
  rw [forall_mem_append] at others threaded
  rcases catalog.begins_or_fails (v.provided ++ provided) key component bindings ⟨v.fields, locals⟩ e
    with ⟨child, w, former, begins⟩ | ⟨missing, fault, w, failed⟩
  · have begun := begins.hasBegun inSight accepts houses
    have fewer := begun.fewer
    rw [run_renderChild begins] at ran
    split at ran
    · cases ran
      rw [forall_mem_append]
      exact ⟨fun entry isFormer => others.1 entry (fewer isFormer), others.2⟩
    next child' w' rendered =>
      cases ran
      have child : child.Threaded w (v.fields.map (·.2)) := by
        cases begins with
        | kept found named =>
          exact (threaded.1 _ (mem_of_lookup found)).grows begun.grows
        | made missing made => exact (houses.makes_child inSight made).threaded provides
      have rendered := threads _ _ _ _ _ _ _ _ _ _ rendered (v.inSight_child inSight)
        (fun entry isProvided => (provides entry isProvided).grows begun.grows) begun.houses.child
        child
      rw [forall_mem_append]
      refine ⟨fun entry isFormer => others.1 entry (fewer isFormer), fun entry isChild => ?_⟩
      rcases mem_insertChild isChild with rfl | old
      · exact rendered.grows (w'.grows_dropAll _)
      · exact others.2 entry old
  · rw [run_renderChild_of_fails missing failed] at ran
    cases ran
    exact forall_mem_append.mpr others

theorem renderWith_threads (fit : catalog.HasFitCalls) (trees : catalog.LeavesTrees render)
    (threads : catalog.Threads render) : catalog.Threads (catalog.renderWith render) := by
  intro view provided w outcome view' w' sight held subscriptions above rendered inSight provides
    houses threaded
  have leaves := renderWith_leavesTrees fit trees _ _ _ _ _ _ _ _ _ rendered inSight houses
  obtain ⟨c, site, found, seated, _⟩ := houses.sits
  have member := Catalog.mem_of_find? found
  have provides : ∀ entry ∈ view.provided ++ provided, w.Provides entry.2 :=
    forall_mem_append.mpr ⟨seated.provides, provides⟩
  have below : ∀ entry ∈ view.keyedChildren, entry.2.Threaded w (view.fields.map (·.2)) := by
    cases threaded with
    | intro _ _ children => exact children
  -- the views still to be met and those that were met hang on the view at every point
  have keeps : ExecM.Keeps (fun e => view.Houses catalog sight held subscriptions
        (e.former ++ e.children) e.world ∧ w.Grows e.world ∧
        ∀ entry ∈ e.former ++ e.children, entry.2.Threaded e.world (view.fields.map (·.2)))
      ((catalog.runner render view provided c).run c.render.body) := by
    refine BodyRunner.run_keeps ?_ ?_
    · rintro e e' same ⟨houses, grows, threaded⟩
      rw [← same.former, ← same.children, ← same.world] at houses threaded
      rw [← same.world] at grows
      exact ⟨houses, grows, threaded⟩
    · rintro m isMarker bindings role key locals e ⟨houses, grows, threaded⟩
      have accepts := fit c member m isMarker bindings role
      have provides := fun entry isProvided => (provides entry isProvided).grows grows
      obtain ⟨houses', step⟩ := renderChild_advances trees inSight accepts houses rfl
      exact ⟨houses', grows.trans step.grows,
        renderChild_threads trees threads inSight provides accepts houses threaded rfl⟩
  have begin : ∀ entry ∈ view.keyedChildren ++ [], entry.2.Threaded w (view.fields.map (·.2)) := by
    rw [append_nil]
    exact below
  obtain ⟨_, _, children⟩ := keeps (view.start w) ⟨houses.start, .refl w, begin⟩
  refine (threaded.grows leaves.grows).withChildren leaves.same ?_
  cases ran : ((catalog.runner render view provided c).run c.render.body).run.run
      (view.start w) with
  | mk result e =>
    rw [ran] at children
    cases result with
    | ok nodes =>
      rw [renderWith_of_ok found ran] at rendered
      cases rendered
      intro entry isChild
      exact (children entry (mem_append_right _ isChild)).grows (e.world.grows_dropAll _)
    | error fault =>
      rw [renderWith_of_error found ran] at rendered
      cases rendered
      exact forall_mem_nil _

theorem render_threads (fit : catalog.HasFitCalls) (depth : Nat) :
    catalog.Threads (catalog.render depth) := by
  induction depth with
  | zero =>
    intro view provided w outcome view' w' sight held subscriptions above rendered _ _ _ threaded
    cases rendered
    exact threaded
  | succ depth ih => exact renderWith_threads fit (render_leavesTrees fit depth) ih

/-- To render a view inside a tree leaves the tree hanging together. -/
theorem Threads.modify (trees : catalog.LeavesTrees render) (threads : catalog.Threads render)
    {result : Except RenderFault Unit} {f : View → (Except RenderFault Unit × World) × View}
    (renders : ∀ u, render u [] w = ((f u).1.1, (f u).2, (f u).1.2)) {path : List String} {v' : View}
    (modified : View.modify f path v = some ((result, w'), v'))
    (houses : v.Houses catalog sight held subscriptions v.keyedChildren w) {above : List CellId}
    (threaded : v.Threaded w above) : v'.Threaded w' above := by
  induction path generalizing v v' sight held subscriptions above with
  | nil =>
    have changed := Option.some.inj modified
    have rendered := renders v
    rw [changed] at rendered
    exact threads _ _ _ _ _ _ _ _ _ _ rendered (forall_mem_nil _)
      (forall_mem_nil _) houses threaded
  | cons name path ih =>
    have leaves := trees.modify renders modified houses
    have threaded' := threaded.grows leaves.grows
    obtain ⟨⟨_, children'⟩, changed, same⟩ := Option.map_eq_some_iff.mp modified
    cases same
    obtain ⟨before, key, child, child', after, children, inner, rfl, _⟩ :=
      View.modifyChild_eq_some changed
    have below : ∀ entry ∈ v.keyedChildren, entry.2.Threaded w (v.fields.map (·.2)) := by
      cases threaded with
      | intro _ _ children => exact children
    rw [children] at houses below
    have isChild : (key, child) ∈ before ++ (key, child) :: after :=
      mem_append_cons_self
    have rendered := ih inner (houses.fewer perm_middle.symm.subperm).child (below _ isChild)
    -- the other children are untouched, and groups only grow
    refine threaded'.withChildren ⟨rfl, rfl, rfl, rfl, rfl⟩ fun entry isEntry => ?_
    change entry ∈ before ++ (key, child') :: after at isEntry
    have others {entry : String × View} (among : entry ∈ before ++ (key, child) :: after) :=
      (below entry among).grows leaves.grows
    rcases mem_append.mp isEntry with isBefore | later
    · exact others (mem_append_left _ isBefore)
    · rcases mem_cons.mp later with rfl | isAfter
      · exact rendered
      · exact others (mem_append_right _ (mem_cons_of_mem _ isAfter))

/-- A root that is mounted hangs on nothing. -/
theorem mountTo_threaded (fit : catalog.HasFitCalls) (quiet : w.Quiet) (depth : Nat) (name : String)
    (root : View) (mounted : (catalog.mountTo depth name w).1 = .ok root) :
    root.Threaded (catalog.mountTo depth name w).2 [] := by
  have rootless : ∀ d ∈ Site.sources {}, d ∈ ([] : List CellId) := fun _ => id
  unfold mountTo at mounted ⊢
  split at mounted
  · cases mounted
  next view middle made =>
    have makes := instantiate_spec quiet (.nothing _) rootless made
    have houses := View.Houses.of_makes makes rootless (.nil w) (fun _ => id) (.nothing w)
    split at mounted
    next view' last rendered =>
      cases mounted
      exact render_threads fit depth _ _ _ _ _ _ _ _ _ _ rendered (forall_mem_nil _)
        (forall_mem_nil _) houses (makes.threaded (forall_mem_nil _))
    · cases mounted

end Catalog

/-! ## Sessions -/

namespace ViewSession

variable {catalog : Catalog} {s s' : ViewSession}

/-- The views of the tree hang on their parents. -/
def IsThreaded (s : ViewSession) : Prop := ∀ root, s.root = some root → root.Threaded s.world []

theorem grows_dropWatches (w : World) (watches : List (SubscriptionId × Option CellId)) :
    w.Grows (watches.foldl dropWatch w) := by
  induction watches generalizing w with
  | nil => exact .refl w
  | cons watch watches ih =>
    exact ((w.grows_unsubscribeAll _).trans (World.grows_releaseAll _ _)).trans (ih _)

/-- Steps that render nothing leave the root where it is. -/
theorem IsSound.grows (sound : IsSound catalog s) (step : Step s s') :
    (∃ name, s' = (s.mount name).2) ∨ (∃ path, s' = (s.update path).2) ∨
      s'.root = s.root ∧ s.world.Grows s'.world := by
  cases step with
  | mount name => exact .inl ⟨name, rfl⟩
  | update path => exact .inr (.inl ⟨path, rfl⟩)
  | set ran =>
    obtain ⟨v, reached, ran⟩ := except_bind_ok_iff.mp ran
    split at ran
    next c found =>
      cases ran
      obtain ⟨root, isRoot, below⟩ := root_of_view reached
      have owned := (View.owned_of_get? below).1
        (View.mem_ownedCells (mem_map_of_mem (View.mem_fields_of_cell? found)))
      exact .inr (.inr ⟨rfl, sound.quiet.grows_set ((sound.root root isRoot).isLive owned) _⟩)
    · cases ran
      exact .inr (.inr ⟨rfl, .refl _⟩)
  | watch ran =>
    obtain ⟨c, found, ran⟩ := except_bind_ok_iff.mp ran
    cases ran
    exact .inr (.inr ⟨rfl, (s.world.grows_watch c _).trans (grows_dropWatches _ _)⟩)
  | unwatch id =>
    unfold ViewSession.unwatch
    split
    next watch found =>
      exact .inr (.inr ⟨rfl, grows_dropWatches s.world [watch]⟩)
    · exact .inr (.inr ⟨rfl, .refl _⟩)
  | takeEvents =>
    exact .inr (.inr ⟨rfl, .refl _, prefix_rfl, Nat.le_refl _, fun _ _ _ => id⟩)

theorem IsThreaded.step (fit : catalog.HasFitCalls) (sound : IsSound catalog s)
    (threaded : s.IsThreaded) (step : Step s s') : s'.IsThreaded := by
  rcases sound.grows step with ⟨name, rfl⟩ | ⟨path, rfl⟩ | ⟨root, grows⟩
  · -- what was mounted is dropped first, so the new root is all there is
    have quiet := sound.quiet_clear
    have cleared : s.clear.catalog = catalog := sound.components
    intro root isRoot
    unfold ViewSession.mount Catalog.mount at isRoot ⊢
    dsimp only at isRoot ⊢
    rw [cleared] at isRoot ⊢
    have mounted := Catalog.mountTo_threaded fit quiet Catalog.depthLimit name root
    split at isRoot
    next view w ran =>
      cases isRoot
      rw [ran] at mounted
      exact mounted rfl
    · cases isRoot
  · intro root isRoot
    unfold ViewSession.update at isRoot ⊢
    dsimp only at isRoot ⊢
    split at isRoot
    · exact threaded root isRoot
    next result w root' modified =>
      obtain ⟨v, isOld, modified⟩ := Option.bind_eq_some_iff.mp modified
      cases isRoot
      exact Catalog.Threads.modify (Catalog.render_leavesTrees fit Catalog.depthLimit)
        (Catalog.render_threads fit Catalog.depthLimit) (fun u => by rw [sound.components]; rfl)
        modified (sound.root v isOld) (threaded v isOld)
  · intro v isRoot
    rw [root] at isRoot
    exact (threaded v isRoot).grows grows

theorem isThreaded_of_reached (fit : catalog.HasFitCalls) (reached : Reached catalog s) :
    s.IsThreaded := by
  induction reached with
  | start =>
    intro root isRoot
    cases isRoot
  | step before step ih => exact ih.step fit (.of_reached fit before) step

end ViewSession

/-! ## Chains -/

namespace View

/-- A cell in a tree is tied to a cell: from one view to its child, a two-way field of the child is
    linked to a field of the view. -/
inductive TiedTo (root : View) (w : World) (c : CellId) : CellId → Prop
  | self : TiedTo root w c c
  | twoWay {v : View} {entry : String × View} {source field : String × CellId}
      (isView : v ∈ root.subviews) (isChild : entry ∈ v.keyedChildren)
      (isSource : source ∈ v.fields) (isField : field ∈ entry.2.fields)
      (kind : w.store.kind field.2 = .twoWay)
      (linked : w.store.groupOf field.2 = w.store.groupOf source.2)
      (above : TiedTo root w c source.2) : TiedTo root w c field.2

variable {w : World} {above : List CellId} {v root : View} {c d : CellId}

section

variable (known : c < w.store.cells.length) (first : w.store.IsFirst c)
  (kind : w.store.kind c = .oneWay)

include known first kind

/-- A cell in the group of a one-way cell is this cell or that of a two-way field. -/
theorem eq_or_twoWay_of_hangs (hangs : w.Hangs above d) (known' : d < w.store.cells.length)
    (linked : w.store.groupOf d = w.store.groupOf c) :
    d = c ∨ w.store.kind d = .twoWay ∧
      ∃ source ∈ above, w.store.groupOf d = w.store.groupOf source := by
  cases hangs with
  | first first' => exact .inl (World.eq_of_isFirst known known' first first' linked)
  | shared provides same =>
    -- the group would begin with a shared cell
    have shared := World.eq_of_isFirst known provides.known first provides.first
      (same.symm.trans linked)
    rw [← shared, provides.kind] at kind
    cases kind
  | twoWay isAbove _ twoWay same => exact .inr ⟨twoWay, _, isAbove, same⟩

-- Down the tree: once all fields of a view that are in the group are tied to the cell, so are those of
-- its children, because they are in the group by way of a field of the view.
theorem Threaded.tiedTo_below (threaded : v.Threaded w above)
    (among : ∀ u ∈ v.subviews, u ∈ root.subviews)
    (own : ∀ field ∈ v.fields, w.store.groupOf field.2 = w.store.groupOf c →
      root.TiedTo w c field.2) :
    ∀ u ∈ v.subviews, ∀ field ∈ u.fields, w.store.groupOf field.2 = w.store.groupOf c →
      root.TiedTo w c field.2 := by
  induction threaded with
  | @intro above v _ _ children ih =>
    have isView : v ∈ root.subviews := among v (mem_subviews_iff.mpr (.inl rfl))
    intro u isBelow
    rcases mem_subviews_iff.mp isBelow with rfl | ⟨entry, isChild, isBelow⟩
    · exact own
    · refine ih entry isChild (fun u isBelow => among u ?_) ?_ u isBelow
      · exact mem_subviews_iff.mpr (.inr ⟨entry, isChild, isBelow⟩)
      · intro field isField linked
        cases children entry isChild with
        | intro known' hangs _ =>
          have isCell := mem_map_of_mem (f := (·.2)) isField
          rcases eq_or_twoWay_of_hangs known first kind (hangs _ isCell) (known' _ isCell) linked with
            same | ⟨twoWay, cell, isAbove, tied⟩
          · exact same ▸ .self
          · obtain ⟨source, isSource, rfl⟩ := mem_map.mp isAbove
            exact .twoWay isView isChild isSource isField twoWay tied
              (own source isSource (tied.symm.trans linked))

/-- In a tree, a field in the group of a one-way field is tied to it. -/
theorem Threaded.tiedTo (threaded : root.Threaded w []) {u : View} (isView : u ∈ root.subviews)
    {field : String × CellId} (isField : field ∈ u.fields)
    (linked : w.store.groupOf field.2 = w.store.groupOf c) : root.TiedTo w c field.2 := by
  refine threaded.tiedTo_below known first kind (fun _ => id) ?_ u isView field isField linked
  intro field isField linked
  cases threaded with
  | intro known' hangs _ =>
    have isCell := mem_map_of_mem (f := (·.2)) isField
    rcases eq_or_twoWay_of_hangs known first kind (hangs _ isCell) (known' _ isCell) linked with
      same | ⟨_, _, isAbove, _⟩
    · exact same ▸ .self
    · exact absurd isAbove not_mem_nil

end

end View

end ReactiveView
