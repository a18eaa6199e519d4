import ReactiveView.Proofs.NestedRenderings
import ReactiveView.Proofs.TwoWayChains

/-!
# Fields after an update

An update of a view writes one-way arguments to the children below it.  A view that was there before
keeps the values of its other fields, unless a field is tied to one that was written; after the update
every child has the values of its arguments; and the fields of a view do not change while the view is
rendered (`ViewSession.update_writes_arguments`).  Watches that write can do otherwise.
-/

namespace ReactiveView

open List
open Reactive (CellId SubscriptionId)

/-! ## One-way fields -/

/-- The arguments that are refreshed are for one-way fields. -/
def Catalog.HasOneWayCalls (catalog : Catalog) : Prop :=
  ∀ c ∈ catalog.components, ∀ m ∈ Stmt.openingsAll c.render.body, ∀ bindings,
    m.role = .component bindings → ∀ child, catalog.find? m.component = some child →
      ∀ b ∈ bindings, ∀ code, b.refreshed? = some code →
        ∀ slot, child.slots.find? (·.1 = b.field) = some slot → slot.2.1 = some .oneWay

theorem Module.hasOneWayCalls {m : Module} {options : Options} {parser : Script.Parser}
    (source : ∀ c ∈ m.components, c.isSource = true)
    (fields : ∀ c ∈ m.components, (c.fieldTable.entries.map (·.name)).Nodup)
    (success : (m.lower options parser).isSuccess = true) :
    (Catalog.ofOutput (m.lower options parser)).HasOneWayCalls := by
  intro decl isDecl marker isMarker bindings role child found b member code refreshed slot isSlot
  obtain ⟨c, declared, site, args, bound, ctx, binds, rfl, slots⟩ :=
    bind_of_marker source success isDecl isMarker role found
  obtain ⟨oneWay, _⟩ := b.of_refreshed? refreshed
  obtain ⟨b, isBound, rfl⟩ := mem_map.mp member
  rw [ctx.binding_resolveBound] at oneWay
  rw [CallSite.field_resolveBound] at isSlot
  obtain ⟨row, isRow, kind, binding⟩ :=
    Component.slot_of_bind binds (fields c declared) slots isBound isSlot
  rw [oneWay] at binding
  have decorated : row.binding ≠ .ownedSimple := by
    rw [← binding]
    exact BindingKind.noConfusion
  rw [kind, Component.binding_slot isRow decorated, binding]

namespace View

variable {catalog : Catalog} {w : World} {sight : List CellId} {v root : View} {c : CellId}

theorem Rooted.of_mem_subviews (rooted : v.Rooted catalog w sight) {u : View}
    (isView : u ∈ v.subviews) : ∃ sight, u.Rooted catalog w sight := by
  induction rooted with
  | @intro sight v sits children ih =>
    rcases mem_subviews_iff.mp isView with rfl | ⟨entry, isChild, isBelow⟩
    · exact ⟨sight, .intro sits children⟩
    · exact ih entry isChild isBelow

/-- The fields that arguments are written to are one-way fields, and their cells begin groups. -/
theorem IsBound.isOneWay (oneWay : catalog.HasOneWayCalls) (rooted : root.Rooted catalog w sight)
    (fresh : ∀ v ∈ root.subviews, ∀ entry ∈ v.keyedChildren, v.IsFresh catalog w entry)
    (bound : root.IsBound catalog w c) :
    c < w.store.cells.length ∧ w.store.IsFirst c ∧ w.store.kind c = .oneWay := by
  obtain ⟨v, isView, entry, isChild, call, found, isBound⟩ := bound
  obtain ⟨call', found', named, _⟩ := fresh v isView entry isChild
  cases found.symm.trans found'
  obtain ⟨decl, known, isMarker, role⟩ := marker_of_call? found
  obtain ⟨_, rooted⟩ := rooted.of_mem_subviews isView
  cases rooted with
  | intro _ children =>
    obtain ⟨child, site, isDecl, seated, _⟩ := (children entry isChild).sits
    obtain ⟨b, isArgument, code, isCode, isField⟩ := mem_boundCells.mp isBound
    obtain ⟨slot, isSlot, fills⟩ := exists_of_lookup seated.fills seated.names isField
    -- the child was made for the component of the marker, so the slot is that of the argument
    have kind := oneWay decl (Catalog.mem_of_find? known) call.marker
      isMarker call.bindings role child (named ▸ isDecl) b isArgument code isCode slot isSlot
    refine ⟨fills.known, fills.first (by rw [kind]; rfl), ?_⟩
    rw [fills.kind, kind]
    rfl

theorem TiedTo.eq_or_twoWay {d : CellId} (tied : root.TiedTo w c d) :
    d = c ∨ w.store.kind d = .twoWay := by
  cases tied with
  | self => exact .inl rfl
  | twoWay _ _ _ _ kind => exact .inr kind

/-! ## Views inside a tree -/

mutual

theorem fieldCells_eq_subviews : ∀ v : View,
    v.fieldCells = v.subviews.flatMap fun u => u.fields.map (·.2)
  | .mk name fields provided number renders children history activations tree subscriptions => by
    rw [fieldCells, subviews, flatMap_cons, fieldCellsAll_eq_subviewsAll children]
    rfl

theorem fieldCellsAll_eq_subviewsAll : ∀ children : List (String × View),
    fieldCellsAll children = (subviewsAll children).flatMap fun u => u.fields.map (·.2)
  | [] => rfl
  | (_, v) :: rest => by
    rw [fieldCellsAll, subviewsAll, flatMap_append, fieldCells_eq_subviews v,
      fieldCellsAll_eq_subviewsAll rest]

end

theorem mem_fieldCells {u : View} (isView : u ∈ v.subviews) {field : String × CellId}
    (isField : field ∈ u.fields) : field.2 ∈ v.fieldCells := by
  rw [fieldCells_eq_subviews]
  exact mem_flatMap.mpr ⟨u, isView, mem_map_of_mem isField⟩

theorem get?_name {name : String} {before after : List (String × View)} {key : String} {child : View}
    (children : v.keyedChildren = before ++ (key, child) :: after) (named : child.name = name)
    (others : ∀ entry ∈ before, entry.2.name ≠ name) (path : List PathStep) :
    v.get? (.name name :: path) = child.get? path := by
  have found : v.child? name = some child := by
    rw [child?, View.children, children, map_append, List.find?_append, map_cons,
      List.find?_cons_of_pos (by simpa using named)]
    have absent : (before.map (·.2)).find? (·.name = name) = none := by
      simpa [List.find?_eq_none] using fun key u isBefore => others (key, u) isBefore
    rw [absent, Option.none_or]
  rw [get?, found, Option.bind_some]

end View

namespace Catalog

variable {catalog : Catalog} {render : Renderer} {w w' : World} {root root' v v' : View}
  {sight held : List CellId} {subscriptions : List SubscriptionId} {path : List String}

/-- The view at a path was rendered, and nothing was written outside it. -/
structure RendersAt (catalog : Catalog) (render : Renderer) (path : List String) (root : View)
    (w : World) (root' : View) (w' : World) (v v' : View) : Prop where
  found : root.get? (path.map .name) = some v
  found' : root'.get? (path.map .name) = some v'
  rendered : render v [] w = (.ok (), v', w')
  housed : ∃ sight held subscriptions, v.Houses catalog sight held subscriptions v.keyedChildren w
  inside : ∀ u ∈ v.subviews, u ∈ root.subviews
  outside : ∀ u' ∈ root'.subviews, u' ∈ v'.subviews ∨
    ∃ u ∈ root.subviews, u.SameInstance u' ∧
      ∀ field ∈ u'.fields, w'.store.value field.2 = w.store.value field.2

/-- A view whose child was rendered keeps the values of its fields, and so do its other children. -/
theorem Leaves.values_around {before after : List (String × View)} {key : String}
    {child child' : View} (children : v.keyedChildren = before ++ (key, child) :: after)
    (houses : v.Houses catalog sight held subscriptions v.keyedChildren w)
    (leaves : catalog.Leaves (v.ownCells ++ sight)
      (View.ownedCellsAll (before ++ after) ++ (v.ownCells ++ held))
      (View.ownedSubscriptionsAll (before ++ after) ++ (v.subscriptions ++ subscriptions)) child w
      child' w') :
    (∀ field ∈ v.fields, w'.store.value field.2 = w.store.value field.2) ∧
      ∀ entry ∈ before ++ after, ∀ u ∈ entry.2.subviews, ∀ field ∈ u.fields,
        w'.store.value field.2 = w.store.value field.2 := by
  rw [children] at houses
  -- the order of the children does not matter, so the one that was rendered comes first
  have houses := houses.fewer perm_middle.symm.subperm
  have written {d : CellId} (below : d ∈ View.fieldCellsAll child.keyedChildren) :
      d ∈ child.fieldCells := by
    rw [View.fieldCells_eq]
    exact mem_append_right _ below
  constructor
  · intro field isField
    have spares : w.Spares (View.fieldCellsAll ((key, child) :: (before ++ after))) w' :=
      leaves.spares.mono fun d below => mem_append_left _ (written below)
    apply houses.value_eq spares
    exact mem_append_left _ (mem_map_of_mem (mem_append_left _ isField))
  · intro entry isOther u isView field isField
    apply houses.value_eq_inside (mem_cons_of_mem _ isOther) leaves.spares ?_
      (View.mem_fieldCells isView isField)
    intro d below
    obtain ⟨around, others⟩ := houses.apart_child (written below)
    exact ⟨around, others entry isOther⟩

-- By induction on the path: the view at the rest of the path is rendered, and the views around it, on
-- each level the view itself and its other children, keep their values.
theorem rendersAt_of_modify (trees : catalog.LeavesTrees render)
    {f : View → (Except RenderFault Unit × World) × View}
    (renders : ∀ u, render u [] w = ((f u).1.1, (f u).2, (f u).1.2))
    (modified : View.modify f path root = some ((.ok (), w'), root'))
    (houses : root.Houses catalog sight held subscriptions root.keyedChildren w) :
    ∃ v v', catalog.RendersAt render path root w root' w' v v' := by
  induction path generalizing root root' sight held subscriptions with
  | nil =>
    have changed := Option.some.inj modified
    have rendered := renders root
    rw [changed] at rendered
    exact ⟨root, root', rfl, rfl, rendered, ⟨_, _, _, houses⟩, fun _ => id, fun _ => .inl⟩
  | cons name path ih =>
    obtain ⟨⟨_, children'⟩, changed, same⟩ := Option.map_eq_some_iff.mp modified
    cases same
    obtain ⟨before, key, child, child', after, children, inner, rfl, named, others⟩ :=
      View.modifyChild_eq_some changed
    have split := children ▸ houses
    have housesChild := (split.fewer perm_middle.symm.subperm).child
    have leaves := trees.modify renders inner housesChild
    obtain ⟨own, around⟩ := leaves.values_around children houses
    obtain ⟨v, v', inChild⟩ := ih inner housesChild
    have isChild : (key, child) ∈ root.keyedChildren :=
      children ▸ mem_append_cons_self
    refine ⟨v, v', ?_, ?_, inChild.rendered, inChild.housed, ?_, ?_⟩
    · exact (View.get?_name children named others _).trans inChild.found
    · exact (View.get?_name rfl (leaves.same.name.trans named) others _).trans inChild.found'
    · intro u isView
      exact View.mem_subviews_iff.mpr (.inr ⟨_, isChild, inChild.inside u isView⟩)
    · intro u' isView
      rcases View.mem_subviews_iff.mp isView with rfl | ⟨entry, isEntry, isBelow⟩
      · exact .inr ⟨root, View.mem_subviews_iff.mpr (.inl rfl), ⟨rfl, rfl, rfl, rfl, rfl⟩, own⟩
      change entry ∈ before ++ (key, child') :: after at isEntry
      rcases mem_cons.mp (perm_middle.subset isEntry) with rfl | isOther
      · refine (inChild.outside u' isBelow).imp_right ?_
        rintro ⟨u, isOld, kept⟩
        exact ⟨u, View.mem_subviews_iff.mpr (.inr ⟨_, isChild, isOld⟩), kept⟩
      · have isOld : entry ∈ root.keyedChildren := by
          rw [children]
          exact perm_middle.symm.subset (mem_cons_of_mem _ isOther)
        exact .inr ⟨u', View.mem_subviews_iff.mpr (.inr ⟨entry, isOld, isBelow⟩), .refl u',
          around entry isOther u' isBelow⟩

end Catalog

/-! ## Updates -/

namespace ViewSession

open Rendering (Spans)

variable {catalog : Catalog} {s s' : ViewSession} {root root' v v' : View}

/-- What the update of a view does to fields. -/
structure Refreshes (catalog : Catalog) (s s' : ViewSession) (root root' v v' : View) : Prop where
  /-- A view is new, or it was there before and its fields keep their values, apart from those that
      are tied to a one-way argument. -/
  kept : ∀ u' ∈ root'.subviews, (∀ u ∈ root.subviews, u.number ≠ u'.number) ∨
    ∃ u ∈ root.subviews, u.SameInstance u' ∧ ∀ field ∈ u'.fields,
      s'.world.store.value field.2 = s.world.store.value field.2 ∨
        ∃ c, v'.IsBound catalog s'.world c ∧ root'.TiedTo s'.world c field.2
  /-- Children have the values of their one-way arguments. -/
  fresh : ∀ u' ∈ v'.subviews, ∀ entry ∈ u'.keyedChildren, u'.IsFresh catalog s'.world entry
  /-- Renderings go through all visits of the body. -/
  passes : ∀ r, Spans catalog ⟨Catalog.depthLimit, v, [], s.world⟩ r → ∀ done coming,
    catalog.visits r.depth r.view r.provided r.world = done ++ coming →
      ∃ e, r.Passes catalog e coming
  /-- Whatever goes on inside the rendering of a view, the fields of the view do not change. -/
  steady : ∀ r inner, Spans catalog ⟨Catalog.depthLimit, v, [], s.world⟩ r →
    Spans catalog r inner → ∀ e coming, inner.Passes catalog e coming → ∀ field ∈ r.view.fields,
      e.world.store.value field.2 = r.world.store.value field.2

theorem view_of_get? (isRoot : s.root = some root) {path : List PathStep}
    (found : root.get? path = some v) : s.view path = .ok v := by
  rw [view, isRoot, Option.bind_some, found]

/-- An update that succeeds has rendered the view at the path. -/
theorem rendersAt_of_update (fit : catalog.HasFitCalls) (sound : IsSound catalog s)
    {path : List String} (updated : s.update path = (.ok (), s')) :
    ∃ root root' v v', s.root = some root ∧ s'.root = some root' ∧
      catalog.RendersAt (catalog.render Catalog.depthLimit) path root s.world root' s'.world v v' := by
  unfold ViewSession.update at updated
  dsimp only at updated
  split at updated
  · cases updated
  next result w root' modified =>
    obtain ⟨root, isRoot, modified⟩ := Option.bind_eq_some_iff.mp modified
    cases result with
    | error fault => cases updated
    | ok _ =>
      cases updated
      obtain ⟨v, v', renders⟩ := Catalog.rendersAt_of_modify
        (Catalog.render_leavesTrees fit Catalog.depthLimit)
        (fun u => by rw [sound.components]; rfl) modified (sound.root root isRoot)
      exact ⟨root, root', v, v', isRoot, rfl, renders⟩

/-- An update writes one-way arguments and what is tied to them, and nothing else. -/
theorem refreshes_of_rendersAt (fit : catalog.HasFitCalls) (oneWay : catalog.HasOneWayCalls)
    (rooted : root.Rooted catalog s.world []) (threaded : root'.Threaded s'.world [])
    {path : List String}
    (renders : catalog.RendersAt (catalog.render Catalog.depthLimit) path root s.world root' s'.world
      v v') : Refreshes catalog s s' root root' v v' := by
  obtain ⟨sight, held, subscriptions, houses⟩ := renders.housed
  have nothing : ∀ entry ∈ ([] : Provided), entry.2 ∈ sight := forall_mem_nil _
  have leaves := Catalog.render_leavesTrees fit _ _ _ _ _ _ _ _ _ _ renders.rendered nothing houses
  have freshened := Catalog.render_freshens fit _ _ _ _ _ _ _ _ _ renders.rendered nothing houses _
    (.refl _) fun _ _ => rfl
  have housed : Rendering.IsHoused catalog ⟨Catalog.depthLimit, v, [], s.world⟩ sight held
      subscriptions := ⟨⟨v', s'.world, renders.rendered⟩, nothing, houses⟩
  constructor
  -- a view outside the updated one keeps all its values; one inside was rendered or made
  case kept =>
    intro u' isView
    rcases renders.outside u' isView with isInside | ⟨u, isOld, same, values⟩
    · obtain ⟨_, renewed, _⟩ := catalog.render_renews _ _ _ _ _ _ renders.rendered
      obtain ⟨u, rendersTo, isOld | new⟩ := renewed u' isInside
      · refine .inr ⟨u, renders.inside u isOld, rendersTo.same, fun field isField => ?_⟩
        have known : field.2 < s.world.store.cells.length := by
          rw [rendersTo.same.fields] at isField
          exact rooted.known (View.mem_fieldCells (renders.inside u isOld) isField)
        have isCell := View.mem_fieldCells isInside isField
        refine (freshened.kept field.2 isCell known).imp_right ?_
        rintro ⟨c, bound, linked⟩
        -- a changed value is in the group of a bound field, and only two-way fields lead there
        have rooted' := View.Rooted.intro leaves.houses.sits leaves.houses.rooted
        obtain ⟨known, first, kind⟩ := bound.isOneWay oneWay rooted' freshened.fresh
        exact ⟨c, bound, threaded.tiedTo known first kind isView isField linked⟩
      · -- the numbers of the views before were given already
        refine .inl fun u₀ isOld same => ?_
        obtain ⟨_, inTree⟩ := rooted.of_mem_subviews isOld
        obtain ⟨_, _, _, seated, _⟩ := inTree.sits
        have given : u₀.number < s.world.views := seated.number
        rw [same, rendersTo.same.number] at given
        exact absurd new.number (Nat.not_le_of_lt given)
    · exact .inr ⟨u, isOld, same, fun field isField => .inl (values field isField)⟩
  case fresh => exact freshened.fresh
  case passes =>
    intro r spans done coming split
    obtain ⟨_, _, _, housed⟩ := housed.spans fit spans
    exact housed.ends.exists_passes split
  case steady =>
    intro r inner spans spans' e coming passes field isField
    obtain ⟨_, _, _, housed⟩ := housed.spans fit spans
    exact housed.value_eq fit spans' passes isField

/-- An update of a view in a module that is lowered without errors, in a state that a session reaches
    while watches only listen, writes one-way arguments and what is tied to them, and nothing else. -/
theorem update_writes_arguments {m : Module} {options : Options} {parser : Script.Parser}
    (source : ∀ c ∈ m.components, c.isSource = true)
    (fields : ∀ c ∈ m.components, (c.fieldTable.entries.map (·.name)).Nodup)
    (success : (m.lower options parser).isSuccess = true)
    (reached : Reached (.ofOutput (m.lower options parser)) s) {path : List String}
    (updated : s.update path = (.ok (), s')) :
    ∃ root root' v v', s.root = some root ∧ s'.root = some root' ∧
      s.view (path.map .name) = .ok v ∧ s'.view (path.map .name) = .ok v' ∧
      Refreshes (.ofOutput (m.lower options parser)) s s' root root' v v' := by
  have fit := Module.hasFitCalls source fields success
  have oneWay := Module.hasOneWayCalls source fields success
  have sound := IsSound.of_reached fit reached
  have reached' : Reached (.ofOutput (m.lower options parser)) s' := by
    have step := Step.update (s := s) path
    rw [updated] at step
    exact .step reached step
  obtain ⟨root, root', v, v', isRoot, isRoot', renders⟩ :=
    rendersAt_of_update fit sound updated
  have houses := sound.root root isRoot
  have rooted := View.Rooted.intro houses.sits houses.rooted
  have threaded := isThreaded_of_reached fit reached' root' isRoot'
  exact ⟨root, root', v, v', isRoot, isRoot', view_of_get? isRoot renders.found,
    view_of_get? isRoot' renders.found', refreshes_of_rendersAt fit oneWay rooted threaded renders⟩

end ViewSession

/-! A page with a panel, whose badge shares the label of the panel, and with a chip for each item. -/

namespace LabelledPage

def text (value : String) : Stmt := .element { name := "Text", args := [{ value }] } []

def badge : Component where
  name := "Badge"
  members := [.field { name := "on", decorator := .link }]
  render := { body := [text "this.on"] }

def chip : Component where
  name := "Chip"
  members := [.field { name := "v", decorator := .prop }]
  render := { body := [text "this.v"] }

def panel : Component where
  name := "Panel"
  members := [
    .field { name := "label", decorator := .prop },
    .field { name := "note", decorator := .state, initializer := some "true" }]
  render := { body := [
    .element { name := "Badge", args := [{ name := some "on", value := "$label" }] } []] }

def page : Component where
  name := "Page"
  isEntry := true
  members := [
    .field { name := "title", decorator := .state, initializer := some "false" },
    .field { name := "items", decorator := .state, initializer := some "[false]" }]
  render := { body := [
    .element { name := "Panel", args := [{ name := some "label", value := "this.title" }] } [],
    .forEach { source := "this.items", itemVar := "x" }
      [.element { name := "Chip", args := [{ name := some "v", value := "x" }] } []]] }

def file : Module := ⟨"labelled.ets", [badge, chip, panel, page]⟩

def mounted : ViewSession := (ViewSession.mount { catalog := .ofOutput (file.lower {}) } "Page").2

def edited : Except ViewFault ViewSession := do
  let s := (← mounted.set [] "title" (.bool true)).2
  return (← s.set [] "items" (.arr [.bool true])).2

/-- The watch turns the title off when the label is turned on. -/
def watched : Except ViewFault ViewSession := do
  let s ← mounted.watch "off" [.name "Panel"] "label" (some (.bool true))
    (some ([], "title", .bool false))
  return (← s.set [] "title" (.bool true)).2

/-- The fields of the page, the panel, the badge and the chip. -/
def truths (s : ViewSession) : List (Option Bool) :=
  [([], "title"), ([.name "Panel"], "label"), ([.name "Panel"], "note"),
    ([.name "Panel", .name "Badge"], "on"), ([.name "Chip"], "v")].map fun (path, field) =>
    (s.value? path field).toOption.bind (·.map Json.truthy)

/-- The next state, if the update of the root succeeds. -/
def updated? (s : ViewSession) : Option ViewSession :=
  match s.update [] with
  | (.ok (), s') => some s'
  | _ => none

theorem eq_ok_of_toOption {ran : Except ViewFault ViewSession} {s : ViewSession}
    (isResult : ran.toOption = some s) : ran = .ok s := by
  cases ran <;> cases isResult
  rfl

theorem update_of_updated? {s s' : ViewSession} (updated : updated? s = some s') :
    s.update [] = (.ok (), s') := by
  unfold updated? at updated
  split at updated
  next ran => rw [ran, Option.some.inj updated]
  · cases updated

end LabelledPage

theorem ViewSession.update_writes_arguments_labelledPage :
    ∃ s s', Reached (.ofOutput (LabelledPage.file.lower {})) s ∧ s.update [] = (.ok (), s') ∧
      LabelledPage.truths s = [some true, some false, some true, some false, some false] ∧
      LabelledPage.truths s' = [some true, some true, some true, some true, some true] ∧
      ∃ root root' v v', s.root = some root ∧ s'.root = some root' ∧ s.view [] = .ok v ∧
        s'.view [] = .ok v' ∧
        Refreshes (.ofOutput (LabelledPage.file.lower {})) s s' root root' v v' := by
  have facts : (LabelledPage.edited.toOption.bind fun s => (LabelledPage.updated? s).map fun s' =>
      (LabelledPage.truths s, LabelledPage.truths s')) =
      some ([some true, some false, some true, some false, some false],
        [some true, some true, some true, some true, some true]) := by decide +kernel
  obtain ⟨s, isEdited, facts⟩ := Option.bind_eq_some_iff.mp facts
  obtain ⟨s', updated, facts⟩ := Option.map_eq_some_iff.mp facts
  obtain ⟨before, after⟩ := Prod.mk.inj facts
  have updated := LabelledPage.update_of_updated? updated
  have edited := LabelledPage.eq_ok_of_toOption isEdited
  obtain ⟨⟨_, titled⟩, first, edited⟩ := except_bind_ok_iff.mp edited
  obtain ⟨⟨_, listed⟩, second, edited⟩ := except_bind_ok_iff.mp edited
  cases edited
  have reached : Reached (.ofOutput (LabelledPage.file.lower {})) listed :=
    .step (.step (.step .start (.mount "Page")) (.set first)) (.set second)
  exact ⟨listed, s', reached, updated, before, after, ViewSession.update_writes_arguments (by decide)
    (by decide) (by decide +kernel) reached updated⟩

/-- A watch that writes can change a field of the page while the page is rendered. -/
theorem LabelledPage.update_turns_title :
    (∀ c ∈ file.components, c.isSource = true) ∧
      (∀ c ∈ file.components, (c.fieldTable.entries.map (·.name)).Nodup) ∧
      (file.lower {}).isSuccess = true ∧
      ∃ s s' root root', watched = .ok s ∧ s.update [] = (.ok (), s') ∧ s.root = some root ∧
        s'.root = some root' ∧
        truths s = [some true, some false, some true, some false, some false] ∧
        truths s' = [some false, some true, some true, some true, some false] ∧
        ¬ ViewSession.Refreshes (.ofOutput (file.lower {})) s s' root root' root root' := by
  refine ⟨by decide, by decide, by decide +kernel, ?_⟩
  have facts : (watched.toOption.bind fun s => (updated? s).bind fun s' => s.root.bind fun root =>
      s'.root.map fun root' => (truths s, truths s', root'.cell? "title",
        [decide (root.number = root'.number), (s.world.store.value 0).truthy,
          !(s'.world.store.value 0).truthy, s'.world.store.kind 0 ≠ .twoWay,
          root'.subviews.all (·.keyedChildren.all (·.2.fields.all (·.2 ≠ 0)))].all id)) =
      some ([some true, some false, some true, some false, some false],
        [some false, some true, some true, some true, some false], some 0, true) := by decide +kernel
  obtain ⟨s, isWatched, facts⟩ := Option.bind_eq_some_iff.mp facts
  obtain ⟨s', updated, facts⟩ := Option.bind_eq_some_iff.mp facts
  obtain ⟨root, isRoot, facts⟩ := Option.bind_eq_some_iff.mp facts
  obtain ⟨root', isRoot', facts⟩ := Option.map_eq_some_iff.mp facts
  simp only [Prod.mk.injEq, all_cons, all_nil, Bool.and_eq_true, id, Bool.not_eq_true',
    decide_eq_true_eq, and_true] at facts
  obtain ⟨before, after, title, old, on, off, kind, below⟩ := facts
  refine ⟨s, s', root, root', eq_ok_of_toOption isWatched, update_of_updated? updated, isRoot, isRoot',
    before, after, ?_⟩
  intro refreshes
  rcases refreshes.kept root' (View.mem_subviews_iff.mpr (.inl rfl)) with new | ⟨u, _, _, kept⟩
  · exact new root (View.mem_subviews_iff.mpr (.inl rfl)) old
  rcases kept _ (View.mem_fields_of_cell? title) with same | ⟨c, bound, tied⟩
  · rw [same, on] at off
    cases off
  rcases tied.eq_or_twoWay with isBound | twoWay
  · -- only children have arguments
    obtain ⟨v, isView, entry, isChild, call, _, isCell⟩ := bound
    obtain ⟨b, _, code, _, isField⟩ := View.mem_boundCells.mp isCell
    have others := all_eq_true.mp (all_eq_true.mp below v isView) entry isChild
    have apart := all_eq_true.mp others _ (View.mem_fields_of_cell? isField)
    exact absurd isBound.symm (of_decide_eq_true apart)
  · exact kind twoWay

end ReactiveView
