import ReactiveView.Proofs.CallSites
import ReactiveView.Proofs.DepthStability
import ReactiveView.Proofs.ProviderWalks
import ReactiveView.Proofs.Relowering
import ReactiveView.Proofs.SafeRendering

/-!
# Views of a module without errors

A module of source components that is lowered without errors never fails when its views are rendered.
The checks of lowering give what rendering needs: bodies are bracketed, call sites tie every two-way
field to a field of the parent, and the provider search has followed every walk through the
instantiation graph.  Rendering follows such a walk too, however deep it goes, so the components with
the keys that walks provide are closed under rendering.
-/

namespace ReactiveView

open List

/-! ## Source components -/

/-- Whether a member is written in source forms only. -/
def Member.isSource : Member → Bool
  | .field _ => true
  | .method m => Stmt.areSource m.body
  | .wrapper _ | .accessors _ => false

/-- Whether a component is written in source forms only. -/
def Component.isSource (c : Component) : Bool :=
  Stmt.areSource c.render.body && c.members.all Member.isSource

/-! ## Slots of lowered components -/

namespace Component

variable {c : Component}

theorem names_slots (c : Component) :
    c.slots.map (·.1) = c.fieldTable.entries.map (·.name) := by
  simp only [slots, fieldTable, map_filterMap]
  congr 1
  funext m
  cases m <;> rfl

theorem row_of_slot {slot : String × Option BindingKind × Option String} {binding : BindingKind}
    (member : slot ∈ c.slots) (bound : slot.2.1 = some binding) :
    ∃ row ∈ c.fieldTable.entries, row.name = slot.1 ∧ row.binding = binding := by
  obtain ⟨m, isMember, isSlot⟩ := mem_filterMap.mp member
  cases m with
  | wrapper w =>
    cases isSlot
    cases bound
    exact ⟨_, mem_filterMap.mpr ⟨_, isMember, rfl⟩, rfl, rfl⟩
  | field f =>
    cases isSlot
    cases bound
  | accessors _ | method _ => cases isSlot

/-- A source component has two-way fields only where it is decorated so. -/
theorem not_twoWay (c : Component) (source : c.isSource = true)
    (unlinked : ∀ f ∈ c.fields, f.decorator ≠ .link) {row : FieldRow}
    (member : row ∈ c.fieldTable.entries) : row.binding ≠ .twoWay := by
  obtain ⟨m, isMember, entry⟩ := mem_filterMap.mp member
  cases m with
  | field f =>
    have plain := unlinked f (mem_filterMap.mpr ⟨_, isMember, rfl⟩)
    cases entry
    cases decorator : f.decorator with
    | link => exact absurd decorator plain
    | none | state | prop | provide _ | consume _ => simp [Field.binding, decorator]
  | wrapper w =>
    rw [isSource, Bool.and_eq_true, all_eq_true] at source
    cases source.2 _ isMember
  | accessors _ | method _ => cases entry

/-- A lowered component has a slot for every key that it provides. -/
theorem mem_slotKeys {key : String} (lowered : ∀ m ∈ c.members, m.lower = [m])
    (provides : key ∈ c.fieldTable.providedKeys) : key ∈ c.slotKeys := by
  obtain ⟨row, isRow, isKey⟩ := mem_filterMap.mp provides
  obtain ⟨m, member, entry⟩ := mem_filterMap.mp isRow
  cases m with
  | wrapper w =>
    cases entry
    exact mem_filterMap.mpr ⟨_, mem_filterMap.mpr ⟨_, member, rfl⟩, isKey⟩
  | field f =>
    have plain := ModuleScope.plain_of_lower lowered f (mem_filterMap.mpr ⟨_, member, rfl⟩)
    cases entry
    simp [Field.binding, plain, BindingKind.key?] at isKey
  | accessors _ | method _ => cases entry

end Component

/-! ## Components of a module -/

namespace ModuleScope

variable {scope : ModuleScope} {components : List Component} {outs : List LoweredComponent}

theorem LowersEach.exists_of_mem (each : scope.LowersEach components outs) {c : Component}
    (member : c ∈ components) : ∃ out ∈ outs, scope.lowerComponent c = .ok out := by
  induction each with
  | nil => cases member
  | @cons first out components outs lowered each ih =>
    rcases mem_cons.mp member with rfl | later
    · exact ⟨out, mem_cons_self, lowered⟩
    · obtain ⟨out', isOut, lowered'⟩ := ih later
      exact ⟨out', mem_cons_of_mem _ isOut, lowered'⟩

/-- The lowered components of a module by name. -/
theorem LowersEach.find? (each : scope.LowersEach components outs)
    (distinct : (components.map (·.name)).Nodup) {c : Component} {out : LoweredComponent}
    (member : c ∈ components) (lowered : scope.lowerComponent c = .ok out) :
    (Catalog.mk (outs.map (·.decl))).find? c.name = some out.decl := by
  obtain ⟨out', isOut, lowered'⟩ := each.exists_of_mem member
  cases lowered.symm.trans lowered'
  have names : (outs.map (·.decl)).map (·.name) = components.map (·.name) :=
    Component.names_of_outline each.outlines
  have distinct' : ((outs.map (·.decl)).reverse.map (·.name)).Nodup := by
    rw [map_reverse, nodup_reverse, names]
    exact distinct
  refine (Component.find?_eq_some_iff distinct').mpr ⟨?_, name_of_lowerComponent lowered⟩
  exact mem_reverse.mpr (mem_map_of_mem isOut)

end ModuleScope

/-! ## Walks of rendering -/

/-- The components that walks meet, with keys that include those provided on the walk. -/
def Met (components : List Component) (name : String) (keys : String → Prop) : Prop :=
  ∃ before c, Walk components (Component.IsStart components) before c ∧ c.name = name ∧
    ∀ p ∈ before, ∀ key ∈ p.fieldTable.providedKeys, keys key

namespace ModuleScope

variable {m : Module} {options : Options} {parser : Script.Parser} {c : Component}
  {out : LoweredComponent} {before : List Component}

theorem fieldTable_of_lowerComponent {scope : ModuleScope}
    (lowered : scope.lowerComponent c = .ok out) : out.decl.fieldTable = c.fieldTable :=
  congrArg (·.2.2.1) (outline_of_lowerComponent lowered)

/-- On a walk to a component that is lowered, every consumer has a provider. -/
theorem provided_of_slot (distinct : (m.components.map (·.name)).Nodup)
    (lowered : (ModuleScope.of m options parser).lowerComponent c = .ok out)
    (walk : Walk m.components (Component.IsStart m.components) before c) {key : String}
    {slot : String × Option BindingKind × Option String} (isSlot : slot ∈ out.decl.slots)
    (consumes : slot.2.1 = some (.shared key .consumer)) :
    ∃ p ∈ before, key ∈ p.fieldTable.providedKeys := by
  obtain ⟨row, isRow, _, binding⟩ := Component.row_of_slot isSlot consumes
  rw [fieldTable_of_lowerComponent lowered] at isRow
  have consumer : (key, row) ∈ c.fieldTable.consumers :=
    mem_filterMap.mpr ⟨row, isRow, by simp [binding, BindingKind.key?]⟩
  -- otherwise the search for providers would have reported the component, and lowering with it
  by_contra missing
  have unprovided : c.Unprovided before key row :=
    ⟨consumer, fun p member provides => missing ⟨p, member, provides⟩⟩
  have failed := consumerFailures_of_unprovided distinct (ModuleScope.of m options parser).file walk
    unprovided
  have resolved :
      (consumerFailures (ModuleScope.of m options parser).file m.components).lookup c.name = none :=
     (lowerComponent_ok_iff.mp lowered).2.1
  rw [resolved] at failed
  cases failed

/-- A component marker of a lowered body starts an element that instantiates a component of the
    module, and its bindings are those of the call. -/
theorem child_of_marker (lowered : (ModuleScope.of m options parser).lowerComponent c = .ok out)
    (source : c.isSource = true) {marker : OpenMarker} {bindings : List BoundArgument}
    (member : marker ∈ Stmt.openingsAll out.decl.render.body)
    (role : marker.role = .component bindings) :
    ∃ child ∈ m.components, child.name = marker.component ∧
      child.name ∈ c.instances (Component.declares m.components) ∧
      ∃ head ∈ Stmt.elementsAll c.render.body,
        ((ModuleScope.of m options parser).bodyOf c).openElement head = .ok marker ∧
        ∃ bound, (CallSite.mk c.name c.fieldTable).bind child head.args = .ok bound ∧
          bindings = bound.map ((ModuleScope.of m options parser).bodyOf c).resolveBound := by
  obtain ⟨_, _, body, members, _, _, render, _, rfl⟩ := lowerComponent_ok_iff.mp lowered
  rw [Component.isSource, Bool.and_eq_true] at source
  rcases render.lowers.opensOne source.1 marker member with plain | ⟨head, isElement, opened⟩
  · exact absurd role (plain bindings)
  obtain ⟨same, child, bound, known, binds, rfl⟩ :=
    BodyContext.openElement_component opened role
  have named : child.name = head.name := by simpa using List.find?_some known
  refine ⟨child, mem_of_find?_eq_some known, named.trans same.symm, ?_, head, isElement, opened,
    bound, binds, rfl⟩
  have instances := render.lowers.instances
  rw [funext isChild_bodyOf] at instances
  rw [Component.instances_eq, mem_eraseDups, mem_append, named, ← same]
  left
  exact instances ▸ Stmt.mem_instancesAll_of_opening role body member

section

variable {outs : List LoweredComponent}
  (each : (ModuleScope.of m options parser).LowersEach m.components outs)
  (distinct : (m.components.map (·.name)).Nodup) (source : ∀ c ∈ m.components, c.isSource = true)
include each distinct source

/-- A component that is met on a walk can be rendered there, and what it renders is met on the walk
    that goes on. -/
theorem LowersEach.sustains (lowered : (ModuleScope.of m options parser).lowerComponent c = .ok out)
    (walk : Walk m.components (Component.IsStart m.components) before c) {keys : String → Prop}
    (inSight : ∀ p ∈ before, ∀ key ∈ p.fieldTable.providedKeys, keys key) :
    Catalog.Sustains ⟨outs.map (·.decl)⟩ (Met m.components) out.decl keys := by
  have table := fieldTable_of_lowerComponent lowered
  obtain ⟨_, _, body, members, _, _, render, _, same⟩ := lowerComponent_ok_iff.mp lowered
  constructor
  case linear =>
    rw [same]
    exact render.lowers.linear
  case balanced =>
    rw [same]
    exact render.balanced
  case consumers =>
    intro slot isSlot key consumes
    obtain ⟨p, member, provides⟩ := provided_of_slot distinct lowered walk isSlot consumes
    exact inSight p member key provides
  case children =>
    intro marker member bindings role
    obtain ⟨child, declared, named, edge, _⟩ :=
      child_of_marker lowered (source c walk.declared) member role
    -- a cycle of components is followed like any other walk
    refine ⟨c :: before, child, walk.step declared edge, named, ?_⟩
    intro p isBefore key provides
    rcases mem_cons.mp isBefore with rfl | earlier
    · rw [← table] at provides
      exact .inr (Component.mem_slotKeys (lower_of_lowerComponent lowered) provides)
    · exact .inl (inSight p earlier key provides)
  case sources =>
    intro marker member bindings role decl found slot isSlot twoWay
    obtain ⟨child, declared, named, _, _, _, _, bound, binds, rfl⟩ :=
      child_of_marker lowered (source c walk.declared) member role
    obtain ⟨childOut, _, lowered'⟩ := each.exists_of_mem declared
    rw [← named, each.find? distinct declared lowered'] at found
    cases found
    obtain ⟨row, isRow, name, binding⟩ := Component.row_of_slot isSlot twoWay
    rw [fieldTable_of_lowerComponent lowered'] at isRow
    obtain ⟨_, b, _, first, ties⟩ := CallSite.ties_of_bind binds isRow binding
    obtain ⟨code, target, value, _, known, _⟩ :=
      ties.find?_resolveBound ((ModuleScope.of m options parser).bodyOf c) first
    refine ⟨code, target.name, name ▸ value, ?_⟩
    rw [Component.names_slots, table]
    exact mem_map_of_mem (mem_of_find?_eq_some known)

/-- The components that walks meet are closed under rendering. -/
theorem LowersEach.closed : Catalog.Closed ⟨outs.map (·.decl)⟩ (Met m.components) := by
  rintro name keys ⟨before, c, walk, rfl, inSight⟩
  obtain ⟨out, _, lowered⟩ := each.exists_of_mem walk.declared
  exact ⟨out.decl, each.find? distinct walk.declared lowered,
    each.sustains distinct source lowered walk inSight⟩

/-- Where components nest to a depth, a walk goes on for as many steps. -/
theorem LowersEach.walk_of_nests {starts : Component → Prop} {name : String} {depth : Nat}
    (nests : Catalog.Nests ⟨outs.map (·.decl)⟩ name depth)
    (walk : Walk m.components starts before c) (named : c.name = name) :
    ∃ before' c', Walk m.components starts before' c' ∧
      before'.length = before.length + depth := by
  induction nests generalizing before c with
  | zero => exact ⟨before, c, walk, rfl⟩
  | succ found member role below ih =>
    subst named
    obtain ⟨out, _, lowered⟩ := each.exists_of_mem walk.declared
    rw [each.find? distinct walk.declared lowered] at found
    cases found
    obtain ⟨child, declared, named, edge, _⟩ :=
      child_of_marker lowered (source c walk.declared) member role
    obtain ⟨before', c', walk', length⟩ := ih (walk.step declared edge) named
    refine ⟨before', c', walk', ?_⟩
    rw [length, length_cons]
    omega

end

/-- A root without two-way fields needs nothing from the place where it is made. -/
theorem supplies_root (distinct : (m.components.map (·.name)).Nodup)
    (lowered : (ModuleScope.of m options parser).lowerComponent c = .ok out)
    (source : c.isSource = true) (walk : Walk m.components (Component.IsStart m.components) [] c)
    (unlinked : ∀ f ∈ c.fields, f.decorator ≠ .link) :
    ∀ slot ∈ out.decl.slots, Site.Supplies {} slot := by
  intro slot isSlot
  constructor
  · intro twoWay
    obtain ⟨row, isRow, _, binding⟩ := Component.row_of_slot isSlot twoWay
    rw [fieldTable_of_lowerComponent lowered] at isRow
    exact absurd binding (c.not_twoWay source unlinked isRow)
  · intro key consumes
    -- a walk that has not left the root meets no provider
    obtain ⟨p, member, _⟩ := provided_of_slot distinct lowered walk isSlot consumes
    cases member

end ModuleScope

/-! ## Roots -/

/-- The states that a root of a component can be in: it was mounted, fields of views of its tree were
    written, and it was rendered again, in any order and any number of times. -/
inductive Catalog.Live (catalog : Catalog) (name : String) : View → World → Prop
  | mount {depth : Nat} {view : View} {w w' : World}
      (mounted : catalog.mountTo depth name w = (.ok view, w')) : Live catalog name view w'
  | write {view inner : View} {w : World} {path : List PathStep} {field : String}
      {cell : Reactive.CellId} (live : Live catalog name view w)
      (reached : view.get? path = some inner) (found : inner.cell? field = some cell)
      (value : Json) : Live catalog name view (w.set cell value)
  | update {depth : Nat} {view view' : View} {w w' : World} {result : Except RenderFault Unit}
      (live : Live catalog name view w)
      (rendered : catalog.render depth view [] w = (result, view', w')) :
      Live catalog name view' w'

/-- A run that is bounded by a depth does not fail below a root: it has a result, the same at every
    greater depth, or it is cut off where a walk from the root has as many steps. -/
def Component.NeverFails {α β : Type} (components : List Component) (root : Component)
    (run : Nat → Except RenderFault α × β) : Prop :=
  ∀ depth, (∃ a b, ∀ depth' ≥ depth, run depth' = (.ok a, b)) ∨
    (run depth).1 = .error .tooDeep ∧
      ∃ before c, Walk components (· = root) before c ∧ before.length = depth

namespace Catalog

variable {catalog : Catalog} {allowed : String → (String → Prop) → Prop} {name : String}

/-- A root is made and rendered where nothing is in sight, unless views nest too deep. -/
theorem mountTo_cases (closed : catalog.Closed allowed) (isAllowed : allowed name fun _ => False)
    {c : Component} (found : catalog.find? name = some c)
    (supplies : ∀ slot ∈ c.slots, Site.Supplies {} slot) (depth : Nat) (w : World) :
    (∃ view w', catalog.mountTo depth name w = (.ok view, w') ∧ view.Fits catalog ∧
      view.name = name) ∨
    ((catalog.mountTo depth name w).1 = .error .tooDeep ∧ catalog.Nests name depth) := by
  obtain ⟨view, w', made, fits, named⟩ := instantiate_ok found supplies w
  obtain ⟨result, view', last, rendered, outcome, fits', named'⟩ :=
    render_renders closed depth view [] (fun _ => False) w' fits (named ▸ isAllowed)
      (fun _ => False.elim)
  unfold mountTo
  simp only [made, rendered]
  rcases outcome with rfl | ⟨rfl, nested⟩
  · exact .inl ⟨view', last, rfl, fits', named'.trans named⟩
  · exact .inr ⟨rfl, named ▸ nested⟩

/-- Writing and rendering again keep a root fit. -/
theorem Live.fits (closed : catalog.Closed allowed) (isAllowed : allowed name fun _ => False)
    {c : Component} (found : catalog.find? name = some c)
    (supplies : ∀ slot ∈ c.slots, Site.Supplies {} slot) {view : View} {w : World}
    (live : catalog.Live name view w) : view.Fits catalog ∧ view.name = name := by
  induction live with
  | @mount depth view w w' mounted =>
    rcases mountTo_cases closed isAllowed found supplies depth w with
      ⟨_, _, mounted', fits, named⟩ | ⟨cut, _⟩
    · cases mounted.symm.trans mounted'
      exact ⟨fits, named⟩
    · rw [mounted] at cut
      cases cut
  | write _ _ _ _ ih => exact ih
  | @update depth view view' w w' result _ rendered ih =>
    obtain ⟨_, _, _, rendered', _, fits, named⟩ :=
      render_renders closed depth view [] (fun _ => False) w ih.1 (ih.2 ▸ isAllowed)
        (fun _ => False.elim)
    cases rendered.symm.trans rendered'
    exact ⟨fits, named.trans ih.2⟩

end Catalog

/-- A module of source components that is lowered without errors never fails: mounting a component
    that can start a tree, without two-way fields, and rendering it again in whatever state it is
    then, has a result unless it goes on for ever.  `Catalog.mount` and `Catalog.update` are the case
    of the depth `Catalog.depthLimit`. -/
theorem Module.mount_render_neverFails {m : Module} {options : Options} {parser : Script.Parser}
    {root : Component} (source : ∀ c ∈ m.components, c.isSource = true)
    (success : (m.lower options parser).isSuccess = true) (declared : root ∈ m.components)
    (isStart : Component.IsStart m.components root)
    (unlinked : ∀ f ∈ root.fields, f.decorator ≠ .link) :
    let catalog := Catalog.ofOutput (m.lower options parser)
    (∀ w, root.NeverFails m.components fun depth => catalog.mountTo depth root.name w) ∧
      ∀ view w, catalog.Live root.name view w →
        root.NeverFails m.components fun depth => catalog.render depth view [] w := by
  obtain ⟨distinct, outs, each⟩ := Module.isSuccess_lower_iff.mp success
  rw [Module.lower_eq_of_lowersEach distinct each, Catalog.ofOutput,
    ModuleOutcome.lowered_outcomes]
  have closed := each.closed distinct source
  have walk : Walk m.components (Component.IsStart m.components) [] root :=
    .start declared isStart
  have isAllowed : Met m.components root.name fun _ => False :=
    ⟨[], root, walk, rfl, fun _ member => absurd member not_mem_nil⟩
  obtain ⟨out, _, lowered⟩ := each.exists_of_mem declared
  have found := each.find? distinct declared lowered
  have supplies := ModuleScope.supplies_root distinct lowered (source root declared) walk unlinked
  -- only a walk can make the views nest
  have walks {depth} (nests : Catalog.Nests ⟨outs.map (·.decl)⟩ root.name depth) :
      ∃ before c, Walk m.components (· = root) before c ∧ before.length = depth := by
    have begin : Walk m.components (· = root) [] root := .start declared rfl
    obtain ⟨before, c, walk, length⟩ := each.walk_of_nests distinct source nests begin rfl
    exact ⟨before, c, walk, by simpa using length⟩
  constructor
  · intro w depth
    rcases Catalog.mountTo_cases closed isAllowed found supplies depth w with
      ⟨view, w', mounted, _⟩ | ⟨cut, nests⟩
    · refine .inl ⟨view, w', fun depth' more => ?_⟩
      dsimp only
      rw [Catalog.mountTo_refines _ more _ _ (by simp [mounted]), mounted]
    · exact .inr ⟨cut, walks nests⟩
  · intro view w live depth
    obtain ⟨fits, named⟩ := live.fits closed isAllowed found supplies
    obtain ⟨result, view', w', rendered, outcome, _⟩ :=
      Catalog.render_renders closed depth view [] (fun _ => False) w fits (named ▸ isAllowed)
        (fun _ => False.elim)
    rcases outcome with rfl | ⟨rfl, nests⟩
    · refine .inl ⟨(), (view', w'), fun depth' more => ?_⟩
      dsimp only
      rw [Catalog.render_refines _ more _ _ _ (by simp [rendered]), rendered]
    · exact .inr ⟨by simp [rendered], walks (named ▸ nests)⟩

/-! A forum: a page whose badge is tied to one of its fields and consumes another, and a thread that
contains itself. -/

namespace Forum

def page : Component where
  name := "Page"
  isEntry := true
  members := [
    .field { name := "count", decorator := .state, initializer := some "0" },
    .field { name := "theme", decorator := .provide none, initializer := some "1" }]
  render := { body := [
    .choice [⟨some "this.count", [
      .element { name := "Badge", args := [{ name := some "value", value := "$count" }] } []]⟩]
      {}] }

def badge : Component where
  name := "Badge"
  members := [
    .field { name := "value", decorator := .link },
    .field { name := "theme", decorator := .consume none }]
  render := { body := [.element { name := "Text", args := [{ value := "this.value" }] } []] }

def thread : Component where
  name := "Thread"
  members := [.field { name := "open", decorator := .state, initializer := some "true" }]
  render := { body := [.choice [⟨some "this.open", [.element { name := "Thread" } []]⟩] {}] }

def components : List Component := [page, badge, thread]

def file : Module := ⟨"forum.ets", components⟩

theorem isSuccess_lower : (file.lower {}).isSuccess = true := by
  have first : ∃ out, (ModuleScope.of file {}).lowerComponent page = .ok out :=
    ⟨_, ModuleScope.lowerComponent_ok_iff.mpr ⟨rfl, rfl, _, _, _, _,
      ⟨.cons (.choice rfl (.cons rfl (.cons (.element rfl .nil) .nil) .nil)) .nil, rfl⟩,
      .cons .wrapper (.cons .accessors (.cons .wrapper (.cons .accessors .nil))), rfl⟩⟩
  have second : ∃ out, (ModuleScope.of file {}).lowerComponent badge = .ok out :=
    ⟨_, ModuleScope.lowerComponent_ok_iff.mpr ⟨rfl, rfl, _, _, _, _,
      ⟨.cons (.element rfl .nil) .nil, rfl⟩,
      .cons .wrapper (.cons .accessors (.cons .wrapper (.cons .accessors .nil))), rfl⟩⟩
  have third : ∃ out, (ModuleScope.of file {}).lowerComponent thread = .ok out :=
    ⟨_, ModuleScope.lowerComponent_ok_iff.mpr ⟨rfl, rfl, _, _, _, _,
      ⟨.cons (.choice rfl (.cons rfl (.cons (.element rfl .nil) .nil) .nil)) .nil, rfl⟩,
      .cons .wrapper (.cons .accessors .nil), rfl⟩⟩
  obtain ⟨_, first⟩ := first
  obtain ⟨_, second⟩ := second
  obtain ⟨_, third⟩ := third
  exact Module.isSuccess_lower_iff.mpr
    ⟨by decide, _, .cons first (.cons second (.cons third .nil))⟩

/-- What the components of the forum instantiate. -/
theorem edge_cases {p c : Component} (declared : p ∈ components)
    (edge : c.name ∈ p.instances (Component.declares components)) :
    (p = page ∧ c.name = "Badge") ∨ (p = thread ∧ c.name = "Thread") := by
  have ofPage : page.instances (Component.declares components) = ["Badge"] := by decide
  have ofBadge : badge.instances (Component.declares components) = [] := by decide
  have ofThread : thread.instances (Component.declares components) = ["Thread"] := by decide
  simp only [components, mem_cons, not_mem_nil, or_false] at declared
  rcases declared with rfl | rfl | rfl
  · exact .inl ⟨rfl, mem_singleton.mp (ofPage ▸ edge)⟩
  · rw [ofBadge] at edge
    cases edge
  · exact .inr ⟨rfl, mem_singleton.mp (ofThread ▸ edge)⟩

theorem isRoot_page : Component.IsRoot components page := .inl rfl

/-- The thread is reached only by walks that start at it. -/
theorem isStart_thread : Component.IsStart components thread := by
  have other {before c} (walk : Walk components (Component.IsRoot components) before c) :
      c ≠ thread := by
    induction walk with
    | start declared isRoot =>
      rintro rfl
      rcases isRoot with entry | alone
      · cases entry
      · exact alone thread declared (by decide)
    | step walk declared edge ih =>
      rintro rfl
      rcases edge_cases walk.declared edge with ⟨_, name⟩ | ⟨same, _⟩
      · exact absurd name (by decide)
      · exact ih same
  exact .inr fun ⟨_, walk⟩ => other walk rfl

/-- Walks from the page have at most one step. -/
theorem length_walk_page {before : List Component} {c : Component}
    (walk : Walk components (· = page) before c) :
    (before = [] ∧ c.name = "Page") ∨ (before.length = 1 ∧ c.name = "Badge") := by
  induction walk with
  | start _ isStart => exact .inl ⟨rfl, isStart ▸ rfl⟩
  | step walk declared edge ih =>
    rcases edge_cases walk.declared edge with ⟨rfl, name⟩ | ⟨rfl, _⟩
    · rcases ih with ⟨rfl, _⟩ | ⟨_, other⟩
      · exact .inr ⟨rfl, name⟩
      · exact absurd other (by decide)
    · rcases ih with ⟨_, other⟩ | ⟨_, other⟩
      · exact absurd other (by decide)
      · exact absurd other (by decide)

end Forum

theorem Module.mount_render_neverFails_forum :
    (Forum.file.lower {}).isSuccess = true ∧
    (∃ view w, (Catalog.ofOutput (Forum.file.lower {})).mount "Page" {} = (.ok view, w) ∧
      ∀ path inner field cell value, view.get? path = some inner → inner.cell? field = some cell →
        ∃ after, (Catalog.ofOutput (Forum.file.lower {})).update view (w.set cell value) =
          (.ok (), after)) ∧
    ∀ w, Forum.thread.NeverFails Forum.components fun depth =>
      (Catalog.ofOutput (Forum.file.lower {})).mountTo depth "Thread" w := by
  have source : ∀ c ∈ Forum.file.components, c.isSource = true := by decide
  have shallow {before c} (walk : Walk Forum.components (· = Forum.page) before c) :
      before.length ≠ 2 := by
    rcases Forum.length_walk_page walk with ⟨rfl, _⟩ | ⟨length, _⟩
    · decide
    · omega
  obtain ⟨mounts, renders⟩ := Module.mount_render_neverFails source Forum.isSuccess_lower
    (.head _) (.inl Forum.isRoot_page) (by decide)
  obtain ⟨threads, _⟩ := Module.mount_render_neverFails source Forum.isSuccess_lower
    (.tail _ (.tail _ (.head _))) Forum.isStart_thread (by decide)
  refine ⟨Forum.isSuccess_lower, ?_, threads⟩
  rcases mounts {} 2 with ⟨view, w, mounted⟩ | ⟨_, before, c, walk, length⟩
  · refine ⟨view, w, mounted Catalog.depthLimit (by decide), ?_⟩
    intro path inner field cell value reached found
    have live := (Catalog.Live.mount (mounted 2 (Nat.le_refl 2))).write reached found value
    rcases renders view (w.set cell value) live 2 with
      ⟨_, after, rendered⟩ | ⟨_, before, c, walk, length⟩
    · exact ⟨after, rendered Catalog.depthLimit (by decide)⟩
    · exact absurd length (shallow walk)
  · exact absurd length (shallow walk)

end ReactiveView
