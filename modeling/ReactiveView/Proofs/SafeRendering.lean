import ReactiveView.Proofs.BalancedExecution
import ReactiveView.Proofs.KeyedChildren
import ReactiveView.View.Session

/-!
# Rendering without faults

Rendering meets a component together with the keys in sight.  If a set of such pairs is closed under
rendering (`Catalog.Closed`) then no rendering that starts in it fails: every component is known, its
body is bracketed, its consumers find their keys, its two-way fields find a field of the parent, and
its children are in the set again.  This holds for every choice of branches and every number of items,
for views that are rendered again after any writes, and for components that contain themselves, as
long as the views do not nest too deep.
-/

namespace ReactiveView

open List
open ExecM (Safe)

theorem isSome_lookup_iff {α : Type} {entries : List (String × α)} {key : String} :
    (entries.lookup key).isSome = true ↔ key ∈ entries.map (·.1) := by
  rw [lookup_isSome_iff, mem_map]
  simp only [beq_iff_eq]
  exact exists_congr fun _ => and_congr_right fun _ => eq_comm

/-! ## Making a view -/

namespace Component

/-- The fields of a lowered component, each with its binding unless it is plain. -/
def slots (c : Component) : List (String × Option BindingKind × Option String) :=
  c.members.filterMap Member.slot?

/-- The keys that the views of a component provide. -/
def slotKeys (c : Component) : List String :=
  c.slots.filterMap fun slot => slot.2.1.bind (·.key? .provider)

end Component

namespace Site

variable {site : Site}

/-- A place gives a field what it needs: a field of the parent, or a provider. -/
structure Supplies (site : Site) (slot : String × Option BindingKind × Option String) : Prop where
  source : slot.2.1 = some .twoWay → (site.source? slot.1).isSome = true
  provider : ∀ key, slot.2.1 = some (.shared key .consumer) →
    (site.provided.lookup key).isSome = true

theorem cell_ok {field : String} {binding : Option BindingKind} {initializer : Option String}
    (supplies : site.Supplies (field, binding, initializer)) (w : World)
    (fields : List (String × Reactive.CellId)) :
    ∃ c w', site.cell w fields field binding initializer = .ok (c, w') := by
  unfold cell
  split
  · exact ⟨_, _, rfl⟩
  · obtain ⟨source, found⟩ := Option.isSome_iff_exists.mp (supplies.source rfl)
    simp only at found
    rw [found]
    exact ⟨_, _, rfl⟩
  next key =>
    obtain ⟨source, found⟩ := Option.isSome_iff_exists.mp (supplies.provider key rfl)
    rw [found]
    exact ⟨_, _, rfl⟩
  · exact ⟨_, _, rfl⟩

/-- Where every field gets what it needs, the cells are made: one for each field, and one for each
    provided key. -/
theorem cells_ok {slots : List (String × Option BindingKind × Option String)}
    (supplies : ∀ slot ∈ slots, site.Supplies slot) (w : World)
    (fields provided : List (String × Reactive.CellId)) :
    ∃ fields' provided' w', site.cells w fields provided slots = (.ok (fields', provided'), w') ∧
      fields'.map (·.1) = fields.map (·.1) ++ slots.map (·.1) ∧
      provided'.map (·.1) = provided.map (·.1) ++
        slots.filterMap fun slot => slot.2.1.bind (·.key? .provider) := by
  induction slots generalizing w fields provided with
  | nil => exact ⟨fields, provided, w, rfl, by simp, by simp⟩
  | cons slot slots ih =>
    obtain ⟨field, binding, initializer⟩ := slot
    rw [forall_mem_cons] at supplies
    obtain ⟨c, w', made⟩ := cell_ok supplies.1 w fields
    simp only [cells, made]
    cases provides : binding.bind (·.key? .provider) with
    | none =>
      obtain ⟨fields', provided', last, ran, names, keys⟩ :=
        ih supplies.2 w' (fields ++ [(field, c)]) provided
      refine ⟨fields', provided', last, ran, ?_, ?_⟩
      · simp [names]
      · simp [keys, provides]
    | some key =>
      obtain ⟨fields', provided', last, ran, names, keys⟩ :=
        ih supplies.2 (w'.onStore (·.retain c)) (fields ++ [(field, c)]) (provided ++ [(key, c)])
      refine ⟨fields', provided', last, ran, ?_, ?_⟩
      · simp [names]
      · simp [keys, provides]

end Site

/-! ## Views that fit their components -/

/-- A view has a cell for each field of its component and for each key that the component provides,
    and so have its children. -/
inductive View.Fits (catalog : Catalog) : View → Prop
  | intro {v : View} {c : Component} (found : catalog.find? v.name = some c)
      (fields : ∀ slot ∈ c.slots, (v.fields.lookup slot.1).isSome = true)
      (provided : ∀ key ∈ c.slotKeys, (v.provided.lookup key).isSome = true)
      (children : ∀ child ∈ v.keyedChildren, View.Fits catalog child.2) : View.Fits catalog v

namespace Catalog

variable {catalog : Catalog} {allowed : String → (String → Prop) → Prop} {c : Component}
  {bindings : List BoundArgument} {scope : ViewScope} {provided : Provided}

/-- A view of a component can be made where every field gets what it needs. -/
theorem instantiate_ok {name : String} {site : Site} (found : catalog.find? name = some c)
    (supplies : ∀ slot ∈ c.slots, site.Supplies slot) (w : World) :
    ∃ view w', catalog.instantiate name site w = (.ok view, w') ∧ view.Fits catalog ∧
      view.name = name := by
  obtain ⟨fields, provided, w', made, names, keys⟩ := Site.cells_ok supplies w [] []
  unfold Component.slots at made
  simp only [instantiate, found, made]
  refine ⟨_, _, rfl, .intro found ?_ ?_ ?_, rfl⟩
  · intro slot member
    rw [isSome_lookup_iff]
    exact names ▸ mem_map_of_mem member
  · intro key member
    rw [isSome_lookup_iff]
    exact keys ▸ member
  · exact fun _ member => absurd member not_mem_nil

/-! ## Closed sets -/

/-- A component can be met with keys in sight, and what it renders can be met in turn. -/
structure Sustains (catalog : Catalog) (allowed : String → (String → Prop) → Prop) (c : Component)
    (keys : String → Prop) : Prop where
  linear : Stmt.areLinear c.render.body = true
  balanced : (Balance.body c.render.body).faults = []
  consumers : ∀ slot ∈ c.slots, ∀ key, slot.2.1 = some (.shared key .consumer) → keys key
  children : ∀ m ∈ Stmt.openingsAll c.render.body, ∀ bindings, m.role = .component bindings →
    allowed m.component fun key => keys key ∨ key ∈ c.slotKeys
  sources : ∀ m ∈ Stmt.openingsAll c.render.body, ∀ bindings, m.role = .component bindings →
    ∀ child, catalog.find? m.component = some child → ∀ slot ∈ child.slots,
      slot.2.1 = some .twoWay → ∃ code source,
        (bindings.find? (·.field = slot.1)).map (·.value) = some (.wrapper code source) ∧
          source ∈ c.slots.map (·.1)

/-- A set of components with the keys in sight that is closed under rendering. -/
def Closed (catalog : Catalog) (allowed : String → (String → Prop) → Prop) : Prop :=
  ∀ name keys, allowed name keys →
    ∃ c, catalog.find? name = some c ∧ catalog.Sustains allowed c keys

/-- Views of a component can nest to a depth: there is a chain of components, each with a marker for
    the next. -/
inductive Nests (catalog : Catalog) : String → Nat → Prop
  | zero {name : String} : Nests catalog name 0
  | succ {name : String} {c : Component} {m : OpenMarker} {bindings : List BoundArgument}
      {depth : Nat} (found : catalog.find? name = some c)
      (member : m ∈ Stmt.openingsAll c.render.body) (role : m.role = .component bindings)
      (below : Nests catalog m.component depth) : Nests catalog name (depth + 1)

/-- Rendering views of a set of components keeps them fit and does not fail, unless their components
    nest to a depth. -/
def Renders (catalog : Catalog) (allowed : String → (String → Prop) → Prop) (depth : Nat)
    (render : Renderer) : Prop :=
  ∀ view provided keys w, view.Fits catalog → allowed view.name keys →
    (∀ key, keys key → (List.lookup key provided).isSome = true) →
    ∃ result view' w', render view provided w = (result, view', w') ∧
      (result = .ok () ∨ (result = .error .tooDeep ∧ catalog.Nests view.name depth)) ∧
      view'.Fits catalog ∧ view'.name = view.name

/-! ## Children -/

theorem fits_of_lookup {children : List (String × View)} {key : String} {child : View}
    (fit : ∀ child ∈ children, View.Fits catalog child.2)
    (found : children.lookup key = some child) : child.Fits catalog :=
  fit (key, child) (mem_of_lookup found)

/-- The child for a marker is there or can be made. -/
theorem child_safe {component : String} {deep : Prop} (key : String)
    (found : catalog.find? component = some c)
    (supplies : ∀ slot ∈ c.slots, Site.Supplies ⟨bindings, scope, provided⟩ slot) :
    Safe (View.Fits catalog) deep (catalog.child provided key component bindings scope)
      fun child => child.Fits catalog ∧ child.name = component := by
  intro e fit
  unfold child
  rw [ExecM.run_get_bind]
  cases kept : (e.former.lookup key).filter (·.name = component) with
  | some view =>
    -- a child that is kept has its cells already
    obtain ⟨former, named⟩ := Option.filter_eq_some_iff.mp kept
    refine ⟨_, _, rfl, ⟨fun entry member => ?_, fit.children⟩, .inr ⟨view, rfl, ?_, ?_⟩⟩
    · exact fit.former entry (mem_filter.mp member).1
    · exact fits_of_lookup fit.former former
    · simpa using named
  | none =>
    obtain ⟨view, w, made, fits, named⟩ := instantiate_ok found supplies e.world
    simp only [made]
    exact ⟨_, _, rfl, ⟨fit.former, fit.children⟩, .inr ⟨view, rfl, fits, named⟩⟩

theorem mem_insertChild {key : String} {child : View} {children : List (String × View)}
    {entry : String × View} (member : entry ∈ (View.insertChild key child children).1) :
    entry = (key, child) ∨ entry ∈ children := by
  induction children with
  | nil => exact .inl (mem_singleton.mp member)
  | cons first rest ih =>
    obtain ⟨k, c⟩ := first
    unfold View.insertChild at member
    split at member
    · exact mem_cons.mp member
    · split at member
      · exact (mem_cons.mp member).imp_right (mem_cons_of_mem _)
      · rcases mem_cons.mp member with same | later
        · exact .inr (same ▸ mem_cons_self)
        · exact (ih later).imp_right (mem_cons_of_mem _)

/-- A child that can be made is rendered and kept. -/
theorem renderChild_safe {render : Renderer} {depth : Nat}
    (renders : catalog.Renders allowed depth render) {component : String} {keys : String → Prop}
    (key : String) (found : catalog.find? component = some c)
    (supplies : ∀ slot ∈ c.slots, Site.Supplies ⟨bindings, scope, provided⟩ slot)
    (isAllowed : allowed component keys)
    (inSight : ∀ key, keys key → (provided.lookup key).isSome = true) :
    Safe (View.Fits catalog) (catalog.Nests component depth)
      (catalog.renderChild render provided key component bindings scope) fun _ => True := by
  refine (child_safe key found supplies).bind fun child fits => ?_
  intro e fit
  obtain ⟨result, child', w, rendered, outcome, fits', _⟩ :=
    renders child provided keys e.world fits.1 (fits.2 ▸ isAllowed) inSight
  rw [ExecM.run_get_bind]
  rcases outcome with rfl | ⟨rfl, nested⟩
  · simp only [rendered]
    refine ⟨_, _, rfl, ⟨fit.former, fun entry member => ?_⟩, .inr ⟨_, rfl, trivial⟩⟩
    rcases mem_insertChild member with rfl | old
    · exact fits'
    · exact fit.children entry old
  · simp only [rendered]
    exact ⟨_, _, rfl, ⟨fit.former, fit.children⟩, .inl ⟨rfl, fits.2 ▸ nested⟩⟩

/-! ## Views -/

/-- The place of a child gives its fields what they need. -/
theorem supplies_of_sustains {child : Component} {keys keys' : String → Prop} {m : OpenMarker}
    (sustains : catalog.Sustains allowed c keys) (below : catalog.Sustains allowed child keys')
    (member : m ∈ Stmt.openingsAll c.render.body) (role : m.role = .component bindings)
    (found : catalog.find? m.component = some child)
    (fields : ∀ slot ∈ c.slots, (scope.fields.lookup slot.1).isSome = true)
    (inSight : ∀ key, keys' key → (provided.lookup key).isSome = true) :
    ∀ slot ∈ child.slots, Site.Supplies ⟨bindings, scope, provided⟩ slot := by
  intro slot isSlot
  constructor
  · intro twoWay
    obtain ⟨code, source, bound, known⟩ :=
      sustains.sources m member bindings role child found slot isSlot twoWay
    obtain ⟨parentSlot, isParentSlot, rfl⟩ := mem_map.mp known
    simp only [Site.source?, Site.bound?, bound]
    exact fields parentSlot isParentSlot
  · intro key consumer
    exact inSight key (below.consumers slot isSlot key consumer)

/-- A view of a closed set is rendered without a fault if its children are. -/
theorem renderWith_renders (closed : catalog.Closed allowed) {render : Renderer} {depth : Nat}
    (renders : catalog.Renders allowed depth render) :
    catalog.Renders allowed (depth + 1) (catalog.renderWith render) := by
  intro view provided keys w fits isAllowed inSight
  obtain ⟨c, found, sustains⟩ := closed view.name keys isAllowed
  cases fits with
  | intro found' fields provides children =>
  cases found.symm.trans found'
  -- children see the keys of the view before those around it
  have inSight' : ∀ key, keys key ∨ key ∈ c.slotKeys →
      (List.lookup key (view.provided ++ provided)).isSome = true := by
    intro key sight
    rw [lookup_append, Option.isSome_or]
    rcases sight with outer | own
    · simp [inSight key outer]
    · simp [provides key own]
  have safe : Safe (View.Fits catalog) (catalog.Nests view.name (depth + 1))
      ((catalog.runner render view provided c).run c.render.body) fun _ => True := by
    refine BodyRunner.run_safe sustains.linear (fun m member bindings role key locals => ?_)
      sustains.balanced
    have isAllowed' := sustains.children m member bindings role
    obtain ⟨child, known, below⟩ := closed _ _ isAllowed'
    have supplies : ∀ slot ∈ child.slots,
        Site.Supplies ⟨bindings, ⟨view.fields, locals⟩, view.provided ++ provided⟩ slot :=
      supplies_of_sustains sustains below member role known fields inSight'
    exact (renderChild_safe renders key known supplies isAllowed' inSight').imp
      (Nests.succ found member role) fun _ => id
  obtain ⟨result, e, ran, fit, outcome⟩ := safe (view.start w)
    ⟨children, fun _ member => absurd member not_mem_nil⟩
  rcases outcome with ⟨rfl, nested⟩ | ⟨nodes, rfl, _⟩
  -- a view that is cut off has lost its children, and fits all the same
  · rw [renderWith_of_error found ran]
    exact ⟨_, _, _, rfl, .inr ⟨rfl, nested⟩,
      .intro found fields provides fun _ member => absurd member not_mem_nil, rfl⟩
  · rw [renderWith_of_ok found ran]
    exact ⟨_, _, _, rfl, .inl rfl, .intro found fields provides fit.children, rfl⟩

/-- Rendering in a closed set does not fail, unless views nest too deep. -/
theorem render_renders (closed : catalog.Closed allowed) (depth : Nat) :
    catalog.Renders allowed depth (catalog.render depth) := by
  induction depth with
  | zero =>
    intro view provided keys w fits _ _
    exact ⟨_, view, w, rfl, .inr ⟨rfl, .zero⟩, fits, rfl⟩
  | succ depth ih => exact renderWith_renders closed ih

end Catalog

end ReactiveView
