import ReactiveView.Proofs.CleanModules
import ReactiveView.Proofs.FieldPlaces

/-!
# Trees and their sources

A tree that is mounted from a module without errors is traced back to the source: each view to the
component whose fields it has cells for (`View.Embodies`), and each view but the root to the element
of its parent's source that it was made for (`View.Traced`).
-/

namespace ReactiveView

open List
open Reactive (CellId SubscriptionId Store)

/-! ## Fields of source components -/

namespace Component

variable {c : Component} {row : FieldRow}

/-- A field without a decorator owns its value. -/
theorem binding_of_not_reactive (member : row ∈ c.fieldTable.entries)
    (plain : row.reactive = false) : row.binding = .ownedSimple := by
  obtain ⟨m, _, entry⟩ := mem_filterMap.mp member
  cases m with
  | field f =>
    cases entry
    have undecorated : f.decorator = .none := by simpa using plain
    simp [Field.binding, undecorated]
  | wrapper w =>
    cases entry
    cases plain
  | accessors _ | method _ => cases entry

end Component

/-- What a field is lowered to, but for its initializer. -/
def FieldRow.slot (row : FieldRow) : String × Option BindingKind × Option String :=
  (row.name, if row.reactive then some row.binding else none, none)

theorem Component.binding_slot {c : Component} {row : FieldRow}
    (member : row ∈ c.fieldTable.entries) (shared : row.binding ≠ .ownedSimple) :
    row.slot.2.1 = some row.binding := by
  cases reactive : row.reactive with
  | false => exact absurd (binding_of_not_reactive member reactive) shared
  | true => simp [FieldRow.slot, reactive]

/-- Only two-way and consuming fields get their values from other views. -/
theorem FieldRow.binding_of_tied (row : FieldRow) (tied : isTied row.slot.2.1 = true) :
    row.slot.2.1 = some row.binding ∧
      (row.binding = .twoWay ∨ ∃ key, row.binding = .shared key .consumer) := by
  cases reactive : row.reactive with
  | false => simp [FieldRow.slot, reactive, isTied] at tied
  | true =>
    have slot : row.slot.2.1 = some row.binding := by simp [FieldRow.slot, reactive]
    rw [slot] at tied
    refine ⟨slot, ?_⟩
    unfold isTied at tied
    split at tied
    next twoWay => exact .inl (Option.some.inj twoWay)
    next key consumes => exact .inr ⟨key, Option.some.inj consumes⟩
    · cases tied

/-- A field in its lowered form differs from it in the initializer only. -/
theorem Member.slot_of_lower {m : Member} (lowered : m.lower = [m]) :
    m.slot?.map (fun slot => (slot.1, slot.2.1)) =
      m.entry?.map (fun row => (row.slot.1, row.slot.2.1)) := by
  cases m with
  | field f =>
    have plain : f.decorator = .none := by
      by_contra decorated
      simp [Member.lower, decorated] at lowered
    simp [Member.slot?, Member.entry?, FieldRow.slot, plain]
  | wrapper w => rfl
  | accessors _ | method _ => rfl

namespace ModuleScope

variable {scope : ModuleScope} {c : Component} {out : LoweredComponent}

theorem slots_of_lowerComponent (lowered : scope.lowerComponent c = .ok out) :
    out.decl.slots.map (fun slot => (slot.1, slot.2.1)) =
      c.fieldTable.entries.map fun row => (row.slot.1, row.slot.2.1) := by
  rw [← fieldTable_of_lowerComponent lowered, Component.slots, Component.fieldTable,
    map_filterMap, map_filterMap]
  exact filterMap_congr fun m member =>
    Member.slot_of_lower (lower_of_lowerComponent lowered m member)

end ModuleScope

/-! ## Provided keys -/

/-- A field that passes the check provides a key that no field before it provides. -/
theorem Field.not_mem_of_provides {f : Field} {component key : String} {provided : List String}
    (sound : f.fault? component provided = none)
    (provides : f.binding.key? .provider = some key) : key ∉ provided := by
  cases decorator : f.decorator with
  | provide name =>
    simp only [Field.binding, decorator, BindingKind.key?, if_true, Option.some.injEq] at provides
    cases initial : f.initializer with
    | none => simp [Field.fault?, decorator, initial] at sound
    | some code =>
      simp only [Field.fault?, decorator, initial] at sound
      split at sound
      · cases sound
      next free => simpa [provides] using free
  | none | state | prop | link | consume _ =>
    simp [Field.binding, decorator, BindingKind.key?] at provides

theorem nodup_of_checkFields {file component : String} {provided : List String}
    {fields : List Field} (checked : checkFields file component provided fields = .ok ()) :
    (fields.filterMap (·.binding.key? .provider)).Nodup ∧
      ∀ key ∈ fields.filterMap (·.binding.key? .provider), key ∉ provided := by
  induction fields generalizing provided with
  | nil => exact ⟨.nil, nofun⟩
  | cons f fields ih =>
    rw [checkFields] at checked
    split at checked
    · cases checked
    next sound =>
      obtain ⟨distinct, fresh⟩ := ih checked
      cases provides : f.binding.key? .provider with
      | none =>
        simp only [filterMap_cons, provides]
        simp only [provides, Option.toList_none, append_nil] at fresh
        exact ⟨distinct, fresh⟩
      | some key =>
        simp only [filterMap_cons, provides, nodup_cons, forall_mem_cons]
        simp only [provides, Option.toList_some, mem_append, mem_singleton, not_or]
          at fresh
        refine ⟨⟨fun again => (fresh key again).2 rfl, distinct⟩, ?_, fun other member => ?_⟩
        · exact Field.not_mem_of_provides sound provides
        · exact (fresh other member).1

namespace ModuleScope

variable {scope : ModuleScope} {c : Component} {out : LoweredComponent}

/-- The keys that a source component provides are different. -/
theorem nodup_providedKeys (source : c.isSource = true)
    (lowered : scope.lowerComponent c = .ok out) : c.fieldTable.providedKeys.Nodup := by
  have same : c.fieldTable.providedKeys = c.fields.filterMap (·.binding.key? .provider) := by
    rw [FieldTable.providedKeys, Component.fieldTable, Component.fields, filterMap_filterMap,
      filterMap_filterMap]
    refine filterMap_congr fun m member => ?_
    cases m with
    | field f => rfl
    | wrapper w =>
      rw [Component.isSource, Bool.and_eq_true, all_eq_true] at source
      cases source.2 _ member
    | accessors _ | method _ => rfl
  rw [same]
  exact (nodup_of_checkFields (lowerComponent_ok_iff.mp lowered).1).1

end ModuleScope

/-! ## Views of source components -/

theorem Site.Fills.congr {site : Site} {s : Store}
    {slot slot' : String × Option BindingKind × Option String} {field : String × CellId}
    (fills : site.Fills s slot field) (name : slot.1 = slot'.1) (binding : slot.2.1 = slot'.2.1) :
    site.Fills s slot' field := by
  obtain ⟨_, _, _⟩ := slot
  obtain ⟨_, _, _⟩ := slot'
  cases name
  cases binding
  exact ⟨fills.name, fills.known, fills.kind, fills.tied, fills.first⟩

/-- A view of a source component has a cell for each of its fields, as its place gives it. -/
structure View.Embodies (c : Component) (w : World) (site : Site) (v : View) : Prop where
  fills : List.Forall₂ (fun row field => site.Fills w.store row.slot field) c.fieldTable.entries
    v.fields
  provided : v.provided = (c.fieldTable.entries.zip v.fields).filterMap fun (row, field) =>
    (row.binding.key? .provider).map (·, field.2)
  distinct : (c.fieldTable.entries.map (·.name)).Nodup
  distinctKeys : c.fieldTable.providedKeys.Nodup

theorem View.Seated.embodies {scope : ModuleScope} {c : Component} {out : LoweredComponent}
    (source : c.isSource = true) (distinct : (c.fieldTable.entries.map (·.name)).Nodup)
    (lowered : scope.lowerComponent c = .ok out) {w : World} {site : Site} {v : View}
    (seated : v.Seated w site out.decl.slots) : v.Embodies c w site := by
  have slots := ModuleScope.slots_of_lowerComponent lowered
  refine ⟨?_, ?_, distinct, ModuleScope.nodup_providedKeys source lowered⟩
  · have fills : List.Forall₂ (fun slot field => site.Fills w.store (slot.1, slot.2, none) field)
        (out.decl.slots.map fun slot => (slot.1, slot.2.1)) v.fields :=
      forall₂_map_left_iff.mpr (seated.fills.imp fun _ _ fills => fills.congr rfl rfl)
    rw [slots, forall₂_map_left_iff] at fills
    exact fills
  · have provisions (slots : List (String × Option BindingKind × Option String)) :
        Site.provisions slots v.fields =
          ((slots.map fun slot => (slot.1, slot.2.1)).zip v.fields).filterMap fun (slot, field) =>
            (slot.2.bind (·.key? .provider)).map (·, field.2) := by
      rw [zip_map_left, filterMap_map]
      rfl
    rw [seated.provisions, provisions, slots, zip_map_left, filterMap_map]
    refine filterMap_congr fun entry member => ?_
    -- fields without a decorator provide nothing
    have declared := (of_mem_zip member).1
    cases reactive : entry.1.reactive with
    | false =>
      have binding := Component.binding_of_not_reactive declared reactive
      simp [FieldRow.slot, reactive, binding, BindingKind.key?]
    | true => simp [FieldRow.slot, reactive]

namespace View.Embodies

variable {c : Component} {w : World} {site : Site} {v : View} {row : FieldRow} {key : String}

variable (embodies : v.Embodies c w site)
include embodies

theorem names : v.fields.map (·.1) = c.fieldTable.entries.map (·.name) := by
  have same : List.Forall₂ (· = ·) (c.fieldTable.entries.map (·.name)) (v.fields.map (·.1)) :=
    forall₂_map_left_iff.mpr (forall₂_map_right_iff.mpr
      (embodies.fills.imp fun _ _ fills => fills.name.symm))
  rw [forall₂_eq_eq_eq] at same
  exact same.symm

theorem map_fst_zip : (c.fieldTable.entries.zip v.fields).map (·.1) = c.fieldTable.entries :=
  List.map_fst_zip (Nat.le_of_eq embodies.fills.length_eq)

theorem keys : v.provided.map (·.1) = c.fieldTable.providedKeys := by
  rw [FieldTable.providedKeys, ← embodies.map_fst_zip, filterMap_map, embodies.provided,
    map_filterMap]
  refine filterMap_congr fun entry _ => ?_
  simp [Function.comp_def]

theorem cell?_of_mem_zip {field : String × CellId}
    (paired : (row, field) ∈ c.fieldTable.entries.zip v.fields) :
    v.cell? row.name = some field.2 ∧ site.Fills w.store row.slot field := by
  have fills := forall₂_zip embodies.fills paired
  obtain ⟨name, cell⟩ := field
  cases fills.name
  exact ⟨lookup_of_mem (embodies.names ▸ embodies.distinct) (of_mem_zip paired).2, fills⟩

/-- Every field has its cell, which is the one provided if the field provides a key. -/
theorem cell? (member : row ∈ c.fieldTable.entries) :
    ∃ cell, v.cell? row.name = some cell ∧ site.Fills w.store row.slot (row.name, cell) ∧
      ∀ key, row.binding.key? .provider = some key → v.provided.lookup key = some cell := by
  rw [← embodies.map_fst_zip] at member
  obtain ⟨⟨row, name, cell⟩, paired, rfl⟩ := mem_map.mp member
  obtain ⟨found, fills⟩ := embodies.cell?_of_mem_zip paired
  cases fills.name
  refine ⟨cell, found, fills, fun key provides => ?_⟩
  refine lookup_of_mem (embodies.keys ▸ embodies.distinctKeys) ?_
  rw [embodies.provided, mem_filterMap]
  exact ⟨_, paired, by simp [provides]⟩

/-- Every cell is that of a field. -/
theorem row_of_cell? {field : String} {cell : CellId} (found : v.cell? field = some cell) :
    ∃ row ∈ c.fieldTable.entries, row.name = field ∧ site.Fills w.store row.slot (field, cell) := by
  obtain ⟨row, member, fills⟩ := exists_of_mem_forall₂ embodies.fills (mem_fields_of_cell? found)
  exact ⟨row, member, fills.name.symm, fills⟩

theorem lookup_provided_eq_none (silent : key ∉ c.fieldTable.providedKeys) :
    v.provided.lookup key = none := by
  rw [← Option.not_isSome_iff_eq_none, isSome_lookup_iff, embodies.keys]
  exact silent

end View.Embodies

/-! ## Trees of a module -/

/-- A child was made for an element in the source of its parent: lowering makes of the element a
    marker that is met under the key of the child. -/
structure Module.Calls (m : Module) (options : Options) (parser : Script.Parser) (c : Component)
    (entry : String × View) (head : Element) : Prop where
  stands : head ∈ Stmt.elementsAll c.render.body
  named : head.name = entry.2.name
  met : ∃ decl marker, (Catalog.ofOutput (m.lower options parser)).find? c.name = some decl ∧
    ((ModuleScope.of m options parser).bodyOf c).openElement head = .ok marker ∧
    Stmt.Meets decl.render.body entry.1 marker

/-- The place of a child gives it what its call in the parent says, and the keys of the parent before
    those around it. -/
structure Site.Serves (site : Site) (outer : Provided) (v : View) (child : Component)
    (head : Element) : Prop where
  provided : site.provided = v.provided ++ outer
  source : ∀ row ∈ child.fieldTable.entries, row.binding = .twoWay → ∃ a source,
    CallSite.argument? child.fieldTable.positional head.args row.name = some a ∧
    reference? a.value = some source ∧ site.source? row.name = v.cell? source

/-- The views of a tree are views of components of a module, at the places that calls in the source
    give them. -/
structure View.Traced (m : Module) (options : Options) (parser : Script.Parser) (w : World)
    (site : List Nat → Site) (call : List Nat → Element) (root : View) : Prop where
  outermost : site [] = {}
  views : ∀ path v, root.below? path = some v →
    (∃ c, Component.find? m.components v.name = some c ∧ v.Embodies c w (site path)) ∧
      ∃ slots, v.Seated w (site path) slots
  children : ∀ path v i entry parent child, root.below? path = some v →
    v.keyedChildren[i]? = some entry → Component.find? m.components v.name = some parent →
    Component.find? m.components entry.2.name = some child →
      m.Calls options parser parent entry (call (path ++ [i])) ∧
      (site (path ++ [i])).Serves (site path).provided v child (call (path ++ [i]))

theorem View.Traced.grows {m : Module} {options : Options} {parser : Script.Parser} {w w' : World}
    {site : List Nat → Site} {call : List Nat → Element} {root : View}
    (traced : root.Traced m options parser w site call)
    (grows : w.Grows w') : root.Traced m options parser w' site call where
  outermost := traced.outermost
  views path v reached := by
    obtain ⟨⟨c, known, embodies⟩, slots, seated⟩ := traced.views path v reached
    refine ⟨⟨c, known, ?_, embodies.provided, embodies.distinct, embodies.distinctKeys⟩, slots,
      seated.grows grows⟩
    exact embodies.fills.imp fun _ _ fills => fills.grows grows.store
  children := traced.children

namespace ModuleScope

variable {m : Module} {options : Options} {parser : Script.Parser} {outs : List LoweredComponent}

theorem LowersEach.exists_of_find? {scope : ModuleScope} {components : List Component}
    (each : scope.LowersEach components outs) {name : String} {decl : Component}
    (found : (Catalog.mk (outs.map (·.decl))).find? name = some decl) :
    ∃ c ∈ components, c.name = name ∧ ∃ out, scope.lowerComponent c = .ok out ∧
      out.decl = decl := by
  have named : decl.name = name := by simpa using List.find?_some found
  obtain ⟨out, isOut, rfl⟩ := mem_map.mp (Catalog.mem_of_find? found)
  obtain ⟨c, declared, lowered⟩ := exists_of_mem_forall₂ each isOut
  exact ⟨c, declared, (name_of_lowerComponent lowered).symm.trans named, out, lowered, rfl⟩

/-- A child that was made for a marker was made for an element of the source. -/
theorem LowersEach.call_of_calls
    (each : (ModuleScope.of m options parser).LowersEach m.components outs)
    (distinct : (m.components.map (·.name)).Nodup) {c : Component} {out : LoweredComponent}
    (declared : c ∈ m.components) (source : c.isSource = true)
    (lowered : (ModuleScope.of m options parser).lowerComponent c = .ok out) {entry : String × View}
    {call : Call} (calls : out.decl.Calls entry call) :
    ∃ head, m.Calls options parser c entry head ∧ ∀ child ∈ m.components, child.name = entry.2.name →
      ∀ v site, (View.childSite v site call).Serves site.provided v child head := by
  obtain ⟨child, isChild, named, _, head, stands, opened, bound, binds, bindings⟩ :=
    child_of_marker lowered source calls.met.mem_openings calls.role
  obtain ⟨same, _⟩ := BodyContext.openElement_component opened calls.role
  refine ⟨head, ⟨stands, (same.symm.trans calls.named.symm), out.decl, call.marker, ?_, opened,
    calls.met⟩, ?_⟩
  · rw [Module.lower_eq_of_lowersEach distinct each, Catalog.ofOutput,
      ModuleOutcome.lowered_outcomes]
    exact each.find? distinct declared lowered
  · intro child' isChild' named' v site
    have unique : child' = child := inj_on_of_nodup_map distinct isChild' isChild
      (named'.trans (calls.named.trans named.symm))
    subst unique
    refine ⟨rfl, fun row isRow twoWay => ?_⟩
    obtain ⟨a, b, argument, first, ties⟩ := CallSite.ties_of_bind binds isRow twoWay
    obtain ⟨code, target, value, reference, _⟩ :=
      ties.find?_resolveBound ((ModuleScope.of m options parser).bodyOf c) first
    refine ⟨a, target.name, argument, reference, ?_⟩
    simp only [Site.source?, Site.bound?, View.childSite, bindings, value]
    rfl

theorem LowersEach.traced (each : (ModuleScope.of m options parser).LowersEach m.components outs)
    (distinct : (m.components.map (·.name)).Nodup)
    (source : ∀ c ∈ m.components, c.isSource = true)
    (fields : ∀ c ∈ m.components, (c.fieldTable.entries.map (·.name)).Nodup) {w : World}
    {root : View} (wired : root.Wired ⟨outs.map (·.decl)⟩ w {}) :
    ∃ site call, root.Traced m options parser w site call := by
  obtain ⟨site, call, outermost, wiredBy⟩ := wired.wiredBy
  -- a path has one view, one entry and one component, so it has one call
  have heads : ∀ path, ∃ head, ∀ before i v entry parent, path = before ++ [i] →
      root.below? before = some v → v.keyedChildren[i]? = some entry →
      parent ∈ m.components → parent.name = v.name →
        m.Calls options parser parent entry head ∧ ∀ child ∈ m.components, child.name = entry.2.name →
          (site path).Serves (site before).provided v child head := by
    intro path
    by_cases exist : ∃ before i v entry parent, path = before ++ [i] ∧
        root.below? before = some v ∧ v.keyedChildren[i]? = some entry ∧
        parent ∈ m.components ∧ parent.name = v.name
    · obtain ⟨before, i, v, entry, parent, rfl, reached, isEntry, declared, named⟩ := exist
      obtain ⟨decl, found, _, below⟩ := wiredBy.views before v reached
      obtain ⟨calls, place⟩ := below i entry isEntry
      obtain ⟨out, _, lowered⟩ := each.exists_of_mem declared
      rw [← named, each.find? distinct declared lowered] at found
      cases found
      obtain ⟨head, called, serves⟩ :=
        each.call_of_calls distinct declared (source parent declared) lowered calls
      refine ⟨head, ?_⟩
      intro before' i' v' entry' parent' same reached' isEntry' declared' named'
      obtain ⟨rfl, last⟩ := append_inj' same rfl
      cases last
      cases reached.symm.trans reached'
      cases isEntry.symm.trans isEntry'
      cases inj_on_of_nodup_map distinct declared declared' (named.trans named'.symm)
      exact ⟨called, fun child isChild named => place ▸ serves child isChild named v (site before)⟩
    · refine ⟨default, fun before i v entry parent same reached isEntry declared named => ?_⟩
      exact absurd ⟨before, i, v, entry, parent, same, reached, isEntry, declared, named⟩ exist
  choose call' called using heads
  refine ⟨site, call', outermost, fun path v reached => ?_, ?_⟩
  · obtain ⟨decl, found, seated, _⟩ := wiredBy.views path v reached
    obtain ⟨c, declared, named, out, lowered, rfl⟩ := each.exists_of_find? found
    have known := (Component.find?_eq_some_iff distinct).mpr ⟨declared, named⟩
    exact ⟨⟨c, known, seated.embodies (source c declared) (fields c declared) lowered⟩, _, seated⟩
  · intro path v i entry parent child reached isEntry known known'
    obtain ⟨declared, named⟩ := (Component.find?_eq_some_iff distinct).mp known
    obtain ⟨isChild, named'⟩ := (Component.find?_eq_some_iff distinct).mp known'
    obtain ⟨calls, serves⟩ :=
      called (path ++ [i]) path i v entry parent rfl reached isEntry declared named
    exact ⟨calls, serves child isChild named'⟩

end ModuleScope

end ReactiveView
