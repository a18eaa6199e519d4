import Mathlib.Data.List.Induction
import Mathlib.Logic.Relation
import ReactiveView.Proofs.TracedTrees

/-!
# Links between fields

In a tree that is mounted from a module without errors, a two-way field is linked to the field of
the parent that its argument refers to, and a consuming field to the field of the nearest view above
it that provides the key (`Links`).  Two fields have cells in one group if and only if links connect
them: every field leads by links to one that is not linked any further, whose cell began the group.
-/

namespace ReactiveView

open List hiding beq_eq_decide
open Reactive (CellId SubscriptionId Store)

/-! ## Links -/

/-- The view at a path is a view of a component. -/
def View.IsA (components : List Component) (root : View) (path : List Nat) (c : Component) : Prop :=
  ∃ v, root.below? path = some v ∧ Component.find? components v.name = some c

/-- The field that provides a key to the view at a path: that of its parent, or the one that provides
    the key to a parent that does not. -/
inductive NearestProvider (components : List Component) (root : View) (key : String) :
    List Nat → FieldPlace → Prop
  | parent {path : List Nat} {i : Nat} {c : Component} {row : FieldRow}
      (view : root.IsA components path c) (declared : row ∈ c.fieldTable.entries)
      (provides : row.binding = .shared key .provider) :
      NearestProvider components root key (path ++ [i]) ⟨path, row.name⟩
  | above {path : List Nat} {i : Nat} {c : Component} {place : FieldPlace}
      (view : root.IsA components path c) (silent : key ∉ c.fieldTable.providedKeys)
      (outer : NearestProvider components root key path place) :
      NearestProvider components root key (path ++ [i]) place

/-- A field is linked to the field of another view that gives it its value, where `call` gives the
    element that each view was made for. -/
inductive Links (components : List Component) (root : View) (call : List Nat → Element) :
    FieldPlace → FieldPlace → Prop
  | twoWay {path : List Nat} {i : Nat} {c : Component} {row : FieldRow} {a : Argument}
      {source : String} (view : root.IsA components (path ++ [i]) c)
      (declared : row ∈ c.fieldTable.entries) (twoWay : row.binding = .twoWay)
      (argument : CallSite.argument? c.fieldTable.positional (call (path ++ [i])).args row.name =
        some a)
      (reference : reference? a.value = some source) :
      Links components root call ⟨path ++ [i], row.name⟩ ⟨path, source⟩
  | consumer {path : List Nat} {c : Component} {row : FieldRow} {key : String} {place : FieldPlace}
      (view : root.IsA components path c) (declared : row ∈ c.fieldTable.entries)
      (consumes : row.binding = .shared key .consumer)
      (nearest : NearestProvider components root key path place) :
      Links components root call ⟨path, row.name⟩ place

/-- Fields are connected by links. -/
abbrev Connected (components : List Component) (root : View) (call : List Nat → Element) :
    FieldPlace → FieldPlace → Prop := Relation.EqvGen (Links components root call)

theorem BindingKind.key?_eq_some_iff {binding : BindingKind} {role : SharedRole} {key : String} :
    binding.key? role = some key ↔ binding = .shared key role := by
  cases binding with
  | shared key' role' => by_cases same : role' = role <;> simp [key?, same]
  | ownedSimple | oneWay | twoWay => simp [key?]

namespace View.Traced

variable {m : Module} {options : Options} {parser : Script.Parser} {w : World}
  {site : List Nat → Site} {call : List Nat → Element} {root v : View} {path : List Nat}
  {c : Component} {row : FieldRow} {key : String} {place place' : FieldPlace}

theorem length_of_nearest (nearest : NearestProvider m.components root key path place) :
    place.path.length < path.length := by
  induction nearest with
  | parent => simp
  | above _ _ _ ih =>
    rw [length_append]
    exact Nat.lt_add_right _ ih

variable (traced : root.Traced m options parser w site call)
include traced

theorem view (isA : root.IsA m.components path c) :
    ∃ v, root.below? path = some v ∧ v.Embodies c w (site path) := by
  obtain ⟨v, reached, known⟩ := isA
  obtain ⟨⟨c', known', embodies⟩, _⟩ := traced.views path v reached
  cases known.symm.trans known'
  exact ⟨v, reached, embodies⟩

theorem isA (reached : root.below? path = some v) :
    ∃ c, root.IsA m.components path c ∧ v.Embodies c w (site path) := by
  obtain ⟨⟨c, known, embodies⟩, _⟩ := traced.views path v reached
  exact ⟨c, ⟨v, reached, known⟩, embodies⟩

theorem serves (reached : root.below? path = some v) {i : Nat} {child : View} {c' : Component}
    (found : v.children[i]? = some child)
    (known : Component.find? m.components child.name = some c') :
    (site (path ++ [i])).Serves (site path).provided v c' (call (path ++ [i])) := by
  rw [View.children, List.getElem?_map] at found
  obtain ⟨entry, isEntry, rfl⟩ := Option.map_eq_some_iff.mp found
  obtain ⟨⟨c, known', _⟩, _⟩ := traced.views path v reached
  exact (traced.children path v i entry c c' reached isEntry known' known).2

/-- The keys in sight of a child are those of its parent, and then those in sight of the parent. -/
theorem provided_concat (reached : root.below? path = some v) {i : Nat}
    (inside : (root.below? (path ++ [i])).isSome = true) :
    (site (path ++ [i])).provided = v.provided ++ (site path).provided := by
  obtain ⟨child, found⟩ := Option.isSome_iff_exists.mp inside
  obtain ⟨⟨c', known, _⟩, _⟩ := traced.views (path ++ [i]) child found
  obtain ⟨parent, reached', isChild⟩ := below?_concat.mp found
  cases reached.symm.trans reached'
  exact (traced.serves reached isChild known).provided

/-- What is in sight of a view under a key is the cell of the nearest field that provides it. -/
theorem lookup_provided (nearest : NearestProvider m.components root key path place)
    (inside : (root.below? path).isSome = true) :
    (site path).provided.lookup key = root.cellAt? place := by
  induction nearest with
  | @parent path i c row isA declared provides =>
    obtain ⟨v, reached, embodies⟩ := traced.view isA
    obtain ⟨cell, found, _, provided⟩ := embodies.cell? declared
    rw [traced.provided_concat reached inside, lookup_append, cellAt?, reached,
      Option.bind_some, found, provided key (BindingKind.key?_eq_some_iff.mpr provides),
      Option.some_or]
  | above isA silent _ ih =>
    obtain ⟨v, reached, embodies⟩ := traced.view isA
    rw [traced.provided_concat reached inside, lookup_append,
      embodies.lookup_provided_eq_none silent, Option.none_or, ih (by simp [reached])]

theorem exists_nearest (inside : (root.below? path).isSome = true)
    (found : ((site path).provided.lookup key).isSome = true) :
    ∃ place, NearestProvider m.components root key path place := by
  induction path using List.reverseRecOn with
  | nil =>
    rw [traced.outermost] at found
    cases found
  | append_singleton path i ih =>
    obtain ⟨child, reached'⟩ := Option.isSome_iff_exists.mp inside
    obtain ⟨v, reached, _⟩ := below?_concat.mp reached'
    obtain ⟨c, isA, embodies⟩ := traced.isA reached
    by_cases provides : key ∈ c.fieldTable.providedKeys
    · obtain ⟨row, declared, isKey⟩ := mem_filterMap.mp provides
      exact ⟨_, .parent isA declared (BindingKind.key?_eq_some_iff.mp isKey)⟩
    · rw [traced.provided_concat reached inside, lookup_append,
        embodies.lookup_provided_eq_none provides, Option.none_or] at found
      obtain ⟨place, nearest⟩ := ih (by simp [reached]) found
      exact ⟨place, .above isA provides nearest⟩

/-! ## Cells of fields -/

theorem cellAt?_of_row (isA : root.IsA m.components path c)
    (declared : row ∈ c.fieldTable.entries) :
    ∃ cell, root.cellAt? ⟨path, row.name⟩ = some cell ∧
      (site path).Fills w.store row.slot (row.name, cell) := by
  obtain ⟨v, reached, embodies⟩ := traced.view isA
  obtain ⟨cell, found, fills, _⟩ := embodies.cell? declared
  exact ⟨cell, by rw [cellAt?, reached, Option.bind_some, found], fills⟩

theorem row_of_cellAt? {cell : CellId} (found : root.cellAt? place = some cell) :
    ∃ c row, root.IsA m.components place.path c ∧ row ∈ c.fieldTable.entries ∧
      row.name = place.field ∧ (site place.path).Fills w.store row.slot (place.field, cell) := by
  obtain ⟨v, reached, found⟩ := Option.bind_eq_some_iff.mp found
  obtain ⟨c, isA, embodies⟩ := traced.isA reached
  obtain ⟨row, declared, named, fills⟩ := embodies.row_of_cell? found
  exact ⟨c, row, isA, declared, named, fills⟩

theorem known {cell : CellId} (found : root.cellAt? place = some cell) :
    cell < w.store.cells.length := by
  obtain ⟨_, _, _, _, _, fills⟩ := traced.row_of_cellAt? found
  exact fills.known

theorem cellAt?_inj (distinct : root.fieldCells.Nodup) {cell : CellId}
    (found : root.cellAt? place = some cell) (found' : root.cellAt? place' = some cell) :
    place = place' := by
  obtain ⟨path, field⟩ := place
  obtain ⟨path', field'⟩ := place'
  obtain ⟨v, reached, found⟩ := Option.bind_eq_some_iff.mp found
  obtain ⟨v', reached', found'⟩ := Option.bind_eq_some_iff.mp found'
  have member : (field, cell) ∈ v.fields := mem_fields_of_cell? found
  have member' : (field', cell) ∈ v'.fields := mem_fields_of_cell? found'
  obtain rfl : path = path' := path_unique distinct reached reached'
    (mem_map.mpr ⟨_, member, rfl⟩) (mem_map.mpr ⟨_, member', rfl⟩)
  cases reached.symm.trans reached'
  obtain ⟨_, slots, seated⟩ := traced.views path v reached
  have same := inj_on_of_nodup_map (seated.ascending.imp Nat.ne_of_lt) member member' rfl
  obtain rfl : field = field' := (Prod.mk.inj same).1
  rfl

/-! ## Links join groups -/

/-- A linked field and the field that it is linked to have cells in one group. -/
theorem sameGroup_of_links (links : Links m.components root call place place') :
    ∃ cell cell', root.cellAt? place = some cell ∧ root.cellAt? place' = some cell' ∧
      w.store.groupOf cell = w.store.groupOf cell' := by
  cases links with
  | @twoWay path i c row a source isA declared twoWay argument reference =>
    obtain ⟨cell, found, fills⟩ := traced.cellAt?_of_row isA declared
    have slot := Component.binding_slot declared (by simp [twoWay])
    rw [twoWay] at slot
    obtain ⟨cell', tie, _, same⟩ := fills.tied (by rw [slot]; rfl)
    refine ⟨cell, cell', found, ?_, same⟩
    obtain ⟨child, reached, known⟩ := isA
    obtain ⟨v, reached', isChild⟩ := below?_concat.mp reached
    obtain ⟨a', source', argument', reference', given⟩ :=
      (traced.serves reached' isChild known).source row declared twoWay
    cases argument.symm.trans argument'
    cases reference.symm.trans reference'
    rw [slot] at tie
    rw [cellAt?, reached', Option.bind_some, ← given]
    exact tie
  | @consumer path c row key place isA declared consumes nearest =>
    obtain ⟨cell, found, fills⟩ := traced.cellAt?_of_row isA declared
    have slot := Component.binding_slot declared (by simp [consumes])
    rw [consumes] at slot
    obtain ⟨cell', tie, _, same⟩ := fills.tied (by rw [slot]; rfl)
    refine ⟨cell, cell', found, ?_, same⟩
    obtain ⟨child, reached, _⟩ := isA
    rw [slot] at tie
    rw [← traced.lookup_provided nearest (by simp [reached])]
    exact tie

theorem sameGroup_of_connected (connected : Connected m.components root call place place') :
    (root.cellAt? place).map w.store.groupOf = (root.cellAt? place').map w.store.groupOf := by
  induction connected with
  | rel place place' links =>
    obtain ⟨cell, cell', found, found', same⟩ := traced.sameGroup_of_links links
    rw [found, found', Option.map_some, Option.map_some, same]
  | refl => rfl
  | symm _ _ _ ih => exact ih.symm
  | trans _ _ _ _ _ first second => exact first.trans second

theorem groupOf_eq (connected : Connected m.components root call place place') {cell cell' : CellId}
    (found : root.cellAt? place = some cell) (found' : root.cellAt? place' = some cell') :
    w.store.groupOf cell = w.store.groupOf cell' := by
  have same := traced.sameGroup_of_connected connected
  rw [found, found'] at same
  exact Option.some.inj same

/-! ## Groups are joined by links -/

/-- A field that gets its value from another view is linked to a field further up. -/
theorem exists_links (isA : root.IsA m.components path c) (declared : row ∈ c.fieldTable.entries)
    (tied : isTied row.slot.2.1 = true) :
    ∃ place, Links m.components root call ⟨path, row.name⟩ place ∧
      place.path.length < path.length := by
  obtain ⟨cell, found, fills⟩ := traced.cellAt?_of_row isA declared
  obtain ⟨source, tie, _⟩ := fills.tied tied
  obtain ⟨child, reached, known⟩ := isA
  obtain ⟨slot, twoWay | ⟨key, consumes⟩⟩ := row.binding_of_tied tied
  · rcases eq_nil_or_concat' path with rfl | ⟨before, i, rfl⟩
    · -- nothing is around the root
      rw [slot, twoWay, traced.outermost] at tie
      cases tie
    · obtain ⟨v, reached', isChild⟩ := below?_concat.mp reached
      obtain ⟨a, field, argument, reference, _⟩ :=
        (traced.serves reached' isChild known).source row declared twoWay
      exact ⟨_, .twoWay ⟨child, reached, known⟩ declared twoWay argument reference, by simp⟩
  · have inSight : ((site path).provided.lookup key).isSome = true := by
      rw [slot, consumes] at tie
      exact Option.isSome_iff_exists.mpr ⟨source, tie⟩
    obtain ⟨place, nearest⟩ := traced.exists_nearest (by simp [reached]) inSight
    exact ⟨place, .consumer ⟨child, reached, known⟩ declared consumes nearest,
      length_of_nearest nearest⟩

/-- Every field leads by links to one whose cell began its group. -/
theorem exists_origin {cell : CellId} (found : root.cellAt? place = some cell) :
    ∃ start first, Connected m.components root call place start ∧
      start.path.length ≤ place.path.length ∧ root.cellAt? start = some first ∧
      ∀ d < w.store.cells.length, w.store.groupOf d = w.store.groupOf first → first ≤ d := by
  -- links go up, so the length of the path decreases
  generalize length : place.path.length = n
  induction n using Nat.strongRecOn generalizing place cell with
  | ind n ih =>
    obtain ⟨c, row, isA, declared, named, fills⟩ := traced.row_of_cellAt? found
    cases tied : isTied row.slot.2.1 with
    | false => exact ⟨place, cell, .refl _, Nat.le_of_eq length, found, fills.first tied⟩
    | true =>
      obtain ⟨above, links, shorter⟩ := traced.exists_links isA declared tied
      rw [named] at links
      obtain ⟨_, cell', _, found', _⟩ := traced.sameGroup_of_links links
      obtain ⟨start, first, connected, bound, found, least⟩ :=
        ih _ (length ▸ shorter) found' rfl
      exact ⟨start, first, .trans _ _ _ (.rel _ _ links) connected,
        Nat.le_trans bound (length ▸ Nat.le_of_lt shorter), found, least⟩

/-- Fields have cells in one group if and only if links connect them. -/
theorem connected_iff (distinct : root.fieldCells.Nodup) {cell cell' : CellId}
    (found : root.cellAt? place = some cell) (found' : root.cellAt? place' = some cell') :
    Connected m.components root call place place' ↔
      w.store.groupOf cell = w.store.groupOf cell' := by
  refine ⟨fun connected => traced.groupOf_eq connected found found', fun same => ?_⟩
  obtain ⟨start, first, toStart, _, isFirst, least⟩ := traced.exists_origin found
  obtain ⟨start', first', toStart', _, isFirst', least'⟩ := traced.exists_origin found'
  have joined : w.store.groupOf first = w.store.groupOf first' := by
    rw [← traced.groupOf_eq toStart found isFirst, same,
      traced.groupOf_eq toStart' found' isFirst']
  -- both cells began the group, so they are the same one
  have unique : first = first' := Nat.le_antisymm
    (least first' (traced.known isFirst') joined.symm) (least' first (traced.known isFirst) joined)
  subst unique
  obtain rfl := traced.cellAt?_inj distinct isFirst isFirst'
  exact .trans _ _ _ toStart (.symm _ _ toStart')

end View.Traced

/-! ## Reading and writing -/

theorem countP_of_forall₂ {α β : Type} {p : α → Bool} {q : β → Bool} {as : List α} {bs : List β}
    (each : List.Forall₂ (fun a b => p a = q b) as bs) : as.countP p = bs.countP q := by
  induction each with
  | nil => rfl
  | cons same _ ih => rw [countP_cons, countP_cons, ih, same]

open scoped Classical in
/-- How the fields of a tree are read and written, given the elements that its views were made for. -/
structure View.ObeysLinks (m : Module) (options : Options) (parser : Script.Parser) (root : View)
    (call : List Nat → Element) (w : World) : Prop where
  /-- Every view is a view of a component, with the fields that the component declares. -/
  views : ∀ path v, root.below? path = some v → ∃ c, Component.find? m.components v.name = some c ∧
    v.fields.map (·.1) = c.fieldTable.entries.map (·.name)
  /-- Every view but the root was made for its call in the parent. -/
  called : ∀ path v c i entry, root.below? path = some v →
    Component.find? m.components v.name = some c → v.keyedChildren[i]? = some entry →
    m.Calls options parser c entry (call (path ++ [i]))
  /-- Every two-way or consuming field is linked. -/
  linked : ∀ path c row, root.IsA m.components path c → row ∈ c.fieldTable.entries →
    (row.binding = .twoWay ∨ ∃ key, row.binding = .shared key .consumer) →
    ∃ place, Links m.components root call ⟨path, row.name⟩ place
  /-- Linked fields have the same value. -/
  agree : ∀ place place', Links m.components root call place place' →
    ∃ value, root.read? w place = some value ∧ root.read? w place' = some value
  /-- A write is seen in the fields that are connected to the written one, and in no others. -/
  written : ∀ place c value place' old, root.cellAt? place = some c →
    root.read? w place' = some old → root.read? (w.set c value) place' =
      some (if Connected m.components root call place place' then value else old)
  /-- A one-way field is connected to no field of the parent. -/
  apart : ∀ path i c row field, root.IsA m.components (path ++ [i]) c →
    row ∈ c.fieldTable.entries → row.binding = .oneWay →
    ¬ Connected m.components root call ⟨path ++ [i], row.name⟩ ⟨path, field⟩
  /-- A write asks for a view to be rendered again once for each decorated field of the view that is
      connected to the written one; requests are counted modulo `2^32`. -/
  asked : ∀ place c value path v component, root.cellAt? place = some c →
    root.below? path = some v → Component.find? m.components v.name = some component →
    (w.set c value).requests v.number = w.requests v.number +
      .ofNat ((component.fieldTable.entries.filter (·.reactive)).countP fun row =>
        Connected m.components root call place ⟨path, row.name⟩)

namespace View.Traced

variable {m : Module} {options : Options} {parser : Script.Parser} {w : World}
  {site : List Nat → Site} {call : List Nat → Element} {root v : View} {path : List Nat}
  {c : Component} {row : FieldRow}
  {place place' : FieldPlace} {cell cell' : CellId} {catalog : Catalog}

theorem isLive (mounted : root.Mounted catalog w) (found : root.cellAt? place = some cell) :
    w.store.isLive cell = true := by
  obtain ⟨v, reached, found⟩ := Option.bind_eq_some_iff.mp found
  exact mounted.isLive reached (mem_map.mpr ⟨_, mem_fields_of_cell? found, rfl⟩)

/-- The cell of a field announces if and only if the field is decorated. -/
theorem notifies_slotKind (row : FieldRow) : (slotKind row.slot.2.1).notifies = row.reactive := by
  cases reactive : row.reactive with
  | false => simp [FieldRow.slot, reactive, slotKind, CellKind.notifies]
  | true =>
    cases binding : row.binding <;>
      simp [FieldRow.slot, reactive, binding, slotKind, BindingKind.cellKind, CellKind.notifies]

variable (traced : root.Traced m options parser w site call)
include traced

theorem agree (mounted : root.Mounted catalog w) (links : Links m.components root call place place')
    :
    ∃ value, root.read? w place = some value ∧ root.read? w place' = some value := by
  obtain ⟨cell, cell', found, found', same⟩ := traced.sameGroup_of_links links
  refine ⟨w.store.value cell, by rw [read?, found]; rfl, ?_⟩
  rw [read?, found', Option.map_some, mounted.quiet.consistent.agree cell cell'
    (isLive mounted found) (isLive mounted found') same]

/-- A field that does not get its value from another view is connected to no field further up. -/
theorem not_connected (distinct : root.fieldCells.Nodup) {i : Nat} {field : String}
    (isA : root.IsA m.components (path ++ [i]) c) (declared : row ∈ c.fieldTable.entries)
    (free : isTied row.slot.2.1 = false) :
    ¬ Connected m.components root call ⟨path ++ [i], row.name⟩ ⟨path, field⟩ := by
  intro connected
  obtain ⟨cell, found, fills⟩ := traced.cellAt?_of_row isA declared
  have same := traced.sameGroup_of_connected connected
  rw [found, Option.map_some] at same
  obtain ⟨cell', found', same⟩ := Option.map_eq_some_iff.mp same.symm
  obtain ⟨start, first, toStart, bound, isFirst, least⟩ := traced.exists_origin found'
  have joined : w.store.groupOf first = w.store.groupOf cell :=
    (traced.groupOf_eq toStart found' isFirst).symm.trans same
  -- both fields lead to the one that began the group, which would be below and above
  have unique : cell = first := Nat.le_antisymm (fills.first free first (traced.known isFirst) joined)
    (least cell (traced.known found) joined.symm)
  subst unique
  cases traced.cellAt?_inj distinct found isFirst
  rw [length_append] at bound
  exact Nat.not_succ_le_self _ bound

open scoped Classical in
theorem written (mounted : root.Mounted catalog w) (value : Json) {old : Json}
    (found : root.cellAt? place = some cell)
    (read : root.read? w place' = some old) :
    root.read? (w.set cell value) place' =
      some (if Connected m.components root call place place' then value else old) := by
  obtain ⟨cell', found', rfl⟩ := Option.map_eq_some_iff.mp read
  rw [read?, found', Option.map_some,
    mounted.quiet.value_set (isLive mounted found) (isLive mounted found')]
  simp only [traced.connected_iff mounted.distinct found found', eq_comm]

open scoped Classical in
theorem asked (mounted : root.Mounted catalog w) (value : Json)
    (found : root.cellAt? place = some cell) (reached : root.below? path = some v)
    (known : Component.find? m.components v.name = some c) :
    (w.set cell value).requests v.number = w.requests v.number +
      .ofNat ((c.fieldTable.entries.filter (·.reactive)).countP fun row =>
        Connected m.components root call place ⟨path, row.name⟩) := by
  obtain ⟨⟨c', known', embodies⟩, slots, seated⟩ := traced.views path v reached
  cases known.symm.trans known'
  rw [mounted.quiet.requests_set (isLive mounted found) value seated.number,
    mounted.countP_audience reached seated, countP_map, countP_filter]
  congr 2
  refine (countP_of_forall₂ (forall₂_iff_zip.mpr ⟨embodies.fills.length_eq, ?_⟩)).symm
  intro row field paired
  obtain ⟨found', fills⟩ := embodies.cell?_of_mem_zip paired
  have at' : root.cellAt? ⟨path, row.name⟩ = some field.2 := by
    rw [cellAt?, reached, Option.bind_some, found']
  simp only [Function.comp_apply, fills.kind, notifies_slotKind,
    traced.connected_iff mounted.distinct found at']
  rw [Bool.and_comm, beq_eq_decide]
  simp only [eq_comm]

end View.Traced

/-- The fields of a tree that was mounted from a module without errors obey its links, whatever was
    written to fields since. -/
theorem Module.obeysLinks_of_mount {m : Module} {options : Options} {parser : Script.Parser}
    {depth : Nat} {name : String} {root : View} {w w' : World}
    (source : ∀ c ∈ m.components, c.isSource = true)
    (fields : ∀ c ∈ m.components, (c.fieldTable.entries.map (·.name)).Nodup)
    (success : (m.lower options parser).isSuccess = true) (quiet : w.Quiet)
    (mounted : (Catalog.ofOutput (m.lower options parser)).mountTo depth name w = (.ok root, w')) :
    ∃ call, ∀ w'', root.Writes w' w'' → root.ObeysLinks m options parser call w'' := by
  obtain ⟨distinct, outs, each⟩ := Module.isSuccess_lower_iff.mp success
  rw [Module.lower_eq_of_lowersEach distinct each, Catalog.ofOutput,
    ModuleOutcome.lowered_outcomes] at mounted
  have mounted := Catalog.mountTo_spec quiet mounted
  obtain ⟨site, call, traced⟩ := each.traced distinct source fields mounted.wired
  refine ⟨call, fun w'' writes => ?_⟩
  obtain ⟨mounted, grows⟩ := mounted.writes writes
  have traced := traced.grows grows
  constructor
  case views =>
    intro path v reached
    obtain ⟨⟨c, known, embodies⟩, _⟩ := traced.views path v reached
    exact ⟨c, known, embodies.names⟩
  case called =>
    intro path v c i entry reached known isEntry
    have below : root.below? (path ++ [i]) = some entry.2 :=
      View.below?_concat.mpr ⟨v, reached, View.getElem?_children isEntry⟩
    obtain ⟨⟨_, known', _⟩, _⟩ := traced.views _ _ below
    exact (traced.children path v i entry _ _ reached isEntry known known').1
  case linked =>
    intro path c row isA declared tied
    have isTied : isTied row.slot.2.1 = true := by
      rcases tied with twoWay | ⟨key, consumes⟩
      · rw [Component.binding_slot declared (by simp [twoWay]), twoWay]
        rfl
      · rw [Component.binding_slot declared (by simp [consumes]), consumes]
        rfl
    obtain ⟨place, links, _⟩ := traced.exists_links isA declared isTied
    exact ⟨place, links⟩
  case agree => exact fun place place' links => traced.agree mounted links
  case written =>
    exact fun place c value place' old found read => traced.written mounted value found read
  case apart =>
    intro path i c row field isA declared oneWay
    refine traced.not_connected mounted.distinct isA declared ?_
    rw [Component.binding_slot declared (by simp [oneWay]), oneWay]
    rfl
  case asked =>
    exact fun place c value path v component found reached known =>
      traced.asked mounted value found reached known

/-! A gallery: a panel is tied to a field of the page and copies it, and a badge in the panel is tied
to the field of the panel and consumes what the page provides. -/

namespace Gallery

def page : Component where
  name := "Page"
  isEntry := true
  members := [
    .field { name := "count", decorator := .state, initializer := some "1" },
    .field { name := "theme", decorator := .provide none, initializer := some "2" }]
  render := { body := [
    .element { name := "Panel", args := [{ name := some "value", value := "$count" },
      { name := some "label", value := "this.count" }] } []] }

def panel : Component where
  name := "Panel"
  members := [
    .field { name := "value", decorator := .link },
    .field { name := "label", decorator := .prop }]
  render := { body := [.element { name := "Badge", args := [{ value := "$value" }] } []] }

def badge : Component where
  name := "Badge"
  members := [
    .field { name := "value", decorator := .link },
    .field { name := "theme", decorator := .consume none }]
  render := { body := [.element { name := "Text", args := [{ value := "this.value" }] } []] }

def file : Module := ⟨"gallery.ets", [page, panel, badge]⟩

end Gallery

theorem Module.obeysLinks_of_mount_gallery :
    ∃ root w, (Catalog.ofOutput (Gallery.file.lower {})).mountTo 3 "Page" {} = (.ok root, w) ∧
      (root.below? [0, 0]).map (·.name) = some "Badge" ∧
      ∃ call, ∀ w', root.Writes w w' → root.ObeysLinks Gallery.file {} Script.parser call w' := by
  have success : (Gallery.file.lower {}).isSuccess = true := by decide +kernel
  have inner : (((Catalog.ofOutput (Gallery.file.lower {})).mountTo 3 "Page" {}).1.toOption.bind
      (·.below? [0, 0])).map (·.name) = some "Badge" := by decide +kernel
  cases mounted : (Catalog.ofOutput (Gallery.file.lower {})).mountTo 3 "Page" {} with
  | mk result w =>
    rw [mounted] at inner
    cases result with
    | error fault => cases inner
    | ok root =>
      exact ⟨root, w, rfl, inner, Module.obeysLinks_of_mount (by decide) (by decide) success
        World.quiet_empty mounted⟩

end ReactiveView
