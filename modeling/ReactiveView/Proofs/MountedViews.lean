import ReactiveView.Proofs.SafeRendering
import ReactiveView.Proofs.SparedValues
import ReactiveView.Proofs.Visits

/-!
# Views when they are mounted

Every field of a view gets a cell of its own.  The cell of a two-way or consuming field is linked to
the cell that the place of the view gives it; every other cell begins a group.  These facts are about
what never changes, so they hold of a mounted tree (`View.Wired`) once they hold of each view when it
is made, and what is made or dropped elsewhere in the meantime does not matter.
-/

namespace ReactiveView

open List
open Reactive (CellId GroupId SubscriptionId Store)

/-! ## Cells of fields -/

/-- Whether a field gets its value from a cell of another view. -/
def isTied : Option BindingKind → Bool
  | some .twoWay | some (.shared _ .consumer) => true
  | _ => false

/-- The kind of the cell of a field. -/
def slotKind (binding : Option BindingKind) : CellKind :=
  (binding.map BindingKind.cellKind).getD .plain

namespace Site

variable {site : Site} {source : CellId}

/-- The cell that a place gives to a field that needs one. -/
def tie? (site : Site) (field : String) : Option BindingKind → Option CellId
  | some .twoWay => site.source? field
  | some (.shared key .consumer) => site.provided.lookup key
  | _ => none

/-- The cells that a place can give. -/
def sources (site : Site) : List CellId := (site.parent.fields ++ site.provided).map (·.2)

theorem mem_sources_of_tie? {field : String} {binding : Option BindingKind}
    (tie : site.tie? field binding = some source) : source ∈ site.sources := by
  rw [sources, map_append, mem_append]
  unfold tie? at tie
  split at tie
  · simp only [source?] at tie
    split at tie
    · exact .inl (mem_map_of_mem (mem_of_lookup tie))
    · cases tie
  · exact .inr (mem_map_of_mem (mem_of_lookup tie))
  · cases tie

theorem isTied_of_tie? {field : String} {binding : Option BindingKind}
    (tie : site.tie? field binding = some source) : isTied binding = true := by
  unfold tie? at tie
  split at tie
  · rfl
  · rfl
  · cases tie

/-- A cell is made as a field needs it: linked to the cell that the place gives, or in a group that
    it begins. -/
structure Fills (site : Site) (s : Store) (slot : String × Option BindingKind × Option String)
    (field : String × CellId) : Prop where
  name : field.1 = slot.1
  known : field.2 < s.cells.length
  kind : s.kind field.2 = slotKind slot.2.1
  tied : isTied slot.2.1 = true → ∃ source, site.tie? slot.1 slot.2.1 = some source ∧
    source < s.cells.length ∧ s.groupOf field.2 = s.groupOf source
  first : isTied slot.2.1 = false → ∀ d < s.cells.length, s.groupOf d = s.groupOf field.2 →
    field.2 ≤ d

theorem Fills.grows {s s' : Store} {slot : String × Option BindingKind × Option String}
    {field : String × CellId} (fills : site.Fills s slot field) (grows : s.Grows s') :
    site.Fills s' slot field where
  name := fills.name
  known := Nat.lt_of_lt_of_le fills.known grows.size
  kind := (grows.kind _ fills.known).trans fills.kind
  tied tied := by
    obtain ⟨source, tie, inside, same⟩ := fills.tied tied
    refine ⟨source, tie, Nat.lt_of_lt_of_le inside grows.size, ?_⟩
    rw [grows.group _ fills.known, grows.group _ inside, same]
  first free d inside same := by
    by_cases old : d < s.cells.length
    · rw [grows.group _ old, grows.group _ fills.known] at same
      exact fills.first free d old same
    · exact Nat.le_of_lt (Nat.lt_of_lt_of_le fills.known (Nat.le_of_not_lt old))

variable {w w' : World} {field : String} {binding : Option BindingKind}
  {initializer : Option String} {fields : List (String × CellId)} {c : CellId}

theorem cell_cases (made : site.cell w fields field binding initializer = .ok (c, w')) :
    c = w.store.nextCell ∧
      ((isTied binding = false ∧
          w' = (w.create (slotKind binding) (site.initial w fields field initializer)).2) ∨
        ∃ source, site.tie? field binding = some source ∧
          w' = (w.link source (slotKind binding)).2) := by
  unfold cell at made
  split at made
  · cases made
    exact ⟨rfl, .inl ⟨rfl, rfl⟩⟩
  · split at made
    next source found =>
      cases made
      exact ⟨rfl, .inr ⟨source, found, rfl⟩⟩
    · cases made
  · split at made
    next source found =>
      cases made
      exact ⟨rfl, .inr ⟨source, found, rfl⟩⟩
    · cases made
  next kind notTwoWay notConsumer =>
    cases made
    refine ⟨rfl, .inl ⟨?_, rfl⟩⟩
    cases kind with
    | twoWay => exact absurd rfl notTwoWay
    | shared key role =>
      cases role with
      | consumer => exact absurd rfl (notConsumer key)
      | provider => rfl
    | ownedSimple | oneWay => rfl

/-- A field that is not tied has the value that its argument has in a world. -/
def Feeds (site : Site) (start w : World) (slot : String × Option BindingKind × Option String)
    (field : String × CellId) : Prop :=
  isTied slot.2.1 = false → ∀ code, site.bound? slot.1 = some (.expression code) →
    field.2 < w.store.cells.length ∧ w.store.value field.2 = site.parent.eval start code

theorem Feeds.spares {start : World} {slot : String × Option BindingKind × Option String}
    {field : String × CellId} (feeds : site.Feeds start w slot field) (grows : w.Grows w')
    (spares : w.Spares [] w') : site.Feeds start w' slot field := by
  intro free code bound
  obtain ⟨known, fed⟩ := feeds free code bound
  exact ⟨Nat.lt_of_lt_of_le known grows.store.size, (spares _ known nofun).trans fed⟩

/-- A cell that is made is new, fills its field and is held once. -/
structure Makes (site : Site) (w : World) (slot : String × Option BindingKind × Option String)
    (c : CellId) (w' : World) : Prop where
  cell : c = w.store.nextCell
  size : w'.store.cells.length = w.store.cells.length + 1
  listeners : w'.listeners = w.listeners
  quiet : w'.Quiet
  grows : w.Grows w'
  spares : w.Spares [] w'
  fills : site.Fills w'.store slot (slot.1, c)
  feeds : site.Feeds w w' slot (slot.1, c)
  owns : ∀ cells subscriptions, w.Owns cells subscriptions → w'.Owns (c :: cells) subscriptions

theorem makes_create (quiet : w.Quiet) (free : isTied binding = false)
    (fields : List (String × CellId)) :
    site.Makes w (field, binding, initializer) w.store.nextCell
      (w.create (slotKind binding) (site.initial w fields field initializer)).2 where
  cell := rfl
  size := by simp [World.create, World.onStore, Store.create]
  listeners := rfl
  quiet := quiet.create _ _
  grows := w.grows_create _ _
  spares := w.spares_create _ _
  fills := by
    generalize site.initial w fields field initializer = value
    have new : (w.store.create (slotKind binding) value).cells[w.store.nextCell]? = some _ :=
      Store.getElem?_cells_new rfl
    have group : (w.store.create (slotKind binding) value).groupOf w.store.nextCell =
        w.store.groups.length := by simp [Store.groupOf, new]
    refine ⟨rfl, ?_, ?_, ?_, ?_⟩
    · simp [World.create, World.onStore, Store.create, Store.nextCell]
    · simp [World.create, World.onStore, Store.kind, new]
    · intro tied
      cases free.symm.trans tied
    · intro _ d inside same
      -- no cell that was there before is in the group
      by_contra older
      have old : d < w.store.cells.length := Nat.lt_of_not_le older
      have known := quiet.consistent.group d old
      have kept := (Store.Grows.create w.store (slotKind binding) value).group d old
      exact Nat.ne_of_lt known (kept.symm.trans (same.trans group))
  feeds _ code bound := by
    have initial : site.initial w fields field initializer = site.parent.eval w code := by
      simp only [Site.initial, bound]
    rw [initial]
    have new : (w.store.create (slotKind binding) (site.parent.eval w code)).cells[w.store.nextCell]? =
      some _ := Store.getElem?_cells_new rfl
    constructor
    · simp [World.create, World.onStore, Store.create, Store.nextCell]
    · simp [World.create, World.onStore, Store.value, new]
  owns cells subscriptions owns := owns.add rfl rfl rfl

theorem makes_link (quiet : w.Quiet) (tie : site.tie? field binding = some source)
    (live : w.store.isLive source = true) :
    site.Makes w (field, binding, initializer) w.store.nextCell
      (w.link source (slotKind binding)).2 where
  cell := rfl
  size := by simp [World.link, World.onStore, Store.link]
  listeners := rfl
  quiet := quiet.link live _
  grows := w.grows_link source _
  spares := w.spares_link source _
  fills := by
    have new : (w.store.link source (slotKind binding)).cells[w.store.nextCell]? = some _ :=
      Store.getElem?_cells_new rfl
    have inside := Store.lt_length_of_isLive live
    have grows := Store.Grows.link w.store source (slotKind binding)
    refine ⟨rfl, ?_, ?_, ?_, ?_⟩
    · simp [World.link, World.onStore, Store.link, Store.nextCell]
    · simp [World.link, World.onStore, Store.kind, new]
    · intro _
      refine ⟨source, tie, Nat.lt_of_lt_of_le inside grows.size, ?_⟩
      change (w.store.link source (slotKind binding)).groupOf w.store.nextCell = _
      rw [World.link, World.onStore, grows.group source inside]
      simp [Store.groupOf, new]
    · intro free
      cases free.symm.trans (isTied_of_tie? tie)
  feeds free := by cases free.symm.trans (isTied_of_tie? tie)
  owns cells subscriptions owns := owns.add rfl rfl rfl

theorem makes_of_cell (quiet : w.Quiet) (live : ∀ c ∈ site.sources, w.store.isLive c = true)
    (made : site.cell w fields field binding initializer = .ok (c, w')) :
    site.Makes w (field, binding, initializer) c w' := by
  obtain ⟨rfl, ⟨free, rfl⟩ | ⟨source, tie, rfl⟩⟩ := cell_cases made
  · exact makes_create quiet free fields
  · exact makes_link quiet tie (live source (mem_sources_of_tie? tie))

/-- The keys that fields provide, with their cells. -/
def provisions (slots : List (String × Option BindingKind × Option String))
    (fields : List (String × CellId)) : List (String × CellId) :=
  (slots.zip fields).filterMap fun (slot, field) =>
    (slot.2.1.bind (·.key? .provider)).map (·, field.2)

/-- The cells for some fields are made. -/
structure Filled (site : Site) (start : World)
    (slots : List (String × Option BindingKind × Option String))
    (fields provided : List (String × CellId)) (w : World) : Prop where
  fills : List.Forall₂ (site.Fills w.store) slots fields
  provisions : provided = provisions slots fields
  ascending : (fields.map (·.2)).Pairwise (· < ·)
  new : ∀ c ∈ fields.map (·.2), start.store.cells.length ≤ c ∧ c < w.store.cells.length
  listeners : w.listeners = start.listeners
  quiet : w.Quiet
  grows : start.Grows w
  spares : start.Spares [] w
  feeds : List.Forall₂ (site.Feeds start w) slots fields
  owns : ∀ cells subscriptions, start.Owns cells subscriptions →
    w.Owns ((fields ++ provided).map (·.2) ++ cells) subscriptions

theorem provisions_concat {slots : List (String × Option BindingKind × Option String)}
    {fields : List (String × CellId)} (same : slots.length = fields.length)
    (slot : String × Option BindingKind × Option String) (field : String × CellId) :
    provisions (slots ++ [slot]) (fields ++ [field]) =
      provisions slots fields ++ ((slot.2.1.bind (·.key? .provider)).map (·, field.2)).toList := by
  rw [provisions, zip_append same, filterMap_append]
  cases provides : slot.2.1.bind (·.key? .provider) with
  | none => simp only [provisions, zip_cons_cons, zip_nil_left, filterMap_cons,
      filterMap_nil, provides, Option.map_none, Option.toList_none]
  | some key => simp only [provisions, zip_cons_cons, zip_nil_left, filterMap_cons,
      filterMap_nil, provides, Option.map_some, Option.toList_some]

namespace Filled

variable {start : World} {slots : List (String × Option BindingKind × Option String)}
  {provided : List (String × CellId)} {slot : String × Option BindingKind × Option String}

theorem begin (quiet : w.Quiet) : site.Filled w [] [] [] w where
  fills := .nil
  provisions := rfl
  ascending := .nil
  new := nofun
  listeners := rfl
  quiet := quiet
  grows := .refl w
  spares := .refl w []
  feeds := .nil
  owns _ _ := id

/-- The cell of the next field is made, and held again for each key that the field provides. -/
theorem next {middle : World} {shared : List (String × CellId)}
    (filled : site.Filled start slots fields provided w)
    (known : ∀ entry ∈ site.parent.fields, entry.2 < start.store.cells.length)
    (makes : site.Makes w slot c middle)
    (provides : shared = ((slot.2.1.bind (·.key? .provider)).map (·, c)).toList)
    (size : w'.store.cells.length = middle.store.cells.length)
    (listeners : w'.listeners = middle.listeners) (quiet : w'.Quiet) (grows : middle.Grows w')
    (spares : middle.Spares [] w')
    (owns : ∀ cells subscriptions, middle.Owns cells subscriptions →
      w'.Owns (shared.map (·.2) ++ cells) subscriptions) :
    site.Filled start (slots ++ [slot]) (fields ++ [(slot.1, c)]) (provided ++ shared) w' where
  fills := by
    have before := filled.fills.imp fun _ _ fills =>
      fills.grows (makes.grows.store.trans grows.store)
    exact rel_append before (.cons (makes.fills.grows grows.store) .nil)
  provisions := by rw [provisions_concat filled.fills.length_eq, filled.provisions, provides]
  spares := (filled.spares.trans_nothing filled.grows makes.spares).trans_nothing
    (filled.grows.trans makes.grows) spares
  feeds := by
    have before := filled.feeds.imp fun _ _ feeds =>
      (feeds.spares makes.grows makes.spares).spares grows spares
    refine rel_append before (.cons (fun free code bound => ?_) .nil)
    obtain ⟨inside, fed⟩ := makes.feeds.spares grows spares free code bound
    -- what the argument says has not changed since the first cell was made
    refine ⟨inside, fed.trans (ViewScope.eval_congr (fun entry isField => ?_) code)⟩
    exact filled.spares _ (known entry isField) nofun
  ascending := by
    rw [map_append, pairwise_append]
    refine ⟨filled.ascending, pairwise_singleton _ _, ?_⟩
    intro d member last isLast
    rw [mem_singleton.mp isLast, makes.cell]
    exact (filled.new d member).2
  new d member := by
    rw [map_append, mem_append] at member
    rw [size, makes.size]
    rcases member with old | new
    · exact ⟨(filled.new d old).1, Nat.lt_succ_of_lt (filled.new d old).2⟩
    · rw [mem_singleton.mp new, makes.cell]
      exact ⟨filled.grows.store.size, Nat.lt_succ_self _⟩
  listeners := listeners.trans (makes.listeners.trans filled.listeners)
  quiet := quiet
  grows := filled.grows.trans (makes.grows.trans grows)
  owns cells subscriptions held := by
    refine (owns _ _ (makes.owns _ _ (filled.owns cells subscriptions held))).mono (fun d => ?_)
      fun _ => Nat.le_refl _
    simp only [map_append, map_cons, map_nil, count_append, count_cons,
      count_nil]
    omega

end Filled

/-- The world after a new cell is held once more if its field provides a key. -/
def share (binding : Option BindingKind) (c : CellId) (w : World) : World :=
  if (binding.bind (·.key? .provider)).isSome then w.onStore (·.retain c) else w

theorem cells_cons {middle : World} {provided : List (String × CellId)}
    {rest : List (String × Option BindingKind × Option String)}
    (first : site.cell w fields field binding initializer = .ok (c, middle)) :
    site.cells w fields provided ((field, binding, initializer) :: rest) =
      site.cells (share binding c middle) (fields ++ [(field, c)])
        (provided ++ ((binding.bind (·.key? .provider)).map (·, c)).toList) rest := by
  rw [cells, first]
  cases provides : binding.bind (·.key? .provider) with
  | none => simp [share, provides]
  | some key => simp [share, provides]

section

variable {start : World} {before slots : List (String × Option BindingKind × Option String)}
  {provided : List (String × CellId)} {held : List CellId} {subscriptions : List SubscriptionId}
  (owns : start.Owns held subscriptions) (sources : ∀ c ∈ site.sources, c ∈ held)
  (filled : site.Filled start before fields provided w)
include owns sources filled

/-- Where the sources live, a field gets its cell. -/
theorem Filled.cell {middle : World}
    (first : site.cell w fields field binding initializer = .ok (c, middle)) :
    site.Filled start (before ++ [(field, binding, initializer)]) (fields ++ [(field, c)])
      (provided ++ ((binding.bind (·.key? .provider)).map (·, c)).toList)
      (share binding c middle) := by
  have live : ∀ d ∈ site.sources, w.store.isLive d = true := fun d isSource =>
    (filled.owns held subscriptions owns).isLive (mem_append_right _ (sources d isSource))
  have known : ∀ entry ∈ site.parent.fields, entry.2 < start.store.cells.length := by
    intro entry isField
    have isSource : entry.2 ∈ site.sources :=
      mem_map_of_mem (mem_append_left _ isField)
    exact Store.lt_length_of_isLive (owns.isLive (sources _ isSource))
  have makes := makes_of_cell filled.quiet live first
  have alive : middle.store.isLive c = true :=
    (makes.owns _ _ (filled.owns held subscriptions owns)).isLive mem_cons_self
  unfold share
  cases provides : binding.bind (·.key? .provider) with
  | none =>
    refine filled.next known makes ?_ rfl rfl makes.quiet (.refl _) (.refl _ _) fun _ _ => id
    simp [provides]
  -- a cell that is provided is held a second time, for its key
  | some key =>
    rw [Option.isSome_some, if_pos rfl]
    refine filled.next known makes ?_ ?_ rfl (makes.quiet.retain alive) ?_ ?_ ?_
    · simp [provides]
    · exact Store.length_modifyCell
    · exact .onStore (.fades (.retain alive) (.retain _ _))
    · exact .of_fades (.retain alive)
    · exact fun cells subscriptions owns => owns.retain (Store.lt_length_of_isLive alive)

/-- Where the sources live, every field gets its cell. -/
theorem cells_spec {fields' provided' : List (String × CellId)}
    (made : site.cells w fields provided slots = (.ok (fields', provided'), w')) :
    site.Filled start (before ++ slots) fields' provided' w' := by
  induction slots generalizing before fields provided w with
  | nil =>
    cases made
    rw [append_nil]
    exact filled
  | cons slot slots ih =>
    obtain ⟨field, binding, initializer⟩ := slot
    cases first : site.cell w fields field binding initializer with
    | error fault =>
      rw [cells, first] at made
      cases made
    | ok result =>
      rw [cells_cons first] at made
      rw [append_cons]
      exact ih (filled.cell owns sources first) made

/-- If a field gets no cell, those of the fields before it are given up. -/
theorem cells_releases {fault : Fault}
    (failed : site.cells w fields provided slots = (.error fault, w')) :
    w'.Quiet ∧ start.Grows w' ∧ start.Spares [] w' ∧ w'.Owns held subscriptions := by
  induction slots generalizing before fields provided w with
  | nil => cases failed
  | cons slot slots ih =>
    obtain ⟨field, binding, initializer⟩ := slot
    cases first : site.cell w fields field binding initializer with
    | error fault =>
      rw [cells, first] at failed
      cases failed
      exact ⟨filled.quiet.releaseAll _, filled.grows.trans (w.grows_releaseAll _),
        filled.spares.trans_nothing filled.grows (w.spares_releaseAll _),
        (filled.owns _ _ owns).releaseAll⟩
    | ok result =>
      rw [cells_cons first] at failed
      exact ih (filled.cell owns sources first) failed

end

end Site

/-! ## Subscriptions of a view -/

namespace World

variable {w w' : World} {view : Nat} {cells : List CellId}

/-- A view is subscribed to cells, once to each. -/
structure Subscribed (w : World) (view : Nat) (cells : List CellId)
    (subscriptions : List SubscriptionId) (w' : World) : Prop where
  registered : List.Forall₂ (fun c n => n ∈ w'.store.registered c) cells subscriptions
  asks : ∀ other n, w'.listeners.asks other n = true ↔
    w.listeners.asks other n = true ∨ other = view ∧ n ∈ subscriptions
  ascending : subscriptions.Pairwise (· < ·)
  new : ∀ n ∈ subscriptions, w.store.owners.length ≤ n
  size : w'.store.cells.length = w.store.cells.length
  store : w.store.Grows w'.store
  values : ∀ d, w'.store.value d = w.store.value d
  entries : w.listeners.entries <+: w'.listeners.entries
  requests : w'.listeners.requests = w.listeners.requests
  quiet : w'.Quiet
  owns : ∀ held subscriptions', w.Owns held subscriptions' →
    w'.Owns held (subscriptions ++ subscriptions')

theorem asks_subscribe (quiet : w.Quiet) (c : CellId) (other : Nat) (n : SubscriptionId) :
    (w.subscribe c (.rerender view)).2.listeners.asks other n = true ↔
      w.listeners.asks other n = true ∨ other = view ∧ n = w.store.nextSubscription := by
  have last : w.store.nextSubscription = w.listeners.entries.length := quiet.entries.symm
  simp only [World.subscribe, Listeners.asks, last]
  by_cases old : n < w.listeners.entries.length
  · simp [List.getElem?_append_left old, Nat.ne_of_lt old]
  · have absent := List.getElem?_eq_none (Nat.le_of_not_lt old)
    by_cases new : n = w.listeners.entries.length
    · subst new
      simpa using eq_comm
    · have beyond : (w.listeners.entries ++ [Listener.rerender view])[n]? = none := by
        rw [List.getElem?_eq_none_iff, length_append, length_singleton]
        exact Nat.succ_le_of_lt (Nat.lt_of_le_of_ne (Nat.le_of_not_lt old) (Ne.symm new))
      simp [absent, beyond, new]

theorem subscribeView_spec (quiet : w.Quiet) (known : view < w.listeners.requests.length)
    (inside : ∀ c ∈ cells, c < w.store.cells.length) :
    w.Subscribed view cells (w.subscribeView view cells).1 (w.subscribeView view cells).2 := by
  induction cells generalizing w with
  | nil =>
    refine ⟨.nil, ?_, .nil, nofun, rfl, .refl _, fun _ => rfl, prefix_rfl, rfl, quiet,
      fun _ _ => id⟩
    simp [subscribeView]
  | cons c cells ih =>
    rw [forall_mem_cons] at inside
    have size : (w.subscribe c (.rerender view)).2.store.cells.length = w.store.cells.length :=
      (Store.Fades.subscribe w.store c).size
    have grows : w.store.Grows (w.subscribe c (.rerender view)).2.store := .subscribe w.store c
    have quiet' : (w.subscribe c (.rerender view)).2.Quiet :=
      quiet.subscribe c rfl fun _ same => by
        cases same
        exact known
    have others := ih quiet' known (by rw [size]; exact inside.2)
    have owners : (w.subscribe c (.rerender view)).2.store.owners.length =
        w.store.nextSubscription + 1 := by simp [World.subscribe, Store.subscribe]; rfl
    have mine : w.store.nextSubscription ∈
        (w.subscribe c (.rerender view)).2.store.registered c := by
      change _ ∈ (w.store.subscribe c).registered c
      simp [Store.registered_subscribe, inside.1]
    rw [subscribeView]
    constructor
    case registered =>
      exact .cons ((others.store.registered c (size ▸ inside.1)).subset mine) others.registered
    case asks =>
      intro other n
      rw [others.asks, asks_subscribe quiet, mem_cons, or_assoc, ← and_or_left]
      rfl
    case ascending =>
      refine pairwise_cons.mpr ⟨fun n member => ?_, others.ascending⟩
      have later := others.new n member
      rw [owners] at later
      exact later
    case new =>
      intro n member
      rcases mem_cons.mp member with rfl | later
      · exact Nat.le_refl _
      · exact Nat.le_trans grows.owners (others.new n later)
    case size => exact others.size.trans size
    case store => exact grows.trans others.store
    case values =>
      exact fun d => (others.values d).trans ((Store.Fades.subscribe w.store c).value d)
    case entries => exact (prefix_append _ _).trans others.entries
    case requests => exact others.requests
    case quiet => exact others.quiet
    case owns =>
      intro held subscriptions owns
      refine (others.owns _ _ (owns.subscribe c (.rerender view))).perm (.refl _) ?_
      exact perm_middle

/-- Only views that have a number are asked for. -/
theorem Quiet.lt_of_asks (quiet : w.Quiet) {n : SubscriptionId}
    (asks : w.listeners.asks view n = true) : view < w.listeners.requests.length := by
  unfold Listeners.asks at asks
  split at asks
  next k entry =>
    rw [decide_eq_true_iff] at asks
    exact quiet.numbered view (asks ▸ mem_of_getElem? entry)
  · cases asks

end World

/-! ## A view at its place -/

theorem exists_of_mem_forall₂ {α β : Type} {R : α → β → Prop} {as : List α} {bs : List β}
    (each : List.Forall₂ R as bs) {b : β} (member : b ∈ bs) : ∃ a ∈ as, R a b := by
  induction each with
  | nil => cases member
  | cons head _ ih =>
    rcases mem_cons.mp member with rfl | later
    · exact ⟨_, mem_cons_self, head⟩
    · obtain ⟨a, isIn, related⟩ := ih later
      exact ⟨a, mem_cons_of_mem _ isIn, related⟩

namespace View

variable {w w' : World} {site : Site} {slots : List (String × Option BindingKind × Option String)}
  {v : View}

/-- A view has the cells that its place gives it, and its subscriptions are those to its cells. -/
structure Seated (w : World) (site : Site)
    (slots : List (String × Option BindingKind × Option String)) (v : View) : Prop where
  fills : List.Forall₂ (site.Fills w.store) slots v.fields
  provisions : v.provided = Site.provisions slots v.fields
  ascending : (v.fields.map (·.2)).Pairwise (· < ·)
  number : v.number < w.listeners.requests.length
  registered : List.Forall₂ (fun c n => n ∈ w.store.registered c) (v.fields.map (·.2))
    v.subscriptions
  asks : ∀ n, w.listeners.asks v.number n = true ↔ n ∈ v.subscriptions
  distinct : v.subscriptions.Nodup

namespace Seated

theorem known (seated : v.Seated w site slots) {c : CellId} (member : c ∈ v.fields.map (·.2)) :
    c < w.store.cells.length := by
  obtain ⟨field, isField, rfl⟩ := mem_map.mp member
  obtain ⟨_, _, fills⟩ := exists_of_mem_forall₂ seated.fills isField
  exact fills.known

theorem grows (seated : v.Seated w site slots) (grows : w.Grows w') :
    v.Seated w' site slots where
  fills := seated.fills.imp fun _ _ fills => fills.grows grows.store
  provisions := seated.provisions
  ascending := seated.ascending
  number := Nat.lt_of_lt_of_le seated.number grows.requests
  registered := by
    have inside : ∀ c ∈ v.fields.map (·.2), c < w.store.cells.length := fun c => seated.known
    refine ((forall₂_and_left _ _).mpr ⟨inside, seated.registered⟩).imp fun c n registered => ?_
    exact (grows.store.registered c registered.1).subset registered.2
  asks n := by
    rw [← seated.asks n]
    exact ⟨grows.fresh v.number seated.number n, grows.asks⟩
  distinct := seated.distinct

end Seated

end View

namespace Catalog

variable {catalog : Catalog} {name : String} {site : Site} {w w' : World} {v : View}
  {subscriptions : List SubscriptionId}

/-- A view is made at a place. -/
structure Makes (catalog : Catalog) (name : String) (site : Site) (w : World) (v : View)
    (w' : World) : Prop where
  named : v.name = name
  children : v.keyedChildren = []
  seated : ∃ c, catalog.find? name = some c ∧ v.Seated w' site c.slots
  new : ∀ c ∈ v.fields.map (·.2), w.store.cells.length ≤ c
  quiet : w'.Quiet
  grows : w.Grows w'
  spares : w.Spares [] w'
  feeds : ∃ c, catalog.find? name = some c ∧ List.Forall₂ (site.Feeds w w') c.slots v.fields
  owns : ∀ cells subscriptions, w.Owns cells subscriptions →
    w'.Owns (v.ownedCells ++ cells) (v.ownedSubscriptions ++ subscriptions)

/-- A new view has a number of its own, so its subscriptions concern no other view. -/
theorem grows_subscribed {cells : List CellId}
    (subscribed : w.newView.2.Subscribed w.newView.1 cells subscriptions w') : w.Grows w' where
  store := subscribed.store
  entries := subscribed.entries
  requests := by
    rw [subscribed.requests]
    simp [World.newView]
  fresh view known n asks := by
    rcases (subscribed.asks view n).mp asks with old | ⟨rfl, _⟩
    · exact old
    · exact absurd known (Nat.lt_irrefl _)

variable {held : List CellId} (quiet : w.Quiet) (owns : w.Owns held subscriptions)
  (sources : ∀ c ∈ site.sources, c ∈ held)
include quiet owns sources

theorem instantiate_spec (made : catalog.instantiate name site w = (.ok v, w')) :
    catalog.Makes name site w v w' := by
  unfold instantiate at made
  split at made
  · cases made
  next c found =>
    split at made
    · cases made
    next fields provided middle filled =>
      have filled := Site.cells_spec owns sources (.begin quiet) filled
      rw [nil_append] at filled
      have number : middle.newView.1 < middle.newView.2.listeners.requests.length := by
        simp [World.newView]
      -- the cells come first, then the number, and then the subscriptions under it
      have subscribed := World.subscribeView_spec filled.quiet.newView number
        fun c member => (filled.new c member).2
      change (Except.ok (View.fresh name fields provided middle.newView.1
        (middle.newView.2.subscribeView middle.newView.1 (fields.map (·.2))).1),
        (middle.newView.2.subscribeView middle.newView.1 (fields.map (·.2))).2) = _ at made
      generalize middle.newView.2.subscribeView middle.newView.1 (fields.map (·.2)) = result
        at subscribed made
      obtain ⟨subscriptions, last⟩ := result
      cases made
      have values : middle.Spares [] last := fun d _ _ => subscribed.values d
      constructor
      case named => rfl
      case children => rfl
      case seated =>
        refine ⟨c, found, ?_⟩
        constructor
        case fills => exact filled.fills.imp fun _ _ fills => fills.grows subscribed.store
        case provisions => exact filled.provisions
        case ascending => exact filled.ascending
        case number => exact subscribed.requests ▸ number
        case registered => exact subscribed.registered
        case asks =>
          intro n
          refine (subscribed.asks _ n).trans ⟨?_, fun mine => .inr ⟨rfl, mine⟩⟩
          rintro (old | ⟨_, mine⟩)
          -- nobody asked for this number before it was given
          · exact absurd (filled.quiet.lt_of_asks old) (Nat.lt_irrefl _)
          · exact mine
        case distinct => exact subscribed.ascending.imp Nat.ne_of_lt
      case new => exact fun c member => (filled.new c member).1
      case quiet => exact subscribed.quiet
      case grows => exact filled.grows.trans (grows_subscribed subscribed)
      case spares => exact filled.spares.trans_nothing filled.grows values
      case feeds =>
        refine ⟨c, found, filled.feeds.imp fun _ _ feeds => ?_⟩
        exact feeds.spares (grows_subscribed subscribed) values
      case owns =>
        intro cells others owns
        have held := filled.owns cells others owns
        have owns' := subscribed.owns _ _ ⟨held.handles, held.owners⟩
        rw [View.ownedCells_eq, View.ownedSubscriptions_eq, View.ownedCellsAll_eq,
          View.ownedSubscriptionsAll_eq]
        simpa [View.fresh, View.fields, View.provided, View.subscriptions, View.keyedChildren]
          using owns'

theorem instantiate_releases {fault : RenderFault}
    (failed : catalog.instantiate name site w = (.error fault, w')) :
    w'.Quiet ∧ w.Grows w' ∧ w.Spares [] w' ∧ w'.Owns held subscriptions := by
  unfold instantiate at failed
  split at failed
  · cases failed
    exact ⟨quiet, .refl w, .refl w [], owns⟩
  · split at failed
    next fault' middle filled =>
      cases failed
      exact Site.cells_releases owns sources (.begin quiet) filled
    · cases failed

end Catalog

end ReactiveView
