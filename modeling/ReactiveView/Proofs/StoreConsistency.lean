import Mathlib.Data.List.Basic
import ReactiveView.Reactive.Machine

/-!
# Consistent stores

The members of a group are the cells that name it, in the order of their numbers, and those of them
that live hold one value.  Most changes of a store touch neither: they only let cells fade
(`Store.Fades`).  The others make a cell, or pass one value to all living members of a group.
-/

namespace ReactiveView.Reactive

open List

namespace Store

variable {s s' : Store}

/-! ## Parts -/

def handles (s : Store) (c : CellId) : Nat := ((s.cells[c]?).map (·.handles)).getD 0

def registered (s : Store) (c : CellId) : List SubscriptionId :=
  ((s.cells[c]?).map (·.subscriptions)).getD []

def members (s : Store) (g : GroupId) : List CellId := ((s.groups[g]?).map (·.members)).getD []

def pending (s : Store) (g : GroupId) : List Json := ((s.groups[g]?).map (·.pending)).getD []

theorem isLive_iff {c : CellId} : s.isLive c = true ↔ 0 < s.handles c := by
  cases found : s.cells[c]? <;> simp [isLive, handles, found]

theorem lt_length_of_isLive {c : CellId} (live : s.isLive c = true) : c < s.cells.length := by
  by_contra outside
  simp [isLive, List.getElem?_eq_none (Nat.le_of_not_lt outside)] at live

theorem mem_liveMembers {c : CellId} {g : GroupId} :
    c ∈ s.liveMembers g ↔ c ∈ s.members g ∧ s.isLive c = true := mem_filter

theorem mem_liveSubscriptions {n : SubscriptionId} {c : CellId} :
    n ∈ s.liveSubscriptions c ↔ n ∈ s.registered c ∧ s.isOwned n = true := mem_filter

theorem dequeue?_eq (s : Store) (g : GroupId) :
    s.dequeue? g = match s.pending g with
      | [] => none
      | value :: rest => some (value, s.modifyGroup g fun group => { group with pending := rest }) :=
  rfl

/-! ## Changes of one cell or group -/

section

variable {c : CellId} {f : Cell → Cell} {g : GroupId} {h : Group → Group}

theorem map_cells_modifyCell {α : Type} {part : Cell → α} (kept : ∀ cell, part (f cell) = part cell)
    (d : CellId) :
    ((s.modifyCell c f).cells[d]?).map part = (s.cells[d]?).map part := by
  simp only [modifyCell, List.getElem?_modify, Option.map_eq_map, Option.map_map]
  congr 1
  funext cell
  by_cases same : c = d <;> simp [same, kept]

theorem map_groups_modifyGroup {α : Type} {part : Group → α}
    (kept : ∀ group, part (h group) = part group) (d : GroupId) :
    ((s.modifyGroup g h).groups[d]?).map part = (s.groups[d]?).map part := by
  simp only [modifyGroup, List.getElem?_modify, Option.map_eq_map, Option.map_map]
  congr 1
  funext group
  by_cases same : g = d <;> simp [same, kept]

theorem handles_modifyCell (d : CellId) :
    (s.modifyCell c f).handles d =
      if c = d then ((s.cells[d]?).map fun cell => (f cell).handles).getD 0 else s.handles d := by
  simp only [handles, modifyCell, List.getElem?_modify, Option.map_eq_map, Option.map_map]
  by_cases same : c = d <;> simp [same, Function.comp_def]

@[simp] theorem length_modifyCell : (s.modifyCell c f).cells.length = s.cells.length :=
  length_modify ..

@[simp] theorem length_modifyGroup : (s.modifyGroup g h).groups.length = s.groups.length :=
  length_modify ..

@[simp] theorem handles_retain (c d : CellId) :
    (s.retain c).handles d =
      if c = d ∧ d < s.cells.length then s.handles d + 1 else s.handles d := by
  rw [retain, handles_modifyCell]
  by_cases same : c = d
  · subst same
    by_cases inside : c < s.cells.length <;> simp [handles, inside]
  · simp [same]

@[simp] theorem handles_release (c d : CellId) :
    (s.release c).handles d = if c = d then s.handles d - 1 else s.handles d := by
  rw [release, handles_modifyCell]
  by_cases same : c = d
  · subst same
    cases found : s.cells[c]? <;> simp [handles, found]
  · simp [same]

end

/-! ## Fading -/

/-- Nothing but handles, subscriptions and waiting values differs, and no cell has come to life. -/
structure Fades (s s' : Store) : Prop where
  size : s'.cells.length = s.cells.length
  kind : ∀ c, s'.kind c = s.kind c
  group : ∀ c, s'.groupOf c = s.groupOf c
  value : ∀ c, s'.value c = s.value c
  groups : s'.groups.length = s.groups.length
  members : ∀ g, s'.members g = s.members g
  live : ∀ c, s'.isLive c = true → s.isLive c = true

namespace Fades

theorem refl (s : Store) : s.Fades s :=
  ⟨rfl, fun _ => rfl, fun _ => rfl, fun _ => rfl, rfl, fun _ => rfl, fun _ => id⟩

theorem trans {s'' : Store} (first : s.Fades s') (second : s'.Fades s'') : s.Fades s'' where
  size := second.size.trans first.size
  kind c := (second.kind c).trans (first.kind c)
  group c := (second.group c).trans (first.group c)
  value c := (second.value c).trans (first.value c)
  groups := second.groups.trans first.groups
  members g := (second.members g).trans (first.members g)
  live c := first.live c ∘ second.live c

theorem foldl {α : Type} {step : Store → α → Store} (each : ∀ s a, Fades s (step s a)) (s : Store)
    (items : List α) : Fades s (items.foldl step s) :=
  List.foldlRecOn _ _ (refl s) fun _ fades a _ => fades.trans (each _ a)

theorem modifyCell {c : CellId} {f : Cell → Cell} (kind : ∀ cell, (f cell).kind = cell.kind)
    (group : ∀ cell, (f cell).group = cell.group) (value : ∀ cell, (f cell).value = cell.value)
    (live : (s.modifyCell c f).isLive c = true → s.isLive c = true) :
    s.Fades (s.modifyCell c f) where
  size := length_modifyCell
  kind d := by simp only [Store.kind, map_cells_modifyCell kind]
  group d := by simp only [groupOf, map_cells_modifyCell group]
  value d := by simp only [Store.value, map_cells_modifyCell value]
  groups := rfl
  members _ := rfl
  live d alive := by
    by_cases same : c = d
    · subst same
      exact live alive
    · rwa [isLive_iff, handles_modifyCell, if_neg same, ← isLive_iff] at alive

theorem modifyGroup {g : GroupId} {h : Group → Group}
    (members : ∀ group, (h group).members = group.members) : s.Fades (s.modifyGroup g h) where
  size := rfl
  kind _ := rfl
  group _ := rfl
  value _ := rfl
  groups := length_modifyGroup
  members d := by simp only [Store.members, map_groups_modifyGroup members]
  live _ := id

theorem retain {c : CellId} (live : s.isLive c = true) : s.Fades (s.retain c) :=
  .modifyCell (fun _ => rfl) (fun _ => rfl) (fun _ => rfl) fun _ => live

theorem release (s : Store) (c : CellId) : s.Fades (s.release c) := by
  refine .modifyCell (fun _ => rfl) (fun _ => rfl) (fun _ => rfl) fun live => ?_
  rw [isLive_iff] at live ⊢
  have fewer := handles_release (s := s) c c
  rw [if_pos rfl] at fewer
  change 0 < (s.release c).handles c at live
  omega

theorem owners (s : Store) (counts : List Nat) : s.Fades { s with owners := counts } :=
  ⟨rfl, fun _ => rfl, fun _ => rfl, fun _ => rfl, rfl, fun _ => rfl, fun _ => id⟩

theorem hold (s : Store) (n : SubscriptionId) : s.Fades (s.hold n) := owners s _

theorem unsubscribe (s : Store) (n : SubscriptionId) : s.Fades (s.unsubscribe n) := owners s _

theorem subscribe (s : Store) (c : CellId) : s.Fades (s.subscribe c) := by
  have registered : s.Fades (s.modifyCell c fun cell =>
      { cell with subscriptions := cell.subscriptions ++ [s.nextSubscription] }) := by
    refine .modifyCell (fun _ => rfl) (fun _ => rfl) (fun _ => rfl) fun live => ?_
    rw [isLive_iff, handles_modifyCell, if_pos rfl] at live
    exact isLive_iff.mpr live
  exact registered.trans (owners _ _)

theorem enqueue (s : Store) (g : GroupId) (value : Json) : s.Fades (s.enqueue g value) :=
  .modifyGroup fun _ => rfl

theorem setPropagating (s : Store) (g : GroupId) (b : Bool) : s.Fades (s.setPropagating g b) :=
  .modifyGroup fun _ => rfl

/-- Cells that live stay alive when they are held, and the others stay dead. -/
theorem retainAll {cells : List CellId} (live : ∀ c ∈ cells, s.isLive c = true) :
    s.Fades (cells.foldl Store.retain s) := by
  induction cells generalizing s with
  | nil => exact refl s
  | cons c cells ih =>
    rw [forall_mem_cons] at live
    refine (retain live.1).trans (ih fun d member => ?_)
    have held := handles_retain (s := s) c d
    have before := isLive_iff.mp (live.2 d member)
    rw [isLive_iff, held]
    split <;> omega

end Fades

/-! ## Consistency -/

structure Consistent (s : Store) : Prop where
  members : ∀ g < s.groups.length,
    s.members g = (List.range s.cells.length).filter (s.groupOf · = g)
  group : ∀ c < s.cells.length, s.groupOf c < s.groups.length
  agree : ∀ a b, s.isLive a = true → s.isLive b = true → s.groupOf a = s.groupOf b →
    s.value a = s.value b

namespace Consistent

theorem empty : Consistent {} := by
  constructor
  · intro g inside
    cases inside
  · intro c inside
    cases inside
  · intro a b live
    simp [isLive] at live

theorem mem_members (consistent : s.Consistent) {c : CellId} {g : GroupId} :
    c ∈ s.members g ↔ c < s.cells.length ∧ s.groupOf c = g := by
  by_cases inside : g < s.groups.length
  · simp [consistent.members g inside]
  · have none : s.members g = [] := by
      simp [Store.members, List.getElem?_eq_none (Nat.le_of_not_lt inside)]
    have other : c < s.cells.length → s.groupOf c ≠ g := fun isCell same =>
      inside (same ▸ consistent.group c isCell)
    simp only [none, not_mem_nil, false_iff, not_and]
    exact other

theorem mem_liveMembers (consistent : s.Consistent) {c : CellId} {g : GroupId} :
    c ∈ s.liveMembers g ↔ s.isLive c = true ∧ s.groupOf c = g := by
  rw [Store.mem_liveMembers, consistent.mem_members]
  constructor
  · rintro ⟨⟨_, group⟩, live⟩
    exact ⟨live, group⟩
  · rintro ⟨live, group⟩
    exact ⟨⟨lt_length_of_isLive live, group⟩, live⟩

theorem pairwise_liveMembers (consistent : s.Consistent) (g : GroupId) :
    (s.liveMembers g).Pairwise (· < ·) := by
  by_cases inside : g < s.groups.length
  · change ((s.members g).filter s.isLive).Pairwise (· < ·)
    rw [consistent.members g inside]
    exact (pairwise_lt_range.filter _).filter _
  · simp [liveMembers, List.getElem?_eq_none (Nat.le_of_not_lt inside)]

theorem fades (consistent : s.Consistent) (fades : s.Fades s') : s'.Consistent where
  members g inside := by
    rw [fades.groups] at inside
    rw [fades.members, fades.size, consistent.members g inside]
    simp only [fades.group]
  group c inside := by
    rw [fades.size] at inside
    rw [fades.group, fades.groups]
    exact consistent.group c inside
  agree a b liveA liveB same := by
    rw [fades.group, fades.group] at same
    rw [fades.value, fades.value]
    exact consistent.agree a b (fades.live a liveA) (fades.live b liveB) same

end Consistent

/-! ## New cells -/

section

variable {cell : Cell}

theorem getElem?_cells_old (added : s'.cells = s.cells ++ [cell]) {c : CellId}
    (old : c ≠ s.nextCell) : s'.cells[c]? = s.cells[c]? := by
  rw [added, List.getElem?_append]
  split
  · rfl
  next outside =>
    have past : s.cells.length < c := Nat.lt_of_le_of_ne (Nat.le_of_not_lt outside) (Ne.symm old)
    rw [List.getElem?_eq_none (Nat.le_of_lt past), List.getElem?_eq_none]
    exact Nat.le_sub_of_add_le' past

theorem getElem?_cells_new (added : s'.cells = s.cells ++ [cell]) :
    s'.cells[s.nextCell]? = some cell := by
  simp [added, nextCell]

/-- A cell that joins a group, old or new, with the value that the living members have. -/
theorem Consistent.add (consistent : s.Consistent) (added : s'.cells = s.cells ++ [cell])
    (groups : s.groups.length ≤ s'.groups.length) (known : cell.group < s'.groups.length)
    (joins : ∀ g < s'.groups.length,
      s'.members g = s.members g ++ if cell.group = g then [s.nextCell] else [])
    (agrees : ∀ c, s.isLive c = true → s.groupOf c = cell.group → s.value c = cell.value) :
    s'.Consistent := by
  have size : s'.cells.length = s.cells.length + 1 := by simp [added]
  have newGroup : s'.groupOf s.nextCell = cell.group := by
    simp [groupOf, getElem?_cells_new added]
  have oldGroup {c : CellId} (old : c ≠ s.nextCell) : s'.groupOf c = s.groupOf c := by
    simp [groupOf, getElem?_cells_old added old]
  have oldLive {c : CellId} (old : c ≠ s.nextCell) : s'.isLive c = s.isLive c := by
    simp [isLive, getElem?_cells_old added old]
  have oldValue {c : CellId} (old : c ≠ s.nextCell) : s'.value c = s.value c := by
    simp [value, getElem?_cells_old added old]
  have newValue : s'.value s.nextCell = cell.value := by simp [value, getElem?_cells_new added]
  -- the old cells of a group are its members, also of a group that is new and has none
  have before : ∀ g, s.members g =
      (List.range s.cells.length).filter (s'.groupOf · = g) := by
    intro g
    have same : (List.range s.cells.length).filter (s'.groupOf · = g) =
        (List.range s.cells.length).filter (s.groupOf · = g) := by
      refine filter_congr fun c member => ?_
      have inside := mem_range.mp member
      rw [oldGroup (Nat.ne_of_lt inside)]
    rw [same]
    by_cases inside : g < s.groups.length
    · exact consistent.members g inside
    · have none : s.members g = [] := by
        simp [Store.members, List.getElem?_eq_none (Nat.le_of_not_lt inside)]
      rw [none, eq_comm, filter_eq_nil_iff]
      intro c member
      have isGroup := consistent.group c (mem_range.mp member)
      simp only [decide_eq_true_eq]
      exact fun same => inside (same ▸ isGroup)
  constructor
  · intro g inside
    rw [joins g inside, size, range_succ, filter_append, ← before g]
    congr 1
    change _ = [s.nextCell].filter _
    by_cases same : cell.group = g <;> simp [newGroup, same]
  · intro c inside
    by_cases new : c = s.nextCell
    · rw [new, newGroup]
      exact known
    · rw [oldGroup new]
      rw [size] at inside
      have old : c < s.cells.length := Nat.lt_of_le_of_ne (Nat.le_of_lt_succ inside) new
      exact Nat.lt_of_lt_of_le (consistent.group c old) groups
  · intro a b liveA liveB same
    by_cases newA : a = s.nextCell <;> by_cases newB : b = s.nextCell
    · rw [newA, newB]
    · rw [newA, newGroup, oldGroup newB] at same
      rw [newA, newValue, oldValue newB]
      exact (agrees b (oldLive newB ▸ liveB) same.symm).symm
    · rw [newB, newGroup, oldGroup newA] at same
      rw [newB, newValue, oldValue newA]
      exact agrees a (oldLive newA ▸ liveA) same
    · rw [oldGroup newA, oldGroup newB] at same
      rw [oldValue newA, oldValue newB]
      exact consistent.agree a b (oldLive newA ▸ liveA) (oldLive newB ▸ liveB) same

end

theorem Consistent.create (consistent : s.Consistent) (kind : CellKind) (value : Json) :
    (s.create kind value).Consistent := by
  refine consistent.add rfl (by simp [Store.create]) (by simp [Store.create]) ?_ ?_
  · intro g inside
    simp only [Store.create, length_append, length_singleton] at inside
    simp only [Store.members, Store.create, List.getElem?_append]
    by_cases old : g < s.groups.length
    · simp [old, Nat.ne_of_gt old]
    · have new : g = s.groups.length := by omega
      simp [new]
  · intro c live group
    have isGroup := consistent.group c (lt_length_of_isLive live)
    exact absurd group (Nat.ne_of_lt isGroup)

theorem Consistent.link (consistent : s.Consistent) {source : CellId}
    (live : s.isLive source = true) (kind : CellKind) : (s.link source kind).Consistent := by
  have known := consistent.group source (lt_length_of_isLive live)
  refine consistent.add rfl (Nat.le_of_eq length_modifyGroup.symm) ?_ ?_ ?_
  · exact Nat.lt_of_lt_of_eq known length_modifyGroup.symm
  · intro g inside
    have old : g < s.groups.length := Nat.lt_of_lt_of_eq inside length_modifyGroup
    simp only [Store.members, Store.link, modifyGroup, List.getElem?_modify]
    by_cases same : s.groupOf source = g <;> simp [same, old]
  · intro c liveC group
    exact consistent.agree c source liveC live group

/-! ## Members that live -/

theorem liveMembers_of_isLive {g : GroupId} (members : s'.members g = s.members g)
    (live : ∀ c, s'.isLive c = s.isLive c) : s'.liveMembers g = s.liveMembers g := by
  change (s'.members g).filter _ = (s.members g).filter _
  rw [members]
  exact filter_congr fun c _ => live c

theorem liveMembers_retain {c : CellId} (live : s.isLive c = true) (g h : GroupId)
    (b : Bool) : ((s.retain c).setPropagating h b).liveMembers g = s.liveMembers g := by
  have fades := (Fades.retain live).trans (Fades.setPropagating (s.retain c) h b)
  refine liveMembers_of_isLive (fades.members g) fun d => ?_
  rw [Bool.eq_iff_iff]
  refine ⟨fades.live d, fun alive => ?_⟩
  change (s.retain c).isLive d = true
  rw [isLive_iff] at alive ⊢
  rw [handles_retain]
  split <;> omega

theorem liveMembers_modifyGroup (g h : GroupId) (values : List Json) :
    (s.modifyGroup h fun group => { group with pending := values }).liveMembers g =
      s.liveMembers g := by
  have fades : s.Fades (s.modifyGroup h fun group => { group with pending := values }) :=
    .modifyGroup fun _ => rfl
  exact liveMembers_of_isLive (fades.members g) fun _ => rfl

/-! ## Assignment -/

theorem map_cells_assign {α : Type} {part : Cell → α} {value : Json} {cells : List CellId}
    (kept : ∀ cell : Cell, part { cell with value } = part cell) (d : CellId) :
    ((s.assign value cells).cells[d]?).map part = (s.cells[d]?).map part := by
  induction cells generalizing s with
  | nil => rfl
  | cons c cells ih => exact ih.trans (map_cells_modifyCell kept d)

theorem groups_assign (s : Store) (value : Json) (cells : List CellId) :
    (s.assign value cells).groups = s.groups := by
  induction cells generalizing s with
  | nil => rfl
  | cons c cells ih => exact ih _

theorem owners_assign (s : Store) (value : Json) (cells : List CellId) :
    (s.assign value cells).owners = s.owners := by
  induction cells generalizing s with
  | nil => rfl
  | cons c cells ih => exact ih _

@[simp] theorem length_assign (s : Store) (value : Json) (cells : List CellId) :
    (s.assign value cells).cells.length = s.cells.length := by
  induction cells generalizing s with
  | nil => rfl
  | cons c cells ih => exact (ih _).trans length_modifyCell

theorem groupOf_assign (value : Json) (cells : List CellId) (c : CellId) :
    (s.assign value cells).groupOf c = s.groupOf c := by
  simp only [groupOf]
  rw [map_cells_assign fun _ => rfl]

theorem kind_assign (value : Json) (cells : List CellId) (c : CellId) :
    (s.assign value cells).kind c = s.kind c := by
  simp only [kind]
  rw [map_cells_assign fun _ => rfl]

theorem handles_assign (value : Json) (cells : List CellId) (c : CellId) :
    (s.assign value cells).handles c = s.handles c := by
  simp only [handles]
  rw [map_cells_assign fun _ => rfl]

theorem isLive_assign (value : Json) (cells : List CellId) (c : CellId) :
    (s.assign value cells).isLive c = s.isLive c := by
  rw [Bool.eq_iff_iff, isLive_iff, isLive_iff, handles_assign]

theorem value_assign (value : Json) (cells : List CellId) (c : CellId) :
    (s.assign value cells).value c =
      if c ∈ cells ∧ c < s.cells.length then value else s.value c := by
  induction cells generalizing s with
  | nil => simp [assign]
  | cons d cells ih =>
    change ((s.modifyCell d fun cell => { cell with value }).assign value cells).value c = _
    rw [ih, length_modifyCell]
    have one : (s.modifyCell d fun cell => { cell with value }).value c =
        if d = c ∧ c < s.cells.length then value else s.value c := by
      simp only [Store.value, modifyCell, List.getElem?_modify]
      by_cases same : d = c
      · subst same
        by_cases inside : d < s.cells.length <;> simp [inside]
      · simp [same]
    rw [one]
    by_cases same : d = c
    · subst same
      by_cases inside : d < s.cells.length <;> simp [inside]
    · simp [same, Ne.symm same]

theorem Consistent.assign (consistent : s.Consistent) (g : GroupId) (value : Json) :
    (s.assign value (s.liveMembers g)).Consistent where
  members d inside := by
    rw [groups_assign] at inside
    rw [length_assign]
    simp only [Store.members, groups_assign, groupOf_assign]
    exact consistent.members d inside
  group c inside := by
    rw [length_assign] at inside
    rw [groupOf_assign, groups_assign]
    exact consistent.group c inside
  agree a b liveA liveB same := by
    rw [isLive_assign] at liveA liveB
    rw [groupOf_assign, groupOf_assign] at same
    simp only [value_assign, consistent.mem_liveMembers, liveA, liveB, lt_length_of_isLive liveA,
      lt_length_of_isLive liveB, same, true_and, and_true]
    split
    · rfl
    · exact consistent.agree a b liveA liveB same

/-! ## Registration -/

/-- Every subscription is registered at one cell, in the order of its number. -/
structure Enrolled (s : Store) : Prop where
  ascending : ∀ c, (s.registered c).Pairwise (· < ·)
  known : ∀ c, ∀ n ∈ s.registered c, n < s.owners.length
  apart : ∀ a b n, n ∈ s.registered a → n ∈ s.registered b → a = b

structure SameRegistry (s s' : Store) : Prop where
  registered : ∀ c, s'.registered c = s.registered c
  owners : s'.owners.length = s.owners.length

namespace SameRegistry

theorem refl (s : Store) : s.SameRegistry s := ⟨fun _ => rfl, rfl⟩

theorem trans {s'' : Store} (first : s.SameRegistry s') (second : s'.SameRegistry s'') :
    s.SameRegistry s'' :=
  ⟨fun c => (second.registered c).trans (first.registered c), second.owners.trans first.owners⟩

theorem foldl {α : Type} {step : Store → α → Store} (each : ∀ s a, SameRegistry s (step s a))
    (s : Store) (items : List α) : SameRegistry s (items.foldl step s) :=
  List.foldlRecOn _ _ (refl s) fun _ same a _ => same.trans (each _ a)

theorem modifyCell {c : CellId} {f : Cell → Cell}
    (kept : ∀ cell, (f cell).subscriptions = cell.subscriptions) :
    s.SameRegistry (s.modifyCell c f) :=
  ⟨fun d => by simp only [Store.registered, map_cells_modifyCell kept], rfl⟩

theorem retain (s : Store) (c : CellId) : s.SameRegistry (s.retain c) := modifyCell fun _ => rfl

theorem release (s : Store) (c : CellId) : s.SameRegistry (s.release c) := modifyCell fun _ => rfl

theorem modifyGroup (s : Store) (g : GroupId) (h : Group → Group) :
    s.SameRegistry (s.modifyGroup g h) := ⟨fun _ => rfl, rfl⟩

theorem hold (s : Store) (n : SubscriptionId) : s.SameRegistry (s.hold n) :=
  ⟨fun _ => rfl, length_modify ..⟩

theorem unsubscribe (s : Store) (n : SubscriptionId) : s.SameRegistry (s.unsubscribe n) :=
  ⟨fun _ => rfl, length_modify ..⟩

theorem assign (s : Store) (value : Json) (cells : List CellId) :
    s.SameRegistry (s.assign value cells) := by
  refine ⟨fun c => ?_, congrArg _ (owners_assign s value cells)⟩
  simp only [Store.registered]
  rw [map_cells_assign fun _ => rfl]

theorem add {cell : Cell} (added : s'.cells = s.cells ++ [cell]) (fresh : cell.subscriptions = [])
    (owners : s'.owners = s.owners) : s.SameRegistry s' := by
  refine ⟨fun c => ?_, congrArg _ owners⟩
  by_cases new : c = s.nextCell
  · subst new
    have none : s.cells[s.nextCell]? = none := List.getElem?_eq_none (Nat.le_refl _)
    simp [Store.registered, getElem?_cells_new added, none, fresh]
  · simp only [Store.registered, getElem?_cells_old added new]

theorem create (s : Store) (kind : CellKind) (value : Json) :
    s.SameRegistry (s.create kind value) := add rfl rfl rfl

theorem link (s : Store) (source : CellId) (kind : CellKind) :
    s.SameRegistry (s.link source kind) := add rfl rfl rfl

end SameRegistry

theorem registered_subscribe (c d : CellId) :
    (s.subscribe c).registered d = if c = d ∧ d < s.cells.length
      then s.registered d ++ [s.nextSubscription] else s.registered d := by
  simp only [registered, subscribe, modifyCell, List.getElem?_modify]
  by_cases same : c = d
  · subst same
    by_cases inside : c < s.cells.length <;> simp [inside]
  · simp [same]

namespace Enrolled

theorem empty : Enrolled {} := by
  constructor <;> simp [registered]

theorem sameRegistry (enrolled : s.Enrolled) (same : s.SameRegistry s') : s'.Enrolled where
  ascending c := same.registered c ▸ enrolled.ascending c
  known c n member := by
    rw [same.registered] at member
    exact same.owners ▸ enrolled.known c n member
  apart a b n atA atB := by
    rw [same.registered] at atA atB
    exact enrolled.apart a b n atA atB

theorem subscribe (enrolled : s.Enrolled) (c : CellId) : (s.subscribe c).Enrolled := by
  have more : (s.subscribe c).owners.length = s.owners.length + 1 := by simp [Store.subscribe]
  -- the new number is above all others, and stands at its cell only
  have cases {d : CellId} {n : SubscriptionId} (member : n ∈ (s.subscribe c).registered d) :
      n ∈ s.registered d ∨ n = s.nextSubscription ∧ c = d := by
    rw [registered_subscribe] at member
    split at member
    next new =>
      rcases mem_append.mp member with old | last
      · exact .inl old
      · exact .inr ⟨mem_singleton.mp last, new.1⟩
    · exact .inl member
  have fresh {d : CellId} : s.nextSubscription ∉ s.registered d := fun member =>
    Nat.lt_irrefl _ (enrolled.known d _ member)
  constructor
  · intro d
    rw [registered_subscribe]
    split
    · refine pairwise_append.mpr ⟨enrolled.ascending d, pairwise_singleton _ _, ?_⟩
      intro n member last isLast
      rw [mem_singleton.mp isLast]
      exact enrolled.known d n member
    · exact enrolled.ascending d
  · intro d n member
    rw [more]
    rcases cases member with old | ⟨rfl, _⟩
    · exact Nat.lt_succ_of_lt (enrolled.known d n old)
    · exact Nat.lt_succ_self _
  · intro a b n atA atB
    rcases cases atA with oldA | ⟨rfl, sameA⟩
    · rcases cases atB with oldB | ⟨rfl, _⟩
      · exact enrolled.apart a b n oldA oldB
      · exact absurd oldA fresh
    · rcases cases atB with oldB | ⟨_, sameB⟩
      · exact absurd oldB fresh
      · exact sameA.symm.trans sameB

end Enrolled

/-! ## Growth -/

/-- What is known of a cell when it is made never changes, and subscriptions are only added. -/
structure Grows (s s' : Store) : Prop where
  size : s.cells.length ≤ s'.cells.length
  kind : ∀ c < s.cells.length, s'.kind c = s.kind c
  group : ∀ c < s.cells.length, s'.groupOf c = s.groupOf c
  registered : ∀ c < s.cells.length, s.registered c <+: s'.registered c
  owners : s.owners.length ≤ s'.owners.length
  groups : s.groups.length ≤ s'.groups.length

namespace Grows

theorem refl (s : Store) : s.Grows s :=
  ⟨Nat.le_refl _, fun _ _ => rfl, fun _ _ => rfl, fun _ _ => prefix_rfl, Nat.le_refl _,
    Nat.le_refl _⟩

theorem trans {s'' : Store} (first : s.Grows s') (second : s'.Grows s'') : s.Grows s'' where
  size := Nat.le_trans first.size second.size
  kind c inside := (second.kind c (Nat.lt_of_lt_of_le inside first.size)).trans (first.kind c inside)
  group c inside :=
    (second.group c (Nat.lt_of_lt_of_le inside first.size)).trans (first.group c inside)
  registered c inside := (first.registered c inside).trans
    (second.registered c (Nat.lt_of_lt_of_le inside first.size))
  owners := Nat.le_trans first.owners second.owners
  groups := Nat.le_trans first.groups second.groups

theorem fades (fades : s.Fades s') (same : s.SameRegistry s') : s.Grows s' where
  size := Nat.le_of_eq fades.size.symm
  kind c _ := fades.kind c
  group c _ := fades.group c
  registered c _ := same.registered c ▸ prefix_rfl
  owners := Nat.le_of_eq same.owners.symm
  groups := Nat.le_of_eq fades.groups.symm

theorem subscribe (s : Store) (c : CellId) : s.Grows (s.subscribe c) where
  size := Nat.le_of_eq (Fades.subscribe s c).size.symm
  kind d _ := (Fades.subscribe s c).kind d
  group d _ := (Fades.subscribe s c).group d
  registered d _ := by
    rw [registered_subscribe]
    split
    · exact prefix_append _ _
    · exact prefix_rfl
  owners := by simp [Store.subscribe]
  groups := Nat.le_refl _

theorem assign (s : Store) (value : Json) (cells : List CellId) :
    s.Grows (s.assign value cells) where
  size := Nat.le_of_eq (length_assign s value cells).symm
  kind c _ := kind_assign value cells c
  group c _ := groupOf_assign value cells c
  registered c _ := (SameRegistry.assign s value cells).registered c ▸ prefix_rfl
  owners := Nat.le_of_eq (congrArg _ (owners_assign s value cells).symm)
  groups := Nat.le_of_eq (congrArg _ (groups_assign s value cells).symm)

theorem add {cell : Cell} (added : s'.cells = s.cells ++ [cell]) (same : s.SameRegistry s')
    (groups : s.groups.length ≤ s'.groups.length) : s.Grows s' where
  size := by simp [added]
  kind c inside := by simp only [Store.kind, getElem?_cells_old added (Nat.ne_of_lt inside)]
  group c inside := by simp only [groupOf, getElem?_cells_old added (Nat.ne_of_lt inside)]
  registered c _ := same.registered c ▸ prefix_rfl
  owners := Nat.le_of_eq same.owners.symm
  groups := groups

theorem create (s : Store) (kind : CellKind) (value : Json) : s.Grows (s.create kind value) :=
  add rfl (.create s kind value) (by simp [Store.create])

theorem link (s : Store) (source : CellId) (kind : CellKind) : s.Grows (s.link source kind) :=
  add rfl (.link s source kind) (by simp [Store.link, length_modifyGroup])

end Grows

end Store

end ReactiveView.Reactive
