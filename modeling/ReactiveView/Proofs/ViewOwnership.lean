import ReactiveView.Proofs.QuietWrites
import ReactiveView.View.Instance

/-!
# Ownership of cells and subscriptions

Views hold handles on cells and own subscriptions.  What some holders have is a list of cells and a
list of subscriptions, with repetitions, and a world owns them (`World.Owns`) if it has counted as
many.  Making, holding and dropping change the lists and the counts alike, so a cell that is in the
lists lives, whatever else has been dropped.
-/

namespace ReactiveView

open List
open Reactive (CellId GroupId SubscriptionId Store)

namespace Reactive.Store

variable {s : Store}

theorem handles_releaseAll (given : List CellId) (c : CellId) :
    (given.foldl release s).handles c = s.handles c - given.count c := by
  induction given generalizing s with
  | nil => simp
  | cons d given ih =>
    rw [foldl_cons, ih, handles_release, count_cons]
    by_cases same : d = c
    · simp [same, Nat.sub_sub, Nat.add_comm]
    · simp [same]

theorem owners_releaseAll (given : List CellId) :
    (given.foldl release s).owners = s.owners := by
  induction given generalizing s with
  | nil => rfl
  | cons c given ih => exact ih (s := s.release c)

theorem cells_unsubscribeAll (given : List SubscriptionId) :
    (given.foldl unsubscribe s).cells = s.cells := by
  induction given generalizing s with
  | nil => rfl
  | cons n given ih => exact ih (s := s.unsubscribe n)

theorem owners_unsubscribeAll (given : List SubscriptionId) (n : SubscriptionId) :
    (given.foldl unsubscribe s).owners.getD n 0 = s.owners.getD n 0 - given.count n := by
  induction given generalizing s with
  | nil => simp
  | cons m given ih =>
    have one : (s.unsubscribe m).owners.getD n 0 =
        if m = n then s.owners.getD n 0 - 1 else s.owners.getD n 0 := by
      simp only [unsubscribe, getD_eq_getElem?_getD, List.getElem?_modify]
      cases s.owners[n]? <;> by_cases same : m = n <;> simp [same]
    rw [foldl_cons, ih, one, count_cons]
    by_cases same : m = n
    · simp [same, Nat.sub_sub, Nat.add_comm]
    · simp [same]

theorem handles_subscribe (c d : CellId) : (s.subscribe c).handles d = s.handles d := by
  simp only [handles, subscribe, modifyCell, List.getElem?_modify]
  cases s.cells[d]? <;> by_cases same : c = d <;> simp [same]

end Reactive.Store

namespace World

variable {w w' : World} {cells : List CellId} {subscriptions : List SubscriptionId}

/-! ## Counts -/

/-- At least as many handles and owners are counted as the lists have. -/
structure Owns (w : World) (cells : List CellId) (subscriptions : List SubscriptionId) : Prop where
  handles : ∀ c, cells.count c ≤ w.store.handles c
  owners : ∀ n, subscriptions.count n ≤ w.store.owners.getD n 0

namespace Owns

theorem nothing (w : World) : w.Owns [] [] := ⟨fun _ => Nat.zero_le _, fun _ => Nat.zero_le _⟩

section

variable (owns : w.Owns cells subscriptions)
include owns

theorem isLive {c : CellId} (member : c ∈ cells) : w.store.isLive c = true :=
  Store.isLive_iff.mpr (Nat.lt_of_lt_of_le (count_pos_iff.mpr member) (owns.handles c))

theorem isOwned {n : SubscriptionId} (member : n ∈ subscriptions) : w.store.isOwned n = true := by
  have some := Nat.lt_of_lt_of_le (count_pos_iff.mpr member) (owns.owners n)
  rw [getD_eq_getElem?_getD] at some
  cases found : w.store.owners[n]? with
  | none => simp [found] at some
  | some count => simpa [Store.isOwned, found] using some

/-- Only how often something is in a list matters, and a list may be shortened. -/
theorem mono {cells' : List CellId} {subscriptions' : List SubscriptionId}
    (fewer : ∀ c, cells'.count c ≤ cells.count c)
    (fewer' : ∀ n, subscriptions'.count n ≤ subscriptions.count n) :
    w.Owns cells' subscriptions' :=
  ⟨fun c => Nat.le_trans (fewer c) (owns.handles c),
    fun n => Nat.le_trans (fewer' n) (owns.owners n)⟩

theorem perm {cells' : List CellId} {subscriptions' : List SubscriptionId}
    (same : cells.Perm cells')
    (same' : subscriptions.Perm subscriptions') : w.Owns cells' subscriptions' :=
  owns.mono (fun c => Nat.le_of_eq (same.count_eq c).symm)
    fun n => Nat.le_of_eq (same'.count_eq n).symm

theorem of_counts (handles : ∀ c, w.store.handles c ≤ w'.store.handles c)
    (owners : ∀ n, w.store.owners.getD n 0 ≤ w'.store.owners.getD n 0) :
    w'.Owns cells subscriptions :=
  ⟨fun c => Nat.le_trans (owns.handles c) (handles c),
    fun n => Nat.le_trans (owns.owners n) (owners n)⟩

theorem add {cell : Reactive.Cell} (added : w'.store.cells = w.store.cells ++ [cell])
    (held : cell.handles = 1) (owners : w'.store.owners = w.store.owners) :
    w'.Owns (w.store.nextCell :: cells) subscriptions := by
  refine ⟨fun c => ?_, owners ▸ owns.owners⟩
  have counted := owns.handles c
  rw [count_cons]
  by_cases new : c = w.store.nextCell
  · subst new
    have none : w.store.handles w.store.nextCell = 0 := by
      simp [Store.handles, Store.nextCell]
    simp only [Store.handles, Store.getElem?_cells_new added, Option.map_some, Option.getD_some,
      held, beq_self_eq_true, if_true]
    omega
  · have same : w'.store.handles c = w.store.handles c := by
      simp only [Store.handles, Store.getElem?_cells_old added new]
    have other : (w.store.nextCell == c) = false := beq_false_of_ne (Ne.symm new)
    simp only [other, Bool.false_eq_true, if_false]
    omega

theorem retain {c : CellId} (inside : c < w.store.cells.length) :
    (w.onStore (·.retain c)).Owns (c :: cells) subscriptions := by
  refine ⟨fun d => ?_, owns.owners⟩
  have counted := owns.handles d
  have more := Store.handles_retain (s := w.store) c d
  change _ ≤ (w.store.retain c).handles d
  rw [more, count_cons]
  by_cases same : c = d
  · subst same
    simp [inside, counted]
  · simp [same, counted]

theorem subscribe (c : CellId) (listener : Listener) :
    (w.subscribe c listener).2.Owns cells (w.store.nextSubscription :: subscriptions) := by
  refine ⟨fun d => ?_, fun n => ?_⟩
  · change _ ≤ (w.store.subscribe c).handles d
    rw [Store.handles_subscribe]
    exact owns.handles d
  · have counted := owns.owners n
    change _ ≤ (w.store.owners ++ [1]).getD n 0
    rw [count_cons]
    by_cases new : n = w.store.nextSubscription
    · subst new
      have none : w.store.owners.getD w.store.nextSubscription 0 = 0 := by
        simp [Store.nextSubscription]
      have one : (w.store.owners ++ [1]).getD w.store.nextSubscription 0 = 1 := by
        simp [Store.nextSubscription]
      rw [one, beq_self_eq_true, if_pos rfl]
      omega
    · have other : (w.store.nextSubscription == n) = false := beq_false_of_ne (Ne.symm new)
      have more : w.store.owners.getD n 0 ≤ (w.store.owners ++ [1]).getD n 0 := by
        by_cases inside : n < w.store.owners.length
        · simp [List.getElem?_append_left inside]
        · simp [List.getElem?_eq_none (Nat.le_of_not_lt inside)]
      rw [other, if_neg Bool.false_ne_true]
      omega

end

theorem releaseAll {given : List CellId} (owns : w.Owns (given ++ cells) subscriptions) :
    (w.releaseAll given).Owns cells subscriptions := by
  refine ⟨fun c => ?_, fun n => ?_⟩
  · have counted := owns.handles c
    change _ ≤ (given.foldl Store.release w.store).handles c
    rw [Store.handles_releaseAll]
    rw [count_append] at counted
    omega
  · change _ ≤ (given.foldl Store.release w.store).owners.getD n 0
    rw [Store.owners_releaseAll]
    exact owns.owners n

theorem unsubscribeAll {given : List SubscriptionId}
    (owns : w.Owns cells (given ++ subscriptions)) :
    (w.unsubscribeAll given).Owns cells subscriptions := by
  refine ⟨fun c => ?_, fun n => ?_⟩
  · change _ ≤ (given.foldl Store.unsubscribe w.store).handles c
    rw [Store.handles, Store.cells_unsubscribeAll]
    exact owns.handles c
  · have counted := owns.owners n
    change _ ≤ (given.foldl Store.unsubscribe w.store).owners.getD n 0
    rw [Store.owners_unsubscribeAll]
    rw [count_append] at counted
    omega

/-- What views and their children have is given back when the views are dropped. -/
theorem dropAll {views : List (String × View)}
    (owns : w.Owns (View.ownedCellsAll views ++ cells)
      (View.ownedSubscriptionsAll views ++ subscriptions)) :
    (w.dropAll views).Owns cells subscriptions := owns.unsubscribeAll.releaseAll

end Owns

/-! ## Growth -/

/-- What is known of cells and listeners when they are made never changes, and no new listener asks
    for an old view. -/
structure Grows (w w' : World) : Prop where
  store : w.store.Grows w'.store
  entries : w.listeners.entries <+: w'.listeners.entries
  requests : w.listeners.requests.length ≤ w'.listeners.requests.length
  fresh : ∀ view < w.listeners.requests.length, ∀ n, w'.listeners.asks view n = true →
    w.listeners.asks view n = true

namespace Grows

theorem refl (w : World) : w.Grows w :=
  ⟨.refl _, prefix_rfl, Nat.le_refl _, fun _ _ _ => id⟩

theorem trans {w'' : World} (first : w.Grows w') (second : w'.Grows w'') : w.Grows w'' where
  store := first.store.trans second.store
  entries := first.entries.trans second.entries
  requests := Nat.le_trans first.requests second.requests
  fresh view known n asks := first.fresh view known n
    (second.fresh view (Nat.lt_of_lt_of_le known first.requests) n asks)

theorem onStore {change : Store → Store} (grows : w.store.Grows (change w.store)) :
    w.Grows (w.onStore change) := ⟨grows, prefix_rfl, Nat.le_refl _, fun _ _ _ => id⟩

theorem asks (grows : w.Grows w') {view : Nat} {n : SubscriptionId}
    (asks : w.listeners.asks view n = true) : w'.listeners.asks view n = true := by
  cases entry : w.listeners.entries[n]? with
  | none => simp [Listeners.asks, entry] at asks
  | some listener =>
    obtain ⟨later, same⟩ := grows.entries
    have kept : w'.listeners.entries[n]? = some listener := by
      rw [← same, List.getElem?_append_left (List.getElem?_eq_some_iff.mp entry).1, entry]
    simpa only [Listeners.asks, entry, kept] using asks

end Grows

theorem grows_create (w : World) (kind : CellKind) (value : Json) :
    w.Grows (w.create kind value).2 := by
  change w.Grows (w.onStore (·.create kind value))
  exact .onStore (.create w.store kind value)

theorem grows_link (w : World) (source : CellId) (kind : CellKind) :
    w.Grows (w.link source kind).2 := by
  change w.Grows (w.onStore (·.link source kind))
  exact .onStore (.link w.store source kind)

theorem grows_releaseAll (w : World) (given : List CellId) : w.Grows (w.releaseAll given) :=
  .onStore (.fades (.foldl Store.Fades.release _ _) (.foldl .release _ _))

theorem grows_unsubscribeAll (w : World) (given : List SubscriptionId) :
    w.Grows (w.unsubscribeAll given) :=
  .onStore (.fades (.foldl Store.Fades.unsubscribe _ _) (.foldl .unsubscribe _ _))

theorem grows_dropAll (w : World) (views : List (String × View)) : w.Grows (w.dropAll views) :=
  (grows_unsubscribeAll w _).trans (grows_releaseAll _ _)

/-- A write changes only values and requests. -/
theorem Quiet.grows_set (quiet : w.Quiet) {c : CellId} (live : w.store.isLive c = true)
    (value : Json) : w.Grows (w.set c value) := by
  rw [quiet.set_eq live]
  have entries := Listeners.entries_hear (l := w.listeners) value
    (w.store.audience (w.store.liveMembers (w.store.groupOf c)))
  constructor
  case store => exact .assign _ _ _
  case entries => exact ⟨[], by rw [append_nil, entries]⟩
  case requests => exact Nat.le_of_eq (Listeners.length_requests_hear _ _).symm
  case fresh =>
    intro view _ n asks
    simpa only [Listeners.asks, entries] using asks

theorem Quiet.owns_set (quiet : w.Quiet) {c : CellId} (live : w.store.isLive c = true) (value : Json)
    (owns : w.Owns cells subscriptions) : (w.set c value).Owns cells subscriptions := by
  rw [quiet.set_eq live]
  refine owns.of_counts (fun d => ?_) fun n => ?_
  · exact Nat.le_of_eq (Store.handles_assign value _ d).symm
  · exact Nat.le_of_eq (by rw [Store.owners_assign])

/-! ## Quiet worlds stay quiet -/

namespace Quiet

variable (quiet : w.Quiet)
include quiet

theorem onStore {change : Store → Store} (consistent : (change w.store).Consistent)
    (same : w.store.SameFlags (change w.store)) (registry : w.store.SameRegistry (change w.store)) :
    (w.onStore change).Quiet where
  consistent := consistent
  enrolled := quiet.enrolled.sameRegistry registry
  idle g := (same.propagating g).trans (quiet.idle g)
  waiting g := (same.pending g).trans (quiet.waiting g)
  entries := quiet.entries.trans registry.owners.symm
  silent := quiet.silent
  numbered := quiet.numbered

theorem create (kind : CellKind) (value : Json) : (w.create kind value).2.Quiet := by
  change (w.onStore (·.create kind value)).Quiet
  exact quiet.onStore (quiet.consistent.create kind value) (.create _ kind value)
    (.create _ kind value)

theorem link {source : CellId} (live : w.store.isLive source = true) (kind : CellKind) :
    (w.link source kind).2.Quiet := by
  change (w.onStore (·.link source kind)).Quiet
  exact quiet.onStore (quiet.consistent.link live kind) (.link _ source kind)
    (.link _ source kind)

theorem retain {c : CellId} (live : w.store.isLive c = true) : (w.onStore (·.retain c)).Quiet :=
  quiet.onStore (quiet.consistent.fades (.retain live)) (.retain _ c) (.retain _ c)

theorem releaseAll (given : List CellId) : (w.releaseAll given).Quiet :=
  quiet.onStore (quiet.consistent.fades (.foldl Store.Fades.release _ _)) (.foldl .release _ _)
    (.foldl .release _ _)

theorem unsubscribeAll (given : List SubscriptionId) : (w.unsubscribeAll given).Quiet := by
  have groups (s : Store) (n : SubscriptionId) : s.SameFlags (s.unsubscribe n) := .groups rfl
  exact quiet.onStore (quiet.consistent.fades (.foldl Store.Fades.unsubscribe _ _))
    (.foldl groups _ _) (.foldl .unsubscribe _ _)

theorem drop (v : View) : (w.drop v).Quiet :=
  (quiet.unsubscribeAll _).releaseAll _

theorem dropAll (views : List (String × View)) : (w.dropAll views).Quiet :=
  (quiet.unsubscribeAll _).releaseAll _

theorem newView : w.newView.2.Quiet where
  consistent := quiet.consistent
  enrolled := quiet.enrolled
  idle := quiet.idle
  waiting := quiet.waiting
  entries := quiet.entries
  silent := quiet.silent
  numbered n asked := by
    have known := quiet.numbered n asked
    simp only [World.newView, length_append, length_singleton]
    omega

theorem subscribe (c : CellId) {listener : Listener} (silent : listener.isSilent = true)
    (known : ∀ view, listener = .rerender view → view < w.listeners.requests.length) :
    (w.subscribe c listener).2.Quiet where
  consistent := quiet.consistent.fades (.subscribe _ c)
  enrolled := quiet.enrolled.subscribe c
  idle := quiet.idle
  waiting := quiet.waiting
  entries := by simp [World.subscribe, Store.subscribe, quiet.entries]
  silent other member := by
    rcases mem_append.mp member with old | new
    · exact quiet.silent other old
    · rw [mem_singleton.mp new]
      exact silent
  numbered n asked := by
    rcases mem_append.mp asked with old | new
    · exact quiet.numbered n old
    · exact known n (mem_singleton.mp new).symm

end Quiet

end World

end ReactiveView
