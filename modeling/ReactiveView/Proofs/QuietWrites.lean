import Mathlib.Algebra.GroupWithZero.Nat
import Mathlib.Data.List.Nodup
import Mathlib.Data.List.Perm.Subperm
import ReactiveView.Proofs.Propagation
import ReactiveView.View.World

/-!
# Writes that nobody answers

Where no listener answers a value with a write, a write has an end, and all it leaves behind are the
value in the cells of the group and what the listeners have noted.  Handles and ownership that are
taken during the write are given back, and the flag of the group is as it was before.
-/

namespace ReactiveView.Reactive

open List

/-! ## Counted steps -/

namespace Machine

variable {σ τ κ : Type} {p : Program σ τ κ}

/-- One machine comes to another in at most a number of steps. -/
inductive Takes (p : Program σ τ κ) : Nat → Machine σ τ κ → Machine σ τ κ → Prop
  | refl (n : Nat) (m : Machine σ τ κ) : Takes p n m m
  | step {n : Nat} {m m' last : Machine σ τ κ} (next : m.step p = some m')
      (rest : Takes p n m' last) : Takes p (n + 1) m last

theorem Takes.trans {n k : Nat} {m m' last : Machine σ τ κ} (first : Takes p n m m')
    (second : Takes p k m' last) : Takes p (n + k) m last := by
  induction first with
  | refl n m =>
    induction second with
    | refl => exact .refl _ _
    | step next _ ih => exact .step next ih
  | step next _ ih =>
    rw [Nat.succ_add]
    exact .step next (ih second)

theorem Takes.mono {n k : Nat} {m last : Machine σ τ κ} (takes : Takes p n m last)
    (more : n ≤ k) : Takes p k m last := by
  obtain ⟨extra, rfl⟩ := Nat.exists_eq_add_of_le more
  exact takes.trans (.refl extra last)

theorem Takes.run {n fuel : Nat} {m last : Machine σ τ κ} (takes : Takes p n m last)
    (ended : last.stack = []) (enough : n ≤ fuel) : m.run p fuel = last := by
  induction takes generalizing fuel with
  | refl n m =>
    cases fuel with
    | zero => rfl
    | succ fuel =>
      have none : m.step p = none := by simp [Machine.step, ended]
      simp [Machine.run, none]
  | step next _ ih =>
    cases fuel with
    | zero => omega
    | succ fuel =>
      simp only [Machine.run, next]
      exact ih ended (by omega)

end Machine

/-! ## What is taken is given back -/

namespace Store

variable (s : Store)

theorem modifyCell_comm {f h : Cell → Cell} (commute : ∀ cell, f (h cell) = h (f cell))
    (c d : CellId) : (s.modifyCell c f).modifyCell d h = (s.modifyCell d h).modifyCell c f := by
  simp only [modifyCell, Store.mk.injEq, and_true]
  refine ext_getElem? fun i => ?_
  simp only [List.getElem?_modify]
  cases s.cells[i]? with
  | none => rfl
  | some cell => by_cases atC : c = i <;> by_cases atD : d = i <;> simp [atC, atD, commute]

theorem release_retain (c : CellId) : (s.retain c).release c = s := by
  simp only [release, retain, modifyCell, modify_modify_eq]
  congr 1
  refine ext_getElem? fun i => ?_
  simp only [List.getElem?_modify]
  cases s.cells[i]? <;> by_cases same : c = i <;> simp [same]

theorem retainAll_retain (c : CellId) (cells : List CellId) :
    cells.foldl retain (s.retain c) = (cells.foldl retain s).retain c := by
  induction cells generalizing s with
  | nil => rfl
  | cons d cells ih =>
    have swap : (s.retain c).retain d = (s.retain d).retain c := modifyCell_comm s (fun _ => rfl) c d
    rw [foldl_cons, swap, ih, foldl_cons]

theorem releaseAll_retainAll (cells : List CellId) :
    cells.foldl release (cells.foldl retain s) = s := by
  induction cells generalizing s with
  | nil => rfl
  | cons c cells ih => rw [foldl_cons, foldl_cons, retainAll_retain, release_retain, ih]

theorem hold_comm (n m : SubscriptionId) : (s.hold n).hold m = (s.hold m).hold n := by
  simp only [hold, Store.mk.injEq, true_and]
  refine ext_getElem? fun i => ?_
  simp only [List.getElem?_modify]
  cases s.owners[i]? <;> by_cases atN : n = i <;> by_cases atM : m = i <;> simp [atN, atM]

theorem unsubscribe_hold (n : SubscriptionId) : (s.hold n).unsubscribe n = s := by
  simp only [hold, unsubscribe, modify_modify_eq]
  congr 1
  refine ext_getElem? fun i => ?_
  simp only [List.getElem?_modify]
  cases s.owners[i]? <;> by_cases same : n = i <;> simp [same]

theorem holdAll_hold (n : SubscriptionId) (subscriptions : List SubscriptionId) :
    subscriptions.foldl hold (s.hold n) = (subscriptions.foldl hold s).hold n := by
  induction subscriptions generalizing s with
  | nil => rfl
  | cons m subscriptions ih => rw [foldl_cons, hold_comm, ih, foldl_cons]

theorem assign_retain (value : Json) (c : CellId) (cells : List CellId) :
    (s.retain c).assign value cells = (s.assign value cells).retain c := by
  induction cells generalizing s with
  | nil => rfl
  | cons d cells ih =>
    have swap := modifyCell_comm s (f := fun cell => { cell with handles := cell.handles + 1 })
      (h := fun cell => { cell with value }) (fun _ => rfl) c d
    change ((s.retain c).modifyCell d fun cell => { cell with value }).assign value cells = _
    rw [retain, swap]
    exact ih _

theorem assign_setPropagating (value : Json) (g : GroupId) (b : Bool) (cells : List CellId) :
    (s.setPropagating g b).assign value cells = (s.assign value cells).setPropagating g b := by
  induction cells generalizing s with
  | nil => rfl
  | cons d cells ih => exact ih (s.modifyCell d fun cell => { cell with value })

theorem setPropagating_setPropagating {g : GroupId} (free : s.isPropagating g = false) :
    (s.setPropagating g true).setPropagating g false = s := by
  simp only [setPropagating, modifyGroup, modify_modify_eq]
  congr 1
  refine ext_getElem? fun i => ?_
  simp only [List.getElem?_modify]
  cases group : s.groups[i]? with
  | none => rfl
  | some group' =>
    by_cases same : g = i
    · subst same
      simp only [isPropagating, group, Option.any_some] at free
      obtain ⟨members, propagating, pending⟩ := group'
      simp_all
    · simp [same]

/-- The whole effect of a write on the store. -/
theorem assign_written {c : CellId} {g : GroupId} (free : s.isPropagating g = false)
    (value : Json) (cells : List CellId) :
    (((((s.retain c).setPropagating g true).assign value cells).setPropagating g
      false).release c) = s.assign value cells := by
  have free' : ((s.assign value cells).retain c).isPropagating g = false := by
    simpa only [isPropagating, retain, modifyCell, groups_assign] using free
  rw [assign_setPropagating, assign_retain, setPropagating_setPropagating _ free', release_retain]

/-- The subscriptions that a value passed in a group is announced to. -/
def audience (cells : List CellId) : List SubscriptionId :=
  (cells.filter fun c => (s.kind c).notifies).flatMap s.liveSubscriptions

/-- Subscriptions and kinds are the same. -/
structure SameAudience (s s' : Store) : Prop where
  kind : ∀ c, s'.kind c = s.kind c
  registered : ∀ c, s'.registered c = s.registered c
  owners : s'.owners = s.owners

namespace SameAudience

variable {s s' : Store}

theorem trans {s'' : Store} (first : s.SameAudience s') (second : s'.SameAudience s'') :
    s.SameAudience s'' :=
  ⟨fun c => (second.kind c).trans (first.kind c),
    fun c => (second.registered c).trans (first.registered c), second.owners.trans first.owners⟩

theorem retain (s : Store) (c : CellId) : s.SameAudience (s.retain c) where
  kind d := by
    simp only [Store.kind, Store.retain, modifyCell, List.getElem?_modify]
    cases s.cells[d]? <;> by_cases same : c = d <;> simp [same]
  registered := (SameRegistry.retain s c).registered
  owners := rfl

theorem groups {groups : List Group} (same : s.SameAudience s') :
    s.SameAudience { s' with groups } := ⟨same.kind, same.registered, same.owners⟩

theorem retainAll (s : Store) (cells : List CellId) : s.SameAudience (cells.foldl Store.retain s) := by
  induction cells generalizing s with
  | nil => exact ⟨fun _ => rfl, fun _ => rfl, rfl⟩
  | cons c cells ih => exact (retain s c).trans (ih _)

theorem assign (s : Store) (value : Json) (cells : List CellId) :
    s.SameAudience (s.assign value cells) :=
  ⟨kind_assign value cells, (SameRegistry.assign s value cells).registered,
    owners_assign s value cells⟩

theorem liveSubscriptions (same : s.SameAudience s') (c : CellId) :
    s'.liveSubscriptions c = s.liveSubscriptions c := by
  change (s'.registered c).filter s'.isOwned = (s.registered c).filter s.isOwned
  rw [same.registered]
  refine filter_congr fun n _ => ?_
  rw [isOwned, isOwned, same.owners]

theorem audience (same : s.SameAudience s') (cells : List CellId) :
    s'.audience cells = s.audience cells := by
  simp only [Store.audience, same.kind, flatMap_congr fun c _ => same.liveSubscriptions c]

end SameAudience

/-- No subscription is announced to twice. -/
theorem nodup_liveSubscriptions {s : Store} (enrolled : s.Enrolled) {cells : List CellId}
    (distinct : cells.Nodup) : (cells.flatMap s.liveSubscriptions).Nodup := by
  rw [nodup_flatMap]
  constructor
  · intro c _
    exact ((enrolled.ascending c).filter _).imp Nat.ne_of_lt
  · refine distinct.imp ?_
    intro c d other n atC atD
    exact other (enrolled.apart c d n (mem_liveSubscriptions.mp atC).1
      (mem_liveSubscriptions.mp atD).1)

theorem length_le_of_lt {n : Nat} {items : List Nat} (distinct : items.Nodup)
    (below : ∀ i ∈ items, i < n) : items.length ≤ n := by
  have subset : items ⊆ List.range n := fun i member => mem_range.mpr (below i member)
  simpa using (subperm_of_subset distinct subset).length_le

end Store

end ReactiveView.Reactive

namespace ReactiveView

open List
open Reactive (CellId GroupId SubscriptionId Store Machine Frame)

/-! ## Listeners -/

/-- Whether a listener writes nothing. -/
def Listener.isSilent : Listener → Bool
  | .rerender _ => true
  | .watch w => w.effect.isNone

namespace Listeners

variable {l : Listeners}

/-- No listener writes anything. -/
def AreSilent (l : Listeners) : Prop := ∀ listener ∈ l.entries, listener.isSilent = true

/-- What listeners note when a value is announced to subscriptions. -/
def hear (l : Listeners) (value : Json) (subscriptions : List SubscriptionId) : Listeners :=
  subscriptions.foldl (fun l n => (l.react n value).2) l

theorem entries_react (n : SubscriptionId) (value : Json) :
    (l.react n value).2.entries = l.entries := by
  unfold react
  split <;> rfl

theorem entries_hear (value : Json) (subscriptions : List SubscriptionId) :
    (l.hear value subscriptions).entries = l.entries := by
  induction subscriptions generalizing l with
  | nil => rfl
  | cons n subscriptions ih => exact ih.trans (entries_react n value)

theorem AreSilent.react (silent : l.AreSilent) (n : SubscriptionId) (value : Json) :
    l.react n value = ([], (l.react n value).2) ∧ (l.react n value).2.AreSilent := by
  refine ⟨?_, fun listener member => silent listener (entries_react n value ▸ member)⟩
  unfold Listeners.react
  split
  · rfl
  · rfl
  next w entry =>
    have none : w.effect = none := by
      simpa [Listener.isSilent] using silent _ (mem_of_getElem? entry)
    simp [none]

theorem AreSilent.hear (silent : l.AreSilent) (value : Json)
    (subscriptions : List SubscriptionId) : (l.hear value subscriptions).AreSilent :=
  fun listener member => silent listener (entries_hear value subscriptions ▸ member)

/-- Whether a subscription asks for a view to be rendered again. -/
def asks (l : Listeners) (view : Nat) (n : SubscriptionId) : Bool :=
  match l.entries[n]? with
  | some (.rerender k) => k = view
  | _ => false

theorem requests_react (n : SubscriptionId) (value : Json) {view : Nat}
    (known : view < l.requests.length) :
    (l.react n value).2.requests.getD view 0 =
      l.requests.getD view 0 + if l.asks view n then 1 else 0 := by
  unfold react asks
  split
  next none => simp [none]
  next k entry =>
    simp only [entry, getD_eq_getElem?_getD, List.getElem?_modify]
    by_cases same : k = view
    · subst same
      simp [known]
    · simp [same]
  next w entry => simp [entry]

theorem length_requests_react (n : SubscriptionId) (value : Json) :
    (l.react n value).2.requests.length = l.requests.length := by
  unfold react
  split
  · rfl
  · simp
  · rfl

theorem length_requests_hear (value : Json) (subscriptions : List SubscriptionId) :
    (l.hear value subscriptions).requests.length = l.requests.length := by
  induction subscriptions generalizing l with
  | nil => rfl
  | cons n subscriptions ih => exact ih.trans (length_requests_react n value)

theorem requests_hear (value : Json) (subscriptions : List SubscriptionId) {view : Nat}
    (known : view < l.requests.length) :
    (l.hear value subscriptions).requests.getD view 0 =
      l.requests.getD view 0 + .ofNat (subscriptions.countP (l.asks view)) := by
  induction subscriptions generalizing l with
  | nil => simp [hear]
  | cons n subscriptions ih =>
    have same : (l.react n value).2.asks view = l.asks view := by
      funext m
      simp only [asks, entries_react]
    have later := ih (l := (l.react n value).2) (by rwa [length_requests_react])
    rw [requests_react n value known, same] at later
    change ((l.react n value).2.hear value subscriptions).requests.getD view 0 = _
    rw [later, countP_cons, UInt32.ofNat_add]
    cases l.asks view n <;> simp [UInt32.add_assoc, UInt32.add_comm 1]

end Listeners

/-! ## Steps of a write -/

namespace World

variable {s : Store} {l : Listeners} {value : Json} {rest : List (Frame (CellId × Json) Unit)}

open Reactive.Machine (Takes)

theorem takes_calls (silent : l.AreSilent) (subscriptions : List SubscriptionId) :
    Takes listenerProgram (4 * subscriptions.length + 1)
      ⟨subscriptions.foldl Store.hold s, l, .calls subscriptions value :: rest⟩
      ⟨s, l.hear value subscriptions, rest⟩ := by
  induction subscriptions generalizing l with
  | nil => exact .step rfl (.refl _ _)
  | cons n subscriptions ih =>
    obtain ⟨answer, silent'⟩ := silent.react n value
    have called : Machine.step listenerProgram
        ⟨(n :: subscriptions).foldl Store.hold s, l, .calls (n :: subscriptions) value :: rest⟩ =
        some ⟨(n :: subscriptions).foldl Store.hold s, (l.react n value).2,
          .tasks [] :: .operations [.unsubscribe n] :: .calls subscriptions value :: rest⟩ := by
      simp only [Machine.step, listenerProgram]
      rw [answer]
    have given : ((n :: subscriptions).foldl Store.hold s).unsubscribe n =
        subscriptions.foldl Store.hold s := by
      rw [foldl_cons, Store.holdAll_hold, Store.unsubscribe_hold]
    refine .step called (.step rfl (.step rfl (.step rfl ?_)))
    simp only [Machine.operate, given]
    exact ih silent'

/-- The steps that the turns of cells take at most. -/
def turnCost (s : Store) (cells : List CellId) : Nat :=
  (cells.map fun c => 2 + 4 * (s.liveSubscriptions c).length).sum

theorem takes_turns (silent : l.AreSilent) (cells held : List CellId) :
    Takes listenerProgram (turnCost s cells) ⟨s, l, .notify cells held value :: rest⟩
      ⟨s, l.hear value (s.audience cells), .notify [] held value :: rest⟩ := by
  induction cells generalizing l with
  | nil => exact .refl _ _
  | cons c cells ih =>
    rw [turnCost, map_cons, sum_cons]
    by_cases notifies : (s.kind c).notifies = true
    · have begun : Machine.step listenerProgram ⟨s, l, .notify (c :: cells) held value :: rest⟩ =
          some ⟨(s.liveSubscriptions c).foldl Store.hold s, l,
            .calls (s.liveSubscriptions c) value :: .notify cells held value :: rest⟩ := by
        simp only [Machine.step, notifies, if_true]
      have heard : s.audience (c :: cells) = s.liveSubscriptions c ++ s.audience cells := by
        simp [Store.audience, notifies]
      have turn := Takes.step begun (takes_calls silent (s.liveSubscriptions c))
      rw [heard, Listeners.hear, foldl_append]
      exact (turn.trans (ih (silent.hear value _))).mono (by rw [turnCost]; omega)
    · have skipped : Machine.step listenerProgram ⟨s, l, .notify (c :: cells) held value :: rest⟩ =
          some ⟨s, l, .notify cells held value :: rest⟩ := by
        simp only [Machine.step, notifies, Bool.false_eq_true, if_false]
      have heard : s.audience (c :: cells) = s.audience cells := by
        simp [Store.audience, notifies]
      rw [heard]
      exact (Takes.step skipped (ih silent)).mono (by rw [turnCost]; omega)

theorem turnCost_le (consistent : s.Consistent) (enrolled : s.Enrolled) (g : GroupId) :
    turnCost s (s.liveMembers g) ≤ 2 * s.cells.length + 4 * s.owners.length := by
  have distinct : (s.liveMembers g).Nodup :=
    (consistent.pairwise_liveMembers g).imp Nat.ne_of_lt
  have few : (s.liveMembers g).length ≤ s.cells.length :=
    Store.length_le_of_lt distinct fun c member =>
      Store.lt_length_of_isLive (Store.mem_liveMembers.mp member).2
  have few' : ((s.liveMembers g).flatMap s.liveSubscriptions).length ≤ s.owners.length := by
    refine Store.length_le_of_lt (Store.nodup_liveSubscriptions enrolled distinct) fun n member => ?_
    obtain ⟨c, _, called⟩ := mem_flatMap.mp member
    exact enrolled.known c n (Store.mem_liveSubscriptions.mp called).1
  have total (cells : List CellId) : turnCost s cells =
      2 * cells.length + 4 * (cells.flatMap s.liveSubscriptions).length := by
    induction cells with
    | nil => rfl
    | cons c cells ih =>
      simp only [turnCost, map_cons, sum_cons, length_cons, flatMap_cons,
        length_append] at ih ⊢
      omega
  rw [total]
  omega

/-- Nothing is going on, and listeners that are announced to write nothing. -/
structure Quiet (w : World) : Prop where
  consistent : w.store.Consistent
  enrolled : w.store.Enrolled
  idle : ∀ g, w.store.isPropagating g = false
  waiting : ∀ g, w.store.pending g = []
  entries : w.listeners.entries.length = w.store.owners.length
  silent : w.listeners.AreSilent
  numbered : ∀ n, .rerender n ∈ w.listeners.entries → n < w.listeners.requests.length

/-- A write that nobody answers passes the value to the cells of the group and announces it. -/
theorem Quiet.set_eq {w : World} (quiet : w.Quiet) {c : CellId} (live : w.store.isLive c = true)
    (value : Json) :
    w.set c value =
      ⟨w.store.assign value (w.store.liveMembers (w.store.groupOf c)),
        w.listeners.hear value (w.store.audience (w.store.liveMembers (w.store.groupOf c)))⟩ := by
  obtain ⟨s, l⟩ := w
  obtain ⟨consistent, enrolled, idle, waiting, _, silent, _⟩ := quiet
  dsimp only at *
  let g := s.groupOf c
  let members := s.liveMembers g
  let marked := (s.retain c).setPropagating g true
  let passed := members.foldl Store.retain (marked.assign value members)
  have same : s.SameAudience passed := by
    have held : s.SameAudience marked := Store.SameAudience.retain s c |>.groups
    exact held.trans ((Store.SameAudience.assign marked value members).trans (.retainAll _ members))
  -- the run: one step for the write, the turns of the members, five steps to the end
  have write : Machine.step listenerProgram ⟨s, l, [.operations [.set c value]]⟩ =
      some ⟨passed, l, [.notify members members value, .drain g, .operations [.release c],
        .operations []]⟩ := by
    simp only [Machine.step, Machine.write, Machine.propagate, idle, Bool.false_eq_true, if_false,
      Store.liveMembers_retain live]
    rfl
  have turns : Takes listenerProgram (turnCost passed members)
      ⟨passed, l, [.notify members members value, .drain g, .operations [.release c],
        .operations []]⟩
      ⟨passed, l.hear value (s.audience members), [.notify [] members value, .drain g,
        .operations [.release c], .operations []]⟩ :=
    same.audience members ▸ takes_turns silent members members
  have released : members.foldl Store.release passed = marked.assign value members :=
    Store.releaseAll_retainAll _ members
  have finish : Machine.step listenerProgram ⟨passed, l.hear value (s.audience members),
      [.notify [] members value, .drain g, .operations [.release c], .operations []]⟩ =
      some ⟨marked.assign value members, l.hear value (s.audience members),
        [.drain g, .operations [.release c], .operations []]⟩ := by
    simp only [Machine.step, released]
  have drained : Machine.step listenerProgram ⟨marked.assign value members,
      l.hear value (s.audience members), [.drain g, .operations [.release c], .operations []]⟩ =
      some ⟨(marked.assign value members).setPropagating g false,
        l.hear value (s.audience members), [.operations [.release c], .operations []]⟩ := by
    have none : (marked.assign value members).pending g = [] := by
      simp only [Store.pending, Store.groups_assign]
      exact (Store.pending_setPropagating g true g).trans (waiting g)
    simp only [Machine.step, Store.dequeue?_eq, none]
  have ended : Takes listenerProgram 5
      ⟨passed, l.hear value (s.audience members),
        [.notify [] members value, .drain g, .operations [.release c], .operations []]⟩
      ⟨s.assign value members, l.hear value (s.audience members), []⟩ := by
    rw [← Store.assign_written s (idle g) (c := c)]
    exact .step finish (.step drained (.step rfl (.step rfl (.step rfl (.refl 0 _)))))
  have cost : turnCost passed members ≤ 2 * s.cells.length + 4 * s.owners.length := by
    refine Nat.le_trans (Nat.le_of_eq ?_) (turnCost_le consistent enrolled g)
    simp only [turnCost, same.liveSubscriptions]
    rfl
  have enough : turnCost passed members + 5 + 1 ≤ writeBudget s := by
    rw [writeBudget]
    omega
  simp only [set, (Takes.step write (turns.trans ended)).run rfl enough]
  rfl

variable {w : World} {c : CellId}

theorem quiet_empty : Quiet {} where
  consistent := .empty
  enrolled := .empty
  idle _ := rfl
  waiting _ := rfl
  entries := rfl
  silent := nofun
  numbered := nofun

theorem Quiet.set (quiet : w.Quiet) (live : w.store.isLive c = true) (value : Json) :
    (w.set c value).Quiet := by
  rw [quiet.set_eq live]
  have same := Store.SameFlags.groups (Store.groups_assign w.store value
    (w.store.liveMembers (w.store.groupOf c)))
  constructor
  · exact quiet.consistent.assign _ value
  · exact quiet.enrolled.sameRegistry (.assign _ _ _)
  · exact fun g => (same.propagating g).trans (quiet.idle g)
  · exact fun g => (same.pending g).trans (quiet.waiting g)
  · rw [Listeners.entries_hear, Store.owners_assign]
    exact quiet.entries
  · exact quiet.silent.hear value _
  · intro n asked
    rw [Listeners.entries_hear] at asked
    rw [Listeners.length_requests_hear]
    exact quiet.numbered n asked

/-- A write is seen in the cells of its group that live, and nowhere else. -/
theorem Quiet.value_set (quiet : w.Quiet) (live : w.store.isLive c = true) {d : CellId}
    (live' : w.store.isLive d = true) (value : Json) :
    (w.set c value).store.value d =
      if w.store.groupOf d = w.store.groupOf c then value else w.store.value d := by
  rw [quiet.set_eq live, Store.value_assign]
  simp [quiet.consistent.mem_liveMembers, live', Store.lt_length_of_isLive live']

/-- A write asks for a view to be rendered again once for each subscription of the view that is
    announced to. -/
theorem Quiet.requests_set (quiet : w.Quiet) (live : w.store.isLive c = true) (value : Json)
    {view : Nat} (known : view < w.listeners.requests.length) :
    (w.set c value).requests view = w.requests view +
      .ofNat ((w.store.audience (w.store.liveMembers (w.store.groupOf c))).countP
        (w.listeners.asks view)) := by
  rw [quiet.set_eq live]
  exact Listeners.requests_hear value _ known

end World

end ReactiveView
