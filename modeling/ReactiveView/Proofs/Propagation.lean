import ReactiveView.Proofs.StoreConsistency

/-!
# Propagation without stale values

A run of the machine is a sequence of steps in which every operation goes through a handle, so that
the cell it names lives.  Nothing else is asked of the program: subscriptions may write, link,
subscribe and drop whatever they have handles on, also in the group that is calling them.

Of a stack only the groups that are passing a value matter, each with what is left of its round
(`Stacked`).  A step changes the store and the innermost of these rounds (`Advances`), and every
invariant is proved by one case for each of those changes.
-/

namespace ReactiveView.Reactive

open List

/-- The cell whose handle an operation goes through. -/
def Operation.cell? : Operation → Option CellId
  | .create _ _ | .unsubscribe _ => none
  | .link c _ | .retain c | .release c | .subscribe c | .set c _ => some c

/-- What happens in a link group. -/
inductive Event where
  /-- A write to a cell of the group is called. -/
  | issued (group : GroupId) (value : Json)
  /-- A value is passed to the cells of the group that live. -/
  | passed (group : GroupId) (value : Json) (cells : List CellId)
  /-- The notification of a cell begins, with the subscriptions that live then. -/
  | begun (group : GroupId) (cell : CellId) (subscriptions : List SubscriptionId)
  /-- A subscription is called. -/
  | called (group : GroupId) (subscription : SubscriptionId) (value : Json)

namespace Machine

variable {σ τ κ : Type}

/-- An operation that comes next goes through a handle. -/
def throughHandle (m : Machine σ τ κ) : Bool :=
  match m.stack with
  | .operations (op :: _) :: _ => op.cell?.all m.store.isLive
  | _ => true

/-- The group whose round is the innermost. -/
def round? : List (Frame τ κ) → Option GroupId
  | [] => none
  | .drain g :: _ => some g
  | _ :: rest => round? rest

/-- What happens in the next step. -/
def events (m : Machine σ τ κ) : List Event :=
  match m.stack with
  | .operations (.set c value :: _) :: _ =>
    let g := m.store.groupOf c
    .issued g value ::
      if m.store.isPropagating g then [] else [.passed g value (m.store.liveMembers g)]
  | .calls (n :: _) value :: rest => [.called ((round? rest).getD 0) n value]
  | .notify (c :: _) _ _ :: rest =>
    if (m.store.kind c).notifies then
      [.begun ((round? rest).getD 0) c (m.store.liveSubscriptions c)]
    else []
  | .drain g :: _ =>
    match m.store.pending g with
    | [] => []
    | value :: _ => [.passed g value (m.store.liveMembers g)]
  | _ => []

/-- A run, with all that happens in it. -/
inductive Runs (p : Program σ τ κ) (start : Machine σ τ κ) : List Event → Machine σ τ κ → Prop
  | refl : Runs p start [] start
  | step {trace : List Event} {m m' : Machine σ τ κ} (run : Runs p start trace m)
      (handle : m.throughHandle = true) (next : m.step p = some m') :
      Runs p start (trace ++ m.events) m'

/-- A machine that has tasks to do and nothing in its store. -/
def initial (state : σ) (tasks : List τ) : Machine σ τ κ := ⟨{}, state, [.tasks tasks]⟩

/-- The run of a given number of steps, if there is one. -/
def execute (p : Program σ τ κ) : Nat → Machine σ τ κ → Option (List Event × Machine σ τ κ)
  | 0, m => some ([], m)
  | n + 1, m =>
    if m.throughHandle then
      (m.step p).bind fun m' => (execute p n m').map fun (trace, last) => (m.events ++ trace, last)
    else none

theorem Runs.execute {p : Program σ τ κ} {start m last : Machine σ τ κ} {trace later : List Event}
    {n : Nat} (run : Runs p start trace m) (executed : m.execute p n = some (later, last)) :
    Runs p start (trace ++ later) last := by
  induction n generalizing m trace later with
  | zero =>
    cases executed
    rwa [append_nil]
  | succ n ih =>
    rw [Machine.execute] at executed
    split at executed
    next handle =>
      obtain ⟨m', next, rest⟩ := Option.bind_eq_some_iff.mp executed
      obtain ⟨⟨events, last'⟩, executed', same⟩ := Option.map_eq_some_iff.mp rest
      cases same
      rw [← append_assoc]
      exact ih (run.step handle next) executed'
    next => cases executed

end Machine

/-! ## Rounds in progress -/

/-- What is left of a round. -/
inductive Phase where
  | between
  | turning (cells held : List CellId) (value : Json)
  | calling (subscriptions : List SubscriptionId) (cells held : List CellId) (value : Json)

/-- The value that is being passed. -/
def Phase.value? : Phase → Option Json
  | .between => none
  | .turning _ _ value | .calling _ _ _ value => some value

/-- The rounds of a stack, innermost first. -/
inductive Stacked {τ κ : Type} : List (Frame τ κ) → List (GroupId × Phase) → Prop
  | nil : Stacked [] []
  | tasks {tasks : List τ} {rest : List (Frame τ κ)} {rounds : List (GroupId × Phase)}
      (below : Stacked rest rounds) : Stacked (.tasks tasks :: rest) rounds
  | operations {ops : List Operation} {rest : List (Frame τ κ)} {rounds : List (GroupId × Phase)}
      (below : Stacked rest rounds) : Stacked (.operations ops :: rest) rounds
  | settle {epilogue : κ} {rest : List (Frame τ κ)} {rounds : List (GroupId × Phase)}
      (below : Stacked rest rounds) : Stacked (.settle epilogue :: rest) rounds
  | drain {g : GroupId} {rest : List (Frame τ κ)} {rounds : List (GroupId × Phase)}
      (below : Stacked rest rounds) : Stacked (.drain g :: rest) ((g, .between) :: rounds)
  | notify {g : GroupId} {cells held : List CellId} {value : Json} {rest : List (Frame τ κ)}
      {rounds : List (GroupId × Phase)} (below : Stacked rest rounds) :
      Stacked (.notify cells held value :: .drain g :: rest)
        ((g, .turning cells held value) :: rounds)
  | calls {g : GroupId} {subscriptions : List SubscriptionId} {cells held : List CellId}
      {value : Json} {rest : List (Frame τ κ)} {rounds : List (GroupId × Phase)}
      (below : Stacked rest rounds) :
      Stacked (.calls subscriptions value :: .notify cells held value :: .drain g :: rest)
        ((g, .calling subscriptions cells held value) :: rounds)

namespace Stacked

variable {τ κ : Type} {stack : List (Frame τ κ)} {rounds : List (GroupId × Phase)}

theorem drain_mem (stacked : Stacked stack rounds) {g : GroupId} :
    .drain g ∈ stack ↔ g ∈ rounds.map (·.1) := by
  induction stacked with
  | nil => simp
  | tasks _ ih | operations _ ih | settle _ ih => simpa using ih
  | drain _ ih | notify _ ih | calls _ ih => simp [ih]

/-- Cells are notified of the value that their group is passing. -/
theorem notify_mem (stacked : Stacked stack rounds) {before below : List (Frame τ κ)} {g : GroupId}
    {cells held : List CellId} {value : Json}
    (at' : stack = before ++ .notify cells held value :: .drain g :: below) :
    ∃ phase, (g, phase) ∈ rounds ∧ phase.value? = some value := by
  induction stacked generalizing before with
  | nil => simp at at'
  | tasks _ ih | operations _ ih | settle _ ih =>
    cases before with
    | nil => cases at'
    | cons frame before => exact ih (List.cons.inj at').2
  | drain _ ih =>
    cases before with
    | nil => cases at'
    | cons frame before =>
      obtain ⟨phase, member, same⟩ := ih (List.cons.inj at').2
      exact ⟨phase, mem_cons_of_mem _ member, same⟩
  | notify _ ih =>
    match before with
    | [] =>
      cases at'
      exact ⟨_, mem_cons_self, rfl⟩
    | [_] => cases at'
    | _ :: _ :: before =>
      obtain ⟨phase, member, same⟩ := ih (List.cons.inj (List.cons.inj at').2).2
      exact ⟨phase, mem_cons_of_mem _ member, same⟩
  | calls _ ih =>
    match before with
    | [] => cases at'
    | [_] =>
      cases at'
      exact ⟨_, mem_cons_self, rfl⟩
    | [_, _] => cases at'
    | _ :: _ :: _ :: before =>
      obtain ⟨phase, member, same⟩ :=
        ih (List.cons.inj (List.cons.inj (List.cons.inj at').2).2).2
      exact ⟨phase, mem_cons_of_mem _ member, same⟩

end Stacked

/-! ## Steps -/

/-- A value is passed to the living members of a group, which are held. -/
def Store.pass (s : Store) (g : GroupId) (value : Json) : Store :=
  (s.liveMembers g).foldl Store.retain (s.assign value (s.liveMembers g))

/-- What a step does to the store and to the rounds in progress. -/
inductive Advances :
    Store → List (GroupId × Phase) → List Event → Store → List (GroupId × Phase) → Prop
  | rest {s : Store} {rounds : List (GroupId × Phase)} : Advances s rounds [] s rounds
  | operate {s : Store} {rounds : List (GroupId × Phase)} (op : Operation)
      (handle : ∀ c ∈ op.cell?, s.isLive c = true) :
      Advances s rounds [] (Machine.operate s op) rounds
  | wait {s : Store} {rounds : List (GroupId × Phase)} {c : CellId} {value : Json}
      (live : s.isLive c = true) (busy : s.isPropagating (s.groupOf c) = true) :
      Advances s rounds [.issued (s.groupOf c) value] (s.enqueue (s.groupOf c) value) rounds
  | write {s : Store} {rounds : List (GroupId × Phase)} {c : CellId} {value : Json}
      (live : s.isLive c = true) (free : s.isPropagating (s.groupOf c) = false) :
      Advances s rounds
        [.issued (s.groupOf c) value, .passed (s.groupOf c) value (s.liveMembers (s.groupOf c))]
        (((s.retain c).setPropagating (s.groupOf c) true).pass (s.groupOf c) value)
        ((s.groupOf c, .turning (s.liveMembers (s.groupOf c)) (s.liveMembers (s.groupOf c)) value)
          :: rounds)
  | call {s : Store} {rounds : List (GroupId × Phase)} {g : GroupId} {n : SubscriptionId}
      {ns : List SubscriptionId} {cells held : List CellId} {value : Json} :
      Advances s ((g, .calling (n :: ns) cells held value) :: rounds) [.called g n value] s
        ((g, .calling ns cells held value) :: rounds)
  | called {s : Store} {rounds : List (GroupId × Phase)} {g : GroupId} {cells held : List CellId}
      {value : Json} :
      Advances s ((g, .calling [] cells held value) :: rounds) [] s
        ((g, .turning cells held value) :: rounds)
  | turn {s : Store} {rounds : List (GroupId × Phase)} {g : GroupId} {c : CellId}
      {cells held : List CellId} {value : Json} (notifies : (s.kind c).notifies = true) :
      Advances s ((g, .turning (c :: cells) held value) :: rounds)
        [.begun g c (s.liveSubscriptions c)] ((s.liveSubscriptions c).foldl Store.hold s)
        ((g, .calling (s.liveSubscriptions c) cells held value) :: rounds)
  | skip {s : Store} {rounds : List (GroupId × Phase)} {g : GroupId} {c : CellId}
      {cells held : List CellId} {value : Json} (plain : (s.kind c).notifies = false) :
      Advances s ((g, .turning (c :: cells) held value) :: rounds) [] s
        ((g, .turning cells held value) :: rounds)
  | finish {s : Store} {rounds : List (GroupId × Phase)} {g : GroupId} {held : List CellId}
      {value : Json} :
      Advances s ((g, .turning [] held value) :: rounds) [] (held.foldl Store.release s)
        ((g, .between) :: rounds)
  | drained {s : Store} {rounds : List (GroupId × Phase)} {g : GroupId}
      (empty : s.pending g = []) :
      Advances s ((g, .between) :: rounds) [] (s.setPropagating g false) rounds
  | next {s : Store} {rounds : List (GroupId × Phase)} {g : GroupId} {value : Json}
      {values : List Json} (waits : s.pending g = value :: values) :
      Advances s ((g, .between) :: rounds) [.passed g value (s.liveMembers g)]
        ((s.modifyGroup g fun group => { group with pending := values }).pass g value)
        ((g, .turning (s.liveMembers g) (s.liveMembers g) value) :: rounds)

namespace Machine

variable {σ τ κ : Type} {p : Program σ τ κ} {m m' : Machine σ τ κ}
  {rounds : List (GroupId × Phase)}

theorem advances_of_step (stacked : Stacked m.stack rounds) (handle : m.throughHandle = true)
    (next : m.step p = some m') :
    ∃ rounds', Stacked m'.stack rounds' ∧
      Advances m.store rounds m.events m'.store rounds' := by
  obtain ⟨s, state, stack⟩ := m
  cases stacked with
  | nil => cases next
  | @tasks tasks rest _ below =>
    cases tasks with
    | nil =>
      cases next
      exact ⟨_, below, .rest⟩
    | cons task tasks =>
      cases next
      exact ⟨_, .operations (.settle (.tasks below)), .rest⟩
  | @operations ops rest _ below =>
    cases ops with
    | nil =>
      cases next
      exact ⟨_, below, .rest⟩
    | cons op ops =>
      simp only [throughHandle, Option.all_eq_true] at handle
      cases op with
      | set c value =>
        have live := handle c rfl
        simp only [step, write, propagate] at next
        split at next
        -- the group is passing a value, so this one has to wait
        next busy =>
          cases next
          simp only [events, busy, if_true]
          exact ⟨_, .operations below, .wait live busy⟩
        -- the write begins a round, and its cell is held until the round is over
        next free =>
          have free := Bool.eq_false_iff.mpr free
          cases next
          simp only [events, free, Store.liveMembers_retain live]
          refine ⟨_, .notify (.operations (.operations below)), ?_⟩
          have advances := @Advances.write s rounds c value live free
          simp only [Store.pass, Store.liveMembers_retain live] at advances
          exact advances
      | create | link | retain | release | subscribe | unsubscribe =>
        cases next
        exact ⟨_, .operations below, .operate _ handle⟩
  | settle below =>
    cases next
    exact ⟨_, below, .rest⟩
  | @drain g rest rounds below =>
    simp only [step, Store.dequeue?_eq] at next
    simp only [events]
    cases waits : s.pending g with
    | nil =>
      rw [waits] at next
      cases next
      exact ⟨_, below, .drained waits⟩
    | cons value values =>
      rw [waits] at next
      simp only [propagate, Store.liveMembers_modifyGroup] at next
      cases next
      refine ⟨_, .notify below, ?_⟩
      have advances := @Advances.next s rounds g value values waits
      simp only [Store.pass, Store.liveMembers_modifyGroup] at advances
      exact advances
  | @notify g cells held value rest rounds below =>
    cases cells with
    | nil =>
      cases next
      exact ⟨_, .drain below, .finish⟩
    | cons c cells =>
      simp only [step] at next
      simp only [events]
      split at next
      next notifies =>
        cases next
        rw [if_pos notifies]
        exact ⟨_, .calls below, .turn notifies⟩
      -- a cell that announces nothing has no turn
      next plain =>
        cases next
        rw [if_neg plain]
        exact ⟨_, .notify below, .skip (Bool.eq_false_iff.mpr plain)⟩
  | @calls g subscriptions cells held value rest rounds below =>
    cases subscriptions with
    | nil =>
      cases next
      exact ⟨_, .notify below, .called⟩
    | cons n ns =>
      cases next
      exact ⟨_, .tasks (.operations (.calls below)), .call⟩

/-- Whatever holds at the start and is kept by every step holds after every run. -/
theorem Runs.invariant {state : σ} {tasks : List τ} {trace : List Event}
    (holds : Store → List (GroupId × Phase) → List Event → Prop) (start : holds {} [] [])
    (kept : ∀ s rounds trace events s' rounds', holds s rounds trace →
      Advances s rounds events s' rounds' → holds s' rounds' (trace ++ events))
    (run : Runs p (initial state tasks) trace m) :
    ∃ rounds, Stacked m.stack rounds ∧ holds m.store rounds trace := by
  induction run with
  | refl => exact ⟨[], .tasks .nil, start⟩
  | step _ handle next ih =>
    obtain ⟨rounds, stacked, before⟩ := ih
    obtain ⟨rounds', stacked', advances⟩ := advances_of_step stacked handle next
    exact ⟨rounds', stacked', kept _ _ _ _ _ _ before advances⟩

end Machine

/-! ## Flags and queues -/

namespace Store

variable {s s' : Store} {g : GroupId} {value : Json}

structure SameFlags (s s' : Store) : Prop where
  propagating : ∀ g, s'.isPropagating g = s.isPropagating g
  pending : ∀ g, s'.pending g = s.pending g

namespace SameFlags

theorem refl (s : Store) : s.SameFlags s := ⟨fun _ => rfl, fun _ => rfl⟩

theorem trans {s'' : Store} (first : s.SameFlags s') (second : s'.SameFlags s'') :
    s.SameFlags s'' :=
  ⟨fun g => (second.propagating g).trans (first.propagating g),
    fun g => (second.pending g).trans (first.pending g)⟩

theorem groups (same : s'.groups = s.groups) : s.SameFlags s' :=
  ⟨fun g => by simp only [isPropagating, same], fun g => by simp only [Store.pending, same]⟩

theorem foldl {α : Type} {step : Store → α → Store} (each : ∀ s a, SameFlags s (step s a))
    (s : Store) (items : List α) : s.SameFlags (items.foldl step s) :=
  List.foldlRecOn _ _ (refl s) fun _ same a _ => same.trans (each _ a)

theorem retain (s : Store) (c : CellId) : s.SameFlags (s.retain c) := groups rfl

theorem release (s : Store) (c : CellId) : s.SameFlags (s.release c) := groups rfl

theorem hold (s : Store) (n : SubscriptionId) : s.SameFlags (s.hold n) := groups rfl

theorem create (s : Store) (kind : CellKind) (value : Json) :
    s.SameFlags (s.create kind value) := by
  -- a new group has nothing to do, like one that does not exist
  constructor
  · intro g
    simp only [isPropagating, Store.create, List.getElem?_append]
    by_cases old : g < s.groups.length
    · simp [old]
    · cases rest : g - s.groups.length <;> simp [old]
  · intro g
    simp only [Store.pending, Store.create, List.getElem?_append]
    by_cases old : g < s.groups.length
    · simp [old]
    · cases rest : g - s.groups.length <;> simp [old]

theorem link (s : Store) (source : CellId) (kind : CellKind) :
    s.SameFlags (s.link source kind) := by
  constructor
  · intro g
    simp only [isPropagating, Store.link, modifyGroup, List.getElem?_modify]
    cases s.groups[g]? <;> by_cases same : s.groupOf source = g <;> simp [same]
  · intro g
    simp only [Store.pending, Store.link, modifyGroup, List.getElem?_modify]
    cases s.groups[g]? <;> by_cases same : s.groupOf source = g <;> simp [same]

theorem operate (s : Store) (op : Operation) : s.SameFlags (Machine.operate s op) := by
  cases op with
  | create kind value => exact create s kind value
  | link source kind => exact link s source kind
  | retain | release | subscribe | unsubscribe | set => exact groups rfl

theorem pass (s : Store) (g : GroupId) (value : Json) : s.SameFlags (s.pass g value) :=
  (groups (groups_assign s value _)).trans (foldl retain _ _)

end SameFlags

theorem isPropagating_setPropagating (inside : g < s.groups.length) (b : Bool) (h : GroupId) :
    (s.setPropagating g b).isPropagating h = if g = h then b else s.isPropagating h := by
  simp only [isPropagating, setPropagating, modifyGroup, List.getElem?_modify]
  by_cases same : g = h
  · subst same
    simp [inside]
  · simp [same]

theorem pending_setPropagating (g : GroupId) (b : Bool) (h : GroupId) :
    (s.setPropagating g b).pending h = s.pending h := by
  simp only [pending, setPropagating, modifyGroup, List.getElem?_modify]
  cases s.groups[h]? <;> by_cases same : g = h <;> simp [same]

theorem isPropagating_modifyGroup (g : GroupId) (queue : Group → List Json) (h : GroupId) :
    (s.modifyGroup g fun group => { group with pending := queue group }).isPropagating h =
      s.isPropagating h := by
  simp only [isPropagating, modifyGroup, List.getElem?_modify]
  cases s.groups[h]? <;> by_cases same : g = h <;> simp [same]

theorem pending_enqueue (inside : g < s.groups.length) (value : Json) (h : GroupId) :
    (s.enqueue g value).pending h = if g = h then s.pending h ++ [value] else s.pending h := by
  simp only [pending, enqueue, modifyGroup, List.getElem?_modify]
  by_cases same : g = h
  · subst same
    simp [inside]
  · simp [same]

theorem lt_length_of_isPropagating (busy : s.isPropagating g = true) : g < s.groups.length := by
  by_contra outside
  simp [isPropagating, List.getElem?_eq_none (Nat.le_of_not_lt outside)] at busy

theorem lt_length_of_pending {values : List Json} (waits : s.pending g = value :: values) :
    g < s.groups.length := by
  by_contra outside
  simp [pending, List.getElem?_eq_none (Nat.le_of_not_lt outside)] at waits

theorem pending_modifyGroup (inside : g < s.groups.length) (values : List Json) (h : GroupId) :
    (s.modifyGroup g fun group => { group with pending := values }).pending h =
      if g = h then values else s.pending h := by
  simp only [pending, modifyGroup, List.getElem?_modify]
  by_cases same : g = h
  · subst same
    simp [inside]
  · simp [same]

/-! ## Passing a value -/

theorem Fades.pass (s : Store) (g : GroupId) (value : Json) :
    (s.assign value (s.liveMembers g)).Fades (s.pass g value) := by
  refine Fades.retainAll fun c member => ?_
  rw [isLive_assign]
  exact (Store.mem_liveMembers.mp member).2

theorem Consistent.pass (consistent : s.Consistent) (g : GroupId) (value : Json) :
    (s.pass g value).Consistent := (consistent.assign g value).fades (Fades.pass s g value)

theorem groupOf_pass (g : GroupId) (value : Json) (c : CellId) :
    (s.pass g value).groupOf c = s.groupOf c :=
  ((Fades.pass s g value).group c).trans (groupOf_assign value _ c)

theorem isLive_of_pass {c : CellId} (live : (s.pass g value).isLive c = true) : s.isLive c = true :=
  isLive_assign value _ c ▸ (Fades.pass s g value).live c live

/-- A value that is passed reaches all cells of the group that live, and no others. -/
theorem Consistent.value_pass (consistent : s.Consistent) {c : CellId} (live : s.isLive c = true) :
    (s.pass g value).value c = if s.groupOf c = g then value else s.value c := by
  rw [(Fades.pass s g value).value, value_assign]
  simp [consistent.mem_liveMembers, live, lt_length_of_isLive live]

end Store

/-! ## Coherence -/

/-- The rounds in progress are those of the groups that are marked as passing a value, one for each.
    Only they have values that wait, and their cells hold the value that they pass. -/
structure Coherent (s : Store) (rounds : List (GroupId × Phase)) : Prop where
  consistent : s.Consistent
  distinct : (rounds.map (·.1)).Nodup
  marked : ∀ g, s.isPropagating g = true ↔ g ∈ rounds.map (·.1)
  waiting : ∀ g, g ∉ rounds.map (·.1) → s.pending g = []
  holding : ∀ g phase value, (g, phase) ∈ rounds → phase.value? = some value →
    ∀ c, s.isLive c = true → s.groupOf c = g → s.value c = value

namespace Coherent

variable {s s' : Store} {rounds rounds' : List (GroupId × Phase)} {g : GroupId}

theorem empty : Coherent {} [] where
  consistent := .empty
  distinct := nodup_nil
  marked g := by simp [Store.isPropagating]
  waiting g _ := rfl
  holding g phase value member := by cases member

theorem fades (coherent : Coherent s rounds) (fades : s.Fades s') (same : s.SameFlags s') :
    Coherent s' rounds where
  consistent := coherent.consistent.fades fades
  distinct := coherent.distinct
  marked h := by rw [same.propagating, coherent.marked]
  waiting h outside := by rw [same.pending, coherent.waiting h outside]
  holding h phase value member passes c live group := by
    rw [fades.value]
    exact coherent.holding h phase value member passes c (fades.live c live)
      (fades.group c ▸ group)

/-- A round may go on as long as it passes no other value. -/
theorem phase {before after : Phase} (coherent : Coherent s ((g, before) :: rounds))
    (kept : ∀ value, after.value? = some value → before.value? = some value) :
    Coherent s ((g, after) :: rounds) where
  consistent := coherent.consistent
  distinct := coherent.distinct
  marked := coherent.marked
  waiting := coherent.waiting
  holding h phase value member passes := by
    rcases mem_cons.mp member with same | later
    · cases same
      exact coherent.holding g before value mem_cons_self (kept value passes)
    · exact coherent.holding h phase value (mem_cons_of_mem _ later) passes

/-- A cell that is made in a group agrees with the cells that the group has. -/
theorem add {cell : Cell} (coherent : Coherent s rounds) (consistent : s'.Consistent)
    (added : s'.cells = s.cells ++ [cell]) (same : s.SameFlags s')
    (agrees : ∀ value, (∀ c, s.isLive c = true → s.groupOf c = cell.group → s.value c = value) →
      cell.group ∈ rounds.map (·.1) → cell.value = value) :
    Coherent s' rounds where
  consistent := consistent
  distinct := coherent.distinct
  marked h := by rw [same.propagating, coherent.marked]
  waiting h outside := by rw [same.pending, coherent.waiting h outside]
  holding h phase value member passes c live group := by
    have holds := coherent.holding h phase value member passes
    by_cases new : c = s.nextCell
    · subst new
      simp only [Store.groupOf, Store.getElem?_cells_new added, Option.map_some,
        Option.getD_some] at group
      subst group
      simp only [Store.value, Store.getElem?_cells_new added, Option.map_some, Option.getD_some]
      exact agrees value holds (mem_map_of_mem member)
    · simp only [Store.isLive, Store.groupOf, Store.value,
        Store.getElem?_cells_old added new] at live group ⊢
      exact holds c live group

theorem operate (coherent : Coherent s rounds) {op : Operation}
    (handle : ∀ c ∈ op.cell?, s.isLive c = true) : Coherent (Machine.operate s op) rounds := by
  have same := Store.SameFlags.operate s op
  cases op with
  | create kind value =>
    refine coherent.add (coherent.consistent.create kind value) rfl same ?_
    intro _ _ member
    -- the group is new, so no value is passed in it
    have busy := (coherent.marked _).mpr member
    exact absurd (Store.lt_length_of_isPropagating busy) (Nat.lt_irrefl _)
  | link source kind =>
    have live := handle source rfl
    refine coherent.add (coherent.consistent.link live kind) rfl same ?_
    intro value holds _
    exact holds source live rfl
  | retain c => exact coherent.fades (.retain (handle c rfl)) same
  | release c => exact coherent.fades (.release s c) same
  | subscribe c => exact coherent.fades (.subscribe s c) same
  | unsubscribe n => exact coherent.fades (.unsubscribe s n) same
  | set c value => exact coherent

/-- A value is passed in a group whose own round, if it has one, is over. -/
theorem pass (consistent : s.Consistent) (distinct : (g :: rounds.map (·.1)).Nodup)
    (marked : ∀ h, s.isPropagating h = true ↔ h = g ∨ h ∈ rounds.map (·.1))
    (waiting : ∀ h, h ≠ g → h ∉ rounds.map (·.1) → s.pending h = [])
    (holding : ∀ h phase value, (h, phase) ∈ rounds → phase.value? = some value →
      ∀ c, s.isLive c = true → s.groupOf c = h → s.value c = value)
    (cells held : List CellId) (value : Json) :
    Coherent (s.pass g value) ((g, .turning cells held value) :: rounds) where
  consistent := consistent.pass g value
  distinct := distinct
  marked h := by
    rw [(Store.SameFlags.pass s g value).propagating, marked]
    simp
  waiting h outside := by
    simp only [map_cons, mem_cons, not_or] at outside
    rw [(Store.SameFlags.pass s g value).pending]
    exact waiting h outside.1 outside.2
  holding h phase v member passes c live group := by
    have live := Store.isLive_of_pass live
    rw [Store.groupOf_pass] at group
    rw [consistent.value_pass live, group]
    rcases mem_cons.mp member with same | later
    · cases same
      cases passes
      rw [if_pos rfl]
    -- a group has one round, so those below are of other groups
    · have other : h ≠ g := by
        rintro rfl
        exact (nodup_cons.mp distinct).1 (mem_map_of_mem later)
      rw [if_neg other]
      exact holding h phase v later passes c live group

theorem write (coherent : Coherent s rounds) {c : CellId} (live : s.isLive c = true)
    (free : s.isPropagating (s.groupOf c) = false) (cells held : List CellId) (value : Json) :
    Coherent (((s.retain c).setPropagating (s.groupOf c) true).pass (s.groupOf c) value)
      ((s.groupOf c, .turning cells held value) :: rounds) := by
  have outside : s.groupOf c ∉ rounds.map (·.1) := by
    rw [← coherent.marked, free]
    exact Bool.false_ne_true
  have fades := (Store.Fades.retain live).trans
    (Store.Fades.setPropagating (s.retain c) (s.groupOf c) true)
  have inside : s.groupOf c < (s.retain c).groups.length :=
    coherent.consistent.group c (Store.lt_length_of_isLive live)
  refine pass (coherent.consistent.fades fades) (nodup_cons.mpr ⟨outside, coherent.distinct⟩)
    ?_ ?_ ?_ cells held value
  · intro h
    rw [Store.isPropagating_setPropagating inside, ← coherent.marked]
    by_cases same : s.groupOf c = h
    · simp [same]
    · simp [same, Ne.symm same, Store.isPropagating, Store.retain, Store.modifyCell]
  · intro h _ notRound
    rw [Store.pending_setPropagating]
    exact coherent.waiting h notRound
  · intro h phase v member passes d alive group
    rw [fades.value]
    exact coherent.holding h phase v member passes d (fades.live d alive) (fades.group d ▸ group)

theorem next (coherent : Coherent s ((g, .between) :: rounds)) {value : Json} {values : List Json}
    (waits : s.pending g = value :: values) (cells held : List CellId) :
    Coherent ((s.modifyGroup g fun group => { group with pending := values }).pass g value)
      ((g, .turning cells held value) :: rounds) := by
  have fades : s.Fades (s.modifyGroup g fun group => { group with pending := values }) :=
    .modifyGroup fun _ => rfl
  refine pass (coherent.consistent.fades fades) coherent.distinct ?_ ?_ ?_ cells held value
  · intro h
    rw [Store.isPropagating_modifyGroup g fun _ => values, coherent.marked, map_cons,
      mem_cons]
  · intro h other notRound
    rw [Store.pending_modifyGroup (Store.lt_length_of_pending waits), if_neg (Ne.symm other)]
    exact coherent.waiting h (by simp [other, notRound])
  · intro h phase v member passes d alive group
    rw [fades.value]
    exact coherent.holding h phase v (mem_cons_of_mem _ member) passes d
      (fades.live d alive) (fades.group d ▸ group)

theorem drained (coherent : Coherent s ((g, .between) :: rounds)) (empty : s.pending g = []) :
    Coherent (s.setPropagating g false) rounds := by
  have fades := Store.Fades.setPropagating s g false
  have outside := (nodup_cons.mp coherent.distinct).1
  have inside : g < s.groups.length :=
    Store.lt_length_of_isPropagating ((coherent.marked g).mpr (by simp))
  constructor
  · exact coherent.consistent.fades fades
  · exact (nodup_cons.mp coherent.distinct).2
  · intro h
    rw [Store.isPropagating_setPropagating inside]
    by_cases same : g = h
    · subst same
      simpa using outside
    · rw [if_neg same, coherent.marked, map_cons, mem_cons]
      simp [Ne.symm same]
  · intro h notRound
    rw [Store.pending_setPropagating]
    by_cases same : h = g
    · rw [same, empty]
    · exact coherent.waiting h (by simp [same, notRound])
  · intro h phase v member passes d alive group
    rw [fades.value]
    exact coherent.holding h phase v (mem_cons_of_mem _ member) passes d
      (fades.live d alive) (fades.group d ▸ group)

theorem enqueue (coherent : Coherent s rounds) (busy : s.isPropagating g = true) (value : Json) :
    Coherent (s.enqueue g value) rounds := by
  have fades := Store.Fades.enqueue s g value
  constructor
  · exact coherent.consistent.fades fades
  · exact coherent.distinct
  · intro h
    rw [Store.enqueue, Store.isPropagating_modifyGroup, coherent.marked]
  · intro h outside
    have other : g ≠ h := by
      rintro rfl
      exact outside ((coherent.marked g).mp busy)
    rw [Store.pending_enqueue (Store.lt_length_of_isPropagating busy), if_neg other]
    exact coherent.waiting h outside
  · intro h phase v member passes d alive group
    rw [fades.value]
    exact coherent.holding h phase v member passes d (fades.live d alive) (fades.group d ▸ group)

theorem advances {events : List Event} (coherent : Coherent s rounds)
    (advances : Advances s rounds events s' rounds') : Coherent s' rounds' := by
  cases advances with
  | rest => exact coherent
  | operate op handle => exact coherent.operate handle
  | wait _ busy => exact coherent.enqueue busy _
  | write live free => exact coherent.write live free _ _ _
  | call | called | skip => exact coherent.phase fun _ => id
  | @turn _ _ c =>
    have held := coherent.fades (.foldl Store.Fades.hold s (s.liveSubscriptions c))
      (.foldl .hold s (s.liveSubscriptions c))
    exact held.phase fun _ => id
  | @finish _ _ held =>
    have released := coherent.fades (.foldl Store.Fades.release s held) (.foldl .release s held)
    exact released.phase nofun
  | drained empty => exact coherent.drained empty
  | next waits => exact coherent.next waits _ _

end Coherent

namespace Machine

variable {σ τ κ : Type} {p : Program σ τ κ} {m : Machine σ τ κ}

/-- No cell is ever stale.  At every point of every run the living cells of a group agree; while a
    group passes a value to subscriptions, all its living cells hold it, also after writes of those
    subscriptions to the group, and it is the value that the subscriptions are called with; and a
    group that is passing no value is not marked as passing one and has no values that wait. -/
theorem Runs.noStaleValue {state : σ} {tasks : List τ} {trace : List Event}
    (run : Runs p (initial state tasks) trace m) :
    (∀ c d, m.store.isLive c = true → m.store.isLive d = true →
      m.store.groupOf c = m.store.groupOf d → m.store.value c = m.store.value d) ∧
    (∀ before cells held value g below,
      m.stack = before ++ .notify cells held value :: .drain g :: below →
      ∀ c, m.store.isLive c = true → m.store.groupOf c = g → m.store.value c = value) ∧
    (∀ n subscriptions value rest, m.stack = .calls (n :: subscriptions) value :: rest →
      ∃ cells held g below, rest = .notify cells held value :: .drain g :: below) ∧
    (∀ g, .drain g ∉ m.stack → m.store.isPropagating g = false ∧ m.store.pending g = []) := by
  obtain ⟨rounds, stacked, coherent⟩ := run.invariant (fun s rounds _ => Coherent s rounds)
    .empty fun _ _ _ _ _ _ coherent advances => coherent.advances advances
  refine ⟨coherent.consistent.agree, ?_, ?_, ?_⟩
  · intro before cells held value g below at'
    obtain ⟨phase, member, passes⟩ := stacked.notify_mem at'
    exact coherent.holding g phase value member passes
  · intro n subscriptions value rest top
    rw [top] at stacked
    cases stacked with
    | calls => exact ⟨_, _, _, _, rfl⟩
  · intro g absent
    rw [stacked.drain_mem, ← coherent.marked, Bool.not_eq_true] at absent
    refine ⟨absent, coherent.waiting g ?_⟩
    rw [← coherent.marked, absent]
    exact Bool.false_ne_true

/-- Tasks are what they do, and subscriptions answer `false` with a write of `true` to cell 1. -/
def answering : Program Unit (List Operation) Unit where
  perform ops _ _ := (ops, (), ())
  settle _ _ _ := ()
  react _ value _ :=
    match value with
    | .bool false => ([[.set 1 (.bool true)]], ())
    | _ => ([], ())

/-- Two linked cells with a subscription each, and a write to the first. -/
def linkedPair : List Operation :=
  [.create .ownedSimple .null, .link 0 .twoWay, .subscribe 0, .subscribe 1, .set 0 (.bool false)]

/-- When the second subscription is called, the first has already written to the group. -/
theorem Runs.noStaleValue_linkedPair :
    ∃ trace m, Runs answering (initial () [linkedPair]) trace m ∧
      m.store.pending 0 = [.bool true] ∧
      (∃ rest, m.stack = .calls [1] (.bool false) :: rest) ∧
      ∀ c, m.store.isLive c = true → m.store.groupOf c = 0 → m.store.value c = .bool false := by
  obtain ⟨trace, m, executed, waits, rest, top⟩ :
      ∃ trace m, (initial () [linkedPair]).execute answering 17 = some (trace, m) ∧
        m.store.pending 0 = [.bool true] ∧
        ∃ rest, m.stack = [.calls [1] (.bool false)] ++
          .notify [] [0, 1] (.bool false) :: .drain 0 :: rest :=
    ⟨_, _, rfl, rfl, _, rfl⟩
  have run := Runs.execute .refl executed
  exact ⟨_, m, run, waits, ⟨_, top⟩, (Runs.noStaleValue run).2.1 _ _ _ _ _ _ top⟩

end Machine

end ReactiveView.Reactive
