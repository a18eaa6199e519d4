import ReactiveView.Reactive.Store

/-!
# Propagation

Writing to a cell passes the value to all living members of its group and then calls their
subscriptions, member by member.  A subscription may itself write, link, subscribe or drop.  A write
to a group that is already passing a value waits until that is done.

What is going on is a stack of frames, and `Machine.step` takes the topmost frame one step further.
What subscriptions do is the business of a `Program`: it sees the store and has a state of its own,
but changes the store only by operations.
-/

namespace ReactiveView.Reactive

inductive Operation where
  | create (kind : CellKind) (value : Json)
  | link (source : CellId) (kind : CellKind)
  | retain (cell : CellId)
  | release (cell : CellId)
  | subscribe (cell : CellId)
  | unsubscribe (subscription : SubscriptionId)
  | set (cell : CellId) (value : Json)

/-- What is done with a store: tasks, each a list of operations with an epilogue, and reactions of
    subscriptions, each a list of tasks. -/
structure Program (σ τ κ : Type) where
  perform : τ → Store → σ → List Operation × κ × σ
  settle : κ → Store → σ → σ
  react : SubscriptionId → Json → σ → List τ × σ

/-- Something that is going on. -/
inductive Frame (τ κ : Type) where
  | tasks (tasks : List τ)
  | operations (operations : List Operation)
  | settle (epilogue : κ)
  | calls (subscriptions : List SubscriptionId) (value : Json)
  /-- Cells whose subscriptions are to be called; all cells of the round are held until its end. -/
  | notify (cells held : List CellId) (value : Json)
  /-- A group whose waiting values come next. -/
  | drain (group : GroupId)

/-- A store, the state of a program, and what is going on, innermost first. -/
structure Machine (σ τ κ : Type) where
  store : Store
  state : σ
  stack : List (Frame τ κ)

namespace Machine

variable {σ τ κ : Type}

def operate (s : Store) : Operation → Store
  | .create kind value => s.create kind value
  | .link source kind => s.link source kind
  | .retain c => s.retain c
  | .release c => s.release c
  | .subscribe c => s.subscribe c
  | .unsubscribe n => s.unsubscribe n
  | .set _ _ => s

/-- Pass a value to the living members of a group.  They are held and notified; after that the
    values that wait are next. -/
def propagate (s : Store) (g : GroupId) (value : Json) : Store × List (Frame τ κ) :=
  let members := s.liveMembers g
  (members.foldl Store.retain (s.assign value members), [.notify members members value, .drain g])

/-- Write to a cell.  The cell is held until the write is done. -/
def write (s : Store) (c : CellId) (value : Json) : Store × List (Frame τ κ) :=
  let g := s.groupOf c
  if s.isPropagating g then (s.enqueue g value, [])
  else
    let (s, frames) := propagate ((s.retain c).setPropagating g true) g value
    (s, frames ++ [.operations [.release c]])

/-- Take the topmost frame one step further; `none` if nothing is going on. -/
def step (p : Program σ τ κ) (m : Machine σ τ κ) : Option (Machine σ τ κ) :=
  match m.stack with
  | [] => none
  | .tasks [] :: rest => some { m with stack := rest }
  | .tasks (t :: ts) :: rest =>
    let (ops, epilogue, state) := p.perform t m.store m.state
    some { m with state, stack := .operations ops :: .settle epilogue :: .tasks ts :: rest }
  | .operations [] :: rest => some { m with stack := rest }
  | .operations (.set c value :: ops) :: rest =>
    let (store, frames) := write m.store c value
    some { m with store, stack := frames ++ .operations ops :: rest }
  | .operations (op :: ops) :: rest =>
    some { m with store := operate m.store op, stack := .operations ops :: rest }
  | .settle epilogue :: rest =>
    some { m with state := p.settle epilogue m.store m.state, stack := rest }
  | .calls [] _ :: rest => some { m with stack := rest }
  -- the subscription is held until its reaction is through
  | .calls (n :: ns) value :: rest =>
    let (tasks, state) := p.react n value m.state
    some { m with
      state, stack := .tasks tasks :: .operations [.unsubscribe n] :: .calls ns value :: rest }
  | .notify [] held _ :: rest =>
    some { m with store := held.foldl Store.release m.store, stack := rest }
  | .notify (c :: cs) held value :: rest =>
    if (m.store.kind c).notifies then
      -- only those that live when the turn begins are called
      let subscriptions := m.store.liveSubscriptions c
      some { m with
        store := subscriptions.foldl Store.hold m.store
        stack := .calls subscriptions value :: .notify cs held value :: rest }
    else some { m with stack := .notify cs held value :: rest }
  | .drain g :: rest =>
    match m.store.dequeue? g with
    | none => some { m with store := m.store.setPropagating g false, stack := rest }
    | some (value, store) =>
      let (store, frames) := propagate store g value
      some { m with store, stack := frames ++ rest }

/-- Take steps until nothing is going on, at most a number of them. -/
def run (p : Program σ τ κ) : Nat → Machine σ τ κ → Machine σ τ κ
  | 0, m => m
  | n + 1, m =>
    match m.step p with
    | none => m
    | some m => run p n m

end Machine

end ReactiveView.Reactive
