import ReactiveView.Reactive.Machine

/-!
# Cells behind views

The cells behind the fields of views, with what is subscribed to them: the triggers by which views
ask to be rendered again, and watches from outside.
-/

namespace ReactiveView

open Reactive (CellId SubscriptionId Store Operation Machine Program Frame)

/-- A watch on a field.  It records every value, and for the value `trigger` writes to another
    cell, on which it has a handle. -/
structure Watch where
  id : String
  trigger : Option Json
  effect : Option (CellId × Json)
deriving Inhabited

inductive Listener where
  /-- Count a request to render the view with that number again. -/
  | rerender (view : Nat)
  | watch (watch : Watch)
deriving Inhabited

structure Listeners where
  /-- The listeners, by the number of the subscription. -/
  entries : List Listener := []
  requests : List UInt32 := []
  events : List (String × Json) := []
deriving Inhabited

def Listeners.react (l : Listeners) (subscription : SubscriptionId) (value : Json) :
    List (CellId × Json) × Listeners :=
  match l.entries[subscription]? with
  | none => ([], l)
  | some (.rerender view) => ([], { l with requests := l.requests.modify view (· + 1) })
  | some (.watch w) =>
    let writes := if w.trigger.any (·.same value) then w.effect.toList else []
    (writes, { l with events := (w.id, value) :: l.events })

def listenerProgram : Program Listeners (CellId × Json) Unit where
  perform t _ l := ([.set t.1 t.2], (), l)
  settle _ _ l := l
  react subscription value l := l.react subscription value

structure World where
  store : Store := {}
  listeners : Listeners := {}
deriving Inhabited

namespace World

/-- How many machine steps a write may take.  A write that no watch answers visits each cell and
    calls each subscription at most once; watches can write to each other's fields without end. -/
def writeBudget (s : Store) : Nat := 1000000 + 8 * (s.cells.length + s.owners.length)

def onStore (w : World) (f : Store → Store) : World := { w with store := f w.store }

def set (w : World) (c : CellId) (value : Json) : World :=
  let m : Machine Listeners (CellId × Json) Unit :=
    ⟨w.store, w.listeners, [.operations [.set c value]]⟩
  let m := m.run listenerProgram (writeBudget w.store)
  ⟨m.store, m.state⟩

def create (w : World) (kind : CellKind) (value : Json) : CellId × World :=
  (w.store.nextCell, w.onStore (·.create kind value))

def link (w : World) (source : CellId) (kind : CellKind) : CellId × World :=
  (w.store.nextCell, w.onStore (·.link source kind))

def subscribe (w : World) (c : CellId) (listener : Listener) : SubscriptionId × World :=
  (w.store.nextSubscription,
    { store := w.store.subscribe c
      listeners := { w.listeners with entries := w.listeners.entries ++ [listener] } })

def releaseAll (w : World) (cells : List CellId) : World :=
  w.onStore (cells.foldl Store.release)

def unsubscribeAll (w : World) (subscriptions : List SubscriptionId) : World :=
  w.onStore (subscriptions.foldl Store.unsubscribe)

/-- A number for a new view, which has no requests yet. -/
def newView (w : World) : Nat × World :=
  (w.listeners.requests.length,
    { w with listeners := { w.listeners with requests := w.listeners.requests ++ [0] } })

def requests (w : World) (view : Nat) : UInt32 := w.listeners.requests.getD view 0

end World

end ReactiveView
