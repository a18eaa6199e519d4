import ReactiveView.Json.Outline
import ReactiveView.Json.Writer
import ReactiveView.Reactive.Machine

/-!
# Sessions with named cells

A session gives names to handles and subscriptions.  A subscription records every call and may run
a script: steps of the same kind as those of the session, each with a record of its result.  A
script runs only for a given value, if one is given, and only so many times.
-/

namespace ReactiveView.Reactive

inductive Step where
  | create (id : String) (kind : CellKind) (value : Json)
  | copy (id source : String)
  | link (id source : String) (kind : CellKind)
  | snapshot (id source : String) (kind : CellKind)
  | set (id : String) (value : Json)
  | get (id : String)
  | text (id : String)
  | kind (id : String)
  /-- A subscription.  Its script, if it has one, runs for the value `trigger` or for every value,
      at most `limit` times. -/
  | subscribe (id name : String) (trigger : Option Json) (script : List (Json × Step))
      (limit : Nat)
  | unsubscribe (name : String)
  | drop (id : String)
  | groupSize (id : String)
  | subscriptionCount (id : String)
  | linked (a b : String)
  | describe (id : String)
  | malformed
  | unknown (name : String)
deriving Inhabited

inductive StepFault where
  | noHandle (id : String)
  | malformed
  | unknown (name : String)
deriving DecidableEq, Repr

abbrev Reply := Except StepFault Json

inductive Record where
  | called (name : String) (value : Json)
  | did (name : String) (label : Json) (reply : Reply)

structure Script where
  name : String
  trigger : Option Json
  steps : List (Json × Step)
  limit : Nat
deriving Inhabited

structure Names where
  handles : List (String × CellId) := []
  subscriptions : List (String × SubscriptionId) := []
  scripts : List Script := []
  records : List Record := []
  reply : Reply := .ok .null

/-- A step to do: one of the session, or one of a subscription's script with its label there. -/
structure Task where
  step : Step
  origin : Option (String × Json) := none

structure Epilogue where
  origin : Option (String × Json)
  reply : Reply

namespace Names

/-- Bind a key, in place if it is bound. -/
def bind {α : Type} (key : String) (value : α) : List (String × α) → List (String × α)
  | [] => [(key, value)]
  | (k, v) :: rest => if k = key then (k, value) :: rest else (k, v) :: bind key value rest

/-- Give a name to a new handle.  The handle that had the name is given up. -/
def bindHandle (n : Names) (id : String) (cell : CellId) : List Operation × Names :=
  ((n.handles.lookup id).toList.map .release, { n with handles := bind id cell n.handles })

/-- Give a name to a new subscription.  The subscription that had the name is given up. -/
def bindSubscription (n : Names) (name : String) (subscription : SubscriptionId) :
    List Operation × Names :=
  ((n.subscriptions.lookup name).toList.map .unsubscribe,
    { n with subscriptions := bind name subscription n.subscriptions })

def unbind {α : Type} (key : String) (entries : List (String × α)) : List (String × α) :=
  entries.filter (·.1 ≠ key)

def describe (s : Store) (c : CellId) : String :=
  s!"ObservableWrapper \x7b kind: {(s.kind c).label}, value: {(s.value c).outline}, " ++
    s!"group_size: {s.groupSize c} \x7d"

def withHandle (n : Names) (id : String) (f : CellId → List Operation × Reply × Names) :
    List Operation × Reply × Names :=
  match n.handles.lookup id with
  | some c => f c
  | none => ([], .error (.noHandle id), n)

def replying (n : Names) (reply : Json) : List Operation × Reply × Names := ([], .ok reply, n)

def naming (n : Names) (s : Store) (id : String) (op : Operation) :
    List Operation × Reply × Names :=
  let (ops, n) := n.bindHandle id s.nextCell
  (op :: ops, .ok .null, n)

def perform (n : Names) (s : Store) : Step → List Operation × Reply × Names
  | .create id kind value => n.naming s id (.create kind value)
  | .copy id source => n.withHandle source fun c =>
    let (ops, n) := n.bindHandle id c
    (.retain c :: ops, .ok .null, n)
  | .link id source kind => n.withHandle source fun c => n.naming s id (.link c kind)
  | .snapshot id source kind => n.withHandle source fun c =>
    n.naming s id (.create kind (s.value c))
  | .set id value => n.withHandle id fun c => ([.set c value], .ok .null, n)
  | .get id => n.withHandle id fun c => n.replying (s.value c)
  | .text id => n.withHandle id fun c => n.replying (.str (s.value c).compact)
  | .kind id => n.withHandle id fun c =>
    n.replying (.arr [.str (s.kind c).name, .bool (s.kind c).notifies])
  | .subscribe id name trigger script limit => n.withHandle id fun c =>
    let (ops, n) := n.bindSubscription name s.nextSubscription
    (.subscribe c :: ops, .ok .null,
      { n with scripts := n.scripts ++ [⟨name, trigger, script, limit⟩] })
  | .unsubscribe name =>
    match n.subscriptions.lookup name with
    | some subscription => ([.unsubscribe subscription], .ok (.str "Subscription"),
        { n with subscriptions := unbind name n.subscriptions })
    | none => n.replying .null
  | .drop id =>
    match n.handles.lookup id with
    | some c => ([.release c], .ok (.bool true), { n with handles := unbind id n.handles })
    | none => n.replying (.bool false)
  | .groupSize id => n.withHandle id fun c => n.replying (.ofNat (s.groupSize c))
  | .subscriptionCount id => n.withHandle id fun c =>
    n.replying (.ofNat (s.liveSubscriptions c).length)
  | .linked a b => n.withHandle a fun a => n.withHandle b fun b =>
    n.replying (.bool (s.areLinked a b))
  | .describe id => n.withHandle id fun c => n.replying (.str (describe s c))
  | .malformed => ([], .error .malformed, n)
  | .unknown name => ([], .error (.unknown name), n)

def record (n : Names) (r : Record) : Names := { n with records := r :: n.records }

/-- The reaction of a subscription: a record, and its script if that may run. -/
def react (n : Names) (subscription : SubscriptionId) (value : Json) : List Task × Names :=
  match n.scripts[subscription]? with
  | none => ([], n)
  | some script =>
    let n := n.record (.called script.name value)
    if 0 < script.limit && script.trigger.all (·.same value) then
      (script.steps.map fun (label, step) => ⟨step, some (script.name, label)⟩,
        { n with scripts := n.scripts.set subscription { script with limit := script.limit - 1 } })
    else ([], n)

/-- The end of a step: its result is recorded, or is the result of the session. -/
def settle (n : Names) (e : Epilogue) : Names :=
  match e.origin with
  | none => { n with reply := e.reply }
  | some (name, label) => n.record (.did name label e.reply)

end Names

def sessionProgram : Program Names Task Epilogue where
  perform t s n :=
    let (ops, reply, n) := n.perform s t.step
    (ops, ⟨t.origin, reply⟩, n)
  settle e _ n := n.settle e
  react subscription value n := n.react subscription value

/-! ## Running -/

mutual

def Step.weight : Step → Nat
  | .subscribe _ _ _ script limit => 1 + limit * Step.scriptWeight script
  | _ => 1

def Step.scriptWeight : List (Json × Step) → Nat
  | [] => 0
  | (_, step) :: rest => step.weight + Step.scriptWeight rest

end

structure Session where
  store : Store := {}
  names : Names := {}

namespace Session

/-- How many machine steps the next step may take, given how many steps all steps of the session can
    lead to.  Every step makes at most one cell, one subscription and one write; a write visits each
    cell and calls each subscription at most once. -/
def budget (weight : Nat) : Nat := 16 * (weight + 2) * (weight + 2)

/-- Do a step.  The records are those of this step, first one first. -/
def advance (weight : Nat) (s : Session) (step : Step) : Session × Reply × List Record :=
  let m : Machine Names Task Epilogue :=
    ⟨s.store, { s.names with records := [] }, [.tasks [⟨step, none⟩]]⟩
  let m := m.run sessionProgram (budget weight)
  (⟨m.store, m.state⟩, m.state.reply, m.state.records.reverse)

def values (s : Session) : List (String × Json) :=
  s.names.handles.map fun (id, c) => (id, s.store.value c)

end Session

end ReactiveView.Reactive
