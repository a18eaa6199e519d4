import ReactiveView.Binding.FieldTable
import ReactiveView.Binding.Instances
import ReactiveView.Diagnostic.Fault

/-!
# Providers and consumers

A consumer needs a provider of its key in a component strictly above it, on every way in which
the component can be instantiated.  `Resolution.run` walks the instantiation graph from every
component that can start a tree and records, for each component, the first consumer it met
without a provider.  A walk does not enter a component that is already on its path, nor one that
was entered before with the same keys in sight.
-/

namespace ReactiveView

/-- The components around a place in the tree with the keys that they provide, innermost
    first. -/
abbrev ProviderChain := List (String × List String)

namespace ProviderChain

def owner? (scope : ProviderChain) (key : String) : Option String :=
  (scope.find? (·.2.contains key)).map (·.1)

def insertKey (key : String) : List String → List String
  | [] => [key]
  | k :: rest => if key < k then key :: k :: rest else if key = k then k :: rest
    else k :: insertKey key rest

/-- The keys in sight, sorted, each once. -/
def visible (scope : ProviderChain) : List String :=
  (scope.flatMap (·.2)).foldr insertKey []

end ProviderChain

/-- The components of a module by name; of two with the same name the first one counts. -/
def Component.find? (components : List Component) (name : String) : Option Component :=
  List.find? (·.name = name) components

def Component.declares (components : List Component) (name : String) : Bool :=
  components.any (·.name = name)

structure Resolution where
  /-- The components entered so far with the keys that were in sight. -/
  entered : List (String × List String) := []
  failures : List (String × Diagnostic) := []

namespace Resolution

/-- The first consumer of a component whose key is not in sight. -/
def missing? (scope : ProviderChain) (table : FieldTable) : Option (String × FieldRow) :=
  table.consumers.find? fun (key, _) => (scope.owner? key).isNone

/-- Record the first missing provider of a component, unless it has failed before. -/
def record (file : String) (scope : ProviderChain) (c : Component) (r : Resolution) :
    Resolution :=
  if (r.failures.lookup c.name).isSome then r
  else match missing? scope c.fieldTable with
    | none => r
    | some (key, e) =>
      let diagnostic : Diagnostic := ⟨.noProvider e.name c.name key, file, c.name, e.location⟩
      { r with failures := r.failures ++ [(c.name, diagnostic)] }

/-- Walk on to the component `name` below `scope`, along `path`.  A path never holds a component
    twice, so one more step than there are components is enough. -/
def visit (file : String) (components : List Component) : Nat → ProviderChain → List String →
    String → Resolution → Resolution
  | 0, _, _, _, r => r
  | steps + 1, scope, path, name, r =>
    if path.contains name then r
    else match Component.find? components name with
      | none => r
      | some c =>
        let stop := (name, ProviderChain.visible scope)
        if r.entered.contains stop then r
        else
          let r := record file scope c { r with entered := stop :: r.entered }
          let below := (c.name, c.fieldTable.providedKeys) :: scope
          let children := c.instances (Component.declares components)
          children.foldl
            (fun r child => visit file components steps below (name :: path) child r) r

def visitAll (file : String) (components : List Component) (starts : List String)
    (r : Resolution) : Resolution :=
  starts.foldl (fun r name => visit file components (components.length + 1) [] [] name r) r

def instantiated (components : List Component) : List String :=
  components.flatMap fun c =>
    match Component.find? components c.name with
    | some first => first.instances (Component.declares components)
    | none => []

/-- The components to start from: entries, and those that nobody instantiates. -/
def roots (components : List Component) : List String :=
  let used := instantiated components
  (components.filter fun c => c.isEntry || !used.contains c.name).map (·.name)

/-- The search from the roots, and then from each component that no walk has entered, since those
    are reachable through cycles only. -/
def run (file : String) (components : List Component) : Resolution :=
  let r := visitAll file components (roots components) {}
  let cyclic := (components.map (·.name)).filter fun name => !r.entered.any (·.1 = name)
  visitAll file components cyclic r

end Resolution

/-- The consumers without a provider, at most one for each component. -/
def consumerFailures (file : String) (components : List Component) :
    List (String × Diagnostic) :=
  (Resolution.run file components).failures

end ReactiveView
