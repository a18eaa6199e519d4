import ReactiveView.Json.Basic

/-!
# Rendered trees

The tree that a view renders to.
-/

namespace ReactiveView

/-- A node with its evaluated arguments and attributes.  The node of an arm has a branch. -/
inductive ViewNode where
  | mk (name : String) (args : List Json) (attributes : List (String × List Json))
      (branchId : Option UInt32) (children : List ViewNode)
deriving Inhabited

namespace ViewNode

def name : ViewNode → String
  | .mk name _ _ _ _ => name

def children : ViewNode → List ViewNode
  | .mk _ _ _ _ children => children

mutual

/-- The first node of a name, before its children and those in order. -/
def find? (name : String) : ViewNode → Option ViewNode
  | .mk own args attributes branchId children =>
    if own = name then some (.mk own args attributes branchId children)
    else findAny? name children

def findAny? (name : String) : List ViewNode → Option ViewNode
  | [] => none
  | n :: rest => (n.find? name).or (findAny? name rest)

end

mutual

def count (name : String) : ViewNode → Nat
  | .mk own _ _ _ children => (if own = name then 1 else 0) + countAll name children

def countAll (name : String) : List ViewNode → Nat
  | [] => 0
  | n :: rest => n.count name + countAll name rest

end

def encodeAttribute (a : String × List Json) : Json := .arr [.str a.1, .arr a.2]

mutual

def encode : ViewNode → Json
  | .mk name args attributes branchId children =>
    let args := if args.isEmpty then [] else [("args", Json.arr args)]
    let attributes := if attributes.isEmpty then []
      else [("attributes", Json.arr (attributes.map encodeAttribute))]
    let branch := branchId.toList.map fun b => ("branchId", Json.ofUInt32 b)
    .ofMembers (("name", .str name) :: args ++ attributes ++ branch ++
      [("children", .arr (encodeAll children))])

def encodeAll : List ViewNode → List Json
  | [] => []
  | n :: rest => n.encode :: encodeAll rest

end

end ViewNode

end ReactiveView
