import ReactiveView.Script.Node

/-!
# References in script code

What a parsed tree refers to: the functions it calls by name, and the members of `this` that it
reads.  Both are listed with a node before its parts and the parts in source order.
-/

namespace ReactiveView.Script

/-- A member of `this` with the position of its name. -/
structure ThisMember where
  name : String
  start : Nat
  stop : Nat
deriving DecidableEq, Repr, Inhabited

namespace Node

def calledName? : Node → Option String
  | .mk .call (.mk (.ident name) _ :: _) => some name
  | _ => none

def thisMember? : Node → Option ThisMember
  | .mk (.member name start stop) [.mk .this _] => some ⟨name, start, stop⟩
  | _ => none

mutual

def collect {α : Type} (test : Node → Option α) : Node → List α
  | .mk kind parts => (test (.mk kind parts)).toList ++ collectAll test parts

def collectAll {α : Type} (test : Node → Option α) : List Node → List α
  | [] => []
  | n :: rest => n.collect test ++ collectAll test rest

end

def calledNames (n : Node) : List String := n.collect calledName?

def thisMembers (n : Node) : List ThisMember := n.collect thisMember?

end Node

end ReactiveView.Script
