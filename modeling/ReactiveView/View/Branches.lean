/-!
# Active branches

Which branch of each conditional a view showed last, and what a new choice means for it.
-/

namespace ReactiveView

inductive Activation where
  /-- The conditional is evaluated for the first time. -/
  | initial
  /-- The branch is the same as before. -/
  | reuse
  /-- The branch is another one than before. -/
  | rebuild
deriving DecidableEq, Repr, Inhabited

def Activation.name : Activation → String
  | .initial => "initial"
  | .reuse => "reuse"
  | .rebuild => "rebuild"

structure BranchChoice where
  site : UInt32
  branchId : Option UInt32
  activation : Activation
deriving DecidableEq, Repr, Inhabited

structure BranchHistory where
  choices : List (UInt32 × Option UInt32) := []
deriving DecidableEq, Repr, Inhabited

namespace BranchHistory

def activate (t : BranchHistory) (site : UInt32) (branchId : Option UInt32) :
    Activation × BranchHistory :=
  let activation := match t.choices.lookup site with
    | none => .initial
    | some previous => if previous = branchId then .reuse else .rebuild
  (activation, ⟨(site, branchId) :: t.choices.filter (·.1 ≠ site)⟩)

def active? (t : BranchHistory) (site : UInt32) : Option UInt32 := (t.choices.lookup site).join

end BranchHistory

end ReactiveView
