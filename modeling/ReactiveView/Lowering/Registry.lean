import ReactiveView.Decl.Basic

/-!
# Branch registries

The conditionals of a lowered component, each with its site number and the numbers of its
branches.  A site that is registered once is never changed.
-/

namespace ReactiveView

structure BranchSite where
  site : UInt32
  method : String
  branchIds : List UInt32
  location : Location
deriving DecidableEq, Repr, Inhabited

structure BranchRegistry where
  sites : List BranchSite := []
deriving DecidableEq, Repr, Inhabited

namespace BranchRegistry

def get? (r : BranchRegistry) (site : UInt32) : Option BranchSite :=
  r.sites.find? (·.site = site)

def branchId? (r : BranchRegistry) (site : UInt32) (arm : Nat) : Option UInt32 :=
  (r.get? site).bind (·.branchIds[arm]?)

/-- Register a conditional with branches counted from zero, unless its site is known. -/
def register (r : BranchRegistry) (site : UInt32) (method : String) (arms : Nat)
    (location : Location) : BranchRegistry :=
  if (r.get? site).isSome then r
  else ⟨r.sites ++ [⟨site, method, (List.range arms).map UInt32.ofNat, location⟩]⟩

end BranchRegistry

end ReactiveView
