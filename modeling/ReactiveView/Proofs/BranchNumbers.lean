import Mathlib.Algebra.GroupWithZero.Nat
import Mathlib.Data.List.Nodup
import ReactiveView.Proofs.BodyForms

/-!
# Numbers of conditionals

Lowering gives the conditionals of a body consecutive site numbers, outer conditionals first, and
counts the arms of each from zero.  Unless there are more of them than numbers, no two conditionals
have the same site and no two arms of a conditional the same branch.
-/

namespace ReactiveView

open List

namespace Stmt

mutual

/-- The conditionals in a lowered statement, each before those in its arms: the site and the branches
    of the arms. -/
def conditionals : Stmt → List (UInt32 × List UInt32)
  | .element _ _ | .choice _ _ | .forEach _ _ | .code _ _ | .opening _ | .closing _ => []
  | .branch site arms _ => (site, arms.map (·.branchId)) :: conditionalsBranches arms
  | .items _ _ body => conditionalsAll body

/-- The conditionals in lowered statements. -/
def conditionalsAll : List Stmt → List (UInt32 × List UInt32)
  | [] => []
  | s :: rest => s.conditionals ++ conditionalsAll rest

/-- The conditionals in the arms of a lowered conditional. -/
def conditionalsBranches : List (BranchArm Stmt) → List (UInt32 × List UInt32)
  | [] => []
  | ⟨_, _, body⟩ :: rest => conditionalsAll body ++ conditionalsBranches rest

end

@[simp] theorem conditionalsAll_append (first second : List Stmt) :
    conditionalsAll (first ++ second) = conditionalsAll first ++ conditionalsAll second := by
  induction first with
  | nil => rfl
  | cons s first ih => simp [conditionalsAll, ih]

/-- How many conditionals and arms a lowered body has. -/
def forks (body : List Stmt) : Nat := ((conditionalsAll body).map fun c => c.2.length + 1).sum

theorem le_forks (body : List Stmt) :
    (conditionalsAll body).length ≤ forks body ∧
      ∀ c ∈ conditionalsAll body, c.2.length < forks body := by
  unfold forks
  induction conditionalsAll body with
  | nil => exact ⟨Nat.le_refl _, nofun⟩
  | cons c conditionals ih =>
    rw [length_cons, map_cons, sum_cons, forall_mem_cons]
    refine ⟨by omega, by omega, fun c' member => ?_⟩
    have := ih.2 c' member
    omega

end Stmt

/-! ## Consecutive numbers -/

/-- Conditionals have the site numbers from `first` on, and branches counted from zero. -/
structure Numbered (first : Nat) (conditionals : List (UInt32 × List UInt32)) : Prop where
  sites : conditionals.map (·.1) = (List.range' first conditionals.length).map UInt32.ofNat
  branches : ∀ c ∈ conditionals, c.2 = (List.range c.2.length).map UInt32.ofNat

namespace Numbered

variable {first : Nat} {conditionals others : List (UInt32 × List UInt32)}

theorem nil (first : Nat) : Numbered first [] := ⟨rfl, nofun⟩

theorem append (numbered : Numbered first conditionals)
    (after : Numbered (first + conditionals.length) others) :
    Numbered first (conditionals ++ others) where
  sites := by
    rw [map_append, numbered.sites, after.sites, length_append, ← List.range'_append_1,
      map_append]
  branches := forall_mem_append.mpr ⟨numbered.branches, after.branches⟩

theorem cons {ids : List UInt32} (counted : ids = (List.range ids.length).map UInt32.ofNat)
    (numbered : Numbered (first + 1) conditionals) :
    Numbered first ((.ofNat first, ids) :: conditionals) where
  sites := by
    rw [map_cons, numbered.sites, length_cons, List.range'_succ, map_cons]
  branches := forall_mem_cons.mpr ⟨counted, numbered.branches⟩

end Numbered

/-- No two conditionals have the same site, and no two arms of one the same branch. -/
structure AreDistinct (conditionals : List (UInt32 × List UInt32)) : Prop where
  sites : (conditionals.map (·.1)).Nodup
  branches : ∀ c ∈ conditionals, c.2.Nodup

theorem AreDistinct.of_append {conditionals others : List (UInt32 × List UInt32)}
    (distinct : AreDistinct (conditionals ++ others)) :
    AreDistinct conditionals ∧ AreDistinct others ∧
      ∀ site ∈ conditionals.map (·.1), site ∉ others.map (·.1) := by
  obtain ⟨sites, branches⟩ := distinct
  rw [map_append, nodup_append'] at sites
  rw [forall_mem_append] at branches
  exact ⟨⟨sites.1, branches.1⟩, ⟨sites.2.1, branches.2⟩, sites.2.2⟩

theorem AreDistinct.of_cons {c : UInt32 × List UInt32} {conditionals : List (UInt32 × List UInt32)}
    (distinct : AreDistinct (c :: conditionals)) : c.2.Nodup ∧ AreDistinct conditionals := by
  obtain ⟨sites, branches⟩ := distinct
  rw [map_cons, nodup_cons] at sites
  rw [forall_mem_cons] at branches
  exact ⟨branches.1, sites.2, branches.2⟩

/-- Numbers below the bound are different as words. -/
theorem nodup_ofNat {numbers : List Nat} (distinct : numbers.Nodup)
    (bound : ∀ n ∈ numbers, n < 2 ^ 32) : (numbers.map UInt32.ofNat).Nodup := by
  refine List.Nodup.map_on ?_ distinct
  intro m isNumber n isNumber' same
  have same := congrArg UInt32.toNat same
  rwa [UInt32.toNat_ofNat', UInt32.toNat_ofNat', Nat.mod_eq_of_lt (bound m isNumber),
    Nat.mod_eq_of_lt (bound n isNumber')] at same

/-- Numbered conditionals are distinct unless there are too many of them or of their arms. -/
theorem Numbered.areDistinct {body : List Stmt} (numbered : Numbered 0 (Stmt.conditionalsAll body))
    (few : Stmt.forks body < 2 ^ 32) : AreDistinct (Stmt.conditionalsAll body) := by
  obtain ⟨length, lengths⟩ := Stmt.le_forks body
  constructor
  case sites =>
    rw [numbered.sites]
    refine nodup_ofNat nodup_range' fun n member => ?_
    have bound := (mem_range'_1.mp member).2
    omega
  case branches =>
    intro c member
    rw [numbered.branches c member]
    refine nodup_ofNat nodup_range fun n inRange => ?_
    exact Nat.lt_trans (mem_range.mp inRange) (Nat.lt_trans (lengths c member) few)

/-! ## Lowered bodies -/

namespace BodyContext

variable {ctx : BodyContext} {method : String}

-- The next site number is known up to the size of a word, so no bound is needed here.
mutual

theorem Lowers.numbered {stmt : Stmt} {out : List Stmt} {s s' : LoweringState} {first : Nat} :
    Lowers ctx method stmt s out s' → stmt.isSource = true → s.registry.Counted →
    s.nextSite = .ofNat first → Numbered first (Stmt.conditionalsAll out) ∧
      s'.nextSite = .ofNat (first + (Stmt.conditionalsAll out).length)
  | .element _ body, source, counted, next => by
    simp only [Stmt.conditionalsAll, Stmt.conditionals, Stmt.conditionalsAll_append,
      cons_append, nil_append, append_nil]
    exact body.numbered source counted next
  | .choice _ each, source, counted, next => by
    have after : s.nextSite + 1 = .ofNat (first + 1) := by rw [next, UInt32.ofNat_add]; rfl
    obtain ⟨numbered, next', ids⟩ := each.numbered source (counted.register _ _ _ _) after
    simp only [conditional, Stmt.conditionalsAll, Stmt.conditionals, nil_append,
      append_nil]
    rw [next, length_cons, ← Nat.add_assoc, Nat.add_right_comm]
    refine ⟨.cons ?_ numbered, next'⟩
    rw [length_map, ids, range_eq_range']
  | .forEach _ each, source, counted, next => by
    simp only [loopBody, Stmt.conditionalsAll, Stmt.conditionals, nil_append, append_nil]
    exact each.numbered source counted next
  | .code _, _, _, next => ⟨.nil first, next⟩

theorem LowersAll.numbered {body out : List Stmt} {s s' : LoweringState} {first : Nat} :
    LowersAll ctx method body s out s' → Stmt.areSource body = true → s.registry.Counted →
    s.nextSite = .ofNat first → Numbered first (Stmt.conditionalsAll out) ∧
      s'.nextSite = .ofNat (first + (Stmt.conditionalsAll out).length)
  | .nil, _, _, next => ⟨.nil first, next⟩
  | .cons head tail, source, counted, next => by
    rw [Stmt.areSource, Bool.and_eq_true] at source
    obtain ⟨numbered, next⟩ := head.numbered source.1 counted next
    obtain ⟨after, next⟩ := tail.numbered source.2 (head.counted counted) next
    rw [Stmt.conditionalsAll_append, length_append, ← Nat.add_assoc]
    exact ⟨numbered.append after, next⟩

theorem LowersArms.numbered {site : UInt32} {location : Location} {index : Nat}
    {arms : List (Arm Stmt)} {out : List (BranchArm Stmt)} {s s' : LoweringState} {first : Nat} :
    LowersArms ctx method site location index arms s out s' → Stmt.areSourceArms arms = true →
    s.registry.Counted → s.nextSite = .ofNat first →
    Numbered first (Stmt.conditionalsBranches out) ∧
      s'.nextSite = .ofNat (first + (Stmt.conditionalsBranches out).length) ∧
      out.map (·.branchId) = (List.range' index out.length).map UInt32.ofNat
  | .nil, _, _, next => ⟨.nil first, next, rfl⟩
  | .cons _ head tail, source, counted, next => by
    rw [Stmt.areSourceArms, Bool.and_eq_true] at source
    obtain ⟨numbered, next⟩ := head.numbered source.1 counted next
    obtain ⟨after, next, ids⟩ := tail.numbered source.2 (head.counted counted) next
    simp only [armBody, Stmt.conditionalsBranches, Stmt.conditionalsAll, Stmt.conditionals,
      Stmt.conditionalsAll_append, cons_append, nil_append, append_nil]
    rw [length_append, ← Nat.add_assoc, map_cons, ids, length_cons,
      List.range'_succ, map_cons, branch_of_counted counted]
    exact ⟨numbered.append after, next, rfl⟩

end

end BodyContext

end ReactiveView
