import ReactiveView.Proofs.ProviderWalks
import ReactiveView.Proofs.SiblingOutcomes

/-!
# Order of declaration

In a module without repeated names, the order of the declarations does not decide what is lowered,
nor to what.  The search for missing providers goes through the declarations in order and stops at
the first consumer that it finds wrong with a component, so it may name another consumer when the
order changes; but it reports the same components, each for the same rule.
-/

namespace ReactiveView

section

variable {components components' : List Component}
  (distinct : (components.map (·.name)).Nodup) (perm : components.Perm components')

include distinct perm

theorem Component.distinct_perm : (components'.map (·.name)).Nodup :=
  (perm.map (·.name)).nodup_iff.mp distinct

theorem Component.find?_perm : find? components' = find? components := by
  funext name
  apply Option.ext
  intro c
  rw [find?_eq_some_iff (distinct_perm distinct perm), find?_eq_some_iff distinct, perm.mem_iff]

theorem isSome_consumerFailures_of_perm (file name : String)
    (reported : ((consumerFailures file components).lookup name).isSome = true) :
    ((consumerFailures file components').lookup name).isSome = true := by
  obtain ⟨before, c, key, row, walk, named, unprovided⟩ :=
    (isSome_consumerFailures_iff distinct file name).mp reported
  -- a walk is a walk through the same components declared in another order
  have walk' := walk.perm perm fun _ => Component.isStart_perm perm
  exact (isSome_consumerFailures_iff (Component.distinct_perm distinct perm) file name).mpr
    ⟨before, c, key, row, walk', named, unprovided⟩

end

theorem code_of_consumerFailures {components : List Component}
    (distinct : (components.map (·.name)).Nodup) {file name : String} {d : Diagnostic}
    (reported : (consumerFailures file components).lookup name = some d) :
    d.report.code = Rule.unresolvedBinding.code := by
  obtain ⟨_, _, _, _, _, _, _, rfl⟩ := unprovided_of_consumerFailures distinct file reported
  rfl

namespace ModuleScope

variable {m : Module} {components : List Component}
  (distinct : (m.components.map (·.name)).Nodup) (perm : m.components.Perm components)
  (options : Options) (parser : Script.Parser)

include distinct perm

theorem resembles_of_perm :
    (ModuleScope.of m options parser).Resembles (.of { m with components } options parser) :=
  resembles_of_find? (Component.find?_perm distinct perm) options parser

theorem isSome_failures_perm (name : String) :
    ((ModuleScope.of { m with components } options parser).failures.lookup name).isSome =
      ((ModuleScope.of m options parser).failures.lookup name).isSome := by
  have distinct' := Component.distinct_perm distinct perm
  rw [Bool.eq_iff_iff]
  exact ⟨isSome_consumerFailures_of_perm distinct' perm.symm _ name,
    isSome_consumerFailures_of_perm distinct perm _ name⟩

/-- A component is lowered to the same in another order, or it is refused by the same rule. -/
theorem lowerComponent_perm (c : Component) :
    (ModuleScope.of { m with components } options parser).lowerComponent c =
        (ModuleScope.of m options parser).lowerComponent c ∨
      ∃ d d', (ModuleScope.of m options parser).lowerComponent c = .error d ∧
        (ModuleScope.of { m with components } options parser).lowerComponent c = .error d' ∧
        d'.report.code = d.report.code := by
  rcases (resembles_of_perm distinct perm options parser).lowerComponent_cases c with
    same | ⟨differ, missing, missing'⟩
  · exact .inl same
  · have reported := isSome_failures_perm distinct perm options parser c.name
    cases first : (ModuleScope.of m options parser).failures.lookup c.name with
    | none =>
      -- reported in neither order, so there is no difference
      rw [first, Option.isSome_none, Option.isSome_eq_false_iff,
        Option.isNone_iff_eq_none] at reported
      exact absurd (reported.trans first.symm) differ
    | some d =>
      rw [first, Option.isSome_some, Option.isSome_iff_exists] at reported
      obtain ⟨d', second⟩ := reported
      have code := code_of_consumerFailures distinct first
      have code' := code_of_consumerFailures (Component.distinct_perm distinct perm) second
      exact .inr ⟨d, d', missing d first, missing' d' second, code'.trans code.symm⟩

end ModuleScope

theorem Module.getElem?_lower_of_distinct {m : Module}
    (distinct : (m.components.map (·.name)).Nodup) (options : Options) (parser : Script.Parser)
    {i : Nat} {c : Component} (here : m.components[i]? = some c) :
    (m.lower options parser).components[i]? =
      some ⟨c.name, (ModuleScope.of m options parser).lowerComponent c⟩ := by
  have new : Component.declares (m.components.take i) c.name = false := by
    apply Bool.eq_false_iff.mpr
    intro declared
    obtain ⟨p, member, named⟩ := Component.declares_iff.mp declared
    obtain ⟨k, before, rfl⟩ := List.mem_take_iff_getElem.mp member
    obtain ⟨inside, rfl⟩ := List.getElem?_eq_some_iff.mp here
    rw [List.Nodup, List.pairwise_map, List.pairwise_iff_getElem] at distinct
    exact distinct k i (by omega) inside (by omega) named
  rw [Module.getElem?_lower, here, Option.map_some, new]
  rfl

/-- In a module with different names, each component is lowered under one order of declaration if
    and only if it is lowered under another, and to the same; where it is refused, it is refused by
    the same rule. -/
theorem Module.lower_perm {m : Module} {components : List Component}
    (distinct : (m.components.map (·.name)).Nodup) (perm : m.components.Perm components)
    (options : Options) (parser : Script.Parser) :
    ∀ (i j : Nat) (c : Component), m.components[i]? = some c → components[j]? = some c →
      ∃ result result' : Except Diagnostic LoweredComponent,
        (m.lower options parser).components[i]? = some ⟨c.name, result⟩ ∧
        (Module.lower { m with components } options parser).components[j]? = some ⟨c.name, result'⟩ ∧
        (∀ out, result = .ok out ↔ result' = .ok out) ∧
        ∀ d, result = .error d → ∃ d', result' = .error d' ∧ d'.report.code = d.report.code := by
  intro i j c here there
  refine ⟨_, _, Module.getElem?_lower_of_distinct distinct options parser here,
    Module.getElem?_lower_of_distinct (Component.distinct_perm distinct perm) options parser there,
    ?_⟩
  rcases ModuleScope.lowerComponent_perm distinct perm options parser c with
    same | ⟨d, d', failed, failed', code⟩
  · rw [same]
    exact ⟨fun _ => Iff.rfl, fun d failed => ⟨d, failed, rfl⟩⟩
  · rw [failed, failed']
    refine ⟨fun out => by simp, ?_⟩
    rintro _ ⟨⟩
    exact ⟨d', rfl, code⟩

namespace TwoSides

def left : Component where
  name := "Left"
  isEntry := true
  members := [.field { name := "a", decorator := .provide none, initializer := some "1" }]
  render := { body := [.element { name := "Panel" } []] }

def right : Component where
  name := "Right"
  isEntry := true
  members := [.field { name := "b", decorator := .provide none, initializer := some "2" }]
  render := { body := [.element { name := "Panel" } []] }

/-- On either side, one of the two keys is provided. -/
def panel : Component where
  name := "Panel"
  members := [
    .field { name := "a", decorator := .consume none },
    .field { name := "b", decorator := .consume none }]
  render := {}

def file : Module := ⟨"sides.ets", [left, right, panel]⟩

end TwoSides

theorem Module.lower_perm_twoSides :
    (TwoSides.file.components.map (·.name)).Nodup ∧
    (consumerFailures "sides.ets" [TwoSides.left, TwoSides.right, TwoSides.panel]).lookup "Panel" =
      some ⟨.noProvider "b" "Panel" "b", "sides.ets", "Panel", {}⟩ ∧
    (consumerFailures "sides.ets" [TwoSides.right, TwoSides.left, TwoSides.panel]).lookup "Panel" =
      some ⟨.noProvider "a" "Panel" "a", "sides.ets", "Panel", {}⟩ ∧
    ∃ result result' : Except Diagnostic LoweredComponent,
      (TwoSides.file.lower {}).components[2]? = some ⟨"Panel", result⟩ ∧
      (Module.lower { TwoSides.file with
          components := [TwoSides.right, TwoSides.left, TwoSides.panel] } {}).components[2]? =
        some ⟨"Panel", result'⟩ ∧
      (∀ out, result = .ok out ↔ result' = .ok out) ∧
      ∀ d, result = .error d → ∃ d', result' = .error d' ∧ d'.report.code = d.report.code := by
  have distinct : (TwoSides.file.components.map (·.name)).Nodup := by decide
  exact ⟨distinct, rfl, rfl,
    Module.lower_perm distinct (.swap _ _ _) {} Script.parser 2 2 TwoSides.panel rfl rfl⟩

end ReactiveView
