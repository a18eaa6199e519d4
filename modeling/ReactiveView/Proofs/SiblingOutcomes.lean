import ReactiveView.Proofs.ComponentOutlines

/-!
# Outcomes of siblings

A module has one outcome for each declaration, in order (`Module.getElem?_lower`).  A declaration
takes part in the outcomes of the others through its outline only, so what is wrong inside of a
component, or right, is its own affair: with any other declaration of the same outline in its
place, all other outcomes are the same.
-/

namespace ReactiveView

open List

namespace ModuleScope

/-- The outcome of a declaration, given whether its name was declared before. -/
def outcome (scope : ModuleScope) (repeated : Bool) (c : Component) : Outcome where
  name := c.name
  result := if repeated then .error ⟨.duplicate c.name, scope.file, c.name, c.location⟩
    else scope.lowerComponent c

theorem getElem?_lowerAll (scope : ModuleScope) (seen : List String)
    (components : List Component) (i : Nat) :
    (scope.lowerAll seen components)[i]? =
      components[i]?.map fun c => scope.outcome
        (seen.contains c.name || Component.declares (components.take i) c.name) c := by
  induction components generalizing seen i with
  | nil => rfl
  | cons first components ih =>
    cases i with
    | zero => simp [lowerAll, outcome, Component.declares]
    | succ i =>
      rw [lowerAll, List.getElem?_cons_succ, List.getElem?_cons_succ, ih]
      -- the name of the first declaration moves from the declarations to the names seen
      have moved (name : String) :
          ((first.name :: seen).contains name || Component.declares (components.take i) name) =
            (seen.contains name ||
              Component.declares ((first :: components).take (i + 1)) name) := by
        simp only [Component.declares, take_succ_cons, any_cons, contains_cons]
        grind
      simp only [moved]

end ModuleScope

namespace Module

/-- What becomes of the declaration at a position. -/
theorem getElem?_lower (m : Module) (options : Options) (parser : Script.Parser) (i : Nat) :
    (m.lower options parser).components[i]? =
      m.components[i]?.map fun c =>
        (ModuleScope.of m options parser).outcome
          (Component.declares (m.components.take i) c.name) c := by
  rw [Module.lower, ModuleScope.getElem?_lowerAll]
  simp

theorem names_lower (m : Module) (options : Options) (parser : Script.Parser) :
    (m.lower options parser).components.map (·.name) = m.components.map (·.name) := by
  apply ext_getElem?
  intro i
  rw [List.getElem?_map, List.getElem?_map, getElem?_lower, Option.map_map]
  rfl

end Module

theorem Component.outlines_set {known : String → Bool} {components : List Component} {i : Nat}
    {x x' : Component} (here : components[i]? = some x)
    (same : x'.outline known = x.outline known) :
    (components.set i x').map (outline known) = components.map (outline known) := by
  obtain ⟨inside, rfl⟩ := List.getElem?_eq_some_iff.mp here
  have unchanged : components.set i components[i] = components := set_getElem_self inside
  rw [map_set, same, ← map_set, unchanged]

/-- Every declaration has one outcome, in order and under its name.  The outcomes of all others stay
    the same when a declaration is replaced by one with the same name, entry mark and field table
    that instantiates the same components. -/
theorem Module.lower_set_sibling (m : Module) (options : Options) (parser : Script.Parser) :
    (m.lower options parser).components.map (·.name) = m.components.map (·.name) ∧
    ∀ i x x', m.components[i]? = some x →
      x'.name = x.name → x'.isEntry = x.isEntry → x'.fieldTable = x.fieldTable →
      x'.instances (Component.declares m.components) =
        x.instances (Component.declares m.components) →
      ∀ j, j ≠ i →
        (Module.lower { m with components := m.components.set i x' } options parser).components[j]? =
          (m.lower options parser).components[j]? := by
  refine ⟨m.names_lower options parser, ?_⟩
  intro i x x' here name isEntry table instances j other
  have outline : x'.outline (Component.declares m.components) =
      x.outline (Component.declares m.components) := by
    simp only [Component.outline, name, isEntry, table, instances]
  have outlines := Component.outlines_set here outline
  have lowered := ModuleScope.lowerComponent_of_outlines outlines options parser
  have earlier : ((m.components.set i x').take j).map
      (Component.outline (Component.declares m.components)) =
      (m.components.take j).map (Component.outline (Component.declares m.components)) := by
    rw [map_take, outlines, map_take]
  -- names are a part of the outlines, so the same names are declared before a position
  have before := Component.declares_of_outline earlier
  rw [Module.getElem?_lower, Module.getElem?_lower, List.getElem?_set_ne other.symm]
  simp only [ModuleScope.outcome, before, lowered]
  rfl

namespace FramedPage

def page : Component where
  name := "Page"
  isEntry := true
  render := { body := [
    .element { name := "Frame", args := [{ value := "1" }] } [.element { name := "Legend" } []]] }

def frame : Component where
  name := "Frame"
  members := [
    .field { name := "title", decorator := .prop },
    .field { name := "theme", decorator := .provide none, initializer := some "1" }]
  render := { body := [.element { name := "Legend" } []] }

/-- A frame that is wrong in two ways: the default arm comes first, and a method builds a view. -/
def brokenFrame : Component where
  name := "Frame"
  members := [
    .field { name := "title", decorator := .prop },
    .method { name := "draw", body := [.element { name := "Text" } []] },
    .field { name := "theme", decorator := .provide none, initializer := some "2" }]
  render := { body := [
    .choice [⟨none, [.element { name := "Legend" } []]⟩, ⟨some "this.title", []⟩] {}] }

def legend : Component where
  name := "Legend"
  members := [.field { name := "theme", decorator := .consume none }]
  render := {}

def file : Module := ⟨"frame.ets", [page, frame, legend]⟩

def brokenFile : Module := ⟨"frame.ets", [page, brokenFrame, legend]⟩

end FramedPage

theorem Module.lower_set_sibling_framedPage :
    (FramedPage.file.lower {}).components.map (·.name) = ["Page", "Frame", "Legend"] ∧
    (FramedPage.brokenFile.lower {}).components[1]? =
      some ⟨"Frame", .error ⟨.misplacedElse 0, "frame.ets", "Frame", {}⟩⟩ ∧
    ∀ j, j ≠ 1 →
      (FramedPage.brokenFile.lower {}).components[j]? =
        (FramedPage.file.lower {}).components[j]? := by
  have failed : (ModuleScope.of FramedPage.brokenFile {}).lowerComponent FramedPage.brokenFrame =
      .error ⟨.misplacedElse 0, "frame.ets", "Frame", {}⟩ := by
    simp only [ModuleScope.lowerComponent, ModuleScope.lowerBodies, ModuleScope.lowerBody,
      BodyContext.lower_eq_lowerStmts]
    rfl
  obtain ⟨names, siblings⟩ := Module.lower_set_sibling FramedPage.file {} Script.parser
  refine ⟨names, ?_, siblings 1 FramedPage.frame FramedPage.brokenFrame rfl rfl rfl rfl rfl⟩
  rw [Module.getElem?_lower]
  change some (Outcome.mk "Frame" (ModuleScope.lowerComponent _ FramedPage.brokenFrame)) = _
  rw [failed]

end ReactiveView
