import Mathlib.Data.List.Perm.Basic
import ReactiveView.Proofs.ModuleLowering

/-!
# Names of lowered members

Lowering keeps the name of every member and adds one for every decorated field, that of its wrapper.
So names that are distinct stay distinct exactly if no member is named like one of the new wrappers.
-/

namespace ReactiveView

open List

/-- The name of a member. -/
def Member.name : Member → String
  | .field f => f.name
  | .wrapper w => w.name
  | .accessors a => a.name
  | .method m => m.name

/-- The name of the wrapper that a member gets; only decorated fields get one. -/
def Member.wrapperName? : Member → Option String
  | .field f => if f.decorator = .none then none else some (backingName f.name)
  | _ => none

theorem Member.names_lower (m : Member) :
    m.lower.map Member.name = m.wrapperName?.toList ++ [m.name] := by
  cases m with
  | field f =>
    by_cases plain : f.decorator = .none
    · simp [Member.lower, Member.wrapperName?, Member.name, plain]
    · simp [Member.lower, Member.wrapperName?, Member.name, plain, Field.wrapper, Field.accessors]
  | wrapper w => rfl
  | accessors a => rfl
  | method m => rfl

theorem Member.eq_field_of_wrapperName? {m : Member} {name : String}
    (gets : m.wrapperName? = some name) :
    ∃ f, m = .field f ∧ f.decorator ≠ .none ∧ name = backingName f.name := by
  cases m with
  | field f =>
    simp only [Member.wrapperName?, Option.ite_none_left_eq_some, Option.some.injEq] at gets
    exact ⟨f, rfl, gets.1, gets.2.symm⟩
  | wrapper _ | accessors _ | method _ => cases gets

theorem backingName_inj {a b : String} (same : backingName a = backingName b) : a = b := by
  simpa [backingName] using same

namespace Component

/-- The names of the members of a component. -/
def memberNames (c : Component) : List String := c.members.map Member.name

/-- The names of the wrappers that a component gets. -/
def wrapperNames (c : Component) : List String := c.members.filterMap Member.wrapperName?

theorem mem_wrapperNames {c : Component} {name : String} :
    name ∈ c.wrapperNames ↔ ∃ f ∈ c.fields, f.decorator ≠ .none ∧ name = backingName f.name := by
  simp only [wrapperNames, fields, mem_filterMap]
  constructor
  · rintro ⟨m, declared, gets⟩
    obtain ⟨f, rfl, decorated, same⟩ := Member.eq_field_of_wrapperName? gets
    exact ⟨f, ⟨.field f, declared, rfl⟩, decorated, same⟩
  · rintro ⟨f, ⟨m, declared, isField⟩, decorated, rfl⟩
    cases m with
    | field g =>
      cases isField
      exact ⟨_, declared, by simp [Member.wrapperName?, decorated]⟩
    | wrapper _ | accessors _ | method _ => cases isField

/-- The names after lowering are those from before and those of the wrappers. -/
theorem names_loweredMembers (c : Component) :
    (c.loweredMembers.map Member.name).Perm (c.wrapperNames ++ c.memberNames) := by
  have split : c.loweredMembers.map Member.name =
      c.members.flatMap fun m => m.wrapperName?.toList ++ [m.name] := by
    rw [loweredMembers, map_flatMap]
    simp only [Member.names_lower]
  have apart := flatMap_append_perm c.members (·.wrapperName?.toList) ([Member.name ·])
  rw [← filterMap_eq_flatMap_toList, ← map_eq_flatMap] at apart
  rw [split]
  exact apart.symm

/-- Fields with distinct names get wrappers with distinct names. -/
theorem nodup_wrapperNames {c : Component} (distinct : c.memberNames.Nodup) :
    c.wrapperNames.Nodup := by
  refine pairwise_filterMap.mpr ((pairwise_map.mp distinct).imp ?_)
  intro m n differ name gets name' gets' same
  obtain ⟨f, rfl, -, rfl⟩ := Member.eq_field_of_wrapperName? gets
  obtain ⟨g, rfl, -, rfl⟩ := Member.eq_field_of_wrapperName? gets'
  exact differ (backingName_inj same)

/-- Distinct names stay distinct under lowering if and only if no member is named like the wrapper of
    a decorated field. -/
theorem nodup_names_lowerFields_iff {c : Component} {file : String} {lowered : FieldLowering}
    (accepted : c.lowerFields file = .ok lowered) (distinct : c.memberNames.Nodup) :
    (lowered.members.map Member.name).Nodup ↔
      ∀ f ∈ c.fields, f.decorator ≠ .none → backingName f.name ∉ c.memberNames := by
  obtain ⟨-, rfl⟩ := lowerFields_ok_iff.mp accepted
  rw [c.names_loweredMembers.nodup_iff, nodup_append]
  constructor
  · rintro ⟨-, -, apart⟩ f declared decorated member
    have isWrapper : backingName f.name ∈ c.wrapperNames :=
      mem_wrapperNames.mpr ⟨f, declared, decorated, rfl⟩
    exact apart _ isWrapper _ member rfl
  · intro fresh
    refine ⟨nodup_wrapperNames distinct, distinct, ?_⟩
    rintro name isWrapper _ member rfl
    obtain ⟨f, declared, decorated, rfl⟩ := mem_wrapperNames.mp isWrapper
    exact fresh f declared decorated member

end Component

namespace Counter

/-- A component with a state, a plain field and a method. -/
def component (state plain : String) : Component where
  name := "Counter"
  members := [
    .field { name := state, decorator := .state, initializer := some "1" },
    .field { name := plain, initializer := some "2" },
    .method { name := "reset" }]
  render := {}

end Counter

theorem Component.nodup_names_lowerFields_iff_counter :
    (Counter.component "count" "step").memberNames.Nodup ∧
    ∃ lowered, (Counter.component "count" "step").lowerFields "counter.ets" = .ok lowered ∧
      (lowered.members.map Member.name).Nodup := by
  have distinct : (Counter.component "count" "step").memberNames.Nodup := by decide
  obtain ⟨lowered, accepted⟩ : ∃ lowered,
      (Counter.component "count" "step").lowerFields "counter.ets" = .ok lowered := ⟨_, rfl⟩
  have fresh : ∀ f ∈ (Counter.component "count" "step").fields, f.decorator ≠ .none →
      backingName f.name ∉ (Counter.component "count" "step").memberNames := by decide
  exact ⟨distinct, lowered, accepted,
    (Component.nodup_names_lowerFields_iff accepted distinct).mpr fresh⟩

/-- The wrapper of a state and a plain field end up under one name. -/
theorem Counter.wrapper_shares_its_name :
    (Counter.component "count" "count__").memberNames.Nodup ∧
    ∃ lowered, (Counter.component "count" "count__").lowerFields "counter.ets" = .ok lowered ∧
      lowered.members.map Member.name = ["count__", "count", "count__", "reset"] ∧
      ¬(lowered.members.map Member.name).Nodup :=
  ⟨by decide, _, rfl, rfl, by decide⟩

end ReactiveView
