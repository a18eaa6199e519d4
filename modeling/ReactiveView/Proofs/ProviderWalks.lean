import Mathlib.Data.List.Basic
import Mathlib.Data.List.Nodup
import Mathlib.Data.List.Perm.Subperm
import ReactiveView.Binding.Providers

/-!
# Walks without a provider

The search for missing providers is exact: it reports a component if and only if some walk through
the instantiation graph, from a component that can start a tree, reaches it with one of its consumed
keys provided by no component before it.  The search cuts cycles and never enters a component twice
with the same keys in sight, and yet it loses no walk.

The reason is that fewer keys in sight make more consumers fail.  When the search ends, every
component that it has entered with some keys in sight has its children entered with at most these
keys and the component's own (`Resolution.Settled`), so every walk is followed by entries with at
most the keys that the walk provides.
-/

namespace ReactiveView

open List

/-! ## Walks -/

/-- A walk through the instantiation graph that starts at one of the given components and ends at
    `c`; the list holds the components strictly before the end, last first. -/
inductive Walk (components : List Component) (starts : Component → Prop) :
    List Component → Component → Prop
  | start {c : Component} (declared : c ∈ components) (isStart : starts c) :
      Walk components starts [] c
  | step {before : List Component} {p c : Component} (walk : Walk components starts before p)
      (declared : c ∈ components)
      (edge : c.name ∈ p.instances (Component.declares components)) :
      Walk components starts (p :: before) c

namespace Component

/-- A root is an entry, or a component that no component instantiates. -/
def IsRoot (components : List Component) (c : Component) : Prop :=
  c.isEntry = true ∨ ∀ p ∈ components, c.name ∉ p.instances (declares components)

/-- A walk may start at the roots and at the components that cannot be reached from them. -/
def IsStart (components : List Component) (c : Component) : Prop :=
  IsRoot components c ∨ ¬ ∃ before, Walk components (IsRoot components) before c

/-- A key that `c` consumes, with the field that does, is provided by none of the components
    before it. -/
structure Unprovided (before : List Component) (c : Component) (key : String) (row : FieldRow) :
    Prop where
  consumer : (key, row) ∈ c.fieldTable.consumers
  missing : ∀ p ∈ before, key ∉ p.fieldTable.providedKeys

end Component

namespace Walk

variable {components components' : List Component} {starts starts' : Component → Prop}
  {before : List Component} {c : Component}

theorem declared (walk : Walk components starts before c) : c ∈ components := by
  cases walk with
  | start declared _ => exact declared
  | step _ declared _ => exact declared

theorem mono (more : ∀ c, starts c → starts' c) (walk : Walk components starts before c) :
    Walk components starts' before c := by
  induction walk with
  | start declared isStart => exact .start declared (more _ isStart)
  | step _ declared edge ih => exact .step ih declared edge

end Walk

/-! ## Keys in sight -/

namespace ProviderChain

variable {key : String} {scope : ProviderChain}

theorem mem_insertKey {k : String} {keys : List String} :
    k ∈ insertKey key keys ↔ k = key ∨ k ∈ keys := by
  induction keys with
  | nil => simp [insertKey]
  | cons first keys ih =>
    unfold insertKey
    split
    · simp
    · split
      next same => simp [same]
      next => simp [ih, or_left_comm]

theorem mem_visible : key ∈ visible scope ↔ ∃ entry ∈ scope, key ∈ entry.2 := by
  have folded (keys : List String) : key ∈ keys.foldr insertKey [] ↔ key ∈ keys := by
    induction keys with
    | nil => simp
    | cons k keys ih => simp [mem_insertKey, ih]
  rw [visible, folded, mem_flatMap]

theorem mem_visible_cons {entry : String × List String} :
    key ∈ visible (entry :: scope) ↔ key ∈ entry.2 ∨ key ∈ visible scope := by
  simp [mem_visible]

theorem owner?_eq_none_iff : (scope.owner? key).isNone = true ↔ key ∉ visible scope := by
  simp [owner?, mem_visible]

/-- The components before the end of a walk with the keys that they provide. -/
def ofWalk (before : List Component) : ProviderChain :=
  before.map fun p => (p.name, p.fieldTable.providedKeys)

theorem mem_visible_ofWalk {before : List Component} :
    key ∈ visible (ofWalk before) ↔ ∃ p ∈ before, key ∈ p.fieldTable.providedKeys := by
  simp [mem_visible, ofWalk]

end ProviderChain

namespace Component

variable {components : List Component} {c : Component} {name : String}

theorem find?_eq_some_iff (distinct : (components.map (·.name)).Nodup) :
    find? components name = some c ↔ c ∈ components ∧ c.name = name := by
  constructor
  · intro found
    exact ⟨mem_of_find?_eq_some found, by simpa using List.find?_some found⟩
  · rintro ⟨member, named⟩
    cases found : find? components name with
    | none =>
      have absent := List.find?_eq_none.mp found c member
      simp [named] at absent
    | some first =>
      have same : first.name = c.name := by
        rw [named]
        simpa using List.find?_some found
      rw [inj_on_of_nodup_map distinct (mem_of_find?_eq_some found) member same]

theorem declares_iff : declares components name = true ↔ ∃ c ∈ components, c.name = name := by
  simp [declares]

end Component

namespace Resolution

open ProviderChain (visible ofWalk)

variable {file : String} {components : List Component} {r r' r'' : Resolution}
  {scope : ProviderChain} {before : List Component} {c : Component} {name : String}

/-! ## One step of the search -/

/-- Enter a component. -/
def enter (file : String) (scope : ProviderChain) (name : String) (c : Component)
    (r : Resolution) : Resolution :=
  record file scope c { r with entered := (name, visible scope) :: r.entered }

/-- Walk on from a component to its children. -/
def visitBelow (file : String) (components : List Component) (steps : Nat) (scope : ProviderChain)
    (path : List String) (name : String) (c : Component) (children : List String)
    (r : Resolution) : Resolution :=
  children.foldl (fun r child => visit file components steps
    ((c.name, c.fieldTable.providedKeys) :: scope) (name :: path) child r) r

/-- A step stops for one of three reasons, or it enters the component and walks on. -/
theorem visit_cases (file : String) (components : List Component) (steps : Nat)
    (scope : ProviderChain) (path : List String) (name : String) (r : Resolution) :
    (visit file components (steps + 1) scope path name r = r ∧
      (name ∈ path ∨ Component.find? components name = none ∨
        (name, visible scope) ∈ r.entered)) ∨
    ∃ c, name ∉ path ∧ Component.find? components name = some c ∧
      visit file components (steps + 1) scope path name r =
        visitBelow file components steps scope path name c
          (c.instances (Component.declares components)) (enter file scope name c r) := by
  rw [visit]
  by_cases cycle : name ∈ path
  · exact .inl ⟨if_pos (by simpa using cycle), .inl cycle⟩
  · rw [if_neg (by simpa using cycle)]
    cases found : Component.find? components name with
    | none => exact .inl ⟨rfl, .inr (.inl rfl)⟩
    | some c =>
      by_cases again : (name, visible scope) ∈ r.entered
      · exact .inl ⟨if_pos (by simpa using again), .inr (.inr again)⟩
      · exact .inr ⟨c, cycle, rfl, if_neg (by simpa using again)⟩

theorem entered_record (file : String) (scope : ProviderChain) (c : Component) (r : Resolution) :
    (record file scope c r).entered = r.entered := by
  unfold record
  split
  · rfl
  · split <;> rfl

theorem entered_enter (file : String) (scope : ProviderChain) (name : String) (c : Component)
    (r : Resolution) :
    (enter file scope name c r).entered = (name, visible scope) :: r.entered :=
  entered_record file scope c _

theorem missing?_eq_none_iff {table : FieldTable} :
    missing? scope table = none ↔ ∀ consumer ∈ table.consumers, consumer.1 ∈ visible scope := by
  simp only [missing?, List.find?_eq_none, ProviderChain.owner?_eq_none_iff, not_not]

/-! ## What every step keeps -/

section

variable {P : Resolution → Prop}
  (enters : ∀ scope name c r, P r → P (enter file scope name c r))

include enters

/-- What is kept by entering a component is kept by the search. -/
theorem visit_keeps (steps : Nat) (scope : ProviderChain) (path : List String) (name : String)
    (holds : P r) : P (visit file components steps scope path name r) := by
  induction steps generalizing scope path name r with
  | zero => exact holds
  | succ steps ih =>
    rcases visit_cases file components steps scope path name r with
      ⟨stopped, _⟩ | ⟨c, _, _, below⟩
    · rwa [stopped]
    · rw [below, visitBelow]
      apply List.foldlRecOn _ _ (enters scope name c r holds)
      intro r holds child _
      exact ih _ _ child holds

theorem visitAll_keeps (starts : List String) (holds : P r) :
    P (visitAll file components starts r) := by
  apply List.foldlRecOn _ _ holds
  intro r holds name _
  exact visit_keeps enters _ _ _ name holds

end

/-- Every failure is a consumer without a provider. -/
theorem noProvider_of_failures : ∀ failure ∈ (run file components).failures,
    ∃ field key, failure.2.fault = .noProvider field failure.1 key := by
  have enters (scope : ProviderChain) (name : String) (c : Component) (r : Resolution)
      (holds : ∀ failure ∈ r.failures,
        ∃ field key, failure.2.fault = .noProvider field failure.1 key) :
      ∀ failure ∈ (enter file scope name c r).failures,
        ∃ field key, failure.2.fault = .noProvider field failure.1 key := by
    rw [enter, record]
    split
    · exact holds
    · split
      · exact holds
      next key row _ =>
        rw [forall_mem_append, forall_mem_singleton]
        exact ⟨holds, row.name, key, rfl⟩
  apply visitAll_keeps enters
  apply visitAll_keeps enters
  exact fun _ member => absurd member not_mem_nil

/-! ## Nothing wrong is recorded -/

/-- Everything that the search has met is met by a walk, and every failure names a consumer that is
    not provided on a walk to its component. -/
structure Sound (file : String) (components : List Component) (starts : Component → Prop)
    (r : Resolution) : Prop where
  entered : ∀ stop ∈ r.entered, ∃ before c, Walk components starts before c ∧ c.name = stop.1
  failures : ∀ failure ∈ r.failures, ∃ before c key row, Walk components starts before c ∧
    c.name = failure.1 ∧ c.Unprovided before key row ∧
    failure.2 = ⟨.noProvider row.name c.name key, file, c.name, row.location⟩

variable {starts : Component → Prop}

theorem Sound.enter (sound : Sound file components starts r)
    (walk : Walk components starts before c) (named : c.name = name) :
    Sound file components starts (enter file (ofWalk before) name c r) := by
  constructor
  · rw [entered_enter, forall_mem_cons]
    exact ⟨⟨before, c, walk, named⟩, sound.entered⟩
  · rw [Resolution.enter, record]
    split
    · exact sound.failures
    · split
      · exact sound.failures
      next key row found =>
        rw [forall_mem_append, forall_mem_singleton]
        refine ⟨sound.failures, before, c, key, row, walk, rfl, ⟨?_, ?_⟩, rfl⟩
        · exact mem_of_find?_eq_some found
        · intro p member provides
          have missing := List.find?_some found
          rw [ProviderChain.owner?_eq_none_iff] at missing
          exact missing (ProviderChain.mem_visible_ofWalk.mpr ⟨p, member, provides⟩)

theorem Sound.visit (distinct : (components.map (·.name)).Nodup) (steps : Nat)
    (before : List Component) (path : List String) (name : String)
    (sound : Sound file components starts r)
    (walk : ∀ c ∈ components, c.name = name → Walk components starts before c) :
    Sound file components starts (visit file components steps (ofWalk before) path name r) := by
  induction steps generalizing before path name r with
  | zero => exact sound
  | succ steps ih =>
    rcases visit_cases file components steps (ofWalk before) path name r with
      ⟨stopped, _⟩ | ⟨c, _, found, entered⟩
    · rwa [stopped]
    · obtain ⟨declared, named⟩ := (Component.find?_eq_some_iff distinct).mp found
      have here := walk c declared named
      rw [entered, visitBelow]
      apply List.foldlRecOn _ _ (sound.enter here named)
      intro r sound child edge
      exact ih (c :: before) (name :: path) child sound fun q declared same =>
        .step here declared (same ▸ edge)

theorem Sound.visitAll (distinct : (components.map (·.name)).Nodup) {names : List String}
    (sound : Sound file components starts r)
    (isStart : ∀ c ∈ components, c.name ∈ names → starts c) :
    Sound file components starts (visitAll file components names r) := by
  apply List.foldlRecOn _ _ sound
  intro r sound name member
  exact sound.visit distinct _ [] [] name fun c declared same =>
    .start declared (isStart c declared (same ▸ member))

/-! ## No walk is lost -/

/-- A component was entered with at most the given keys in sight. -/
def Covers (r : Resolution) (name : String) (keys : String → Prop) : Prop :=
  ∃ stop, (name, stop) ∈ r.entered ∧ ∀ key ∈ stop, keys key

/-- A component that was entered with some keys in sight has its children entered with at most
    these keys and its own, and it has failed if it consumes another key. -/
structure Settled (components : List Component) (r : Resolution) (c : Component)
    (keys : List String) : Prop where
  children : ∀ child ∈ c.instances (Component.declares components),
    Component.declares components child = true →
      r.Covers child fun key => key ∈ keys ∨ key ∈ c.fieldTable.providedKeys
  failed : ∀ consumer ∈ c.fieldTable.consumers, consumer.1 ∉ keys →
    (r.failures.lookup c.name).isSome = true

/-- A part of the search: it forgets nothing, and what it enters is settled when it ends. -/
structure Extends (components : List Component) (r r' : Resolution) : Prop where
  entered : ∀ stop ∈ r.entered, stop ∈ r'.entered
  failed : ∀ name, (r.failures.lookup name).isSome = true →
    (r'.failures.lookup name).isSome = true
  settled : ∀ stop ∈ r'.entered, stop ∈ r.entered ∨
    ∀ c, Component.find? components stop.1 = some c → Settled components r' c stop.2

theorem Covers.mono {keys keys' : String → Prop} (covers : r.Covers name keys)
    (more : ∀ key, keys key → keys' key) : r.Covers name keys' := by
  obtain ⟨stop, entered, few⟩ := covers
  exact ⟨stop, entered, fun key member => more key (few key member)⟩

namespace Extends

theorem refl (r : Resolution) : Extends components r r :=
  ⟨fun _ => id, fun _ => id, fun _ => .inl⟩

theorem covers (ext : Extends components r r') {name : String} {keys : String → Prop}
    (covers : r.Covers name keys) : r'.Covers name keys := by
  obtain ⟨stop, entered, few⟩ := covers
  exact ⟨stop, ext.entered _ entered, few⟩

theorem keepsSettled (ext : Extends components r r') {c : Component} {keys : List String}
    (settled : Settled components r c keys) : Settled components r' c keys :=
  ⟨fun child edge declared => ext.covers (settled.children child edge declared),
    fun consumer member missing => ext.failed _ (settled.failed consumer member missing)⟩

theorem trans (first : Extends components r r') (second : Extends components r' r'') :
    Extends components r r'' := by
  refine ⟨fun stop => second.entered stop ∘ first.entered stop,
    fun name => second.failed name ∘ first.failed name, fun stop member => ?_⟩
  rcases second.settled stop member with old | settled
  · rcases first.settled stop old with older | settled
    · exact .inl older
    · exact .inr fun c found => second.keepsSettled (settled c found)
  · exact .inr settled

end Extends

/-- Steps that each forget nothing and cover a component do so together.  The components of `path`
    stand for those that are not entered again. -/
theorem foldl_extends {step : Resolution → String → Resolution} {path : List String}
    {keys : String → Prop}
    (each : ∀ r child, (∀ a ∈ path, r.Covers a keys) → Extends components r (step r child) ∧
      (Component.declares components child = true → (step r child).Covers child keys))
    (children : List String) (known : ∀ a ∈ path, r.Covers a keys) :
    Extends components r (children.foldl step r) ∧
      ∀ child ∈ children, Component.declares components child = true →
        (children.foldl step r).Covers child keys := by
  induction children generalizing r with
  | nil => exact ⟨.refl r, fun _ member => absurd member not_mem_nil⟩
  | cons child children ih =>
    obtain ⟨first, covered⟩ := each r child known
    obtain ⟨rest, others⟩ := ih fun a member => first.covers (known a member)
    refine ⟨first.trans rest, ?_⟩
    rw [forall_mem_cons]
    exact ⟨fun declared => rest.covers (covered declared), others⟩

theorem lookup_isSome_append {failures : List (String × Diagnostic)} {failure : String × Diagnostic}
    (failed : (failures.lookup name).isSome = true) :
    ((failures ++ [failure]).lookup name).isSome = true := by
  rw [lookup_append]
  simp [failed]

theorem failed_record (failed : (r.failures.lookup name).isSome = true) :
    ((record file scope c r).failures.lookup name).isSome = true := by
  unfold record
  split
  · exact failed
  · split
    · exact failed
    · exact lookup_isSome_append failed

/-- A component with a consumed key out of sight has failed once it is entered. -/
theorem failed_of_missing {consumer : String × FieldRow}
    (member : consumer ∈ c.fieldTable.consumers) (missing : consumer.1 ∉ visible scope) :
    ((record file scope c r).failures.lookup c.name).isSome = true := by
  unfold record
  split
  next failed => exact failed
  next fresh =>
    split
    next none => exact absurd (missing?_eq_none_iff.mp none consumer member) missing
    next key row _ =>
      rw [lookup_append]
      simp

/-- A component that is entered is settled as soon as its children are covered. -/
theorem extends_of_enter (found : Component.find? components name = some c)
    (below : Extends components (enter file scope name c r) r') (children : ∀ child ∈ c.instances
      (Component.declares components), Component.declares components child = true → r'.Covers child
      (· ∈ visible ((c.name, c.fieldTable.providedKeys) :: scope))) : Extends components r r' := by
  have entered := entered_enter file scope name c r
  refine ⟨fun stop member => below.entered stop (entered ▸ mem_cons_of_mem _ member),
    fun n failed => below.failed n (failed_record failed), fun stop member => ?_⟩
  rcases below.settled stop member with old | settled
  · rw [entered] at old
    rcases mem_cons.mp old with rfl | older
    -- of what was entered before, only the component itself is new
    · refine .inr fun c' found' => ?_
      cases found.symm.trans found'
      constructor
      · intro child edge declared
        refine (children child edge declared).mono fun key visible => ?_
        rw [ProviderChain.mem_visible_cons] at visible
        exact visible.symm
      · intro consumer member missing
        exact below.failed _ (failed_of_missing member missing)
    · exact .inl older
  · exact .inr settled

theorem length_path_le {path : List String} (distinct : path.Nodup)
    (declared : ∀ a ∈ path, Component.declares components a = true) :
    path.length ≤ components.length := by
  have names : path ⊆ components.map (·.name) := by
    intro a member
    obtain ⟨c, declared, same⟩ := Component.declares_iff.mp (declared a member)
    exact same ▸ mem_map_of_mem declared
  simpa using (subperm_of_subset distinct names).length_le

variable (distinct : (components.map (·.name)).Nodup)
include distinct

/-- A step of the search covers the component that it walks to, and settles all that it enters. -/
theorem visit_extends (steps : Nat) (scope : ProviderChain) (path : List String) (name : String)
    (r : Resolution) (simple : path.Nodup)
    (declared : ∀ a ∈ path, Component.declares components a = true)
    (enough : components.length < steps + path.length)
    (known : ∀ a ∈ path, r.Covers a (· ∈ visible scope)) :
    Extends components r (visit file components steps scope path name r) ∧
      (Component.declares components name = true →
        (visit file components steps scope path name r).Covers name (· ∈ visible scope)) := by
  induction steps generalizing scope path name r with
  | zero =>
    -- a path without repetitions is never longer than the list of components
    have short := length_path_le simple declared
    omega
  | succ steps ih =>
    rcases visit_cases file components steps scope path name r with
      ⟨stopped, reason⟩ | ⟨c, fresh, found, entered⟩
    · rw [stopped]
      refine ⟨.refl r, fun isDeclared => ?_⟩
      rcases reason with cycle | unknown | again
      -- a component on the path was entered with fewer keys in sight
      · exact known name cycle
      · obtain ⟨c, member, same⟩ := Component.declares_iff.mp isDeclared
        rw [(Component.find?_eq_some_iff distinct).mpr ⟨member, same⟩] at unknown
        cases unknown
      · exact ⟨_, again, fun _ => id⟩
    · obtain ⟨_, named⟩ := (Component.find?_eq_some_iff distinct).mp found
      have isDeclared : Component.declares components name = true :=
        Component.declares_iff.mpr ⟨c, mem_of_find?_eq_some found, named⟩
      have here : (enter file scope name c r).Covers name (· ∈ visible scope) :=
        ⟨_, entered_enter file scope name c r ▸ mem_cons_self, fun _ => id⟩
      -- in the steps below, the component itself is on the path
      have known' : ∀ a ∈ name :: path, (enter file scope name c r).Covers a
          (· ∈ visible ((c.name, c.fieldTable.providedKeys) :: scope)) := by
        have more (key : String) (visible : key ∈ visible scope) :
            key ∈ ProviderChain.visible ((c.name, c.fieldTable.providedKeys) :: scope) :=
          ProviderChain.mem_visible_cons.mpr (.inr visible)
        rw [forall_mem_cons]
        refine ⟨here.mono more, fun a member => ?_⟩
        obtain ⟨stop, old, few⟩ := known a member
        exact ⟨stop, entered_enter file scope name c r ▸ mem_cons_of_mem _ old,
          fun key member => more key (few key member)⟩
      have each (r : Resolution) (child : String) :=
        ih ((c.name, c.fieldTable.providedKeys) :: scope) (name :: path) child r
          (nodup_cons.mpr ⟨fresh, simple⟩)
          (forall_mem_cons.mpr ⟨isDeclared, declared⟩) (by rw [length_cons]; omega)
      obtain ⟨below, children⟩ := foldl_extends each
        (c.instances (Component.declares components)) known'
      rw [entered]
      exact ⟨extends_of_enter found below children, fun _ => below.covers here⟩

theorem visitAll_extends (file : String) (names : List String) (r : Resolution) :
    Extends components r (visitAll file components names r) ∧
      ∀ name ∈ names, Component.declares components name = true →
        (visitAll file components names r).Covers name (· ∈ visible []) :=
  foldl_extends
    (fun r child => visit_extends distinct (components.length + 1) [] [] child r nodup_nil
      (fun _ member => absurd member not_mem_nil) (by simp))
    names (fun _ member => absurd member not_mem_nil)

/-- Once everything that was entered is settled, every walk is covered with at most the keys that it
    provides. -/
theorem covers_of_walk {starts : Component → Prop} (settled : Extends components {} r)
    (first : ∀ c ∈ components, starts c → r.Covers c.name (· ∈ visible []))
    (walk : Walk components starts before c) : r.Covers c.name (· ∈ visible (ofWalk before)) := by
  induction walk with
  | start declared isStart => exact first _ declared isStart
  | @step before p c walk declared edge ih =>
    obtain ⟨stop, entered, few⟩ := ih
    rcases settled.settled _ entered with none | settled
    · exact absurd none not_mem_nil
    · have found := (Component.find?_eq_some_iff distinct).mpr ⟨walk.declared, rfl⟩
      have isDeclared := Component.declares_iff.mpr ⟨c, declared, rfl⟩
      refine ((settled p found).children c.name edge isDeclared).mono fun key sight => ?_
      rw [ofWalk, map_cons, ProviderChain.mem_visible_cons]
      exact sight.symm.imp_right (few key)

/-- On a walk that leaves a key unprovided, the component at the end has failed. -/
theorem failed_of_walk {starts : Component → Prop} (settled : Extends components {} r)
    (first : ∀ c ∈ components, starts c → r.Covers c.name (· ∈ visible [])) {key : String}
    {row : FieldRow} (walk : Walk components starts before c)
    (unprovided : c.Unprovided before key row) : (r.failures.lookup c.name).isSome = true := by
  obtain ⟨stop, entered, few⟩ := covers_of_walk distinct settled first walk
  rcases settled.settled _ entered with none | settled
  · exact absurd none not_mem_nil
  · have found := (Component.find?_eq_some_iff distinct).mpr ⟨walk.declared, rfl⟩
    refine (settled c found).failed (key, row) unprovided.consumer fun sight => ?_
    obtain ⟨p, member, provides⟩ := ProviderChain.mem_visible_ofWalk.mp (few key sight)
    exact unprovided.missing p member provides

/-! ## The whole search -/

theorem mem_instantiated : name ∈ instantiated components ↔
    ∃ p ∈ components, name ∈ p.instances (Component.declares components) := by
  unfold instantiated
  rw [mem_flatMap]
  refine exists_congr fun p => and_congr_right fun declared => ?_
  rw [(Component.find?_eq_some_iff distinct).mpr ⟨declared, rfl⟩]

theorem mem_roots (declared : c ∈ components) :
    c.name ∈ roots components ↔ Component.IsRoot components c := by
  have isRoot (p : Component) : (p.isEntry || !(instantiated components).contains p.name) = true ↔
      Component.IsRoot components p := by
    simp [Component.IsRoot, mem_instantiated distinct]
  simp only [roots, mem_map, mem_filter, isRoot]
  constructor
  · rintro ⟨p, ⟨member, root⟩, same⟩
    rwa [← inj_on_of_nodup_map distinct member declared same]
  · intro root
    exact ⟨c, ⟨declared, root⟩, rfl⟩

/-- The search from the roots only. -/
def fromRoots (file : String) (components : List Component) : Resolution :=
  visitAll file components (roots components) {}

theorem fromRoots_sound (file : String) :
    Sound file components (Component.IsRoot components) (fromRoots file components) := by
  refine Sound.visitAll distinct ⟨?_, ?_⟩ fun c declared => (mem_roots distinct declared).mp
  · exact fun _ member => absurd member not_mem_nil
  · exact fun _ member => absurd member not_mem_nil

theorem fromRoots_covers (declared : c ∈ components) (root : Component.IsRoot components c) :
    (fromRoots file components).Covers c.name (· ∈ visible []) :=
  (visitAll_extends distinct file (roots components) {}).2 c.name
    ((mem_roots distinct declared).mpr root) (Component.declares_iff.mpr ⟨c, declared, rfl⟩)

/-- The search from the roots enters exactly the components that can be reached from them. -/
theorem entered_fromRoots_iff (file : String) (declared : c ∈ components) :
    ((fromRoots file components).entered.any (·.1 = c.name)) = true ↔
      ∃ before, Walk components (Component.IsRoot components) before c := by
  constructor
  · intro entered
    obtain ⟨stop, member, same⟩ := any_eq_true.mp entered
    obtain ⟨before, p, walk, named⟩ := (fromRoots_sound distinct file).entered stop member
    have same : p.name = c.name := named.trans (by simpa using same)
    exact ⟨before, inj_on_of_nodup_map distinct walk.declared declared same ▸ walk⟩
  · rintro ⟨before, walk⟩
    obtain ⟨stop, member, _⟩ := covers_of_walk distinct (visitAll_extends distinct file _ {}).1
      (fun _ => fromRoots_covers distinct) walk
    exact any_eq_true.mpr ⟨_, member, by simp⟩

/-- The components that the search from the roots does not enter. -/
def unreached (file : String) (components : List Component) : List String :=
  (components.map (·.name)).filter fun name => !(fromRoots file components).entered.any (·.1 = name)

theorem mem_unreached (declared : c ∈ components) : c.name ∈ unreached file components ↔
    ¬ ∃ before, Walk components (Component.IsRoot components) before c := by
  rw [← entered_fromRoots_iff distinct file declared, unreached, mem_filter,
    Bool.not_eq_true', Bool.not_eq_true]
  exact and_iff_right (mem_map_of_mem declared)

omit distinct in
theorem run_eq (file : String) (components : List Component) :
    run file components =
      visitAll file components (unreached file components) (fromRoots file components) := rfl

theorem run_sound : Sound file components (Component.IsStart components) (run file components) := by
  have first := fromRoots_sound distinct file
  rw [run_eq]
  refine Sound.visitAll distinct ⟨?_, ?_⟩ fun c declared member =>
    .inr ((mem_unreached distinct declared).mp member)
  · intro stop member
    obtain ⟨before, c, walk, named⟩ := first.entered stop member
    exact ⟨before, c, walk.mono fun _ => .inl, named⟩
  · intro failure member
    obtain ⟨before, c, key, row, walk, rest⟩ := first.failures failure member
    exact ⟨before, c, key, row, walk.mono fun _ => .inl, rest⟩

theorem run_extends : Extends components {} (run file components) :=
  (visitAll_extends distinct file (roots components) {}).1.trans
    (visitAll_extends distinct file (unreached file components) _).1

theorem run_covers (declared : c ∈ components) (isStart : Component.IsStart components c) :
    (run file components).Covers c.name (· ∈ visible []) := by
  obtain ⟨second, others⟩ := visitAll_extends distinct file (unreached file components)
    (fromRoots file components)
  -- what the first round has covered stays covered in the second
  rcases isStart with root | cyclic
  · exact second.covers (fromRoots_covers distinct declared root)
  · exact others c.name ((mem_unreached distinct declared).mpr cyclic)
      (Component.declares_iff.mpr ⟨c, declared, rfl⟩)

end Resolution

/-! ## Order of declaration -/

namespace Component

variable {components components' : List Component} {c : Component}

theorem declares_perm (perm : components.Perm components') :
    declares components' = declares components := by
  funext name
  rw [Bool.eq_iff_iff, declares_iff, declares_iff]
  simp only [perm.mem_iff]

theorem isRoot_perm (perm : components.Perm components') :
    IsRoot components' c ↔ IsRoot components c := by
  simp only [IsRoot, declares_perm perm, perm.mem_iff]

end Component

theorem Walk.perm {components components' : List Component} {starts starts' : Component → Prop}
    {before : List Component} {c : Component} (perm : components.Perm components')
    (same : ∀ c, starts c → starts' c) (walk : Walk components starts before c) :
    Walk components' starts' before c := by
  induction walk with
  | start declared isStart => exact .start (perm.mem_iff.mp declared) (same _ isStart)
  | step _ declared edge ih =>
    exact .step ih (perm.mem_iff.mp declared) (Component.declares_perm perm ▸ edge)

namespace Component

variable {components components' : List Component} {c : Component}

theorem isStart_perm (perm : components.Perm components') (isStart : IsStart components c) :
    IsStart components' c := by
  refine isStart.imp (isRoot_perm perm).mpr fun unreached => ?_
  rintro ⟨before, walk⟩
  exact unreached ⟨before, walk.perm perm.symm fun _ => (isRoot_perm perm).mp⟩

end Component

theorem mem_consumerFailures {file name : String} {components : List Component} {d : Diagnostic}
    (reported : (consumerFailures file components).lookup name = some d) :
    (name, d) ∈ consumerFailures file components := by
  obtain ⟨_, _, split, _⟩ := lookup_eq_some_iff.mp reported
  exact split ▸ mem_append_cons_self

section

variable {components : List Component} (distinct : (components.map (·.name)).Nodup) (file : String)

include distinct

/-- A reported failure names a consumer that some walk leaves without a provider. -/
theorem unprovided_of_consumerFailures {name : String} {d : Diagnostic}
    (reported : (consumerFailures file components).lookup name = some d) :
    ∃ before c key row, Walk components (Component.IsStart components) before c ∧
      c.name = name ∧ c.Unprovided before key row ∧
      d = ⟨.noProvider row.name c.name key, file, c.name, row.location⟩ := by
  exact (Resolution.run_sound distinct).failures (name, d) (mem_consumerFailures reported)

/-- A component is reported if some walk leaves one of its consumers without a provider. -/
theorem consumerFailures_of_unprovided {before : List Component} {c : Component} {key : String}
    {row : FieldRow} (walk : Walk components (Component.IsStart components) before c)
    (unprovided : c.Unprovided before key row) :
    ((consumerFailures file components).lookup c.name).isSome = true :=
  Resolution.failed_of_walk distinct (Resolution.run_extends distinct)
    (fun _ => Resolution.run_covers distinct) walk unprovided

theorem isSome_consumerFailures_iff (name : String) :
    ((consumerFailures file components).lookup name).isSome = true ↔
      ∃ before c key row, Walk components (Component.IsStart components) before c ∧
        c.name = name ∧ c.Unprovided before key row := by
  constructor
  · intro reported
    obtain ⟨d, reported⟩ := Option.isSome_iff_exists.mp reported
    obtain ⟨before, c, key, row, walk, named, unprovided, _⟩ :=
      unprovided_of_consumerFailures distinct file reported
    exact ⟨before, c, key, row, walk, named, unprovided⟩
  · rintro ⟨before, c, key, row, walk, rfl, unprovided⟩
    exact consumerFailures_of_unprovided distinct file walk unprovided

end

/-- The search for missing providers reports a component if and only if some walk from a start
    leaves one of its consumed keys unprovided.  What it reports is such a consumer, and which
    components it reports does not depend on the order of declaration. -/
theorem consumerFailures_exact {components : List Component}
    (distinct : (components.map (·.name)).Nodup) (file : String) :
    (∀ name, ((consumerFailures file components).lookup name).isSome = true ↔
      ∃ before c key row, Walk components (Component.IsStart components) before c ∧
        c.name = name ∧ c.Unprovided before key row) ∧
    (∀ name d, (consumerFailures file components).lookup name = some d →
      ∃ before c key row, Walk components (Component.IsStart components) before c ∧
        c.name = name ∧ c.Unprovided before key row ∧
        d = ⟨.noProvider row.name c.name key, file, c.name, row.location⟩) ∧
    ∀ components', components.Perm components' → ∀ name,
      ((consumerFailures file components').lookup name).isSome =
        ((consumerFailures file components).lookup name).isSome := by
  refine ⟨isSome_consumerFailures_iff distinct file,
    fun _ _ => unprovided_of_consumerFailures distinct file, fun components' perm name => ?_⟩
  have distinct' : (components'.map (·.name)).Nodup := (perm.map (·.name)).nodup_iff.mp distinct
  rw [Bool.eq_iff_iff, isSome_consumerFailures_iff distinct', isSome_consumerFailures_iff distinct]
  constructor
  · rintro ⟨before, c, key, row, walk, rest⟩
    exact ⟨before, c, key, row, walk.perm perm.symm fun _ => Component.isStart_perm perm.symm, rest⟩
  · rintro ⟨before, c, key, row, walk, rest⟩
    exact ⟨before, c, key, row, walk.perm perm fun _ => Component.isStart_perm perm, rest⟩

/-- Two components that instantiate each other; one consumes what the other provides. -/
def themeRing : List Component := [
  { name := "Left"
    members := [.field { name := "theme", decorator := .consume none }]
    render := { body := [.element { name := "Right" } []] } },
  { name := "Right"
    members := [.field { name := "theme", decorator := .provide none, initializer := some "1" }]
    render := { body := [.element { name := "Left" } []] } }]

theorem consumerFailures_exact_themeRing :
    (themeRing.map (·.name)).Nodup ∧
      ((consumerFailures "ring.ets" themeRing).lookup "Left").isSome = true ∧
      ((consumerFailures "ring.ets" themeRing.reverse).lookup "Left").isSome = true ∧
      ∃ before c key row, Walk themeRing (Component.IsStart themeRing) before c ∧
        c.name = "Left" ∧ c.Unprovided before key row := by
  have distinct : (themeRing.map (·.name)).Nodup := by decide
  obtain ⟨reports, _, order⟩ := consumerFailures_exact distinct "ring.ets"
  have reported : ((consumerFailures "ring.ets" themeRing).lookup "Left").isSome = true := by rfl
  exact ⟨distinct, reported,
    (order themeRing.reverse themeRing.reverse_perm.symm "Left").trans reported,
    (reports "Left").mp reported⟩

end ReactiveView
