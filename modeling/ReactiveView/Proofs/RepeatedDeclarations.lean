import ReactiveView.Proofs.ProviderWalks
import ReactiveView.Proofs.SiblingOutcomes

/-!
# Repeated declarations

Of several declarations of one name only the first counts; each later one is refused.  Here a later
one is deleted and the outcomes of all others are compared.

Names stand for the same components without it.  The search for missing providers, though, has the
deleted declaration in three places.  It bounds the length of a path, which is long enough anyway
(`Resolution.visit_steps`).  It is walked from once more when it is a root, or when its name has not
been reached; this second walk stops at once (`Resolution.visit_of_entered`), if there was a first.
And there was one, unless the declaration is an entry that makes a root of a component which is
instantiated and not an entry otherwise.  In this one case a declaration that is refused decides
what becomes of others; even then it can do no more than to change which providers are missing.
-/

namespace ReactiveView

open List

/-! ## Names -/

namespace Component

variable {before after : List Component} {d : Component}

theorem find?_repeated (repeated : declares before d.name = true) :
    find? (before ++ d :: after) = find? (before ++ after) := by
  funext name
  simp only [find?, List.find?_append]
  by_cases named : d.name = name
  · -- the name is found before the repeated declaration
    rw [declares_eq_isSome_find?, named, Option.isSome_iff_exists] at repeated
    obtain ⟨first, found⟩ := repeated
    rw [find?] at found
    rw [found, Option.some_or, Option.some_or]
  · rw [List.find?_cons_of_neg (by simpa using named)]

theorem declares_repeated (repeated : declares before d.name = true) :
    declares (before ++ d :: after) = declares (before ++ after) := by
  funext name
  rw [declares_eq_isSome_find?, declares_eq_isSome_find?, find?_repeated repeated]

end Component

namespace Resolution

open ProviderChain (visible)

variable {file : String} {components components' : List Component} {r : Resolution}

/-! ## Enough steps -/

theorem visit_of_find? (found : Component.find? components' = Component.find? components)
    (steps : Nat) (scope : ProviderChain) (path : List String) (name : String) (r : Resolution) :
    visit file components' steps scope path name r =
      visit file components steps scope path name r := by
  have known : Component.declares components' = Component.declares components := by
    funext n
    rw [Component.declares_eq_isSome_find?, Component.declares_eq_isSome_find?, found]
  induction steps generalizing scope path name r with
  | zero => rfl
  | succ steps ih => simp only [visit, found, known, ih]

/-- A path without repetitions is at most as long as the list of components, so any two bounds above
    that give the same walk. -/
theorem visit_steps {steps steps' : Nat} {path : List String} (simple : path.Nodup)
    (declared : ∀ a ∈ path, Component.declares components a = true)
    (enough : components.length < steps + path.length)
    (enough' : components.length < steps' + path.length)
    (scope : ProviderChain) (name : String) (r : Resolution) :
    visit file components steps scope path name r =
      visit file components steps' scope path name r := by
  have short := length_path_le simple declared
  induction steps generalizing steps' scope path name r with
  | zero => omega
  | succ steps ih =>
    cases steps' with
    | zero => omega
    | succ steps' =>
      rw [visit, visit]
      by_cases cycle : path.contains name = true
      · rw [if_pos cycle, if_pos cycle]
      · rw [if_neg cycle, if_neg cycle]
        cases found : Component.find? components name with
        | none => rfl
        | some c =>
          have simple' : (name :: path).Nodup := nodup_cons.mpr ⟨by simpa using cycle, simple⟩
          have isDeclared : Component.declares components name = true := by
            rw [Component.declares_eq_isSome_find?, found, Option.isSome_some]
          have declared' : ∀ a ∈ name :: path, Component.declares components a = true :=
            forall_mem_cons.mpr ⟨isDeclared, declared⟩
          -- the children are walked to with one step less and one more component on the path
          have below (scope : ProviderChain) (child : String) (r : Resolution) :
              visit file components steps scope (name :: path) child r =
                visit file components steps' scope (name :: path) child r := by
            apply ih simple' declared' _ _ scope child r (length_path_le simple' declared')
            · rw [length_cons]
              omega
            · rw [length_cons]
              omega
          simp only [below]

/-! ## Walking twice -/

theorem entered_keeps (stop : String × List String) (scope : ProviderChain) (name : String)
    (c : Component) (r : Resolution) (entered : stop ∈ r.entered) :
    stop ∈ (enter file scope name c r).entered := by
  rw [entered_enter]
  exact mem_cons_of_mem _ entered

/-- A walk that begins at a component enters it with nothing in sight. -/
theorem entered_of_visit {name : String} (declared : Component.declares components name = true)
    (steps : Nat) :
    (name, visible []) ∈ (visit file components (steps + 1) [] [] name r).entered := by
  rcases visit_cases file components steps [] [] name r with
    ⟨stopped, reason⟩ | ⟨c, _, _, below⟩
  · rw [stopped]
    rcases reason with cycle | unknown | again
    · exact absurd cycle not_mem_nil
    · rw [Component.declares_eq_isSome_find?, unknown, Option.isSome_none] at declared
      cases declared
    · exact again
  · rw [below, visitBelow]
    apply List.foldlRecOn (motive := fun r : Resolution => (name, visible []) ∈ r.entered)
    · rw [entered_enter]
      exact mem_cons_self
    · intro r entered child _
      exact visit_keeps (entered_keeps _) steps _ _ child entered

theorem visit_of_entered {scope : ProviderChain} {name : String}
    (entered : (name, visible scope) ∈ r.entered) (steps : Nat) (path : List String) :
    visit file components steps scope path name r = r := by
  cases steps with
  | zero => rfl
  | succ steps =>
    rw [visit]
    split
    · rfl
    · split
      · rfl
      · exact if_pos (by simpa using entered)

theorem entered_of_visitAll {name : String} (declared : Component.declares components name = true)
    {starts : List String} (member : name ∈ starts) :
    (name, visible []) ∈ (visitAll file components starts r).entered := by
  induction starts generalizing r with
  | nil => exact absurd member not_mem_nil
  | cons start starts ih =>
    rw [visitAll, foldl_cons]
    rcases mem_cons.mp member with rfl | later
    · -- entered by the first walk, and kept by all others
      exact visitAll_keeps (entered_keeps _) starts (entered_of_visit declared _)
    · exact ih later

/-- A second walk from a component adds nothing. -/
theorem visitAll_again {name : String} (declared : Component.declares components name = true)
    {starts : List String} (member : name ∈ starts) (rest : List String) :
    visitAll file components (starts ++ name :: rest) r =
      visitAll file components (starts ++ rest) r := by
  have entered : (name, visible []) ∈ (visitAll file components starts r).entered :=
    entered_of_visitAll declared member
  rw [visitAll] at entered
  rw [visitAll, visitAll, foldl_append, foldl_append, foldl_cons,
    visit_of_entered entered]

/-! ## The search without a repeated declaration -/

section

variable {before after : List Component} {d : Component}
  (repeated : Component.declares before d.name = true)

include repeated

theorem visitAll_repeated (starts : List String) (r : Resolution) :
    visitAll file (before ++ d :: after) starts r = visitAll file (before ++ after) starts r := by
  have walk (name : String) (r : Resolution) :
      visit file (before ++ d :: after) ((before ++ d :: after).length + 1) [] [] name r =
        visit file (before ++ after) ((before ++ after).length + 1) [] [] name r := by
    rw [visit_of_find? (Component.find?_repeated repeated)]
    apply visit_steps nodup_nil (fun _ member => absurd member not_mem_nil)
    · simp only [length_append, length_cons, length_nil]
      omega
    · simp only [length_nil]
      omega
  simp only [visitAll, walk]

/-- Starts that are chosen among the declarations, as roots are, may be chosen among the others. -/
theorem visitAll_filter_repeated {chosen : Component → Bool}
    (again : chosen d = true → ∃ c ∈ before, c.name = d.name ∧ chosen c = true) (r : Resolution) :
    visitAll file (before ++ d :: after)
        (((before ++ d :: after).filter chosen).map (·.name)) r =
      visitAll file (before ++ after) (((before ++ after).filter chosen).map (·.name)) r := by
  rw [visitAll_repeated repeated]
  simp only [filter_append, map_append]
  by_cases isChosen : chosen d = true
  · obtain ⟨c, earlier, named, cChosen⟩ := again isChosen
    have member : d.name ∈ (before.filter chosen).map (·.name) :=
      mem_map.mpr ⟨c, mem_filter.mpr ⟨earlier, cChosen⟩, named⟩
    have declared : Component.declares (before ++ after) d.name = true :=
      Component.declares_iff.mpr ⟨c, mem_append_left _ earlier, named⟩
    rw [filter_cons_of_pos isChosen, map_cons, visitAll_again declared member]
  · rw [filter_cons_of_neg isChosen]

theorem contains_instantiated_repeated (name : String) :
    (instantiated (before ++ d :: after)).contains name =
      (instantiated (before ++ after)).contains name := by
  have byName (components : List Component) : instantiated components =
      (components.map (·.name)).flatMap (childrenOf components) := by
    rw [flatMap_map]
    rfl
  have children : childrenOf (before ++ d :: after) = childrenOf (before ++ after) := by
    unfold childrenOf
    rw [Component.find?_repeated repeated, Component.declares_repeated repeated]
  obtain ⟨c, earlier, named⟩ := Component.declares_iff.mp repeated
  have member : d.name ∈ before.map (·.name) := mem_map.mpr ⟨c, earlier, named⟩
  rw [byName, byName, children, Bool.eq_iff_iff]
  simp only [contains_iff_mem, mem_flatMap, map_append, map_cons,
    mem_append, mem_cons]
  grind

variable (covered : d.isEntry = true → d.name ∈ instantiated (before ++ d :: after) →
  ∃ c ∈ before, c.name = d.name ∧ c.isEntry = true)

include covered

theorem fromRoots_repeated :
    fromRoots file (before ++ d :: after) = fromRoots file (before ++ after) := by
  simp only [fromRoots, roots, contains_instantiated_repeated repeated]
  apply visitAll_filter_repeated repeated
  intro isRoot
  rw [← contains_instantiated_repeated repeated] at isRoot
  by_cases used : d.name ∈ instantiated (before ++ d :: after)
  · have isEntry : d.isEntry = true := by simpa [used] using isRoot
    obtain ⟨c, earlier, named, entry⟩ := covered isEntry used
    exact ⟨c, earlier, named, by simp [entry]⟩
  · -- then every declaration of the name is a root
    obtain ⟨c, earlier, named⟩ := Component.declares_iff.mp repeated
    refine ⟨c, earlier, named, ?_⟩
    rw [named, ← contains_instantiated_repeated repeated]
    simp [used]

theorem run_repeated : run file (before ++ d :: after) = run file (before ++ after) := by
  have names (components : List Component) : unreached file components =
      (components.filter fun c =>
        !(fromRoots file components).entered.any (·.1 = c.name)).map (·.name) := by
    rw [unreached, filter_map]
    rfl
  rw [run_eq, run_eq, names, names, fromRoots_repeated repeated covered]
  apply visitAll_filter_repeated repeated
  intro unreached
  -- an earlier declaration of the name is not reached either
  obtain ⟨c, earlier, named⟩ := Component.declares_iff.mp repeated
  exact ⟨c, earlier, named, named ▸ unreached⟩

end

end Resolution

/-! ## Outcomes -/

namespace Component

variable {components : List Component} {i : Nat} {d : Component}

theorem split_at (here : components[i]? = some d) :
    components = components.take i ++ d :: components.drop (i + 1) := by
  obtain ⟨inside, rfl⟩ := List.getElem?_eq_some_iff.mp here
  rw [← drop_eq_getElem_cons inside, take_append_drop]

section

variable (here : components[i]? = some d) (repeated : declares (components.take i) d.name = true)

include here repeated

theorem find?_eraseIdx : find? (components.eraseIdx i) = find? components := by
  rw [eraseIdx_eq_take_drop_succ, ← find?_repeated repeated, ← split_at here]

theorem declares_take_eraseIdx (j : Nat) :
    declares ((components.eraseIdx i).take j) =
      declares (components.take (if j < i then j else j + 1)) := by
  obtain ⟨inside, _⟩ := List.getElem?_eq_some_iff.mp here
  have length : (components.take i).length = i := by
    rw [List.length_take]
    omega
  rw [eraseIdx_eq_take_drop_succ]
  by_cases before : j < i
  · rw [if_pos before, take_append_of_le_length (by omega), take_take,
      Nat.min_eq_left (by omega)]
  · -- past the repeated declaration, one more is taken for it
    have later : j + 1 - i = j - i + 1 := by omega
    have whole (n : Nat) (more : i ≤ n) : (components.take i).take n = components.take i :=
      take_of_length_le (by omega)
    rw [if_neg before]
    conv_rhs => rw [split_at here]
    rw [take_append, take_append, length, later, take_succ_cons,
      whole j (by omega), whole (j + 1) (by omega), declares_repeated repeated]

end

end Component

theorem consumerFailures_eraseIdx {components : List Component} {i : Nat} {d : Component}
    (here : components[i]? = some d)
    (repeated : Component.declares (components.take i) d.name = true)
    (covered : d.isEntry = true → d.name ∈ Resolution.instantiated components →
      ∃ c ∈ components.take i, c.name = d.name ∧ c.isEntry = true) (file : String) :
    consumerFailures file (components.eraseIdx i) = consumerFailures file components := by
  have split := Component.split_at here
  have same : Resolution.run file (components.take i ++ d :: components.drop (i + 1)) =
      Resolution.run file (components.take i ++ components.drop (i + 1)) := by
    apply Resolution.run_repeated repeated
    intro isEntry used
    rw [← split] at used
    exact covered isEntry used
  rw [← split] at same
  rw [consumerFailures, consumerFailures, eraseIdx_eq_take_drop_succ, same]

/-- A component was refused for a consumer without a provider. -/
def Outcome.LacksProvider (o : Outcome) : Prop :=
  ∃ d field key, o.result = .error d ∧ d.fault = .noProvider field o.name key

theorem noProvider_of_lookup {file name : String} {components : List Component} {d : Diagnostic}
    (reported : (consumerFailures file components).lookup name = some d) :
    ∃ field key, d.fault = .noProvider field name key := by
  exact Resolution.noProvider_of_failures (name, d) (mem_consumerFailures reported)

namespace ModuleScope.Resembles

variable {scope scope' : ModuleScope} (same : scope.Resembles scope')

include same

theorem outcome {c : Component}
    (failures : scope'.failures.lookup c.name = scope.failures.lookup c.name) (repeated : Bool) :
    scope'.outcome repeated c = scope.outcome repeated c := by
  rw [ModuleScope.outcome, ModuleScope.outcome, same.file, same.lowerComponent c failures]

/-- An outcome is the same for both, or one of the two reports a missing provider. -/
theorem outcome_cases (repeated : Bool) (c : Component) :
    scope'.outcome repeated c = scope.outcome repeated c ∨
      ∃ d, scope.failures.lookup c.name = some d ∧ (scope.outcome repeated c).result = .error d ∨
        scope'.failures.lookup c.name = some d ∧ (scope'.outcome repeated c).result = .error d := by
  cases repeated with
  | true =>
    rw [ModuleScope.outcome, ModuleScope.outcome, if_pos rfl, if_pos rfl, same.file]
    exact .inl rfl
  | false =>
    rcases same.lowerComponent_cases c with lowered | ⟨differ, missing, missing'⟩
    · left
      rw [ModuleScope.outcome, ModuleScope.outcome, lowered, same.file]
    · right
      cases first : scope.failures.lookup c.name with
      | some d => exact ⟨d, .inl ⟨rfl, missing d first⟩⟩
      | none =>
        obtain ⟨d, second⟩ := Option.ne_none_iff_exists'.mp (first ▸ differ)
        exact ⟨d, .inr ⟨second, missing' d second⟩⟩

end ModuleScope.Resembles

namespace Module

theorem getElem?_eraseIdx_lower (m : Module) (options : Options) (parser : Script.Parser)
    (i j : Nat) :
    ((m.lower options parser).components.eraseIdx i)[j]? =
      m.components[if j < i then j else j + 1]?.map fun c =>
        (ModuleScope.of m options parser).outcome
          (Component.declares (m.components.take (if j < i then j else j + 1)) c.name) c := by
  -- declarations behind the one that is deleted move up by one
  rw [List.getElem?_eraseIdx]
  by_cases before : j < i
  · rw [if_pos before, if_pos before, getElem?_lower]
  · rw [if_neg before, if_neg before, getElem?_lower]

section

variable {m : Module} {i : Nat} {d : Component} (here : m.components[i]? = some d)
  (repeated : Component.declares (m.components.take i) d.name = true) (options : Options)
  (parser : Script.Parser)

include here repeated

theorem getElem?_lower_eraseIdx (j : Nat) :
    (Module.lower { m with components := m.components.eraseIdx i } options parser).components[j]? =
      m.components[if j < i then j else j + 1]?.map fun c =>
        (ModuleScope.of { m with components := m.components.eraseIdx i } options parser).outcome
          (Component.declares (m.components.take (if j < i then j else j + 1)) c.name) c := by
  rw [getElem?_lower]
  dsimp only
  rw [Component.declares_take_eraseIdx here repeated, List.getElem?_eraseIdx]
  by_cases before : j < i
  · rw [if_pos before, if_pos before]
  · rw [if_neg before, if_neg before]

theorem resembles_eraseIdx : (ModuleScope.of m options parser).Resembles
    (.of { m with components := m.components.eraseIdx i } options parser) :=
  ModuleScope.resembles_of_find? (Component.find?_eraseIdx here repeated) options parser

end

/-- A declaration whose name was declared before is refused.  Deleting it leaves all other outcomes
    as they are, unless it is an entry and its name is instantiated while no earlier declaration of
    the name is an entry.  In any case only missing providers make a difference. -/
theorem lower_eraseIdx_repeated {m : Module} {i : Nat} {d : Component}
    (here : m.components[i]? = some d)
    (repeated : Component.declares (m.components.take i) d.name = true) (options : Options)
    (parser : Script.Parser) :
    (m.lower options parser).components[i]? = some ⟨d.name,
      .error ⟨.duplicate d.name, (ModuleScope.of m options parser).file, d.name, d.location⟩⟩ ∧
    ((d.isEntry = true → d.name ∈ Resolution.instantiated m.components →
        ∃ c ∈ m.components.take i, c.name = d.name ∧ c.isEntry = true) →
      (Module.lower { m with components := m.components.eraseIdx i } options parser).components =
        (m.lower options parser).components.eraseIdx i) ∧
    ∀ (j : Nat) (o o' : Outcome), ((m.lower options parser).components.eraseIdx i)[j]? = some o →
      (Module.lower { m with components := m.components.eraseIdx i } options parser).components[j]? =
        some o' →
      o' = o ∨ o.LacksProvider ∨ o'.LacksProvider := by
  refine ⟨?_, ?_, ?_⟩
  · rw [getElem?_lower, here, Option.map_some, repeated]
    rfl
  · intro covered
    have same := resembles_eraseIdx here repeated options parser
    have failures := consumerFailures_eraseIdx here repeated covered
      (ModuleScope.of m options parser).file
    apply ext_getElem?
    intro j
    rw [getElem?_lower_eraseIdx here repeated, getElem?_eraseIdx_lower]
    congr 1
    funext c
    exact same.outcome (congrArg (List.lookup c.name) failures) _
  · intro j o o' old new
    rw [getElem?_eraseIdx_lower, Option.map_eq_some_iff] at old
    obtain ⟨c, atPosition, rfl⟩ := old
    rw [getElem?_lower_eraseIdx here repeated, atPosition, Option.map_some] at new
    obtain rfl := Option.some.inj new
    rcases (resembles_eraseIdx here repeated options parser).outcome_cases
        (Component.declares (m.components.take (if j < i then j else j + 1)) c.name) c with
      same | ⟨fault, ⟨reported, failed⟩ | ⟨reported, failed⟩⟩
    · exact .inl same
    · obtain ⟨field, key, missing⟩ := noProvider_of_lookup reported
      exact .inr (.inl ⟨fault, field, key, failed, missing⟩)
    · obtain ⟨field, key, missing⟩ := noProvider_of_lookup reported
      exact .inr (.inr ⟨fault, field, key, failed, missing⟩)

end Module

namespace RepeatedCard

def app : Component where
  name := "App"
  isEntry := true
  members := [.field { name := "theme", decorator := .provide none, initializer := some "1" }]
  render := { body := [.element { name := "Card" } []] }

def card : Component where
  name := "Card"
  members := [.field { name := "theme", decorator := .consume none }]
  render := { body := [.element { name := "Text", args := [{ value := "this.theme" }] } []] }

/-- A second card, with a consumer that nothing provides for and a child of its own. -/
def copy : Component where
  name := "Card"
  members := [.field { name := "size", decorator := .consume none }]
  render := { body := [.element { name := "Legend" } []] }

/-- A second card that has nothing to it but that it is an entry. -/
def entryCopy : Component where
  name := "Card"
  isEntry := true
  render := {}

def legend : Component where
  name := "Legend"
  members := [.field { name := "size", decorator := .provide none, initializer := some "2" }]
  render := { body := [.element { name := "Card" } []] }

def file : Module := ⟨"app.ets", [app, card, copy, legend]⟩

def entryFile : Module := ⟨"app.ets", [app, card, entryCopy]⟩

end RepeatedCard

theorem Module.lower_eraseIdx_repeated_card :
    RepeatedCard.file.components[2]? = some RepeatedCard.copy ∧
    Component.declares (RepeatedCard.file.components.take 2) "Card" = true ∧
    (RepeatedCard.file.lower {}).components[2]? =
      some ⟨"Card", .error ⟨.duplicate "Card", "app.ets", "Card", {}⟩⟩ ∧
    (Module.lower { RepeatedCard.file with
        components := [RepeatedCard.app, RepeatedCard.card, RepeatedCard.legend] } {}).components =
      (RepeatedCard.file.lower {}).components.eraseIdx 2 := by
  have repeated : Component.declares (RepeatedCard.file.components.take 2) "Card" = true := rfl
  obtain ⟨refused, others, _⟩ :=
    Module.lower_eraseIdx_repeated (d := RepeatedCard.copy) (i := 2) rfl repeated {} Script.parser
  exact ⟨rfl, repeated, refused, others fun isEntry => absurd isEntry (by decide)⟩

/-- The second card is refused, and the first one with it: as an entry it makes a root of a card
    that `App` provides for. -/
theorem RepeatedCard.entryCopy_fails_card :
    (entryFile.lower {}).components[2]? =
      some ⟨"Card", .error ⟨.duplicate "Card", "app.ets", "Card", {}⟩⟩ ∧
    (entryFile.lower {}).components[1]? =
      some ⟨"Card", .error ⟨.noProvider "theme" "Card" "theme", "app.ets", "Card", {}⟩⟩ ∧
    ∃ out, (Module.lower { entryFile with components := [app, card] } {}).components[1]? =
      some ⟨"Card", .ok out⟩ := by
  refine ⟨?_, ?_, ?_⟩
  · rw [Module.getElem?_lower]
    rfl
  · have failed : (ModuleScope.of entryFile {}).lowerComponent card =
        .error ⟨.noProvider "theme" "Card" "theme", "app.ets", "Card", {}⟩ :=
      ModuleScope.lowerComponent_of_missing rfl rfl
    rw [Module.getElem?_lower]
    change some (Outcome.mk "Card" (ModuleScope.lowerComponent _ card)) = _
    rw [failed]
  · obtain ⟨out, lowered⟩ : ∃ out,
        (ModuleScope.of ⟨"app.ets", [app, card]⟩ {}).lowerComponent card = .ok out :=
      ⟨_, ModuleScope.lowerComponent_ok_iff.mpr ⟨rfl, rfl, _, _, _, _,
        ⟨.cons (.element rfl .nil) .nil, rfl⟩, .cons .wrapper (.cons .accessors .nil), rfl⟩⟩
    refine ⟨out, ?_⟩
    rw [Module.getElem?_lower]
    change some (Outcome.mk "Card" (ModuleScope.lowerComponent _ card)) = _
    exact congrArg (fun result => some (Outcome.mk "Card" result)) lowered

end ReactiveView
