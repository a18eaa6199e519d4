import ReactiveView.Proofs.SparedValues
import ReactiveView.Proofs.Visits

/-!
# Executions that mirror each other

Two executions of one body have the same result if the fields have the same values in both and each
child has the same nodes in both.  Then they also have the same visits, so a relation between their
states may speak of the visits that are still to come (`BodyRunner.Mirrors`).

What is recorded of the choices depends on the visits only.  Choices that are made twice in a row are
recorded as the same branches the second time, unless there are two different ones at one conditional
(`BranchHistory.record_record_reuses_iff`).
-/

namespace ReactiveView

open List

/-! ## Recorded choices -/

/-- The branch, or none, that is chosen at a conditional. -/
def RenderVisit.chosen? : RenderVisit → Option (UInt32 × Option UInt32)
  | .choice site chosen => some (site, chosen.map (·.2))
  | .child _ _ _ _ | .loop _ => none

/-- The choices that are made, in order. -/
def choices (visits : List RenderVisit) : List (UInt32 × Option UInt32) :=
  visits.filterMap (·.chosen?)

namespace BranchHistory

/-- Choose branches one after the other. -/
def record (t : BranchHistory) : List (UInt32 × Option UInt32) → List BranchChoice × BranchHistory
  | [] => ([], t)
  | (site, branchId) :: rest =>
    let (activation, t) := t.activate site branchId
    let (choices, t) := t.record rest
    (⟨site, branchId, activation⟩ :: choices, t)

variable {t : BranchHistory} {made : List (UInt32 × Option UInt32)} {site : UInt32}
  {branchId : Option UInt32}

theorem map_record (t : BranchHistory) (made : List (UInt32 × Option UInt32)) :
    (t.record made).1.map (fun c => (c.site, c.branchId)) = made := by
  induction made generalizing t with
  | nil => rfl
  | cons choice made ih => rw [record, map_cons, ih]

theorem lookup_activate (t : BranchHistory) (site other : UInt32) (branchId : Option UInt32) :
    (t.activate site branchId).2.choices.lookup other =
      if other = site then some branchId else t.choices.lookup other := by
  change ((site, branchId) :: t.choices.filter (·.1 ≠ site)).lookup other = _
  rw [List.lookup_cons]
  by_cases same : other = site
  · rw [same, beq_self_eq_true, if_pos rfl]
  · rw [beq_false_of_ne same, if_neg same]
    exact lookup_filter_ne same

/-- The last choice at a conditional is remembered. -/
theorem lookup_record (t : BranchHistory) (made : List (UInt32 × Option UInt32)) (site : UInt32) :
    (t.record made).2.choices.lookup site = (made.reverse.lookup site).or (t.choices.lookup site) := by
  induction made generalizing t with
  | nil => rfl
  | cons choice made ih =>
    obtain ⟨site', branchId⟩ := choice
    rw [record, ih, lookup_activate, reverse_cons, lookup_append, Option.or_assoc]
    congr 1
    rw [List.lookup_cons, lookup_nil]
    by_cases same : site = site'
    · rw [if_pos same, same, beq_self_eq_true, Option.some_or]
    · rw [if_neg same, beq_false_of_ne same, Option.none_or]

theorem activate_eq_reuse_iff :
    (t.activate site branchId).1 = .reuse ↔ t.choices.lookup site = some branchId := by
  unfold activate
  cases t.choices.lookup site with
  | none => simp
  | some previous => by_cases same : previous = branchId <;> simp [same]

/-- Every choice is that of the branch that is shown already. -/
theorem record_reuses_iff :
    (∀ c ∈ (t.record made).1, c.activation = .reuse) ↔
      ∀ choice ∈ made, t.choices.lookup choice.1 = some choice.2 := by
  induction made generalizing t with
  | nil => exact ⟨fun _ => nofun, fun _ => nofun⟩
  | cons choice made ih =>
    obtain ⟨site, branchId⟩ := choice
    rw [record, forall_mem_cons, forall_mem_cons, ih]
    refine (and_congr_left' activate_eq_reuse_iff).trans (and_congr_right fun shown => ?_)
    -- to choose the branch that is shown changes nothing
    have same (other : UInt32) :
        (t.activate site branchId).2.choices.lookup other = t.choices.lookup other := by
      rw [lookup_activate]
      split
      next isSite => rw [isSite, shown]
      · rfl
    simp only [same]

/-- Choices that are made a second time in a row are all of branches that are shown already if there
    is one branch for each conditional. -/
theorem record_record_reuses_iff (t : BranchHistory) (made : List (UInt32 × Option UInt32)) :
    (∀ c ∈ ((t.record made).2.record made).1, c.activation = .reuse) ↔
      ∀ a ∈ made, ∀ b ∈ made, a.1 = b.1 → a.2 = b.2 := by
  rw [record_reuses_iff]
  simp only [lookup_record]
  constructor
  · intro shown a isA b isB same
    have first := shown a isA
    rw [same, shown b isB] at first
    exact (Option.some.inj first).symm
  · intro unique choice member
    obtain ⟨site, branchId⟩ := choice
    cases found : made.reverse.lookup site with
    | none =>
      have absent := lookup_eq_none_iff.mp found
      exact absurd (absent _ (mem_reverse.mpr member)) (by simp)
    | some last =>
      have isLast := mem_reverse.mp (mem_of_lookup found)
      rw [Option.some_or]
      exact congrArg some (unique _ isLast _ member rfl)

/-- Choices that are made a second time in a row show the same branches. -/
theorem lookup_record_record (t : BranchHistory) (made : List (UInt32 × Option UInt32))
    (site : UInt32) :
    ((t.record made).2.record made).2.choices.lookup site =
      (t.record made).2.choices.lookup site := by
  simp only [lookup_record]
  cases made.reverse.lookup site <;> rfl

end BranchHistory

namespace BodyRunner

variable {x : BodyRunner}

/-! ## Values in two executions -/

section Values

variable {w w' : World}
  (same : ∀ entry ∈ x.fields, w'.store.value entry.2 = w.store.value entry.2)

include same

theorem plainNode_congr (pos : Position) (m : OpenMarker) :
    x.plainNode pos w' m = x.plainNode pos w m := by
  have eval : (x.scope pos).eval w' = (x.scope pos).eval w := funext (ViewScope.eval_congr same)
  have attributes : x.attributeValue pos w' = x.attributeValue pos w := by
    funext a
    rw [attributeValue, attributeValue, eval]
  rw [plainNode, plainNode, eval, attributes]

theorem holds_congr (locals : List (String × Json)) : x.holds locals w' = x.holds locals w := by
  have eval : ViewScope.eval ⟨x.fields, locals⟩ w' = ViewScope.eval ⟨x.fields, locals⟩ w :=
    funext (ViewScope.eval_congr same)
  funext code
  rw [holds, holds, eval]

end Values

/-! ## Mirrored executions -/

/-- A relation between the states of two executions, given the visits that are still to come: the
    fields have the same values in both, and each visit keeps it. -/
structure Mirrors (x : BodyRunner) (R : List RenderVisit → Execution → Execution → Prop) :
    Prop where
  values : ∀ {visits : List RenderVisit} {e e' : Execution}, R visits e e' →
    ∀ entry ∈ x.fields, e'.world.store.value entry.2 = e.world.store.value entry.2
  child : ∀ {path : List String} {index : Nat} {marker : OpenMarker}
    {bindings : List BoundArgument} {locals : List (String × Json)} {visits : List RenderVisit}
    {e e' next : Execution} {nodes : List ViewNode},
    R (.child path index marker locals :: visits) e e' → marker.role = .component bindings →
    (x.child (childKey path index marker.component) marker.component bindings
      ⟨x.fields, locals⟩).run.run e = (.ok nodes, next) →
    ∃ next', (x.child (childKey path index marker.component) marker.component bindings
      ⟨x.fields, locals⟩).run.run e' = (.ok nodes, next') ∧ R visits next next'
  choice : ∀ {site : UInt32} {chosen : Option (Nat × UInt32)} {visits : List RenderVisit}
    {e e' next next' : Execution}, R (.choice site chosen :: visits) e e' →
    (activate site (chosen.map (·.2))).run.run e = (.ok (), next) →
    (activate site (chosen.map (·.2))).run.run e' = (.ok (), next') → R visits next next'
  loop : ∀ {count : Nat} {visits : List RenderVisit} {e e' : Execution},
    R (.loop count :: visits) e e' → R visits e e'

variable {R : List RenderVisit → Execution → Execution → Prop}

theorem forItems_mirrors {pos : Position} {params : List String}
    {body : Position → ExecM (List ViewNode)} {visits : Position → Execution → List RenderVisit}
    (each : ∀ pos e e' nodes last rest, (body pos).run.run e = (.ok nodes, last) →
      R (visits pos e ++ rest) e e' →
      ∃ last', (body pos).run.run e' = (.ok nodes, last') ∧ R rest last last')
    {index : Nat} {items : List Json} {e e' last : Execution} {nodes : List ViewNode}
    {rest : List RenderVisit}
    (ran : (forItems pos params body index items).run.run e = (.ok nodes, last))
    (related : R (itemsVisits pos params body visits index items e ++ rest) e e') :
    ∃ last', (forItems pos params body index items).run.run e' = (.ok nodes, last') ∧
      R rest last last' := by
  induction items generalizing index e e' nodes with
  | nil =>
    cases ran
    exact ⟨e', rfl, related⟩
  | cons item items ih =>
    obtain ⟨first, middle, head, ran⟩ := ExecM.run_bind_ok_iff.mp ran
    obtain ⟨others, _, tail, same⟩ := ExecM.run_bind_ok_iff.mp ran
    cases same
    unfold itemsVisits at related
    dsimp only [itemStep] at related
    rw [head, append_assoc] at related
    obtain ⟨middle', head', related⟩ := each _ _ _ _ _ _ head related
    obtain ⟨last', tail', related⟩ := ih tail related
    refine ⟨last', ?_, related⟩
    exact ExecM.run_bind_ok_iff.mpr ⟨first, middle', head',
      ExecM.run_bind_ok_iff.mpr ⟨others, last', tail', rfl⟩⟩

-- The visits that a statement makes stand before those of the rest, so `R` holds of the whole list
-- when the statement begins and of the rest when it ends.
mutual

theorem stmt_mirrors (mirrors : x.Mirrors R) : ∀ (s : Stmt) (pos : Position)
    (outer : Option (List Json)) (index : Nat) (opened : List OpenNode) (nodes : List ViewNode)
    (e e' : Execution) (after : List OpenNode × List ViewNode) (last : Execution)
    (rest : List RenderVisit), (x.stmt pos outer index opened nodes s).run.run e = (.ok after, last) →
    R (x.stmtVisits pos outer index opened s e ++ rest) e e' →
    ∃ last', (x.stmt pos outer index opened nodes s).run.run e' = (.ok after, last') ∧
      R rest last last'
  | .opening marker, pos, _, index, _, _, e, e', _, _, _, ran, related => by
    rw [stmt] at ran ⊢
    obtain ⟨frame, middle, begun, same⟩ := ExecM.run_bind_ok_iff.mp ran
    cases same
    have node := plainNode_congr (mirrors.values related) pos marker
    by_cases role : ∃ bindings, marker.role = .component bindings
    · obtain ⟨bindings, role⟩ := role
      simp only [stmtVisits, role] at related
      obtain ⟨children, rendered, rfl⟩ := (openMarker_component_iff role).mp begun
      obtain ⟨last', rendered', related⟩ := mirrors.child related role rendered
      refine ⟨last', ?_, related⟩
      rw [← node]
      exact ExecM.run_bind_ok_iff.mpr
        ⟨_, last', (openMarker_component_iff role).mpr ⟨children, rendered', rfl⟩, rfl⟩
    · rw [not_exists] at role
      rw [run_openMarker x pos index marker e role] at begun
      cases begun
      rw [stmtVisits_opening role] at related
      refine ⟨e', ?_, related⟩
      rw [← node]
      exact ExecM.run_bind_ok_iff.mpr ⟨_, e', run_openMarker x pos index marker e' role, rfl⟩
  | .closing marker, _, _, _, _, _, _, e', _, _, _, ran, related => by
    rw [stmt] at ran ⊢
    rw [stmtVisits] at related
    obtain ⟨frame, opened, rfl, name, branchId, rfl, rfl⟩ := (closeMarker_ok_iff x).mp ran
    exact ⟨e', run_closeMarker x marker frame opened _ e' name branchId, related⟩
  | .branch site arms location, pos, outer, index, opened, nodes, e, e', after, last, rest, ran,
      related => by
    have each := arm_mirrors mirrors arms
    rw [run_stmt_branch] at ran ⊢
    rw [stmtVisits] at related
    -- conditions have the same values, so that both choose one arm
    rw [holds_congr (mirrors.values related)]
    cases which : chosen (x.holds pos.locals e.world) 0 arms with
    | none =>
      rw [which] at ran related
      cases ran
      exact ⟨_, rfl, mirrors.choice related rfl rfl⟩
    | some choice =>
      rw [which] at ran related
      obtain ⟨added, _, inner, ended⟩ := ExecM.run_bind_ok_iff.mp ran
      cases ended
      obtain ⟨last', inner', related⟩ :=
        each _ _ _ _ _ _ _ _ inner (mirrors.choice related rfl rfl)
      exact ⟨last', ExecM.run_bind_ok_iff.mpr ⟨added, last', inner', rfl⟩, related⟩
  | .items params keyGenerator body, pos, outer, index, opened, nodes, e, e', after, last, rest, ran,
      related => by
    have each := block_mirrors mirrors body
    rw [stmt] at ran ⊢
    rw [stmtVisits] at related
    obtain ⟨added, _, inner, ended⟩ := ExecM.run_bind_ok_iff.mp ran
    cases ended
    obtain ⟨last', inner', related⟩ := forItems_mirrors
      (fun pos e e' nodes last rest => each pos _ 0 [] [] e e' nodes last rest) inner
      (mirrors.loop related)
    exact ⟨last', ExecM.run_bind_ok_iff.mpr ⟨added, last', inner', rfl⟩, related⟩
  | .code _ _, _, _, _, _, _, _, e', _, _, _, ran, related => by
    rw [stmt] at ran ⊢
    cases ran
    exact ⟨e', rfl, related⟩
  | .element _ _, _, _, _, _, _, _, _, _, _, _, ran, _
  | .choice _ _, _, _, _, _, _, _, _, _, _, _, ran, _
  | .forEach _ _, _, _, _, _, _, _, _, _, _, _, ran, _ => by
    rw [stmt] at ran
    cases ran

theorem block_mirrors (mirrors : x.Mirrors R) : ∀ (stmts : List Stmt) (pos : Position)
    (outer : Option (List Json)) (index : Nat) (opened : List OpenNode) (nodes : List ViewNode)
    (e e' : Execution) (after : List ViewNode) (last : Execution) (rest : List RenderVisit),
    (x.block pos outer index opened nodes stmts).run.run e = (.ok after, last) →
    R (x.blockVisits pos outer index opened nodes stmts e ++ rest) e e' →
    ∃ last', (x.block pos outer index opened nodes stmts).run.run e' = (.ok after, last') ∧
      R rest last last'
  | [], _, _, _, _, _, _, e', _, _, _, ran, related => by
    rw [block] at ran ⊢
    rw [blockVisits] at related
    split at ran
    next closed =>
      cases ran
      rw [if_pos closed]
      exact ⟨e', rfl, related⟩
    · cases ran
  | s :: stmts, _, _, _, _, _, _, _, _, _, _, ran, related => by
    have first := stmt_mirrors mirrors s
    have others := block_mirrors mirrors stmts
    rw [block] at ran ⊢
    obtain ⟨⟨opened', nodes'⟩, _, head, tail⟩ := ExecM.run_bind_ok_iff.mp ran
    rw [blockVisits, head, append_assoc] at related
    obtain ⟨middle', head', related⟩ := first _ _ _ _ _ _ _ _ _ _ head related
    obtain ⟨last', tail', related⟩ := others _ _ _ _ _ _ _ _ _ _ tail related
    exact ⟨last', ExecM.run_bind_ok_iff.mpr ⟨_, middle', head', tail'⟩, related⟩

theorem arm_mirrors (mirrors : x.Mirrors R) : ∀ (arms : List (BranchArm Stmt)) (pos : Position)
    (outer : Option (List Json)) (position : Nat) (e e' : Execution) (nodes : List ViewNode)
    (last : Execution) (rest : List RenderVisit),
    (x.arm pos outer position arms).run.run e = (.ok nodes, last) →
    R (x.armVisits pos outer position arms e ++ rest) e e' →
    ∃ last', (x.arm pos outer position arms).run.run e' = (.ok nodes, last') ∧ R rest last last'
  | [], _, _, _, _, e', _, _, _, ran, related => by
    rw [arm] at ran ⊢
    cases ran
    exact ⟨e', rfl, related⟩
  | ⟨condition, branchId, body⟩ :: arms, pos, outer, position, e, e', nodes, last, rest, ran,
      related => by
    have first := block_mirrors mirrors body
    have others := arm_mirrors mirrors arms
    cases position with
    | zero =>
      rw [arm] at ran ⊢
      rw [armVisits] at related
      exact first _ _ _ _ _ _ _ _ _ _ ran related
    | succ position =>
      rw [arm] at ran ⊢
      rw [armVisits] at related
      exact others _ _ _ _ _ _ _ _ ran related

end

/-- An execution that mirrors one that ends has its result. -/
theorem run_mirrors (mirrors : x.Mirrors R) {body : List Stmt} {e e' last : Execution}
    {nodes : List ViewNode} (ran : (x.run body).run.run e = (.ok nodes, last))
    (related : R (x.visits body e) e e') :
    ∃ last', (x.run body).run.run e' = (.ok nodes, last') ∧ R [] last last' := by
  refine block_mirrors mirrors body {} none 0 [] [] e e' nodes last [] ran ?_
  rw [append_nil]
  exact related

end BodyRunner

end ReactiveView
