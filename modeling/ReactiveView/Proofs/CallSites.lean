import ReactiveView.Proofs.BodyForms

/-!
# Call sites of lowered bodies

Every component marker of a body that is lowered from source forms comes from an element that names
a component, so its bindings are those of a call site: each two-way field of the child is tied to a
reactive field of the parent.
-/

namespace ReactiveView

open List

namespace CallSite

/-! ## Arguments of fields -/

/-- The argument for a field: the one that names it, or the one at its place among the fields that
    take arguments by position. -/
def argument? (positional : List FieldRow) (args : List Argument) (field : String) :
    Option Argument :=
  (args.find? (·.name = some field)).or
    (((positional.map (·.name)).idxOf? field).bind fun place =>
      (args.filter (·.name.isNone))[place]?)

variable {site : CallSite} {child : String} {supplied : List (String × Argument)}
  {table : FieldTable} {slots rows : List FieldRow} {done : List (String × Argument)} {a : Argument}
  {args : List Argument} {e : FieldRow} {bound : List BoundArgument} {b : BoundArgument}

/-- An argument goes to the field that it names, or to the next field; neither has one yet. -/
theorem assign_cons_ok (ran : assign child table slots done (a :: args) = .ok supplied) :
    (∃ name, a.name = some name ∧ done.lookup name = none ∧
      assign child table slots ((name, a) :: done) args = .ok supplied) ∨
    ∃ slot rest, a.name = none ∧ slots = slot :: rest ∧ done.lookup slot.name = none ∧
      assign child table rest ((slot.name, a) :: done) args = .ok supplied := by
  unfold assign at ran
  split at ran
  next name named =>
    split at ran
    · cases ran
    · split at ran
      · cases ran
      next free => exact .inl ⟨name, named, Option.not_isSome_iff_eq_none.mp free, ran⟩
  next unnamed =>
    split at ran
    · cases ran
    next slot rest =>
      split at ran
      · cases ran
      next free =>
        exact .inr ⟨slot, rest, unnamed, rfl, Option.not_isSome_iff_eq_none.mp free, ran⟩

/-- A field that has its argument is not named again. -/
theorem find?_of_assign {field : String} (ran : assign child table slots done args = .ok supplied)
    (has : (done.lookup field).isSome = true) : args.find? (·.name = some field) = none := by
  induction args generalizing slots done with
  | nil => rfl
  | cons a args ih =>
    have kept (name : String) : (((name, a) :: done).lookup field).isSome = true := by
      rw [List.lookup_cons]
      split
      · rfl
      · exact has
    rcases assign_cons_ok ran with ⟨name, named, free, ran⟩ | ⟨slot, rest, unnamed, _, _, ran⟩
    · have other : name ≠ field := by
        rintro rfl
        rw [free] at has
        cases has
      simpa [List.find?_cons, named, other] using ih ran (kept name)
    · simpa [List.find?_cons, unnamed] using ih ran (kept slot.name)

theorem lookup_of_assign (ran : assign child table slots done args = .ok supplied)
    (field : String) :
    supplied.lookup field = (done.lookup field).or (argument? slots args field) := by
  induction args generalizing slots done with
  | nil =>
    cases ran
    simp [argument?]
  | cons a args ih =>
    rcases assign_cons_ok ran with ⟨name, named, free, ran⟩ | ⟨slot, rest, unnamed, rfl, free, ran⟩
    · rw [ih ran, List.lookup_cons]
      by_cases same : field = name
      · simp [same, free, argument?, named]
      · have differs : (field == name) = false := beq_false_of_ne same
        have other : name ≠ field := Ne.symm same
        simp [differs, argument?, named, other]
    · have unique : args.find? (·.name = some slot.name) = none := find?_of_assign ran (by simp)
      rw [ih ran, List.lookup_cons]
      by_cases same : field = slot.name
      · subst same
        simp [free, argument?, unnamed, unique, List.idxOf?_cons]
      · have differs : (field == slot.name) = false := beq_false_of_ne same
        have other : slot.name ≠ field := Ne.symm same
        cases place : (rest.map (·.name)).idxOf? field <;>
          simp [differs, argument?, unnamed, other, List.idxOf?_cons, place]

theorem lookup_of_assign_nil {field : String}
    (ran : assign child table slots [] args = .ok supplied) :
    supplied.lookup field = argument? slots args field :=
  lookup_of_assign ran field

/-! ## Bound fields -/

theorem bindFields_cons_ok {rest : List FieldRow}
    (ran : site.bindFields child supplied (e :: rest) = .ok bound) :
    ∃ first others, site.bindField child e (supplied.lookup e.name) = .ok first ∧
      site.bindFields child supplied rest = .ok others ∧ bound = first.toList ++ others := by
  rw [bindFields] at ran
  obtain ⟨first, head, ran⟩ := except_bind_ok_iff.mp ran
  obtain ⟨others, tail, same⟩ := except_bind_ok_iff.mp ran
  cases same
  exact ⟨first, others, head, tail, rfl⟩

/-- What is bound are the arguments of the rows. -/
theorem row_of_mem_bindFields (ran : site.bindFields child supplied rows = .ok bound)
    (member : b ∈ bound) :
    ∃ e ∈ rows, site.bindField child e (supplied.lookup e.name) = .ok (some b) := by
  induction rows generalizing bound with
  | nil =>
    cases ran
    cases member
  | cons e rows ih =>
    obtain ⟨first, others, head, tail, rfl⟩ := bindFields_cons_ok ran
    rcases mem_append.mp member with here | later
    · exact ⟨e, mem_cons_self, head.trans (congrArg _ (Option.mem_toList.mp here))⟩
    · obtain ⟨e', isRow, binds⟩ := ih tail later
      exact ⟨e', mem_cons_of_mem _ isRow, binds⟩

/-- Every row is bound or left to something else. -/
theorem bindField_of_mem_rows (ran : site.bindFields child supplied rows = .ok bound)
    (member : e ∈ rows) :
    ∃ o, site.bindField child e (supplied.lookup e.name) = .ok o ∧ ∀ b ∈ o, b ∈ bound := by
  induction rows generalizing bound with
  | nil => cases member
  | cons e' rows ih =>
    obtain ⟨first, others, head, tail, rfl⟩ := bindFields_cons_ok ran
    rcases mem_cons.mp member with rfl | later
    · exact ⟨first, head, fun b here => mem_append_left _ (Option.mem_toList.mpr here)⟩
    · obtain ⟨o, binds, bound⟩ := ih tail later
      exact ⟨o, binds, fun b here => mem_append_right _ (bound b here)⟩

theorem eq_of_bindField {argument : Option Argument}
    (binds : site.bindField child e argument = .ok (some b)) :
    b.field = e.name ∧ b.binding = e.binding := by
  unfold bindField at binds
  split at binds
  · split at binds
    · cases binds
    · split at binds <;> cases binds
    · cases binds
  · split at binds
    · cases binds
    next twoWay =>
      split at binds
      · cases binds
      · split at binds
        · cases binds
        · cases binds
          exact ⟨rfl, twoWay.symm⟩
    · split at binds
      · cases binds
      · cases binds
        exact ⟨rfl, rfl⟩

/-- No field is bound twice if the rows have different names. -/
theorem fields_of_bindFields (ran : site.bindFields child supplied rows = .ok bound) :
    (bound.map (·.field)).Sublist (rows.map (·.name)) := by
  induction rows generalizing bound with
  | nil =>
    cases ran
    exact .slnil
  | cons e rows ih =>
    obtain ⟨first, others, head, tail, rfl⟩ := bindFields_cons_ok ran
    cases first with
    | none => exact (ih tail).cons _
    | some b =>
      rw [Option.toList_some, singleton_append, map_cons, map_cons,
        (eq_of_bindField head).1]
      exact (ih tail).cons_cons _

/-- A field is tied to the reactive field of the parent that its argument refers to. -/
structure Ties (site : CallSite) (e : FieldRow) (a : Argument) (b : BoundArgument) : Prop where
  field : b.field = e.name
  source : ∃ code target, b.value = .wrapper code target.name ∧
    reference? a.value = some target.name ∧ site.parentFields.get? target.name = some target ∧
    target.reactive = true

/-- A reference is only ever bound to a two-way field. -/
theorem ties_of_reference (reference : (reference? a.value).isSome = true)
    (binds : site.bindField child e (some a) = .ok (some b)) : site.Ties e a b := by
  unfold bindField at binds
  split at binds
  next bad => cases bad
  next isSome =>
    cases isSome
    split at binds
    · cases binds
    · split at binds
      · cases binds
      next f isReference =>
        split at binds
        · cases binds
        next target found =>
          obtain ⟨found, reactive⟩ := Option.filter_eq_some_iff.mp found
          have named : target.name = f := by simpa using List.find?_some found
          subst named
          cases binds
          exact ⟨rfl, _, target, rfl, isReference, found, reactive⟩
    · rw [if_pos reference] at binds
      cases binds

/-- A two-way field has a reference as its argument. -/
theorem reference_of_twoWay {argument : Option Argument} {o : Option BoundArgument}
    (twoWay : e.binding = .twoWay) (binds : site.bindField child e argument = .ok o) :
    ∃ a, argument = some a ∧ (reference? a.value).isSome = true ∧ o.isSome = true := by
  cases argument with
  | none =>
    simp only [bindField, twoWay] at binds
    cases binds
  | some a =>
    simp only [bindField, twoWay] at binds
    split at binds
    · cases binds
    next f reference =>
      split at binds
      · cases binds
      · cases binds
        exact ⟨a, rfl, by rw [reference]; rfl, rfl⟩

/-- A two-way field of the child is tied to the field of the parent that its argument refers to:
    whatever is found for its name. -/
theorem ties_of_bind {c : Component} (ran : site.bind c args = .ok bound)
    (member : e ∈ c.fieldTable.entries) (twoWay : e.binding = .twoWay) :
    ∃ a b, argument? c.fieldTable.positional args e.name = some a ∧
      bound.find? (·.field = e.name) = some b ∧ site.Ties e a b := by
  obtain ⟨supplied, assigned, ran⟩ := except_bind_ok_iff.mp ran
  obtain ⟨o, binds, isBound⟩ := bindField_of_mem_rows ran member
  obtain ⟨a, argument, reference, some⟩ := reference_of_twoWay twoWay binds
  obtain ⟨b, rfl⟩ := Option.isSome_iff_exists.mp some
  have ties := ties_of_reference reference (argument ▸ binds)
  rw [lookup_of_assign_nil assigned] at argument
  refine ⟨a, ?_⟩
  cases found : bound.find? (·.field = e.name) with
  | none =>
    have absent := List.find?_eq_none.mp found b (isBound b rfl)
    simp [ties.field] at absent
  | some first =>
    -- rows of the same name share the argument, so the first one is tied as well
    have named : first.field = e.name := by simpa using List.find?_some found
    obtain ⟨e', _, binds'⟩ := row_of_mem_bindFields ran (mem_of_find?_eq_some found)
    have same : e'.name = e.name := (eq_of_bindField binds').1.symm.trans named
    rw [same, lookup_of_assign_nil assigned, argument] at binds'
    exact ⟨first, argument, rfl, named, (ties_of_reference reference binds').source⟩

theorem field_resolveBound (ctx : BodyContext) (b : BoundArgument) :
    (ctx.resolveBound b).field = b.field := by
  unfold BodyContext.resolveBound
  split <;> rfl

/-- What is bound to a two-way field is still tied to the field of the parent after names are
    resolved. -/
theorem Ties.find?_resolveBound (ctx : BodyContext) (ties : site.Ties e a b)
    (found : bound.find? (·.field = e.name) = some b) :
    ∃ code target, ((bound.map ctx.resolveBound).find? (·.field = e.name)).map (·.value) =
      some (.wrapper code target.name) ∧ reference? a.value = some target.name ∧
      site.parentFields.get? target.name = some target ∧ target.reactive = true := by
  obtain ⟨code, target, value, known⟩ := ties.source
  refine ⟨code, target, ?_, known⟩
  have kept : ctx.resolveBound b = b := by
    unfold BodyContext.resolveBound
    rw [value]
  rw [List.find?_map]
  simp only [Function.comp_def, field_resolveBound, found, Option.map_some, kept, value]

end CallSite

/-! ## Component markers -/

namespace Stmt

mutual

/-- The elements of a statement. -/
def elements : Stmt → List Element
  | .element head children => head :: elementsAll children
  | .choice arms _ => elementsArms arms
  | .forEach _ body => elementsAll body
  | .code _ _ | .opening _ | .closing _ | .branch _ _ _ | .items _ _ _ => []

/-- The elements of statements. -/
def elementsAll : List Stmt → List Element
  | [] => []
  | s :: rest => s.elements ++ elementsAll rest

/-- The elements of the arms of a conditional. -/
def elementsArms : List (Arm Stmt) → List Element
  | [] => []
  | ⟨_, body⟩ :: rest => elementsAll body ++ elementsArms rest

end

theorem mem_openings_marked {m start : OpenMarker} {stop : CloseMarker} {inner : List Stmt} :
    m ∈ openingsAll (.opening start :: inner ++ [.closing stop]) ↔
      m = start ∨ m ∈ openingsAll inner := by
  simp [openingsAll, openings]

variable {known : String → Bool}

mutual

/-- What a component marker opens is instantiated. -/
theorem mem_instances_of_opening {m : OpenMarker} {bindings : List BoundArgument}
    (role : m.role = .component bindings) : ∀ (s : Stmt), m ∈ s.openings →
      m.component ∈ s.instances known
  | .element head children, member => by
    rw [instances]
    exact mem_append_right _ (mem_instancesAll_of_opening role children member)
  | .choice arms _, member => mem_instancesArms_of_opening role arms member
  | .forEach _ body, member => mem_instancesAll_of_opening role body member
  | .code _ _, member => absurd member not_mem_nil
  | .closing _, member => absurd member not_mem_nil
  | .opening marker, member => by
    rw [openings, mem_singleton] at member
    subst member
    simp [instances, role]
  | .branch _ arms _, member => mem_instancesBranches_of_opening role arms member
  | .items _ _ body, member => mem_instancesAll_of_opening role body member

theorem mem_instancesAll_of_opening {m : OpenMarker} {bindings : List BoundArgument}
    (role : m.role = .component bindings) : ∀ (body : List Stmt), m ∈ openingsAll body →
      m.component ∈ instancesAll known body
  | [], member => absurd member not_mem_nil
  | s :: rest, member => by
    rw [openingsAll, mem_append] at member
    rw [instancesAll, mem_append]
    exact member.imp (mem_instances_of_opening role s) (mem_instancesAll_of_opening role rest)

theorem mem_instancesArms_of_opening {m : OpenMarker} {bindings : List BoundArgument}
    (role : m.role = .component bindings) : ∀ (arms : List (Arm Stmt)), m ∈ openingsArms arms →
      m.component ∈ instancesArms known arms
  | [], member => absurd member not_mem_nil
  | ⟨_, body⟩ :: rest, member => by
    rw [openingsArms, mem_append] at member
    rw [instancesArms, mem_append]
    exact member.imp (mem_instancesAll_of_opening role body) (mem_instancesArms_of_opening role rest)

theorem mem_instancesBranches_of_opening {m : OpenMarker} {bindings : List BoundArgument}
    (role : m.role = .component bindings) : ∀ (arms : List (BranchArm Stmt)),
      m ∈ openingsBranches arms → m.component ∈ instancesBranchArms known arms
  | [], member => absurd member not_mem_nil
  | ⟨_, _, body⟩ :: rest, member => by
    rw [openingsBranches, mem_append] at member
    rw [instancesBranchArms, mem_append]
    exact member.imp (mem_instancesAll_of_opening role body)
      (mem_instancesBranches_of_opening role rest)

end

end Stmt

namespace BodyContext

variable {ctx : BodyContext} {method : String}

/-- A marker has no bindings, or it is the start of one of some elements. -/
def OpensOne (ctx : BodyContext) (elements : List Element) (m : OpenMarker) : Prop :=
  (∀ bindings, m.role ≠ .component bindings) ∨ ∃ head ∈ elements, ctx.openElement head = .ok m

theorem OpensOne.mono {elements more : List Element} {m : OpenMarker}
    (opens : ctx.OpensOne elements m) (subset : elements ⊆ more) : ctx.OpensOne more m :=
  opens.imp_right fun ⟨head, member, opened⟩ => ⟨head, subset member, opened⟩

mutual

/-- The markers of a lowered body start elements of the source. -/
theorem Lowers.opensOne {stmt : Stmt} {out : List Stmt} {s s' : LoweringState} :
    Lowers ctx method stmt s out s' → stmt.isSource = true →
      ∀ m ∈ Stmt.openingsAll out, ctx.OpensOne stmt.elements m
  | .element opened body, source => by
    have inner := body.opensOne source
    intro m member
    rw [Stmt.mem_openings_marked] at member
    rcases member with rfl | member
    · exact .inr ⟨_, mem_cons_self, opened⟩
    · exact (inner m member).mono (subset_cons_self _ _)
  | .choice _ each, source => by
    have arms := each.opensOne source
    intro m member
    simp only [conditional, Stmt.openingsAll, Stmt.openings, append_nil, mem_append,
      mem_singleton] at member
    rcases member with rfl | member
    · exact .inl fun _ => Role.noConfusion
    · exact arms m member
  | .forEach _ each, source => by
    have inner := each.opensOne source
    intro m member
    simp only [loopBody, Stmt.openingsAll, Stmt.openings, append_nil, mem_append,
      mem_singleton] at member
    rcases member with rfl | member
    · exact .inl fun _ => Role.noConfusion
    · exact inner m member
  | .code _, _ => fun _ member => absurd member not_mem_nil

theorem LowersAll.opensOne {body out : List Stmt} {s s' : LoweringState} :
    LowersAll ctx method body s out s' → Stmt.areSource body = true →
      ∀ m ∈ Stmt.openingsAll out, ctx.OpensOne (Stmt.elementsAll body) m
  | .nil, _ => fun _ member => absurd member not_mem_nil
  | .cons head tail, source => by
    rw [Stmt.areSource, Bool.and_eq_true] at source
    have first := head.opensOne source.1
    have others := tail.opensOne source.2
    intro m member
    rw [Stmt.openingsAll_append, mem_append] at member
    rcases member with here | later
    · exact (first m here).mono (subset_append_left _ _)
    · exact (others m later).mono (subset_append_right _ _)

theorem LowersArms.opensOne {site : UInt32} {location : Location} {index : Nat}
    {arms : List (Arm Stmt)} {out : List (BranchArm Stmt)} {s s' : LoweringState} :
    LowersArms ctx method site location index arms s out s' → Stmt.areSourceArms arms = true →
      ∀ m ∈ Stmt.openingsBranches out, ctx.OpensOne (Stmt.elementsArms arms) m
  | .nil, _ => fun _ member => absurd member not_mem_nil
  | .cons _ head tail, source => by
    rw [Stmt.areSourceArms, Bool.and_eq_true] at source
    have first := head.opensOne source.1
    have others := tail.opensOne source.2
    intro m member
    rw [Stmt.openingsBranches, mem_append, armBody, Stmt.mem_openings_marked] at member
    rcases member with (rfl | member) | member
    · exact .inl fun _ => Role.noConfusion
    · exact (first m member).mono (subset_append_left _ _)
    · exact (others m member).mono (subset_append_right _ _)

end

/-- A component marker is the start of an element that names a component, with the bindings of the
    call. -/
theorem openElement_component {head : Element} {marker : OpenMarker}
    {bindings : List BoundArgument} (opened : ctx.openElement head = .ok marker)
    (role : marker.role = .component bindings) :
    marker.component = head.name ∧ ∃ child bound, ctx.child? head.name = some child ∧
      (CallSite.mk ctx.component ctx.fields).bind child head.args = .ok bound ∧
      bindings = bound.map ctx.resolveBound := by
  cases names : ctx.child? head.name with
  | none =>
    rw [openElement_plain names opened] at role
    cases role
  | some child =>
    obtain ⟨bound, binds, rfl⟩ := openElement_child names opened
    cases role
    exact ⟨rfl, child, bound, rfl, binds, rfl⟩

end BodyContext

end ReactiveView
