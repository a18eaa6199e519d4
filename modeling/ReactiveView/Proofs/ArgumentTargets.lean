import Mathlib.Data.List.Forall2
import Mathlib.Data.List.Nodup
import ReactiveView.Proofs.CallSites

/-!
# Arguments and the fields they are for

The binding of a call site assigns the arguments first and then goes over the fields of the child.
Said without the two passes: an argument is for the field that it names, or for the field at its
place among the fields that take arguments by position.  A call is accepted if every argument is for
a field, no two are for the same one, and every field can live with the argument it gets or lacks.
-/

namespace ReactiveView

open List

namespace CallSite

/-! ## Targets -/

/-- The field that the argument at `index` is for.  `slots` are the fields for arguments without a
    name, of which the ones before `index` have used up as many as they are. -/
def target? (table : FieldTable) (slots : List FieldRow) (args : List Argument) (index : Nat) :
    Option FieldRow :=
  args[index]?.bind fun a =>
    match a.name with
    | some name => table.get? name
    | none => slots[(args.take index).countP (·.name.isNone)]?

/-- The argument at `index` of a call is `a`, and it is for the field `row` of the child. -/
structure Aims (child : Component) (args : List Argument) (index : Nat) (a : Argument)
    (row : FieldRow) : Prop where
  argument : args[index]? = some a
  target : target? child.fieldTable child.fieldTable.positional args index = some row

/-- Whether some argument is for a field of the child. -/
def isTarget (child : Component) (args : List Argument) (row : FieldRow) : Bool :=
  (List.range args.length).any fun index =>
    target? child.fieldTable child.fieldTable.positional args index = some row

variable {site : CallSite} {table : FieldTable} {slots : List FieldRow} {args : List Argument}
  {done supplied : List (String × Argument)} {a : Argument} {name : String} {index : Nat}
  {row : FieldRow}

theorem exists_argument_of_target (target : target? table slots args index = some row) :
    ∃ a, args[index]? = some a := by
  obtain ⟨a, argument, _⟩ := Option.bind_eq_some_iff.mp target
  exact ⟨a, argument⟩

theorem lt_length_of_target (target : target? table slots args index = some row) :
    index < args.length := by
  obtain ⟨a, argument⟩ := exists_argument_of_target target
  exact (List.getElem?_eq_some_iff.mp argument).1

theorem isTarget_iff {child : Component} :
    isTarget child args row = true ↔ ∃ index a, Aims child args index a row := by
  simp only [isTarget, any_eq_true, mem_range, decide_eq_true_eq]
  constructor
  · rintro ⟨index, _, target⟩
    obtain ⟨a, argument⟩ := exists_argument_of_target target
    exact ⟨index, a, argument, target⟩
  · rintro ⟨index, a, _, target⟩
    exact ⟨index, lt_length_of_target target, target⟩

theorem target_cons_zero :
    target? table slots (a :: args) 0 =
      match a.name with
      | some name => table.get? name
      | none => slots.head? := by
  simp only [target?, List.getElem?_cons_zero, Option.bind_some, take_zero, countP_nil,
    List.head?_eq_getElem?]

theorem target_cons_succ (index : Nat) :
    target? table slots (a :: args) (index + 1) =
      target? table (if a.name.isNone then slots.tail else slots) args index := by
  cases named : a.name <;>
    simp [target?, named, List.getElem?_tail]

theorem mem_entries_of_target {t : FieldTable}
    (target : target? t t.positional args index = some row) : row ∈ t.entries := by
  obtain ⟨a, _, target⟩ := Option.bind_eq_some_iff.mp target
  split at target
  · exact mem_of_find?_eq_some target
  · exact (mem_filter.mp (mem_of_getElem? target)).1

/-! ## Assigned arguments -/

/-- An argument is assigned to the field that it is for, which has none yet. -/
theorem assign_cons_ok_iff :
    assign name table slots done (a :: args) = .ok supplied ↔
      ∃ row, target? table slots (a :: args) 0 = some row ∧ done.lookup row.name = none ∧
        assign name table (if a.name.isNone then slots.tail else slots) ((row.name, a) :: done) args =
          .ok supplied := by
  rw [target_cons_zero, assign.eq_def]
  cases named : a.name with
  | some field =>
    cases found : table.get? field with
    | none => simp [named, found]
    | some row =>
      have same : row.name = field := by simpa using List.find?_some found
      subst same
      cases free : done.lookup row.name <;>
        simp [named, found, free, -lookup_eq_none_iff]
  | none =>
    cases slots with
    | nil => simp [named]
    | cons slot slots =>
      cases free : done.lookup slot.name <;> simp [named, free, -lookup_eq_none_iff]

/-- Every argument has a field to go to that has none yet, and no two go to the same one. -/
structure Assigns (done : List (String × Argument)) (count : Nat) (target : Nat → Option FieldRow) :
    Prop where
  free : ∀ index < count, ∃ row, target index = some row ∧ done.lookup row.name = none
  once : ∀ index index' row row', target index = some row → target index' = some row' →
    row.name = row'.name → index = index'

theorem Assigns.succ_iff {count : Nat} {target : Nat → Option FieldRow}
    (inRange : ∀ index row, target index = some row → index < count + 1)
    (first : target 0 = some row) :
    Assigns done (count + 1) target ↔
      done.lookup row.name = none ∧ Assigns ((row.name, a) :: done) count fun i => target (i + 1) := by
  constructor
  · rintro ⟨free, once⟩
    obtain ⟨row', isFirst, isFree⟩ := free 0 (Nat.zero_lt_succ _)
    cases first.symm.trans isFirst
    refine ⟨isFree, ?_, ?_⟩
    · intro index below
      obtain ⟨row', isTarget, isFree'⟩ := free (index + 1) (Nat.succ_lt_succ below)
      have other : row'.name ≠ row.name := fun same =>
        absurd (once _ _ _ _ isTarget first same) (Nat.succ_ne_zero index)
      exact ⟨row', isTarget, by rw [List.lookup_cons, beq_false_of_ne other, isFree']⟩
    · intro index index' row row' isTarget isTarget' same
      exact Nat.succ.inj (once _ _ _ _ isTarget isTarget' same)
  · rintro ⟨isFree, free, once⟩
    -- a later argument finds the field of the first one taken
    have apart {index : Nat} {row' : FieldRow} (isTarget : target (index + 1) = some row') :
        row'.name ≠ row.name ∧ done.lookup row'.name = none := by
      obtain ⟨row'', same, isFree'⟩ :=
        free index (Nat.lt_of_succ_lt_succ (inRange _ _ isTarget))
      cases isTarget.symm.trans same
      rw [List.lookup_cons] at isFree'
      cases differs : row'.name == row.name with
      | true => simp [differs] at isFree'
      | false => exact ⟨ne_of_beq_false differs, by simpa [differs] using isFree'⟩
    constructor
    · rintro (_ | index) below
      · exact ⟨row, first, isFree⟩
      · obtain ⟨row', isTarget, _⟩ := free index (Nat.lt_of_succ_lt_succ below)
        exact ⟨row', isTarget, (apart isTarget).2⟩
    · rintro (_ | index) (_ | index') row₁ row₂ isTarget isTarget' same
      · rfl
      · cases first.symm.trans isTarget
        exact absurd same.symm (apart isTarget').1
      · cases first.symm.trans isTarget'
        exact absurd same (apart isTarget).1
      · exact congrArg _ (once _ _ _ _ isTarget isTarget' same)

theorem exists_assign_iff :
    (∃ supplied, assign name table slots done args = .ok supplied) ↔
      Assigns done args.length (target? table slots args) := by
  induction args generalizing slots done with
  | nil =>
    refine iff_of_true ⟨done, rfl⟩ ⟨fun index below => absurd below (Nat.not_lt_zero index), ?_⟩
    intro index _ _ _ isTarget
    simp [target?] at isTarget
  | cons a args ih =>
    simp only [assign_cons_ok_iff]
    cases first : target? table slots (a :: args) 0 with
    | none =>
      refine iff_of_false ?_ fun assigns => ?_
      · rintro ⟨_, _, isTarget, _⟩
        cases isTarget
      · obtain ⟨row, isTarget, _⟩ := assigns.free 0 (Nat.zero_lt_succ _)
        cases first.symm.trans isTarget
    | some row =>
      -- the first argument takes its field, and the others find it taken
      rw [length_cons, Assigns.succ_iff (a := a) (fun _ _ => lt_length_of_target) first,
        funext fun index => target_cons_succ index, ← ih]
      constructor
      · rintro ⟨supplied, row', same, isFree, ran⟩
        cases same
        exact ⟨isFree, supplied, ran⟩
      · rintro ⟨isFree, supplied, ran⟩
        exact ⟨supplied, row, rfl, isFree, ran⟩

theorem lookup_assign_iff (ran : assign name table slots done args = .ok supplied) {field : String} :
    supplied.lookup field = some a ↔ done.lookup field = some a ∨
      ∃ index row, args[index]? = some a ∧ target? table slots args index = some row ∧
        row.name = field := by
  induction args generalizing slots done with
  | nil =>
    cases ran
    simp
  | cons b args ih =>
    obtain ⟨row, first, isFree, ran⟩ := assign_cons_ok_iff.mp ran
    rw [ih ran, List.lookup_cons]
    -- an argument is the first one or one of the others, which see the slots that are left
    have split : (∃ index row, (b :: args)[index]? = some a ∧
        target? table slots (b :: args) index = some row ∧ row.name = field) ↔
        (b = a ∧ row.name = field) ∨ ∃ index row, args[index]? = some a ∧
          target? table (if b.name.isNone then slots.tail else slots) args index = some row ∧
          row.name = field := by
      constructor
      · rintro ⟨_ | index, row', argument, isTarget, same⟩
        · cases first.symm.trans isTarget
          exact .inl ⟨Option.some.inj argument, same⟩
        · exact .inr ⟨index, row', argument, target_cons_succ index ▸ isTarget, same⟩
      · rintro (⟨rfl, same⟩ | ⟨index, row', argument, isTarget, same⟩)
        · exact ⟨0, row, rfl, first, same⟩
        · exact ⟨index + 1, row', argument, target_cons_succ index ▸ isTarget, same⟩
    rw [split, ← or_assoc]
    refine or_congr_left ?_
    by_cases same : field = row.name
    · simp [same, isFree]
    · have differs : (field == row.name) = false := beq_false_of_ne same
      simp [differs, Ne.symm same]

/-! ## Bound fields -/

/-- What a field that is not shared is bound to by an argument. -/
inductive Binds : FieldRow → Argument → BoundArgument → Prop
  | reference {row : FieldRow} {a : Argument} {f : String} (twoWay : row.binding = .twoWay)
      (refers : reference? a.value = some f) :
      Binds row a ⟨row.name, .twoWay, .wrapper ("this." ++ backingName f) f⟩
  | value {row : FieldRow} {a : Argument}
      (takesValue : row.binding = .ownedSimple ∨ row.binding = .oneWay) :
      Binds row a ⟨row.name, row.binding, .expression (Text.trimString a.value)⟩

/-- What a field makes of the argument it gets or lacks. -/
inductive Yields (site : CallSite) (row : FieldRow) :
    Option Argument → Option BoundArgument → Prop
  | shared {argument : Option Argument} (isShared : row.binding.isShared = true) :
      Yields site row argument none
  | absent (notTwoWay : row.binding ≠ .twoWay)
      (initialized : row.binding = .oneWay → row.hasInitializer = true) : Yields site row none none
  | reference {a : Argument} {f : String} {source : FieldRow} (twoWay : row.binding = .twoWay)
      (refers : reference? a.value = some f) (found : site.parentFields.get? f = some source)
      (reactive : source.reactive = true) :
      Yields site row (some a) (some ⟨row.name, .twoWay, .wrapper ("this." ++ backingName f) f⟩)
  | value {a : Argument} (takesValue : row.binding = .ownedSimple ∨ row.binding = .oneWay)
      (isValue : reference? a.value = none) :
      Yields site row (some a) (some ⟨row.name, row.binding, .expression (Text.trimString a.value)⟩)

theorem bindField_ok_iff {argument : Option Argument} {outcome : Option BoundArgument} :
    site.bindField name row argument = .ok outcome ↔ site.Yields row argument outcome := by
  constructor
  · intro ran
    cases argument with
    | none =>
      simp only [bindField] at ran
      split at ran
      · cases ran
      next oneWay =>
        split at ran
        next initialized =>
          cases ran
          exact .absent (by simp [oneWay]) fun _ => initialized
        · cases ran
      next notTwoWay notOneWay =>
        cases ran
        exact .absent notTwoWay fun oneWay => absurd oneWay notOneWay
    | some a =>
      simp only [bindField] at ran
      split at ran
      next shared =>
        cases ran
        exact .shared (by rw [shared]; rfl)
      next twoWay =>
        split at ran
        · cases ran
        next f refers =>
          split at ran
          · cases ran
          next source found =>
            -- the field of the parent is found under the name that the argument refers to
            obtain ⟨found, reactive⟩ := Option.filter_eq_some_iff.mp found
            have same : source.name = f := by simpa using List.find?_some found
            subst same
            cases ran
            exact .reference twoWay refers found reactive
      next notShared notTwoWay =>
        split at ran
        · cases ran
        next isValue =>
          cases ran
          refine .value ?_ (Option.not_isSome_iff_eq_none.mp isValue)
          cases kind : row.binding with
          | ownedSimple => exact .inl rfl
          | oneWay => exact .inr rfl
          | twoWay => exact absurd kind notTwoWay
          | shared key role => exact absurd kind (notShared key role)
  · intro yields
    cases yields with
    | shared isShared =>
      cases argument <;> cases kind : row.binding <;> simp_all [bindField, BindingKind.isShared]
    | absent notTwoWay initialized => cases kind : row.binding <;> simp_all [bindField]
    | @reference a f source twoWay refers found reactive =>
      have same : source.name = f := by simpa using List.find?_some found
      simp [bindField, twoWay, refers, found, reactive, Option.filter, same]
    | value takesValue isValue =>
      rcases takesValue with kind | kind <;> simp [bindField, kind, isValue]

theorem exists_bindFields_iff {rows : List FieldRow} :
    (∃ bound, site.bindFields name supplied rows = .ok bound) ↔
      ∀ row ∈ rows, ∃ outcome, site.Yields row (supplied.lookup row.name) outcome := by
  induction rows with
  | nil => exact iff_of_true ⟨[], rfl⟩ fun row member => absurd member not_mem_nil
  | cons row rows ih =>
    rw [forall_mem_cons, ← ih]
    constructor
    · rintro ⟨bound, ran⟩
      obtain ⟨first, others, head, tail, _⟩ := bindFields_cons_ok ran
      exact ⟨⟨first, bindField_ok_iff.mp head⟩, others, tail⟩
    · rintro ⟨⟨first, yields⟩, others, tail⟩
      refine ⟨first.toList ++ others, ?_⟩
      rw [bindFields, bindField_ok_iff.mpr yields, tail]
      rfl

/-- What is bound are the arguments of the fields that have one and are not shared. -/
theorem forall₂_of_bindFields {rows : List FieldRow} {bound : List BoundArgument}
    (ran : site.bindFields name supplied rows = .ok bound) :
    List.Forall₂ (fun row b => row ∈ rows ∧ ∃ a, supplied.lookup row.name = some a ∧ Binds row a b)
      (rows.filter fun row => !row.binding.isShared && (supplied.lookup row.name).isSome) bound := by
  induction rows generalizing bound with
  | nil =>
    cases ran
    exact .nil
  | cons row' rows ih =>
    obtain ⟨first, others, head, tail, rfl⟩ := bindFields_cons_ok ran
    have yields := bindField_ok_iff.mp head
    have tail := (ih tail).imp fun _ _ bound => bound.imp_left (mem_cons_of_mem row')
    cases argument : supplied.lookup row'.name with
    | none =>
      rw [argument] at yields
      cases yields <;> simpa [argument] using tail
    | some a =>
      rw [argument] at yields
      cases yields with
      | shared isShared => simpa [isShared] using tail
      | reference twoWay refers found reactive =>
        have notShared : row'.binding.isShared = false := by rw [twoWay]; rfl
        rw [filter_cons_of_pos (by simp [argument, notShared])]
        exact .cons ⟨mem_cons_self, a, argument, .reference twoWay refers⟩ tail
      | value takesValue isValue =>
        have notShared : row'.binding.isShared = false := by
          rcases takesValue with kind | kind <;> rw [kind] <;> rfl
        rw [filter_cons_of_pos (by simp [argument, notShared])]
        exact .cons ⟨mem_cons_self, a, argument, .value takesValue⟩ tail

/-! ## Accepted calls -/

/-- The conditions on the arguments of a call. -/
structure Admits (site : CallSite) (child : Component) (args : List Argument) : Prop where
  /-- Every argument is for some field. -/
  targeted : ∀ index a, args[index]? = some a → ∃ row, Aims child args index a row
  /-- No two arguments are for the same field. -/
  once : ∀ index index' a a' row, Aims child args index a row → Aims child args index' a' row →
    index = index'
  /-- Two-way fields get a reference to a reactive field of the parent. -/
  referred : ∀ row ∈ child.fieldTable.entries, row.binding = .twoWay →
    ∃ index a f source, Aims child args index a row ∧ reference? a.value = some f ∧
      site.parentFields.get? f = some source ∧ source.reactive = true
  /-- Fields with a value of their own get no reference. -/
  valued : ∀ index a row, Aims child args index a row →
    row.binding = .ownedSimple ∨ row.binding = .oneWay → reference? a.value = none
  /-- One-way fields without an initial value get an argument. -/
  given : ∀ row ∈ child.fieldTable.entries, row.binding = .oneWay → row.hasInitializer = false →
    ∃ index a, Aims child args index a row

section

variable {child : Component}
  (distinct : (child.fieldTable.entries.map (·.name)).Nodup)
include distinct

theorem lookup_iff_aims
    (ran : assign name child.fieldTable child.fieldTable.positional [] args = .ok supplied)
    {row : FieldRow} (member : row ∈ child.fieldTable.entries) :
    supplied.lookup row.name = some a ↔ ∃ index, Aims child args index a row := by
  rw [lookup_assign_iff ran]
  constructor
  · rintro (done | ⟨index, row', argument, target, same⟩)
    · cases done
    · have same : row' = row :=
        inj_on_of_nodup_map distinct (mem_entries_of_target target) member same
      exact ⟨index, argument, same ▸ target⟩
  · rintro ⟨index, argument, target⟩
    exact .inr ⟨index, row, argument, target, rfl⟩

theorem assigns_iff :
    Assigns [] args.length (target? child.fieldTable child.fieldTable.positional args) ↔
      (∀ index a, args[index]? = some a → ∃ row, Aims child args index a row) ∧
      ∀ index index' a a' row, Aims child args index a row → Aims child args index' a' row →
        index = index' := by
  constructor
  · rintro ⟨free, once⟩
    refine ⟨fun index a argument => ?_, fun _ _ _ _ row aims aims' =>
      once _ _ _ _ aims.target aims'.target rfl⟩
    obtain ⟨row, target, _⟩ := free index (List.getElem?_eq_some_iff.mp argument).1
    exact ⟨row, argument, target⟩
  · rintro ⟨targeted, once⟩
    constructor
    · intro index below
      obtain ⟨row, aims⟩ := targeted index _ (List.getElem?_eq_getElem below)
      exact ⟨row, aims.target, rfl⟩
    · intro index index' row row' target target' same
      obtain ⟨a, argument⟩ := exists_argument_of_target target
      obtain ⟨a', argument'⟩ := exists_argument_of_target target'
      have same : row = row' := inj_on_of_nodup_map distinct (mem_entries_of_target target)
        (mem_entries_of_target target') same
      exact once _ _ _ _ _ ⟨argument, target⟩ ⟨argument', same ▸ target'⟩

/-- Once the arguments are assigned, the fields are bound if they can live with what they got. -/
theorem admits_iff_yields
    (ran : assign name child.fieldTable child.fieldTable.positional [] args = .ok supplied) :
    site.Admits child args ↔ ∀ row ∈ child.fieldTable.entries,
      ∃ outcome, site.Yields row (supplied.lookup row.name) outcome := by
  constructor
  · intro admits row member
    have aims {a : Argument} := lookup_iff_aims (a := a) distinct ran member
    cases kind : row.binding with
    | shared key role => exact ⟨none, .shared (by rw [kind]; rfl)⟩
    | twoWay =>
      obtain ⟨index, a, f, source, isAim, refers, found, reactive⟩ :=
        admits.referred row member kind
      rw [aims.mpr ⟨index, isAim⟩]
      exact ⟨_, .reference kind refers found reactive⟩
    | ownedSimple =>
      cases argument : supplied.lookup row.name with
      | none => exact ⟨none, .absent (by simp [kind]) (by simp [kind])⟩
      | some a =>
        obtain ⟨index, isAim⟩ := aims.mp argument
        exact ⟨_, .value (.inl kind) (admits.valued index a row isAim (.inl kind))⟩
    | oneWay =>
      cases argument : supplied.lookup row.name with
      | none =>
        refine ⟨none, .absent (by simp [kind]) fun _ => ?_⟩
        -- without an initializer there is an argument that aims at the field
        by_contra uninitialized
        obtain ⟨index, a, isAim⟩ :=
          admits.given row member kind (Bool.not_eq_true _ ▸ uninitialized)
        cases argument.symm.trans (aims.mpr ⟨index, isAim⟩)
      | some a =>
        obtain ⟨index, isAim⟩ := aims.mp argument
        exact ⟨_, .value (.inr kind) (admits.valued index a row isAim (.inr kind))⟩
  · intro yields
    obtain ⟨targeted, once⟩ := (assigns_iff distinct).mp (exists_assign_iff.mp ⟨supplied, ran⟩)
    have aims {row : FieldRow} (member : row ∈ child.fieldTable.entries) {a : Argument} :=
      lookup_iff_aims (a := a) distinct ran member
    refine ⟨targeted, once, ?_, ?_, ?_⟩
    · intro row member twoWay
      obtain ⟨outcome, yields⟩ := yields row member
      cases argument : supplied.lookup row.name with
      | none =>
        rw [argument] at yields
        cases yields with
        | shared isShared => simp [twoWay, BindingKind.isShared] at isShared
        | absent notTwoWay _ => exact absurd twoWay notTwoWay
      | some a =>
        obtain ⟨index, isAim⟩ := (aims member).mp argument
        rw [argument] at yields
        cases yields with
        | shared isShared => simp [twoWay, BindingKind.isShared] at isShared
        | reference _ refers found reactive =>
          exact ⟨index, a, _, _, isAim, refers, found, reactive⟩
        | value takesValue _ => simp [twoWay] at takesValue
    · intro index a row isAim takesValue
      have member := mem_entries_of_target isAim.target
      obtain ⟨outcome, yields⟩ := yields row member
      rw [(aims member).mpr ⟨index, isAim⟩] at yields
      cases yields with
      | shared isShared =>
        rcases takesValue with kind | kind <;> simp [kind, BindingKind.isShared] at isShared
      | reference twoWay _ _ _ => simp [twoWay] at takesValue
      | value _ isValue => exact isValue
    · intro row member oneWay uninitialized
      obtain ⟨outcome, yields⟩ := yields row member
      cases argument : supplied.lookup row.name with
      | none =>
        rw [argument] at yields
        cases yields with
        | shared isShared => simp [oneWay, BindingKind.isShared] at isShared
        | absent _ initialized => simp [initialized oneWay] at uninitialized
      | some a =>
        obtain ⟨index, isAim⟩ := (aims member).mp argument
        exact ⟨index, a, isAim⟩

theorem exists_bind_iff : (∃ bound, site.bind child args = .ok bound) ↔ site.Admits child args := by
  constructor
  · rintro ⟨bound, ran⟩
    obtain ⟨supplied, assigned, ran⟩ := except_bind_ok_iff.mp ran
    exact (admits_iff_yields distinct assigned).mpr (exists_bindFields_iff.mp ⟨bound, ran⟩)
  · intro admits
    obtain ⟨supplied, assigned⟩ := exists_assign_iff.mpr
      ((assigns_iff distinct).mpr ⟨admits.targeted, admits.once⟩)
    have yields := (admits_iff_yields distinct assigned).mp admits
    obtain ⟨bound, ran⟩ := exists_bindFields_iff.mpr yields
    exact ⟨bound, except_bind_ok_iff.mpr ⟨supplied, assigned, ran⟩⟩

theorem forall₂_of_bind {bound : List BoundArgument} (ran : site.bind child args = .ok bound) :
    List.Forall₂ (fun row b => ∃ index a, Aims child args index a row ∧ Binds row a b)
      (child.fieldTable.positional.filter (isTarget child args)) bound := by
  obtain ⟨supplied, assigned, ran⟩ := except_bind_ok_iff.mp ran
  have rows : child.fieldTable.positional.filter (isTarget child args) =
      child.fieldTable.entries.filter
        fun row => !row.binding.isShared && (supplied.lookup row.name).isSome := by
    rw [FieldTable.positional, filter_filter]
    refine filter_congr fun row member => ?_
    rw [Bool.and_comm]
    congr 1
    rw [Bool.eq_iff_iff, isTarget_iff, Option.isSome_iff_exists]
    simp only [lookup_iff_aims distinct assigned member]
    exact exists_comm
  rw [rows]
  refine (forall₂_of_bindFields ran).imp ?_
  rintro row b ⟨member, a, argument, binds⟩
  obtain ⟨index, isAim⟩ := (lookup_iff_aims distinct assigned member).mp argument
  exact ⟨index, a, isAim, binds⟩

end

/-- A call is accepted if and only if its arguments meet the conditions, and it then binds the fields
    that are not shared and have an argument, in the order of declaration. -/
theorem bind_meets_spec (site : CallSite) (child : Component) (args : List Argument)
    (distinct : (child.fieldTable.entries.map (·.name)).Nodup) :
    ((∃ bound, site.bind child args = .ok bound) ↔ site.Admits child args) ∧
      ∀ bound, site.bind child args = .ok bound →
        List.Forall₂ (fun row b => ∃ index a, Aims child args index a row ∧ Binds row a b)
          (child.fieldTable.positional.filter (isTarget child args)) bound :=
  ⟨exists_bind_iff distinct, fun _ ran => forall₂_of_bind distinct ran⟩

end CallSite

/-! A badge with fields of every kind.  The arguments come in another order than the fields, and the
one for the consumed field is dropped. -/

namespace Badge

def badge : Component where
  name := "Badge"
  members := [
    .field { name := "title", decorator := .prop },
    .field { name := "theme", decorator := .consume none },
    .field { name := "size", initializer := some "1" },
    .field { name := "count", decorator := .link },
    .field { name := "note", decorator := .prop, initializer := some "''" }]
  render := { body := [] }

def site : CallSite := ⟨"Page", ⟨[⟨"total", .ownedSimple, true, true, {}⟩]⟩⟩

def args : List Argument := [
  { name := some "theme", value := "'dark'" },
  { value := " this.name " },
  { name := some "count", value := "this.$total" },
  { value := "3" }]

end Badge

theorem CallSite.bind_meets_spec_badge :
    (Badge.badge.fieldTable.entries.map (·.name)).Nodup ∧
      Badge.site.Admits Badge.badge Badge.args ∧
      ∃ bound, Badge.site.bind Badge.badge Badge.args = .ok bound ∧
        bound = [⟨"title", .oneWay, .expression "this.name"⟩, ⟨"size", .ownedSimple, .expression "3"⟩,
          ⟨"count", .twoWay, .wrapper "this.total__" "total"⟩] ∧
        List.Forall₂ (fun row b => ∃ index a, Aims Badge.badge Badge.args index a row ∧ Binds row a b)
          (Badge.badge.fieldTable.positional.filter (isTarget Badge.badge Badge.args)) bound := by
  have distinct : (Badge.badge.fieldTable.entries.map (·.name)).Nodup := by decide
  have known : (Badge.site.bind Badge.badge Badge.args).toOption = some
      [⟨"title", .oneWay, .expression "this.name"⟩, ⟨"size", .ownedSimple, .expression "3"⟩,
        ⟨"count", .twoWay, .wrapper "this.total__" "total"⟩] := by decide +kernel
  obtain ⟨accepted, result⟩ := CallSite.bind_meets_spec Badge.site Badge.badge Badge.args distinct
  cases ran : Badge.site.bind Badge.badge Badge.args with
  | error fault =>
    rw [ran] at known
    cases known
  | ok bound =>
    rw [ran] at known
    exact ⟨distinct, accepted.mp ⟨bound, ran⟩, bound, rfl, Option.some.inj known, result bound ran⟩

end ReactiveView
