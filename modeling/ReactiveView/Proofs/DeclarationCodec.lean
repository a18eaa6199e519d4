import ReactiveView.Lowering.Codec
import ReactiveView.Proofs.WrittenValues

/-!
# Declarations survive their encoding

Decoding what a module, options or a lowered component is encoded as gives it back
(`codec_isLossless`).  Each type of the family has a law of its own, stated for one value at a time
(`Json.Survives`): the encoding is tidy, and every document that writes it is decoded to the value.
The law of a record follows from the laws of its fields.  Statements nest, and their law is an
induction over the levels of the encoding.
-/

namespace ReactiveView

open List
open Json (Doc IsTidy MembersTidy ofOption ofStrings ofUInt32 ofString?)
open Json.Doc (Writes required orElse list? bool? uint32? strings?)

/-! ## Laws -/

/-- The encoding of `a` is tidy, and every document that writes it is read as `a`. -/
structure Json.Survives {α : Type} (encode : α → Json) (value? : Doc → Option α) (a : α) :
    Prop where
  tidy : (encode a).IsTidy
  reads : ∀ {d}, Writes (encode a) d → value? d = some a

namespace Json

theorem survives_string (s : String) : Survives .str Doc.string? s where
  tidy := trivial
  reads writes := by
    cases writes
    rfl

theorem survives_bool (b : Bool) : Survives .bool bool? b where
  tidy := trivial
  reads writes := by
    cases writes
    rfl

theorem survives_uint32 (n : UInt32) : Survives ofUInt32 uint32? n where
  tidy := ⟨n.toNat, Nat.le_trans (Nat.le_of_lt n.toNat_lt) (by decide), rfl⟩
  reads writes := by
    cases writes
    have small := n.toNat_lt
    simp only [uint32?, Int.toNat_natCast, UInt32.ofNat_toNat]
    rw [if_pos (by omega)]

section

variable {α : Type} {encode : α → Json} {value? : Doc → Option α}

theorem survives_list {as : List α} (each : ∀ a ∈ as, Survives encode value? a) :
    Survives (fun as => .arr (as.map encode)) (list? value?) as where
  tidy := by
    apply itemsTidy_iff.mpr
    intro v member
    obtain ⟨a, isItem, rfl⟩ := mem_map.mp member
    exact (each a isItem).tidy
  reads {d} writes := by
    cases writes with
    | @arr _ docs items =>
      show docs.mapM value? = some as
      induction as generalizing docs with
      | nil =>
        cases items
        rfl
      | cons a as ih =>
        cases items with
        | cons head tail =>
          have first := (each a mem_cons_self).reads head
          have others := ih (fun b member => each b (.tail _ member)) tail
          simp [first, others]

theorem Survives.items {as : List α}
    (survives : Survives (fun as => .arr (as.map encode)) (list? value?) as) :
    ItemsTidy (as.map encode) := survives.tidy

theorem tidy_option {a : Option α} (each : ∀ b, Survives encode value? b) :
    (ofOption encode a).IsTidy := by
  cases a with
  | none => trivial
  | some a => exact (each a).tidy

theorem reads_option {a : Option α} {d : Doc} (each : ∀ b, Survives encode value? b)
    (present : ∀ b, encode b ≠ .null) (writes : Writes (ofOption encode a) d) :
    Doc.optional value? (some d) = some a := by
  cases a with
  | none =>
    cases writes
    rfl
  | some a =>
    have value := (each a).reads writes
    -- null is read as no value at all, but it writes no value of the type
    have notNull : d ≠ .null := by
      rintro rfl
      change Writes (encode a) .null at writes
      generalize encodes : encode a = v at writes
      cases writes
      exact present a encodes
    cases d with
    | null => contradiction
    | _ => exact congrArg (Option.map some) value

end

theorem survives_strings (ss : List String) : Survives ofStrings strings? ss :=
  survives_list fun s _ => survives_string s

theorem tidy_string? (s : Option String) : (ofString? s).IsTidy := tidy_option survives_string

theorem reads_string? {s : Option String} {d : Doc} (writes : Writes (ofString? s) d) :
    Doc.optional Doc.string? (some d) = some s :=
  reads_option survives_string nofun writes

end Json

open Json (Survives survives_string survives_bool survives_uint32 survives_strings survives_list
  tidy_string? reads_string?)

/-! ## Fields and bindings -/

-- the encodings below are objects with given members
attribute [local simp] IsTidy MembersTidy

theorem Location.survives (l : Location) : Survives Location.encode Location.decode? l where
  tidy := by simp [Location.encode, (survives_uint32 _).tidy]
  reads writes := by
    obtain ⟨docs, found, each⟩ := writes.fields? ["line", "column"] rfl (by simp)
    rcases each with _ | ⟨line, _ | ⟨column, _ | _⟩⟩
    simp [Location.decode?, found, required, (survives_uint32 _).reads line,
      (survives_uint32 _).reads column]

theorem Decorator.survives (decorator : Decorator) :
    Survives Decorator.encode Decorator.decode? decorator where
  tidy := by
    cases decorator <;> simp [Decorator.encode, tidy_string?]
  reads writes := by
    cases decorator with
    | none | state | prop | link =>
      obtain ⟨rest, tagged, isRecord⟩ :=
        writes.tagged? Decorator.variants true (by decide) (by simp)
      simp [Decorator.decode?, tagged, isRecord.unit?]
    | provide | consume =>
      obtain ⟨rest, tagged, isRecord⟩ :=
        writes.tagged? Decorator.variants true (by decide) (by simp)
      obtain ⟨docs, found, each⟩ := isRecord.fields? ["key"] rfl (by simp)
      rcases each with _ | ⟨key, _ | _⟩
      simp [Decorator.decode?, tagged, found, reads_string? key]

theorem SharedRole.reads {role : SharedRole} {d : Doc} (writes : Writes (.str role.name) d) :
    SharedRole.decode? d = some role := by
  cases role <;> cases writes <;> rfl

theorem BindingKind.survives (binding : BindingKind) :
    Survives BindingKind.encode BindingKind.decode? binding where
  tidy := by
    cases binding <;> simp [BindingKind.encode]
  reads writes := by
    cases binding with
    | ownedSimple | oneWay | twoWay =>
      obtain ⟨rest, tagged, isRecord⟩ :=
        writes.tagged? BindingKind.variants true (by decide) (by simp)
      simp [BindingKind.decode?, tagged, isRecord.unit?]
    | shared =>
      obtain ⟨rest, tagged, isRecord⟩ :=
        writes.tagged? BindingKind.variants true (by decide) (by simp)
      obtain ⟨docs, found, each⟩ := isRecord.fields? ["key", "role"] rfl (by simp)
      rcases each with _ | ⟨key, _ | ⟨role, _ | _⟩⟩
      simp [BindingKind.decode?, tagged, found, required, (survives_string _).reads key,
        SharedRole.reads role]

theorem Field.survives (f : Field) : Survives (fun f => .obj f.members) Field.decode? f where
  tidy := by
    simp [Field.members, tidy_string?, (Decorator.survives _).tidy,
      (Location.survives _).tidy]
  reads writes := by
    obtain ⟨docs, found, each⟩ := writes.fields?
      ["name", "valueType", "decorator", "initializer", "location"] rfl (by simp)
    rcases each with
      _ | ⟨name, _ | ⟨valueType, _ | ⟨decorator, _ | ⟨initializer, _ | ⟨location, _ | _⟩⟩⟩⟩⟩
    simp [Field.decode?, found, required, orElse, (survives_string _).reads name,
      (survives_string _).reads valueType, (Decorator.survives _).reads decorator,
      reads_string? initializer, (Location.survives _).reads location]

theorem Wrapper.survives (w : Wrapper) :
    Survives (fun w => .obj w.members) Wrapper.decode? w where
  tidy := by
    simp [Wrapper.members, tidy_string?, (BindingKind.survives _).tidy,
      (Location.survives _).tidy]
  reads writes := by
    obtain ⟨docs, found, each⟩ := writes.fields?
      ["name", "sourceField", "valueType", "binding", "initializer", "location"] rfl (by simp)
    rcases each with
      _ | ⟨name, _ | ⟨source, _ | ⟨valueType, _ | ⟨binding, _ | ⟨initializer, _ |
        ⟨location, _ | _⟩⟩⟩⟩⟩⟩
    simp [Wrapper.decode?, found, required, orElse, (survives_string _).reads name,
      (survives_string _).reads source, (survives_string _).reads valueType,
      (BindingKind.survives _).reads binding, reads_string? initializer,
      (Location.survives _).reads location]

theorem Accessors.survives (a : Accessors) :
    Survives (fun a => .obj a.members) Accessors.decode? a where
  tidy := by simp [Accessors.members]
  reads writes := by
    obtain ⟨docs, found, each⟩ := writes.fields? ["name", "backing", "valueType"] rfl (by simp)
    rcases each with _ | ⟨name, _ | ⟨backing, _ | ⟨valueType, _ | _⟩⟩⟩
    simp [Accessors.decode?, found, required, (survives_string _).reads name,
      (survives_string _).reads backing, (survives_string _).reads valueType]

/-! ## Elements and markers -/

theorem Argument.survives (a : Argument) : Survives Argument.encode Argument.decode? a where
  tidy := by simp [Argument.encode, tidy_string?]
  reads writes := by
    obtain ⟨docs, found, each⟩ := writes.fields? ["name", "value"] rfl (by simp)
    rcases each with _ | ⟨name, _ | ⟨value, _ | _⟩⟩
    simp [Argument.decode?, found, required, reads_string? name, (survives_string _).reads value]

theorem Attribute.survives (a : Attribute) : Survives Attribute.encode Attribute.decode? a where
  tidy := by simp [Attribute.encode, (survives_strings _).tidy]
  reads writes := by
    obtain ⟨docs, found, each⟩ := writes.fields? ["method", "args"] rfl (by simp)
    rcases each with _ | ⟨method, _ | ⟨args, _ | _⟩⟩
    simp [Attribute.decode?, found, required, orElse, (survives_string _).reads method,
      (survives_strings _).reads args]

theorem BoundValue.survives (value : BoundValue) :
    Survives BoundValue.encode BoundValue.decode? value where
  tidy := by
    cases value <;> simp [BoundValue.encode]
  reads writes := by
    cases value with
    | expression =>
      obtain ⟨rest, tagged, isRecord⟩ :=
        writes.tagged? BoundValue.variants true (by decide) (by simp)
      obtain ⟨docs, found, each⟩ := isRecord.fields? ["code"] rfl (by simp)
      rcases each with _ | ⟨code, _ | _⟩
      simp [BoundValue.decode?, tagged, found, required, (survives_string _).reads code]
    | wrapper =>
      obtain ⟨rest, tagged, isRecord⟩ :=
        writes.tagged? BoundValue.variants true (by decide) (by simp)
      obtain ⟨docs, found, each⟩ := isRecord.fields? ["code", "field"] rfl (by simp)
      rcases each with _ | ⟨code, _ | ⟨field, _ | _⟩⟩
      simp [BoundValue.decode?, tagged, found, required, (survives_string _).reads code,
        (survives_string _).reads field]

theorem BoundArgument.survives (b : BoundArgument) :
    Survives BoundArgument.encode BoundArgument.decode? b where
  tidy := by
    simp [BoundArgument.encode, (BindingKind.survives _).tidy,
      (BoundValue.survives _).tidy]
  reads writes := by
    obtain ⟨docs, found, each⟩ := writes.fields? ["field", "binding", "value"] rfl (by simp)
    rcases each with _ | ⟨field, _ | ⟨binding, _ | ⟨value, _ | _⟩⟩⟩
    simp [BoundArgument.decode?, found, required, (survives_string _).reads field,
      (BindingKind.survives _).reads binding, (BoundValue.survives _).reads value]

theorem survives_arguments (as : List Argument) :
    Survives (fun as => .arr (as.map Argument.encode)) (list? Argument.decode?) as :=
  survives_list fun a _ => a.survives

theorem survives_attributes (as : List Attribute) :
    Survives (fun as => .arr (as.map Attribute.encode)) (list? Attribute.decode?) as :=
  survives_list fun a _ => a.survives

theorem survives_bindings (bs : List BoundArgument) :
    Survives (fun bs => .arr (bs.map BoundArgument.encode)) (list? BoundArgument.decode?) bs :=
  survives_list fun b _ => b.survives

theorem Role.survives (role : Role) : Survives Role.encode Role.decode? role where
  tidy := by
    cases role <;>
      simp [Role.encode, (survives_bindings _).items, (survives_uint32 _).tidy]
  reads writes := by
    cases role with
    | element | loop =>
      obtain ⟨rest, tagged, isRecord⟩ := writes.tagged? Role.variants true (by decide) (by simp)
      simp [Role.decode?, tagged, isRecord.unit?]
    | component =>
      obtain ⟨rest, tagged, isRecord⟩ := writes.tagged? Role.variants true (by decide) (by simp)
      obtain ⟨docs, found, each⟩ := isRecord.fields? ["bindings"] rfl (by simp)
      rcases each with _ | ⟨bindings, _ | _⟩
      simp [Role.decode?, tagged, found, required, (survives_bindings _).reads bindings]
    | conditional =>
      obtain ⟨rest, tagged, isRecord⟩ := writes.tagged? Role.variants true (by decide) (by simp)
      obtain ⟨docs, found, each⟩ := isRecord.fields? ["site"] rfl (by simp)
      rcases each with _ | ⟨site, _ | _⟩
      simp [Role.decode?, tagged, found, required, (survives_uint32 _).reads site]
    | arm =>
      obtain ⟨rest, tagged, isRecord⟩ := writes.tagged? Role.variants true (by decide) (by simp)
      obtain ⟨docs, found, each⟩ := isRecord.fields? ["site", "branchId"] rfl (by simp)
      rcases each with _ | ⟨site, _ | ⟨branchId, _ | _⟩⟩
      simp [Role.decode?, tagged, found, required, (survives_uint32 _).reads site,
        (survives_uint32 _).reads branchId]

theorem OpenMarker.survives (m : OpenMarker) :
    Survives (fun m => .obj m.members) OpenMarker.decode? m where
  tidy := by
    simp [OpenMarker.members, (survives_strings _).tidy,
      (survives_attributes _).items, (Role.survives _).tidy, (Location.survives _).tidy]
  reads writes := by
    obtain ⟨docs, found, each⟩ := writes.fields?
      ["component", "args", "attributes", "role", "location"] rfl (by simp)
    rcases each with
      _ | ⟨component, _ | ⟨args, _ | ⟨attributes, _ | ⟨role, _ | ⟨location, _ | _⟩⟩⟩⟩⟩
    simp [OpenMarker.decode?, found, required, orElse, (survives_string _).reads component,
      (survives_strings _).reads args, (survives_attributes _).reads attributes,
      (Role.survives _).reads role, (Location.survives _).reads location]

theorem CloseMarker.survives (m : CloseMarker) :
    Survives (fun m => .obj m.members) CloseMarker.decode? m where
  tidy := by
    simp [CloseMarker.members, Json.tidy_option survives_uint32]
  reads writes := by
    obtain ⟨docs, found, each⟩ := writes.fields? ["component", "branchId"] rfl (by simp)
    rcases each with _ | ⟨component, _ | ⟨branchId, _ | _⟩⟩
    simp [CloseMarker.decode?, found, required, (survives_string _).reads component,
      Json.reads_option survives_uint32 nofun branchId]

/-! ## Statements -/

theorem tidy_tagged {tag variant : String} {ms : List (String × Json)}
    (untagged : tag ∉ ms.map (·.1)) (tidy : IsTidy (.obj ms)) :
    IsTidy (.obj ((tag, .str variant) :: ms)) :=
  ⟨nodup_cons.mpr ⟨untagged, tidy.1⟩, trivial, tidy.2⟩

/-- An arm of a conditional. -/
def Arm.encode (a : Arm Stmt) : Json :=
  .obj [("condition", ofString? a.condition), ("body", .arr (a.body.map Stmt.encode))]

/-- An arm of a lowered conditional. -/
def BranchArm.encode (a : BranchArm Stmt) : Json :=
  .obj [("condition", ofString? a.condition), ("branchId", ofUInt32 a.branchId),
    ("body", .arr (a.body.map Stmt.encode))]

theorem Stmt.encodeAll_eq_map (body : List Stmt) : Stmt.encodeAll body = body.map Stmt.encode := by
  induction body with
  | nil => rfl
  | cons s rest ih => rw [Stmt.encodeAll, ih, map_cons]

theorem Stmt.encodeArms_eq_map (arms : List (Arm Stmt)) :
    Stmt.encodeArms arms = arms.map Arm.encode := by
  induction arms with
  | nil => rfl
  | cons a rest ih => rw [Stmt.encodeArms, ih, Stmt.encodeAll_eq_map, map_cons, Arm.encode]

theorem Stmt.encodeBranchArms_eq_map (arms : List (BranchArm Stmt)) :
    Stmt.encodeBranchArms arms = arms.map BranchArm.encode := by
  induction arms with
  | nil => rfl
  | cons a rest ih =>
    rw [Stmt.encodeBranchArms, ih, Stmt.encodeAll_eq_map, map_cons, BranchArm.encode]

theorem Json.nesting_le_of_mem {v : Json} {items : List Json} (member : v ∈ items) :
    v.nesting ≤ Json.itemsNesting items :=
  (Json.deepest_le_iff rfl fun _ _ => rfl).mp (Nat.le_refl _) v member

section

variable {stmt? : Doc → Option Stmt} {levels : Nat}
  (below : ∀ s : Stmt, s.encode.nesting ≤ levels → Survives Stmt.encode stmt? s)

include below

theorem Stmt.survives_body (body : List Stmt)
    (shallow : Json.itemsNesting (body.map Stmt.encode) ≤ levels) :
    Survives (fun body => .arr (body.map Stmt.encode)) (list? stmt?) body :=
  survives_list fun s member => below s
    (Nat.le_trans (Json.nesting_le_of_mem (mem_map_of_mem member)) shallow)

theorem Arm.survives {a : Arm Stmt} (shallow : a.encode.nesting ≤ levels) :
    Survives Arm.encode (Arm.decode? stmt?) a := by
  have body := Stmt.survives_body below a.body (by
    simp only [Arm.encode, Json.nesting, Json.membersNesting] at shallow
    omega)
  constructor
  · simp [Arm.encode, tidy_string?, body.items]
  · intro d writes
    obtain ⟨docs, found, each⟩ := writes.fields? ["condition", "body"] rfl (by simp)
    rcases each with _ | ⟨condition, _ | ⟨statements, _ | _⟩⟩
    simp [Arm.decode?, found, orElse, reads_string? condition, body.reads statements]

theorem BranchArm.survives {a : BranchArm Stmt} (shallow : a.encode.nesting ≤ levels) :
    Survives BranchArm.encode (BranchArm.decode? stmt?) a := by
  have body := Stmt.survives_body below a.body (by
    simp only [BranchArm.encode, Json.nesting, Json.membersNesting] at shallow
    omega)
  constructor
  · simp [BranchArm.encode, tidy_string?, (survives_uint32 _).tidy, body.items]
  · intro d writes
    obtain ⟨docs, found, each⟩ := writes.fields? ["condition", "branchId", "body"] rfl (by simp)
    rcases each with _ | ⟨condition, _ | ⟨branchId, _ | ⟨statements, _ | _⟩⟩⟩
    simp [BranchArm.decode?, found, required, reads_string? condition,
      (survives_uint32 _).reads branchId, body.reads statements]

theorem survives_arms (arms : List (Arm Stmt))
    (shallow : Json.itemsNesting (arms.map Arm.encode) ≤ levels) :
    Survives (fun arms => .arr (arms.map Arm.encode)) (list? (Arm.decode? stmt?)) arms :=
  survives_list fun _ member => Arm.survives below
    (Nat.le_trans (Json.nesting_le_of_mem (mem_map_of_mem member)) shallow)

theorem survives_branchArms (arms : List (BranchArm Stmt))
    (shallow : Json.itemsNesting (arms.map BranchArm.encode) ≤ levels) :
    Survives (fun arms => .arr (arms.map BranchArm.encode)) (list? (BranchArm.decode? stmt?))
      arms :=
  survives_list fun _ member => BranchArm.survives below
    (Nat.le_trans (Json.nesting_le_of_mem (mem_map_of_mem member)) shallow)

theorem Stmt.tidy_encode {s : Stmt} (shallow : s.encode.nesting ≤ levels + 1) :
    s.encode.IsTidy := by
  cases s with
  | element head children =>
    simp only [Stmt.encode, Stmt.encodeAll_eq_map, Json.nesting, Json.membersNesting] at shallow ⊢
    have body := Stmt.survives_body below children (by omega)
    simp [(survives_arguments _).items, (survives_attributes _).items,
      body.items, (Location.survives _).tidy]
  | choice arms location =>
    simp only [Stmt.encode, Stmt.encodeArms_eq_map, Json.nesting, Json.membersNesting] at shallow ⊢
    have each := survives_arms below arms (by omega)
    simp [each.items, (Location.survives _).tidy]
  | forEach loop body =>
    simp only [Stmt.encode, Stmt.encodeAll_eq_map, Json.nesting, Json.membersNesting] at shallow ⊢
    have body := Stmt.survives_body below body (by omega)
    simp [tidy_string?, body.items, (Location.survives _).tidy]
  | code text location =>
    simp [Stmt.encode, (Location.survives _).tidy]
  | opening marker =>
    exact tidy_tagged (by simp [OpenMarker.members]) marker.survives.tidy
  | closing marker =>
    exact tidy_tagged (by simp [CloseMarker.members]) marker.survives.tidy
  | branch site arms location =>
    simp only [Stmt.encode, Stmt.encodeBranchArms_eq_map, Json.nesting, Json.membersNesting]
      at shallow ⊢
    have each := survives_branchArms below arms (by omega)
    simp [(survives_uint32 _).tidy, each.items, (Location.survives _).tidy]
  | items params keyGenerator body =>
    simp only [Stmt.encode, Stmt.encodeAll_eq_map, Json.nesting, Json.membersNesting] at shallow ⊢
    have body := Stmt.survives_body below body (by omega)
    simp [(survives_strings _).tidy, tidy_string?, body.items]

end

theorem Stmt.reads_variant {levels : Nat} {nested : Bool} {variant : String}
    {ms : List (String × Json)} {s : Stmt} {d : Doc}
    (writes : Writes (.obj (("type", .str variant) :: ms)) d) (known : variant ∈ Stmt.variants)
    (untagged : "type" ∉ ms.map (·.1))
    (inner : ∀ {rest}, Writes (.obj ms) rest →
      Stmt.decodeVariant? (Stmt.decodeUpTo? levels true) variant rest = some s) :
    Stmt.decodeUpTo? (levels + 1) nested d = some s := by
  obtain ⟨rest, tagged, isRecord⟩ := writes.tagged? Stmt.variants nested known untagged
  rw [Stmt.decodeUpTo?, tagged]
  exact inner isRecord

/-- One level of a statement is read, given that the statements inside it are. -/
theorem Stmt.reads_level {levels : Nat}
    (below : ∀ s : Stmt, s.encode.nesting ≤ levels →
      Survives Stmt.encode (Stmt.decodeUpTo? levels true) s)
    {s : Stmt} {nested : Bool} {d : Doc} (shallow : s.encode.nesting ≤ levels + 1)
    (writes : Writes s.encode d) : Stmt.decodeUpTo? (levels + 1) nested d = some s := by
  -- a member is a level further in than its statement, so the statements inside are shallow enough
  cases s with
  | element head children =>
    simp only [Stmt.encode, Stmt.encodeAll_eq_map, Json.nesting, Json.membersNesting]
      at shallow writes
    have body := Stmt.survives_body below children (by omega)
    refine Stmt.reads_variant writes (by decide) (by simp) fun isRecord => ?_
    obtain ⟨docs, found, each⟩ := isRecord.fields?
      ["name", "args", "chain", "children", "location"] rfl (by simp)
    rcases each with
      _ | ⟨name, _ | ⟨args, _ | ⟨chain, _ | ⟨statements, _ | ⟨location, _ | _⟩⟩⟩⟩⟩
    unfold Stmt.decodeVariant?
    rw [found]
    simp [required, orElse, (survives_string _).reads name,
      (survives_arguments _).reads args, (survives_attributes _).reads chain,
      body.reads statements, (Location.survives _).reads location]
  | choice arms location =>
    simp only [Stmt.encode, Stmt.encodeArms_eq_map, Json.nesting, Json.membersNesting]
      at shallow writes
    have arms := survives_arms below arms (by omega)
    refine Stmt.reads_variant writes (by decide) (by simp) fun isRecord => ?_
    obtain ⟨docs, found, each⟩ := isRecord.fields? ["arms", "location"] rfl (by simp)
    rcases each with _ | ⟨alternatives, _ | ⟨location, _ | _⟩⟩
    unfold Stmt.decodeVariant?
    rw [found]
    simp [required, orElse, arms.reads alternatives,
      (Location.survives _).reads location]
  | forEach loop body =>
    simp only [Stmt.encode, Stmt.encodeAll_eq_map, Json.nesting, Json.membersNesting]
      at shallow writes
    have body := Stmt.survives_body below body (by omega)
    refine Stmt.reads_variant writes (by decide) (by simp) fun isRecord => ?_
    obtain ⟨docs, found, each⟩ := isRecord.fields?
      ["source", "itemVar", "indexVar", "keyGenerator", "body", "location"] rfl (by simp)
    rcases each with
      _ | ⟨source, _ | ⟨item, _ | ⟨index, _ | ⟨key, _ | ⟨statements, _ | ⟨location, _ | _⟩⟩⟩⟩⟩⟩
    unfold Stmt.decodeVariant?
    rw [found]
    simp [required, orElse, (survives_string _).reads source,
      (survives_string _).reads item, reads_string? index, reads_string? key,
      body.reads statements, (Location.survives _).reads location]
  | code text location =>
    refine Stmt.reads_variant writes (by decide) (by simp) fun isRecord => ?_
    obtain ⟨docs, found, each⟩ := isRecord.fields? ["code", "location"] rfl (by simp)
    rcases each with _ | ⟨text, _ | ⟨location, _ | _⟩⟩
    unfold Stmt.decodeVariant?
    rw [found]
    simp [required, orElse, (survives_string _).reads text,
      (Location.survives _).reads location]
  | opening marker =>
    refine Stmt.reads_variant writes (by decide) (by simp [OpenMarker.members]) fun isRecord => ?_
    simp [Stmt.decodeVariant?, marker.survives.reads isRecord]
  | closing marker =>
    refine Stmt.reads_variant writes (by decide) (by simp [CloseMarker.members]) fun isRecord => ?_
    simp [Stmt.decodeVariant?, marker.survives.reads isRecord]
  | branch site arms location =>
    simp only [Stmt.encode, Stmt.encodeBranchArms_eq_map, Json.nesting, Json.membersNesting]
      at shallow writes
    have arms := survives_branchArms below arms (by omega)
    refine Stmt.reads_variant writes (by decide) (by simp) fun isRecord => ?_
    obtain ⟨docs, found, each⟩ := isRecord.fields? ["site", "arms", "location"] rfl (by simp)
    rcases each with _ | ⟨site, _ | ⟨alternatives, _ | ⟨location, _ | _⟩⟩⟩
    unfold Stmt.decodeVariant?
    rw [found]
    simp [required, orElse, (survives_uint32 _).reads site,
      arms.reads alternatives, (Location.survives _).reads location]
  | items params keyGenerator body =>
    simp only [Stmt.encode, Stmt.encodeAll_eq_map, Json.nesting, Json.membersNesting]
      at shallow writes
    have body := Stmt.survives_body below body (by omega)
    refine Stmt.reads_variant writes (by decide) (by simp) fun isRecord => ?_
    obtain ⟨docs, found, each⟩ := isRecord.fields? ["params", "keyGenerator", "body"] rfl (by simp)
    rcases each with _ | ⟨params, _ | ⟨key, _ | ⟨statements, _ | _⟩⟩⟩
    unfold Stmt.decodeVariant?
    rw [found]
    simp [required, (survives_strings _).reads params,
      reads_string? key, body.reads statements]

theorem Stmt.nesting_pos (s : Stmt) : 0 < s.encode.nesting := by
  cases s <;> simp only [Stmt.encode, Json.nesting] <;> omega

theorem Stmt.survives_upTo (levels : Nat) (nested : Bool) (s : Stmt)
    (shallow : s.encode.nesting ≤ levels) :
    Survives Stmt.encode (Stmt.decodeUpTo? levels nested) s := by
  induction levels generalizing nested s with
  | zero =>
    -- every statement is a level
    exact absurd s.nesting_pos (by omega)
  | succ levels ih => exact ⟨Stmt.tidy_encode (ih true) shallow, Stmt.reads_level (ih true) shallow⟩

theorem Stmt.survives (nested : Bool) (s : Stmt) : Survives Stmt.encode (Stmt.decode? nested) s where
  tidy := (Stmt.survives_upTo _ nested s (Nat.le_refl _)).tidy
  reads {d} writes := by
    rw [Stmt.decode?, Json.Doc.Writes.height _ _ writes]
    exact (Stmt.survives_upTo _ nested s (Nat.le_refl _)).reads writes

theorem survives_body (nested : Bool) (body : List Stmt) :
    Survives Stmt.encodeBody (list? (Stmt.decode? nested)) body := by
  have each := survives_list fun s (_ : s ∈ body) => Stmt.survives nested s
  have encodes : Stmt.encodeBody = fun body => .arr (body.map Stmt.encode) :=
    funext fun body => congrArg Json.arr (Stmt.encodeAll_eq_map body)
  rwa [encodes]

/-! ## Components and modules -/

theorem Method.survives (m : Method) : Survives (fun m => .obj m.members) Method.decode? m where
  tidy := by
    simp [Method.members, (survives_strings _).tidy,
      (survives_body true _).tidy, (Location.survives _).tidy]
  reads writes := by
    obtain ⟨docs, found, each⟩ := writes.fields?
      ["name", "params", "isBuilder", "body", "location"] rfl (by simp)
    rcases each with
      _ | ⟨name, _ | ⟨params, _ | ⟨isBuilder, _ | ⟨body, _ | ⟨location, _ | _⟩⟩⟩⟩⟩
    simp [Method.decode?, found, required, orElse, (survives_string _).reads name,
      (survives_strings _).reads params, (survives_bool _).reads isBuilder,
      (survives_body true _).reads body, (Location.survives _).reads location]

theorem Member.survives (m : Member) : Survives Member.encode Member.decode? m where
  tidy := by
    cases m with
    | field f => exact tidy_tagged (by simp [Field.members]) f.survives.tidy
    | wrapper w => exact tidy_tagged (by simp [Wrapper.members]) w.survives.tidy
    | accessors a => exact tidy_tagged (by simp [Accessors.members]) a.survives.tidy
    | method m => exact tidy_tagged (by simp [Method.members]) m.survives.tidy
  reads writes := by
    cases m with
    | field f =>
      obtain ⟨rest, tagged, isRecord⟩ := writes.tagged? Member.variants false (by decide)
        (by simp [Field.members])
      simp [Member.decode?, tagged, f.survives.reads isRecord]
    | wrapper w =>
      obtain ⟨rest, tagged, isRecord⟩ := writes.tagged? Member.variants false (by decide)
        (by simp [Wrapper.members])
      simp [Member.decode?, tagged, w.survives.reads isRecord]
    | accessors a =>
      obtain ⟨rest, tagged, isRecord⟩ := writes.tagged? Member.variants false (by decide)
        (by simp [Accessors.members])
      simp [Member.decode?, tagged, a.survives.reads isRecord]
    | method m =>
      obtain ⟨rest, tagged, isRecord⟩ := writes.tagged? Member.variants false (by decide)
        (by simp [Method.members])
      simp [Member.decode?, tagged, m.survives.reads isRecord]

theorem survives_members (ms : List Member) :
    Survives (fun ms => .arr (ms.map Member.encode)) (list? Member.decode?) ms :=
  survives_list fun m _ => m.survives

theorem Render.survives (r : Render) : Survives Render.encode Render.decode? r where
  tidy := by simp [Render.encode, (survives_body false _).tidy]
  reads writes := by
    obtain ⟨docs, found, each⟩ := writes.fields? ["name", "body"] rfl (by simp)
    rcases each with _ | ⟨name, _ | ⟨body, _ | _⟩⟩
    simp [Render.decode?, found, orElse, (survives_string _).reads name,
      (survives_body false _).reads body]

theorem Component.survives (c : Component) : Survives Component.encode Component.decode? c where
  tidy := by
    simp [Component.encode, (survives_members _).items,
      (Render.survives _).tidy, (Location.survives _).tidy]
  reads writes := by
    obtain ⟨docs, found, each⟩ := writes.fields?
      ["name", "isEntry", "members", "render", "location"] rfl (by simp)
    rcases each with
      _ | ⟨name, _ | ⟨isEntry, _ | ⟨members, _ | ⟨render, _ | ⟨location, _ | _⟩⟩⟩⟩⟩
    simp [Component.decode?, found, required, orElse, (survives_string _).reads name,
      (survives_bool _).reads isEntry, (survives_members _).reads members,
      (Render.survives _).reads render, (Location.survives _).reads location]

theorem survives_components (cs : List Component) :
    Survives (fun cs => .arr (cs.map Component.encode)) (list? Component.decode?) cs :=
  survives_list fun c _ => c.survives

theorem Module.survives (m : Module) : Survives Module.encode Module.decode? m where
  tidy := by simp [Module.encode, (survives_components _).items]
  reads writes := by
    obtain ⟨docs, found, each⟩ := writes.fields? ["filePath", "components"] rfl (by simp)
    rcases each with _ | ⟨filePath, _ | ⟨components, _ | _⟩⟩
    simp [Module.decode?, found, required, orElse, (survives_string _).reads filePath,
      (survives_components _).reads components]

/-! ## Options and lowered components -/

theorem Options.survives (o : Options) : Survives Options.encode Options.decode? o where
  tidy := by simp [Options.encode]
  reads writes := by
    obtain ⟨docs, found, each⟩ := writes.fields?
      ["filePath", "partialUpdateMode", "parallel"] rfl (by simp)
    rcases each with _ | ⟨filePath, _ | ⟨partialMode, _ | ⟨parallel, _ | _⟩⟩⟩
    simp [Options.decode?, found, orElse, (survives_string _).reads filePath,
      (survives_bool _).reads partialMode, (survives_bool _).reads parallel]

theorem survives_numbers (ns : List UInt32) :
    Survives (fun ns => .arr (ns.map ofUInt32)) (list? uint32?) ns :=
  survives_list fun n _ => survives_uint32 n

theorem BranchSite.survives (s : BranchSite) : Survives BranchSite.encode BranchSite.decode? s where
  tidy := by
    simp [BranchSite.encode, (survives_uint32 _).tidy,
      (survives_numbers _).items, (Location.survives _).tidy]
  reads writes := by
    obtain ⟨docs, found, each⟩ := writes.fields?
      ["site", "method", "branchIds", "location"] rfl (by simp)
    rcases each with _ | ⟨site, _ | ⟨method, _ | ⟨branchIds, _ | ⟨location, _ | _⟩⟩⟩⟩
    simp [BranchSite.decode?, found, required, (survives_uint32 _).reads site,
      (survives_string _).reads method, (survives_numbers _).reads branchIds,
      (Location.survives _).reads location]

theorem survives_sites (ss : List BranchSite) :
    Survives (fun ss => .arr (ss.map BranchSite.encode)) (list? BranchSite.decode?) ss :=
  survives_list fun s _ => s.survives

theorem BranchRegistry.survives (r : BranchRegistry) :
    Survives BranchRegistry.encode BranchRegistry.decode? r where
  tidy := by simp [BranchRegistry.encode, (survives_sites _).items]
  reads writes := by
    obtain ⟨docs, found, each⟩ := writes.fields? ["sites"] rfl (by simp)
    rcases each with _ | ⟨sites, _ | _⟩
    simp [BranchRegistry.decode?, found, required, (survives_sites _).reads sites]

theorem LoweredComponent.survives (c : LoweredComponent) :
    Survives LoweredComponent.encode LoweredComponent.decode? c where
  tidy := by
    simp [LoweredComponent.encode, (Component.survives _).tidy,
      (BranchRegistry.survives _).tidy, (survives_strings _).tidy]
  reads writes := by
    obtain ⟨docs, found, each⟩ := writes.fields? ["decl", "branchRegistry", "provided"] rfl (by simp)
    rcases each with _ | ⟨decl, _ | ⟨registry, _ | ⟨provided, _ | _⟩⟩⟩
    simp [LoweredComponent.decode?, found, required, (Component.survives _).reads decl,
      (BranchRegistry.survives _).reads registry, (survives_strings _).reads provided]

/-! ## Nothing is lost -/

/-- What is encoded is decoded again: from the document as it is written, from its value, whose
    members are sorted by key, and from a document with the members in any other order. -/
structure Json.Lossless {α : Type} (encode : α → Json) (decode? : Doc → Option α) : Prop where
  asWritten : ∀ a, decode? (encode a).toDoc = some a
  sorted : ∀ a, ∃ v, (encode a).toDoc.toJson? = some v ∧ decode? v.toDoc = some a
  reordered : ∀ a d, Writes (encode a) d → decode? d = some a

theorem Json.lossless {α : Type} {encode : α → Json} {decode? : Doc → Option α}
    (each : ∀ a, Survives encode decode? a) : Lossless encode decode? where
  asWritten a := (each a).reads (Doc.writes_toDoc _)
  sorted a := by
    obtain ⟨v, value, writes⟩ := IsTidy.toJson?_toDoc _ (each a).tidy
    exact ⟨v, value, (each a).reads writes⟩
  reordered a _ := (each a).reads

/-- Modules, options and lowered components are decoded from what they are encoded as. -/
theorem codec_isLossless :
    Json.Lossless Module.encode Module.decode? ∧
    Json.Lossless Options.encode Options.decode? ∧
    Json.Lossless LoweredComponent.encode LoweredComponent.decode? :=
  ⟨Json.lossless Module.survives, Json.lossless Options.survives,
    Json.lossless LoweredComponent.survives⟩

end ReactiveView
