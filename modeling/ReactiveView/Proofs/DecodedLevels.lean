import ReactiveView.Lowering.Codec
import ReactiveView.Proofs.WrittenValues

/-!
# Levels that declarations take

Reading is more liberal than writing, so a document may have fewer levels than the encoding of what
is decoded from it: lists may be left out where they are empty.  `Stmt.span` is the number of levels
that a document for a statement needs, and `Module.under_le_height` bounds the bodies of a module by
the height of its document.
-/

namespace ReactiveView

open List
open Json (Doc)
open Json.Doc (fields? required orElse list? tagged?)

/-! ## Levels of statements -/

/-- `n` levels under `k` others, where no level needs no other. -/
def under (k n : Nat) : Nat := if n = 0 then 0 else k + n

variable {h : Nat} {f : Option Doc} {d : Doc} {m : Method} {c : Component}

theorem under_le {k n : Nat} : under k n ≤ h ↔ n = 0 ∨ k + n ≤ h := by
  unfold under
  split <;> omega

mutual

/-- The levels of containers in a document for a statement, if all that can be is left out. -/
def Stmt.span : Stmt → Nat
  | .element head children =>
    max (if head.args = [] then 1 else 3) (under 2 (Stmt.spanAll children))
  | .choice arms _ => max 1 (under 2 (Stmt.spanArms arms))
  | .forEach _ body => max 1 (under 2 (Stmt.spanAll body))
  | .code _ _ => 1
  | .opening _ => 2
  | .closing _ => 1
  | .branch _ arms _ => max 1 (under 2 (Stmt.spanBranchArms arms))
  | .items _ _ body => max 1 (under 2 (Stmt.spanAll body))

/-- The levels of the deepest statement. -/
def Stmt.spanAll : List Stmt → Nat
  | [] => 0
  | s :: rest => max s.span (Stmt.spanAll rest)

/-- The levels of the deepest arm of a conditional. -/
def Stmt.spanArms : List (Arm Stmt) → Nat
  | [] => 0
  | ⟨_, body⟩ :: rest => max (max 1 (under 2 (Stmt.spanAll body))) (Stmt.spanArms rest)

/-- The levels of the deepest arm of a lowered conditional. -/
def Stmt.spanBranchArms : List (BranchArm Stmt) → Nat
  | [] => 0
  | ⟨_, _, body⟩ :: rest => max (max 1 (under 2 (Stmt.spanAll body))) (Stmt.spanBranchArms rest)

end

/-! ## Levels of documents -/

namespace Json.Doc

variable {d : Doc}

theorem height_le_of_mem_items {docs : List Doc} (member : d ∈ docs) :
    d.height ≤ itemsHeight docs :=
  (deepest_le_iff rfl fun _ _ => rfl).mp (Nat.le_refl _) d member

theorem height_le_of_mem_members {entry : Option String × Doc} {docs : List (Option String × Doc)}
    (member : entry ∈ docs) : entry.2.height ≤ membersHeight docs := by
  have each : ∀ e ∈ docs, e.2.height ≤ membersHeight docs :=
    (deepest_le_iff rfl fun _ _ => rfl).mp (Nat.le_refl _)
  exact each entry member

theorem mem_of_lookup? {key : String} {docs : List (Option String × Doc)}
    (found : lookup? key docs = some (some d)) : (some key, d) ∈ docs := by
  unfold lookup? at found
  split at found
  next => cases found
  next same =>
    cases found
    have member := mem_filter.mp (same ▸ mem_singleton_self _)
    rw [← of_decide_eq_true member.2]
    exact member.1
  next => cases found

theorem exists_of_mem_mapM {α β : Type} {f : α → Option β} {as : List α} {bs : List β} {b : β}
    (all : as.mapM f = some bs) (member : b ∈ bs) : ∃ a ∈ as, f a = some b := by
  induction as generalizing bs with
  | nil =>
    cases all
    cases member
  | cons a as ih =>
    rw [mapM_cons] at all
    obtain ⟨c, first, rest⟩ := Option.bind_eq_some_iff.mp all
    obtain ⟨cs, others, same⟩ := Option.bind_eq_some_iff.mp rest
    cases same
    rcases mem_cons.mp member with rfl | later
    · exact ⟨a, mem_cons_self, first⟩
    · obtain ⟨a', isItem, read⟩ := ih others later
      exact ⟨a', .tail _ isItem, read⟩

/-- A record is a container, and its fields stand inside it. -/
theorem height_of_fields? {names : List String} {fields : List (Option Doc)}
    (found : fields? names d = some fields) :
    0 < d.height ∧ ∀ f, some f ∈ fields → f.height < d.height := by
  cases d with
  | obj docs =>
    rw [height, Nat.add_comm]
    refine ⟨Nat.succ_pos _, fun f member => Nat.lt_succ_of_le ?_⟩
    rw [fields?] at found
    split at found
    · obtain ⟨name, _, looked⟩ := exists_of_mem_mapM found member
      exact height_le_of_mem_members (mem_of_lookup? looked)
    · cases found
  | arr docs =>
    rw [height, Nat.add_comm]
    refine ⟨Nat.succ_pos _, fun f member => Nat.lt_succ_of_le ?_⟩
    rw [fields?] at found
    split at found
    · cases found
      rcases mem_append.mp member with isItem | missing
      · obtain ⟨e, inside, same⟩ := mem_map.mp isItem
        exact Option.some.inj same ▸ height_le_of_mem_items inside
      · cases (mem_replicate.mp missing).2
    · cases found
  | _ => cases found

/-- What is read from a record is read from its fields. -/
theorem exists_fields {α : Type} {names : List String} {value? : List (Option Doc) → Option α}
    {a : α} (read : (fields? names d).bind value? = some a) :
    ∃ fields, value? fields = some a ∧
      0 < d.height ∧ ∀ f, some f ∈ fields → f.height < d.height := by
  obtain ⟨fields, found, values⟩ := Option.bind_eq_some_iff.mp read
  exact ⟨fields, values, height_of_fields? found⟩

theorem membersHeight_filter_le (p : Option String × Doc → Bool)
    (docs : List (Option String × Doc)) :
    membersHeight (docs.filter p) ≤ membersHeight docs := by
  induction docs with
  | nil => simp
  | cons entry docs ih =>
    rw [filter_cons]
    split <;> simp only [membersHeight] <;> omega

/-- A tagged record has a value, and is no lower without its tag. -/
theorem height_of_tagged? {tag variant : String} {variants : List String} {nested : Bool}
    {rest : Doc} (found : tagged? tag variants nested d = some (variant, rest)) :
    (∃ w, d.toJson? = some w) ∧ 0 < rest.height ∧ rest.height ≤ d.height := by
  obtain ⟨w, value, found⟩ := Option.bind_eq_some_iff.mp found
  refine ⟨⟨w, value⟩, ?_⟩
  split at found
  next =>
    simp only [bind, pure, Option.bind_eq_some_iff, Option.some.injEq, Prod.mk.injEq] at found
    obtain ⟨_, _, _, _, _, _, _, rfl⟩ := found
    rw [height, height]
    exact ⟨by omega, Nat.add_le_add_left (membersHeight_filter_le _ _) 1⟩
  next =>
    simp only [bind, pure, Option.bind_eq_some_iff, Option.some.injEq, Prod.mk.injEq] at found
    obtain ⟨_, _, _, rfl⟩ := found
    rw [height, height, itemsHeight]
    omega
  next => cases found

theorem exists_of_mem_list? {α : Type} {item? : Doc → Option α} {as : List α} {a : α}
    (read : list? item? d = some as) (member : a ∈ as) :
    ∃ e, item? e = some a ∧ e.height < d.height := by
  cases d with
  | arr docs =>
    obtain ⟨e, inside, value⟩ := exists_of_mem_mapM read member
    have := height_le_of_mem_items inside
    exact ⟨e, value, by rw [height]; omega⟩
  | _ => cases read

end Json.Doc

open Json.Doc (exists_fields height_of_tagged? exists_of_mem_list?)

/-! ## Lists in documents -/

section

variable {α : Type} {item? : Doc → Option α} {levels : α → Nat} {as : List α} {n : Nat}
  (below : ∀ a d, item? d = some a → levels a ≤ d.height)
  (deepest : ∀ h, (∀ a ∈ as, levels a ≤ h) → n ≤ h)

include below deepest

theorem under_le_of_list? {d : Doc} (read : list? item? d = some as) : under 1 n ≤ d.height := by
  have each : ∀ a ∈ as, levels a < d.height := by
    intro a member
    obtain ⟨e, value, inside⟩ := exists_of_mem_list? read member
    exact Nat.lt_of_le_of_lt (below a e value) inside
  rw [under_le]
  cases as with
  | nil =>
    have := deepest 0 fun a member => absurd member not_mem_nil
    omega
  | cons a rest =>
    have first := each a mem_cons_self
    have all := deepest (d.height - 1) fun a member => Nat.le_sub_one_of_lt (each a member)
    omega

/-- A list in a field of a record.  An empty list may be left out. -/
theorem under_le_of_field {fields : List (Option Doc)} {f : Option Doc} {h : Nat}
    (read : orElse [] (list? item?) f = some as) (inside : ∀ d, some d ∈ fields → d.height < h)
    (isField : f ∈ fields) : under 2 n ≤ h := by
  rw [under_le]
  cases f with
  | none =>
    cases read
    have := deepest 0 fun a member => absurd member not_mem_nil
    omega
  | some d =>
    have list := under_le_of_list? below deepest read
    have lower := inside d isField
    rw [under_le] at list
    omega

end

theorem orElse_of_required {α : Type} {value? : Doc → Option α} {default a : α}
    (read : required value? f = some a) : orElse default value? f = some a := by
  cases f with
  | none => cases read
  | some d => exact read

/-! ## Decoded statements -/

theorem Stmt.spanAll_le {body : List Stmt} (each : ∀ s ∈ body, s.span ≤ h) :
    Stmt.spanAll body ≤ h :=
  (Json.deepest_le_iff rfl fun _ _ => rfl).mpr each

theorem Stmt.spanArms_le {arms : List (Arm Stmt)}
    (each : ∀ a ∈ arms, max 1 (under 2 (Stmt.spanAll a.body)) ≤ h) : Stmt.spanArms arms ≤ h :=
  (Json.deepest_le_iff rfl fun _ _ => rfl).mpr each

theorem Stmt.spanBranchArms_le {arms : List (BranchArm Stmt)}
    (each : ∀ a ∈ arms, max 1 (under 2 (Stmt.spanAll a.body)) ≤ h) : Stmt.spanBranchArms arms ≤ h :=
  (Json.deepest_le_iff rfl fun _ _ => rfl).mpr each

theorem Argument.height_pos {a : Argument} (read : Argument.decode? d = some a) : 1 ≤ d.height := by
  obtain ⟨_, _, record, _⟩ := exists_fields read
  exact record

theorem Argument.three_le_height {args : List Argument} {fields : List (Option Doc)}
    (read : orElse [] (list? Argument.decode?) f = some args)
    (inside : ∀ d, some d ∈ fields → d.height < h) (isField : f ∈ fields) : args = [] ∨ 3 ≤ h := by
  have levels : under 2 (min 1 args.length) ≤ h :=
    under_le_of_field (fun _ _ => Argument.height_pos) (fun k each => by
      cases args with
      | nil => exact Nat.zero_le k
      | cons a rest => exact Nat.le_trans (Nat.min_le_left ..) (each a mem_cons_self))
      read inside isField
  rw [under_le] at levels
  cases args with
  | nil => exact .inl rfl
  | cons a rest =>
    rw [length_cons] at levels
    omega

theorem OpenMarker.two_le_height {m : OpenMarker} (read : OpenMarker.decode? d = some m) :
    2 ≤ d.height := by
  obtain ⟨_, values, record, inside⟩ := exists_fields read
  split at values
  next role _ =>
    simp only [bind, Option.bind_eq_some_iff] at values
    obtain ⟨_, _, _, _, _, _, _, opens, _⟩ := values
    cases role with
    | none => cases opens
    | some e =>
      obtain ⟨_, tagged, _⟩ := Option.bind_eq_some_iff.mp opens
      obtain ⟨_, record, lower⟩ := height_of_tagged? tagged
      have := inside e (by simp)
      omega
  next => cases values

section

variable {stmt? : Doc → Option Stmt} (below : ∀ s d, stmt? d = some s → s.span ≤ d.height) {d : Doc}

include below

theorem Arm.span_le {a : Arm Stmt} (read : Arm.decode? stmt? d = some a) :
    max 1 (under 2 (Stmt.spanAll a.body)) ≤ d.height := by
  obtain ⟨_, values, record, inside⟩ := exists_fields read
  split at values
  next =>
    simp only [bind, pure, Option.bind_eq_some_iff, Option.some.injEq] at values
    obtain ⟨_, _, statements, body, rfl⟩ := values
    exact Nat.max_le.mpr ⟨record, under_le_of_field below (fun _ => Stmt.spanAll_le) body
      inside (by simp)⟩
  next => cases values

theorem BranchArm.span_le {a : BranchArm Stmt} (read : BranchArm.decode? stmt? d = some a) :
    max 1 (under 2 (Stmt.spanAll a.body)) ≤ d.height := by
  obtain ⟨_, values, record, inside⟩ := exists_fields read
  split at values
  next =>
    simp only [bind, pure, Option.bind_eq_some_iff, Option.some.injEq] at values
    obtain ⟨_, _, _, _, statements, body, rfl⟩ := values
    exact Nat.max_le.mpr ⟨record, under_le_of_field below (fun _ => Stmt.spanAll_le)
      (orElse_of_required body) inside (by simp)⟩
  next => cases values

/-- A statement without its tag. -/
theorem Stmt.span_le_of_decodeVariant? {variant : String} {s : Stmt} (record : 0 < d.height)
    (read : Stmt.decodeVariant? stmt? variant d = some s) : s.span ≤ d.height := by
  have arms : ∀ a e, Arm.decode? stmt? e = some a →
      max 1 (under 2 (Stmt.spanAll a.body)) ≤ e.height := fun _ _ => Arm.span_le below
  have known : ∀ a e, BranchArm.decode? stmt? e = some a →
      max 1 (under 2 (Stmt.spanAll a.body)) ≤ e.height := fun _ _ => BranchArm.span_le below
  unfold Stmt.decodeVariant? at read
  split at read
  · -- an element
    obtain ⟨_, values, _, inside⟩ := exists_fields read
    split at values
    next =>
      simp only [bind, pure, Option.bind_eq_some_iff, Option.some.injEq] at values
      obtain ⟨_, _, args, given, _, _, _, _, children, body, rfl⟩ := values
      have given := Argument.three_le_height given inside (by simp)
      rw [Stmt.span, Nat.max_le]
      refine ⟨?_, under_le_of_field below (fun _ => Stmt.spanAll_le) body inside (by simp)⟩
      split
      · exact record
      · exact given.resolve_left (by assumption)
    next => cases values
  · -- a conditional
    obtain ⟨_, values, _, inside⟩ := exists_fields read
    split at values
    next =>
      simp only [bind, pure, Option.bind_eq_some_iff, Option.some.injEq] at values
      obtain ⟨_, each, _, _, rfl⟩ := values
      exact Nat.max_le.mpr ⟨record, under_le_of_field arms (fun _ => Stmt.spanArms_le)
        (orElse_of_required each) inside (by simp)⟩
    next => cases values
  · -- a loop
    obtain ⟨_, values, _, inside⟩ := exists_fields read
    split at values
    next =>
      simp only [bind, pure, Option.bind_eq_some_iff, Option.some.injEq] at values
      obtain ⟨_, _, _, _, _, _, _, _, _, _, _, body, rfl⟩ := values
      exact Nat.max_le.mpr ⟨record, under_le_of_field below (fun _ => Stmt.spanAll_le) body
        inside (by simp)⟩
    next => cases values
  · -- code
    obtain ⟨fields, found, values⟩ := Option.bind_eq_some_iff.mp read
    split at values
    next =>
      simp only [bind, pure, Option.bind_eq_some_iff, Option.some.injEq] at values
      obtain ⟨_, _, _, _, rfl⟩ := values
      exact record
    next => cases values
  · -- the start of a node
    obtain ⟨marker, opens, same⟩ := Option.bind_eq_some_iff.mp read
    cases same
    exact OpenMarker.two_le_height opens
  · -- the end of a node
    obtain ⟨marker, _, same⟩ := Option.bind_eq_some_iff.mp read
    cases same
    exact record
  · -- a lowered conditional
    obtain ⟨_, values, _, inside⟩ := exists_fields read
    split at values
    next =>
      simp only [bind, pure, Option.bind_eq_some_iff, Option.some.injEq] at values
      obtain ⟨_, _, _, each, _, _, rfl⟩ := values
      exact Nat.max_le.mpr ⟨record, under_le_of_field known (fun _ => Stmt.spanBranchArms_le)
        (orElse_of_required each) inside (by simp)⟩
    next => cases values
  · -- the items of a loop
    obtain ⟨_, values, _, inside⟩ := exists_fields read
    split at values
    next =>
      simp only [bind, pure, Option.bind_eq_some_iff, Option.some.injEq] at values
      obtain ⟨_, _, _, _, _, body, rfl⟩ := values
      exact Nat.max_le.mpr ⟨record, under_le_of_field below (fun _ => Stmt.spanAll_le)
        (orElse_of_required body) inside (by simp)⟩
    next => cases values
  · cases read

end

theorem Stmt.span_le_of_decodeUpTo? {levels : Nat} {nested : Bool} {s : Stmt}
    (read : Stmt.decodeUpTo? levels nested d = some s) : s.span ≤ d.height := by
  induction levels generalizing nested s d with
  | zero => cases read
  | succ levels ih =>
    obtain ⟨⟨variant, rest⟩, tagged, inner⟩ := Option.bind_eq_some_iff.mp read
    obtain ⟨_, record, lower⟩ := height_of_tagged? tagged
    exact Nat.le_trans (Stmt.span_le_of_decodeVariant? (fun _ _ => ih) record inner) lower

/-! ## Decoded modules -/

theorem under_spanAll_le {nested : Bool} {body : List Stmt} {fields : List (Option Doc)}
    (read : orElse [] (list? (Stmt.decode? nested)) f = some body) :
    (∀ d, some d ∈ fields → d.height < h) → f ∈ fields → under 2 (Stmt.spanAll body) ≤ h :=
  under_le_of_field (fun _ _ => Stmt.span_le_of_decodeUpTo?) (fun _ => Stmt.spanAll_le) read

theorem Method.under_le_height (read : Method.decode? d = some m) :
    under 2 (Stmt.spanAll m.body) ≤ d.height := by
  obtain ⟨_, values, _, inside⟩ := exists_fields read
  split at values
  next =>
    simp only [bind, pure, Option.bind_eq_some_iff, Option.some.injEq] at values
    obtain ⟨_, _, _, _, _, _, _, body, _, _, rfl⟩ := values
    exact under_spanAll_le body inside (by simp)
  next => cases values

theorem Member.under_le_height (read : Member.decode? d = some (.method m)) :
    under 2 (Stmt.spanAll m.body) ≤ d.height := by
  obtain ⟨⟨variant, rest⟩, tagged, values⟩ := Option.bind_eq_some_iff.mp read
  obtain ⟨_, _, lower⟩ := height_of_tagged? tagged
  split at values
  case h_4 tag =>
    cases tag
    obtain ⟨_, method, same⟩ := Option.bind_eq_some_iff.mp values
    cases same
    exact Nat.le_trans (Method.under_le_height method) lower
  all_goals simp [Option.bind_eq_some_iff] at values

theorem Render.under_le_height {r : Render} (read : Render.decode? d = some r) :
    under 2 (Stmt.spanAll r.body) ≤ d.height := by
  obtain ⟨_, values, _, inside⟩ := exists_fields read
  split at values
  next =>
    simp only [bind, pure, Option.bind_eq_some_iff, Option.some.injEq] at values
    obtain ⟨_, _, _, body, rfl⟩ := values
    exact under_spanAll_le body inside (by simp)
  next => cases values

theorem Component.under_le_height (read : Component.decode? d = some c) :
    under 3 (Stmt.spanAll c.render.body) ≤ d.height ∧
      ∀ m, Member.method m ∈ c.members → under 4 (Stmt.spanAll m.body) ≤ d.height := by
  obtain ⟨_, values, _, inside⟩ := exists_fields read
  split at values
  next _ _ members render _ =>
    simp only [bind, pure, Option.bind_eq_some_iff, Option.some.injEq] at values
    obtain ⟨_, _, _, _, _, each, r, rendered, _, _, rfl⟩ := values
    constructor
    · cases render with
      | none => cases rendered
      | some e =>
        have body := Render.under_le_height rendered
        have lower := inside e (by simp)
        show under 3 (Stmt.spanAll r.body) ≤ d.height
        rw [under_le] at body ⊢
        omega
    · intro m member
      cases members with
      | none =>
        cases each
        cases member
      | some e =>
        obtain ⟨e', decoded, within⟩ := exists_of_mem_list? each member
        have body := Member.under_le_height decoded
        have lower := inside e (by simp)
        rw [under_le] at body ⊢
        omega
  next => cases values

theorem Component.mem_members_of_mem_methods (member : m ∈ c.methods) :
    Member.method m ∈ c.members := by
  obtain ⟨source, isMember, isMethod⟩ := mem_filterMap.mp member
  split at isMethod
  next =>
    cases isMethod
    exact isMember
  next => cases isMethod

/-- The bodies of a module stand in its document, inside five levels or, in methods, six. -/
theorem Module.under_le_height {m : Module} (read : Module.decode? d = some m)
    (member : c ∈ m.components) :
    under 5 (Stmt.spanAll c.render.body) ≤ d.height ∧
      ∀ m ∈ c.methods, under 6 (Stmt.spanAll m.body) ≤ d.height := by
  obtain ⟨_, values, _, inside⟩ := exists_fields read
  split at values
  next _ components =>
    simp only [bind, pure, Option.bind_eq_some_iff, Option.some.injEq] at values
    obtain ⟨_, _, _, each, rfl⟩ := values
    cases components with
    | none => cases each
    | some e =>
      obtain ⟨e', decoded, within⟩ := exists_of_mem_list? each member
      obtain ⟨render, methods⟩ := Component.under_le_height decoded
      have lower := inside e (by simp)
      refine ⟨?_, fun m isMethod => ?_⟩
      · rw [under_le] at render ⊢
        omega
      · have body := methods m (Component.mem_members_of_mem_methods isMethod)
        rw [under_le] at body ⊢
        omega
  next => cases values

end ReactiveView
