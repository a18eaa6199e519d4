import ReactiveView.Proofs.MarkerAddresses

/-!
# Order of keys

Keys are compared as texts, so `/10:Row` comes before `/2:Row`, and the keys of a block come before
those of its loops, which come before those of its conditionals.  The markers that are met have
ascending keys if in every block the children stand first, then one loop, then conditionals with
ascending sites, and if positions, numbers of items and sites have one digit.
-/

namespace ReactiveView

open List

/-! ## Comparing keys -/

/-- The place of an address in its block. -/
inductive Slot where
  | marker (index : Nat)
  | loop
  | conditional (site : UInt32)

/-- Whether the keys for a slot come before those for another one, for numbers with one digit. -/
def Slot.isBefore : Slot → Slot → Bool
  | .marker i, .marker j => i < j && j < 10
  | .marker _, .loop | .marker _, .conditional _ | .loop, .conditional _ => true
  | .conditional site, .conditional site' => site.toNat < site'.toNat && site'.toNat < 10
  | .loop, .marker _ | .loop, .loop | .conditional _, .marker _ | .conditional _, .loop => false

/-- The slot of an arm or an item. -/
def Turn.slot : Turn → Slot
  | .item _ => .loop
  | .arm site _ => .conditional site

/-- The slot of an address. -/
def Address.slot (a : Address) : Slot :=
  match a.turns with
  | [] => .marker a.index
  | turn :: _ => turn.slot

/-- What the keys below a path begin with. -/
def stem (path : List String) : List Char := path.flatMap (·.toList ++ ['/'])

theorem intercalate_append_slash (path : List String) (part : String) (rest : List String) :
    ['/'].intercalate ((path ++ part :: rest).map String.toList) =
      stem path ++ ['/'].intercalate ((part :: rest).map String.toList) := by
  induction path with
  | nil => rfl
  | cons first path ih =>
    have next : ['/'].intercalate ((first :: (path ++ part :: rest)).map String.toList) =
        first.toList ++ ['/'] ++ ['/'].intercalate ((path ++ part :: rest).map String.toList) := by
      cases path <;> simp [intercalate_cons_cons]
    rw [cons_append, next, ih]
    simp [stem]

theorem Address.keyBelow_nil (path : List String) (index : Nat) (component : String) :
    keyBelow path ⟨[], index, component⟩ = childKey path index component := by
  simp [keyBelow]

theorem toList_childKey (path : List String) (index : Nat) (component : String) :
    (childKey path index component).toList = ['/'].intercalate (path.map String.toList) ++
      '/' :: (Nat.toDigits 10 index ++ ':' :: component.toList) := by
  simp [childKey, toString, Nat.toList_repr, String.toList_intercalate]

/-- The key of a marker of a block: in the body of a view it begins with a slash. -/
theorem toList_childKey_eq_stem (path : List String) (index : Nat) (component : String) :
    (childKey path index component).toList = stem path ++
      ((if path = [] then ['/'] else []) ++ (Nat.toDigits 10 index ++ ':' :: component.toList)) := by
  rw [toList_childKey]
  cases path.eq_nil_or_concat with
  | inl root => simp [root, stem]
  | inr below =>
    obtain ⟨before, part, rfl⟩ := below
    rw [concat_eq_append, intercalate_append_slash]
    simp [stem]

/-- The key of a marker in an arm or item of a block. -/
theorem exists_toList_inside (path : List String) (turn : Turn) (a : Address) :
    ∃ rest, ((a.inside turn).keyBelow path).toList =
      stem path ++ (turn.text.toList ++ '/' :: rest) := by
  have path_eq : path ++ [turn.text] ++ a.turns.map Turn.text =
      path ++ turn.text :: a.turns.map Turn.text := by simp
  rw [Address.keyBelow_inside, Address.keyBelow, toList_childKey, path_eq, intercalate_append_slash]
  generalize Nat.toDigits 10 a.index ++ ':' :: a.component.toList = after
  cases a.turns with
  | nil => exact ⟨after, by simp⟩
  | cons next turns =>
    exact ⟨['/'].intercalate ((next :: turns).map (·.text.toList)) ++ '/' :: after,
      by simp [intercalate_cons_cons, Function.comp_def]⟩

theorem toDigits_of_lt_ten {n : Nat} (small : n < 10) : Nat.toDigits 10 n = [Nat.digitChar n] :=
  Nat.toDigits_of_lt_base small

theorem digitChar_lt {i j : Nat} (less : i < j) (small : j < 10) :
    Nat.digitChar i < Nat.digitChar j := by
  have table : ∀ j : Fin 10, ∀ i : Fin 10, i < j → Nat.digitChar i < Nat.digitChar j := by decide
  exact table ⟨j, small⟩ ⟨i, by omega⟩ less

theorem lt_of_isDigit {c d : Char} (isDigit : c.isDigit = true) (above : '9' < d) : c < d := by
  simp only [Char.isDigit, Bool.and_eq_true, decide_eq_true_eq] at isDigit
  exact Std.lt_of_le_of_lt isDigit.2 above

/-- What comes after the stem of a key begins with a slash or a digit for a marker of the block, and with
    a letter for a marker in an arm or item. -/
theorem marker_lt_turn (path : List String) (index : Nat) (after : List Char) (turn : Turn)
    (rest : List Char) :
    (if path = [] then ['/'] else []) ++ (Nat.toDigits 10 index ++ after) <
      turn.text.toList ++ rest := by
  have letter : ∃ c tail, turn.text.toList = c :: tail ∧ '9' < c := by
    cases turn with
    | arm site branch => exact ⟨_, _, Turn.toList_text_arm site branch, by decide⟩
    | item index => exact ⟨_, _, Turn.toList_text_item index, by decide⟩
  obtain ⟨c, tail, text, above⟩ := letter
  obtain ⟨d, digits, isDigits⟩ := exists_cons_of_ne_nil (@Nat.toDigits_ne_nil index 10)
  have isDigit : d.isDigit = true :=
    Nat.isDigit_of_mem_toDigits (by decide) (by decide) (isDigits ▸ mem_cons_self)
  have slash : '/' < c := Char.lt_trans (by decide) above
  rw [text, isDigits]
  by_cases root : path = []
  · simp [root, cons_lt_cons_iff, slash]
  · simp [root, cons_lt_cons_iff, lt_of_isDigit isDigit above]

/-- Items with one digit are in order. -/
theorem Address.keyBelow_item_lt (path : List String) {i j : Nat} (less : i < j) (small : j < 10)
    (a a' : Address) : (a.inside (.item i)).keyBelow path < (a'.inside (.item j)).keyBelow path := by
  obtain ⟨rest, key⟩ := exists_toList_inside path (.item i) a
  obtain ⟨rest', key'⟩ := exists_toList_inside path (.item j) a'
  rw [String.lt_iff, key, key']
  apply append_left_lt
  rw [Turn.toList_text_item, Turn.toList_text_item, toDigits_of_lt_ten small,
    toDigits_of_lt_ten (Nat.lt_trans less small)]
  simp [cons_lt_cons_iff, digitChar_lt less small]

/-- An item comes before an arm, and arms of sites with one digit are in order. -/
theorem Turn.text_lt {turn turn' : Turn} (before : turn.slot.isBefore turn'.slot = true)
    (rest rest' : List Char) : turn.text.toList ++ rest < turn'.text.toList ++ rest' := by
  cases turn with
  | item i =>
    cases turn' with
    | item j => cases before
    | arm site' branch' => simp [toList_text_item, toList_text_arm, cons_lt_cons_iff]
  | arm site branch =>
    cases turn' with
    | item j => cases before
    | arm site' branch' =>
      simp only [Turn.slot, Slot.isBefore, Bool.and_eq_true, decide_eq_true_eq] at before
      rw [toList_text_arm, toList_text_arm, toDigits_of_lt_ten before.2,
        toDigits_of_lt_ten (Nat.lt_trans before.1 before.2)]
      simp [cons_lt_cons_iff, digitChar_lt before.1 before.2]

/-- Keys of one block are in the order of their slots. -/
theorem Address.keyBelow_lt {path : List String} {a a' : Address}
    (before : a.slot.isBefore a'.slot = true) : a.keyBelow path < a'.keyBelow path := by
  obtain ⟨turns, index, component⟩ := a
  obtain ⟨turns', index', component'⟩ := a'
  rw [String.lt_iff]
  -- After the common stem, keys differ in the first character or in the one digit behind it.
  cases turns with
  | nil =>
    rw [keyBelow_nil, toList_childKey_eq_stem]
    cases turns' with
    | nil =>
      simp only [slot, Slot.isBefore, Bool.and_eq_true, decide_eq_true_eq] at before
      rw [keyBelow_nil, toList_childKey_eq_stem, toDigits_of_lt_ten before.2,
        toDigits_of_lt_ten (Nat.lt_trans before.1 before.2)]
      apply append_left_lt
      apply append_left_lt
      simp [cons_lt_cons_iff, digitChar_lt before.1 before.2]
    | cons turn' turns' =>
      obtain ⟨rest', key'⟩ := exists_toList_inside path turn' ⟨turns', index', component'⟩
      simp only [Address.inside] at key'
      rw [key']
      exact append_left_lt (marker_lt_turn path index _ turn' _)
  | cons turn turns =>
    obtain ⟨rest, key⟩ := exists_toList_inside path turn ⟨turns, index, component⟩
    cases turns' with
    | nil => cases turn <;> cases before
    | cons turn' turns' =>
      obtain ⟨rest', key'⟩ := exists_toList_inside path turn' ⟨turns', index', component'⟩
      simp only [Address.inside] at key key'
      rw [key, key']
      exact append_left_lt (Turn.text_lt before _ _)

/-! ## Bodies with ascending keys -/

namespace Stmt

/-- The slot of the markers of children in a statement, if it has any. -/
def slot? (index : Nat) (s : Stmt) : Option Slot :=
  if (s.addresses index).isEmpty then none
  else match s with
    | .opening _ => some (.marker index)
    | .items _ _ _ => some .loop
    | .branch site _ _ => some (.conditional site)
    | .element _ _ | .choice _ _ | .forEach _ _ | .code _ _ | .closing _ => none

/-- The slots of the statements of a block that have markers of children. -/
def slots (index : Nat) : List Stmt → List Slot
  | [] => []
  | s :: rest => (s.slot? index).toList ++ slots (index + 1) rest

mutual

/-- Whether the slots of the blocks in a statement are in order. -/
def inOrder : Stmt → Bool
  | .branch _ arms _ => inOrderBranches arms
  | .items _ _ body => inOrderAll 0 body
  | .element _ _ | .choice _ _ | .forEach _ _ | .code _ _ | .opening _ | .closing _ => true

/-- Whether the slots of a block are in order, and those of the blocks in it. -/
def inOrderAll (index : Nat) : List Stmt → Bool
  | [] => true
  | s :: rest =>
    s.inOrder && ((s.slot? index).all fun slot => (slots (index + 1) rest).all slot.isBefore) &&
      inOrderAll (index + 1) rest

/-- Whether the slots of the arms of a conditional are in order. -/
def inOrderBranches : List (BranchArm Stmt) → Bool
  | [] => true
  | ⟨_, _, body⟩ :: rest => inOrderAll 0 body && inOrderBranches rest

end

theorem inOrderAll_of_branches {arms : List (BranchArm Stmt)} {position : Nat}
    {arm : BranchArm Stmt} (chosen : arms[position]? = some arm)
    (ordered : inOrderBranches arms = true) : inOrderAll 0 arm.body = true := by
  induction arms generalizing position with
  | nil => cases chosen
  | cons head arms ih =>
    rw [inOrderBranches, Bool.and_eq_true] at ordered
    cases position with
    | zero =>
      cases chosen
      exact ordered.1
    | succ position => exact ih chosen ordered.2

end Stmt

/-- The markers that are met stand at places below a path whose keys ascend. -/
structure Ascending (path : List String) (visits : List RenderVisit) (places : List Address) :
    Prop where
  keys : (markers visits).map (·.key) = places.map (·.keyBelow path)
  ascending : places.Pairwise fun a a' => a.keyBelow path < a'.keyBelow path

namespace Ascending

variable {path : List String} {visits visits' : List RenderVisit} {places places' : List Address}

theorem nil (silent : markers visits = []) : Ascending path visits [] :=
  ⟨by rw [silent, map_nil, map_nil], .nil⟩

theorem append (first : Ascending path visits places) (second : Ascending path visits' places')
    (before : ∀ a ∈ places, ∀ a' ∈ places', a.keyBelow path < a'.keyBelow path) :
    Ascending path (visits ++ visits') (places ++ places') where
  keys := by rw [markers_append, map_append, first.keys, second.keys, map_append]
  ascending := pairwise_append.mpr ⟨first.ascending, second.ascending, before⟩

theorem inside (turn : Turn) (inner : Ascending (path ++ [turn.text]) visits places) :
    Ascending path visits (places.map (.inside turn)) where
  keys := by
    rw [inner.keys, map_map]
    exact map_congr_left fun a _ => (a.keyBelow_inside path turn).symm
  ascending := by
    rw [pairwise_map]
    simp only [Address.keyBelow_inside]
    exact inner.ascending

theorem unmarked {visit : RenderVisit} (ascending : Ascending path visits places)
    (silent : visit.marker? = none) : Ascending path (visit :: visits) places :=
  ⟨by rw [markers, filterMap_cons_none silent]; exact ascending.keys, ascending.ascending⟩

end Ascending

/-- No loop has more than ten items. -/
def FewItems (visits : List RenderVisit) : Prop :=
  ∀ count, Decision.items count ∈ decisions visits → count ≤ 10

theorem FewItems.of_append {visits visits' : List RenderVisit} (few : FewItems (visits ++ visits')) :
    FewItems visits ∧ FewItems visits' := by
  simp only [FewItems, decisions_append, mem_append] at few
  exact ⟨fun count member => few count (.inl member), fun count member => few count (.inr member)⟩

theorem FewItems.of_cons {visit : RenderVisit} {visits : List RenderVisit}
    (few : FewItems (visit :: visits)) : FewItems visits :=
  (@FewItems.of_append [visit] visits few).2

/-- Nothing is met in a statement without markers of children. -/
theorem CoversStmt.markers_eq_nil {path : List String} {index : Nat} {s : Stmt}
    {visits : List RenderVisit} (covers : CoversStmt path index s visits)
    (empty : s.addresses index = []) : markers visits = [] := by
  obtain ⟨places, placed⟩ := covers.placed (empty ▸ nodup_nil)
  have none : places = [] := by
    rw [eq_nil_iff_forall_not_mem]
    intro a member
    have among := placed.among a member
    rw [empty] at among
    cases among
  have keys := placed.keys
  rw [none, map_nil] at keys
  exact map_eq_nil_iff.mp keys

-- The places of a statement all have its slot, and those of a block have slots of its statements, so
-- that the order of slots carries over to the keys of different statements of a block.
mutual

theorem CoversStmt.ascending {path : List String} {index : Nat} {s : Stmt}
    {visits : List RenderVisit} : CoversStmt path index s visits → s.inOrder = true →
    FewItems visits → ∃ places, Ascending path visits places ∧
      ∀ a ∈ places, s.slot? index = some a.slot
  | .plain _, _, _ | .closing, _, _ | .code, _, _ | .none, _, _ => ⟨[], .nil rfl, nofun⟩
  | @CoversStmt.child _ _ marker _ _ role, _, _ => by
    refine ⟨[⟨[], index, marker.component⟩], ⟨?_, pairwise_singleton _ _⟩, ?_⟩
    · simp [markers, RenderVisit.marker?, MetMarker.key, Address.keyBelow]
    · simp [Stmt.slot?, Stmt.addresses, role, Address.slot]
  | @CoversStmt.arm _ _ site arms location _ arm _ chosen inner, ordered, few => by
    by_cases empty : (Stmt.branch site arms location).addresses index = []
    · exact ⟨[], .nil (CoversStmt.markers_eq_nil (.arm chosen inner) empty), nofun⟩
    · have fewer := few.of_cons
      obtain ⟨places, ascending, -⟩ :=
        inner.ascending (Stmt.inOrderAll_of_branches chosen ordered) fewer
      refine ⟨_, (Ascending.inside (.arm site arm.branchId) ascending).unmarked rfl, ?_⟩
      intro a member
      obtain ⟨b, -, rfl⟩ := mem_map.mp member
      rw [Stmt.slot?, if_neg (by simpa using empty)]
      rfl
  | @CoversStmt.items _ _ params keyGenerator body count _ each, ordered, few => by
    by_cases empty : (Stmt.items params keyGenerator body).addresses index = []
    · exact ⟨[], .nil (CoversStmt.markers_eq_nil (.items each) empty), nofun⟩
    · have fewer := few.of_cons
      have bound : count ≤ 10 := few count mem_cons_self
      obtain ⟨places, ascending, items⟩ := each.ascending ordered fewer (by omega)
      refine ⟨places, ascending.unmarked rfl, ?_⟩
      intro a member
      obtain ⟨n, b, -, -, rfl⟩ := items a member
      rw [Stmt.slot?, if_neg (by simpa using empty)]
      rfl

theorem Covers.ascending {path : List String} {index : Nat} {body : List Stmt}
    {visits : List RenderVisit} : Covers path index body visits →
    Stmt.inOrderAll index body = true → FewItems visits →
    ∃ places, Ascending path visits places ∧ ∀ a ∈ places, a.slot ∈ Stmt.slots index body
  | .nil, _, _ => ⟨[], .nil rfl, nofun⟩
  | .cons head tail, ordered, few => by
    simp only [Stmt.inOrderAll, Bool.and_eq_true] at ordered
    obtain ⟨⟨first, before⟩, others⟩ := ordered
    obtain ⟨fewFirst, fewOthers⟩ := few.of_append
    obtain ⟨places, ascending, here⟩ := head.ascending first fewFirst
    obtain ⟨places', ascending', later⟩ := tail.ascending others fewOthers
    refine ⟨places ++ places', ascending.append ascending' ?_, ?_⟩
    · intro a member a' member'
      rw [here a member, Option.all_some, all_eq_true] at before
      exact Address.keyBelow_lt (before _ (later a' member'))
    · intro a member
      rw [Stmt.slots, mem_append]
      cases mem_append.mp member with
      | inl isHere => exact .inl (by simp [here a isHere])
      | inr isLater => exact .inr (later a isLater)

theorem CoversItems.ascending {path : List String} {index count : Nat} {body : List Stmt}
    {visits : List RenderVisit} : CoversItems path body index count visits →
    Stmt.inOrderAll 0 body = true → FewItems visits → index + count ≤ 10 →
    ∃ places, Ascending path visits places ∧
      ∀ a ∈ places, ∃ n b, index ≤ n ∧ n < 10 ∧ a = Address.inside (.item n) b
  | .nil, _, _, _ => ⟨[], .nil rfl, nofun⟩
  | .cons head tail, ordered, few, bound => by
    obtain ⟨fewFirst, fewOthers⟩ := few.of_append
    obtain ⟨places, ascending, -⟩ := head.ascending ordered fewFirst
    obtain ⟨places', ascending', later⟩ := tail.ascending ordered fewOthers (by omega)
    refine ⟨_, (Ascending.inside (.item index) ascending).append ascending' ?_, ?_⟩
    · intro a member a' member'
      obtain ⟨b, -, rfl⟩ := mem_map.mp member
      obtain ⟨n, b', after, small, rfl⟩ := later a' member'
      exact Address.keyBelow_item_lt path after small b b'
    · intro a member
      cases mem_append.mp member with
      | inl isHere =>
        obtain ⟨b, -, rfl⟩ := mem_map.mp isHere
        exact ⟨index, b, Nat.le_refl _, by omega, rfl⟩
      | inr isLater =>
        obtain ⟨n, b, after, small, rfl⟩ := later a isLater
        exact ⟨n, b, by omega, small, rfl⟩

end

/-- The keys of the markers that are met in an execution of a body in order ascend. -/
theorem Covers.ascending_keys {body : List Stmt} {visits : List RenderVisit}
    (covers : Covers [] 0 body visits) (ordered : Stmt.inOrderAll 0 body = true)
    (few : FewItems visits) : ((markers visits).map (·.key)).Pairwise (· < ·) := by
  obtain ⟨places, ascending, -⟩ := covers.ascending ordered few
  rw [ascending.keys, pairwise_map]
  exact ascending.ascending

end ReactiveView
