import ReactiveView.Proofs.PrintedBodies

/-!
# What the bracketing check accepts

The check goes through a body once, with the open markers of one block at hand, and goes on after a
fault.  It accepts exactly the bodies without elements whose blocks are each bracketed: every marker
that is opened in a block is closed in it, after what was opened later.  The number that it gives is
the number of markers in all blocks.
-/

namespace ReactiveView

open List
open Printing (closeOf markerKey)

/-! ## Blocks -/

namespace Stmt

/-- Whether a statement is a marker. -/
def isMarker : Stmt → Bool
  | .opening _ | .closing _ => true
  | _ => false

/-- Whether a statement is an element. -/
def isElement : Stmt → Bool
  | .element _ _ => true
  | _ => false

mutual

/-- The blocks in a statement, at any depth. -/
def innerBlocks : Stmt → List (List Stmt)
  | .choice arms _ => innerBlocksArms arms
  | .forEach _ body => body :: innerBlocksAll body
  | .branch _ arms _ => innerBlocksBranches arms
  | .items _ _ body => body :: innerBlocksAll body
  | .element _ _ | .code _ _ | .opening _ | .closing _ => []

/-- The blocks in statements, at any depth. -/
def innerBlocksAll : List Stmt → List (List Stmt)
  | [] => []
  | s :: rest => s.innerBlocks ++ innerBlocksAll rest

/-- The bodies of the arms of a conditional, with the blocks in them. -/
def innerBlocksArms : List (Arm Stmt) → List (List Stmt)
  | [] => []
  | ⟨_, body⟩ :: rest => (body :: innerBlocksAll body) ++ innerBlocksArms rest

/-- The bodies of the arms of a lowered conditional, with the blocks in them. -/
def innerBlocksBranches : List (BranchArm Stmt) → List (List Stmt)
  | [] => []
  | ⟨_, _, body⟩ :: rest => (body :: innerBlocksAll body) ++ innerBlocksBranches rest

end

/-- The blocks of a body: the body itself and the blocks in it. -/
def linearBlocks (body : List Stmt) : List (List Stmt) := body :: innerBlocksAll body

/-- A block is well nested if every marker in it is closed by its own end, with a well nested block
    in between.  Statements other than markers may stand anywhere. -/
inductive WellNested : List Stmt → Prop
  | nil : WellNested []
  | plain {s : Stmt} {rest : List Stmt} (noMarker : s.isMarker = false)
      (after : WellNested rest) : WellNested (s :: rest)
  | node {m : OpenMarker} {inner rest : List Stmt} (within : WellNested inner)
      (after : WellNested rest) : WellNested (.opening m :: inner ++ .closing (closeOf m) :: rest)

end Stmt

/-! ## One block at a time -/

namespace Balance

/-- The open markers of a block after a statement that the check does not object to. -/
def after? (frame : Frame) : Stmt → Option Frame
  | .element _ _ => none
  | .opening m => some (markerKey m :: frame)
  | .closing m =>
    match frame with
    | [] => none
    | top :: rest => if top = (m.component, m.branchId) then some rest else none
  | .choice _ _ | .forEach _ _ | .code _ _ | .branch _ _ _ | .items _ _ _ => some frame

/-- The rest of a block closes what is open in it and what it opens itself. -/
def Closes (frame : Frame) (stmts : List Stmt) : Prop := stmts.foldlM after? frame = some []

@[simp] theorem after?_closeOf (m : OpenMarker) (frame : Frame) :
    after? (markerKey m :: frame) (.closing (closeOf m)) = some frame := by
  simp [after?, markerKey, closeOf]

theorem closes_cons {frame : Frame} {s : Stmt} {rest : List Stmt} :
    Closes frame (s :: rest) ↔ ∃ frame', after? frame s = some frame' ∧ Closes frame' rest := by
  simp [Closes, foldlM_cons, Option.bind_eq_some_iff]

@[simp] theorem markers_count (b : Balance) : b.count.markers = b.markers + 1 := rfl

@[simp] theorem markers_fail (b : Balance) (f : BalanceFault) : (b.fail f).markers = b.markers := rfl

@[simp] theorem faults_count (b : Balance) : b.count.faults = b.faults := rfl

@[simp] theorem faults_fail_ne (b : Balance) (f : BalanceFault) : (b.fail f).faults ≠ [] := by
  simp [fail]

theorem close_clear_iff (m : CloseMarker) (frame : Frame) (b : Balance) :
    (close m frame b).2.faults = [] ↔
      b.faults = [] ∧ after? frame (.closing m) = some (close m frame b).1 := by
  cases frame with
  | nil => simp [close, after?]
  | cons top rest =>
    obtain ⟨name, branchId⟩ := top
    by_cases same : name = m.component ∧ branchId = m.branchId
    · simp [close, after?, same]
    · simp [close, after?, same]

/-- The check goes on with the markers that a statement leaves open. -/
theorem fst_stmt_of_after? {frame frame' : Frame} {s : Stmt} (left : after? frame s = some frame')
    (b : Balance) : (stmt frame b s).1 = frame' := by
  cases s with
  | element head children => cases left
  | opening m => simpa [stmt, after?, markerKey] using left
  | closing m =>
    cases frame with
    | nil => cases left
    | cons top rest =>
      by_cases same : top.1 = m.component ∧ top.2 = m.branchId
      · simpa [stmt, close, after?, Prod.ext_iff, same] using left
      · simp [after?, Prod.ext_iff, same] at left
  | choice _ _ | forEach _ _ | code _ _ | branch _ _ _ | items _ _ _ =>
    simpa [stmt, after?] using left

-- A statement is accepted if it leaves some open markers and every block in it closes itself; the
-- block of the statement is then checked with the markers that are left.
mutual

theorem stmt_clear_iff : ∀ (s : Stmt) (frame : Frame) (b : Balance),
    (stmt frame b s).2.faults = [] ↔
      b.faults = [] ∧ after? frame s = some (stmt frame b s).1 ∧
        ∀ block ∈ s.innerBlocks, Closes [] block
  | .element head _, frame, b => by simp [stmt, after?]
  | .choice arms _, frame, b => by simp [stmt, after?, Stmt.innerBlocks, choiceArms_clear_iff arms b]
  | .forEach _ body, frame, b => by simp [stmt, after?, Stmt.innerBlocks, block_clear_iff body [] b]
  | .code _ _, frame, b => by simp [stmt, after?, Stmt.innerBlocks]
  | .opening m, frame, b => by simp [stmt, after?, Stmt.innerBlocks, markerKey]
  | .closing m, frame, b => by simp [stmt, Stmt.innerBlocks, close_clear_iff m frame b]
  | .branch _ arms _, frame, b => by simp [stmt, after?, Stmt.innerBlocks, branchArms_clear_iff arms b]
  | .items _ _ body, frame, b => by simp [stmt, after?, Stmt.innerBlocks, block_clear_iff body [] b]

theorem block_clear_iff : ∀ (stmts : List Stmt) (frame : Frame) (b : Balance),
    (block frame b stmts).faults = [] ↔
      b.faults = [] ∧ Closes frame stmts ∧ ∀ block ∈ Stmt.innerBlocksAll stmts, Closes [] block
  | [], frame, b => by cases frame <;> simp [block, Closes, Stmt.innerBlocksAll]
  | s :: rest, frame, b => by
    have first := stmt_clear_iff s frame b
    have others := block_clear_iff rest (stmt frame b s).1 (stmt frame b s).2
    simp only [block, closes_cons, Stmt.innerBlocksAll, forall_mem_append]
    rw [others, first]
    constructor
    · rintro ⟨⟨clear, left, inner⟩, closes, after⟩
      exact ⟨clear, ⟨_, left, closes⟩, inner, after⟩
    · rintro ⟨clear, ⟨frame', left, closes⟩, inner, after⟩
      rw [fst_stmt_of_after? left b]
      exact ⟨⟨clear, left, inner⟩, closes, after⟩

theorem choiceArms_clear_iff : ∀ (arms : List (Arm Stmt)) (b : Balance),
    (choiceArms b arms).faults = [] ↔
      b.faults = [] ∧ ∀ block ∈ Stmt.innerBlocksArms arms, Closes [] block
  | [], b => by simp [choiceArms, Stmt.innerBlocksArms]
  | ⟨_, body⟩ :: rest, b => by
    simp [choiceArms, Stmt.innerBlocksArms, choiceArms_clear_iff rest, block_clear_iff body [] b,
      or_imp, forall_and, and_assoc]

theorem branchArms_clear_iff : ∀ (arms : List (BranchArm Stmt)) (b : Balance),
    (branchArms b arms).faults = [] ↔
      b.faults = [] ∧ ∀ block ∈ Stmt.innerBlocksBranches arms, Closes [] block
  | [], b => by simp [branchArms, Stmt.innerBlocksBranches]
  | ⟨_, _, body⟩ :: rest, b => by
    simp [branchArms, Stmt.innerBlocksBranches, branchArms_clear_iff rest, block_clear_iff body [] b,
      or_imp, forall_and, and_assoc]

end

/-! ## Markers are counted whether there are faults or not -/

@[simp] theorem markers_close (m : CloseMarker) (frame : Frame) (b : Balance) :
    (close m frame b).2.markers = b.markers + 1 := by
  cases frame with
  | nil => rfl
  | cons top rest =>
    simp only [close]
    split <;> rfl

mutual

theorem markers_stmt : ∀ (s : Stmt) (frame : Frame) (b : Balance),
    (stmt frame b s).2.markers =
      b.markers + [s].countP Stmt.isMarker + s.innerBlocks.flatten.countP Stmt.isMarker
  | .element _ _, frame, b => by simp [stmt, Stmt.innerBlocks, Stmt.isMarker]
  | .choice arms _, frame, b => by
    simp [stmt, Stmt.innerBlocks, Stmt.isMarker, markers_choiceArms arms b]
  | .forEach _ body, frame, b => by
    simp [stmt, Stmt.innerBlocks, Stmt.isMarker, markers_block body [] b, Nat.add_assoc]
  | .code _ _, frame, b => by simp [stmt, Stmt.innerBlocks, Stmt.isMarker]
  | .opening m, frame, b => by simp [stmt, Stmt.innerBlocks, Stmt.isMarker]
  | .closing m, frame, b => by simp [stmt, Stmt.innerBlocks, Stmt.isMarker]
  | .branch _ arms _, frame, b => by
    simp [stmt, Stmt.innerBlocks, Stmt.isMarker, markers_branchArms arms b]
  | .items _ _ body, frame, b => by
    simp [stmt, Stmt.innerBlocks, Stmt.isMarker, markers_block body [] b, Nat.add_assoc]

theorem markers_block : ∀ (stmts : List Stmt) (frame : Frame) (b : Balance),
    (block frame b stmts).markers =
      b.markers + stmts.countP Stmt.isMarker + (Stmt.innerBlocksAll stmts).flatten.countP Stmt.isMarker
  | [], frame, b => by cases frame <;> simp [block, Stmt.innerBlocksAll]
  | s :: rest, frame, b => by
    have first := markers_stmt s frame b
    have others := markers_block rest (stmt frame b s).1 (stmt frame b s).2
    have own : ([s] ++ rest).countP Stmt.isMarker =
        [s].countP Stmt.isMarker + rest.countP Stmt.isMarker := countP_append
    simp only [singleton_append] at own
    simp only [block, Stmt.innerBlocksAll, flatten_append, countP_append]
    omega

theorem markers_choiceArms : ∀ (arms : List (Arm Stmt)) (b : Balance),
    (choiceArms b arms).markers = b.markers + (Stmt.innerBlocksArms arms).flatten.countP Stmt.isMarker
  | [], b => by simp [choiceArms, Stmt.innerBlocksArms]
  | ⟨_, body⟩ :: rest, b => by
    have first := markers_block body [] b
    have others := markers_choiceArms rest (block [] b body)
    simp only [choiceArms, Stmt.innerBlocksArms, flatten_append, flatten_cons,
      countP_append]
    omega

theorem markers_branchArms : ∀ (arms : List (BranchArm Stmt)) (b : Balance),
    (branchArms b arms).markers =
      b.markers + (Stmt.innerBlocksBranches arms).flatten.countP Stmt.isMarker
  | [], b => by simp [branchArms, Stmt.innerBlocksBranches]
  | ⟨_, _, body⟩ :: rest, b => by
    have first := markers_block body [] b
    have others := markers_branchArms rest (block [] b body)
    simp only [branchArms, Stmt.innerBlocksBranches, flatten_append, flatten_cons,
      countP_append]
    omega

end

/-! ## Blocks that close themselves are well nested -/

/-- What is left of a block in which markers are open: well nested parts, with the ends of the open
    markers between them. -/
inductive Unwinds : Frame → List Stmt → Prop
  | block {stmts : List Stmt} (whole : Stmt.WellNested stmts) : Unwinds [] stmts
  | close {m : CloseMarker} {frame : Frame} {inner rest : List Stmt}
      (within : Stmt.WellNested inner) (after : Unwinds frame rest) :
      Unwinds ((m.component, m.branchId) :: frame) (inner ++ .closing m :: rest)

theorem Unwinds.plain {frame : Frame} {s : Stmt} {rest : List Stmt} (noMarker : s.isMarker = false)
    (unwinds : Unwinds frame rest) : Unwinds frame (s :: rest) := by
  cases unwinds with
  | block whole => exact .block (.plain noMarker whole)
  | close within after => exact .close (.plain noMarker within) after

/-- A marker is closed by its end, and what comes after that belongs to the markers around it. -/
theorem Unwinds.opening {m : OpenMarker} {frame : Frame} {rest : List Stmt}
    (unwinds : Unwinds (markerKey m :: frame) rest) : Unwinds frame (.opening m :: rest) := by
  generalize isKey : markerKey m :: frame = opened at unwinds
  cases unwinds with
  | block whole => cases isKey
  | @close m' frame' inner rest within after =>
    obtain ⟨same, rfl⟩ := List.cons.inj isKey
    have isEnd : m' = closeOf m := by
      simp only [markerKey, Prod.mk.injEq] at same
      simp [closeOf, same]
    rw [isEnd]
    cases after with
    | block whole => exact .block (.node within whole)
    | close within' after =>
      simpa using Unwinds.close (.node within within') after

theorem Closes.unwinds {frame : Frame} {stmts : List Stmt} (closes : Closes frame stmts) :
    Unwinds frame stmts := by
  induction stmts generalizing frame with
  | nil =>
    have isEmpty : frame = [] := by simpa [Closes] using closes
    rw [isEmpty]
    exact .block .nil
  | cons s rest ih =>
    obtain ⟨frame', left, closes⟩ := closes_cons.mp closes
    have unwinds := ih closes
    cases s with
    | element head children => cases left
    | opening m =>
      cases left
      exact unwinds.opening
    | closing m =>
      cases frame with
      | nil => cases left
      | cons top frame =>
        simp only [after?, Option.ite_none_right_eq_some, Option.some.injEq] at left
        obtain ⟨rfl, rfl⟩ := left
        exact .close .nil unwinds
    | choice _ _ | forEach _ _ | code _ _ | branch _ _ _ | items _ _ _ =>
      cases left
      exact unwinds.plain rfl

/-- A well nested block without elements leaves the markers open that were open before it. -/
theorem foldlM_of_wellNested {stmts : List Stmt} (nested : Stmt.WellNested stmts)
    (noElement : ∀ s ∈ stmts, s.isElement = false) (frame : Frame) :
    stmts.foldlM after? frame = some frame := by
  induction nested generalizing frame with
  | nil => rfl
  | @plain s rest noMarker after ih =>
    simp only [forall_mem_cons] at noElement
    have left : after? frame s = some frame := by
      cases s <;> simp_all [after?, Stmt.isMarker, Stmt.isElement]
    simpa [foldlM_cons, left] using ih noElement.2 frame
  | @node m inner rest within after ih ih' =>
    simp only [cons_append, forall_mem_cons, forall_mem_append] at noElement
    have opened : after? frame (.opening m) = some (markerKey m :: frame) := rfl
    have first := ih noElement.2.1 (markerKey m :: frame)
    have second := ih' noElement.2.2.2 frame
    simp [foldlM_cons, opened, first, second]

theorem Closes.noElement {frame : Frame} {stmts : List Stmt} (closes : Closes frame stmts) :
    ∀ s ∈ stmts, s.isElement = false := by
  induction stmts generalizing frame with
  | nil => simp
  | cons s rest ih =>
    obtain ⟨frame', left, closes⟩ := closes_cons.mp closes
    simp only [forall_mem_cons]
    constructor
    · cases s with
      | element head children => cases left
      | choice _ _ | forEach _ _ | code _ _ | opening _ | closing _ | branch _ _ _ | items _ _ _ => rfl
    · exact ih closes

theorem closes_iff {stmts : List Stmt} :
    Closes [] stmts ↔ (∀ s ∈ stmts, s.isElement = false) ∧ Stmt.WellNested stmts := by
  constructor
  · intro closes
    cases closes.unwinds with
    | block whole => exact ⟨closes.noElement, whole⟩
  · rintro ⟨noElement, nested⟩
    exact foldlM_of_wellNested nested noElement []

/-- The check accepts a body if and only if none of its blocks has an element and each of them is well
    nested, and then gives the number of markers in all blocks. -/
theorem check_eq_ok_iff (body : List Stmt) (n : Nat) :
    check body = .ok n ↔
      (∀ block ∈ Stmt.linearBlocks body, ∀ s ∈ block, s.isElement = false) ∧
      (∀ block ∈ Stmt.linearBlocks body, Stmt.WellNested block) ∧
      n = (Stmt.linearBlocks body).flatten.countP Stmt.isMarker := by
  have accepted : (Balance.body body).faults = [] ↔
      ∀ block ∈ Stmt.linearBlocks body, Closes [] block := by
    simp [Balance.body, block_clear_iff, Stmt.linearBlocks]
  have counted : (Balance.body body).markers =
      (Stmt.linearBlocks body).flatten.countP Stmt.isMarker := by
    simp [Balance.body, markers_block, Stmt.linearBlocks]
  have isChecked : check body = .ok n ↔
      (Balance.body body).faults = [] ∧ (Balance.body body).markers = n := by
    simp only [check]
    cases (Balance.body body).faults <;> simp
  rw [isChecked, accepted, counted, ← and_assoc, ← forall₂_and]
  simp only [closes_iff, eq_comm]

-- A block is on its own: a loop does not close the marker that it stands in.
example :
    check [.opening { component := "Row", role := .element },
      .items ["x"] none [.closing { component := "Row" }]] = .error (.nothingOpen "Row") := rfl

end Balance

end ReactiveView
