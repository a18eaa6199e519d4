import Mathlib.Data.List.Induction
import ReactiveView.Printing.Component
import ReactiveView.Proofs.BalancedExecution
import ReactiveView.Proofs.ModuleLowering

/-!
# Printing of bracketed bodies

A body that passes the bracketing check is printed.  The lines of a block follow its structure
(`Prints`): the line that creates a node comes before the lines of what the node encloses, and the
line that pops it right after them.  Since a printed block ends every indented block that it starts,
the depth of the writer is never cut off at zero, and the text is that of the pieces, each indented
by the blocks around it (`toList_render`).
-/

namespace ReactiveView

open List

namespace Printing

/-! ## Depth -/

/-- The depth after pieces, unless they end or turn a block that was not started. -/
def depthAfter? (depth : Nat) : List Piece → Option Nat
  | [] => some depth
  | .line _ :: rest | .blank :: rest => depthAfter? depth rest
  | .enter _ :: rest => depthAfter? (depth + 1) rest
  | .leave _ :: rest =>
    match depth with
    | 0 => none
    | depth + 1 => depthAfter? depth rest
  | .turn _ :: rest =>
    match depth with
    | 0 => none
    | depth + 1 => depthAfter? (depth + 1) rest

/-- Where no block ends too early, the depth of the writer is this depth. -/
theorem write_depth {depth last : Nat} {pieces : List Piece}
    (fits : depthAfter? depth pieces = some last) : (write depth pieces).2 = last := by
  fun_induction depthAfter? depth pieces with
  | case1 => simpa [write] using fits
  | case5 | case7 => cases fits
  | _ => simp_all [write]

/-- The lines of a piece, without their indentation. -/
def Piece.lines : Piece → List (List Char)
  | .line text | .enter text | .leave text | .turn text => Text.lines text.toList
  | .blank => [[]]

/-- The line that ends or turns a block stands outside it. -/
def Piece.outdent : Piece → Nat
  | .leave _ | .turn _ => 1
  | .line _ | .enter _ | .blank => 0

/-- The lines of a piece at a depth, without blanks at their ends, and two blanks further in for every
    block that is open there. -/
def Piece.textAt (depth : Nat) (p : Piece) : List Char := p.lines.flatMap fun line =>
  if (Text.trim line).isEmpty then ['\n']
  else replicate (2 * (depth - p.outdent)) ' ' ++ Text.trimEnd line ++ ['\n']

theorem depthAfter?_append (depth : Nat) (pieces others : List Piece) :
    depthAfter? depth (pieces ++ others) =
      (depthAfter? depth pieces).bind (depthAfter? · others) := by
  fun_induction depthAfter? depth pieces with
  | case1 => rfl
  | _ => simp_all [depthAfter?]

theorem write_append (depth : Nat) (pieces others : List Piece) :
    (write depth (pieces ++ others)).1 =
      (write depth pieces).1 ++ (write (write depth pieces).2 others).1 := by
  fun_induction write depth pieces with
  | case1 => rfl
  | _ => simp_all [write]

theorem toList_render_concat {before : List Piece} {depth : Nat}
    (fits : depthAfter? 0 before = some depth) (p : Piece) :
    (render (before ++ [p])).toList = (render before).toList ++ p.textAt depth := by
  have blanks (n : Nat) : (replicate n indent).flatten = replicate (2 * n) ' ' := by
    rw [show indent = replicate 2 ' ' from rfl, flatten_replicate_replicate, Nat.mul_comm]
  have added : (write depth [p]).1 = p.lines.flatMap (indented (depth - p.outdent)) := by
    cases p with
    | blank => rfl
    | _ => simp [write, Piece.lines, Piece.outdent, block]
  rw [render, render, String.toList_ofList, String.toList_ofList, write_append, write_depth fits,
    added]
  exact congrArg (_ ++ p.lines.flatMap ·) (funext fun line => by rw [indented, blanks])

/-- The text is that of the pieces, each one at the depth that those before it leave. -/
theorem toList_render {pieces : List Piece} {last : Nat} (fits : depthAfter? 0 pieces = some last) :
    (render pieces).toList = pieces.zipIdx.flatMap fun entry =>
      entry.1.textAt ((depthAfter? 0 (pieces.take entry.2)).getD 0) := by
  induction pieces using List.reverseRecOn generalizing last with
  | nil => rfl
  | append_singleton before p ih =>
    rw [depthAfter?_append] at fits
    obtain ⟨depth, fits, _⟩ := Option.bind_eq_some_iff.mp fits
    have same : ∀ q ∈ before.zipIdx, (before ++ [p]).take q.2 = before.take q.2 := fun q member =>
      take_append_of_le_length (Nat.le_of_lt (by simpa using (mem_zipIdx member).2.1))
    rw [toList_render_concat fits, ih fits, zipIdx_append, flatMap_append]
    congr 1
    · exact flatMap_congr fun q member => by rw [same q member]
    · simp [fits]

/-- Pieces that end exactly the blocks that they start. -/
def AreLevel (pieces : List Piece) : Prop :=
  ∀ depth rest, depthAfter? depth (pieces ++ rest) = depthAfter? depth rest

namespace AreLevel

variable {pieces others : List Piece}

theorem nil : AreLevel [] := fun _ _ => rfl

theorem line (text : String) : AreLevel [.line text] := fun _ _ => rfl

theorem blank : AreLevel [.blank] := fun _ _ => rfl

theorem append (first : AreLevel pieces) (second : AreLevel others) :
    AreLevel (pieces ++ others) := by
  intro depth rest
  rw [append_assoc, first, second]

theorem enclosed (level : AreLevel pieces) (start stop : String) :
    AreLevel (.enter start :: pieces ++ [.leave stop]) := by
  intro depth rest
  rw [cons_append, cons_append, append_assoc, depthAfter?, level]
  rfl

theorem flatMap {α : Type} {f : α → List Piece} (each : ∀ a, AreLevel (f a)) (as : List α) :
    AreLevel (as.flatMap f) := by
  induction as with
  | nil => exact .nil
  | cons a as ih => exact (each a).append ih

theorem lines {α : Type} (texts : List α) (text : α → String) :
    AreLevel (texts.map fun a => .line (text a)) := by
  induction texts with
  | nil => exact .nil
  | cons a texts ih => exact (line _).append ih

end AreLevel

/-! ## Blocks by their structure -/

/-- The line that creates a node. -/
def createLine (m : OpenMarker) : Piece := .line s!"{m.component}.create({argList m.args});"

/-- The line that pops a node. -/
def popLine (name : String) : Piece := .line s!"{name}.pop();"

/-- The lines for the attributes of a node. -/
def attributeLines (m : OpenMarker) : List Piece :=
  m.attributes.map fun a => .line s!"{m.component}.{a.method}({argList a.args});"

/-- The end of a marker. -/
def closeOf (m : OpenMarker) : CloseMarker := ⟨m.component, m.role.branchId?⟩

mutual

/-- The lines of a block. -/
inductive Prints : List Stmt → List Piece → Prop
  | nil : Prints [] []
  | element {m : OpenMarker} {inner rest : List Stmt} {within lines : List Piece}
      (pops : m.role = .element ∨ m.role = .loop ∨ ∃ site, m.role = .conditional site)
      (body : Prints inner within) (after : Prints rest lines) :
      Prints (.opening m :: inner ++ .closing (closeOf m) :: rest)
        (createLine m :: attributeLines m ++ within ++ popLine m.component :: lines)
  | component {m : OpenMarker} {bindings : List BoundArgument} {inner rest : List Stmt}
      {within lines : List Piece} (role : m.role = .component bindings)
      (body : Prints inner within) (after : Prints rest lines) :
      Prints (.opening m :: inner ++ .closing (closeOf m) :: rest)
        (.line s!"View.create(new {m.component}(this, {instanceParams bindings}));" ::
          within ++ lines)
  | arm {m : OpenMarker} {site branchId : UInt32} {inner rest : List Stmt}
      {within lines : List Piece} (role : m.role = .arm site branchId)
      (body : Prints inner within) (after : Prints rest lines) :
      Prints (.opening m :: inner ++ .closing (closeOf m) :: rest)
        (.line s!"{m.component}.branchId({branchId});" :: within ++ lines)
  | code {text : String} {location : Location} {rest : List Stmt} {lines : List Piece}
      (after : Prints rest lines) : Prints (.code text location :: rest) (.line text :: lines)
  | branch {site : UInt32} {arms : List (BranchArm Stmt)} {location : Location}
      {rest : List Stmt} {within lines : List Piece} (each : PrintsArms true arms within)
      (after : Prints rest lines) :
      Prints (.branch site arms location :: rest)
        (within ++ (if arms.isEmpty then [] else [.leave "\x7d"]) ++ lines)
  | items {params : List String} {keyGenerator : Option String} {body rest : List Stmt}
      {within lines : List Piece} (each : Prints body within) (after : Prints rest lines) :
      Prints (.items params keyGenerator body :: rest)
        (.enter s!"const __itemGenFunction__ = ({argList params}) => \x7b" :: within ++
          .leave "\x7d;" :: generatorLines params keyGenerator ++ lines)

/-- The lines of arms, each of them a block. -/
inductive PrintsArms : Bool → List (BranchArm Stmt) → List Piece → Prop
  | nil {first : Bool} : PrintsArms first [] []
  | cons {first : Bool} {condition : Option String} {branchId : UInt32} {body : List Stmt}
      {rest : List (BranchArm Stmt)} {within lines : List Piece} (each : Prints body within)
      (others : PrintsArms false rest lines) :
      PrintsArms first (⟨condition, branchId, body⟩ :: rest)
        (armHead first condition :: within ++ lines)

end

/-- The first arm starts a block, a later one goes on in the block of the arm before it. -/
theorem depthAfter?_armHead (first : Bool) (condition : Option String) (depth : Nat)
    (rest : List Piece) :
    depthAfter? (if first then depth else depth + 1) (armHead first condition :: rest) =
      depthAfter? (depth + 1) rest := by
  cases first <;> cases condition <;> rfl

theorem areLevel_generatorLines (params : List String) (keyGenerator : Option String) :
    AreLevel (generatorLines params keyGenerator) := fun _ _ => rfl

mutual

/-- The lines of a block end exactly the blocks that they start. -/
theorem Prints.level {body : List Stmt} {lines : List Piece} : Prints body lines → AreLevel lines
  | .nil => .nil
  | .element _ body after =>
    (((AreLevel.line _).append (.lines _ _)).append body.level).append
      ((AreLevel.line _).append after.level)
  | .component _ body after => ((AreLevel.line _).append body.level).append after.level
  | .arm _ body after => ((AreLevel.line _).append body.level).append after.level
  | .code after => (AreLevel.line _).append after.level
  | .branch each after => by
    have arms := each.level
    refine AreLevel.append (fun depth rest => ?_) after.level
    split
    next none =>
      rw [List.isEmpty_iff] at none
      subst none
      cases each
      rfl
    next some =>
      rw [List.isEmpty_iff] at some
      rw [append_assoc]
      exact arms (fun _ => some) depth (.leave "\x7d" :: rest)
  | .items each after => by
    have inner := each.level.enclosed
    have generator := areLevel_generatorLines
    simpa using (inner _ _).append ((generator _ _).append after.level)

/-- The lines of arms start a block, unless there is one before them, and leave it open. -/
theorem PrintsArms.level {first : Bool} {arms : List (BranchArm Stmt)} {lines : List Piece} :
    PrintsArms first arms lines → (first = true → arms ≠ []) → ∀ depth rest,
      depthAfter? (if first then depth else depth + 1) (lines ++ rest) =
        depthAfter? (depth + 1) rest
  | .nil, started, depth, rest => by
    cases first with
    | false => rfl
    | true => exact absurd rfl (started rfl)
  | .cons each others, _, depth, rest => by
    rw [cons_append, cons_append, append_assoc, depthAfter?_armHead, each.level]
    exact others.level nofun depth rest

end

/-! ## Bracketed blocks are printed -/

/-- The lines for the end of a marker. -/
def endLines (m : OpenMarker) : List Piece :=
  if (openNode m).pops then [popLine m.component] else []

theorem name_openNode (m : OpenMarker) : (openNode m).name = m.component := by
  unfold openNode
  split <;> rfl

theorem closeLines_closeOf (m : OpenMarker) (opened : List OpenNode) :
    closeLines (openNode m :: opened) (closeOf m) = .ok (opened, endLines m) := by
  unfold closeLines
  exact if_pos (name_openNode m)

/-- A marker of any role is printed before what it encloses, and its end after it. -/
theorem Prints.enclosed {inner rest : List Stmt} {within lines : List Piece} (m : OpenMarker)
    (body : Prints inner within) (after : Prints rest lines) :
    Prints (.opening m :: inner ++ .closing (closeOf m) :: rest)
      (openLines m ++ within ++ endLines m ++ lines) := by
  cases role : m.role with
  | component bindings =>
    simpa [openLines, endLines, openNode, role] using Prints.component role body after
  | arm site branchId =>
    simpa [openLines, endLines, openNode, role] using Prints.arm role body after
  | element =>
    simpa [openLines, endLines, openNode, role, createLine, attributeLines] using
      Prints.element (.inl role) body after
  | loop =>
    simpa [openLines, endLines, openNode, role, createLine, attributeLines] using
      Prints.element (.inr (.inl role)) body after
  | conditional site =>
    simpa [openLines, endLines, openNode, role, createLine, attributeLines] using
      Prints.element (.inr (.inr ⟨site, role⟩)) body after

/-- The lines of the rest of a block in which markers are open, innermost first. -/
inductive PrintsRest : List OpenMarker → List Stmt → List Piece → Prop
  | block {body : List Stmt} {lines : List Piece} (whole : Prints body lines) :
      PrintsRest [] body lines
  | close {m : OpenMarker} {opened : List OpenMarker} {inner rest : List Stmt}
      {within lines : List Piece} (body : Prints inner within)
      (after : PrintsRest opened rest lines) :
      PrintsRest (m :: opened) (inner ++ .closing (closeOf m) :: rest)
        (within ++ endLines m ++ lines)

/-- What comes before the rest of a block is enclosed by its innermost marker. -/
theorem PrintsRest.prepend (before : List Stmt) (head : List Piece)
    (grow : ∀ rest lines, Prints rest lines → Prints (before ++ rest) (head ++ lines))
    {opened : List OpenMarker} {rest : List Stmt} {lines : List Piece}
    (prints : PrintsRest opened rest lines) : PrintsRest opened (before ++ rest) (head ++ lines) := by
  cases prints with
  | block whole => exact .block (grow _ _ whole)
  | close body after => simpa using PrintsRest.close (grow _ _ body) after

/-- What the bracketing check keeps of an open marker. -/
def markerKey (m : OpenMarker) : String × Option UInt32 := (m.component, m.role.branchId?)

/-- A marker that the check closes is the end of the innermost one. -/
theorem closeOf_of_close {marker : CloseMarker} {opened : List OpenMarker} {b : Balance}
    (clear : (Balance.close marker (opened.map markerKey) b).2.faults = []) :
    ∃ m outer, opened = m :: outer ∧ marker = closeOf m ∧
      (Balance.close marker (opened.map markerKey) b).1 = outer.map markerKey := by
  cases opened with
  | nil => simp [Balance.close, Balance.fail] at clear
  | cons m outer =>
    simp only [map_cons, markerKey, Balance.close] at clear ⊢
    by_cases same : m.component = marker.component ∧ m.role.branchId? = marker.branchId
    · rw [if_pos same]
      exact ⟨m, outer, rfl, by rw [closeOf, same.1, same.2], rfl⟩
    · simp [if_neg same, Balance.fail] at clear

theorem printBlock_cons {opened opened' : List OpenNode} {s : Stmt} {rest : List Stmt}
    {head lines : List Piece} (first : printStmt opened s = .ok (opened', head))
    (others : printBlock opened' rest = .ok lines) :
    printBlock opened (s :: rest) = .ok (head ++ lines) := by
  rw [printBlock, first]
  change (do return head ++ (← printBlock opened' rest) : Except Fault (List Piece)) = _
  rw [others]
  rfl

mutual

/-- The rest of a block that passes the bracketing check is printed by its structure. -/
theorem block_prints : ∀ (stmts : List Stmt) (opened : List OpenMarker) (b : Balance),
    Stmt.areLinear stmts = true → (Balance.block (opened.map markerKey) b stmts).faults = [] →
    ∃ lines, printBlock (opened.map openNode) stmts = .ok lines ∧ PrintsRest opened stmts lines
  | [], opened, b, _, clear => by
    cases opened with
    | nil => exact ⟨[], rfl, .block .nil⟩
    | cons m opened => simp [Balance.block, Balance.fail] at clear
  | .opening m :: rest, opened, b, linear, clear => by
    rw [Stmt.areLinear, Bool.and_eq_true] at linear
    obtain ⟨lines, printed, prints⟩ := block_prints rest (m :: opened) _ linear.2 clear
    refine ⟨_, printBlock_cons rfl printed, ?_⟩
    -- what follows the marker up to its end becomes what it encloses
    cases prints with
    | @close _ _ inner _ within _ body after =>
      have grow : ∀ rest lines, Prints rest lines →
          Prints ((.opening m :: inner ++ [.closing (closeOf m)]) ++ rest)
            ((openLines m ++ within ++ endLines m) ++ lines) := by
        intro rest lines after
        simpa using Prints.enclosed m body after
      simpa using after.prepend _ _ grow
  | .closing marker :: rest, opened, b, linear, clear => by
    rw [Stmt.areLinear, Bool.and_eq_true] at linear
    obtain ⟨m, outer, rfl, rfl, left⟩ := closeOf_of_close (Balance.faults_of_block rest _ _ clear)
    simp only [Balance.block, Balance.stmt, left] at clear
    obtain ⟨lines, printed, prints⟩ := block_prints rest outer _ linear.2 clear
    exact ⟨_, printBlock_cons (closeLines_closeOf m _) printed, .close .nil prints⟩
  | .code text location :: rest, opened, b, linear, clear => by
    rw [Stmt.areLinear, Bool.and_eq_true] at linear
    obtain ⟨lines, printed, prints⟩ := block_prints rest opened _ linear.2 clear
    exact ⟨_, printBlock_cons rfl printed,
      prints.prepend [.code text location] [.line text] fun _ _ after => .code after⟩
  | .branch site arms location :: rest, opened, b, linear, clear => by
    rw [Stmt.areLinear, Bool.and_eq_true] at linear
    obtain ⟨within, armsPrinted, each⟩ := arms_prints arms true b linear.1
      (Balance.faults_of_block rest _ _ clear)
    obtain ⟨lines, printed, prints⟩ := block_prints rest opened _ linear.2 clear
    have head : printStmt (opened.map openNode) (.branch site arms location) =
        .ok (opened.map openNode, within ++ if arms.isEmpty then [] else [.leave "\x7d"]) := by
      rw [printStmt, armsPrinted]
      cases arms <;> simp [pure, Except.pure, bind, Except.bind]
    exact ⟨_, printBlock_cons head printed,
      prints.prepend [.branch site arms location] _ fun _ _ after => .branch each after⟩
  | .items params keyGenerator body :: rest, opened, b, linear, clear => by
    rw [Stmt.areLinear, Bool.and_eq_true] at linear
    obtain ⟨within, bodyPrinted, each⟩ := block_prints body [] b linear.1
      (Balance.faults_of_block rest _ _ clear)
    obtain ⟨lines, printed, prints⟩ := block_prints rest opened _ linear.2 clear
    have head : printStmt (opened.map openNode) (.items params keyGenerator body) =
        .ok (opened.map openNode,
          .enter s!"const __itemGenFunction__ = ({argList params}) => \x7b" :: within ++
            .leave "\x7d;" :: generatorLines params keyGenerator) := by
      rw [map_nil] at bodyPrinted
      rw [printStmt, bodyPrinted]
      rfl
    cases each with
    | block each =>
      exact ⟨_, printBlock_cons head printed,
        prints.prepend [.items params keyGenerator body] _ fun _ _ after => .items each after⟩
  | .element _ _ :: _, _, _, linear, _
  | .choice _ _ :: _, _, _, linear, _
  | .forEach _ _ :: _, _, _, linear, _ => by simp [Stmt.areLinear, Stmt.isLinear] at linear

/-- Arms that pass the bracketing check are printed by their structure. -/
theorem arms_prints : ∀ (arms : List (BranchArm Stmt)) (first : Bool) (b : Balance),
    Stmt.areLinearBranches arms = true → (Balance.branchArms b arms).faults = [] →
    ∃ lines, printArms first arms = .ok lines ∧ PrintsArms first arms lines
  | [], first, b, _, _ => ⟨[], rfl, .nil⟩
  | ⟨condition, branchId, body⟩ :: rest, first, b, linear, clear => by
    rw [Stmt.areLinearBranches, Bool.and_eq_true] at linear
    obtain ⟨within, bodyPrinted, each⟩ := block_prints body [] b linear.1
      (Balance.faults_of_branchArms rest _ clear)
    obtain ⟨lines, printed, others⟩ := arms_prints rest false _ linear.2 clear
    cases each with
    | block each =>
      refine ⟨_, ?_, .cons each others⟩
      rw [map_nil] at bodyPrinted
      rw [printArms, bodyPrinted, printed]
      rfl

end

/-- A linear body that passes the bracketing check is printed by its structure. -/
theorem printBlock_prints {body : List Stmt} (linear : Stmt.areLinear body = true)
    (clear : (Balance.body body).faults = []) :
    ∃ lines, printBlock [] body = .ok lines ∧ Prints body lines := by
  obtain ⟨lines, printed, prints⟩ := block_prints body [] {} linear clear
  cases prints with
  | block whole => exact ⟨lines, printed, whole⟩

end Printing

/-! ## Components -/

/-- The bodies of a component: that of its render method and those of its other methods. -/
def Component.bodies (c : Component) : List (List Stmt) := c.render.body :: c.methods.map (·.body)

/-- A body that is linear and passes the bracketing check. -/
structure Stmt.AreBracketed (body : List Stmt) : Prop where
  linear : Stmt.areLinear body = true
  balanced : (Balance.body body).faults = []

theorem Stmt.areBracketed_of_code {body : List Stmt}
    (code : ∀ s ∈ body, ∃ text location, s = .code text location) : Stmt.AreBracketed body := by
  have check : ∀ b : Balance, Stmt.areLinear body = true ∧ Balance.block [] b body = b := by
    intro b
    induction body with
    | nil => exact ⟨rfl, rfl⟩
    | cons s body ih =>
      rw [forall_mem_cons] at code
      obtain ⟨⟨text, location, rfl⟩, others⟩ := code
      exact ih others
  exact ⟨(check {}).1, by rw [Balance.body, (check {}).2]⟩

namespace ModuleScope

variable {scope : ModuleScope} {c : Component}

theorem LowersBody.areBracketed {method : String} {body out : List Stmt} {s s' : LoweringState}
    (lowers : scope.LowersBody c method body s out s') : Stmt.AreBracketed out :=
  ⟨lowers.lowers.linear, lowers.balanced⟩

theorem LowersMembers.areBracketed {members out : List Member} {s s' : LoweringState}
    (lowers : scope.LowersMembers c members s out s') {m : Method} (member : .method m ∈ out) :
    Stmt.AreBracketed m.body := by
  induction lowers with
  | nil => cases member
  | cons head tail ih =>
    rcases mem_cons.mp member with rfl | later
    · cases head with
      | builder _ body => exact body.areBracketed
      | ordinary _ body => exact Stmt.areBracketed_of_code (code_of_ordinaryBody body)
    · exact ih later

/-- All bodies of a lowered component are bracketed. -/
theorem bodies_areBracketed {out : LoweredComponent} (lowered : scope.lowerComponent c = .ok out) :
    ∀ body ∈ out.decl.bodies, Stmt.AreBracketed body := by
  obtain ⟨_, _, body, members, _, _, render, methods, rfl⟩ := lowerComponent_ok_iff.mp lowered
  rw [Component.bodies, forall_mem_cons, forall_mem_map]
  refine ⟨render.areBracketed, fun m declared => ?_⟩
  obtain ⟨member, isMember, isMethod⟩ := mem_filterMap.mp declared
  cases member with
  | method m' =>
    cases isMethod
    exact methods.areBracketed isMember
  | field _ | wrapper _ | accessors _ => cases isMethod

end ModuleScope

namespace Printing

/-- The lines of a body stand in printed code, and follow the structure of the body. -/
def IsPrintedIn (pieces : List Piece) (body : List Stmt) : Prop :=
  ∃ lines, printBlock [] body = .ok lines ∧ Prints body lines ∧ lines <:+: pieces

theorem IsPrintedIn.trans {pieces pieces' : List Piece} {body : List Stmt}
    (printed : IsPrintedIn pieces body) (within : pieces <:+: pieces') : IsPrintedIn pieces' body := by
  obtain ⟨lines, ran, prints, here⟩ := printed
  exact ⟨lines, ran, prints, here.trans within⟩

theorem printMethod_prints {body : List Stmt} (bracketed : Stmt.AreBracketed body) (head : String) :
    ∃ pieces, printMethod head body = .ok pieces ∧ AreLevel pieces ∧ IsPrintedIn pieces body := by
  obtain ⟨lines, printed, prints⟩ := printBlock_prints bracketed.linear bracketed.balanced
  refine ⟨_, by rw [printMethod, printed]; rfl, ?_, lines, printed, prints, ?_⟩
  · exact AreLevel.blank.append (prints.level.enclosed _ _)
  · exact ⟨[.blank, .enter _], [.leave _], rfl⟩

theorem printMethods_print {methods : List Method} (head : Method → String)
    (bracketed : ∀ m ∈ methods, Stmt.AreBracketed m.body) :
    ∃ groups, methods.mapM (fun m => printMethod (head m) m.body) = .ok groups ∧
      AreLevel groups.flatten ∧ ∀ m ∈ methods, IsPrintedIn groups.flatten m.body := by
  induction methods with
  | nil => exact ⟨[], rfl, .nil, nofun⟩
  | cons m methods ih =>
    rw [forall_mem_cons] at bracketed
    obtain ⟨pieces, printed, level, first⟩ := printMethod_prints bracketed.1 (head m)
    obtain ⟨groups, printedAll, levels, others⟩ := ih bracketed.2
    refine ⟨pieces :: groups, by rw [mapM_cons, printed, printedAll]; rfl, ?_, ?_⟩
    · exact level.append levels
    · rw [forall_mem_cons, flatten_cons]
      exact ⟨first.trans (prefix_append _ _).isInfix,
        fun m member => (others m member).trans (suffix_append _ _).isInfix⟩

theorem areLevel_constructorLines (m : Member) : AreLevel (constructorLines m) := by
  cases m with
  | wrapper w =>
    obtain ⟨_, _, _, binding, _, _⟩ := w
    cases binding with
    | shared key role => cases role <;> exact fun _ _ => rfl
    | ownedSimple | oneWay | twoWay => exact fun _ _ => rfl
  | field f => exact .line _
  | accessors _ | method _ => exact .nil

theorem areLevel_accessorLines (m : Member) : AreLevel (accessorLines m) := by
  cases m with
  | accessors a => exact fun _ _ => rfl
  | wrapper _ | field _ | method _ => exact .nil

/-- A component with bracketed bodies is printed, and its code ends every block that it starts. -/
theorem componentPieces_print {c : Component}
    (bracketed : ∀ body ∈ c.bodies, Stmt.AreBracketed body) :
    ∃ pieces, componentPieces c = .ok pieces ∧ AreLevel pieces ∧
      ∀ body ∈ c.bodies, IsPrintedIn pieces body := by
  rw [Component.bodies, forall_mem_cons, forall_mem_map] at bracketed
  obtain ⟨render, rendered, level, body⟩ := printMethod_prints bracketed.1 s!"{c.render.name}()"
  obtain ⟨methods, printed, levels, bodies⟩ := printMethods_print
    (fun m => s!"{m.name}({argList m.params})") bracketed.2
  have fields := AreLevel.flatMap areLevel_constructorLines c.members
  have accessors := AreLevel.flatMap areLevel_accessorLines c.members
  refine ⟨_, by rw [componentPieces, rendered, printed]; rfl, ?_, ?_⟩
  · have inner := ((((AreLevel.line "super(parent);").append fields).enclosed
      "constructor(parent, params) \x7b" "\x7d").append accessors).append level |>.append levels
    simpa using inner.enclosed s!"class {c.name} extends View \x7b" "\x7d"
  · rw [Component.bodies, forall_mem_cons, forall_mem_map]
    constructor
    · exact ((body.trans (suffix_append _ _).isInfix).trans
        (prefix_append _ methods.flatten).isInfix).trans (prefix_append _ _).isInfix
    · exact fun m member => (bodies m member).trans ⟨_, [.leave "\x7d"], rfl⟩

end Printing

end ReactiveView
