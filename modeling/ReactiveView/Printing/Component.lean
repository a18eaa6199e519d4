import ReactiveView.Lowering.Module
import ReactiveView.Printing.Layout

/-!
# Printing of lowered components

A lowered component is printed as a JavaScript class: a constructor that makes the private fields,
the accessors, the render method and the other methods.  In a render body the start of a node is a
call of `create`, its end a call of `pop`; instances of components and arms of conditionals have no
end of their own.
-/

namespace ReactiveView.Printing

/-! ## Members -/

/-- The value of a field: the parameter if it is given, else the initializer. -/
def parameterOr (field : String) : Option String → String
  | some code => s!"params.{field} !== undefined ? params.{field} : {code}"
  | none => s!"params.{field}"

def wrapperLines (w : Wrapper) : List Piece :=
  let field := w.sourceField
  let make (kind value : String) : Piece :=
    .line s!"this.{w.name} = new {kind}({value}, this, \"{field}\");"
  match w.binding with
  | .ownedSimple => [make "ObservedPropertySimple" (parameterOr field w.initializer)]
  | .oneWay => [make "SynchedPropertySimpleOneWay" (parameterOr field w.initializer)]
  | .twoWay => [make "SynchedPropertySimpleTwoWay" (parameterOr field none)]
  | .shared key .provider =>
    [make "ObservedPropertySimple" (w.initializer.getD "undefined"),
     .line s!"this.addProvidedVar(\"{key}\", this.{w.name});"]
  | .shared key .consumer =>
    [.line s!"this.{w.name} = this.initializeConsume(\"{key}\", \"{field}\");"]

def constructorLines : Member → List Piece
  | .wrapper w => wrapperLines w
  | .field f => [.line s!"this.{f.name} = {parameterOr f.name f.initializer};"]
  | _ => []

def accessorLines : Member → List Piece
  | .accessors a =>
    [.blank,
     .enter s!"get {a.name}() \x7b", .line s!"return this.{a.backing}.get();", .leave "\x7d",
     .enter s!"set {a.name}(newValue) \x7b", .line s!"this.{a.backing}.set(newValue);",
     .leave "\x7d"]
  | _ => []

/-! ## Bodies -/

/-- A node of a printed block that is open, and whether its end is printed. -/
structure OpenNode where
  name : String
  pops : Bool
deriving DecidableEq, Repr, Inhabited

def boundCode : BoundValue → String
  | .expression code => code
  | .wrapper code _ => code

def instanceParams (bindings : List BoundArgument) : String :=
  if bindings.isEmpty then "\x7b\x7d"
  else
    let entries := bindings.map fun b => b.field ++ ": " ++ boundCode b.value
    "\x7b " ++ ", ".intercalate entries ++ " \x7d"

def argList (args : List String) : String := ", ".intercalate args

def openLines (m : OpenMarker) : List Piece :=
  match m.role with
  | .component bindings =>
    [.line s!"View.create(new {m.component}(this, {instanceParams bindings}));"]
  | .arm _ branchId => [.line s!"{m.component}.branchId({branchId});"]
  | .element | .conditional _ | .loop =>
    .line s!"{m.component}.create({argList m.args});" ::
      m.attributes.map fun a => .line s!"{m.component}.{a.method}({argList a.args});"

def openNode (m : OpenMarker) : OpenNode :=
  match m.role with
  | .component _ | .arm _ _ => ⟨m.component, false⟩
  | .element | .conditional _ | .loop => ⟨m.component, true⟩

def closeLines (opened : List OpenNode) (m : CloseMarker) :
    Except Fault (List OpenNode × List Piece) :=
  match opened with
  | [] => .error (.printNothingOpen m.component)
  | last :: rest =>
    if last.name = m.component then
      .ok (rest, if last.pops then [.line s!"{m.component}.pop();"] else [])
    else .error (.printNothingOpen m.component)

def armHead (first : Bool) (condition : Option String) : Piece :=
  match condition, first with
  | some code, true => .enter s!"if ({code}) \x7b"
  | some code, false => .turn s!"\x7d else if ({code}) \x7b"
  | none, true => .enter "\x7b"
  | none, false => .turn "\x7d else \x7b"

def generatorLines (params : List String) (keyGenerator : Option String) : List Piece :=
  let item := params.headD "item"
  let key := keyGenerator.getD s!"({item}) => {item}"
  [.line s!"const __keyGenFunction__ = {key};",
   .line "ForEach.keyGenerator(__keyGenFunction__);",
   .line "ForEach.itemGenerator(__itemGenFunction__);"]

mutual

/-- The lines of a statement, and the nodes that are open after it. -/
def printStmt (opened : List OpenNode) : Stmt → Except Fault (List OpenNode × List Piece)
  | .opening marker => .ok (openNode marker :: opened, openLines marker)
  | .closing marker => closeLines opened marker
  | .branch _ arms _ => do
    let lines ← printArms true arms
    return (opened, if arms.isEmpty then lines else lines ++ [.leave "\x7d"])
  | .items params keyGenerator body => do
    let lines ← printBlock [] body
    return (opened,
      .enter s!"const __itemGenFunction__ = ({argList params}) => \x7b" :: lines ++
        .leave "\x7d;" :: generatorLines params keyGenerator)
  | .code text _ => .ok (opened, [.line text])
  | .element _ _ => .error .printDeclarative
  | .choice _ _ => .error .printDeclarative
  | .forEach _ _ => .error .printDeclarative

def printBlock (opened : List OpenNode) : List Stmt → Except Fault (List Piece)
  | [] =>
    match opened with
    | [] => .ok []
    | last :: _ => .error (.printNeverClosed last.name)
  | s :: rest => do
    let (opened, lines) ← printStmt opened s
    return lines ++ (← printBlock opened rest)

def printArms (first : Bool) : List (BranchArm Stmt) → Except Fault (List Piece)
  | [] => .ok []
  | ⟨condition, _, body⟩ :: rest => do
    let lines ← printBlock [] body
    return armHead first condition :: lines ++ (← printArms false rest)

end

/-! ## Classes -/

def printMethod (head : String) (body : List Stmt) : Except Fault (List Piece) := do
  return .blank :: .enter (head ++ " \x7b") :: (← printBlock [] body) ++ [.leave "\x7d"]

def componentPieces (c : Component) : Except Fault (List Piece) := do
  let render ← printMethod s!"{c.render.name}()" c.render.body
  let methods ← c.methods.mapM fun m => printMethod s!"{m.name}({argList m.params})" m.body
  return [.enter s!"class {c.name} extends View \x7b",
      .enter "constructor(parent, params) \x7b", .line "super(parent);"] ++
    c.members.flatMap constructorLines ++ .leave "\x7d" :: c.members.flatMap accessorLines ++
    render ++ methods.flatten ++ [.leave "\x7d"]

end ReactiveView.Printing

namespace ReactiveView

def printerFile : String := "<printer>"

def LoweredComponent.print (c : LoweredComponent) : Except Diagnostic String :=
  match Printing.componentPieces c.decl with
  | .ok pieces => .ok (Printing.render pieces)
  | .error fault => .error ⟨fault, printerFile, c.decl.name, {}⟩

end ReactiveView
