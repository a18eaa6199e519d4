import ReactiveView.Diagnostic.Fault
import ReactiveView.Json.Basic

/-!
# Declarations as JSON

Every field is written, in the order in which it is declared, absent options as null; the tag of
a variant comes first.
-/

namespace ReactiveView

open Json (ofOption ofStrings ofUInt32)

def Json.ofString? (s : Option String) : Json := ofOption .str s

def Location.encode (l : Location) : Json :=
  .obj [("line", ofUInt32 l.line), ("column", ofUInt32 l.column)]

def Decorator.encode : Decorator → Json
  | .none => .obj [("kind", .str "none")]
  | .state => .obj [("kind", .str "state")]
  | .prop => .obj [("kind", .str "prop")]
  | .link => .obj [("kind", .str "link")]
  | .provide key => .obj [("kind", .str "provide"), ("key", .ofString? key)]
  | .consume key => .obj [("kind", .str "consume"), ("key", .ofString? key)]

def SharedRole.name : SharedRole → String
  | .provider => "provider"
  | .consumer => "consumer"

def BindingKind.encode : BindingKind → Json
  | .ownedSimple => .obj [("kind", .str "owned-simple")]
  | .oneWay => .obj [("kind", .str "one-way")]
  | .twoWay => .obj [("kind", .str "two-way")]
  | .shared key role => .obj [("kind", .str "shared"), ("key", .str key), ("role", .str role.name)]

def Field.members (f : Field) : List (String × Json) :=
  [("name", .str f.name), ("valueType", .str f.valueType), ("decorator", f.decorator.encode),
   ("initializer", .ofString? f.initializer), ("location", f.location.encode)]

def Wrapper.members (w : Wrapper) : List (String × Json) :=
  [("name", .str w.name), ("sourceField", .str w.sourceField), ("valueType", .str w.valueType),
   ("binding", w.binding.encode), ("initializer", .ofString? w.initializer),
   ("location", w.location.encode)]

def Accessors.members (a : Accessors) : List (String × Json) :=
  [("name", .str a.name), ("backing", .str a.backing), ("valueType", .str a.valueType)]

def Argument.encode (a : Argument) : Json :=
  .obj [("name", .ofString? a.name), ("value", .str a.value)]

def Attribute.encode (a : Attribute) : Json :=
  .obj [("method", .str a.method), ("args", ofStrings a.args)]

def BoundValue.encode : BoundValue → Json
  | .expression code => .obj [("kind", .str "expression"), ("code", .str code)]
  | .wrapper code field =>
    .obj [("kind", .str "wrapper"), ("code", .str code), ("field", .str field)]

def BoundArgument.encode (b : BoundArgument) : Json :=
  .obj [("field", .str b.field), ("binding", b.binding.encode), ("value", b.value.encode)]

def Role.encode : Role → Json
  | .element => .obj [("kind", .str "element")]
  | .component bindings =>
    .obj [("kind", .str "component"), ("bindings", .arr (bindings.map BoundArgument.encode))]
  | .conditional site => .obj [("kind", .str "conditional"), ("site", ofUInt32 site)]
  | .arm site branchId =>
    .obj [("kind", .str "arm"), ("site", ofUInt32 site), ("branchId", ofUInt32 branchId)]
  | .loop => .obj [("kind", .str "loop")]

def OpenMarker.members (m : OpenMarker) : List (String × Json) :=
  [("component", .str m.component), ("args", ofStrings m.args),
   ("attributes", .arr (m.attributes.map Attribute.encode)), ("role", m.role.encode),
   ("location", m.location.encode)]

def CloseMarker.members (m : CloseMarker) : List (String × Json) :=
  [("component", .str m.component), ("branchId", ofOption ofUInt32 m.branchId)]

mutual

def Stmt.encode : Stmt → Json
  | .element head children =>
    .obj [("type", .str "element"), ("name", .str head.name),
      ("args", .arr (head.args.map Argument.encode)),
      ("chain", .arr (head.chain.map Attribute.encode)),
      ("children", .arr (Stmt.encodeAll children)), ("location", head.location.encode)]
  | .choice arms location =>
    .obj [("type", .str "if"), ("arms", .arr (Stmt.encodeArms arms)),
      ("location", location.encode)]
  | .forEach loop body =>
    .obj [("type", .str "for-each"), ("source", .str loop.source), ("itemVar", .str loop.itemVar),
      ("indexVar", .ofString? loop.indexVar), ("keyGenerator", .ofString? loop.keyGenerator),
      ("body", .arr (Stmt.encodeAll body)), ("location", loop.location.encode)]
  | .code text location =>
    .obj [("type", .str "statement"), ("code", .str text), ("location", location.encode)]
  | .opening marker => .obj (("type", .str "open") :: marker.members)
  | .closing marker => .obj (("type", .str "close") :: marker.members)
  | .branch site arms location =>
    .obj [("type", .str "branch"), ("site", ofUInt32 site),
      ("arms", .arr (Stmt.encodeBranchArms arms)), ("location", location.encode)]
  | .items params keyGenerator body =>
    .obj [("type", .str "item-generator"), ("params", ofStrings params),
      ("keyGenerator", .ofString? keyGenerator), ("body", .arr (Stmt.encodeAll body))]

def Stmt.encodeAll : List Stmt → List Json
  | [] => []
  | s :: rest => s.encode :: Stmt.encodeAll rest

def Stmt.encodeArms : List (Arm Stmt) → List Json
  | [] => []
  | ⟨condition, body⟩ :: rest =>
    .obj [("condition", .ofString? condition), ("body", .arr (Stmt.encodeAll body))] ::
      Stmt.encodeArms rest

def Stmt.encodeBranchArms : List (BranchArm Stmt) → List Json
  | [] => []
  | ⟨condition, branchId, body⟩ :: rest =>
    .obj [("condition", .ofString? condition), ("branchId", ofUInt32 branchId),
      ("body", .arr (Stmt.encodeAll body))] ::
      Stmt.encodeBranchArms rest

end

def Stmt.encodeBody (body : List Stmt) : Json := .arr (Stmt.encodeAll body)

def Method.members (m : Method) : List (String × Json) :=
  [("name", .str m.name), ("params", ofStrings m.params), ("isBuilder", .bool m.isBuilder),
   ("body", Stmt.encodeBody m.body), ("location", m.location.encode)]

def Member.encode : Member → Json
  | .field f => .obj (("member", .str "field") :: f.members)
  | .wrapper w => .obj (("member", .str "wrapper") :: w.members)
  | .accessors a => .obj (("member", .str "accessors") :: a.members)
  | .method m => .obj (("member", .str "method") :: m.members)

def Render.encode (r : Render) : Json :=
  .obj [("name", .str r.name), ("body", Stmt.encodeBody r.body)]

def Component.encode (c : Component) : Json :=
  .obj [("name", .str c.name), ("isEntry", .bool c.isEntry),
    ("members", .arr (c.members.map Member.encode)), ("render", c.render.encode),
    ("location", c.location.encode)]

def Module.encode (m : Module) : Json :=
  .obj [("filePath", .str m.filePath), ("components", .arr (m.components.map Component.encode))]

def Report.encode (r : Report) : Json :=
  .obj [("code", .str r.code), ("errorType", .str r.errorType), ("message", .str r.message),
    ("guarantee", .str r.guarantee), ("file", .str r.file), ("line", ofUInt32 r.location.line),
    ("column", ofUInt32 r.location.column), ("context", .ofString? r.context),
    ("hints", ofStrings r.hints)]

end ReactiveView
