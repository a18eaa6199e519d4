import ReactiveView.Decl.Basic
import ReactiveView.Json.Record

/-!
# Declarations from JSON

Reading is more liberal than writing: fields with a default may be missing, unknown fields are
skipped, and records may be arrays.  Statements nest, so their reader takes a bound on the number
of levels; the height of the document is always enough.
-/

namespace ReactiveView

open Json (Doc)
open Json.Doc (fields? required orElse optional list? string? bool? uint32? tagged? unit? choice?)

def Location.decode? (d : Doc) : Option Location := do
  match ← fields? ["line", "column"] d with
  | [line, column] => return ⟨← required uint32? line, ← required uint32? column⟩
  | _ => none

def Json.Doc.strings? : Doc → Option (List String) := list? string?

def Decorator.variants : List String := ["none", "state", "prop", "link", "provide", "consume"]

def Decorator.decode? (d : Doc) : Option Decorator := do
  let key? (d : Doc) : Option (Option String) := do
    match ← fields? ["key"] d with
    | [key] => optional string? key
    | _ => Option.none
  match ← tagged? "kind" Decorator.variants true d with
  | ("none", d) => do unit? d; return .none
  | ("state", d) => do unit? d; return .state
  | ("prop", d) => do unit? d; return .prop
  | ("link", d) => do unit? d; return .link
  | ("provide", d) => return .provide (← key? d)
  | ("consume", d) => return .consume (← key? d)
  | _ => Option.none

def SharedRole.decode? (d : Doc) : Option SharedRole := do
  match ← choice? ["provider", "consumer"] d with
  | "provider" => return .provider
  | _ => return .consumer

def BindingKind.variants : List String := ["owned-simple", "one-way", "two-way", "shared"]

def BindingKind.decode? (d : Doc) : Option BindingKind := do
  match ← tagged? "kind" BindingKind.variants true d with
  | ("owned-simple", d) => do unit? d; return .ownedSimple
  | ("one-way", d) => do unit? d; return .oneWay
  | ("two-way", d) => do unit? d; return .twoWay
  | ("shared", d) =>
    match ← fields? ["key", "role"] d with
    | [key, role] => return .shared (← required string? key) (← required SharedRole.decode? role)
    | _ => none
  | _ => none

def Field.decode? (d : Doc) : Option Field := do
  match ← fields? ["name", "valueType", "decorator", "initializer", "location"] d with
  | [name, valueType, decorator, initializer, location] =>
    return {
      name := ← required string? name
      valueType := ← orElse "any" string? valueType
      decorator := ← orElse .none Decorator.decode? decorator
      initializer := ← optional string? initializer
      location := ← orElse {} Location.decode? location }
  | _ => none

def Wrapper.decode? (d : Doc) : Option Wrapper := do
  match ← fields? ["name", "sourceField", "valueType", "binding", "initializer", "location"] d with
  | [name, sourceField, valueType, binding, initializer, location] =>
    return {
      name := ← required string? name
      sourceField := ← required string? sourceField
      valueType := ← required string? valueType
      binding := ← required BindingKind.decode? binding
      initializer := ← optional string? initializer
      location := ← orElse {} Location.decode? location }
  | _ => none

def Accessors.decode? (d : Doc) : Option Accessors := do
  match ← fields? ["name", "backing", "valueType"] d with
  | [name, backing, valueType] =>
    return ⟨← required string? name, ← required string? backing, ← required string? valueType⟩
  | _ => none

def Argument.decode? (d : Doc) : Option Argument := do
  match ← fields? ["name", "value"] d with
  | [name, value] => return ⟨← optional string? name, ← required string? value⟩
  | _ => none

def Attribute.decode? (d : Doc) : Option Attribute := do
  match ← fields? ["method", "args"] d with
  | [method, args] => return ⟨← required string? method, ← orElse [] Doc.strings? args⟩
  | _ => none

def BoundValue.variants : List String := ["expression", "wrapper"]

def BoundValue.decode? (d : Doc) : Option BoundValue := do
  match ← tagged? "kind" BoundValue.variants true d with
  | ("expression", d) =>
    match ← fields? ["code"] d with
    | [code] => return .expression (← required string? code)
    | _ => none
  | ("wrapper", d) =>
    match ← fields? ["code", "field"] d with
    | [code, field] => return .wrapper (← required string? code) (← required string? field)
    | _ => none
  | _ => none

def BoundArgument.decode? (d : Doc) : Option BoundArgument := do
  match ← fields? ["field", "binding", "value"] d with
  | [field, binding, value] =>
    return ⟨← required string? field, ← required BindingKind.decode? binding,
      ← required BoundValue.decode? value⟩
  | _ => none

def Role.variants : List String := ["element", "component", "conditional", "arm", "loop"]

def Role.decode? (d : Doc) : Option Role := do
  match ← tagged? "kind" Role.variants true d with
  | ("element", d) => do unit? d; return .element
  | ("component", d) =>
    match ← fields? ["bindings"] d with
    | [bindings] => return .component (← required (list? BoundArgument.decode?) bindings)
    | _ => none
  | ("conditional", d) =>
    match ← fields? ["site"] d with
    | [site] => return .conditional (← required uint32? site)
    | _ => none
  | ("arm", d) =>
    match ← fields? ["site", "branchId"] d with
    | [site, branchId] => return .arm (← required uint32? site) (← required uint32? branchId)
    | _ => none
  | ("loop", d) => do unit? d; return .loop
  | _ => none

def OpenMarker.decode? (d : Doc) : Option OpenMarker := do
  match ← fields? ["component", "args", "attributes", "role", "location"] d with
  | [component, args, attributes, role, location] =>
    return {
      component := ← required string? component
      args := ← orElse [] Doc.strings? args
      attributes := ← orElse [] (list? Attribute.decode?) attributes
      role := ← required Role.decode? role
      location := ← orElse {} Location.decode? location }
  | _ => none

def CloseMarker.decode? (d : Doc) : Option CloseMarker := do
  match ← fields? ["component", "branchId"] d with
  | [component, branchId] => return ⟨← required string? component, ← optional uint32? branchId⟩
  | _ => none

def Arm.decode? (stmt? : Doc → Option Stmt) (d : Doc) : Option (Arm Stmt) := do
  match ← fields? ["condition", "body"] d with
  | [condition, body] => return ⟨← optional string? condition, ← orElse [] (list? stmt?) body⟩
  | _ => none

def BranchArm.decode? (stmt? : Doc → Option Stmt) (d : Doc) : Option (BranchArm Stmt) := do
  match ← fields? ["condition", "branchId", "body"] d with
  | [condition, branchId, body] =>
    return ⟨← optional string? condition, ← required uint32? branchId,
      ← required (list? stmt?) body⟩
  | _ => none

def Stmt.variants : List String :=
  ["element", "if", "for-each", "statement", "open", "close", "branch", "item-generator"]

/-- A statement without its tag, given the reader of nested statements. -/
def Stmt.decodeVariant? (stmt? : Doc → Option Stmt) (variant : String) (d : Doc) :
    Option Stmt := do
  match variant with
  | "element" =>
    match ← fields? ["name", "args", "chain", "children", "location"] d with
    | [name, args, chain, children, location] =>
      let head : Element := {
        name := ← required string? name
        args := ← orElse [] (list? Argument.decode?) args
        chain := ← orElse [] (list? Attribute.decode?) chain
        location := ← orElse {} Location.decode? location }
      return .element head (← orElse [] (list? stmt?) children)
    | _ => none
  | "if" =>
    match ← fields? ["arms", "location"] d with
    | [arms, location] =>
      return .choice (← required (list? (Arm.decode? stmt?)) arms)
        (← orElse {} Location.decode? location)
    | _ => none
  | "for-each" =>
    match ← fields? ["source", "itemVar", "indexVar", "keyGenerator", "body", "location"] d with
    | [source, itemVar, indexVar, keyGenerator, body, location] =>
      let loop : Loop := {
        source := ← required string? source
        itemVar := ← required string? itemVar
        indexVar := ← optional string? indexVar
        keyGenerator := ← optional string? keyGenerator
        location := ← orElse {} Location.decode? location }
      return .forEach loop (← orElse [] (list? stmt?) body)
    | _ => none
  | "statement" =>
    match ← fields? ["code", "location"] d with
    | [text, location] =>
      return .code (← required string? text) (← orElse {} Location.decode? location)
    | _ => none
  | "open" => return .opening (← OpenMarker.decode? d)
  | "close" => return .closing (← CloseMarker.decode? d)
  | "branch" =>
    match ← fields? ["site", "arms", "location"] d with
    | [site, arms, location] =>
      return .branch (← required uint32? site)
        (← required (list? (BranchArm.decode? stmt?)) arms)
        (← orElse {} Location.decode? location)
    | _ => none
  | "item-generator" =>
    match ← fields? ["params", "keyGenerator", "body"] d with
    | [params, keyGenerator, body] =>
      return .items (← required Doc.strings? params) (← optional string? keyGenerator)
        (← required (list? stmt?) body)
    | _ => none
  | _ => none

/-- A statement with at most `levels` levels of statements. -/
def Stmt.decodeUpTo? : Nat → Bool → Doc → Option Stmt
  | 0, _, _ => none
  | levels + 1, nested, d => do
    let (variant, d) ← tagged? "type" Stmt.variants nested d
    Stmt.decodeVariant? (Stmt.decodeUpTo? levels true) variant d

/-- A statement; `nested` if it stands inside another tagged record. -/
def Stmt.decode? (nested : Bool) (d : Doc) : Option Stmt := Stmt.decodeUpTo? d.height nested d

def Method.decode? (d : Doc) : Option Method := do
  match ← fields? ["name", "params", "isBuilder", "body", "location"] d with
  | [name, params, isBuilder, body, location] =>
    return {
      name := ← required string? name
      params := ← orElse [] Doc.strings? params
      isBuilder := ← orElse false bool? isBuilder
      body := ← orElse [] (list? (Stmt.decode? true)) body
      location := ← orElse {} Location.decode? location }
  | _ => none

def Member.variants : List String := ["field", "wrapper", "accessors", "method"]

def Member.decode? (d : Doc) : Option Member := do
  match ← tagged? "member" Member.variants false d with
  | ("field", d) => return .field (← Field.decode? d)
  | ("wrapper", d) => return .wrapper (← Wrapper.decode? d)
  | ("accessors", d) => return .accessors (← Accessors.decode? d)
  | ("method", d) => return .method (← Method.decode? d)
  | _ => none

def Render.decode? (d : Doc) : Option Render := do
  match ← fields? ["name", "body"] d with
  | [name, body] =>
    return ⟨← orElse buildName string? name, ← orElse [] (list? (Stmt.decode? false)) body⟩
  | _ => none

def Component.decode? (d : Doc) : Option Component := do
  match ← fields? ["name", "isEntry", "members", "render", "location"] d with
  | [name, isEntry, members, render, location] =>
    return {
      name := ← required string? name
      isEntry := ← orElse false bool? isEntry
      members := ← orElse [] (list? Member.decode?) members
      render := ← required Render.decode? render
      location := ← orElse {} Location.decode? location }
  | _ => none

def Module.decode? (d : Doc) : Option Module := do
  match ← fields? ["filePath", "components"] d with
  | [filePath, components] =>
    return ⟨← orElse "" string? filePath, ← required (list? Component.decode?) components⟩
  | _ => none

end ReactiveView
