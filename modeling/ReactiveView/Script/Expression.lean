import ReactiveView.Script.Class

/-!
# Expressions

Rules for expressions, from the loosest to the tightest: comma lists, assignments and arrow
functions, conditionals, binary operators, unary operators, calls and members, primary
expressions.
-/

namespace ReactiveView.Script

open Parse

/-! ## Operators -/

def precedence? (k : TokenKind) : Option Nat := match k with
  | .punct p =>
    if p = "??" then some 1
    else if p = "||" then some 2
    else if p = "&&" then some 3
    else if p = "|" then some 4
    else if p = "^" then some 5
    else if p = "&" then some 6
    else if ["==", "!=", "===", "!=="].contains p then some 7
    else if ["<", ">", "<=", ">="].contains p then some 8
    else if ["<<", ">>", ">>>"].contains p then some 9
    else if p = "+" || p = "-" then some 10
    else if p = "*" || p = "/" || p = "%" then some 11
    else if p = "**" then some 12
    else none
  | .name word false =>
    if ["in", "instanceof", "as", "satisfies"].contains word then some 8 else none
  | _ => none

def compoundAssignments : List String :=
  ["+=", "-=", "*=", "/=", "%=", "**=", "<<=", ">>=", ">>>=", "&=", "|=", "^=", "&&=", "||=", "??="]

def isUnaryOperator (k : TokenKind) : Bool := match k with
  | .punct p => ["+", "-", "~", "!"].contains p
  | .name word false => ["typeof", "void", "delete"].contains word
  | _ => false

/-- Take a closing angle bracket together with what follows it as one operator. -/
def joinAngle : Parse Unit := do
  if ← sees ">" then
    let c ← get
    match anglePuncts.find? fun p => p.toList.isPrefixOf ('>' :: c.rest) with
    | some p =>
      set { c with
        token := { c.token with kind := .punct p, stop := c.token.start + p.length }
        rest := c.rest.drop (p.length - 1) }
    | none => return

/-! ## Type arguments in expressions -/

def startsExpression (k : TokenKind) : Bool := match k with
  | .name word _ => isIdentifier word ||
    ["this", "super", "null", "true", "false", "function", "class", "new", "import", "typeof",
     "void", "delete"].contains word
  | .string | .number | .template _ _ | .privateName => true
  | .punct p =>
    ["(", "[", "\x7b", "/", "/=", "@", "+", "-", "~", "!", "++", "--", "<"].contains p
  | .eof => false

/-- Whether what follows a list between angle brackets shows it to be type arguments. -/
def canFollowTypeArguments : Parse Bool := do
  match ← kind with
  | .punct "(" | .template _ _ => return true
  | .punct "<" | .punct ">" | .punct "+" | .punct "-" => return false
  | k => return (← onNewLine) || (precedence? k).isSome || !startsExpression k

def typeArgumentsInExpression (self : Grammar) : Parse (List Node) := do
  openAngle
  let parts ← commaList ">" (self .type)
  require (!parts.isEmpty)
  joinAngle
  expect ">"
  require (← canFollowTypeArguments)
  return parts

/-! ## Objects and arrays -/

def objectProperty (self : Grammar) : Parse Node := do
  if ← eat "..." then return .mk .spread [← self (.assignment true)]
  let async ← eatModifier true "async"
  if ← eatModifier false "get" then
    let key ← propertyName self
    return .mk .objectMethod [key, ← functionRest self false false (some 0)]
  if ← eatModifier false "set" then
    let key ← propertyName self
    return .mk .objectMethod [key, ← functionRest self false false (some 1)]
  let generator ← eat "*"
  let short ← identifier?
  let key ← propertyName self
  if generator || (← sees "(") || (← sees "<") then
    return .mk .objectMethod [key, ← functionRest self async generator none]
  require (!async)
  match short with
  | some name =>
    if ← eat ":" then return .mk .property [key, ← self (.assignment true)]
    let name := Node.mk (.ident name) []
    if ← eat "=" then return .mk .shorthandDefault [name, ← self (.assignment true)]
    else return .mk .shorthand [name]
  | none =>
    expect ":"
    return .mk .property [key, ← self (.assignment true)]

def objectLiteral (self : Grammar) : Parse Node := do
  expect "\x7b"
  let parts ← within Context.bracketed (commaList "\x7d" (objectProperty self))
  expect "\x7d"
  return .mk .object parts

def spreadable (self : Grammar) : Parse Node := do
  if ← eat "..." then return .mk .spread [← self (.assignment true)]
  else self (.assignment true)

def arrayLiteral (self : Grammar) : Parse Node := do
  expect "["
  let (parts, trailing) ← within Context.bracketed <| loop (fun (state : List Node × Bool) => do
    let (parts, _) := state
    if ← sees "]" then return none
    if ← eat "," then return some (.mk .hole [] :: parts, false)
    let part ← spreadable self
    if ← eat "," then return some (part :: parts, true)
    require (← sees "]")
    return some (part :: parts, false)) ([], false)
  expect "]"
  return .mk (.array trailing) parts.reverse

def arguments (self : Grammar) : Parse (List Node) := do
  expect "("
  let parts ← within Context.bracketed (commaList ")" (spreadable self))
  expect ")"
  return parts

/-! ## Primary expressions -/

/-- One or more expressions in parentheses, without a comma after the last. -/
def parenthesized (self : Grammar) : Parse Node := do
  expect "("
  let parts ← within Context.bracketed (separated "," (self (.assignment true)))
  expect ")"
  match parts with
  | [part] => return .mk .paren [part]
  | _ => return .mk .paren [.group parts]

def functionExpression (self : Grammar) (async : Bool) : Parse Node := do
  expectWord "function"
  let generator ← eat "*"
  within (Context.inFunction async generator) do
    if (← identifier?).isSome then advance
  functionRest self async generator none

def isAsyncFunction : Parse Bool := looks do
  expectWord "async"
  return (← seesWord "function") && !(← onNewLine)

def regExp : Parse Node := do
  let c ← get
  let body := if c.token.kind = .punct "/=" then '=' :: c.rest else c.rest
  match afterRegExp? body with
  | some rest =>
    set { c with rest := rest }
    advance
    return .leaf
  | none => failure

def importExpression (self : Grammar) : Parse Node := do
  expectWord "import"
  if ← eat "." then
    if ← eatWord "meta" then return .leaf
    require ((← seesWord "defer") || (← seesWord "source"))
    advance
  expect "("
  let parts ← within Context.bracketed (commaList ")" (self (.assignment true)))
  require (parts.length = 1 || parts.length = 2)
  expect ")"
  return .group parts

def newExpression (self : Grammar) : Parse Node := do
  expectWord "new"
  if ← eat "." then
    expectWord "target"
    return .leaf
  let target ← self .constructed
  if ← sees "(" then return .group (target :: (← arguments self)) else return .group [target]

def primary (self : Grammar) : Parse Node := do
  match ← kind with
  | .string | .number =>
    advance
    return .leaf
  | .template _ _ => templateRest false (within Context.bracketed (self .expression))
  | .punct "(" => parenthesized self
  | .punct "[" => arrayLiteral self
  | .punct "\x7b" => objectLiteral self
  | .punct "/" => regExp
  | .punct "/=" => regExp
  | .punct "@" =>
    let marks ← decorators self
    return .group (marks ++ [← classRule self false])
  | .name "this" false =>
    advance
    return .mk .this []
  | .name "function" false => functionExpression self false
  | .name "class" false => classRule self false
  | .name "new" false => newExpression self
  | .name "import" false => importExpression self
  | .name "super" false =>
    advance
    require ((← sees "(") || (← sees ".") || (← sees "["))
    return .leaf
  | .name word escaped =>
    if !escaped && ["true", "false", "null"].contains word then
      advance
      return .leaf
    else if ← isAsyncFunction then
      advance
      functionExpression self true
    else
      let name ← identifier
      return .mk (.ident name) []
  | _ => failure

/-! ## Members and calls -/

/-- An expression with what has been read after it; `optional` if an optional link was among
    that. -/
structure Linked where
  node : Node
  optional : Bool := false

def memberAfter (object : Node) : Parse Node := do
  let t ← token
  match t.kind with
  | .privateName =>
    advance
    return .mk .index [object]
  | .name name _ =>
    advance
    return .mk (.member name t.start t.stop) [object]
  | _ => failure

/-- Whether an optional link to a member, and not to a call, comes next. -/
def isOptionalMember : Parse Bool := looks do
  expect "?."
  match ← kind with
  | .name _ _ | .privateName | .template _ _ => return true
  | .punct p => return p = "["
  | _ => return false

def computedMember (self : Grammar) (object : Node) : Parse Node := do
  expect "["
  let index ← within Context.bracketed (self .expression)
  expect "]"
  return .mk .index [object, index]

/-- A template with a tag.  An optional link before it is an error. -/
def taggedTemplate (self : Grammar) (l : Linked) : Parse Node := do
  require (!l.optional)
  return .group [l.node, ← templateRest true (within Context.bracketed (self .expression))]

def memberStep (self : Grammar) (l : Linked) : Parse (Option Linked) := do
  let link ← isOptionalMember
  if link then advance
  let l : Linked := { l with optional := l.optional || link }
  if link && !(← sees "[") then
    match ← kind with
    | .template _ _ => failure
    | _ => return some { l with node := ← memberAfter l.node }
  if ← eat "." then return some { l with node := ← memberAfter l.node }
  if (link || !(← read).decorator) && (← sees "[") then
    return some { l with node := ← computedMember self l.node }
  match ← kind with
  | .template _ _ => return some { l with node := ← taggedTemplate self l }
  | .punct "!" =>
    if ← onNewLine then return none
    advance
    return some { l with node := .mk .typed [l.node] }
  | .punct p =>
    if p = "<" || p = "<<" then
      match ← attempt (typeArgumentsInExpression self) with
      | some types => return some { l with node := .mk .instantiated (l.node :: types) }
      | none => return none
    else return none
  | _ => return none

def memberChain (self : Grammar) (l : Linked) : Parse Linked := loop (memberStep self) l

def callee (n : Node) : List Node := match n with
  | .mk .instantiated (callee :: types) => callee :: types
  | n => [n]

def callStep (self : Grammar) (l : Linked) : Parse (Option Linked) := do
  let link ← eat "?."
  let l : Linked := { l with optional := l.optional || link }
  let types ← if link then attempt (typeArgumentsInExpression self) else pure none
  if types.isSome || (← sees "(") then
    let head := if link then l.node :: types.getD [] else callee l.node
    let node := Node.mk .call (head ++ (← arguments self))
    return some (← memberChain self { l with node })
  require (!link)
  return none

def leftHandRule (self : Grammar) : Parse Node := do
  let l ← memberChain self { node := ← primary self }
  let l ← loop (callStep self) l
  if l.optional then return .mk .chain [l.node] else return l.node

def constructedRule (self : Grammar) : Parse Node := do
  let l ← memberChain self { node := ← primary self }
  require (!l.optional)
  return l.node

/-! ## Unary and binary operators -/

def seesUpdate : Parse Bool := do return (← sees "++") || (← sees "--")

def operandOnLine : Parse Bool :=
  peekIs fun t => !t.newline && match t.kind with
    | .name _ _ | .string | .number => true
    | _ => false

def unaryRule (self : Grammar) : Parse Node := do
  if isUnaryOperator (← kind) then
    advance
    return .mk .unary [← self .unary]
  if ← sees "<" then
    advance
    let type ← self .type
    expect ">"
    let part ← self .unary
    require (!(← sees "**"))
    return .mk .typed [part, type]
  if ← seesWord "await" then
    if (← read).allowAwait then
      advance
      return .mk .unary [← self .unary]
    require (!(← operandOnLine))
  if ← seesUpdate then
    advance
    let target ← self .unary
    require target.isSimpleTarget
    return .group [target]
  let part ← leftHandRule self
  if (← seesUpdate) && !(← onNewLine) then
    advance
    require part.isSimpleTarget
    return .group [part]
  return part

/-- Two operands with an operator.  An exponent has no unary operator on its left, and `??` does
    not mix with `||` and `&&` without parentheses. -/
def combine (operator : TokenKind) (left right : Node) : Option Node :=
  if operator = .punct "**" && left.kind = .unary then none
  else if operator = .punct "??" && (left.kind = .logical || right.kind = .logical) then none
  else if operator = .punct "||" || operator = .punct "&&" then some (.mk .logical [left, right])
  else some (.group [left, right])

/-- One binary operator with its right operand, if it binds tighter than a level. -/
def binaryStep (self : Grammar) (level : Nat) (left : Node) : Parse (Option Node) := do
  joinAngle
  let operator ← kind
  match precedence? operator with
  | none => return none
  | some p =>
    if p ≤ level && !(operator = .punct "**" && p = level) then return none
    if operator = .name "in" false && !(← read).allowIn then return none
    if operator = .name "as" false || operator = .name "satisfies" false then
      if ← onNewLine then return none
      advance
      return some (.mk .typed [left, ← self .type])
    advance
    let right ← self (.binary p)
    match combine operator left right with
    | some node => return some node
    | none => failure

def binaryRule (self : Grammar) (level : Nat) : Parse Node := do
  if (← kind) = .privateName then
    require (← read).allowIn
    advance
    expectWord "in"
    let right ← self (.binary 8)
    loop (binaryStep self level) (.group [right])
  else
    loop (binaryStep self level) (← self .unary)

/-! ## Functions and assignments -/

structure ArrowHead where
  async : Bool
  typed : Bool
  parts : List Node

def arrowHead (self : Grammar) : Parse ArrowHead := do
  let async ← looks do
    expectWord "async"
    return ((← sees "(") || (← sees "<")) && !(← onNewLine)
  if async then advance
  require ((← sees "(") || (← sees "<"))
  within (fun ctx => { ctx with allowAwait := ctx.allowAwait || async }) do
    let types ← typeParameters self
    let params ← parameters self
    let type ← returnAnnotation self
    require (← sees "=>")
    return ⟨async, !type.isEmpty, types ++ params ++ type⟩

def arrowBody (self : Grammar) (async returnType : Bool) : Parse Node := do
  require (!(← onNewLine))
  expect "=>"
  within (Context.inFunction async false) do
    if ← sees "\x7b" then functionBody self else self (.assignment returnType)

/-- An arrow function with parameters in parentheses.  Where a colon may belong to a conditional
    around it, it has a return type only if another colon follows. -/
def arrow? (self : Grammar) (returnType : Bool) : Parse (Option Node) := do
  let start ← get
  match ← attempt (arrowHead self) with
  | none => return none
  | some head =>
    let body ← arrowBody self head.async returnType
    if head.typed && !returnType && !(← sees ":") then
      set start
      return none
    return some (.group (head.parts ++ [body]))

def isAsyncArrow : Parse Bool := looks do
  expectWord "async"
  require (!(← onNewLine))
  let _ ← identifier
  return (← sees "=>") && !(← onNewLine)

def yieldExpression (self : Grammar) : Parse Node := do
  expectWord "yield"
  if ← onNewLine then return .leaf
  let delegate ← eat "*"
  let ends ← match ← kind with
    | .eof => pure true
    | .name "in" false => pure true
    | .punct p => pure ([";", "\x7d", ")", "]", ":", ","].contains p)
    | _ => pure false
  if ends && !delegate then return .leaf
  return .group [← self (.assignment true)]

def conditionalRest (self : Grammar) (returnType : Bool) (test : Node) : Parse Node := do
  if ← eat "?" then
    let yes ← within (fun ctx => { ctx with allowIn := true }) (self (.assignment false))
    expect ":"
    return .group [test, yes, ← self (.assignment returnType)]
  else return test

/-- One expression: an assignment, an arrow function, a conditional or what binds tighter. -/
def assignmentRule (self : Grammar) (returnType : Bool) : Parse Node := do
  if ← seesWord "yield" then
    if (← read).allowYield then return ← yieldExpression self
    require (!(← operandOnLine))
  match ← arrow? self returnType with
  | some part => return part
  | none => pure ()
  if ← isAsyncArrow then
    advance
    advance
    return .group [← arrowBody self true returnType]
  let left ← self (.binary 0)
  match ← kind with
  | .punct "=>" =>
    if left.isIdent then return .group [← arrowBody self false returnType]
    else conditionalRest self returnType left
  | .punct "=" =>
    match left.toTarget? with
    | some target =>
      advance
      return .mk .assign [target, ← self (.assignment returnType)]
    | none => failure
  | .punct p =>
    if compoundAssignments.contains p then
      require left.isSimpleTarget
      advance
      return .group [left, ← self (.assignment returnType)]
    else conditionalRest self returnType left
  | _ => return left

def expressionRule (self : Grammar) : Parse Node := do
  match ← separated "," (self (.assignment true)) with
  | [part] => return part
  | parts => return .group parts

end ReactiveView.Script
