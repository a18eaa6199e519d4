import ReactiveView.Script.Expression

/-!
# Statements

Rules for statements and declarations.
-/

namespace ReactiveView.Script

open Parse

/-! ## Declarations of variables -/

/-- One variable with its type and value.  Outside the head of a loop, constants and patterns need
    a value. -/
def declarator (self : Grammar) (constant : Bool) (checked : Bool) : Parse Node := do
  let isPattern := (← sees "[") || (← sees "\x7b")
  let target ← self .pattern
  if !isPattern && (← sees "!") && !(← onNewLine) then advance
  let type ← typeAnnotation self
  if ← eat "=" then
    return .group (target :: (type ++ [← self (.assignment true)]))
  require (!checked || (← read).ambient || !(constant || isPattern))
  return .group (target :: type)

def declarators (self : Grammar) (constant checked : Bool) : Parse Node := do
  return .group (← separated "," (declarator self constant checked))

def variableStatement (self : Grammar) (constant : Bool) : Parse Node := do
  advance
  let part ← declarators self constant true
  endStatement
  return part

/-- A function as a statement.  Where a declaration is not allowed it is a plain function. -/
def functionStatement (self : Grammar) (single : Bool) : Parse Node := do
  let async ← eatWord "async"
  expectWord "function"
  let generator ← eat "*"
  require (!(single && (async || generator)))
  let _ ← identifier
  functionRest self async generator none

/-- Whether a declaration with `using`, after `await` or not, comes next. -/
def startsUsing : Parse Bool := looks do
  if ← eatWord "await" then require (!(← onNewLine))
  expectWord "using"
  return (← identifier?).isSome && !(← onNewLine)

def usingStatement (self : Grammar) : Parse Node := do
  let _ ← eatWord "await"
  advance
  require (!(← sees "[") && !(← sees "\x7b"))
  let part ← declarators self true true
  endStatement
  return part

/-! ## Control flow -/

def condition (self : Grammar) : Parse Node := do
  expect "("
  let part ← within Context.bracketed (self .expression)
  expect ")"
  return part

def countingRest (self : Grammar) (first : List Node) : Parse Node := do
  expect ";"
  let test ← if ← sees ";" then pure [] else do pure [← within Context.bracketed (self .expression)]
  expect ";"
  let next ← if ← sees ")" then pure [] else do pure [← within Context.bracketed (self .expression)]
  expect ")"
  return .group (first ++ test ++ next ++ [← self (.statement true)])

def collectionRest (self : Grammar) (target : Node) (awaited : Bool) : Parse Node := do
  let source ← if ← eatWord "of" then within Context.bracketed (self (.assignment true))
    else do
      require (!awaited)
      expectWord "in"
      within Context.bracketed (self .expression)
  expect ")"
  return .group [target, source, ← self (.statement true)]

def startsLoopDeclaration : Parse Bool := do
  if (← seesWord "var") || (← seesWord "const") then return true
  looks do
    expectWord "let"
    match ← kind with
    | .name word _ => return isIdentifier word
    | .punct p => return p = "[" || p = "\x7b"
    | _ => return false

def seesCollection : Parse Bool := do return (← seesWord "of") || (← seesWord "in")

def forStatement (self : Grammar) : Parse Node := do
  expectWord "for"
  let awaited ← if ← seesWord "await" then do
      require (← read).allowAwait
      advance
      pure true
    else pure false
  expect "("
  let part ← if ← sees ";" then pure none
    else if ← startsLoopDeclaration then do
      let constant ← seesWord "const"
      advance
      let loopVariables (checked : Bool) : Parse Node :=
        within (fun ctx => { ctx with allowIn := false }) (declarators self constant checked)
      let c ← get
      let part ← loopVariables false
      if !(← seesCollection) then
        set c
        let _ ← loopVariables true
      pure (some part)
    else do
      let isAsyncOf ← looks do
        expectWord "async"
        seesWord "of"
      let part ← within (fun ctx => { ctx with allowIn := false }) (self .expression)
      if ← seesCollection then
        require (awaited || !(isAsyncOf && (← seesWord "of") && part.isIdent))
        match part.toTarget? with
        | some target => pure (some target)
        | none => failure
      else pure (some part)
  match part with
  | some part =>
    if ← seesCollection then collectionRest self part awaited
    else
      require (!awaited)
      countingRest self [part]
  | none =>
    require (!awaited)
    countingRest self []

def switchCase (self : Grammar) : Parse Node := do
  let test ← if ← eatWord "default" then pure []
    else do
      expectWord "case"
      pure [← within Context.bracketed (self .expression)]
  expect ":"
  let parts ← loop (fun (parts : List Node) => do
    if (← seesWord "case") || (← seesWord "default") || (← sees "\x7d") then return none
    else return some ((← self (.statement false)) :: parts)) []
  return .group (test ++ parts.reverse)

def tryStatement (self : Grammar) : Parse Node := do
  expectWord "try"
  let body ← block self
  let handler ← if ← eatWord "catch" then do
      let target ← if ← eat "(" then do
          let target ← self .pattern
          let type ← typeAnnotation self
          expect ")"
          pure (target :: type)
        else pure []
      pure (target ++ [← block self])
    else pure []
  let last ← if ← eatWord "finally" then do pure [← block self] else pure []
  require (!(handler.isEmpty && last.isEmpty))
  return .group (body :: (handler ++ last))

def expressionStatement (self : Grammar) : Parse Node := do
  let part ← within Context.bracketed (self .expression)
  if part.isIdent then
    if ← eat ":" then return ← self (.statement true)
  endStatement
  return part

/-- A statement that starts with the word `let`, which may also be a name. -/
def letStatement (self : Grammar) (single : Bool) : Parse Node := do
  match ← peek with
  | none => failure
  | some next =>
    match next.kind with
    | .punct p =>
      if p = "." || p = "(" then within Context.bracketed (self .expression)
      else if p = "[" || p = "\x7b" then
        require (!single)
        variableStatement self false
      else expressionStatement self
    | .name word false =>
      if (precedence? next.kind).isSome && (word = "in" || word = "instanceof") then
        expressionStatement self
      else if single then expressionStatement self
      else variableStatement self false
    | .name _ true => if single then expressionStatement self else variableStatement self false
    | _ => expressionStatement self

/-! ## Declarations of types -/

def declarationModifiers : List String := ["declare", "abstract"]

/-- Whether a declaration of a type, or one with a modifier, comes next. -/
def startsTypeDeclaration : Parse Bool := looks do
  loop (fun () => do
    match ← kind with
    | .name word false =>
      if declarationModifiers.contains word && (← peekIs fun t => !t.newline) then
        advance
        return some ()
      else return none
    | _ => return none) ()
  match ← kind with
  | .name word false =>
    if ["var", "let", "const", "function", "class", "enum", "async"].contains word then return true
    advance
    let named := (← identifier?).isSome && !(← onNewLine)
    if word = "interface" || word = "type" then return named
    else if word = "module" || word = "namespace" then
      return named || ((← kind) = .string && !(← onNewLine))
    else if word = "global" then return ← sees "\x7b"
    else return false
  | _ => return false

def enumeration (self : Grammar) : Parse Node := do
  expectWord "enum"
  let _ ← identifier
  expect "\x7b"
  let parts ← commaList "\x7d" do
    let name ← propertyName self
    return .group (name :: (← defaultValue self))
  expect "\x7d"
  return .group parts

def typeDeclaration (self : Grammar) : Parse Node := do
  let ambient ← eatWord "declare"
  let abstracted ← eatWord "abstract"
  within (fun ctx => { ctx with ambient := ctx.ambient || ambient }) do
    require (!abstracted || (← seesWord "class"))
    match ← kind with
    | .name "interface" _ =>
      advance
      let _ ← identifier
      let types ← typeParameters self
      let bases ← if ← eatWord "extends" then separated "," (typeReference self) else pure []
      return .group (types ++ bases ++ [← typeMembers self])
    | .name "type" _ =>
      advance
      let _ ← identifier
      let types ← typeParameters self
      expect "="
      let type ← self .type
      endStatement
      return .group (types ++ [type])
    | .name "enum" _ => enumeration self
    | .name "class" _ => classRule self true
    | .name "function" _ => functionStatement self false
    | .name "async" _ => functionStatement self false
    | .name "var" _ => variableStatement self false
    | .name "let" _ => variableStatement self false
    | .name "const" _ =>
      if ← peekIs fun t => t.kind = .name "enum" false then
        advance
        enumeration self
      else variableStatement self true
    | .name "global" _ =>
      advance
      block self
    | .name _ _ =>
      advance
      if (← kind) = .string then advance
      else
        let _ ← identifier
        dottedRest
      if ← sees "\x7b" then block self
      else
        endStatement
        return .leaf
    | _ => failure

/-! ## Imports and exports -/

/-- A name inside an import or export, or a string. -/
def moduleName : Parse Unit := do
  if (← kind) = .string then advance
  else
    let _ ← anyName

def moduleNames : Parse Unit := do
  expect "\x7b"
  let _ ← commaList "\x7d" do
    let marked ← looks do
      expectWord "type"
      match ← kind with
      | .name "as" _ =>
        advance
        match ← kind with
        | .name "as" _ => return true
        | _ => return false
      | .name _ _ | .string => return true
      | _ => return false
    if marked then advance
    moduleName
    if ← eatWord "as" then moduleName
    return .leaf
  expect "\x7d"

def moduleSource (self : Grammar) : Parse Unit := do
  require ((← kind) = .string)
  advance
  if ((← seesWord "with") || (← seesWord "assert")) && !(← onNewLine) then
    advance
    let _ ← objectLiteral self

def importStatement (self : Grammar) : Parse Node := do
  expectWord "import"
  if (← kind) = .string then
    moduleSource self
    endStatement
    return .leaf
  let marked ← looks do
    expectWord "type"
    match ← kind with
    | .name "from" _ =>
      advance
      seesWord "from"
    | .name _ _ => return true
    | .punct p => return p = "\x7b" || p = "*"
    | _ => return false
  if marked then advance
  let named := (← identifier?).isSome
  if named then
    advance
    if ← eat "=" then
      let required ← looks do
        expectWord "require"
        sees "("
      if required then
        advance
        expect "("
        require ((← kind) = .string)
        advance
        expect ")"
      else
        let _ ← identifier
        dottedRest
      endStatement
      return .leaf
  if !named || (← eat ",") then
    if ← eat "*" then
      expectWord "as"
      let _ ← identifier
    else moduleNames
  expectWord "from"
  moduleSource self
  endStatement
  return .leaf

def defaultExport (self : Grammar) : Parse Node := do
  let marks ← decorators self
  if ← seesWord "class" then return .group (marks ++ [← classRule self false])
  let abstracted ← looks do
    expectWord "abstract"
    seesWord "class"
  if abstracted then
    advance
    return .group (marks ++ [← classRule self false])
  if ← seesWord "function" then return ← functionExpression self false
  if ← isAsyncFunction then
    advance
    return ← functionExpression self true
  let isInterface ← looks do
    expectWord "interface"
    return (← identifier?).isSome && !(← onNewLine)
  if isInterface then return ← typeDeclaration self
  let part ← bracketedValue self
  endStatement
  return part

def exportStatement (self : Grammar) : Parse Node := do
  expectWord "export"
  if ← eatWord "default" then return ← defaultExport self
  if ← eat "=" then
    let part ← bracketedValue self
    endStatement
    return part
  let isNamespace ← looks do
    expectWord "as"
    seesWord "namespace"
  if isNamespace then
    advance
    advance
    let _ ← identifier
    endStatement
    return .leaf
  let marked ← peekIs fun t => t.kind = .punct "\x7b" || t.kind = .punct "*"
  if (← seesWord "type") && marked then advance
  if ← eat "*" then
    if ← eatWord "as" then moduleName
    expectWord "from"
    moduleSource self
    endStatement
    return .leaf
  if ← sees "\x7b" then
    moduleNames
    if ← eatWord "from" then moduleSource self
    endStatement
    return .leaf
  if ← seesWord "import" then return ← importStatement self
  require ((← sees "@") || (← startsTypeDeclaration))
  self (.statement false)

/-! ## Statements -/

/-- A statement.  `single` right after a condition or label, where nothing may be declared. -/
def statementRule (self : Grammar) (single : Bool) : Parse Node := do
  match ← kind with
  | .punct "\x7b" => block self
  | .punct ";" =>
    advance
    return .leaf
  | .punct "@" =>
    let marks ← decorators self
    return .group (marks ++ [← decorated])
  | .name "if" false =>
    advance
    let test ← condition self
    let yes ← self (.statement true)
    if ← eatWord "else" then return .group [test, yes, ← self (.statement true)]
    else return .group [test, yes]
  | .name "do" false =>
    advance
    let body ← self (.statement true)
    expectWord "while"
    let test ← condition self
    let _ ← eat ";"
    return .group [body, test]
  | .name "while" false =>
    advance
    let test ← condition self
    return .group [test, ← self (.statement true)]
  | .name "with" false =>
    advance
    let test ← condition self
    return .group [test, ← self (.statement true)]
  | .name "for" false => forStatement self
  | .name "continue" false => jump
  | .name "break" false => jump
  | .name "switch" false =>
    advance
    let test ← condition self
    expect "\x7b"
    let cases ← itemsUntil "\x7d" (switchCase self)
    expect "\x7d"
    return .group (test :: cases)
  | .name "throw" false =>
    advance
    require (!(← onNewLine))
    let part ← within Context.bracketed (self .expression)
    endStatement
    return part
  | .name "try" false => tryStatement self
  | .name "debugger" false =>
    advance
    endStatement
    return .leaf
  | .name "return" false =>
    require (← read).allowReturn
    advance
    if (← sees ";") || (← onNewLine) || (← sees "\x7d") || (← atEnd) then
      endStatement
      return .leaf
    let part ← within Context.bracketed (self .expression)
    endStatement
    return part
  | .name "class" false =>
    require (!single)
    classRule self true
  | .name "function" false => functionStatement self single
  | .name "var" false => variableStatement self false
  | .name "const" false =>
    if ← peekIs fun t => t.kind = .name "enum" false then typeDeclaration self
    else
      require (!single)
      variableStatement self true
  | .name "let" false => letStatement self single
  | .name "export" false => exportStatement self
  | .name "import" false =>
    if ← peekIs fun t => t.kind = .punct "(" || t.kind = .punct "." then expressionStatement self
    else importStatement self
  | .name word false =>
    if ← isAsyncFunction then functionStatement self single
    else if (word = "using" || word = "await") && (← startsUsing) then
      require (!single)
      usingStatement self
    else if ["interface", "type", "module", "namespace", "declare", "enum", "abstract",
        "global"].contains word && (← startsTypeDeclaration) then
      typeDeclaration self
    else expressionStatement self
  | _ => expressionStatement self
where
  decorated : Parse Node := do
    if ← seesWord "export" then exportStatement self
    else
      let _ ← eatWord "declare"
      let _ ← eatWord "abstract"
      require (!single)
      classRule self true
  jump : Parse Node := do
    advance
    if (← sees ";") || (← onNewLine) || (← sees "\x7d") || (← atEnd) then
      endStatement
    else
      let _ ← identifier
      endStatement
    return .leaf

end ReactiveView.Script
