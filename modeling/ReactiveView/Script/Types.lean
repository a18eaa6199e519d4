import ReactiveView.Script.Pattern

/-!
# Types

Rules for types in script code.  Nothing in a type is replaced, but a type may hold computed
names, which are expressions.
-/

namespace ReactiveView.Script

open Parse

/-! ## Arguments -/

def openAngle : Parse Unit := do
  if ← sees "<<" then
    modify fun c => { c with token := { c.token with
      kind := .punct "<", start := c.token.start + 1, newline := false } }
  else expect "<"

def typeArguments (self : Grammar) : Parse (List Node) := do
  openAngle
  let parts ← commaList ">" (self .type)
  require (!parts.isEmpty)
  expect ">"
  return parts

def optionalTypeArguments (self : Grammar) : Parse (List Node) := do
  if ((← sees "<") || (← sees "<<")) && !(← onNewLine) then typeArguments self else return []

/-! ## Names -/

def dottedRest : Parse Unit :=
  loop (fun () => do
    if ← eat "." then
      let _ ← anyName
      return some ()
    else return none) ()

def typeReference (self : Grammar) : Parse Node := do
  let _ ← anyName
  dottedRest
  return .group (← optionalTypeArguments self)

def importType (self : Grammar) : Parse Node := do
  expectWord "import"
  expect "("
  let target ← self .type
  if ← eat "," then
    if !(← sees ")") then
      let _ ← bracketedValue self
      let _ ← eat ","
  expect ")"
  dottedRest
  return .group (target :: (← optionalTypeArguments self))

def typeQuery (self : Grammar) : Parse Node := do
  expectWord "typeof"
  if ← seesWord "import" then importType self
  else
    if !(← eatWord "this") then
      let _ ← identifier
    loop (fun () => do
      if ← eat "." then
        if (← kind) = .privateName then advance
        else
          let _ ← anyName
        return some ()
      else return none) ()
    return .group (← optionalTypeArguments self)

/-! ## Members of object types -/

def endMember : Parse Unit := do
  if ← eat "," then return
  endStatement

def signature (self : Grammar) : Parse Node := do
  let types ← typeParameters self
  let params ← parameters self
  return .group (types ++ params ++ (← returnAnnotation self))

/-- Whether an index signature such as `[key: string]` comes next. -/
def isIndexSignature : Parse Bool := looks do
  expect "["
  let _ ← identifier
  return (← sees ":") || (← sees ",")

def indexSignature (self : Grammar) : Parse Node := do
  expect "["
  let _ ← identifier
  let key ← typeAnnotation self
  require (!key.isEmpty)
  expect "]"
  return .group (key ++ (← typeAnnotation self))

def canFollowModifier : Parse Bool := do
  match ← kind with
  | .name _ _ | .string | .number | .privateName => return true
  | .punct p => return p = "[" || p = "\x7b" || p = "*" || p = "..."
  | _ => return false

/-- Read a word if it stands as a modifier before a member.  `sameLine` if the member must begin
    on the same line. -/
def eatModifier (sameLine : Bool) (word : String) : Parse Bool := do
  let fits ← looks do
    expectWord word
    return (← canFollowModifier) && !(sameLine && (← onNewLine))
  if fits then
    advance
    return true
  else return false

def typeMember (self : Grammar) : Parse Node := do
  if (← sees "(") || (← sees "<") then
    let part ← signature self
    endMember
    return part
  let constructs ← looks do
    expectWord "new"
    return (← sees "(") || (← sees "<")
  if constructs then
    advance
    let part ← signature self
    endMember
    return part
  let _ ← eatModifier true "readonly"
  if (← eatModifier false "get") || (← eatModifier false "set") then
    let key ← propertyName self
    let part ← signature self
    endMember
    return .group [key, part]
  if ← isIndexSignature then
    let part ← indexSignature self
    endMember
    return part
  let key ← propertyName self
  let _ ← eat "?"
  let rest ← if (← sees "(") || (← sees "<") then do pure [← signature self]
    else typeAnnotation self
  endMember
  return .group (key :: rest)

def typeMembers (self : Grammar) : Parse Node := do
  expect "\x7b"
  let parts ← itemsUntil "\x7d" (typeMember self)
  expect "\x7d"
  return .group parts

def eatSign : Parse Bool := do
  if ← eat "+" then return true
  eat "-"

def isMappedType : Parse Bool := looks do
  expect "\x7b"
  if ← eatSign then return ← seesWord "readonly"
  let _ ← eatWord "readonly"
  expect "["
  let _ ← anyName
  seesWord "in"

def mappedType (self : Grammar) : Parse Node := do
  expect "\x7b"
  if ← eatSign then expectWord "readonly"
  else
    let _ ← eatWord "readonly"
  expect "["
  let _ ← anyName
  expectWord "in"
  let keys ← self .type
  let renamed ← if ← eatWord "as" then do pure [← self .type] else pure []
  expect "]"
  if ← eatSign then expect "?"
  else
    let _ ← eat "?"
  let type ← typeAnnotation self
  if !(← eat ",") then endStatement
  expect "\x7d"
  return .group (keys :: (renamed ++ type))

/-! ## Simple types -/

def tupleElement (self : Grammar) : Parse Node := do
  let named ← looks do
    let _ ← eat "..."
    let _ ← anyName
    if ← eat "?" then sees ":" else sees ":"
  let _ ← eat "..."
  if named then
    advance
    let _ ← eat "?"
    expect ":"
  self .type

/-- The rest of a template, whose first part is the current token.  `hole` reads a
    substitution. -/
def templateRest (tagged : Bool) (hole : Parse Node) : Parse Node := do
  match ← kind with
  | .template complete valid =>
    require (valid || tagged)
    advance
    if complete then return .leaf
    let (parts, _) ← loop (fun (state : List Node × Bool) => do
      let (parts, done) := state
      if done then return none
      let part ← hole
      require (← sees "\x7d")
      let c ← get
      match templatePart? true (c.rest.length + 1) c.rest with
      | some (complete, valid, rest) =>
        require (valid || tagged)
        set { c with rest := rest }
        advance
        return some (part :: parts, complete)
      | none => failure) ([], false)
    return .group parts.reverse
  | _ => failure

def plainTypes : List String :=
  ["any", "bigint", "boolean", "never", "number", "object", "string", "symbol", "undefined",
   "unknown"]

def simpleType (self : Grammar) : Parse Node := do
  match ← kind with
  | .string | .number =>
    advance
    return .leaf
  | .template _ _ => templateRest false (self .type)
  | .punct "-" =>
    advance
    require ((← kind) = .number)
    advance
    return .leaf
  | .punct "\x7b" => if ← isMappedType then mappedType self else typeMembers self
  | .punct "[" =>
    advance
    let parts ← commaList "]" (tupleElement self)
    expect "]"
    return .group parts
  | .punct "(" =>
    advance
    let part ← self .type
    expect ")"
    return part
  | .name word _ =>
    if word = "typeof" then typeQuery self
    else if word = "import" then importType self
    else if word = "this" then
      advance
      if (← seesWord "is") && !(← onNewLine) then
        advance
        self .type
      else return .leaf
    else if ["void", "null", "true", "false"].contains word then
      advance
      return .leaf
    else if plainTypes.contains word && !(← peekIs fun t => t.kind = .punct ".") then
      advance
      return .leaf
    else if word = "asserts" then returnAsserted self
    else typeReference self
  | _ => failure
where
  /-- A type that starts with the word `asserts`. -/
  returnAsserted (self : Grammar) : Parse Node := do
    let asserts ← looks do
      expectWord "asserts"
      return (← isPredicateSubject) && !(← onNewLine)
    if asserts then
      advance
      advance
      if ← eatWord "is" then self .type else return .leaf
    else typeReference self

def startsType (t : Token) : Bool := match t.kind with
  | .name word _ => isIdentifier word ||
    ["void", "null", "true", "false", "this", "typeof", "import", "new", "function"].contains word
  | .string | .number | .template _ _ => true
  | .punct p => ["\x7b", "[", "<", "|", "&", "(", "-", "*", "?", "!", "..."].contains p
  | _ => false

def arrayType (self : Grammar) : Parse Node := do
  let first ← simpleType self
  let parts ← loop (fun (parts : List Node) => do
    if ← onNewLine then return none
    if ← eat "[" then
      if ← eat "]" then return some parts
      let index ← self .type
      expect "]"
      return some (index :: parts)
    if (← sees "?") && !(← peekIs startsType) then
      advance
      return some parts
    if ← eat "!" then return some parts
    return none) [first]
  return .group parts.reverse

/-! ## Operators -/

def typeOperatorRule (self : Grammar) : Parse Node := do
  match ← kind with
  | .name word _ =>
    if word = "keyof" || word = "unique" || word = "readonly" then
      advance
      self .typeOperator
    else if word = "infer" then
      advance
      let _ ← identifier
      let bound ← attempt do
        expectWord "extends"
        let bound ← within (fun ctx => { ctx with allowConditional := false }) (self .type)
        require (!((← read).allowConditional && (← sees "?")))
        return bound
      return .group bound.toList
    else arrayType self
  | _ => arrayType self

/-- Types with an operator between them, which may also stand in front. -/
def typesWith (operator : String) (item : Parse Node) : Parse Node := do
  let _ ← eat operator
  return .group (← separated operator item)

def functionType (self : Grammar) : Parse Node := do
  let types ← typeParameters self
  let params ← parameters self
  expect "=>"
  return .group (types ++ params ++ [← returnTypeNode self])

def typeRule (self : Grammar) : Parse Node := do
  if ← sees "<" then return ← functionType self
  let abstracted ← looks do
    expectWord "abstract"
    seesWord "new"
  if abstracted then advance
  if ← eatWord "new" then return ← functionType self
  if ← sees "(" then
    match ← attempt (functionType self) with
    | some part => return part
    | none => pure ()
  let part ← typesWith "|" (typesWith "&" (self .typeOperator))
  if (← read).allowConditional && (← seesWord "extends") && !(← onNewLine) then
    advance
    let bound ← within (fun ctx => { ctx with allowConditional := false }) (self .type)
    expect "?"
    let yes ← self .type
    expect ":"
    return .group [part, bound, yes, ← self .type]
  return part

end ReactiveView.Script
