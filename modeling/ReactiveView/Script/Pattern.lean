import ReactiveView.Script.Parse

/-!
# Bindings, parameters and functions

Rules for the names that code binds: patterns of declarations, parameter lists with their types,
and the functions that take them.
-/

namespace ReactiveView.Script

open Parse

/-! ## Contexts -/

/-- Inside brackets, where `in` is an operator again. -/
def Context.bracketed (ctx : Context) : Context := { ctx with allowIn := true, decorator := false }

def Context.inFunction (async generator : Bool) (ctx : Context) : Context :=
  { ctx with allowAwait := async, allowYield := generator }

def Context.inBody (ctx : Context) : Context :=
  { ctx.bracketed with allowReturn := true, allowConditional := true }

/-! ## Names -/

def bracketedValue (self : Grammar) : Parse Node :=
  within Context.bracketed (self (.assignment true))

def propertyName (self : Grammar) : Parse Node := do
  match ← kind with
  | .name _ _ | .string | .number =>
    advance
    return .leaf
  | .punct "[" =>
    advance
    let name ← bracketedValue self
    expect "]"
    return .group [name]
  | _ => failure

def defaultValue (self : Grammar) : Parse (List Node) := do
  if ← eat "=" then return [← bracketedValue self] else return []

/-! ## Patterns -/

/-- The elements of an array pattern.  A rest element comes last, without a comma. -/
def arrayPattern (self : Grammar) : Parse Node := do
  expect "["
  let parts ← loop (fun (parts : List Node) => do
    if ← sees "]" then return none
    if ← eat "," then return some parts
    if ← eat "..." then
      let rest ← self .pattern
      require (← sees "]")
      return some (rest :: parts)
    let target ← self .pattern
    let value ← defaultValue self
    if !(← eat ",") then require (← sees "]")
    return some (.group (target :: value) :: parts)) []
  expect "]"
  return .mk .pattern parts.reverse

def patternProperty (self : Grammar) : Parse Node := do
  if ← eat "..." then
    let _ ← identifier
    require (← sees "\x7d")
    return .leaf
  let short ← identifier?
  let key ← propertyName self
  if short.isSome && !(← sees ":") then
    return .group (key :: (← defaultValue self))
  expect ":"
  let target ← self .pattern
  return .group (key :: target :: (← defaultValue self))

def patternRule (self : Grammar) : Parse Node := do
  if ← sees "[" then arrayPattern self
  else if ← eat "\x7b" then
    let parts ← commaList "\x7d" (patternProperty self)
    expect "\x7d"
    return .mk .pattern parts
  else
    let _ ← identifier
    return .leaf

/-! ## Types of bindings -/

def typeAnnotation (self : Grammar) : Parse (List Node) := do
  if ← eat ":" then return [← self .type] else return []

def isPredicateSubject : Parse Bool := do
  return (← identifier?).isSome || (← seesWord "this")

/-- A type, or a predicate such as `x is T` or `asserts x`, as a function may return. -/
def returnTypeNode (self : Grammar) : Parse Node := do
  let asserts ← looks do
    expectWord "asserts"
    return (← isPredicateSubject) && !(← onNewLine) && !(← seesWord "is")
  if asserts then
    advance
    advance
    if (← seesWord "is") && !(← onNewLine) then
      advance
      self .type
    else return .leaf
  else
    let predicate ← looks do
      require (← isPredicateSubject)
      advance
      return (← seesWord "is") && !(← onNewLine)
    if predicate then
      advance
      advance
    self .type

def returnAnnotation (self : Grammar) : Parse (List Node) := do
  if ← eat ":" then return [← returnTypeNode self] else return []

def typeParameter (self : Grammar) : Parse Node := do
  loop (fun () => do
    let word := (← seesWord "const") || (← seesWord "in") || (← seesWord "out")
    if word && (← peekIs fun t => match t.kind with
        | .name next _ => next ≠ "extends"
        | _ => false) then
      advance
      return some ()
    else return none) ()
  let _ ← identifier
  let bound ← if ← eatWord "extends" then do pure [← self .type] else pure []
  let value ← if ← eat "=" then do pure [← self .type] else pure []
  return .group (bound ++ value)

def typeParameters (self : Grammar) : Parse (List Node) := do
  if ← eat "<" then
    let parts ← commaList ">" (typeParameter self)
    require (!parts.isEmpty)
    expect ">"
    return parts
  else return []

/-! ## Parameters -/

def decorators (self : Grammar) : Parse (List Node) := do
  let parts ← loop (fun (parts : List Node) => do
    if ← eat "@" then
      return some ((← within (fun ctx => { ctx with decorator := true }) (self .leftHand)) :: parts)
    else return none) []
  return parts.reverse

def parameterModifiers : List String := ["public", "private", "protected", "readonly", "override"]

def skipParameterModifiers : Parse Unit :=
  loop (fun () => do
    match ← kind with
    | .name word false =>
      if parameterModifiers.contains word && (← peekIs fun t => !t.newline && match t.kind with
          | .name _ _ => true
          | .punct p => p = "[" || p = "\x7b"
          | _ => false) then
        advance
        return some ()
      else return none
    | _ => return none) ()

/-- One parameter.  A rest parameter comes last, without a default. -/
def parameter (self : Grammar) : Parse Node := do
  let marks ← decorators self
  skipParameterModifiers
  if ← eat "..." then
    let target ← self .pattern
    let type ← typeAnnotation self
    require (← sees ")")
    return .group (marks ++ target :: type)
  let target ← if ← eatWord "this" then pure Node.leaf else self .pattern
  let _ ← eat "?"
  let type ← typeAnnotation self
  return .group (marks ++ target :: (type ++ (← defaultValue self)))

def parameters (self : Grammar) : Parse (List Node) := do
  expect "("
  let parts ← within Context.bracketed (commaList ")" (parameter self))
  expect ")"
  return parts

/-! ## Functions -/

def block (self : Grammar) : Parse Node := do
  expect "\x7b"
  let parts ← itemsUntil "\x7d" (self (.statement false))
  expect "\x7d"
  return .group parts

def functionBody (self : Grammar) : Parse Node := within Context.inBody (block self)

/-- What follows the name of a function: parameters, return type and body.  Without a body it is a
    signature, which ends like a statement. -/
def functionRest (self : Grammar) (async generator : Bool) (arity : Option Nat) : Parse Node :=
  within (Context.inFunction async generator) do
    let types ← typeParameters self
    let params ← parameters self
    require (arity.all (· = params.length))
    let type ← returnAnnotation self
    if ← sees "\x7b" then
      return .group (types ++ params ++ type ++ [← functionBody self])
    else
      endStatement
      return .group (types ++ params ++ type)

end ReactiveView.Script
