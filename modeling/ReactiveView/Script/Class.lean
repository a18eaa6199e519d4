import ReactiveView.Script.Types

/-!
# Classes

Rules for class declarations and expressions.
-/

namespace ReactiveView.Script

open Parse

def memberModifiers : List String :=
  ["declare", "public", "private", "protected", "static", "abstract", "override", "readonly",
   "accessor"]

def skipMemberModifiers : Parse Bool :=
  loop (fun async => do
    match ← kind with
    | .name word false =>
      if word = "async" then
        if ← eatModifier true word then return some true else return none
      else if memberModifiers.contains word then
        if ← eatModifier (word ≠ "static") word then return some async else return none
      else return none
    | _ => return none) false

def memberName (self : Grammar) : Parse Node := do
  if (← kind) = .privateName then
    advance
    return .leaf
  else propertyName self

def staticBlock (self : Grammar) : Parse Node :=
  within (fun ctx => { ctx.bracketed with
    allowAwait := true, allowYield := false, allowReturn := false }) (block self)

def fieldRest (self : Grammar) : Parse (List Node) := do
  if !(← eat "?") then
    if (← sees "!") && !(← onNewLine) then advance
  let type ← typeAnnotation self
  let value ← within (Context.inFunction false false) (defaultValue self)
  endStatement
  return type ++ value

def classMember (self : Grammar) : Parse Node := do
  if ← eat ";" then return .leaf
  let marks ← decorators self
  let isBlock ← looks do
    expectWord "static"
    sees "\x7b"
  if isBlock then
    advance
    return ← staticBlock self
  let async ← skipMemberModifiers
  if ← isIndexSignature then
    let part ← indexSignature self
    endMember
    return .group (marks ++ [part])
  if ← eatModifier false "get" then
    let name ← memberName self
    return .group (marks ++ [name, ← functionRest self false false (some 0)])
  if ← eatModifier false "set" then
    let name ← memberName self
    return .group (marks ++ [name, ← functionRest self false false (some 1)])
  let generator ← eat "*"
  let name ← memberName self
  let optional ← looks do
    expect "?"
    return (← sees "(") || (← sees "<")
  if optional then advance
  if generator || (← sees "(") || (← sees "<") then
    return .group (marks ++ [name, ← functionRest self async generator none])
  require (!async)
  return .group (marks ++ name :: (← fieldRest self))

/-- A class after its decorators.  A declaration has a name unless it is a default export. -/
def classRule (self : Grammar) (named : Bool) : Parse Node := do
  expectWord "class"
  if !(← seesWord "extends") && !(← seesWord "implements") || named then
    if named || (← identifier?).isSome then
      let _ ← identifier
  let types ← typeParameters self
  let base ← if ← eatWord "extends" then do
      let base ← self .leftHand
      pure (base :: (← optionalTypeArguments self))
    else pure []
  let roles ← if ← eatWord "implements" then separated "," (typeReference self) else pure []
  expect "\x7b"
  let members ← itemsUntil "\x7d" (classMember self)
  expect "\x7d"
  return .group (types ++ base ++ roles ++ members)

end ReactiveView.Script
