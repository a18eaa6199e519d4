import ReactiveView.Script.Node
import ReactiveView.Script.Token

/-!
# Parsing

A parser reads tokens from a cursor and fails at the first error; what it has read before does
not matter then, since code with an error is left as it is.  The grammar is a set of goals.  A
rule for a goal is written against a parser `self` for all goals, and `Grammar` ties the knot, so
that no rule calls itself.
-/

namespace ReactiveView.Script

/-- What is allowed where the parser stands. -/
structure Context where
  allowIn : Bool := true
  allowAwait : Bool := true
  allowYield : Bool := false
  allowReturn : Bool := false
  decorator : Bool := false
  allowConditional : Bool := true
  /-- Inside a declaration of something defined elsewhere. -/
  ambient : Bool := false

/-- The current token and the text after it; `total` is the length of the whole code. -/
structure Cursor where
  token : Token
  rest : List Char
  total : Nat
deriving Inhabited

abbrev Parse := ReaderT Context (StateT Cursor Option)

inductive Goal where
  /-- Expressions with commas between them. -/
  | expression
  /-- One expression; an arrow function in it may have a return type. -/
  | assignment (returnType : Bool)
  /-- Binary operators that bind tighter than a level. -/
  | binary (level : Nat)
  /-- Unary operators and what binds tighter. -/
  | unary
  | leftHand
  | constructed
  /-- A statement; `single` where a declaration is not allowed. -/
  | statement (single : Bool)
  | pattern
  | type
  /-- Type operators and what binds tighter. -/
  | typeOperator

abbrev Grammar := Goal → Parse Node

namespace Parse

/-! ## Tokens -/

def token : Parse Token := do return (← get).token

def kind : Parse TokenKind := do return (← token).kind

def advance : Parse Unit := do
  let c ← get
  match nextToken? c.total c.rest with
  | some (t, rest) => set { c with token := t, rest := rest }
  | none => failure

def sees (text : String) : Parse Bool := do return (← kind) = .punct text

def seesWord (word : String) : Parse Bool := do return (← kind) = .name word false

def onNewLine : Parse Bool := do return (← token).newline

def atEnd : Parse Bool := do return (← kind) = .eof

def require (b : Bool) : Parse Unit := if b then pure () else failure

def eat (text : String) : Parse Bool := do
  if ← sees text then
    advance
    return true
  else return false

def eatWord (word : String) : Parse Bool := do
  if ← seesWord word then
    advance
    return true
  else return false

def expect (text : String) : Parse Unit := do require (← eat text)

def expectWord (word : String) : Parse Unit := do require (← eatWord word)

/-! ## Choices -/

/-- Try a parser; if it fails, nothing is read. -/
def attempt {α : Type} (p : Parse α) : Parse (Option α) := fun ctx c =>
  match p ctx c with
  | some (a, c) => some (some a, c)
  | none => some (none, c)

/-- What a parser would read, without reading it. -/
def ahead {α : Type} (p : Parse α) : Parse (Option α) := fun ctx c =>
  some ((p ctx c).map (·.1), c)

def looks (p : Parse Bool) : Parse Bool := do return (← ahead p).getD false

def peek : Parse (Option Token) := ahead do
  advance
  token

def peekIs (test : Token → Bool) : Parse Bool := do return (← peek).any test

def within {α : Type} (f : Context → Context) (p : Parse α) : Parse α := fun ctx c => p (f ctx) c

/-! ## Repetition -/

/-- Repeat a step until it has nothing to add. -/
def repeatStep {α : Type} (step : α → Parse (Option α)) : Nat → α → Parse α
  | 0, _ => failure
  | n + 1, a => do
    match ← step a with
    | none => return a
    | some a => repeatStep step n a

/-- Repeat a step that reads at least one token each time. -/
def loop {α : Type} (step : α → Parse (Option α)) (a : α) : Parse α := do
  repeatStep step ((← get).rest.length + 3) a

/-- Items up to a closing bracket, which is not read. -/
def itemsUntil (close : String) (item : Parse Node) : Parse (List Node) := do
  let items ← loop (fun items => do
    if ← sees close then return none
    else return some ((← item) :: items)) []
  return items.reverse

/-- Items with commas between them up to a closing bracket, which is not read.  A comma may come
    after the last item. -/
def commaList (close : String) (item : Parse Node) : Parse (List Node) := do
  let items ← loop (fun (items : List Node) => do
    if ← sees close then return none
    let node ← item
    if !(← eat ",") then require (← sees close)
    return some (node :: items)) []
  return items.reverse

def separated (separator : String) (item : Parse Node) : Parse (List Node) := do
  let first ← item
  let items ← loop (fun (items : List Node) => do
    if ← eat separator then return some ((← item) :: items) else return none) [first]
  return items.reverse

/-! ## Words -/

def identifier? : Parse (Option String) := do
  match ← kind with
  | .name word _ =>
    let ctx ← read
    if !isIdentifier word then return none
    else if word = "await" && ctx.allowAwait then return none
    else if word = "yield" && ctx.allowYield then return none
    else return some word
  | _ => return none

def identifier : Parse String := do
  match ← identifier? with
  | some word =>
    advance
    return word
  | none => failure

def anyName : Parse String := do
  match ← kind with
  | .name word _ =>
    advance
    return word
  | _ => failure

/-- The end of a statement: a semicolon, a closing brace, the end of the line or of the code. -/
def endStatement : Parse Unit := do
  if ← eat ";" then return
  require ((← onNewLine) || (← sees "\x7d") || (← atEnd))

end Parse

end ReactiveView.Script
