import ReactiveView.Script.Statement

/-!
# The grammar of script code

Every goal has its rule, and a rule may ask for any goal.  The number of nested questions is
bounded by a budget that grows with the length of the code: between two tokens only a fixed number
of goals can be asked one inside the other.
-/

namespace ReactiveView.Script

open Parse

def rule (self : Grammar) : Goal → Parse Node
  | .expression => expressionRule self
  | .assignment returnType => assignmentRule self returnType
  | .binary level => binaryRule self level
  | .unary => unaryRule self
  | .leftHand => leftHandRule self
  | .constructed => constructedRule self
  | .statement single => statementRule self single
  | .pattern => patternRule self
  | .type => typeRule self
  | .typeOperator => typeOperatorRule self

def grammar : Nat → Grammar
  | 0, _ => failure
  | budget + 1, goal => rule (grammar budget) goal

/-- Run a parser on code from its start.  Properties with defaults must all have become
    patterns. -/
def parse? (ctx : Context) (code : List Char) (p : Grammar → Parse Node) : Option Node := do
  let total := code.length
  let (first, rest) ← nextToken? total code
  let (node, _) ← p (grammar (8 * (total + 4))) ctx { token := first, rest, total }
  if node.isComplete then return node else none

/-- One expression at the start of the code; what follows it is not looked at, apart from the next
    token. -/
def expression? (code : List Char) : Option Node :=
  parse? {} code fun self => self .expression

def statements? (code : List Char) : Option Node :=
  parse? {} code fun self => do
    let parts ← loop (fun (parts : List Node) => do
      if ← atEnd then return none
      else return some ((← self (.statement false)) :: parts)) []
    return .group parts.reverse

def parser : Parser := ⟨expression?, statements?⟩

end ReactiveView.Script
