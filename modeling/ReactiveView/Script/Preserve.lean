import ReactiveView.Binding.FieldTable
import ReactiveView.Decl.Builtin
import ReactiveView.Diagnostic.Fault
import ReactiveView.Script.Grammar
import ReactiveView.Script.Reference
import ReactiveView.Script.Splice

/-!
# Ordinary code in a component

Ordinary code passes through lowering as it is, with one change: a reference `this.$f` to a
reactive field becomes a reference to the private field behind it.  Elements cannot be built in
ordinary code.  Code that is no proper script is left alone.  Any parser may read the code; the one
of the grammar does unless another is given.
-/

namespace ReactiveView.Script

structure Names where
  component : String
  wrapped : String → Bool
  custom : String → Bool

namespace Names

def builds (names : Names) (name : String) : Bool := Builtin.isElement name || names.custom name

/-- The replacement for a member of `this`, if it refers to a reactive field. -/
def replacement? (names : Names) (m : ThisMember) : Option Replacement :=
  match m.name.toList with
  | '$' :: field =>
    if names.wrapped (String.ofList field) then
      some ⟨m.start, m.stop, (backingName (String.ofList field)).toList⟩
    else none
  | _ => none

/-- Code with its references replaced, given its tree.  The tree is of a text that has `offset`
    characters before the code. -/
def substitute (names : Names) (offset : Nat) (code : String) (tree : Node) : Except Fault String :=
  match tree.calledNames.find? names.builds with
  | some name => .error (.elementCall name names.component)
  | none =>
    let replacements := tree.thisMembers.filterMap names.replacement?
    .ok (String.ofList (splice offset replacements code.toList))

def needsScan (code : String) : Bool := code.toList.any fun c => c = '$' || c = '('

/-- The text before statements that makes them a function body. -/
def bodyStart : List Char := "async function __body__() \x7b\n".toList

/-- The text after statements that makes them a function body. -/
def bodyEnd : List Char := "\n\x7d".toList

def statement (names : Names) (code : String) (parser : Parser := Script.parser) :
    Except Fault String :=
  if needsScan code then
    match parser.statements? (bodyStart ++ code.toList ++ bodyEnd) with
    | some tree => names.substitute bodyStart.length code tree
    | none => .ok code
  else .ok code

/-- An expression as it comes out of lowering.  Text after the first expression is kept. -/
def expression (names : Names) (code : String) (parser : Parser := Script.parser) :
    Except Fault String :=
  if needsScan code then
    match parser.expression? code.toList with
    | some tree => names.substitute 0 code tree
    | none => .ok code
  else .ok code

end Names

end ReactiveView.Script
