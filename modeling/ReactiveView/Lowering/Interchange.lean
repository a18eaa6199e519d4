import ReactiveView.Lowering.Memo
import ReactiveView.Printing.Component

/-!
# Lowering of texts

Modules, options and lowered components as JSON texts.  Outputs are remembered from one text to the
next.
-/

namespace ReactiveView.Interchange

inductive Failure where
  | malformed
  | refused (diagnostic : Diagnostic)

def read {α : Type} (decode? : Json.Doc → Option α) (text : String) : Except Failure α :=
  match (Json.Doc.read? text.toList).bind decode? with
  | some a => .ok a
  | none => .error .malformed

/-- Options in a text; a blank text means the defaults. -/
def readOptions (text : String) : Except Failure Options :=
  if (Text.trim text.toList).isEmpty then .ok {} else read Options.decode? text

def lowerModuleIn (memo : Memo) (module options : String)
    (parser : Script.Parser := Script.parser) : Except Failure (String × Memo) := do
  let module ← read Module.decode? module
  let options ← readOptions options
  let (output, memo) := memo.getOrLower module options parser
  return (output.encode.compact, memo)

def lowerModule (module options : String) (parser : Script.Parser := Script.parser) :
    Except Failure String :=
  (lowerModuleIn {} module options parser).map (·.1)

def printComponent (component : String) : Except Failure String := do
  let component ← read LoweredComponent.decode? component
  component.print.mapError .refused

end ReactiveView.Interchange
