import ReactiveView.Json.Basic
import ReactiveView.Text.Quoted

/-!
# Outlines of values

A value as it is shown in descriptions, with the kind of each part.
-/

namespace ReactiveView.Json

mutual

def outline : Json → String
  | .null => "Null"
  | .bool b => if b then "Bool(true)" else "Bool(false)"
  | .num n => "Number(" ++ n.text ++ ")"
  | .str s => "String(" ++ Text.shown s ++ ")"
  | .arr items => "Array [" ++ ", ".intercalate (itemOutlines items) ++ "]"
  | .obj members => "Object \x7b" ++ ", ".intercalate (memberOutlines members) ++ "\x7d"

def itemOutlines : List Json → List String
  | [] => []
  | v :: rest => v.outline :: itemOutlines rest

def memberOutlines : List (String × Json) → List String
  | [] => []
  | (key, v) :: rest => (Text.shown key ++ ": " ++ v.outline) :: memberOutlines rest

end

end ReactiveView.Json
