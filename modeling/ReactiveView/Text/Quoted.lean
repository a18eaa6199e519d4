import ReactiveView.Text.Visible

/-!
# Quoted text

Text as it is shown in descriptions: between double quotes, with escapes for quotes, backslashes and
all characters that are not visible.
-/

namespace ReactiveView.Text

def shownChar (c : Char) : List Char :=
  if c = '"' then ['\\', '"']
  else if c = '\\' then ['\\', '\\']
  else if c = '\n' then ['\\', 'n']
  else if c = '\r' then ['\\', 'r']
  else if c = '\t' then ['\\', 't']
  else if c.toNat = 0 then ['\\', '0']
  else if isVisible c then [c]
  else '\\' :: 'u' :: '\x7b' :: Nat.toDigits 16 c.toNat ++ ['\x7d']

def shown (s : String) : String := String.ofList ('"' :: s.toList.flatMap shownChar ++ ['"'])

def shownList (ss : List String) : String := "[" ++ ", ".intercalate (ss.map shown) ++ "]"

end ReactiveView.Text
