import ReactiveView.Json.Reader
import ReactiveView.Json.Writer
import ReactiveView.Text.Blank

/-!
# Literals of expression text

String literals in single quotes, double quotes or backquotes, and array and object literals.
The latter are turned into JSON text, one textual step after the other, and read as JSON: keys
get double quotes, strings in single quotes become JSON strings, a comma before a closing bracket
is dropped.  The steps see only text, so they also change what looks like a key or a trailing
comma inside a string.
-/

namespace ReactiveView.Expr

/-! ## String literals -/

def hasBareQuote (quote : Char) : List Char → Bool
  | [] => false
  | '\\' :: _ :: rest => hasBareQuote quote rest
  | c :: rest => c == quote || hasBareQuote quote rest

def unescapeChar : Char → Char
  | 'n' => '\n'
  | 'r' => '\r'
  | 't' => '\t'
  | c => c

/-- Replace each backslash and the character after it; a backslash at the end stands for
    itself. -/
def unescape : List Char → List Char
  | '\\' :: c :: rest => unescapeChar c :: unescape rest
  | c :: rest => c :: unescape rest
  | [] => []

/-- The text between a character at the front and the same character at the end. -/
def between? (quote : Char) : List Char → Option (List Char)
  | [] => none
  | c :: rest => if c = quote ∧ rest.getLast? = some quote then some rest.dropLast else none

def hasSubstitution : List Char → Bool
  | '$' :: '{' :: _ => true
  | _ :: rest => hasSubstitution rest
  | [] => false

/-- The string that a literal denotes.  A text in backquotes is a literal only without
    substitutions. -/
def stringLiteral? (cs : List Char) : Option String :=
  let plain (quote : Char) : Option String := do
    let inner ← between? quote cs
    if hasBareQuote quote inner then none else return String.ofList (unescape inner)
  match cs with
  | '"' :: _ => plain '"'
  | '\'' :: _ => plain '\''
  | '`' :: rest => if hasSubstitution rest.dropLast then none else plain '`'
  | _ => none

/-! ## Identifiers -/

def isIdentStart (c : Char) : Bool := c.isAlpha || c = '_' || c = '$'

def isIdentPart (c : Char) : Bool := isIdentStart c || c.isDigit

def isIdent : List Char → Bool
  | [] => false
  | c :: rest => isIdentStart c && rest.all isIdentPart

/-! ## Array and object literals -/

/-- Replace matches from left to right.  `find` gives the replacement for a match at the front of
    a text together with the length of the match; `skip` characters still belong to the last
    match. -/
def replaceMatches (find : List Char → Option (List Char × Nat)) (skip : Nat) :
    List Char → List Char
  | [] => []
  | c :: rest =>
    match skip with
    | skip + 1 => replaceMatches find skip rest
    | 0 =>
      match find (c :: rest) with
      | some (text, n) => text ++ replaceMatches find (n - 1) rest
      | none => c :: replaceMatches find 0 rest

/-- A bare or single-quoted name at the front: the name and its length with quotes. -/
def keyName? : List Char → Option (List Char × Nat)
  | '\'' :: rest =>
    let name := rest.takeWhile (· ≠ '\'')
    if name.length < rest.length then some (name, name.length + 2) else none
  | c :: rest =>
    if isIdentStart c then
      let name := c :: rest.takeWhile isIdentPart
      some (name, name.length)
    else none
  | [] => none

/-- An object key at the front: an opening brace or comma, a name and a colon.  Blanks before the
    name stay, blanks after it go. -/
def key? : List Char → Option (List Char × Nat)
  | [] => none
  | c :: rest =>
    if c = '{' ∨ c = ',' then do
      let blanks := rest.takeWhile Text.isBlank
      let (name, n) ← keyName? (rest.drop blanks.length)
      let tail := rest.drop (blanks.length + n)
      let gap := tail.takeWhile Text.isBlank
      if (tail.drop gap.length).head? = some ':' then
        return (c :: blanks ++ '"' :: name ++ ['"', ':'], 1 + blanks.length + n + gap.length + 1)
      else none
    else none

/-- The text before the closing single quote; a backslash takes the next character along, unless
    that is a line feed. -/
def singleQuotedBody? : List Char → Option (List Char)
  | [] => none
  | '\'' :: _ => some []
  | '\\' :: c :: rest => if c = '\n' then none else (singleQuotedBody? rest).map ('\\' :: c :: ·)
  | c :: rest => if c = '\\' then none else (singleQuotedBody? rest).map (c :: ·)

/-- A string in single quotes at the front, as a JSON string. -/
def singleQuoted? : List Char → Option (List Char × Nat)
  | '\'' :: rest =>
    (singleQuotedBody? rest).map fun body => (Json.quote (unescape body), body.length + 2)
  | _ => none

def trailingComma? (bracket : Char) : List Char → Option (List Char × Nat)
  | ',' :: c :: _ => if c = bracket then some ([c], 2) else none
  | _ => none

def jsonText (cs : List Char) : List Char :=
  let keyed := replaceMatches key? 0 cs
  let quoted := replaceMatches singleQuoted? 0 keyed
  replaceMatches (trailingComma? '}') 0 (replaceMatches (trailingComma? ']') 0 quoted)

def containerLiteral? (cs : List Char) : Option Json := Json.read? (jsonText cs)

end ReactiveView.Expr
