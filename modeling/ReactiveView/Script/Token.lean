import ReactiveView.Script.Ident

/-!
# Tokens of script code

Ordinary code inside a component is TypeScript.  `nextToken?` takes one token off the front of a
text; `none` means that the text starts with no token (an unterminated string, a malformed
number, a stray character).  Two kinds of tokens depend on where the parser stands and have
readers of their own: a regular expression, and the part of a template after a substitution.
A text after `total` characters of code is at position `total - length`.
-/

namespace ReactiveView.Script

inductive TokenKind where
  /-- An identifier or keyword; `escaped` if it is written with escapes. -/
  | name (text : String) (escaped : Bool)
  | privateName
  | punct (text : String)
  | number
  | string
  /-- A template up to its end or to a substitution.  `valid` if all its escapes are. -/
  | template (complete valid : Bool)
  | eof
deriving DecidableEq, Repr, Inhabited

/-- A token with its position and whether a line ends right before it. -/
structure Token where
  kind : TokenKind
  start : Nat
  stop : Nat
  newline : Bool
deriving DecidableEq, Repr, Inhabited

/-! ## Blanks and comments -/

def isLineEnd (c : Char) : Bool :=
  c = '\n' || c = '\r' || c.toNat = 0x2028 || c.toNat = 0x2029

def isSpace (c : Char) : Bool :=
  c = ' ' || c = '\t' || c.toNat = 0x0B || c.toNat = 0x0C || c.toNat = 0xA0 || c.toNat = 0xFEFF ||
    c.toNat = 0x85 || c.toNat = 0x1680 || c.toNat = 0x180E ||
    (0x2000 ≤ c.toNat && c.toNat ≤ 0x200B) || c.toNat = 0x202F || c.toNat = 0x205F ||
    c.toNat = 0x3000

inductive GapMode where
  | space
  | lineComment
  | blockComment
deriving DecidableEq, Repr

/-- Skip blanks and comments; the flag tells whether a line ends in them.  Fails in a comment that
    does not end. -/
def skipGap : GapMode → Bool → List Char → Option (Bool × List Char)
  | .space, newline, '/' :: '/' :: rest => skipGap .lineComment newline rest
  | .space, newline, '/' :: '*' :: rest => skipGap .blockComment newline rest
  | .space, newline, c :: rest =>
    if isLineEnd c then skipGap .space true rest
    else if isSpace c then skipGap .space newline rest
    else some (newline, c :: rest)
  | .lineComment, newline, c :: rest =>
    if isLineEnd c then skipGap .space true rest else skipGap .lineComment newline rest
  | .blockComment, newline, '*' :: '/' :: rest => skipGap .space newline rest
  | .blockComment, newline, c :: rest => skipGap .blockComment (newline || isLineEnd c) rest
  | .blockComment, _, [] => none
  | _, newline, [] => some (newline, [])

/-! ## Names -/

def hexValue? (c : Char) : Option Nat :=
  if '0' ≤ c ∧ c ≤ '9' then some (c.toNat - '0'.toNat)
  else if 'a' ≤ c ∧ c ≤ 'f' then some (c.toNat - 'a'.toNat + 10)
  else if 'A' ≤ c ∧ c ≤ 'F' then some (c.toNat - 'A'.toNat + 10)
  else none

def isHexDigit (c : Char) : Bool := (hexValue? c).isSome

def hexNumber (ds : List Char) : Nat :=
  ds.foldl (fun n d => n * 16 + (hexValue? d).getD 0) 0

def unicodeEscape? (cs : List Char) : Option (Nat × List Char) :=
  match cs with
  | '{' :: rest =>
    let ds := rest.takeWhile isHexDigit
    match rest.drop ds.length with
    | '}' :: rest =>
      if ds.isEmpty || 0x10FFFF < hexNumber ds then none else some (hexNumber ds, rest)
    | _ => none
  | _ =>
    let ds := cs.take 4
    if ds.length = 4 && ds.all isHexDigit then some (hexNumber ds, cs.drop 4) else none

/-- The characters of a name, whether one is written as an escape, and the text after the name.
    `start` while no character has been read. -/
def nameChars? (start : Bool) : Nat → List Char → Option (List Char × Bool × List Char)
  | 0, cs => some ([], false, cs)
  | fuel + 1, cs =>
    let fits (c : Char) : Bool := if start then isIdentStart c else isIdentPart c
    match cs with
    | '\\' :: 'u' :: rest => do
      let (n, rest) ← unicodeEscape? rest
      if fits (Char.ofNat n) then
        let (name, _, rest) ← nameChars? false fuel rest
        return (Char.ofNat n :: name, true, rest)
      else none
    | c :: rest =>
      if fits c then do
        let (name, escaped, rest) ← nameChars? false fuel rest
        return (c :: name, escaped, rest)
      else if c = '\\' then none
      else some ([], false, cs)
    | [] => some ([], false, [])

/-! ## Numbers -/

/-- Digits with single underscores between them; at least one digit. -/
def separatedDigits? (isDigit : Char → Bool) (cs : List Char) : Option (List Char) :=
  let body := cs.takeWhile fun c => isDigit c || c = '_'
  let doubled := (body.zip (body.drop 1)).any fun (a, b) => a = '_' && b = '_'
  if body.isEmpty || body.head? = some '_' || body.getLast? = some '_' || doubled then none
  else some (cs.drop body.length)

def afterExponent? (cs : List Char) : Option (List Char) :=
  match cs with
  | e :: rest =>
    if e = 'e' || e = 'E' then
      let rest := match rest with
        | '+' :: rest => rest
        | '-' :: rest => rest
        | _ => rest
      separatedDigits? Char.isDigit rest
    else some cs
  | [] => some []

def afterFraction? (cs : List Char) : Option (List Char) :=
  match cs with
  | '.' :: c :: rest =>
    if c.isDigit then (separatedDigits? Char.isDigit (c :: rest)).bind afterExponent?
    else if c = '_' then none
    else afterExponent? (c :: rest)
  | '.' :: [] => some []
  | _ => afterExponent? cs

def afterBig (cs : List Char) : List Char :=
  match cs with
  | 'n' :: rest => rest
  | _ => cs

/-- The text after digits in the base of a marker such as `0x`. -/
def afterBased? (isDigit : Char → Bool) (cs : List Char) : Option (List Char) :=
  (separatedDigits? isDigit cs).map afterBig

/-- The text after a number.  A name or digit must not follow it directly. -/
def afterNumber? (cs : List Char) : Option (List Char) := do
  let rest ← match cs with
    | '0' :: m :: rest =>
      if m = 'x' || m = 'X' then afterBased? isHexDigit rest
      else if m = 'o' || m = 'O' then afterBased? (fun c => '0' ≤ c && c ≤ '7') rest
      else if m = 'b' || m = 'B' then afterBased? (fun c => c = '0' || c = '1') rest
      else if m = '_' then none
      else if m.isDigit then
        let digits := (m :: rest).takeWhile Char.isDigit
        let rest := (m :: rest).drop digits.length
        if digits.all fun c => c ≤ '7' then some rest else afterFraction? rest
      else if m = 'n' then some rest
      else afterFraction? (m :: rest)
    | '.' :: _ => afterFraction? cs
    | _ => do
      let rest ← separatedDigits? Char.isDigit cs
      match rest with
      | 'n' :: rest => some rest
      | _ => afterFraction? rest
  match rest with
  | c :: _ => if isIdentStart c || c.isDigit || c = '\\' then none else some rest
  | [] => some []

/-! ## Strings, templates, regular expressions -/

/-- The text after an escape, given the text after its backslash, and whether the escape is
    one. -/
def afterEscape (cs : List Char) : Bool × List Char :=
  match cs with
  | 'x' :: rest =>
    if (rest.take 2).length = 2 && (rest.take 2).all isHexDigit then (true, rest.drop 2)
    else (false, rest)
  | 'u' :: rest =>
    match unicodeEscape? rest with
    | some (_, rest) => (true, rest)
    | none => (false, rest)
  | '\r' :: '\n' :: rest => (true, rest)
  | _ :: rest => (true, rest)
  | [] => (false, [])

def afterString? (quote : Char) : Nat → List Char → Option (List Char)
  | 0, _ => none
  | fuel + 1, cs =>
    match cs with
    | [] => none
    | '\\' :: rest =>
      match afterEscape rest with
      | (true, rest) => afterString? quote fuel rest
      | (false, _) => none
    | c :: rest =>
      if c = quote then some rest
      else if c = '\n' || c = '\r' then none
      else afterString? quote fuel rest

/-- Whether the text after a backslash is an octal escape, which templates do not have. -/
def isOctalEscape : List Char → Bool
  | '0' :: c :: _ => c.isDigit
  | c :: _ => '1' ≤ c && c ≤ '9'
  | [] => false

/-- The next part of a template: whether it ends the template, whether its escapes are valid, and
    the text after it. -/
def templatePart? (valid : Bool) : Nat → List Char → Option (Bool × Bool × List Char)
  | 0, _ => none
  | fuel + 1, cs =>
    match cs with
    | [] => none
    | '`' :: rest => some (true, valid, rest)
    | '$' :: '{' :: rest => some (false, valid, rest)
    | '\\' :: rest =>
      let (ok, after) := afterEscape rest
      templatePart? (valid && ok && !isOctalEscape rest) fuel after
    | _ :: rest => templatePart? valid fuel rest

/-- The text after the body of a regular expression; `inClass` inside square brackets. -/
def afterRegExpBody? : Bool → List Char → Option (List Char)
  | _, [] => none
  | inClass, '\\' :: c :: rest => if isLineEnd c then none else afterRegExpBody? inClass rest
  | inClass, c :: rest =>
    if isLineEnd c || c = '\\' then none
    else if c = '[' then afterRegExpBody? true rest
    else if c = ']' then afterRegExpBody? false rest
    else if c = '/' && !inClass then some rest
    else afterRegExpBody? inClass rest

def regExpFlags : List Char := ['d', 'g', 'i', 'm', 's', 'u', 'v', 'y']

/-- The text after a regular expression, given the text after its first slash.  Each flag may
    stand once. -/
def afterRegExp? (cs : List Char) : Option (List Char) := do
  let rest ← afterRegExpBody? false cs
  let flags := rest.takeWhile fun c => c.isAlphanum || c = '$' || c = '_'
  if flags.all regExpFlags.contains && flags.eraseDups.length = flags.length then
    return rest.drop flags.length
  else none

/-! ## Tokens -/

/-- Operators and brackets, longer ones first.  A closing angle bracket is always one character,
    since it may end a list of types. -/
def puncts : List String :=
  ["===", "!==", "**=", "<<=", "&&=", "||=", "??=", "...",
   "=>", "==", "!=", "<=", "<<", "++", "--", "+=", "-=", "*=", "/=", "%=", "&=", "|=", "^=", "**",
   "&&", "||", "??", "?.",
   "\x7b", "\x7d", "(", ")", "[", "]", ";", ",", "<", ">", "+", "-", "*", "/", "%", "&", "|", "^",
   "!", "~", "?", ":", "=", ".", "@"]

def punct? (cs : List Char) : Option (String × List Char) := do
  let p ← puncts.find? fun p => p.toList.isPrefixOf cs
  let rest := cs.drop p.length
  if p = "?." && (rest.head?.any Char.isDigit) then return ("?", cs.drop 1)
  else return (p, rest)

/-- The kind of the token at the front of a text without blanks before it, and the text after
    it. -/
def lexeme? (cs : List Char) : Option (TokenKind × List Char) :=
  match cs with
  | [] => some (.eof, [])
  | '\'' :: rest => (afterString? '\'' (rest.length + 1) rest).map (.string, ·)
  | '"' :: rest => (afterString? '"' (rest.length + 1) rest).map (.string, ·)
  | '`' :: rest => do
    let (complete, valid, rest) ← templatePart? true (rest.length + 1) rest
    return (.template complete valid, rest)
  | '#' :: rest => do
    let (name, _, rest) ← nameChars? true (rest.length + 1) rest
    if name.isEmpty then none else return (.privateName, rest)
  | c :: rest =>
    if c.isDigit || (c = '.' && rest.head?.any Char.isDigit) then
      (afterNumber? cs).map (.number, ·)
    else if isIdentStart c || c = '\\' then do
      let (name, escaped, rest) ← nameChars? true (cs.length + 1) cs
      return (.name (String.ofList name) escaped, rest)
    else (punct? cs).map fun (p, rest) => (.punct p, rest)

def nextToken? (total : Nat) (cs : List Char) : Option (Token × List Char) := do
  let (newline, cs) ← skipGap .space false cs
  let (kind, rest) ← lexeme? cs
  return (⟨kind, total - cs.length, total - rest.length, newline⟩, rest)

/-- The longer operators that start with a closing angle bracket. -/
def anglePuncts : List String := [">>>=", ">>>", ">>=", ">>", ">=", ">"]

def reservedWords : List String :=
  ["break", "case", "catch", "class", "const", "continue", "debugger", "default", "delete", "do",
   "else", "enum", "export", "extends", "false", "finally", "for", "function", "if", "import",
   "in", "instanceof", "new", "null", "return", "super", "switch", "this", "throw", "true", "try",
   "typeof", "var", "void", "while", "with"]

def isIdentifier (word : String) : Bool := !reservedWords.contains word

end ReactiveView.Script
