import FeatureLogic.Json.Basic
/-!
Writing JSON text, on one line or indented by two spaces.
-/
set_option autoImplicit false

namespace FeatureLogic.Json

def hexDigit (n : Nat) : Char := (Nat.digitChar (n % 16))

def writeChar : Char → List Char
  | '"' => ['\\', '"']
  | '\\' => ['\\', '\\']
  | '\x08' => ['\\', 'b']
  | '\x0c' => ['\\', 'f']
  | '\n' => ['\\', 'n']
  | '\r' => ['\\', 'r']
  | '\t' => ['\\', 't']
  | c => if c < ' ' then ['\\', 'u', '0', '0', hexDigit (c.toNat / 16), hexDigit c.toNat] else [c]

def writeText (s : String) : String := "\"" ++ String.ofList (s.toList.flatMap writeChar) ++ "\""

/-- An exponent always has a sign. -/
def Number.write (n : Number) : String :=
  let point := if n.fraction.isEmpty then [] else '.' :: n.fraction
  let power :=
    match n.exponent with
    | none => ""
    | some e => if e < 0 then "e-" ++ toString e.natAbs else "e+" ++ toString e.natAbs
  (if n.negative then "-" else "") ++ String.ofList (n.whole ++ point) ++ power

mutual

/-- All on one line, without blanks. -/
def compact : Json → String
  | null => "null"
  | bool b => if b then "true" else "false"
  | number n => n.write
  | string s => writeText (s.getD "")
  | array items => "[" ++ compactItems items ++ "]"
  | object members => "\x7b" ++ compactMembers members ++ "\x7d"

def compactItems : List Json → String
  | [] => ""
  | [j] => j.compact
  | j :: js => j.compact ++ "," ++ compactItems js

def compactMembers : List (Option String × Json) → String
  | [] => ""
  | [(name, j)] => writeText (name.getD "") ++ ":" ++ j.compact
  | (name, j) :: ms => writeText (name.getD "") ++ ":" ++ j.compact ++ "," ++ compactMembers ms

end

def indent (level : Nat) : String := "\n" ++ String.ofList (List.replicate (2 * level) ' ')

mutual

/-- Each item and member on a line of its own, two spaces further in. -/
def pretty (level : Nat) : Json → String
  | array (j :: js) => "[" ++ prettyItems (level + 1) (j :: js) ++ indent level ++ "]"
  | object (m :: ms) => "\x7b" ++ prettyMembers (level + 1) (m :: ms) ++ indent level ++ "\x7d"
  | null => "null"
  | bool b => if b then "true" else "false"
  | number n => n.write
  | string s => writeText (s.getD "")
  | array [] => "[]"
  | object [] => "\x7b\x7d"

def prettyItems (level : Nat) : List Json → String
  | [] => ""
  | [j] => indent level ++ j.pretty level
  | j :: js => indent level ++ j.pretty level ++ "," ++ prettyItems level js

def prettyMembers (level : Nat) : List (Option String × Json) → String
  | [] => ""
  | [(name, j)] => indent level ++ writeText (name.getD "") ++ ": " ++ j.pretty level
  | (name, j) :: ms =>
    indent level ++ writeText (name.getD "") ++ ": " ++ j.pretty level ++ "," ++
      prettyMembers level ms

end

end FeatureLogic.Json
