import FeatureLogic.Toml.Moment
/-!
Values that are written without brackets and quotes.
-/
set_option autoImplicit false

namespace FeatureLogic.Toml

def isBlank (c : Char) : Bool := c = ' ' || c = '\t'

/-- A number has a point, an exponent or neither; a date or a time shows by what follows its first
digits. -/
def number? (cs : List Char) : Option Toml :=
  let (sign, body) := splitSign cs
  match body with
  | ['i', 'n', 'f'] => some (.float (some (if sign = some true then -(1.0 / 0.0) else 1.0 / 0.0)))
  | ['n', 'a', 'n'] => some (.float (some (0.0 / 0.0)))
  | '0' :: 'x' :: ds => if sign.isNone then based? 16 ds else none
  | '0' :: 'o' :: ds => if sign.isNone then based? 8 ds else none
  | '0' :: 'b' :: ds => if sign.isNone then based? 2 ds else none
  | [] => none
  | body =>
    match body.dropWhile Char.isDigit with
    | [] => integer? sign body
    | '-' :: _ => moment? cs
    | ':' :: _ => moment? cs
    | rest =>
      if rest.contains ' ' then none
      else if rest.any fun c => c = '.' || c = 'e' || c = 'E' then float? sign body
      else if rest.head? = some '_' then integer? sign body
      else none

def scalar? (cs : List Char) : Option Toml :=
  if cs = ['t', 'r', 'u', 'e'] then some (.boolean true)
  else if cs = ['f', 'a', 'l', 's', 'e'] then some (.boolean false)
  else number? cs

/-- What a word may hold: all but blanks, line ends and the signs that words stand between. -/
def isScalarChar (c : Char) : Bool :=
  !(isBlank c || ['=', ',', '[', ']', '\x7b', '\x7d', '#', '\n'].contains c)

/-- The word at the start, with the words after it from which only blanks divide it: a date and a
time have one between them. -/
def scalarText : List Char → List Char
  | [] => []
  | c :: cs =>
    if isScalarChar c then c :: scalarText cs
    else if isBlank c then
      match cs.dropWhile isBlank with
      | d :: _ => if isScalarChar d && d != '"' && d != '\'' then c :: scalarText cs else []
      | [] => []
    else []

end FeatureLogic.Toml
