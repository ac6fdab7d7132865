import FeatureLogic.Json.Basic
/-!
Reading JSON text: one value, with nothing but blanks around it.
-/
set_option autoImplicit false

namespace FeatureLogic.Json

def isBlank (c : Char) : Bool := c = ' ' || c = '\n' || c = '\t' || c = '\r'

def skipBlanks (cs : List Char) : List Char := cs.dropWhile isBlank

/-- What the whole of a string or a value leaves of the text after it. -/
abbrev Parsed (α : Type) := Option (α × List Char)

def hexValue? (c : Char) : Option Nat :=
  if c.isDigit then some (c.toNat - 48)
  else if 'a' ≤ c && c ≤ 'f' then some (c.toNat - 87)
  else if 'A' ≤ c && c ≤ 'F' then some (c.toNat - 55)
  else none

def hexUnit? (a b c d : Char) : Option Nat := do
  return (((← hexValue? a) * 16 + (← hexValue? b)) * 16 + (← hexValue? c)) * 16 + (← hexValue? d)

/-- The characters read so far, last first. `high` is the first half of a surrogate pair whose
second half is due; `broken` says that some half stands alone. -/
structure TextState where
  chars : List Char := []
  high : Option Nat := none
  broken : Bool := false

namespace TextState

def push (t : TextState) (c : Char) : TextState :=
  ⟨c :: t.chars, none, t.broken || t.high.isSome⟩

/-- Takes a code unit given by an escape. -/
def pushUnit (t : TextState) (u : Nat) : TextState :=
  if 0xDC00 ≤ u && u ≤ 0xDFFF then
    match t.high with
    | some h =>
      ⟨Char.ofNat (0x10000 + (h - 0xD800) * 0x400 + (u - 0xDC00)) :: t.chars, none, t.broken⟩
    | none => { t with broken := true }
  else if 0xD800 ≤ u && u ≤ 0xDBFF then ⟨t.chars, some u, t.broken || t.high.isSome⟩
  else t.push (Char.ofNat u)

def text (t : TextState) : Option String :=
  if t.broken || t.high.isSome then none else some (String.ofList t.chars.reverse)

end TextState

/-- The rest of a string, after its opening quote. -/
def readText : List Char → TextState → Parsed (Option String)
  | [], _ => none
  | '"' :: cs, t => some (t.text, cs)
  | ['\\'], _ => none
  | '\\' :: 'u' :: a :: b :: c :: d :: cs, t =>
    match hexUnit? a b c d with
    | some u => readText cs (t.pushUnit u)
    | none => none
  | '\\' :: e :: cs, t =>
    match e with
    | '"' => readText cs (t.push '"')
    | '\\' => readText cs (t.push '\\')
    | '/' => readText cs (t.push '/')
    | 'b' => readText cs (t.push '\x08')
    | 'f' => readText cs (t.push '\x0c')
    | 'n' => readText cs (t.push '\n')
    | 'r' => readText cs (t.push '\r')
    | 't' => readText cs (t.push '\t')
    | _ => none
  | c :: cs, t => if c < ' ' then none else readText cs (t.push c)

/-- Of digits before the point a zero is the only one. -/
def readWhole (cs : List Char) : Parsed (List Char) :=
  match cs.takeWhile Char.isDigit, cs.dropWhile Char.isDigit with
  | [], _ => none
  | '0' :: _ :: _, _ => none
  | ds, rest => some (ds, rest)

def readFraction : List Char → Parsed (List Char)
  | '.' :: cs =>
    match cs.takeWhile Char.isDigit with
    | [] => none
    | ds => some (ds, cs.dropWhile Char.isDigit)
  | cs => some ([], cs)

def readExponentDigits (negative : Bool) (cs : List Char) : Parsed (Option Int) :=
  match cs.takeWhile Char.isDigit with
  | [] => none
  | ds =>
    let value : Nat := ds.foldl (fun v c => v * 10 + digitValue c) 0
    some (some (if negative then -value else value), cs.dropWhile Char.isDigit)

def readExponent : List Char → Parsed (Option Int)
  | [] => some (none, [])
  | c :: cs =>
    if c = 'e' || c = 'E' then
      match cs with
      | '+' :: cs => readExponentDigits false cs
      | '-' :: cs => readExponentDigits true cs
      | cs => readExponentDigits false cs
    else some (none, c :: cs)

def readUnsigned (negative : Bool) (cs : List Char) : Parsed Json :=
  match readWhole cs with
  | none => none
  | some (whole, cs) =>
    match readFraction cs with
    | none => none
    | some (fraction, cs) =>
      match readExponent cs with
      | none => none
      | some (exponent, cs) => some (.number ⟨negative, whole, fraction, exponent⟩, cs)

def readNumber : List Char → Parsed Json
  | '-' :: cs => readUnsigned true cs
  | cs => readUnsigned false cs

mutual

/-- A value, blanks before it included. Each step takes a character or goes into a container, so
twice as many steps as characters are enough. -/
def readValue : Nat → List Char → Parsed Json
  | 0, _ => none
  | steps + 1, cs =>
    match skipBlanks cs with
    | '"' :: cs => (readText cs {}).map fun (text, cs) => (.string text, cs)
    | '[' :: cs =>
      match skipBlanks cs with
      | ']' :: cs => some (.array [], cs)
      | cs => readItems steps [] cs
    | '\x7b' :: cs =>
      match skipBlanks cs with
      | '\x7d' :: cs => some (.object [], cs)
      | cs => readMembers steps [] cs
    | 'n' :: 'u' :: 'l' :: 'l' :: cs => some (.null, cs)
    | 't' :: 'r' :: 'u' :: 'e' :: cs => some (.bool true, cs)
    | 'f' :: 'a' :: 'l' :: 's' :: 'e' :: cs => some (.bool false, cs)
    | cs => readNumber cs

/-- The rest of an array that has at least one more item; `before` holds the others, last first. -/
def readItems : Nat → List Json → List Char → Parsed Json
  | 0, _, _ => none
  | steps + 1, before, cs =>
    match readValue steps cs with
    | none => none
    | some (item, cs) =>
      match skipBlanks cs with
      | ',' :: cs => readItems steps (item :: before) cs
      | ']' :: cs => some (.array (item :: before).reverse, cs)
      | _ => none

def readMembers : Nat → List (Option String × Json) → List Char → Parsed Json
  | 0, _, _ => none
  | steps + 1, before, cs =>
    match skipBlanks cs with
    | '"' :: cs =>
      match readText cs {} with
      | none => none
      | some (name, cs) =>
        match skipBlanks cs with
        | ':' :: cs =>
          match readValue steps cs with
          | none => none
          | some (value, cs) =>
            match skipBlanks cs with
            | ',' :: cs => readMembers steps ((name, value) :: before) cs
            | '\x7d' :: cs => some (.object ((name, value) :: before).reverse, cs)
            | _ => none
        | _ => none
    | _ => none

end

/-- Control characters that are not blanks stand nowhere in JSON text. -/
def ofText? (s : String) : Option Json :=
  if s.any fun c => c < ' ' && !isBlank c then none
  else
    let cs := s.toList
    match readValue (2 * cs.length + 2) cs with
    | some (j, rest) => if (skipBlanks rest).isEmpty then some j else none
    | none => none

end FeatureLogic.Json
