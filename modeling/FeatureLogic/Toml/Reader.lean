import FeatureLogic.Toml.Scalar
/-!
Reading TOML documents.
-/
set_option autoImplicit false

namespace FeatureLogic.Toml

abbrev Parsed (α : Type) := Option (α × List Char)

/-- Writes every line end as one character; `before` holds what is done, last character first. A
carriage return stands nowhere else. -/
def plain? (before : List Char) : List Char → Option (List Char)
  | [] => some before.reverse
  | '\r' :: '\n' :: cs => plain? ('\n' :: before) cs
  | c :: cs => if c = '\r' then none else plain? (c :: before) cs

/-- What stands in comments and strings: no control characters but tabs. -/
def isText (c : Char) : Bool := c = '\t' || (' ' ≤ c && c != '\x7f')

def skipBlanks (cs : List Char) : List Char := cs.dropWhile isBlank

def skipComment : List Char → List Char
  | '#' :: cs => cs.dropWhile isText
  | cs => cs

/-- The text after the end of a line on which nothing more than a comment follows. -/
def endLine? (cs : List Char) : Option (List Char) :=
  match skipComment (skipBlanks cs) with
  | [] => some []
  | '\n' :: cs => some cs
  | _ => none

/-- Skips blanks, line ends and comments, up to a character that stands in none of them. -/
def skipLines (inComment : Bool) : List Char → List Char
  | [] => []
  | '\n' :: cs => skipLines false cs
  | c :: cs =>
    if inComment then if isText c then skipLines true cs else c :: cs
    else if c = '#' then skipLines true cs
    else if isBlank c then skipLines false cs
    else c :: cs

def skipSpace (cs : List Char) : List Char := skipLines false cs

/-- The character with a number of exactly `width` hexadecimal digits. -/
def escaped? (width : Nat) (cs : List Char) : Parsed Char :=
  let ds := cs.take width
  let value := valueOf 16 ds
  if ds.length = width && ds.all (isDigitOf 16) && value.isValidChar then
    some (Char.ofNat value, cs.drop width)
  else none

/-- What follows a backslash. -/
def escape? : List Char → Parsed Char
  | 'b' :: cs => some ('\x08', cs)
  | 't' :: cs => some ('\t', cs)
  | 'n' :: cs => some ('\n', cs)
  | 'f' :: cs => some ('\x0c', cs)
  | 'r' :: cs => some ('\r', cs)
  | 'e' :: cs => some ('\x1b', cs)
  | '"' :: cs => some ('"', cs)
  | '\\' :: cs => some ('\\', cs)
  | 'x' :: cs => escaped? 2 cs
  | 'u' :: cs => escaped? 4 cs
  | 'U' :: cs => escaped? 8 cs
  | _ => none

def finish (before : List Char) (cs : List Char) : Parsed String :=
  some (String.ofList before.reverse, cs)

/-- The rest of a string in double quotes; `before` is its start, last character first. -/
def basicString : Nat → List Char → List Char → Parsed String
  | 0, _, _ => none
  | steps + 1, before, cs =>
    match cs with
    | '"' :: cs => finish before cs
    | '\\' :: cs =>
      match escape? cs with
      | some (c, cs) => basicString steps (c :: before) cs
      | none => none
    | c :: cs => if isText c then basicString steps (c :: before) cs else none
    | [] => none

def literalString : List Char → List Char → Parsed String
  | before, '\'' :: cs => finish before cs
  | before, c :: cs => if isText c then literalString (c :: before) cs else none
  | _, [] => none

def isLineText (c : Char) : Bool := isText c || c = '\n'

/-- The end of a string over several lines, at its first three quotes in a row. Up to two more
quotes before the closing ones belong to the string. -/
def closing? (quote : Char) (before : List Char) (cs : List Char) : Option (Parsed String) :=
  match cs.takeWhile (· == quote) with
  | q :: r :: s :: more =>
    let own := (q :: r :: s :: more).length - 3
    if own ≤ 2 then some (finish (List.replicate own quote ++ before) (cs.drop (own + 3)))
    else some (finish (List.replicate 2 quote ++ before) (cs.drop 5))
  | _ => none

/-- Whether only blanks stand before the end of the line. -/
def endsLine (cs : List Char) : Bool :=
  match skipBlanks cs with
  | '\n' :: _ => true
  | _ => false

/-- A backslash at the end of a line takes the white space up to the next character with it. -/
def basicLines : Nat → List Char → List Char → Parsed String
  | 0, _, _ => none
  | steps + 1, before, cs =>
    match closing? '"' before cs with
    | some result => result
    | none =>
      match cs with
      | '\\' :: cs =>
        if endsLine cs then
          basicLines steps before (cs.dropWhile fun c => isBlank c || c = '\n')
        else
          match escape? cs with
          | some (c, cs) => basicLines steps (c :: before) cs
          | none => none
      | c :: cs => if isLineText c then basicLines steps (c :: before) cs else none
      | [] => none

def literalLines : Nat → List Char → List Char → Parsed String
  | 0, _, _ => none
  | steps + 1, before, cs =>
    match closing? '\'' before cs with
    | some result => result
    | none =>
      match cs with
      | c :: cs => if isLineText c then literalLines steps (c :: before) cs else none
      | [] => none

/-- A line end right after the opening quotes is not part of the string. -/
def dropLineEnd : List Char → List Char
  | '\n' :: cs => cs
  | cs => cs

def isBare (c : Char) : Bool :=
  c.isAlphanum || c = '_' || c = '-'

def key? : List Char → Parsed String
  | '"' :: cs => basicString (cs.length + 1) [] cs
  | '\'' :: cs => literalString [] cs
  | cs =>
    match cs.takeWhile isBare with
    | [] => none
    | name => some (String.ofList name, cs.dropWhile isBare)

/-- Arrays and inline tables nest at most as deep, and a key has at most as many parts. -/
def depthLimit : Nat := 80

/-- Keys with points between them, at most as many as the first argument says. -/
def keys? : Nat → List Char → Parsed (List String)
  | 0, _ => none
  | parts + 1, cs =>
    match key? (skipBlanks cs) with
    | none => none
    | some (name, cs) =>
      match skipBlanks cs with
      | '.' :: cs => (keys? parts cs).map fun (names, cs) => (name :: names, cs)
      | cs => some ([name], cs)

/-- The text after the sign between a key and its value. -/
def afterEquals? : List Char → Option (List Char)
  | '=' :: cs => some cs
  | _ => none

mutual

/-- Each step goes into an array or a table or takes a character, so twice as many steps as
characters are enough. `depth` is how many arrays and tables may still be opened. -/
def readValue : Nat → Nat → List Char → Parsed Toml
  | 0, _, _ => none
  | steps + 1, depth, cs =>
    let text (p : Parsed String) : Parsed Toml := p.map fun (s, cs) => (.string s, cs)
    match cs with
    | '"' :: '"' :: '"' :: cs => text (basicLines (cs.length + 1) [] (dropLineEnd cs))
    | '\'' :: '\'' :: '\'' :: cs => text (literalLines (cs.length + 1) [] (dropLineEnd cs))
    | '"' :: cs => text (basicString (cs.length + 1) [] cs)
    | '\'' :: cs => text (literalString [] cs)
    | '[' :: cs =>
      match depth with
      | 0 => none
      | depth + 1 => readItems steps depth [] cs
    | '\x7b' :: cs =>
      match depth with
      | 0 => none
      | depth + 1 => readInline steps depth .inline [] cs
    | cs =>
      let word := scalarText cs
      (scalar? word).map fun value => (value, cs.drop word.length)

/-- The rest of an array; `before` holds its first items, last first. -/
def readItems : Nat → Nat → List Toml → List Char → Parsed Toml
  | 0, _, _, _ => none
  | steps + 1, depth, before, cs =>
    match skipSpace cs with
    | ']' :: cs => some (.array false before.reverse, cs)
    | cs =>
      match readValue steps depth cs with
      | none => none
      | some (item, cs) =>
        match skipSpace cs with
        | ',' :: cs => readItems steps depth (item :: before) cs
        | ']' :: cs => some (.array false (item :: before).reverse, cs)
        | _ => none

/-- The rest of a table between braces. Only within a key may no line end. -/
def readInline : Nat → Nat → Origin → Entries → List Char → Parsed Toml
  | 0, _, _, _, _ => none
  | steps + 1, depth, origin, es, cs =>
    match skipSpace cs with
    | '\x7d' :: cs => some (.table .inline es, cs)
    | cs =>
      match keys? depthLimit cs with
      | none => none
      | some (names, cs) =>
        match (afterEquals? (skipSpace cs)).bind fun cs => readValue steps depth (skipSpace cs) with
        | none => none
        | some (value, cs) =>
          match addPair names value origin es with
          | none => none
          | some (origin, es) =>
            match skipSpace cs with
            | ',' :: cs => readInline steps depth origin es cs
            | '\x7d' :: cs => some (.table .inline es, cs)
            | _ => none

end

/-- A key and its value, on one line but for what is in brackets or between three quotes. -/
def pair? (cs : List Char) : Option ((List String × Toml) × List Char) := do
  let (names, cs) ← keys? depthLimit cs
  let cs := skipBlanks (← afterEquals? cs)
  let (value, cs) ← readValue (2 * cs.length + 2) depthLimit cs
  return ((names, value), cs)

/-- The entries of a document, line by line. -/
def readLines : Nat → List String → Entries → List Char → Option Entries
  | 0, _, _, _ => none
  | steps + 1, header, es, cs =>
    match skipSpace cs with
    | [] => some es
    | '[' :: '[' :: cs => do
      let (names, cs) ← keys? depthLimit cs
      match cs with
      | ']' :: ']' :: cs =>
        let (_, es) ← open? openItem names .header es
        readLines steps names es (← endLine? cs)
      | _ => none
    | '[' :: cs => do
      let (names, cs) ← keys? depthLimit cs
      match cs with
      | ']' :: cs =>
        let (_, es) ← open? openTable names .header es
        readLines steps names es (← endLine? cs)
      | _ => none
    | cs => do
      let ((names, value), cs) ← pair? cs
      let (_, es) ← change false (addPair names value) header .header es
      readLines steps header es (← endLine? cs)

/-- A byte order mark at the start is passed over. -/
def ofText? (s : String) : Option Entries := do
  let cs ← plain? [] s.toList
  let cs := match cs with
    | '\ufeff' :: cs => cs
    | cs => cs
  readLines (cs.length + 1) [] [] cs

end FeatureLogic.Toml
