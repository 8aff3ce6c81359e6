import PrivateSums.Yaml.Scalar

/-!
Reads documents: block and flow maps and lists, plain and quoted scalars, comments. A map is read
with the last of several values under one key.

Every step either takes a character or descends into a construct that starts here, so that a bound
of a few steps per character is never reached.
-/

namespace PrivateSums.Yaml

open Numeral (digitsOf?)
open Document (put)

/-- A character and where it stands. -/
structure Mark where
  char : Char
  line : Nat
  column : Nat
  /-- Whether only blanks precede it on its line. -/
  first : Bool

/-- Gives every character its place. All line ends are read as one newline. -/
def place (line column : Nat) (first : Bool) : List Char → List Mark
  | [] => []
  | '\r' :: '\n' :: rest => ⟨'\n', line, column, first⟩ :: place (line + 1) 0 true rest
  | c :: rest =>
    if c = '\n' ∨ c = '\r' then ⟨'\n', line, column, first⟩ :: place (line + 1) 0 true rest
    else ⟨c, line, column, first⟩ :: place line (column + 1) (first && c == ' ') rest

abbrev Reader := StateT (List Mark) Option

def isBlank (c : Char) : Bool := c == ' ' || c == '\t'

def isWhite (m : Mark) : Bool := isBlank m.char || m.char == '\n'

def isFlowSign (c : Char) : Bool := c == ',' || c == '[' || c == ']' || c == '{' || c == '}'

/-- Whether a sign of one character ends where it stands. -/
def endsSign (rest : List Mark) : Bool := rest.head?.all isWhite

/-- Whether an item or a value starts here with this sign. -/
def startsWith (sign : Char) : List Mark → Bool
  | m :: rest => m.char == sign && endsSign rest
  | [] => false

/-- Drops blanks, line ends and comments. A tab does not indent a block. -/
def skipSpace (flow : Bool) : (comment fresh : Bool) → List Mark → List Mark
  | _, _, [] => []
  | comment, fresh, m :: rest =>
    if m.char = '\n' then skipSpace flow false true rest
    else if comment || m.char == '#' then skipSpace flow true fresh rest
    else if m.char == ' ' || (m.char == '\t' && (flow || !fresh)) then
      skipSpace flow false fresh rest
    else m :: rest

def skipBlock : Reader Unit := modify (skipSpace false false false)

def skipFlow : Reader Unit := modify (skipSpace true false false)

/-- The text that white space inside a scalar stands for. -/
def folded (white : List Mark) : List Char :=
  match white.countP (·.char == '\n') with
  | 0 => white.map (·.char)
  | 1 => [' ']
  | breaks => List.replicate (breaks - 1) '\n'

/-! ### Scalars -/

/-- A plain scalar to the end of its line. -/
def plainLine (flow : Bool) : (afterBlank : Bool) → List Mark → List Char × List Mark
  | _, [] => ([], [])
  | afterBlank, m :: rest =>
    if m.char == '\n' || (m.char == ':' && endsSign rest) || (m.char == '#' && afterBlank) ||
        (flow && isFlowSign m.char) then ([], m :: rest)
    else
      let (chars, rest) := plainLine flow (isBlank m.char) rest
      (m.char :: chars, rest)

def trimEnd (chars : List Char) : List Char := (chars.reverse.dropWhile isBlank).reverse

/-- The further lines of a plain scalar: those that are indented enough. -/
def plainLines (flow : Bool) (indent : Nat) : (bound : Nat) → List Char → Reader (List Char)
  | 0, chars => return chars
  | bound + 1, chars => do
    let white := (← get).takeWhile isWhite
    let after := (← get).dropWhile isWhite
    match after with
    | [] => return chars
    | m :: _ =>
      if white.all (·.char != '\n') || (!flow && m.column < indent) || m.char == '#' ||
          startsWith ':' after || (flow && isFlowSign m.char) then return chars
      let (line, rest) := plainLine flow false after
      set rest
      plainLines flow indent bound (chars ++ folded white ++ trimEnd line)

def startsPlain (flow : Bool) : List Mark → Bool
  | [] => false
  | m :: rest =>
    if m.char == '-' || (!flow && (m.char == '?' || m.char == ':')) then !endsSign rest
    else !"-?:,[]\x7b\x7d#&*!|>'\"%@`\t".contains m.char

def hexEscape (digits : Nat) : Reader Char := do
  let marks ← get
  let value ← digitsOf? 16 ((marks.take digits).map (·.char))
  guard (digits ≤ marks.length ∧ value.isValidChar)
  set (marks.drop digits)
  return Char.ofNat value

def namedEscapes : List (Char × Nat) :=
  [('0', 0), ('a', 7), ('b', 8), ('t', 9), ('\t', 9), ('n', 10), ('v', 11), ('f', 12), ('r', 13),
    ('e', 27), (' ', 32), ('"', 34), ('/', 47), ('\\', 92), ('N', 0x85), ('_', 0xA0),
    ('L', 0x2028), ('P', 0x2029)]

/-- What follows a backslash. -/
def escape : Reader (List Char) := do
  let m :: rest ← get | failure
  set rest
  match m.char with
  | 'x' => return [← hexEscape 2]
  | 'u' => return [← hexEscape 4]
  | 'U' => return [← hexEscape 8]
  | '\n' =>
    set (rest.dropWhile isWhite)
    return []
  | c => return [Char.ofNat (← namedEscapes.lookup c)]

/-- A quoted scalar after its opening quote. -/
def quoted (quote : Char) : (bound : Nat) → List Char → Reader (List Char)
  | 0, _ => failure
  | bound + 1, chars => do
    let m :: rest ← get | failure
    if m.char = quote then
      match quote, rest with
      | '\'', ⟨'\'', _, _, _⟩ :: rest =>
        set rest
        quoted quote bound (chars ++ ['\''])
      | _, _ =>
        set rest
        return chars
    else if m.char = '\\' ∧ quote = '"' then
      set rest
      quoted quote bound (chars ++ (← escape))
    else if isWhite m then
      let white := (m :: rest).takeWhile isWhite
      set ((m :: rest).dropWhile isWhite)
      quoted quote bound (chars ++ folded white)
    else
      set rest
      quoted quote bound (chars ++ [m.char])

/-- A scalar, and whether it is plain. -/
def scalar (flow : Bool) (indent : Nat) : Reader (String × Bool) := do
  let marks ← get
  let m :: rest := marks | failure
  if m.char = '"' ∨ m.char = '\'' then
    set rest
    return (String.ofList (← quoted m.char marks.length []), false)
  else
    guard (startsPlain flow marks)
    let (line, rest) := plainLine flow false marks
    set rest
    return (String.ofList (← plainLines flow indent marks.length (trimEnd line)), true)

def meaning : String × Bool → Document
  | (text, true) => resolve text
  | (text, false) => .text text

/-! ### Flow collections -/

/-- Takes one of the signs that stand between and after the entries of a flow collection; whether it
is the last. -/
def flowEnd (close : Char) : Reader Bool := do
  skipFlow
  let m :: rest ← get | failure
  set rest
  guard (m.char = ',' ∨ m.char = close)
  return m.char == close

mutual

def flowNode : (bound : Nat) → Reader Document
  | 0 => failure
  | bound + 1 => do
    skipFlow
    let m :: rest ← get | failure
    match m.char with
    | '[' =>
      set rest
      flowList bound []
    | '{' =>
      set rest
      flowMap bound []
    | _ => return meaning (← scalar true 0)

/-- The items up to the closing bracket. -/
def flowList : (bound : Nat) → List Document → Reader Document
  | 0, _ => failure
  | bound + 1, items => do
    skipFlow
    let m :: rest ← get | failure
    if m.char = ']' then
      set rest
      return .list items
    let items := items ++ [← flowNode bound]
    if ← flowEnd ']' then return .list items
    flowList bound items

/-- The entries up to the closing brace. -/
def flowMap : (bound : Nat) → List (String × Document) → Reader Document
  | 0, _ => failure
  | bound + 1, entries => do
    skipFlow
    let m :: rest ← get | failure
    if m.char = '}' then
      set rest
      return .map entries
    let (key, _) ← scalar true 0
    skipFlow
    let value ← match ← get with
      | ⟨':', _, _, _⟩ :: rest => do
        set rest
        skipFlow
        match (← get).head?.map (·.char) with
        | some ',' | some '}' => pure .null
        | _ => flowNode bound
      | _ => pure .null
    let entries := put entries key value
    if ← flowEnd '}' then return .map entries
    flowMap bound entries

end

/-! ### Block collections -/

mutual

/-- A node that starts here, at `indent` or deeper. Only a node that starts a line, or follows the
sign of a list item, may be a block collection. -/
def node : (bound indent : Nat) → (block : Bool) → Reader Document
  | 0, _, _ => failure
  | bound + 1, indent, block => do
    let marks ← get
    let m :: _ := marks | return .null
    if m.column < indent then return .null
    if startsWith '-' marks then
      guard block
      blockList bound m.column []
    else if m.char = '[' ∨ m.char = '{' then flowNode bound
    else
      let content ← scalar false indent
      let rest := (← get).dropWhile (isBlank ·.char)
      if startsWith ':' rest then
        guard (block ∧ rest.head?.all (·.line = m.line))
        set rest
        blockMap bound m.column [] content.1
      else return meaning content

/-- The items of a list whose signs stand at `column`, from such a sign on. -/
def blockList : (bound column : Nat) → List Document → Reader Document
  | 0, _, _ => failure
  | bound + 1, column, items => do
    let sign :: rest ← get | failure
    set rest
    skipBlock
    let item ← match ← get with
      | m :: _ =>
        if m.line = sign.line ∨ column < m.column then node bound (column + 1) true
        else pure .null
      | [] => pure .null
    let items := items ++ [item]
    skipBlock
    match ← get with
    | [] => return .list items
    | m :: rest =>
      if m.column = column ∧ m.first ∧ startsWith '-' (m :: rest) then
        blockList bound column items
      else
        guard (m.column ≤ column)
        return .list items

/-- The entries of a map whose keys stand at `column`, from the colon of one on. -/
def blockMap : (bound column : Nat) → List (String × Document) → (key : String) → Reader Document
  | 0, _, _, _ => failure
  | bound + 1, column, entries, key => do
    let sign :: rest ← get | failure
    set rest
    skipBlock
    let value ← match ← get with
      | m :: rest =>
        if m.line = sign.line then node bound (column + 1) false
        else if column < m.column then node bound (column + 1) true
        else if m.column = column ∧ startsWith '-' (m :: rest) then blockList bound column []
        else pure .null
      | [] => pure .null
    let entries := put entries key value
    skipBlock
    match ← get with
    | [] => return .map entries
    | m :: _ =>
      if m.column < column then return .map entries
      guard (m.column = column ∧ m.first)
      let (key, _) ← scalar false (column + 1)
      let rest := (← get).dropWhile (isBlank ·.char)
      guard (startsWith ':' rest ∧ rest.head?.all (·.line = m.line))
      set rest
      blockMap bound column entries key

end

/-- Leaves out the sign that may open a document. -/
def dropOpening (marks : List Mark) : List Mark :=
  match marks with
  | ⟨'-', _, 0, _⟩ :: ⟨'-', _, _, _⟩ :: ⟨'-', _, _, _⟩ :: rest =>
    if endsSign rest then rest else marks
  | _ => marks

/-- What follows three points at the start of a line, which close a document. -/
def afterClosing? : List Mark → Option (List Mark)
  | ⟨'.', _, 0, _⟩ :: ⟨'.', _, _, _⟩ :: ⟨'.', _, _, _⟩ :: rest =>
    if endsSign rest then some rest else none
  | _ => none

/-- The text up to where it is closed. Nothing may follow there. -/
def beforeClosing? : List Mark → Option (List Mark)
  | [] => some []
  | m :: marks =>
    match afterClosing? (m :: marks) with
    | some rest => if (skipSpace false false false rest).isEmpty then some [] else none
    | none => (beforeClosing? marks).map (m :: ·)

/-- Reads a document; nothing at all is an empty map. -/
def read? (text : String) : Option Document := do
  let marks ← beforeClosing? (place 0 0 true text.toList)
  let marks := skipSpace false false true (dropOpening (skipSpace false false true marks))
  if marks.isEmpty then return .map []
  let (document, rest) ← (node (4 * marks.length + 4) 0 true).run marks
  guard (skipSpace false false false rest).isEmpty
  return document

end PrivateSums.Yaml
