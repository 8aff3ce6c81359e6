import PrivateSums.Yaml.Scalar

/-!
Writes documents in block style. A text is written plain where that reads back as the text, in
quotes or as a literal block elsewhere.
-/

namespace PrivateSums.Yaml

def isBreak (c : Char) : Bool := c == '\n'

/-- Whether a character may stand outside double quotes. -/
def isPrintable (c : Char) : Bool :=
  isBreak c || (' ' ≤ c && c ≤ '~') ||
    (0xA0 ≤ c.toNat && c.toNat ∉ [0xFEFF, 0xFFFE, 0xFFFF])

/-! ### Plain texts -/

/-- Whether a text starts as something that is no plain scalar. -/
def startsAsSign : List Char → Bool
  | '-' :: '-' :: '-' :: _ | '.' :: '.' :: '.' :: _ => true
  | c :: rest => "#,[]\x7b\x7d&*!|>'\"%@`".contains c ||
      ((c == '-' || c == '?' || c == ':') && rest.head?.all (· == ' '))
  | [] => true

/-- Whether a colon or a comment ends a plain scalar before the text ends. -/
def endsEarly : (afterBlank : Bool) → List Char → Bool
  | _, [] => false
  | afterBlank, c :: rest =>
    (c == ':' && rest.head?.all (· == ' ')) || (c == '#' && afterBlank) ||
      endsEarly (c == ' ') rest

/-- The words that some readers take for truth values. -/
def truthWords : List String :=
  ["y", "Y", "yes", "Yes", "YES", "n", "N", "no", "No", "NO", "on", "On", "ON", "off", "Off", "OFF"]

/-- Whether the plain scalar of these characters means them. -/
def meansItself (text : String) : Bool :=
  match resolve text with
  | .text _ => !isZeroPadded text.toList && text ∉ truthWords
  | _ => false

def isPlain (chars : List Char) : Bool :=
  !startsAsSign chars && !endsEarly true chars && chars.head? != some ' ' &&
    chars.getLast? != some ' '

/-! ### Quoted texts -/

def singleQuoted (chars : List Char) : String :=
  String.ofList ('\'' :: chars.flatMap (fun c => if c = '\'' then ['\'', c] else [c]) ++ ['\''])

/-- Upper-case digits of a character, `width` of them. -/
def hexDigits (width : Nat) (c : Char) : List Char :=
  let digits := (Nat.toDigits 16 c.toNat).map Char.toUpper
  List.replicate (width - digits.length) '0' ++ digits

def letterEscapes : List (Char × Char) :=
  [('\x00', '0'), ('\x07', 'a'), ('\x08', 'b'), ('\t', 't'), ('\n', 'n'), ('\x0b', 'v'),
    ('\x0c', 'f'), ('\r', 'r'), ('\x1b', 'e'), ('"', '"'), ('\\', '\\'), ('\u0085', 'N')]

def escaped (c : Char) : List Char :=
  match letterEscapes.lookup c with
  | some letter => ['\\', letter]
  | none =>
    if isPrintable c then [c]
    else if c.toNat < 0x100 then '\\' :: 'x' :: hexDigits 2 c
    else if c.toNat < 0x10000 then '\\' :: 'u' :: hexDigits 4 c
    else '\\' :: 'U' :: hexDigits 8 c

def doubleQuoted (chars : List Char) : String :=
  String.ofList ('"' :: chars.flatMap escaped ++ ['"'])

/-- A text on one line. -/
def inlineText (text : String) : String :=
  let chars := text.toList
  if !chars.all isPrintable || chars.any isBreak then doubleQuoted chars
  else if meansItself text && isPlain chars then text
  else singleQuoted chars

/-! ### Literal blocks -/

/-- Whether a blank precedes a line end or the end. -/
def endsInBlank : List Char → Bool
  | [] => false
  | c :: rest => (c == ' ' && rest.head?.all isBreak) || endsInBlank rest

/-- The sign of a literal block: a width where the first line starts with white space, and what
becomes of the line ends that close the text. -/
def literalSign (chars : List Char) : String :=
  let width := if chars.head?.any (fun c => c == ' ' || isBreak c) then "2" else ""
  let close := match chars.reverse with
    | '\n' :: '\n' :: _ | ['\n'] => "+"
    | '\n' :: _ => ""
    | _ => "-"
  "|" ++ width ++ close

def linesOf : List Char → List (List Char)
  | [] => []
  | c :: rest =>
    if isBreak c then [] :: linesOf rest
    else match linesOf rest with
      | line :: lines => (c :: line) :: lines
      | [] => [[c]]

/-- A text of several lines is a literal block, unless that would not show a blank. -/
def textLines (text : String) : List String :=
  let chars := text.toList
  if !chars.any isBreak || !chars.all isPrintable || endsInBlank chars then [inlineText text]
  else literalSign chars :: (linesOf chars).map String.ofList

/-! ### Documents -/

def indented (lines : List String) : List String :=
  lines.map fun line => if line.isEmpty then line else "  " ++ line

/-- Lines after a sign. -/
def hung (sign : String) : List String → List String
  | [] => [sign]
  | first :: rest => (sign ++ " " ++ first) :: indented rest

/-- The lines of an entry. The signs of a list stand below its key. -/
def entryLines (key : String) (value : Document) (lines : List String) : List String :=
  let sign := inlineText key ++ ":"
  match value with
  | .list (_ :: _) => sign :: lines
  | .map (_ :: _) => sign :: indented lines
  | _ => hung sign lines

mutual

def lines : Document → List String
  | .null => ["null"]
  | .bool b => [toString b]
  | .int i => [toString i]
  | .real => [".nan"]
  | .text s => textLines s
  | .list [] => ["[]"]
  | .list (item :: items) => listLines (item :: items)
  | .map [] => ["\x7b\x7d"]
  | .map (entry :: entries) => mapLines (entry :: entries)

def listLines : List Document → List String
  | [] => []
  | item :: items => hung "-" (lines item) ++ listLines items

def mapLines : List (String × Document) → List String
  | [] => []
  | (key, value) :: entries => entryLines key value (lines value) ++ mapLines entries

end

def write (d : Document) : String := String.join ((lines d).map (· ++ "\n"))

end PrivateSums.Yaml
