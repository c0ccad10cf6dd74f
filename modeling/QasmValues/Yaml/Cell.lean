/-! The characters of a YAML document with their places.
Places matter: blocks are told by the columns of their keys, and a key that is
not announced ends on the line where it starts. One cell more marks the end. -/

namespace QasmValues.Yaml

def isPrintable (c : Char) : Bool :=
  let n := c.toNat
  n = 0x09 ∨ n = 0x0a ∨ n = 0x0d ∨ (0x20 ≤ n ∧ n ≤ 0x7e) ∨ n = 0x85 ∨
    (0xa0 ≤ n ∧ n ≠ 0xfffe ∧ n ≠ 0xffff)

/-- The mark of the end, which is not printable and so is no character of a document. -/
def endMark : Char := '\x00'

def isBlank (c : Char) : Bool := c = ' ' || c = '\t'

/-- A line break; the other ways of writing one are read as a line feed. -/
def isBreak (c : Char) : Bool := c = '\n' || c = '\u2028' || c = '\u2029'

def isSpace (c : Char) : Bool := isBlank c || isBreak c

def endsLine (c : Char) : Bool := isBreak c || c = endMark

def endsWord (c : Char) : Bool := isBlank c || endsLine c

def isNameChar (c : Char) : Bool := c.isAlphanum || c = '_' || c = '-'

def hexDigit? (c : Char) : Option Nat :=
  let lower := c.toLower
  if c.isDigit then some (c.toNat - '0'.toNat)
  else if 'a' ≤ lower ∧ lower ≤ 'f' then some (lower.toNat - 'a'.toNat + 10)
  else none

def hexNumber? (digits : List Char) : Option Nat :=
  digits.foldlM (fun value c => do pure (16 * value + (← hexDigit? c))) 0

structure Cell where
  char : Char
  line : Nat
  column : Nat
  index : Nat
  deriving DecidableEq, Repr

def cellsFrom : List Char → (line column index : Nat) → List Cell
  | [], line, column, index => [⟨endMark, line, column, index⟩]
  | '\r' :: '\n' :: rest, line, column, index =>
    ⟨'\n', line, column, index⟩ :: cellsFrom rest (line + 1) 0 (index + 2)
  | c :: rest, line, column, index =>
    let char := if c = '\r' ∨ c = '\u0085' then '\n' else c
    ⟨char, line, column, index⟩ ::
      if isBreak char then cellsFrom rest (line + 1) 0 (index + 1)
      else cellsFrom rest line (column + 1) (index + 1)

def cells? (text : String) : Option (List Cell) :=
  if text.toList.all isPrintable then some (cellsFrom text.toList 0 0 0) else none

def charsOf (cells : List Cell) : List Char := cells.map (·.char)

def peek : List Cell → Char
  | [] => endMark
  | c :: _ => c.char

def columnAt : List Cell → Nat
  | [] => 0
  | c :: _ => c.column

def spanChars (p : Char → Bool) (cells : List Cell) : List Char × List Cell :=
  (charsOf (cells.takeWhile (p ·.char)), cells.dropWhile (p ·.char))

def nextLine? (cells : List Cell) : Option (List Cell) :=
  let rest := cells.dropWhile (isBlank ·.char)
  let rest := if peek rest = '#' then rest.dropWhile (!endsLine ·.char) else rest
  if isBreak (peek rest) then some (rest.drop 1)
  else if peek rest = endMark then some rest
  else none

def atMarker : List Cell → Bool
  | x :: y :: z :: rest =>
    x.column = 0 && (x.char = '-' || x.char = '.') && y.char = x.char && z.char = x.char &&
      endsWord (peek rest)
  | _ => false

end QasmValues.Yaml
