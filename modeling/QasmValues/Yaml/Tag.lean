import QasmValues.Yaml.Cell
import QasmValues.Yaml.Token

/-! Tags, and the directives before a document.
A tag is a handle, which a directive may explain, and a suffix; or it is given
in full between angle brackets. A percent sign escapes an octet. -/

namespace QasmValues.Yaml

def isTagChar (c : Char) : Bool := isNameChar c || ";/?:@&=+$.%!~*'()".toList.contains c

def isFullTagChar (c : Char) : Bool := isTagChar c || c = ',' || c = '[' || c = ']'

/-- How many octets follow the first of a character. -/
def following? (octet : Nat) : Option Nat :=
  if octet < 0x80 then some 0
  else if octet < 0xc0 then none
  else if octet < 0xe0 then some 1
  else if octet < 0xf0 then some 2
  else if octet < 0xf8 then some 3
  else none

def escapedOctets? (pending : Nat) : List Char → Option Octets
  | [] => if pending = 0 then some [] else none
  | '%' :: a :: b :: rest => do
    let octet ← hexNumber? [a, b]
    let more ←
      if pending = 0 then following? octet
      else if 0x80 ≤ octet ∧ octet < 0xc0 then some (pending - 1)
      else none
    pure (octet.toUInt8 :: (← escapedOctets? more rest))
  | c :: rest =>
    if c = '%' || pending ≠ 0 then none
    else do pure (c.toNat.toUInt8 :: (← escapedOctets? 0 rest))

def octets? (chars : List Char) : Option Octets := do
  pure ((← escapedOctets? 0 chars).takeWhile (· ≠ 0))

/-- The octets here, of which there is one at least, and what follows them. -/
def octetsAt? (full : Bool) (cells : List Cell) : Option (Octets × List Cell) := do
  let (chars, rest) := spanChars (if full then isFullTagChar else isTagChar) cells
  if chars = [] then failure else pure (← octets? chars, rest)

def tag? (inBraces : Bool) (cells : List Cell) : Option (Token × List Cell) := do
  let (token, rest) ←
    if peek cells = '<' then do
      let (suffix, rest) ← octetsAt? true (cells.drop 1)
      if peek rest = '>' then pure (Token.tag "" suffix, rest.drop 1) else failure
    else do
      let (word, rest) := spanChars isNameChar cells
      if peek rest = '!' then do
        let (suffix, rest) ← octetsAt? false (rest.drop 1)
        pure (Token.tag (String.ofList ('!' :: word ++ ['!'])) suffix, rest)
      else do
        let (chars, rest) := spanChars isTagChar cells
        let suffix ← octets? chars
        pure (if suffix = [] then .tag "" "!".toUTF8.toList else .tag "!" suffix, rest)
  if endsWord (peek rest) || (inBraces && peek rest = ',') then pure (token, rest) else failure

def versionPart? (cells : List Cell) : Option (Nat × List Cell) :=
  let (digits, rest) := spanChars Char.isDigit cells
  if digits = [] || 9 < digits.length then none
  else some (digits.foldl (fun value c => 10 * value + (c.toNat - '0'.toNat)) 0, rest)

def version? (cells : List Cell) : Option (Token × List Cell) := do
  let (major, rest) ← versionPart? cells
  if peek rest = '.' then
    let (minor, rest) ← versionPart? (rest.drop 1)
    if major = 1 ∧ (minor = 1 ∨ minor = 2) then pure (.version, rest) else failure
  else failure

def handle? (cells : List Cell) : Option (Token × List Cell) := do
  if peek cells ≠ '!' then failure
  let (word, rest) := spanChars isNameChar (cells.drop 1)
  let (name, rest) ←
    if peek rest = '!' then pure ('!' :: word ++ ['!'], rest.drop 1)
    else if word = [] then pure (['!'], rest)
    else failure
  let (blanks, rest) := spanChars isBlank rest
  if blanks = [] then failure
  let (expansion, rest) ← octetsAt? true rest
  if endsWord (peek rest) then pure (.handle (String.ofList name) expansion, rest) else failure

def directive? (cells : List Cell) : Option (Token × List Cell) := do
  let (name, rest) := spanChars isNameChar cells
  if !endsWord (peek rest) then failure
  let rest := rest.dropWhile (isBlank ·.char)
  if name = "YAML".toList then version? rest
  else if name = "TAG".toList then handle? rest
  else failure

end QasmValues.Yaml
