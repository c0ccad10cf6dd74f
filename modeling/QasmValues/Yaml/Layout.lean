import QasmValues.Yaml.Block
import QasmValues.Yaml.Plain
import QasmValues.Yaml.Quoted
import QasmValues.Yaml.Tag

/-! The tokens of a document.
That a node is a key shows only at the colon after it. So the places where a key
may start are remembered, and the tokens since the last of them are kept apart
until the colon comes or the place is given up. -/

namespace QasmValues.Yaml

inductive Frame where
  | root
  | block (column : Nat)
  | braces
  deriving DecidableEq, Repr

def Frame.indent : Frame → Nat
  | .block column => column + 1
  | .root | .braces => 0

/-- A place where a key may have started. In the column of a block's keys
nothing but a key can start. -/
structure KeyPlace where
  cell : Cell
  required : Bool
  deriving DecidableEq, Repr

/-- The tokens read so far and what surrounds the next one. -/
structure Layout where
  frame : Frame
  keyAllowed : Bool
  keyPlace : Option KeyPlace
  settled : List Token
  recent : List Token
  deriving DecidableEq, Repr

namespace Layout

def start : Layout := ⟨.root, true, none, [], []⟩

def tokens (s : Layout) : List Token := (s.recent ++ s.settled).reverse

def inBraces (s : Layout) : Bool := s.frame = .braces

def push (s : Layout) (token : Token) : Layout := { s with recent := token :: s.recent }

def allowKey (s : Layout) (allowed : Bool) : Layout := { s with keyAllowed := allowed }

def dropKey? (s : Layout) : Option Layout :=
  if s.keyPlace.any (·.required) then none else some { s with keyPlace := none }

/-- Give up the place of a key that is on another line or too far away. -/
def expireKey? (s : Layout) (here : Cell) : Option Layout :=
  if s.keyPlace.any fun k => k.cell.line < here.line || k.cell.index + 1024 < here.index then
    s.dropKey?
  else some s

def markKey? (s : Layout) (here : Cell) : Option Layout :=
  if s.keyAllowed then do
    let s ← s.dropKey?
    pure { s with
      keyPlace := some ⟨here, s.frame = .block here.column⟩
      settled := s.recent ++ s.settled
      recent := [] }
  else some s

def closeBlock (s : Layout) (column : Option Nat) : Layout :=
  match s.frame with
  | .block c => if column.all (· < c) then { s.push .blockEnd with frame := .root } else s
  | .root | .braces => s

/-- The frame of a key in a column and the token that opens it; there is no
block in a block. -/
def openBlock? (column : Nat) : Frame → Option (Frame × List Token)
  | .root => some (.block column, [.blockStart])
  | .block c => if c < column then none else some (.block c, [])
  | .braces => some (.braces, [])

def announce? (s : Layout) (column : Nat) : Option Layout :=
  if s.inBraces then some s
  else if s.keyAllowed then do
    let (frame, opening) ← openBlock? column s.frame
    pure { s with frame, recent := opening ++ s.recent }
  else none

def makeKey? (s : Layout) (place : KeyPlace) : Option Layout := do
  let (frame, opening) ← openBlock? place.cell.column s.frame
  pure { s with
    frame
    keyPlace := none
    settled := s.recent ++ .key :: opening ++ s.settled
    recent := [] }

/-- Move past blanks, comments and line breaks. A new line may start with a key,
and then it must not be indented by a tab. -/
def skip (s : Layout) (comment : Bool) : List Cell → Layout × List Cell
  | [] => (s, [])
  | c :: rest =>
    if isBreak c.char then (s.allowKey (s.keyAllowed || !s.inBraces)).skip false rest
    else if comment && c.char ≠ endMark then s.skip true rest
    else if (c.column = 0 && c.char = '\ufeff') || c.char = ' ' ||
        (c.char = '\t' && (s.inBraces || !s.keyAllowed)) then s.skip false rest
    else if c.char = '#' then s.skip true rest
    else (s, c :: rest)

def indicator? (s : Layout) (token : Token) (keyAllowed : Bool) : Option Layout := do
  pure (((← s.dropKey?).push token).allowKey keyAllowed)

def node? (s : Layout) (here : Cell) (token : Token) : Option Layout := do
  pure (((← s.markKey? here).push token).allowKey false)

def boundary? (s : Layout) (cells : List Cell) : Option (Layout × List Cell) := do
  if s.inBraces then failure
  let s := s.closeBlock none
  if peek cells = '%' then
    let (token, rest) ← directive? (cells.drop 1)
    pure (← s.indicator? token false, ← nextLine? rest)
  else
    let token := if peek cells = '-' then .documentStart else .documentEnd
    pure (← s.indicator? token false, cells.drop 3)

def value? (s : Layout) (here : Cell) : Option Layout := do
  match s.keyPlace with
  | some place => pure (((← s.makeKey? place).push .value).allowKey false)
  | none => pure (((← s.announce? here.column).push .value).allowKey !s.inBraces)

def anchor? (cells : List Cell) : Option (List Cell) :=
  let (name, rest) := spanChars isNameChar cells
  let next := peek rest
  if name ≠ [] && (endsWord next || "?:,]\x7d%@`".toList.contains next) then some rest else none

def token? (s : Layout) (here : Cell) (rest : List Cell) : Option (Layout × List Cell) := do
  let apart := s.inBraces || endsWord (peek rest)
  if atMarker (here :: rest) || (here.column = 0 && here.char = '%') then
    s.boundary? (here :: rest)
  else match here.char with
    | '\x7b' =>
      if s.frame = .root then
        pure ({ ← s.indicator? .braceStart true with frame := .braces }, rest)
      else failure
    | '\x7d' =>
      if s.inBraces then pure ({ ← s.indicator? .braceEnd false with frame := .root }, rest)
      else failure
    | ',' => if s.inBraces then pure (← s.indicator? .comma true, rest) else failure
    | '&' => pure (← s.node? here .anchor, ← anchor? rest)
    | '!' =>
      let (tag, rest) ← tag? s.inBraces rest
      pure (← s.node? here tag, rest)
    | '"' | '\'' =>
      let (content, rest) ← quoted? here.char rest
      pure (← s.node? here (.text (String.ofList content) false), rest)
    | c =>
      if c = '?' && apart then
        pure (← (← s.announce? here.column).indicator? .key !s.inBraces, rest)
      else if c = ':' && apart then pure (← s.value? here, rest)
      else if (c = '|' || c = '>') && !s.inBraces then
        let (content, rest) ← block? (c = '>') s.frame.indent rest
        pure (← s.indicator? (.text (String.ofList content) false) true, rest)
      else if c = '-' && endsWord (peek rest) then failure
      else if startsPlain s.inBraces c (peek rest) then
        let text ← plain? s.inBraces s.frame.indent (here :: rest)
        let s ← s.node? here (.text (String.ofList text.content) true)
        pure (s.allowKey text.gap.endsLine, text.rest)
      else failure

def readTokens? : (fuel : Nat) → Layout → List Cell → Option Layout
  | 0, _, _ => none
  | fuel + 1, s, cells => do
    let (s, cells) := s.skip false cells
    match cells with
    | [] => failure
    | here :: rest =>
      let s ← s.expireKey? here
      if here.char = endMark then (s.closeBlock none).dropKey?
      else
        let (s, rest) ← (s.closeBlock (some here.column)).token? here rest
        readTokens? fuel s rest

end Layout

def tokens? (text : String) : Option (List Token) := do
  let cells ← cells? text
  let s ← Layout.readTokens? cells.length .start cells
  pure s.tokens

end QasmValues.Yaml
