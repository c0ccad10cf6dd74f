import QasmValues.Yaml.Gap

/-! Texts that stand on lines of their own.
A bar keeps the lines as they are and an angle bracket folds them. The lines are
indented alike, and the text ends with the first line that is indented less. -/

namespace QasmValues.Yaml

/-- What becomes of the breaks after the last line. -/
inductive Chomp where
  | strip
  | clip
  | keep
  deriving DecidableEq, Repr

def Chomp.text (last more : List Char) : Chomp → List Char
  | .strip => []
  | .clip => last
  | .keep => last ++ more

/-- The indicators of a block: how its end is treated, and how much deeper it is
indented than what holds it, if that is said. -/
structure BlockHeader where
  chomp : Chomp
  indent : Option Nat
  deriving DecidableEq, Repr

def chompAt (cells : List Cell) : Option Chomp × List Cell :=
  match peek cells with
  | '-' => (some .strip, cells.drop 1)
  | '+' => (some .keep, cells.drop 1)
  | _ => (none, cells)

def indentAt? (cells : List Cell) : Option (Option Nat × List Cell) :=
  let c := peek cells
  if c = '0' then none
  else if c.isDigit then some (some (c.toNat - '0'.toNat), cells.drop 1)
  else some (none, cells)

def blockHeader? (cells : List Cell) : Option (BlockHeader × List Cell) := do
  let (before, rest) := chompAt cells
  let (indent, rest) ← indentAt? rest
  let (after, rest) := if before.isNone && indent.isSome then chompAt rest else (none, rest)
  pure (⟨(before <|> after).getD .clip, indent⟩, ← nextLine? rest)

/-- The empty lines before a line of a block. -/
structure BlockGap where
  breaks : List Char
  deepest : Nat
  rest : List Cell

/-- Skip empty lines and the indentation of the line after them, which holds no
tab. The indentation is 0 while it is not known. -/
def blockGap? (indent : Nat) : List Cell → Option BlockGap
  | [] => some ⟨[], 0, []⟩
  | c :: rest => do
    let indenting := indent = 0 || c.column < indent
    if c.char = ' ' && indenting then blockGap? indent rest
    else if c.char = '\t' && indenting then failure
    else if isBreak c.char then
      let gap ← blockGap? indent rest
      pure { gap with breaks := c.char :: gap.breaks, deepest := max c.column gap.deepest }
    else pure ⟨[], c.column, c :: rest⟩

def atBlockLine (indent : Nat) (cells : List Cell) : Bool :=
  columnAt cells = indent && peek cells ≠ endMark

/-- Read the lines of a block from the start of one. Breaks are folded between
two lines that both start with a word. -/
def blockLines? (folded : Bool) (chomp : Chomp) (indent : Nat) :
    (fuel : Nat) → List Cell → Option (List Char × List Cell)
  | 0, _ => none
  | fuel + 1, cells => do
    let (line, rest) := spanChars (!endsLine ·) cells
    let last := charsOf ((rest.take 1).filter (isBreak ·.char))
    let gap ← blockGap? indent (rest.drop last.length)
    if atBlockLine indent gap.rest then
      let breaks := last ++ gap.breaks
      let fold := folded && !isBlank (peek cells) && !isBlank (peek gap.rest)
      let (more, rest) ← blockLines? folded chomp indent fuel gap.rest
      pure (line ++ (if fold then foldBreaks breaks else breaks) ++ more, rest)
    else pure (line ++ chomp.text last gap.breaks, gap.rest)

def block? (folded : Bool) (indent : Nat) (cells : List Cell) :
    Option (List Char × List Cell) := do
  let (header, rest) ← blockHeader? cells
  let said := header.indent.map (indent - 1 + ·)
  let gap ← blockGap? (said.getD 0) rest
  let column := said.getD (max gap.deepest (max indent 1))
  if atBlockLine column gap.rest then
    let (content, rest) ← blockLines? folded header.chomp column cells.length gap.rest
    pure (gap.breaks ++ content, rest)
  else pure (header.chomp.text [] gap.breaks, gap.rest)

end QasmValues.Yaml
