import QasmValues.Yaml.Gap

/-! Texts between quotation marks or apostrophes.
Both go on over lines. Between quotation marks a backslash escapes, also the end
of a line; between apostrophes a doubled one stands for itself. -/

namespace QasmValues.Yaml

def escapes : List (Char × Char) :=
  [('0', '\x00'), ('a', '\x07'), ('b', '\x08'), ('t', '\t'), ('\t', '\t'), ('n', '\n'),
    ('v', '\x0b'), ('f', '\x0c'), ('r', '\r'), ('e', '\x1b'), (' ', ' '), ('"', '"'), ('/', '/'),
    ('\\', '\\'), ('N', '\u0085'), ('_', '\u00a0'), ('L', '\u2028'), ('P', '\u2029')]

def hexDigits (c : Char) : Option Nat :=
  if c = 'x' then some 2 else if c = 'u' then some 4 else if c = 'U' then some 8 else none

/-- What an escape adds to a text, read after its backslash, and what follows
it. An escaped break adds the breaks after it. -/
def escape? : List Cell → Option (List Char × List Cell)
  | [] => none
  | c :: rest =>
    if isBreak c.char then
      let (gap, rest) := Gap.read rest
      some (gap.breaks, rest)
    else do
      match hexDigits c.char with
      | some count =>
        let value ← hexNumber? (charsOf (rest.take count))
        if value.isValidChar then pure ([Char.ofNat value], rest.drop count) else failure
      | none => pure ([← escapes.lookup c.char], rest)

def quotedFrom? (mark : Char) : (fuel : Nat) → List Cell → Option (List Char × List Cell)
  | 0, _ | _, [] => none
  | fuel + 1, c :: rest => do
    if atMarker (c :: rest) || c.char = endMark then failure
    else
      let doubled := mark = '\'' && peek rest = mark
      if c.char = mark && !doubled then pure ([], rest)
      else
        let (content, rest) ←
          if c.char = mark then pure ([mark], rest.drop 1)
          else if isSpace c.char then
            let (gap, rest) := Gap.read (c :: rest)
            pure (gap.text, rest)
          else if mark = '"' && c.char = '\\' then escape? rest
          else pure ([c.char], rest)
        let (more, rest) ← quotedFrom? mark fuel rest
        pure (content ++ more, rest)

def quoted? (mark : Char) (cells : List Cell) : Option (List Char × List Cell) :=
  quotedFrom? mark cells.length cells

end QasmValues.Yaml
